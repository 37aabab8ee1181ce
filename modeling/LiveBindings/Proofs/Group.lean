import LiveBindings.Proofs.Buckets

/-!
# Grouping

A view that groups shows a pair for every key of the elements: the key, and the list of the elements that have it. The keys stand in
the order in which they first occur.

`Reaches.shows_groups` is the result: the list of the view shows the groups of the elements by their latest keys. A key that there
was before a step and that there is after it keeps its pair and its list of members; the pair is left alone, and the list of the
members is spliced at most once.
-/

namespace LiveBindings

variable {π σ : Type}

/-- The items are pairs of the keys of groups, each with a list of the members. -/
def World.Tuples (w : World (Callback π) (Env π σ)) : List Value → List (Value × List Value) → Prop :=
  List.Forall₂ fun v g => ∃ pair key members, v = .list pair ∧ (w.listCell pair).items = [key, .list members] ∧ key.same g.1 = true ∧
    SameItems (w.listCell members).items g.2

namespace Neighbours

variable {N : Neighbours π σ} {E : Engine π σ} {observer : π → Value → Live π σ Unit} {D : Desk} {light : Set (Cancel π)}
  {output : ListId} {xs : List Row} {bs bs' : List Bucket} {groups : List (Value × List Value)} {w w' w₁ : World (Callback π) (Env π σ)}
  {S T : Set Part}

/-- A view that groups is up to date with its rows. -/
structure ShowsGroups (N : Neighbours π σ) (D : Desk) (light : Set (Cancel π)) (output : ListId) (xs : List Row) (bs : List Bucket)
    (w : World (Callback π) (Env π σ)) : Prop extends N.Groups D light xs bs w where
  view : N.Keeps D.owner (.group output D.relations bs) w
  owns : N.Owns w (.list output)
  apart : ∀ b ∈ bs, output ≠ b.members ∧ output ≠ b.pair
  items : (w.listCell output).items = bs.map (Value.list ·.pair)

/-- What grouping anew does to the lists that there were before: the bucket of a key that still occurs is used again. -/
structure Regrouped (N : Neighbours π σ) (E : Engine π σ) (output : ListId) (groups : List (Value × List Value)) (bs bs' : List Bucket)
    (w w' : World (Callback π) (Env π σ)) : Prop where
  owns : ∀ b ∈ bs, N.Owns w' (.list b.members) ∧ N.Owns w' (.list b.pair)
  kept : ∀ b ∈ bs, ∀ (j : Nat) (g : Value × List Value), groups[j]? = some g → b.key.same g.1 = true → bs'[j]? = some b
  output : N.Spliced E output w w'
  pairs : ∀ b ∈ bs, N.Untouched b.pair w w'
  members : ∀ b ∈ bs, N.Spliced E b.members w w'

namespace ShowsGroups

theorem lasting (hN : N.Around E) : N.Lasting (N.ShowsGroups D light output xs bs) := by
  intro w w' q hw h hg
  have hl := hN.owns_during hw hg.owns q
  have hsame : (w'.listCell output).items = (w.listCell output).items := h.same _ hl (Set.notMem_empty _)
  exact ⟨Groups.lasting hN q hw h hg.toGroups, Keeps.lasting hN q hw h hg.view, h.owns _ hl, hg.apart, hsame.trans hg.items⟩

/-- What the list of the view shows. -/
theorem tuples (h : N.ShowsGroups D light output xs bs w) : w.Tuples (w.listCell output).items (groupsOf xs) := by
  rw [h.items, World.Tuples, List.forall₂_map_left_iff]
  refine ((List.forall₂_and_left bs (groupsOf xs)).2 ⟨fun _ hb => hb, h.fills⟩).imp fun b g ⟨hb, hkey, hitems⟩ => ?_
  exact ⟨b.pair, b.key, b.members, rfl, (h.sorted.stands b hb).items, hkey, hitems⟩

end ShowsGroups

namespace Regrouped

/-- What was done to other parts before makes no difference. -/
theorem after (h : N.Regrouped E output groups bs bs' w₁ w') (hu : N.Untouched output w w₁)
    (hbs : ∀ b ∈ bs, N.Untouched b.members w w₁ ∧ N.Untouched b.pair w w₁) : N.Regrouped E output groups bs bs' w w' where
  owns := h.owns
  kept := h.kept
  output := .after hu h.output
  pairs b hb := (hbs b hb).2.trans (h.pairs b hb)
  members b hb := .after (hbs b hb).1 (h.members b hb)

theorem lasting (hN : N.Around E) {w : World (Callback π) (Env π σ)} :
    N.Lasting fun w' => N.Owns w' (.list output) ∧ N.Regrouped E output groups bs bs' w w' := by
  rintro w₁ w₂ q hw h ⟨hl, hr⟩
  obtain ⟨hl', ho⟩ := hN.lasting_spliced q hw h ⟨hl, hr.output⟩
  have hm := fun b hb => hN.lasting_spliced q hw h ⟨(hr.owns b hb).1, hr.members b hb⟩
  have hp := fun b hb => hN.lasting_untouched q hw h ⟨(hr.owns b hb).2, hr.pairs b hb⟩
  exact ⟨hl', fun b hb => ⟨(hm b hb).1, (hp b hb).1⟩, hr.kept, ho, fun b hb => (hp b hb).2, fun b hb => (hm b hb).2⟩

end Regrouped

/-- The view groups its elements anew. -/
theorem ShowsGroups.regroup (hN : N.Around E) (hw : N.calm w) (room : w.Admits) (hrows : N.Rows D light xs w)
    (hk : N.Keeps D.owner (.group output D.relations bs) w) (hs : N.Sorted bs w) (hl : N.Owns w (.list output))
    (ho : ∀ b ∈ bs, output ≠ b.members ∧ output ≠ b.pair) :
    (regroupList E D.owner output D.relations).Ends w fun _ w' => N.Changes Set.univ Set.univ w w' ∧
      ∃ bs', N.ShowsGroups D light output xs bs' w' ∧ N.Regrouped E output (groupsOf xs) bs bs' w w' := by
  rw [regroupList]
  refine hN.regroup (.list output) hw room hrows hk hs fun {w₁ bs'} h₁ hk₁ hf => ?_
  have hout : .list output ∉ memberLists bs := fun ⟨b, hb, he⟩ => (ho b hb).1 (Part.list.inj he)
  have hpairs {b : Bucket} (hb : b ∈ bs) : .list b.pair ∉ insert (.block D.owner) (memberLists bs) := by
    simpa using hs.pair_notMem hb
  have hl₁ := h₁.owns _ hl
  have ho' : ∀ b ∈ bs', output ≠ b.members ∧ output ≠ b.pair := fun b hb =>
    (hf.origin b hb).elim (ho b) fun hn => ⟨fun he => hn.1 (he ▸ hl.made), fun he => hn.2 (he ▸ hl.made)⟩
  have hg₁ : N.Groups D light xs bs' w₁ := ⟨hrows.after h₁ (by simp), hf.sorted, hf.fills⟩
  simp only [Run.ends_bind]
  refine (hN.reconcile h₁.calm hl₁ (h₁.admits room) _).imp fun _ w₂ ended => ?_
  obtain ⟨h₂, hitems, hs₂⟩ := ended
  have hne : ∀ b : Bucket, output ≠ b.members ∧ output ≠ b.pair →
      .list b.members ∉ ({.list output} : Set Part) ∧ .list b.pair ∉ ({.list output} : Set Part) := fun b hb =>
    ⟨fun he => hb.1 (Part.list.inj he).symm, fun he => hb.2 (Part.list.inj he).symm⟩
  have hg₂ := hg₁.after h₂ (by simp) fun b hb => hne b (ho' b hb)
  refine ((Grouping.list output).setBuckets hN h₂.calm (hk₁.after h₂ (by simp)) bs').imp fun _ w₃ ended => ?_
  obtain ⟨h₃, hk₃⟩ := ended
  have hsame₃ : (w₃.listCell output).items = (w₂.listCell output).items := h₃.same _ (h₂.owns _ hl₁) (by simp)
  have hclosed : (w₂.listCell output).items = bs'.map (Value.list ·.pair) := hitems.eq_lists
  refine ⟨((h₁.mono (Set.subset_univ _) (Set.subset_univ _)).trans (h₂.mono (Set.subset_univ _) (Set.subset_univ _))).trans
    (h₃.mono (Set.subset_univ _) (Set.subset_univ _)), bs', ?_, ?_⟩
  · exact ⟨hg₂.after h₃ (by simp) fun b hb => by simp, hk₃, h₃.owns _ (h₂.owns _ hl₁), ho', hsame₃.trans hclosed⟩
  · have hafter {l : ListId} (hw₁ : N.Owns w₁ (.list l)) (hne : .list l ∉ ({.list output} : Set Part)) : N.Untouched l w₁ w₃ :=
      (h₂.untouched hw₁ hne hne).trans (h₃.untouched (h₂.owns _ hw₁) (by simp) (Set.notMem_empty _))
    have howns {p : Part} (hp : N.Owns w p) : N.Owns w₃ p := h₃.owns _ (h₂.owns _ (h₁.owns _ hp))
    refine ⟨fun b hb => ⟨howns (hs.stands b hb).members, howns (hs.stands b hb).pair⟩, hf.kept, ?_, fun b hb => ?_, fun b hb => ?_⟩
    · exact .after (h₁.untouched hl (by simpa using hout) hout) (hs₂.andThen (h₃.untouched (h₂.owns _ hl₁) (by simp) (Set.notMem_empty _)))
    · exact (h₁.untouched (hs.stands b hb).pair (hpairs hb) (hs.pair_notMem hb)).trans
        (hafter (h₁.owns _ (hs.stands b hb).pair) (hne b (ho b hb)).2)
    · exact (hf.spliced b hb).andThen (hafter (h₁.owns _ (hs.stands b hb).members) (hne b (ho b hb)).1)

namespace ShowsGroups

/-- When the rows have become others, the view groups anew. -/
theorem regrouped {ys : List Row} (hN : N.Around E) (room : w.Admits) (h : N.ShowsGroups D light output xs bs w)
    (h₁ : N.Changes (rowParts D xs) ∅ w w₁) (hrows : N.Rows D light ys w₁) :
    (regroupList E D.owner output D.relations).Ends w₁ fun _ w' => N.Changes Set.univ Set.univ w₁ w' ∧
      ∃ bs', N.ShowsGroups D light output ys bs' w' ∧ N.Regrouped E output (groupsOf ys) bs bs' w w' := by
  have hu {l : ListId} (hl : N.Owns w (.list l)) : N.Untouched l w w₁ := h₁.untouched hl (by simp) (Set.notMem_empty _)
  refine (regroup hN h₁.calm (h₁.admits room) hrows (h.view.after h₁ (by simp)) (h.sorted.after h₁ fun _ _ => by simp)
    (h₁.owns _ h.owns) h.apart).imp fun _ w₂ ⟨h₂, bs', hg, hr⟩ => ?_
  exact ⟨h₂, bs', hg, hr.after (hu h.owns) fun b hb =>
    ⟨hu (h.sorted.stands b hb).members, hu (h.sorted.stands b hb).pair⟩⟩

/-- A result that cannot be told from the one before leaves the groups as they are. -/
theorem set_same {i : Nat} {x : Row} {v : Value} (h : N.ShowsGroups D light output xs bs w) (hi : xs[i]? = some x)
    (hv : x.output.same v = true) (h' : N.Changes {.entry x.entry} ∅ w w')
    (hrows : N.Rows D light (xs.set i { x with output := v }) w') :
    N.ShowsGroups D light output (xs.set i { x with output := v }) bs w' ∧
      N.Regrouped E output (groupsOf (xs.set i { x with output := v })) bs bs w w' := by
  have hu {l : ListId} (hl : N.Owns w (.list l)) : N.Untouched l w w' := h'.untouched hl (by simp) (Set.notMem_empty _)
  have hg : N.Groups D light (xs.set i { x with output := v }) bs w' := ⟨hrows, h.sorted.after h' fun _ _ => by simp,
    Groups.set_same (h.sorted.fills_after h.fills h' fun _ _ => by simp) hi hv⟩
  refine ⟨⟨hg, h.view.after h' (by simp), h'.owns _ h.owns, h.apart, (hu h.owns).items.trans h.items⟩, ?_⟩
  refine ⟨fun b hb => ⟨h'.owns _ (h.sorted.stands b hb).members, h'.owns _ (h.sorted.stands b hb).pair⟩,
    fun b hb j g hj hk => hg.getElem?_of_key hb hj hk, .never (hu h.owns), fun b hb => hu (h.sorted.stands b hb).pair,
    fun b hb => .never (hu (h.sorted.stands b hb).members)⟩

/-- A view that has just been made shows nothing, and has nothing to show. -/
theorem made (hN : N.Around E) {next : Sink π} (hw : N.calm w)
    (run : PerElement.make .group D.relation D.scope next w = .ok (D, some (.list output)) w') :
    N.calm w' ∧ N.ShowsGroups D light output [] [] w' := by
  obtain ⟨⟨hw', hrows⟩, hk, ho, hi⟩ := hN.make_list (fun _ _ => rfl) hw run
  exact ⟨hw', ⟨hrows, ⟨by simp, .nil⟩, .nil⟩, hk, ho, by simp, hi⟩

/-- One step of a view that groups. -/
theorem step (hN : N.Around E) (hE : N.Evaluates E D light) (hw : N.calm w) (room : w.Admits) (h : N.ShowsGroups D light output xs bs w)
    (s : Feed) (hs : s.Valid (xs.map (·.input))) :
    (s.run E observer D).Ends w fun _ w' => s.Results N E D w w' ∧ ∃ xs', xs'.map (·.input) = s.after w (xs.map (·.input)) ∧
      N.calm w' ∧ ∃ bs', N.ShowsGroups D light output xs' bs' w' ∧ N.Regrouped E output (groupsOf xs') bs bs' w w' := by
  -- the view is the same whatever is in progress, and so is what becomes of its lists
  have during (q : Progress π) : N.ShowsGroups D light output xs bs (w.during q) := hN.lasting_during (lasting hN) hw q h
  have surface {ys : List Row} {q : Progress π} {bs' : List Bucket} {w' : World (Callback π) (Env π σ)}
      (hr : N.Regrouped E output (groupsOf ys) bs bs' (w.during q) w') : N.Regrouped E output (groupsOf ys) bs bs' w w' :=
    hr.after (hN.untouched_during hw q) fun _ _ => ⟨hN.untouched_during hw q, hN.untouched_during hw q⟩
  refine (Redoes.group output bs).step (P := fun ys w' => ∃ bs', N.ShowsGroups D light output ys bs' w' ∧
    N.Regrouped E output (groupsOf ys) bs bs' w w') hN hE hw room h.rows h.view (fun h => h.choose_spec.1.rows) ?_ ?_ ?_ s hs
  · rintro ys w₁ w₂ q hw₁ h' ⟨bs', hg, hr⟩
    exact ⟨bs', lasting hN q hw₁ h' hg, (Regrouped.lasting hN q hw₁ h' ⟨hg.owns, hr⟩).2⟩
  · intro q w₁ ys room' h₁ hrows
    refine ((during q).regrouped hN room' h₁ hrows).imp fun _ w₂ ended => ?_
    obtain ⟨h₂, bs', hg, hr⟩ := ended
    exact ⟨h₂, bs', hg, surface hr⟩
  · intro q w₁ i x v hi hsame h₁ hrows
    obtain ⟨hg, hr⟩ := (during q).set_same (E := E) hi hsame h₁ hrows
    exact ⟨bs, hg, surface hr⟩

end ShowsGroups

/-- Wherever a view that groups can get to, it is up to date with rows for the elements that it has been told of. -/
theorem Reaches.grouped (hN : N.Around E) (hE : N.Evaluates E D light) {up : List Value}
    (h : N.Reaches (PerElement.group.machine E observer D (some (.list output))) up w) :
    N.calm w ∧ ∃ xs, xs.map (·.input) = up ∧ ∃ bs, N.ShowsGroups D light output xs bs w := by
  refine h.keepsRows (I := fun xs w => ∃ bs, N.ShowsGroups D light output xs bs w) ?_ ?_ ?_
  · intro w w' next hw run
    obtain ⟨hw', hg⟩ := ShowsGroups.made hN hw run
    exact ⟨hw', [], hg⟩
  · rintro xs w w' q hw h' ⟨bs, hg⟩
    exact ⟨bs, ShowsGroups.lasting hN q hw h' hg⟩
  · rintro xs w s hw room ⟨bs, hg⟩ hs
    exact (hg.step hN hE hw room s hs).imp fun _ w' ⟨_, ys, hup, hw', bs', hg', _⟩ => ⟨ys, hup, hw', bs', hg'⟩

end Neighbours

end LiveBindings
