import LiveBindings.Proofs.Merging

/-!
# Grouping into an object

A view that groups into an object has an entry for every way in which keys of the elements are written: a list of the elements of all
keys that are written so.

`Reaches.shows_group_map` is the result: as long as the keys are scalars, the object has exactly one entry for each text of a key, and
its list is what joining the groups of the keys with that text gives.
-/

namespace LiveBindings

variable {π σ : Type}

/-- The entries are the texts of the keys, each with a list of the elements that have such a key: those of one key after those of
another, in the order of the keys. -/
structure World.NamesGroups (w : World (Callback π) (Env π σ)) (entries : List (String × Value)) (up latest : List Value) : Prop where
  nodup : (entries.map (·.1)).Nodup
  names : ∀ name, name ∈ entries.map (·.1) ↔ ∃ k ∈ latest, w.contents.key k = name
  lists : ∀ name v, (name, v) ∈ entries → ∃ l, v = .list l ∧ SameItems (w.listCell l).items
    (((groupsBy up latest).filter fun g => w.contents.key g.1 == name).flatMap (·.2))

namespace Neighbours

variable {N : Neighbours π σ} {E : Engine π σ} {observer : π → Value → Live π σ Unit} {D : Desk} {light : Set (Cancel π)}
  {output : ObjectId} {xs : List Row} {bs bs' : List Bucket} {merged : List (String × ListId)} {w w' w₁ : World (Callback π) (Env π σ)}
  {S T : Set Part}

/-- A view that groups into an object is up to date with its rows. -/
structure ShowsGroupMap (N : Neighbours π σ) (D : Desk) (light : Set (Cancel π)) (output : ObjectId) (xs : List Row) (bs : List Bucket)
    (w : World (Callback π) (Env π σ)) : Prop extends N.Groups D light xs bs w where
  view : ∃ merged, N.Keeps D.owner (.groupMap output D.relations bs merged) w ∧ N.Merges bs merged w
  owns : N.Owns w (.object output)
  publishes : ∃ c lists, N.Publishes output bs c lists w

/-- The merged lists stay apart from the buckets when these are filled anew. -/
theorem Merges.refill {groups : List (Value × List Value)} (h : N.Merges bs merged w) (h₁ : N.Changes S T w w₁)
    (hf : N.Filled E bs groups w w₁ bs') : N.Merges bs' merged w₁ where
  owns := (h.after h₁).owns
  inj := h.inj
  apart n l hl b hb := by
    rcases hf.origin b hb with hb | ⟨hm, hp⟩
    · exact h.apart n l hl b hb
    · exact ⟨fun he => hm (he ▸ (h.owns n l hl).made), fun he => hp (he ▸ (h.owns n l hl).made)⟩

namespace ShowsGroupMap

theorem after (h : N.ShowsGroupMap D light output xs bs w) (h' : N.Changes ∅ ∅ w w') : N.ShowsGroupMap D light output xs bs w' := by
  obtain ⟨merged, hk, hm⟩ := h.view
  obtain ⟨c, lists, hp⟩ := h.publishes
  exact ⟨h.toGroups.after h' (Set.disjoint_empty _) fun _ _ => ⟨Set.notMem_empty _, Set.notMem_empty _⟩,
    ⟨merged, hk.after h' (Set.notMem_empty _), hm.after h'⟩, h'.owns _ h.owns,
    c, lists, hp.after h.sorted h.owns h' (fun _ => Set.notMem_empty _) (Set.notMem_empty _)⟩

/-- While the keys are scalars, what is joined for a name are the groups of the keys with that text, whatever the contents. -/
theorem joins_groups {groups : List (Value × List Value)} {c c' : Contents} (name : String) (h : w.Fills bs groups)
    (hscalar : ∀ g ∈ groups, g.1.isScalar = true) :
    SameItems ((bs.filter fun b => c.key b.key == name).flatMap fun b => (w.listCell b.members).items)
      ((groups.filter fun g => c'.key g.1 == name).flatMap (·.2)) := by
  induction h with
  | nil => exact .nil
  | @cons b g _ _ hbg _ ih =>
    rw [List.forall_mem_cons] at hscalar
    have hkey : c.key b.key = c'.key g.1 := (Contents.key_eq_of_same hscalar.1 (Value.same_symm hbg.1)).symm
    rw [List.filter_cons, List.filter_cons, hkey]
    split
    · rw [List.flatMap_cons, List.flatMap_cons]
      exact hbg.2.append (ih hscalar.2)
    · exact ih hscalar.2

/-- What the object shows while the keys are scalars. -/
theorem names (h : N.ShowsGroupMap D light output xs bs w) (hscalar : ∀ k ∈ xs.map (·.output), k.isScalar = true) :
    w.NamesGroups (w.objectCell output).entries (xs.map (·.input)) (xs.map (·.output)) := by
  obtain ⟨c, lists, hjoined, hnodup, hentries⟩ := h.publishes
  have hscalar' : ∀ g ∈ groupsOf xs, g.1.isScalar = true := fun g hg => by
    obtain ⟨k, hk, rfl⟩ := List.mem_map.1 hg
    exact hscalar k (mem_of_mem_firsts hk)
  have hkeys : ∀ b ∈ bs, ∃ k ∈ xs.map (·.output), c.key b.key = w.contents.key k := fun b hb => by
    obtain ⟨g, hg, hbg, -⟩ := exists_of_forall₂ h.fills hb
    obtain ⟨k, hk, rfl⟩ := List.mem_map.1 hg
    have hk := mem_of_mem_firsts hk
    exact ⟨k, hk, (Contents.key_eq_of_same (hscalar k hk) (Value.same_symm hbg)).symm⟩
  refine ⟨hnodup, fun name => ?_, fun name v hm => ?_⟩
  · rw [← not_iff_not, ← Fields.get?_eq_none_iff, hentries, Option.map_eq_none_iff, Fields.get?_eq_none_iff, hjoined.map_names,
      mem_names_bucketsByName, not_iff_not]
    constructor
    · rintro ⟨b, hb, rfl⟩
      exact (hkeys b hb).imp fun k hk => ⟨hk.1, hk.2.symm⟩
    · rintro ⟨k, hk, rfl⟩
      obtain ⟨a, ha, hak⟩ := exists_first hk
      obtain ⟨i, hi⟩ := List.getElem?_of_mem ha
      obtain ⟨b, hb, -, hba⟩ := h.toGroups.exists_bucket hi
      exact ⟨b, hb, (Contents.key_eq_of_same (hscalar k hk) (Value.same_symm (Value.same_trans hba hak))).symm⟩
  · have hget := hentries name
    rw [Fields.get?_of_mem hnodup hm] at hget
    obtain ⟨l, hl, rfl⟩ := Option.map_eq_some_iff.1 hget.symm
    obtain ⟨⟨n, buckets⟩, hg, hn, hitems⟩ := exists_of_forall₂ hjoined.joins.flip (Fields.mem_of_get? hl)
    obtain rfl : name = n := hn
    rw [eq_filter_of_mem_bucketsByName hg] at hitems
    exact ⟨l, rfl, hitems.trans (joins_groups name h.fills hscalar')⟩

/-- The view groups its elements anew. -/
theorem regroup (hN : N.Around E) (hw : N.calm w) (room : w.Admits) (hrows : N.Rows D light xs w)
    (hk : N.Keeps D.owner (.groupMap output D.relations bs merged) w) (hm : N.Merges bs merged w) (hs : N.Sorted bs w)
    (ho : N.Owns w (.object output)) (hnd : ((w.objectCell output).entries.map (·.1)).Nodup) :
    (regroupMap E D.owner output D.relations).Ends w fun _ w' => N.Changes Set.univ Set.univ w w' ∧
      ∃ bs', N.ShowsGroupMap D light output xs bs' w' := by
  rw [regroupMap]
  refine hN.regroup (.map output merged) hw room hrows hk hs fun {w₁ bs'} h₁ hk₁ hf => ?_
  have hentries : (w₁.objectCell output).entries = (w.objectCell output).entries := h₁.same _ ho (by simp [memberLists])
  have ho₁ := h₁.owns _ ho
  simp only [Run.ends_bind]
  refine (hN.publishGroupMap h₁.calm (h₁.admits room) ho₁ hk₁ hf.sorted (hm.refill h₁ hf) (by rw [hentries]; exact hnd)).imp
    fun _ w₂ ended => ?_
  obtain ⟨⟨names, h₂⟩, merged', ⟨hk₂, hm₂⟩, c, lists, hp₂⟩ := ended
  have hm₁ := hm.refill h₁ hf
  have hg₁ : N.Groups D light xs bs' w₁ := ⟨hrows.after h₁ (by simp), hf.sorted, hf.fills⟩
  have hg₂ := hg₁.after h₂ (by simp) fun b hb => by simpa using hm₁.notMem hb
  refine ((Grouping.map output merged').setBuckets hN h₂.calm hk₂ bs').imp fun _ w₃ ended => ?_
  obtain ⟨h₃, hk₃⟩ := ended
  refine ⟨((h₁.mono (Set.subset_univ _) (Set.subset_univ _)).trans (h₂.mono (Set.subset_univ _) (Set.subset_univ _))).trans
    (h₃.mono (Set.subset_univ _) (Set.subset_univ _)), bs', ?_⟩
  exact ⟨hg₂.after h₃ (by simp) fun _ _ => by simp, ⟨merged', hk₃, hm₂.after h₃⟩, h₃.owns _ (h₂.owns _ ho₁),
    c, lists, hp₂.after hg₂.sorted (h₂.owns _ ho₁) h₃ (by simp) (by simp)⟩

/-- When the rows have become others, the view groups anew. -/
theorem regrouped {ys : List Row} (hN : N.Around E) (room : w.Admits) (h : N.ShowsGroupMap D light output xs bs w)
    (h₁ : N.Changes (rowParts D xs) ∅ w w₁) (hrows : N.Rows D light ys w₁) :
    (regroupMap E D.owner output D.relations).Ends w₁ fun _ w' => N.Changes Set.univ Set.univ w₁ w' ∧
      ∃ bs', N.ShowsGroupMap D light output ys bs' w' := by
  obtain ⟨merged, hk, hm⟩ := h.view
  obtain ⟨c, lists, hp⟩ := h.publishes
  have hentries : (w₁.objectCell output).entries = (w.objectCell output).entries := h₁.same _ h.owns (by simp)
  exact regroup hN h₁.calm (h₁.admits room) hrows (hk.after h₁ (by simp)) (hm.after h₁) (h.sorted.after h₁ fun _ _ => by simp)
    (h₁.owns _ h.owns) (by rw [hentries]; exact hp.nodup)

/-- A result that cannot be told from the one before leaves the groups as they are. -/
theorem set_same {i : Nat} {x : Row} {v : Value} (h : N.ShowsGroupMap D light output xs bs w) (hi : xs[i]? = some x)
    (hv : x.output.same v = true) (h' : N.Changes {.entry x.entry} ∅ w w')
    (hrows : N.Rows D light (xs.set i { x with output := v }) w') :
    N.ShowsGroupMap D light output (xs.set i { x with output := v }) bs w' := by
  obtain ⟨merged, hk, hm⟩ := h.view
  obtain ⟨c, lists, hp⟩ := h.publishes
  refine ⟨⟨hrows, h.sorted.after h' fun _ _ => by simp, Groups.set_same (h.sorted.fills_after h.fills h' fun _ _ => by simp) hi hv⟩,
    ⟨merged, hk.after h' (by simp), hm.after h'⟩, h'.owns _ h.owns, c, lists, hp.after h.sorted h.owns h' (by simp) (by simp)⟩

theorem during (h : N.ShowsGroupMap D light output xs bs w) (hN : N.Around E) (hw : N.calm w) (q : Progress π) :
    N.ShowsGroupMap D light output xs bs (w.during q) := by
  obtain ⟨merged, hk, hm⟩ := h.view
  obtain ⟨c, lists, hp⟩ := h.publishes
  exact ⟨hN.lasting_during (Groups.lasting hN) hw q h.toGroups,
    ⟨merged, hk.during hN hw q, fun n l hl => hN.owns_during hw (hm.owns n l hl) q, hm.inj, hm.apart⟩, hN.owns_during hw h.owns q,
    c, lists, ⟨fun f hf => hN.owns_during hw (hp.joined.owns f hf) q, hp.joined.joins⟩, hp.nodup, hp.entries⟩

theorem lasting (hN : N.Around E) : N.Lasting (N.ShowsGroupMap D light output xs bs) := fun q hw h hg => (hg.during hN hw q).after h

/-- A view that has just been made shows nothing, and has nothing to show. -/
theorem made (hN : N.Around E) {next : Sink π} (hw : N.calm w)
    (run : PerElement.make .groupMap D.relation D.scope next w = .ok (D, some (.object output)) w') :
    N.calm w' ∧ N.ShowsGroupMap D light output [] [] w' := by
  obtain ⟨⟨hw', hrows⟩, hk, ho, hi⟩ := hN.make_object (fun _ _ => rfl) hw run
  refine ⟨hw', ⟨hrows, ⟨by simp, .nil⟩, .nil⟩, ⟨[], hk, ?_⟩, ho, w'.contents, [], ⟨by simp, .nil⟩, ?_, ?_⟩
  · constructor <;> intros <;> contradiction
  · rw [hi]
    exact List.nodup_nil
  · rw [hi]
    exact fun _ => rfl

/-- One step of a view that groups into an object. -/
theorem step (hN : N.Around E) (hE : N.Evaluates E D light) (hw : N.calm w) (room : w.Admits)
    (h : N.ShowsGroupMap D light output xs bs w) (s : Feed) (hs : s.Valid (xs.map (·.input))) :
    (s.run E observer D).Ends w fun _ w' => s.Results N E D w w' ∧ ∃ xs', xs'.map (·.input) = s.after w (xs.map (·.input)) ∧
      N.calm w' ∧ ∃ bs', N.ShowsGroupMap D light output xs' bs' w' := by
  obtain ⟨merged, hk, -⟩ := h.view
  refine (Redoes.groupMap output bs merged).step (P := fun ys w' => ∃ bs', N.ShowsGroupMap D light output ys bs' w')
    hN hE hw room h.rows hk (fun h => h.choose_spec.rows) ?_ ?_ ?_ s hs
  · rintro ys w₁ w₂ q hw₁ h' ⟨bs', hg⟩
    exact ⟨bs', lasting hN q hw₁ h' hg⟩
  · intro q w₁ ys room' h₁ hrows
    exact (h.during hN hw q).regrouped hN room' h₁ hrows
  · intro q w₁ i x v hi hsame h₁ hrows
    exact ⟨bs, (h.during hN hw q).set_same hi hsame h₁ hrows⟩

end ShowsGroupMap

/-- Wherever a view that groups into an object can get to, it is up to date with rows for the elements that it has been told of. -/
theorem Reaches.groupMapped (hN : N.Around E) (hE : N.Evaluates E D light) {up : List Value}
    (h : N.Reaches (PerElement.groupMap.machine E observer D (some (.object output))) up w) :
    N.calm w ∧ ∃ xs, xs.map (·.input) = up ∧ ∃ bs, N.ShowsGroupMap D light output xs bs w := by
  refine h.keepsRows (I := fun xs w => ∃ bs, N.ShowsGroupMap D light output xs bs w) ?_ ?_ ?_
  · intro w w' next hw run
    obtain ⟨hw', hg⟩ := ShowsGroupMap.made hN hw run
    exact ⟨hw', [], hg⟩
  · rintro xs w w' q hw h' ⟨bs, hg⟩
    exact ⟨bs, ShowsGroupMap.lasting hN q hw h' hg⟩
  · rintro xs w s hw room ⟨bs, hg⟩ hs
    exact (hg.step hN hE hw room s hs).imp fun _ w' ⟨_, ys, hup, hw', bs', hg'⟩ => ⟨ys, hup, hw', bs', hg'⟩

end Neighbours

end LiveBindings
