import LiveBindings.Proofs.Partition
import LiveBindings.Proofs.Recording

/-!
# Buckets

A view that groups keeps a bucket for every key: a list of the members, and the pair of the key and that list. When the elements are
grouped anew, the bucket of a key that there was before is used again, so that others who hold its lists go on seeing the members
(`Around.fillBuckets`).
-/

namespace LiveBindings

variable {π σ : Type}

/-- Every item of the first list has its counterpart in the second. -/
theorem exists_of_forall₂ {α β : Type} {R : α → β → Prop} {as : List α} {bs : List β} (h : List.Forall₂ R as bs) {a : α} (ha : a ∈ as) :
    ∃ b ∈ bs, R a b := by
  induction h with
  | nil => cases ha
  | cons hab _ ih =>
    rcases List.mem_cons.1 ha with rfl | ha
    · exact ⟨_, List.mem_cons_self .., hab⟩
    · exact (ih ha).imp fun b h => ⟨List.mem_cons_of_mem _ h.1, h.2⟩

/-- The lists of two buckets are four different ones, and the keys are not the same. -/
structure Bucket.Apart (b b' : Bucket) : Prop where
  members : b.members ≠ b'.members
  pairs : b.pair ≠ b'.pair
  memberPair : b.members ≠ b'.pair
  pairMember : b.pair ≠ b'.members
  keys : b.key.same b'.key = false

theorem Bucket.Apart.symm {b b' : Bucket} (h : b.Apart b') : b'.Apart b :=
  ⟨h.members.symm, h.pairs.symm, h.pairMember.symm, h.memberPair.symm, by rw [Value.same_comm]; exact h.keys⟩

instance : Std.Symm Bucket.Apart := ⟨fun _ _ => Bucket.Apart.symm⟩

/-- Each bucket has the key of its group, and the elements of it as members. -/
def World.Fills (w : World (Callback π) (Env π σ)) : List Bucket → List (Value × List Value) → Prop :=
  List.Forall₂ fun b g => b.key.same g.1 = true ∧ SameItems (w.listCell b.members).items g.2

/-- Buckets for groups are buckets for groups that cannot be told from them. -/
theorem World.Fills.trans {w : World (Callback π) (Env π σ)} {bs : List Bucket} {gs gs' : List (Value × List Value)} (h : w.Fills bs gs)
    (h' : List.Forall₂ (fun g g' => g.1.same g'.1 = true ∧ g.2 = g'.2) gs gs') : w.Fills bs gs' := by
  induction h generalizing gs' with
  | nil =>
    cases h'
    exact .nil
  | cons hb _ ih =>
    cases h' with
    | cons hg hrest => exact .cons ⟨Value.same_trans hb.1 hg.1, hg.2 ▸ hb.2⟩ (ih hrest)

namespace Neighbours

variable {N : Neighbours π σ} {E : Engine π σ} {S T : Set Part} {w w' w₁ : World (Callback π) (Env π σ)} {b : Bucket}
  {bs previous : List Bucket}

/-- A bucket has its two lists, and its pair shows the key and the members. -/
structure Stands (N : Neighbours π σ) (b : Bucket) (w : World (Callback π) (Env π σ)) : Prop where
  members : N.Owns w (.list b.members)
  pair : N.Owns w (.list b.pair)
  ne : b.members ≠ b.pair
  items : (w.listCell b.pair).items = [b.key, .list b.members]

/-- The lists of the members of buckets. -/
def memberLists (bs : List Bucket) : Set Part := {p | ∃ b ∈ bs, p = .list b.members}

@[simp] theorem block_notMem_memberLists {r : Ref .block} : .block r ∉ memberLists bs := by simp [memberLists]

@[simp] theorem disjoint_memberLists {D : Desk} {xs : List Row} : Disjoint (rowParts D xs) (memberLists bs) :=
  Set.disjoint_right.2 fun _ ⟨_, _, hp⟩ => hp ▸ list_notMem_rowParts

theorem Stands.after (h : N.Stands b w) (h' : N.Changes S T w w') (hn : .list b.pair ∉ S) : N.Stands b w' where
  members := h'.owns _ h.members
  pair := h'.owns _ h.pair
  ne := h.ne
  items := by
    have hsame : (w'.listCell b.pair).items = (w.listCell b.pair).items := h'.same _ h.pair hn
    rw [hsame, h.items]

/-- Buckets of which each stands, and no two have a list or a key in common. -/
structure Sorted (N : Neighbours π σ) (bs : List Bucket) (w : World (Callback π) (Env π σ)) : Prop where
  stands : ∀ b ∈ bs, N.Stands b w
  apart : bs.Pairwise Bucket.Apart

/-- What filling buckets for groups comes to. -/
structure Filled (N : Neighbours π σ) (E : Engine π σ) (previous : List Bucket) (groups : List (Value × List Value))
    (w w' : World (Callback π) (Env π σ)) (bs : List Bucket) : Prop where
  sorted : N.Sorted bs w'
  fills : w'.Fills bs groups
  origin : ∀ b ∈ bs, b ∈ previous ∨ (¬w.Made (.list b.members) ∧ ¬w.Made (.list b.pair))
  kept : ∀ b ∈ previous, ∀ (j : Nat) (g : Value × List Value), groups[j]? = some g → b.key.same g.1 = true → bs[j]? = some b
  spliced : ∀ b ∈ previous, N.Spliced E b.members w w'

/-- The bucket for a key: it is one of the previous ones, or else a new one. The rest of the buckets are all others. -/
structure Found (N : Neighbours π σ) (previous rest : List Bucket) (key : Value) (b : Bucket) (w w' : World (Callback π) (Env π σ)) :
    Prop where
  changes : N.Changes ∅ ∅ w w'
  keeps : b.key.same key = true
  stands : N.Stands b w'
  origin : b ∈ previous ∨ (¬w.Made (.list b.members) ∧ ¬w.Made (.list b.pair))
  sublist : rest.Sublist previous
  apart : ∀ b' ∈ rest, b.Apart b'
  only : ∀ b' ∈ previous, b'.key.same key = true → b' = b
  other : ∀ b' ∈ previous, b' = b ∨ b' ∈ rest

theorem memberLists_mono {previous rest : List Bucket} (h : rest.Sublist previous) : memberLists rest ⊆ memberLists previous :=
  fun _ ⟨b, hb, hp⟩ => ⟨b, h.subset hb, hp⟩

/-- Buckets that were made later are apart from one that was there, if the keys are. -/
theorem Stands.apart {b' : Bucket} (h : N.Stands b w) (hm : ¬w.Made (.list b'.members)) (hp : ¬w.Made (.list b'.pair))
    (hk : b.key.same b'.key = false) : b.Apart b' where
  members he := hm (he ▸ h.members.made)
  pairs he := hp (he ▸ h.pair.made)
  memberPair he := hp (he ▸ h.members.made)
  pairMember he := hm (he ▸ h.pair.made)
  keys := hk

namespace Sorted

theorem after (h : N.Sorted bs w) (h' : N.Changes S T w w') (hn : ∀ b ∈ bs, .list b.pair ∉ S) : N.Sorted bs w' :=
  ⟨fun b hb => (h.stands b hb).after h' (hn b hb), h.apart⟩

/-- The pair of a bucket is not the list of the members of any. -/
theorem pair_notMem (h : N.Sorted bs w) (hb : b ∈ bs) : .list b.pair ∉ memberLists bs := by
  rintro ⟨b', hb', he⟩
  have he : b.pair = b'.members := Part.list.inj he
  by_cases hne : b = b'
  · exact (h.stands b hb).ne (hne ▸ he.symm)
  · exact (h.apart.forall hb hb' hne).pairMember he

/-- The only bucket with a key. -/
theorem eq_of_key {key : Value} {b' : Bucket} (h : N.Sorted bs w) (hb : b ∈ bs) (hb' : b' ∈ bs) (hk : b.key.same key = true)
    (hk' : b'.key.same key = true) : b = b' := by
  by_contra hne
  have hkeys := (h.apart.forall hb hb' hne).keys
  rw [Value.same_trans hk (Value.same_symm hk')] at hkeys
  cases hkeys

end Sorted

/-- The rest of the groups is filled after the first one. -/
theorem Found.filled {rest : List Bucket} {key : Value} {members : List Value} {groups : List (Value × List Value)}
    {w₂ : World (Callback π) (Env π σ)} (h : N.Found previous rest key b w w₁) (hp : N.Sorted previous w)
    (hg : ∀ g ∈ groups, key.same g.1 = false) (hc : N.Changes {.list b.members} {.list b.members} w₁ w₂)
    (hitems : SameItems (w₂.listCell b.members).items members) (hs : N.Spliced E b.members w₁ w₂)
    (hc' : N.Changes (memberLists rest) (memberLists rest) w₂ w') (h' : N.Filled E rest groups w₂ w' bs) :
    N.Changes (memberLists previous) (memberLists previous) w w' ∧ N.Filled E previous ((key, members) :: groups) w w' (b :: bs) := by
  have hkey : ∀ g ∈ groups, b.key.same g.1 = false := fun g hm => Bool.eq_false_of_not_eq_true fun hbg => by
    have := hg g hm
    rw [Value.same_trans (Value.same_symm h.keeps) hbg] at this
    cases this
  have hb₂ : N.Stands b w₂ := h.stands.after hc fun he => h.stands.ne (Part.list.inj he).symm
  have hmembers : .list b.members ∉ memberLists rest := fun ⟨b', hb', he⟩ => (h.apart b' hb').members (Part.list.inj he)
  have hb' : N.Stands b w' := hb₂.after hc' fun ⟨b', hb', he⟩ => (h.apart b' hb').pairMember (Part.list.inj he)
  have hunmade {l : ListId} (hm : ¬w₂.Made (.list l)) : ¬w.Made (.list l) := fun hl => hm (hc.made _ (h.changes.made _ hl))
  refine ⟨?changes, { sorted := ?sorted, fills := ?fills, origin := ?origin, kept := ?kept, spliced := ?spliced }⟩
  case changes =>
    refine (h.changes.andThen (hc.andThen hc')).fresh ?_ ?_
    all_goals
      rintro p (hp | rfl | hp) hm
      · cases hp
      · exact h.origin.elim (fun hb => ⟨b, hb, rfl⟩) fun hn => absurd hm hn.1
      · exact memberLists_mono h.sublist hp
  case sorted =>
    refine ⟨List.forall_mem_cons.2 ⟨hb', h'.sorted.stands⟩, List.pairwise_cons.2 ⟨fun b' hm => ?_, h'.sorted.apart⟩⟩
    obtain ⟨g, hgm, hbg, -⟩ := exists_of_forall₂ h'.fills hm
    rcases h'.origin b' hm with hr | hn
    · exact h.apart b' hr
    · exact hb₂.apart hn.1 hn.2 (by rw [Value.same_congr (Value.same_refl b.key) hbg]; exact hkey g hgm)
  case fills =>
    refine .cons ⟨h.keeps, ?_⟩ h'.fills
    have hsame : (w'.listCell b.members).items = (w₂.listCell b.members).items := hc'.same _ hb₂.members hmembers
    rw [hsame]
    exact hitems
  case origin =>
    refine List.forall_mem_cons.2 ⟨h.origin, fun b' hm => ?_⟩
    exact (h'.origin b' hm).imp (h.sublist.subset ·) fun hn => ⟨hunmade hn.1, hunmade hn.2⟩
  case kept =>
    intro b' hm j g hj hk
    cases j with
    | zero =>
      cases hj
      rw [h.only b' hm hk, List.getElem?_cons_zero]
    | succ j =>
      rw [List.getElem?_cons_succ] at hj ⊢
      refine h'.kept b' ((h.other b' hm).resolve_left fun he => ?_) j g hj hk
      rw [he, hkey g (List.mem_of_getElem? hj)] at hk
      cases hk
  case spliced =>
    intro b' hm
    rcases h.other b' hm with rfl | hr
    · have hbefore := h.changes.untouched (hp.stands b' hm).members (Set.notMem_empty _) (Set.notMem_empty _)
      exact .after hbefore (hs.andThen (hc'.untouched hb₂.members hmembers hmembers))
    · have hne : .list b'.members ∉ ({.list b.members} : Set Part) := fun he => (h.apart b' hr).members (Part.list.inj he).symm
      have hm₁ := h.changes.owns _ (hp.stands b' hm).members
      have hbefore := h.changes.untouched (hp.stands b' hm).members (Set.notMem_empty _) (Set.notMem_empty _)
      exact .after hbefore (.after (hc.untouched hm₁ hne hne) (h'.spliced b' hr))

namespace Around

variable (hN : N.Around E)

include hN

theorem newBucket (hw : N.calm w) (key : Value) :
    (LiveBindings.newBucket key : Live π σ Bucket).Ends w fun b w' => N.Changes ∅ ∅ w w' ∧ b.key = key ∧ N.Stands b w' ∧
      ¬w.Made (.list b.members) ∧ ¬w.Made (.list b.pair) := by
  simp only [LiveBindings.newBucket, Run.ends_bind, Run.ends_pure]
  refine (hN.create hw []).imp fun members w₁ ended => ?_
  obtain ⟨⟨h₁, hm₁⟩, hn₁, _⟩ := ended
  refine (hN.create h₁.calm _).imp fun pair w₂ ended => ?_
  obtain ⟨⟨h₂, hp₂⟩, hn₂, hi₂⟩ := ended
  refine ⟨h₁.trans h₂, trivial, ⟨h₂.owns _ hm₁, hp₂, ?_, hi₂⟩, hn₁, fun hm => hn₂ (h₁.made _ hm)⟩
  rintro (rfl : members = pair)
  exact hn₂ hm₁.made

/-- Filling buckets for groups with different keys. -/
theorem fillBuckets (hw : N.calm w) (room : w.Admits) (hp : N.Sorted previous w) (groups : List (Value × List Value))
    (hg : groups.Pairwise fun g g' => g.1.same g'.1 = false) :
    (LiveBindings.fillBuckets E previous groups).Ends w fun bs w' =>
      N.Changes (memberLists previous) (memberLists previous) w w' ∧ N.Filled E previous groups w w' bs := by
  induction groups generalizing previous w with
  | nil =>
    exact ⟨.refl hw _ _, ⟨by simp, .nil⟩, .nil, by simp, by simp, fun b hb => .never ⟨rfl, rfl⟩⟩
  | cons g groups ih =>
    obtain ⟨key, members⟩ := g
    rw [List.pairwise_cons] at hg
    -- the first group is filled, and then the others from the rest of the buckets
    have fill {rest : List Bucket} {b : Bucket} {w₁ : World (Callback π) (Env π σ)} (h : N.Found previous rest key b w w₁) :
        (b.members.reconcile E.reactions members).Ends w₁ fun _ w₂ => (LiveBindings.fillBuckets E rest groups).Ends w₂ fun bs w' =>
          N.Changes (memberLists previous) (memberLists previous) w w' ∧
            N.Filled E previous ((key, members) :: groups) w w' (b :: bs) := by
      refine (hN.reconcile h.changes.calm h.stands.members (h.changes.admits room) members).imp fun _ w₂ ended => ?_
      obtain ⟨hc, hitems, hs⟩ := ended
      have hrest : N.Sorted rest w₂ := by
        refine (Sorted.after ⟨fun b hb => hp.stands b (h.sublist.subset hb), hp.apart.sublist h.sublist⟩ h.changes
          fun _ _ => Set.notMem_empty _).after hc fun b' hb' he => ?_
        exact (h.apart b' hb').memberPair (Part.list.inj he).symm
      exact (ih hc.calm (hc.admits (h.changes.admits room)) hrest hg.2).imp fun bs w' h' => h.filled hp hg.1 hc hitems hs h'.1 h'.2
    rw [LiveBindings.fillBuckets]
    cases hf : previous.find? (·.key.same key) with
    | some b =>
      have hb : b ∈ previous := List.mem_of_find?_eq_some hf
      have hk : b.key.same key = true := List.find?_some (p := fun b : Bucket => b.key.same key) hf
      simp only [Run.ends_bind, Run.ends_pure]
      refine fill ⟨.refl hw _ _, hk, hp.stands b hb, .inl hb, List.filter_sublist, fun b' hb' => ?_,
        fun b' hb' hk' => hp.eq_of_key hb' hb hk' hk, fun b' hb' => ?_⟩
      · obtain ⟨hb', hne⟩ := List.mem_filter.1 hb'
        exact hp.apart.forall hb hb' fun he => by simp [he] at hne
      · refine or_iff_not_imp_left.2 fun hne => List.mem_filter.2 ⟨hb', ?_⟩
        simpa using (hp.apart.forall hb hb' (Ne.symm hne)).members
    | none =>
      have hnone : ∀ b' ∈ previous, b'.key.same key = false := by simpa using hf
      have hrest : (previous.filter fun b => !((none : Option Bucket).any fun f => f.members = b.members)) = previous := by simp
      simp only [hrest, Run.ends_bind, Run.ends_pure]
      refine (hN.newBucket hw key).imp fun b w₁ ended => ?_
      obtain ⟨h₁, hk, hb, hm, hpair⟩ := ended
      refine fill ⟨h₁, by rw [hk]; exact Value.same_refl key, hb, .inr ⟨hm, hpair⟩, .refl _, fun b' hb' => ?_, fun b' hb' hk' => ?_,
        fun b' hb' => .inr hb'⟩
      · have hkeys : b'.key.same b.key = false := by rw [hk]; exact hnone b' hb'
        exact ((hp.stands b' hb').apart hm hpair hkeys).symm
      · rw [hnone b' hb'] at hk'
        cases hk'

end Around

/-- What filling comes to does not depend on what was done to other parts before. -/
theorem Filled.before {groups : List (Value × List Value)} (h : N.Filled E previous groups w₁ w' bs) (hp : N.Sorted previous w)
    (h₁ : N.Changes S T w w₁) (hS : ∀ b ∈ previous, .list b.members ∉ S) (hT : ∀ b ∈ previous, .list b.members ∉ T) :
    N.Filled E previous groups w w' bs where
  sorted := h.sorted
  fills := h.fills
  origin b hb := (h.origin b hb).imp_right fun hn => ⟨fun hm => hn.1 (h₁.made _ hm), fun hm => hn.2 (h₁.made _ hm)⟩
  kept := h.kept
  spliced b hb := .after (h₁.untouched (hp.stands b hb).members (hS b hb) (hT b hb)) (h.spliced b hb)

/-! ## Grouping anew -/

/-- A view that groups the elements, as a function of its buckets. -/
inductive Grouping (r : Ref .relations) : (List Bucket → Block π) → Prop
  | list (output : ListId) : Grouping r (.group output r)
  | map (output : ObjectId) (merged : List (String × ListId)) : Grouping r (.groupMap output r · merged)

variable {D : Desk} {light : Set (Cancel π)} {xs : List Row} {block : List Bucket → Block π}

theorem Grouping.ends_bucketsOf (hb : Grouping D.relations block) (hk : N.Keeps D.owner (block bs) w)
    (Q : List Bucket → World (Callback π) (Env π σ) → Prop) : (bucketsOf D.owner).Ends w Q ↔ Q bs w := by
  cases hb <;> simp only [bucketsOf, Run.ends_bind, ends_envCells, hk.block?, Run.ends_pure]

theorem Grouping.setBuckets (hN : N.Around E) (hb : Grouping D.relations block) (hw : N.calm w) (hk : N.Keeps D.owner (block bs) w)
    (bs' : List Bucket) : (setBuckets D.owner bs' : Live π σ Unit).Ends w fun _ w' =>
      N.Changes {.block D.owner} ∅ w w' ∧ N.Keeps D.owner (block bs') w' := by
  cases hb <;> exact hk.modify hN hw _

/-- The keys of some rows with the elements that have them. -/
def groupsOf (xs : List Row) : List (Value × List Value) := groupsBy (xs.map (·.input)) (xs.map (·.output))

/-- The buckets of a view are up to date with its rows. -/
structure Groups (N : Neighbours π σ) (D : Desk) (light : Set (Cancel π)) (xs : List Row) (bs : List Bucket)
    (w : World (Callback π) (Env π σ)) : Prop where
  rows : N.Rows D light xs w
  sorted : N.Sorted bs w
  fills : w.Fills bs (groupsOf xs)

/-- The members are still there after what does not touch them. -/
theorem Sorted.fills_after {groups : List (Value × List Value)} (hs : N.Sorted bs w) (h : w.Fills bs groups) (h' : N.Changes S T w w')
    (hn : ∀ b ∈ bs, .list b.members ∉ S) : w'.Fills bs groups := by
  refine ((List.forall₂_and_left bs groups).2 ⟨fun _ hb => hb, h⟩).imp fun b g ⟨hb, hkey, hitems⟩ => ⟨hkey, ?_⟩
  have hsame : (w'.listCell b.members).items = (w.listCell b.members).items := h'.same _ (hs.stands b hb).members (hn b hb)
  rwa [hsame]

namespace Groups

theorem after (h : N.Groups D light xs bs w) (h' : N.Changes S T w w') (hrows : Disjoint (rowParts D xs) S)
    (hn : ∀ b ∈ bs, .list b.members ∉ S ∧ .list b.pair ∉ S) : N.Groups D light xs bs w' :=
  ⟨h.rows.after h' hrows, h.sorted.after h' fun b hb => (hn b hb).2, h.sorted.fills_after h.fills h' fun b hb => (hn b hb).1⟩

theorem lasting (hN : N.Around E) : N.Lasting (N.Groups D light xs bs) := by
  intro w w' q hw h hg
  have stands : ∀ b ∈ bs, N.Stands b (w.during q) := fun b hb =>
    ⟨hN.owns_during hw (hg.sorted.stands b hb).members q, hN.owns_during hw (hg.sorted.stands b hb).pair q,
      (hg.sorted.stands b hb).ne, (hg.sorted.stands b hb).items⟩
  have hg' : N.Groups D light xs bs (w.during q) := ⟨hg.rows.during hN hw q, ⟨stands, hg.sorted.apart⟩, hg.fills⟩
  exact hg'.after h (Set.disjoint_empty _) fun _ _ => ⟨Set.notMem_empty _, Set.notMem_empty _⟩

/-- The bucket of a group stands where the group does. -/
theorem getElem?_of_key (h : N.Groups D light xs bs w) {b : Bucket} (hb : b ∈ bs) {j : Nat} {g : Value × List Value}
    (hj : (groupsOf xs)[j]? = some g) (hk : b.key.same g.1 = true) : bs[j]? = some b := by
  have hlen : j < bs.length := h.fills.length_eq ▸ (List.getElem?_eq_some_iff.1 hj).1
  have hfill := (List.forall₂_iff_get.1 h.fills).2 j hlen (List.getElem?_eq_some_iff.1 hj).1
  rw [List.get_eq_getElem, List.get_eq_getElem, (List.getElem?_eq_some_iff.1 hj).2] at hfill
  rw [List.getElem?_eq_getElem hlen, h.sorted.eq_of_key (List.getElem_mem hlen) hb hfill.1 hk]

/-- The bucket of a key that occurs. -/
theorem exists_bucket (h : N.Groups D light xs bs w) {i : Nat} {k : Value} (hi : (firsts (xs.map (·.output)))[i]? = some k) :
    ∃ b ∈ bs, bs[i]? = some b ∧ b.key.same k = true := by
  have hg : (groupsOf xs)[i]? = some (k, membersOf (xs.map (·.input)) (xs.map (·.output)) k) := by
    rw [groupsOf, groupsBy, List.getElem?_map, hi, Option.map_some]
  obtain ⟨b, hb, hbk, -⟩ := exists_of_forall₂ h.fills.flip (List.mem_of_getElem? hg)
  exact ⟨b, hb, h.getElem?_of_key hb hg hbk, hbk⟩

end Groups

/-- A result gives way to one that cannot be told from it. -/
theorem Groups.set_same {i : Nat} {x : Row} {v : Value} (h : w.Fills bs (groupsOf xs)) (hi : xs[i]? = some x)
    (hv : x.output.same v = true) : w.Fills bs (groupsOf (xs.set i { x with output := v })) := by
  have hin : (xs.set i { x with output := v }).map (·.input) = xs.map (·.input) := map_set_same hi rfl
  rw [groupsOf, hin]
  refine h.trans (groupsBy_same ?_)
  rw [List.map_set]
  exact .set (by rw [List.getElem?_map, hi, Option.map_some]) hv

/-- The first part of grouping anew: the view has no buckets, and those of before have been filled for the new groups. -/
theorem Around.regroup (hN : N.Around E) (hb : Grouping D.relations block) (hw : N.calm w) (room : w.Admits)
    (hrows : N.Rows D light xs w) (hk : N.Keeps D.owner (block bs) w) (hs : N.Sorted bs w) {publish : List Bucket → Live π σ Unit}
    {Q : Unit → World (Callback π) (Env π σ) → Prop}
    (hpublish : ∀ {w₁ bs'}, N.Changes (insert (.block D.owner) (memberLists bs)) (memberLists bs) w w₁ → N.Keeps D.owner (block []) w₁ →
      N.Filled E bs (groupsOf xs) w w₁ bs' → (do publish bs'; LiveBindings.setBuckets D.owner bs').Ends w₁ Q) :
    (LiveBindings.regroup E D.owner D.relations publish).Ends w Q := by
  have hgroups : partitionByKey ((xs.map (·.input)).zip (xs.map (·.output))) = groupsOf xs := partitionByKey_eq (by simp)
  have hdistinct : (groupsOf xs).Pairwise fun g g' => g.1.same g'.1 = false := List.pairwise_map.2 (pairwise_firsts _)
  simp only [LiveBindings.regroup, Run.ends_bind, hrows.ends_inputs, hrows.ends_outputs, hb.ends_bucketsOf hk, hgroups] at hpublish ⊢
  refine (hb.setBuckets hN hw hk []).imp fun _ w₁ ended => ?_
  obtain ⟨h₁, hk₁⟩ := ended
  have hs₁ := hs.after h₁ fun b _ => by simp
  refine (hN.fillBuckets h₁.calm (h₁.admits room) hs₁ (groupsOf xs) hdistinct).imp fun bs' w₂ ended => ?_
  obtain ⟨h₂, hf⟩ := ended
  exact hpublish (h₁.andThen h₂ |>.mono subset_rfl (by simp)) (hk₁.after h₂ (by simp))
    (hf.before hs h₁ (fun b _ => by simp) fun _ _ => Set.notMem_empty _)

end Neighbours

end LiveBindings
