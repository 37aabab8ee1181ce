import LiveBindings.Proofs.Dispatch
import Mathlib.Algebra.BigOperators.Group.Finset.Basic
import Mathlib.Algebra.Order.BigOperators.Group.Finset

/-!
# Families of observers

Several observers that run side by side, each in front of a sink of its own. Telling a listener of one of them sets in motion
some of the others, which are behind its sink, and leaves the rest as they are (`Family.turn`).
-/

namespace LiveBindings

open Finset

variable {π σ ι : Type}

/-- An observer of a family: its expression, where its values go, and the places that it may watch. -/
structure Reader (π : Type) where
  source : Expr
  scope : Scope
  sink : Sink π
  places : Place → Prop

/-- When a listener of the observer is told, what is behind its sink being as `J` says, the observer runs on. -/
def Reader.Tells (M : Reader π) (H : Host π σ) (n : Nat) (J : Behind π σ Value) (R : Running π) (l : Leaf π)
    (w : World (Callback π) (Env π σ)) : Prop :=
  ∀ {F L}, J F L (some R.value) w → w.Fits (R.owned + F) →
    (l.sink.emit (engine H n) (H.observer (engine H n)) (l.place.read w.contents)).Ends w
      (fun _ => J.Told M.places (fun K R => Runs M.places K M.source M.scope M.sink R) R l F L w)

namespace Family

/-- The observers of a family that are among `S` run. -/
def Run (N : ι → Reader π) (S : Finset ι) (R : ι → Running π) (K : Layout π) : Prop :=
  ∀ i ∈ S, Runs (N i).places K (N i).source (N i).scope (N i).sink (R i)

/-- The pieces of the observers among `S`. -/
def owned (S : Finset ι) (R : ι → Running π) : Multiset Piece := ∑ i ∈ S, (R i).owned

/-- The listeners of the observers among `S`. -/
def Has (S : Finset ι) (R : ι → Running π) (l : Leaf π) : Prop := ∃ i ∈ S, l ∈ (R i).leaves

variable {N : ι → Reader π} {S S' : Finset ι} {R R' : ι → Running π} {K K' : Layout π} {l : Leaf π} {p : Piece}

theorem mem_owned : p ∈ owned S R ↔ ∃ i ∈ S, p ∈ (R i).owned := Multiset.mem_sum

theorem owned_congr (h : ∀ i ∈ S, R' i = R i) : owned S R' = owned S R :=
  Finset.sum_congr rfl fun i hi => by rw [h i hi]

theorem Run.subset (h : Run N S R K) (hS : S' ⊆ S) : Run N S' R K := fun i hi => h i (hS hi)

theorem Run.same (h : Run N S R K) (hs : ∀ p ∈ owned S R, K.Same K' p) (hl : K'.lists = K.lists) (ho : K'.objects = K.objects) :
    Run N S R K' :=
  fun i hi => (h i hi).same (fun p hp => hs p (mem_owned.2 ⟨i, hi, hp⟩)) (Layout.Sees.of_eq hl ho _)

/-- The listener of a family under an id that the family owns. -/
theorem Run.leaf_of_owned (h : Run N S R K) {id : ListenerId} (hid : .listener id ∈ owned S R) :
    ∃ i ∈ S, ∃ l ∈ (R i).leaves, l.id = id := by
  obtain ⟨i, hi, hid⟩ := mem_owned.1 hid
  exact ⟨i, hi, (h i hi).leaf_of_owned hid⟩

/-- A list of the listeners of a family. -/
theorem exists_leaves (S : Finset ι) (R : ι → Running π) : ∃ L : List (Leaf π), ∀ l, l ∈ L ↔ Has S R l := by
  refine ⟨S.toList.flatMap fun i => (R i).leaves, fun l => ?_⟩
  simp [Has]

variable [DecidableEq ι]

/-- One observer, those behind its sink, and the rest. -/
theorem owned_split {j : ι} (hj : j ∈ S) (hS' : S' ⊆ S.erase j) :
    owned S R = owned (S.erase j \ S') R + ((R j).owned + owned S' R) := by
  unfold owned
  rw [← Finset.add_sum_erase S _ hj, ← Finset.sum_sdiff hS']
  abel

/-- The observers of one family with some replaced by those of another. -/
def merge (j : ι) (S' : Finset ι) (Rj : Running π) (R' R : ι → Running π) (i : ι) : Running π :=
  if i = j then Rj else if i ∈ S' then R' i else R i

@[simp] theorem merge_self (j : ι) (S' : Finset ι) (Rj : Running π) (R' R : ι → Running π) :
    merge j S' Rj R' R j = Rj := if_pos rfl

theorem merge_of_mem {j i : ι} {Rj : Running π} (hi : i ∈ S') (hj : i ≠ j) : merge j S' Rj R' R i = R' i := by
  rw [merge, if_neg hj, if_pos hi]

theorem merge_of_notMem {j i : ι} {Rj : Running π} (hi : i ∉ S') (hj : i ≠ j) : merge j S' Rj R' R i = R i := by
  rw [merge, if_neg hj, if_neg hi]

end Family

/-- What is behind the sink of an observer when that sets in motion a family: the observers among `S`, besides them pieces of
other sorts, and of all this together `J` holds. -/
def Behind.family (N : ι → Reader π) (S : Finset ι)
    (J : (ι → Running π) → Multiset Piece → Option Value → World (Callback π) (Env π σ) → Prop) : Behind π σ Value :=
  fun F L o w => ∃ R E, F = Family.owned S R + E ∧ (∀ l, l ∈ L ↔ Family.Has S R l) ∧ Family.Run N S R w.layout ∧ J R E o w

namespace Family

variable {H : Host π σ} {N : ι → Reader π} {S S' : Finset ι} {R : ι → Running π} {w : World (Callback π) (Env π σ)}
  [DecidableEq ι] {J : (ι → Running π) → Multiset Piece → Option Value → World (Callback π) (Env π σ) → Prop}
  {n : Nat} {l : Leaf π} {j : ι} {E : Multiset Piece} {o : Option Value}

/-- One observer and those behind its sink have done something, and the rest `Q` of the family have not. -/
theorem spliced {D : Place → Prop} {Q : Finset ι} {G E' : Multiset Piece} {Rj : Running π} {R' : ι → Running π}
    {w' : World (Callback π) (Env π σ)} (hj : j ∉ Q) (hjS : j ∉ S') (hQ : Disjoint Q S') (hR : Run N Q R w.layout)
    (hw : w.Fits (owned Q R + G)) (hRj : Runs (N j).places w'.layout (N j).source (N j).scope (N j).sink Rj)
    (hR' : Run N S' R' w'.layout) (hm : Moves D G (Rj.owned + (owned S' R' + E')) w w') :
    Run N (insert j (Q ∪ S')) (merge j S' Rj R' R) w'.layout ∧
      Moves D (owned Q R + G) (owned (insert j (Q ∪ S')) (merge j S' Rj R' R) + E') w w' := by
  have hne : ∀ i ∈ Q ∪ S', i ≠ j := fun i hi h => (Finset.mem_union.1 (h ▸ hi)).elim hj hjS
  have hold : ∀ i ∈ Q, merge j S' Rj R' R i = R i := fun i hi =>
    merge_of_notMem (Finset.disjoint_left.1 hQ hi) (hne i (Finset.mem_union_left _ hi))
  have hnew : ∀ i ∈ S', merge j S' Rj R' R i = R' i := fun i hi => merge_of_mem hi (hne i (Finset.mem_union_right _ hi))
  constructor
  · intro i hi
    rcases Finset.mem_insert.1 hi with rfl | hi
    · rwa [merge_self]
    rcases Finset.mem_union.1 hi with hi | hi
    · rw [hold i hi]
      exact (hR i hi).same (fun p hp => hm.same hw (mem_owned.2 ⟨i, hi, hp⟩))
        (Layout.Sees.of_eq hm.layout.lists hm.layout.objects _)
    · rw [hnew i hi]
      exact hR' i hi
  · refine (hm.frame hw).cast rfl ?_
    have hjQ : j ∉ Q ∪ S' := fun h => hne j h rfl
    rw [show owned (insert j (Q ∪ S')) (merge j S' Rj R' R) = Rj.owned + (owned Q R + owned S' R') by
      rw [owned, Finset.sum_insert hjQ, merge_self, Finset.sum_union hQ, ← owned, ← owned, owned_congr hold, owned_congr hnew]]
    abel

/-- The listeners of the family then. -/
theorem has_spliced {Q : Finset ι} {Rj : Running π} {R' : ι → Running π} (hj : j ∉ Q) (hjS : j ∉ S') (hQ : Disjoint Q S')
    (hl : Has (insert j (Q ∪ S')) (merge j S' Rj R' R) l) : (l ∈ Rj.leaves ∨ Has S' R' l) ∨ Has Q R l := by
  obtain ⟨i, hi, hil⟩ := hl
  by_cases hij : i = j
  · subst hij
    rw [merge_self] at hil
    exact Or.inl (Or.inl hil)
  rcases Finset.mem_union.1 (Finset.mem_of_mem_insert_of_ne hi hij) with hi | hi
  · rw [merge_of_notMem (Finset.disjoint_left.1 hQ hi) hij] at hil
    exact Or.inr ⟨i, hi, hil⟩
  · rw [merge_of_mem hi hij] at hil
    exact Or.inl (Or.inr ⟨i, hi, hil⟩)

theorem insert_rest (hj : j ∈ S) (hS' : S' ⊆ S.erase j) : insert j ((S.erase j \ S') ∪ S') = S := by
  rw [Finset.sdiff_union_of_subset hS', Finset.insert_erase hj]

/-- A listener of an observer of a family is told. The observers behind its sink may be replaced; the rest, which watch nothing
but what that observer may watch, stay. No other listener of the family becomes out of date, and the observer can still be
stopped by its handle. -/
theorem turn_handled (hj : j ∈ S) (hS' : S' ⊆ S.erase j) (hR : Run N S R w.layout) (hw : w.Fits (owned S R + E))
    (hl : l ∈ (R j).leaves) (htell : (N j).Tells H n (Behind.family N S' J) (R j) l w)
    (hJ : J R E (some (R j).value) w)
    (hcongr : ∀ {R R' : ι → Running π} {E o} {w : World (Callback π) (Env π σ)}, (∀ i ∈ S', R' i = R i) → J R E o w →
      J R' E o w)
    (hrest : ∀ i ∈ S, i ≠ j → i ∉ S' → ∀ l' ∈ (R i).leaves, (N j).places l'.place) :
    (l.sink.emit (engine H n) (H.observer (engine H n)) (l.place.read w.contents)).Ends w fun _ w' =>
      ∃ R' E', (R' j).handle = (R j).handle ∧ Run N S R' w'.layout ∧ (∀ i ∈ S, i ≠ j → i ∉ S' → R' i = R i) ∧
        J R' E' (some (R' j).value) w' ∧ Moves (N j).places (owned S R + E) (owned S R' + E') w w' ∧
        ∀ l', Has S R' l' → l'.Current w'.contents ∨
          (Has S R l' ∧ l'.id ≠ l.id ∧ l'.place.read w'.contents = l'.place.read w.contents) := by
  obtain ⟨L, hL⟩ := exists_leaves S' R
  have hSS' : S' ⊆ S := hS'.trans (Finset.erase_subset j S)
  have hsplit := owned_split (R := R) hj hS'
  have hw₁ : w.Fits (owned (S.erase j \ S') R + ((R j).owned + (owned S' R + E))) :=
    hw.of_le (le_of_eq (by rw [hsplit]; abel))
  have hB : Behind.family N S' J (owned S' R + E) L (some (R j).value) w :=
    ⟨R, E, rfl, hL, hR.subset hSS', hJ⟩
  refine (htell hB hw₁.right).imp fun _ w' h' => ?_
  obtain ⟨Rj, F', L', hh, hRj, ⟨R', E', rfl, hL', hR', hJ'⟩, hm, hr⟩ := h'
  have hjS' : j ∉ S' := fun h => Finset.notMem_erase j S (hS' h)
  have hjQ : j ∉ S.erase j \ S' := fun h => Finset.notMem_erase j S (Finset.sdiff_subset h)
  have hQ : Disjoint (S.erase j \ S') S' := Finset.sdiff_disjoint
  have hQS : S.erase j \ S' ⊆ S := Finset.sdiff_subset.trans (Finset.erase_subset j S)
  obtain ⟨hRun, hMoves⟩ := spliced hjQ hjS' hQ (hR.subset hQS) hw₁ hRj hR' hm
  rw [insert_rest hj hS'] at hRun hMoves
  refine ⟨merge j S' Rj R' R, E', by rw [merge_self, hh], hRun, fun i _ hij hi => merge_of_notMem hi hij, ?_,
    hMoves.cast (by rw [hsplit]; abel) rfl, ?_⟩
  · rw [merge_self]
    exact hcongr (fun i hi => merge_of_mem hi fun h => hjS' (h ▸ hi)) hJ'
  · intro l' hl'
    rw [← insert_rest hj hS'] at hl'
    rcases has_spliced hjQ hjS' hQ hl' with hl' | ⟨i, hi, hil⟩
    · have hmem : l' ∈ Rj.leaves ++ L' := List.mem_append.2 (hl'.imp_right (hL' l').2)
      refine (hr l' hmem).imp_right ?_
      rintro ⟨hm', hread⟩
      rcases List.mem_append.1 hm' with hm' | hm'
      · exact ⟨⟨j, hj, (mem_others.1 hm').1⟩, (mem_others.1 hm').2, hread⟩
      · obtain ⟨i, hi, hil⟩ := (hL l').1 hm'
        refine ⟨⟨i, hSS' hi, hil⟩, hw₁.right.id_ne ((hR j hj).placed l hl).owned ?_, hread⟩
        exact Multiset.mem_add.2 (Or.inl (mem_owned.2 ⟨i, hi, ((hR i (hSS' hi)).placed l' hil).owned⟩))
    · have hp := (hR i (hQS hi)).placed l' hil
      have hi' := Finset.mem_sdiff.1 hi
      refine Or.inr ⟨⟨i, hQS hi, hil⟩, ?_, hm.reads _ ?_⟩
      · exact hw₁.comm.id_ne (Multiset.mem_add.2 (Or.inl ((hR j hj).placed l hl).owned)) (mem_owned.2 ⟨i, hi, hp.owned⟩)
      · exact hrest i (hQS hi) (Finset.ne_of_mem_erase hi'.1) hi'.2 _ hil

/-- The same when the rest of the family may watch nothing but what the observer may watch. -/
theorem turn (hj : j ∈ S) (hS' : S' ⊆ S.erase j) (hR : Run N S R w.layout) (hw : w.Fits (owned S R + E))
    (hl : l ∈ (R j).leaves) (htell : (N j).Tells H n (Behind.family N S' J) (R j) l w)
    (hJ : J R E (some (R j).value) w)
    (hcongr : ∀ {R R' : ι → Running π} {E o} {w : World (Callback π) (Env π σ)}, (∀ i ∈ S', R' i = R i) → J R E o w →
      J R' E o w)
    (hrest : ∀ i ∈ S, i ≠ j → i ∉ S' → ∀ p, (N i).places p → (N j).places p) :
    (l.sink.emit (engine H n) (H.observer (engine H n)) (l.place.read w.contents)).Ends w fun _ w' =>
      ∃ R' E', Run N S R' w'.layout ∧ (∀ i ∈ S, i ≠ j → i ∉ S' → R' i = R i) ∧ J R' E' (some (R' j).value) w' ∧
        Moves (N j).places (owned S R + E) (owned S R' + E') w w' ∧
        ∀ l', Has S R' l' → l'.Current w'.contents ∨
          (Has S R l' ∧ l'.id ≠ l.id ∧ l'.place.read w'.contents = l'.place.read w.contents) := by
  refine (turn_handled hj hS' hR hw hl htell hJ hcongr fun i hi hij hi' l' hl' => ?_).imp fun _ w' h' => ?_
  · exact hrest i hi hij hi' _ ((hR i hi).placed l' hl').place
  · obtain ⟨R', E', -, h'⟩ := h'
    exact ⟨R', E', h'⟩

/-- What starting an observer beside a family leaves behind. The new observer and those behind its sink are up to date when
the latter were; the rest, which watch nothing but what the new one may watch, stay. -/
theorem joined (S' : Finset ι) {K : Finset ι} {Rj : Running π} {F' : Multiset Piece} {L L' : List (Leaf π)} {w' : World (Callback π) (Env π σ)}
    (hj : j ∉ K) (hS' : S' ⊆ K) (hR : Run N K R w.layout) (hw : w.Fits (owned K R + E)) (hL : ∀ l, l ∈ L ↔ Has S' R l)
    (hRj : Runs (N j).places w'.layout (N j).source (N j).scope (N j).sink Rj)
    (hJ : Behind.family N S' J F' L' (some Rj.value) w') (hm : Moves (N j).places (owned S' R + E) (Rj.owned + F') w w')
    (hr : Renews w.contents w'.contents L (Rj.leaves ++ L'))
    (hcongr : ∀ {R R' : ι → Running π} {E o} {w : World (Callback π) (Env π σ)}, (∀ i ∈ S', R' i = R i) → J R E o w →
      J R' E o w)
    (hrest : ∀ i ∈ K, i ∉ S' → ∀ p, (N i).places p → (N j).places p) :
    ∃ R' E', Run N (insert j K) R' w'.layout ∧ (∀ i ∈ K, i ∉ S' → R' i = R i) ∧ J R' E' (some (R' j).value) w' ∧
      Moves (N j).places (owned K R + E) (owned (insert j K) R' + E') w w' ∧
      ∀ l, Has (insert j K) R' l → l.Current w'.contents ∨
        (Has K R l ∧ l.place.read w'.contents = l.place.read w.contents) := by
  obtain ⟨R', E', rfl, hL', hR', hJ'⟩ := hJ
  have hjS' : j ∉ S' := fun h => hj (hS' h)
  have hjQ : j ∉ K \ S' := fun h => hj (Finset.sdiff_subset h)
  have hQ : Disjoint (K \ S') S' := Finset.sdiff_disjoint
  have hsplit : owned K R + E = owned (K \ S') R + (owned S' R + E) := by
    unfold owned
    rw [← Finset.sum_sdiff hS']
    abel
  obtain ⟨hRun, hMoves⟩ := spliced hjQ hjS' hQ (hR.subset Finset.sdiff_subset) (hsplit ▸ hw) hRj hR' hm
  rw [Finset.sdiff_union_of_subset hS', ← hsplit] at hMoves
  rw [Finset.sdiff_union_of_subset hS'] at hRun
  refine ⟨merge j S' Rj R' R, E', hRun, fun i hi hn => merge_of_notMem hn fun h => hj (h ▸ hi), ?_, hMoves, fun l hl => ?_⟩
  · rw [merge_self]
    exact hcongr (fun i hi => merge_of_mem hi fun h => hjS' (h ▸ hi)) hJ'
  · rw [← Finset.sdiff_union_of_subset hS'] at hl
    rcases has_spliced hjQ hjS' hQ hl with hl | ⟨i, hi, hil⟩
    · refine (hr l (List.mem_append.2 (hl.imp_right (hL' l).2))).imp_right ?_
      rintro ⟨hm', hread⟩
      obtain ⟨i, hi, hil⟩ := (hL l).1 hm'
      exact ⟨⟨i, hS' hi, hil⟩, hread⟩
    · have hi' := Finset.mem_sdiff.1 hi
      exact Or.inr ⟨⟨i, hi'.1, hil⟩, hm.reads _ (hrest i hi'.1 hi'.2 _ ((hR i hi'.1).placed l hil).place)⟩

end Family

end LiveBindings
