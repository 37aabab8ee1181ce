import LiveBindings.Collection.Block
import LiveBindings.Proofs.Same
import Mathlib.Data.List.Induction
import Mathlib.Logic.ExistsUnique

/-!
# The order of values and stable sorting

`Value.compare` puts values in an order of kinds, and within a kind by what can be told apart there; containers of one kind all
count as equal, so that different values may stand at the same place. What a sort leaves as it stood is said in two ways. A
`StableSort` is said of the elements: none stands before a smaller one, and those that compare equal to any one are what they were.
There is exactly one (`existsUnique_stableSort`), for every comparison that can be sorted by.

When elements are sorted by keys, it is said of the places of the elements: a `StableOrder` of some keys lists all places, smaller
keys first and equal keys as they stood. There is exactly one (`existsUnique_stableOrder`), and sorting by keys shows the elements in
it (`sortByKeys_eq`). Elements that are their own keys are stably sorted by it (`StableOrder.stableSort`).
-/

namespace LiveBindings

namespace Number

theorem eq_zero_or_eq_negZero {x : Number} (h : x.isZero = true) : x = zero ∨ x = negZero := by
  simp only [isZero, beq_iff_eq, magnitude] at h
  have hlt : x.bits.toNat < 2 ^ 64 := x.bits.toNat_lt
  have hbits : x.bits.toNat = 0 ∨ x.bits.toNat = 2 ^ 63 := by
    simp only [Nat.pow_eq] at h
    omega
  have eq_of_bits {y : Number} (h : x.bits.toNat = y.bits.toNat) : x = y := by
    cases x
    cases y
    exact congrArg mk (UInt64.toNat.inj h)
  exact hbits.imp (fun h => eq_of_bits h) fun h => eq_of_bits h

end Number

namespace Value

/-! ## The order -/

/-- The truth value that a value is. -/
def flag : Value → Bool
  | bool b => b
  | _ => false

/-- The place of a number in the total order of numbers. -/
def position : Value → Int
  | number n => n.totalKey
  | _ => 0

/-- The text that a value is. -/
def letters : Value → String
  | text s => s
  | _ => ""

/-- Values are compared by kind, and then by what there is to compare in the kind. -/
theorem compare_eq_compareLex : compare =
    compareLex (compareOn (·.kind.rank)) (compareLex (compareOn flag) (compareLex (compareOn position) (compareOn letters))) := by
  funext a b
  -- values of different kinds are decided by the ranks, which are numerals
  cases a <;> cases b <;> first
    | rfl
    | simp [compare, compareLex, compareOn, kind, flag, position, letters, Number.totalCompare]

instance : Std.TransCmp compare := by
  rw [compare_eq_compareLex]
  infer_instance

theorem compare_swap (a b : Value) : a.compare b = (b.compare a).swap := Std.OrientedCmp.eq_swap

/-- A value that is told from every other one by an update: no negative zero, and of the bit patterns of NaN only one. -/
def Canonical (nan : Number) : Value → Prop
  | number n => n ≠ .negZero ∧ (n.isNaN = true → n = nan)
  | _ => True

theorem Canonical.eq_of_same {nan : Number} {a b : Value} (ha : a.Canonical nan) (hb : b.Canonical nan) (h : a.same b = true) :
    a = b := by
  obtain rfl | ⟨x, y, rfl, rfl, h⟩ := same_iff.1 h
  · rfl
  obtain rfl | ⟨hx, hy⟩ | ⟨hx, hy⟩ := Number.same_iff.1 h
  · rfl
  · rw [(Number.eq_zero_or_eq_negZero hx).resolve_right ha.1, (Number.eq_zero_or_eq_negZero hy).resolve_right hb.1]
  · rw [ha.2 hx, hb.2 hy]

end Value

/-! ## Stable sorts -/

/-- A list is another one put in order: it has the same elements, none stands before a smaller one, and the elements that compare
equal to any one stand as they stood. -/
structure StableSort {α : Type} (cmp : α → α → Ordering) (items result : List α) : Prop where
  perm : result.Perm items
  ordered : result.Pairwise fun a b => (cmp a b).isLE = true
  stable : ∀ a, (result.filter fun b => cmp a b == .eq) = items.filter fun b => cmp a b == .eq

section

variable {α : Type} {cmp : α → α → Ordering} [Std.TransCmp cmp]

/-- A list that is in order is known by the elements that compare equal. -/
theorem eq_of_ordered {xs ys : List α} (hx : xs.Pairwise fun a b => (cmp a b).isLE = true)
    (hy : ys.Pairwise fun a b => (cmp a b).isLE = true)
    (h : ∀ a, (xs.filter fun b => cmp a b == .eq) = ys.filter fun b => cmp a b == .eq) : xs = ys := by
  have found {xs ys : List α} {a : α} (ha : a ∈ xs)
      (h : (xs.filter fun b => cmp a b == .eq) = ys.filter fun b => cmp a b == .eq) : a ∈ ys := by
    have hfilter : a ∈ xs.filter fun b => cmp a b == .eq := List.mem_filter.2 ⟨ha, beq_iff_eq.2 Std.ReflCmp.compare_self⟩
    exact (List.mem_filter.1 (h ▸ hfilter)).1
  induction xs generalizing ys with
  | nil =>
    refine (List.eq_nil_iff_forall_not_mem.2 fun b hb => ?_).symm
    cases found hb (h b).symm
  | cons x xs ih =>
    cases ys with
    | nil => cases found List.mem_cons_self (h x)
    | cons y ys =>
      obtain ⟨hfirst, htail⟩ := List.pairwise_cons.1 hx
      obtain ⟨hfirst', htail'⟩ := List.pairwise_cons.1 hy
      have hxy : cmp x y = .eq := by
        rcases List.mem_cons.1 (found List.mem_cons_self (h x)) with rfl | hmem
        · exact Std.ReflCmp.compare_self
        rcases List.mem_cons.1 (found List.mem_cons_self (h y).symm) with rfl | hmem'
        · exact Std.ReflCmp.compare_self
        exact Std.OrientedCmp.isLE_antisymm (hfirst y hmem') (hfirst' x hmem)
      -- both are the first of what compares equal to them
      have hhead := h x
      simp only [List.filter_cons, Std.ReflCmp.compare_self, hxy, beq_self_eq_true, if_true, List.cons.injEq] at hhead
      obtain ⟨rfl, -⟩ := hhead
      refine congrArg (x :: ·) (ih htail htail' fun a => ?_)
      have ha := h a
      simp only [List.filter_cons] at ha
      split at ha
      · exact List.tail_eq_of_cons_eq ha
      · exact ha

theorem StableSort.unique {items result result' : List α} (h : StableSort cmp items result) (h' : StableSort cmp items result') :
    result = result' :=
  eq_of_ordered h.ordered h'.ordered fun a => (h.stable a).trans (h'.stable a).symm

omit [Std.TransCmp cmp] in
theorem ne_gt_iff {a b : α} : (cmp a b != .gt) = true ↔ (cmp a b).isLE = true := by
  simp [Ordering.isLE_iff_ne_gt]

variable (cmp) in
theorem ne_gt_trans (a b c : α) (h : (cmp a b != .gt) = true) (h' : (cmp b c != .gt) = true) : (cmp a c != .gt) = true :=
  ne_gt_iff.2 (Std.TransCmp.isLE_trans (ne_gt_iff.1 h) (ne_gt_iff.1 h'))

variable (cmp) in
theorem ne_gt_total (a b : α) : (cmp a b != .gt || cmp b a != .gt) = true := by
  have hswap : cmp b a = (cmp a b).swap := Std.OrientedCmp.eq_swap
  rw [Bool.or_eq_true, ne_gt_iff, ne_gt_iff, hswap]
  cases cmp a b <;> simp

/-- Merging sorts stably. -/
theorem stableSort_mergeSort (items : List α) : StableSort cmp items (items.mergeSort fun a b => cmp a b != .gt) where
  perm := List.mergeSort_perm items _
  ordered := (List.pairwise_mergeSort (ne_gt_trans cmp) (ne_gt_total cmp) items).imp ne_gt_iff.1
  stable a := by
    have level : ((items.filter fun b => cmp a b == .eq).Pairwise fun b c => (cmp b c != .gt) = true) := by
      refine List.pairwise_of_forall_mem_list fun b hb c hc => ?_
      have hb : cmp a b = .eq := beq_iff_eq.1 (List.mem_filter.1 hb).2
      have hc : cmp a c = .eq := beq_iff_eq.1 (List.mem_filter.1 hc).2
      rw [← Std.TransCmp.congr_left hb, hc]
      rfl
    -- what compares equal is in order as it stands, and so is found in the result as it stands
    have hsub := (List.sublist_mergeSort (ne_gt_trans cmp) (ne_gt_total cmp) level List.filter_sublist).filter
      fun b => cmp a b == .eq
    simp only [List.filter_filter, Bool.and_self] at hsub
    exact (hsub.eq_of_length ((List.mergeSort_perm items _).filter _).length_eq.symm).symm

theorem existsUnique_stableSort (items : List α) : ∃! result, StableSort cmp items result :=
  ⟨_, stableSort_mergeSort items, fun _ h => h.unique (stableSort_mergeSort items)⟩

end

/-! ## Stable orders -/

/-- The element at one place goes before the one at another: its key is smaller, or the keys are equal and it stood before. -/
def Before (keys : List Value) (i j : Nat) : Prop :=
  ∃ a b, keys[i]? = some a ∧ keys[j]? = some b ∧ (a.compare b = .lt ∨ a.compare b = .eq ∧ i < j)

/-- All places, smaller keys first and equal keys as they stood. -/
structure StableOrder (keys : List Value) (order : List Nat) : Prop where
  perm : order.Perm (List.range keys.length)
  sorted : order.Pairwise (Before keys)

variable {inputs keys : List Value} {order order' : List Nat}

instance {i j : Nat} : Decidable (Before keys i j) :=
  decidable_of_iff (keys[i]?.any fun a => keys[j]?.any fun b => a.compare b == .lt || a.compare b == .eq && decide (i < j)) <| by
    simp [Before, Option.any_eq_true]

instance : Decidable (StableOrder keys order) :=
  decidable_of_iff (order.Perm (List.range keys.length) ∧ order.Pairwise (Before keys)) ⟨fun h => ⟨h.1, h.2⟩, fun h => ⟨h.1, h.2⟩⟩

theorem Before.asymm {i j : Nat} (h : Before keys i j) (h' : Before keys j i) : False := by
  obtain ⟨a, b, ha, hb, h⟩ := h
  obtain ⟨b', a', hb', ha', h'⟩ := h'
  cases ha.symm.trans ha'
  cases hb.symm.trans hb'
  rw [Value.compare_swap, Ordering.swap_eq_lt, Ordering.swap_eq_eq] at h'
  rcases h with h | ⟨h, hij⟩ <;> rcases h' with h' | ⟨h', hji⟩
  · exact absurd (h.symm.trans h') nofun
  · exact absurd (h.symm.trans h') nofun
  · exact absurd (h.symm.trans h') nofun
  · exact Nat.lt_asymm hij hji

theorem StableOrder.unique (h : StableOrder keys order) (h' : StableOrder keys order') : order = order' :=
  List.Perm.eq_of_pairwise (fun _ _ _ _ h h' => (h.asymm h').elim) h.sorted h'.sorted (h.perm.trans h'.perm.symm)

/-- Whether an element may stand before another one by their keys. -/
def mayPrecede (p q : Value × Value) : Bool := p.2.compare q.2 != .gt

theorem mayPrecede_trans (p q r : Value × Value) (h : mayPrecede p q = true) (h' : mayPrecede q r = true) :
    mayPrecede p r = true :=
  ne_gt_trans Value.compare p.2 q.2 r.2 h h'

theorem mayPrecede_total (p q : Value × Value) : (mayPrecede p q || mayPrecede q p) = true :=
  ne_gt_total Value.compare p.2 q.2

/-- Where two elements at different places stand after a stable sort. -/
theorem before_of_zipIdxLE {p q : (Value × Value) × Nat} (hne : p.2 ≠ q.2) (h : List.zipIdxLE mayPrecede p q = true) :
    p.1.2.compare q.1.2 = .lt ∨ p.1.2.compare q.1.2 = .eq ∧ p.2 < q.2 := by
  rw [List.zipIdxLE, mayPrecede, mayPrecede, Value.compare_swap q.1.2] at h
  cases hcompare : p.1.2.compare q.1.2 with
  | lt => exact .inl rfl
  | eq =>
    simp only [hcompare, Ordering.swap_eq, bne_iff_ne, ne_eq, reduceCtorEq, not_false_eq_true, if_true, decide_eq_true_eq] at h
    exact .inr ⟨rfl, Nat.lt_of_le_of_ne h hne⟩
  | gt => simp [hcompare] at h

/-- The elements and their keys with their places, sorted by the keys. -/
def sortedPlaces (inputs keys : List Value) : List ((Value × Value) × Nat) :=
  (inputs.zip keys).zipIdx.mergeSort (List.zipIdxLE mayPrecede)

theorem sortedPlaces_perm : (sortedPlaces inputs keys).Perm (inputs.zip keys).zipIdx := List.mergeSort_perm _ _

theorem getElem?_of_mem_sortedPlaces {p : (Value × Value) × Nat} (hp : p ∈ sortedPlaces inputs keys) :
    inputs[p.2]? = some p.1.1 ∧ keys[p.2]? = some p.1.2 :=
  List.getElem?_zip_eq_some.1 (List.mem_zipIdx_iff_getElem?.1 (sortedPlaces_perm.subset hp))

theorem sortByKeys_eq_map_places :
    sortByKeys inputs keys = ((sortedPlaces inputs keys).map (·.2)).map (inputs.getD · .undefined) := by
  have hsort : sortByKeys inputs keys = (sortedPlaces inputs keys).map (·.1.1) := by
    rw [sortByKeys, ← List.mergeSort_zipIdx, List.map_map]
    rfl
  rw [hsort, List.map_map]
  refine List.map_congr_left fun p hp => ?_
  simp [(getElem?_of_mem_sortedPlaces hp).1]

theorem stableOrder_places (hl : inputs.length = keys.length) :
    StableOrder keys ((sortedPlaces inputs keys).map (·.2)) where
  perm := by
    refine (sortedPlaces_perm.map _).trans (.of_eq ?_)
    rw [List.zipIdx_map_snd, List.length_zip, hl, Nat.min_self, List.range_eq_range']
  sorted := by
    have hplaces : ((sortedPlaces inputs keys).map (·.2)).Nodup := by
      rw [(sortedPlaces_perm.map _).nodup_iff, List.zipIdx_map_snd]
      exact List.nodup_range'
    have hsorted : (sortedPlaces inputs keys).Pairwise fun p q => List.zipIdxLE mayPrecede p q = true :=
      List.pairwise_mergeSort (List.zipIdxLE_trans mayPrecede_trans) (List.zipIdxLE_total mayPrecede_total) _
    rw [List.pairwise_map]
    refine (hsorted.and (List.pairwise_map.1 hplaces)).imp_of_mem fun {p q} hp hq h => ?_
    exact ⟨_, _, (getElem?_of_mem_sortedPlaces hp).2, (getElem?_of_mem_sortedPlaces hq).2, before_of_zipIdxLE h.2 h.1⟩

/-- Keys have exactly one stable order. -/
theorem existsUnique_stableOrder (keys : List Value) : ∃! order, StableOrder keys order :=
  ⟨_, stableOrder_places (rfl : keys.length = keys.length), fun _ h => h.unique (stableOrder_places rfl)⟩

/-- Sorting by keys shows the elements in the stable order of the keys. -/
theorem sortByKeys_eq (h : StableOrder keys order) (hl : inputs.length = keys.length) :
    sortByKeys inputs keys = order.map (inputs.getD · .undefined) := by
  rw [h.unique (stableOrder_places hl), sortByKeys_eq_map_places]

example : StableOrder [.text "b", .text "a", .text "b"] [1, 0, 2] := by decide

/-- Keys in their stable order are stably sorted. -/
theorem StableOrder.stableSort (h : StableOrder keys order) :
    StableSort Value.compare keys (order.map (keys.getD · .undefined)) := by
  have hsort : sortByKeys keys keys = keys.mergeSort fun a b => a.compare b != .gt := by
    have hself : ∀ p ∈ keys.zip keys, p.1 = p.2 := by
      intro p hp
      obtain ⟨i, hi⟩ := List.mem_iff_getElem?.1 hp
      obtain ⟨hfst, hsnd⟩ := List.getElem?_zip_eq_some.1 hi
      exact Option.some.inj (hfst.symm.trans hsnd)
    rw [sortByKeys, List.map_mergeSort (s := fun a b => a.compare b != .gt) fun p hp q hq => by rw [hself p hp, hself q hq],
      List.map_fst_zip (Nat.le_refl _)]
  rw [← sortByKeys_eq h rfl, hsort]
  exact stableSort_mergeSort keys

/-! ## Extremes -/

variable {greatest : Bool} {i j : Nat} {k k' : Value}

/-- One key is smaller than another, or greater. -/
def Value.Beyond (greatest : Bool) (a b : Value) : Prop := a.compare b = if greatest then .gt else .lt

instance {a b : Value} : Decidable (a.Beyond greatest b) := inferInstanceAs (Decidable (_ = _))

/-- The first place with the least key, or with the greatest, and the key there. -/
structure Extreme (greatest : Bool) (keys : List Value) (i : Nat) (k : Value) : Prop where
  place : keys[i]? = some k
  extreme : ∀ k' ∈ keys, ¬k'.Beyond greatest k
  first : ∀ j k', keys[j]? = some k' → j < i → k.Beyond greatest k'

namespace Value.Beyond

variable {a b c : Value}

theorem asymm (h : a.Beyond greatest b) : ¬b.Beyond greatest a := by
  intro h'
  rw [Beyond, compare_swap, h] at h'
  cases greatest <;> cases h'

/-- What is beyond a key is beyond everything that is not. -/
theorem of_not_beyond (h : a.Beyond greatest b) (h' : ¬c.Beyond greatest b) : a.Beyond greatest c := by
  rw [Beyond, compare_swap c b] at h'
  cases greatest with
  | false => exact Std.TransCmp.lt_of_lt_of_isLE h (by cases hbc : b.compare c <;> simp_all)
  | true => exact Std.TransCmp.gt_of_gt_of_isGE h (by cases hbc : b.compare c <;> simp_all)

theorem irrefl (a : Value) : ¬a.Beyond greatest a := fun h => h.asymm h

theorem trans (h : a.Beyond greatest b) (h' : b.Beyond greatest c) : a.Beyond greatest c := h.of_not_beyond h'.asymm

end Value.Beyond

/-- The only key is the extreme one. -/
theorem Extreme.singleton (k : Value) : Extreme greatest [k] 0 k where
  place := rfl
  extreme k' hk' := by
    rw [List.mem_singleton.1 hk']
    exact Value.Beyond.irrefl k
  first j _ _ hj := absurd hj (Nat.not_lt_zero j)

theorem Extreme.unique (h : Extreme greatest keys i k) (h' : Extreme greatest keys j k') : i = j ∧ k = k' := by
  have hij : i = j := by
    rcases Nat.lt_trichotomy i j with hlt | rfl | hlt
    · exact absurd (h'.first i k h.place hlt) (h.extreme k' (List.mem_of_getElem? h'.place))
    · rfl
    · exact absurd (h.first j k' h'.place hlt) (h'.extreme k (List.mem_of_getElem? h.place))
  subst hij
  exact ⟨rfl, Option.some.inj (h.place.symm.trans h'.place)⟩

/-- One more key takes the place of the extreme one if it is beyond it. -/
theorem Extreme.concat (h : Extreme greatest keys i k) (q : Value) :
    if q.Beyond greatest k then Extreme greatest (keys ++ [q]) keys.length q else Extreme greatest (keys ++ [q]) i k := by
  have hi : i < keys.length := (List.getElem?_eq_some_iff.1 h.place).1
  split
  · rename_i hq
    refine ⟨by simp, fun k' hk' hbeyond => ?_, fun j k' hk' hj => ?_⟩
    · rcases List.mem_append.1 hk' with hk' | hk'
      · exact h.extreme k' hk' (hbeyond.trans hq)
      · rw [List.mem_singleton.1 hk'] at hbeyond
        exact Value.Beyond.irrefl q hbeyond
    · rw [List.getElem?_append_left hj] at hk'
      exact hq.of_not_beyond (h.extreme k' (List.mem_of_getElem? hk'))
  · rename_i hq
    refine ⟨(List.getElem?_append_left hi).trans h.place, fun k' hk' => ?_, fun j k' hk' hj => ?_⟩
    · rcases List.mem_append.1 hk' with hk' | hk'
      · exact h.extreme k' hk'
      · rwa [List.mem_singleton.1 hk']
    · rw [List.getElem?_append_left (Nat.lt_trans hj hi)] at hk'
      exact h.first j k' hk' hj

theorem extremeOf_concat (ps : List (Value × Value)) (q : Value × Value) :
    extremeOf greatest (ps ++ [q]) = some (match extremeOf greatest ps with
      | some best => if q.2.Beyond greatest best.2 then q else best
      | none => q) := by
  cases ps with
  | nil => rfl
  | cons p ps =>
    simp only [extremeOf, List.cons_append, List.foldl_append, List.foldl_cons, List.foldl_nil, beq_iff_eq]
    rfl

/-- The element that is chosen is at the first place with the extreme key. -/
theorem extremeOf_spec {ps : List (Value × Value)} (h : ps ≠ []) :
    ∃ i p, ps[i]? = some p ∧ extremeOf greatest ps = some p ∧ Extreme greatest (ps.map (·.2)) i p.2 := by
  induction ps using List.reverseRecOn with
  | nil => exact absurd rfl h
  | append_singleton ps q ih =>
    rw [extremeOf_concat, List.map_append, List.map_singleton]
    rcases eq_or_ne ps [] with rfl | hne
    · exact ⟨0, q, rfl, rfl, .singleton q.2⟩
    · obtain ⟨i, p, hp, hbest, hextreme⟩ := ih hne
      have step := hextreme.concat q.2
      rw [hbest]
      by_cases hq : q.2.Beyond greatest p.2
      · rw [if_pos hq, List.length_map] at step
        exact ⟨ps.length, q, by simp, by simp only [if_pos hq], step⟩
      · rw [if_neg hq] at step
        have hi : i < ps.length := (List.getElem?_eq_some_iff.1 hp).1
        exact ⟨i, p, (List.getElem?_append_left hi).trans hp, by simp only [if_neg hq], step⟩

end LiveBindings
