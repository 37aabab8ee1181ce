import LiveBindings.Collection.KeptCounts
import Mathlib.Algebra.BigOperators.Intervals
import Mathlib.Data.Nat.Bitwise

/-!
# The tree of partial counts

Cell `i` of the tree of `KeptCounts` stands for the flags from `i - lowBit i` to `i` (`Spans`). Above a cell that spans a flag the next
one that does is `lowBit` further on (`spans_next`). So a walk upwards from a flag meets exactly the cells that span it, which is what
setting one flag changes (`KeptCounts.Correct.set`), and a walk downwards adds up disjoint spans (`KeptCounts.Correct.before_eq`). The
tree is built by handing every count once to the next cell, when it is complete (`KeptCounts.correct_ofFlags`).
-/

namespace LiveBindings

/-! ## The lowest bit -/

theorem sub_lowBit (i : Nat) : i - lowBit i = i &&& (i - 1) := by
  have h : i &&& (i - 1) ≤ i := Nat.and_le_left
  unfold lowBit
  omega

theorem lowBit_le (i : Nat) : lowBit i ≤ i := Nat.sub_le _ _

theorem two_mul_and_two_mul_add_one (a b : Nat) : (2 * a) &&& (2 * b + 1) = 2 * (a &&& b) := by
  simpa [Nat.bit_val] using Nat.land_bit false a true b

theorem two_mul_add_one_and_two_mul (a b : Nat) : (2 * a + 1) &&& (2 * b) = 2 * (a &&& b) := by
  simpa [Nat.bit_val] using Nat.land_bit true a false b

theorem lowBit_two_mul {i : Nat} (h : 0 < i) : lowBit (2 * i) = 2 * lowBit i := by
  obtain ⟨j, rfl⟩ : ∃ j, i = j + 1 := ⟨i - 1, by omega⟩
  have hpred : 2 * (j + 1) - 1 = 2 * j + 1 := by omega
  unfold lowBit
  rw [hpred, two_mul_and_two_mul_add_one, Nat.add_sub_cancel, Nat.mul_sub]

theorem lowBit_two_mul_add_one (i : Nat) : lowBit (2 * i + 1) = 1 := by
  unfold lowBit
  rw [Nat.add_sub_cancel, two_mul_add_one_and_two_mul, Nat.and_self]
  omega

/-! ## Spans -/

/-- The cell counts the flag; both are counted from one. -/
def Spans (cell flag : Nat) : Prop := cell - lowBit cell < flag ∧ flag ≤ cell

instance (cell flag : Nat) : Decidable (Spans cell flag) := inferInstanceAs (Decidable (_ ∧ _))

theorem spans_self {i : Nat} (h : 0 < i) : Spans i i := by
  have := lowBit_pos h
  exact ⟨by omega, Nat.le_refl i⟩

/-- The cells above a cell span what it ends with exactly when they span the end of the next. -/
theorem spans_next {i p : Nat} (hp : 0 < p) (h : p < i) : Spans i p ↔ Spans i (p + lowBit p) := by
  induction i using Nat.strongRecOn generalizing p with
  | ind i ih =>
    unfold Spans
    obtain ⟨a, rfl | rfl⟩ : ∃ a, i = 2 * a ∨ i = 2 * a + 1 := ⟨i / 2, by omega⟩
    · have ha : lowBit (2 * a) = 2 * lowBit a := lowBit_two_mul (by omega)
      have hle := lowBit_le a
      obtain ⟨b, rfl | rfl⟩ : ∃ b, p = 2 * b ∨ p = 2 * b + 1 := ⟨p / 2, by omega⟩
      · have hb : lowBit (2 * b) = 2 * lowBit b := lowBit_two_mul (by omega)
        have key := ih a (by omega) (p := b) (by omega) (by omega)
        unfold Spans at key
        rw [ha, hb]
        omega
      · rw [ha, lowBit_two_mul_add_one]
        omega
    · -- An odd cell spans one flag, and the numbers that follow are even.
      rw [lowBit_two_mul_add_one]
      have hpos := lowBit_pos hp
      obtain ⟨b, rfl | rfl⟩ : ∃ b, p = 2 * b ∨ p = 2 * b + 1 := ⟨p / 2, by omega⟩
      · rw [lowBit_two_mul (by omega : 0 < b)]
        omega
      · rw [lowBit_two_mul_add_one]
        omega

/-- A cell spans what a cell that it spans does. -/
theorem Spans.trans {i j p : Nat} (hp : 0 < p) (h : Spans i j) (h' : Spans j p) : Spans i p := by
  induction hd : j - p using Nat.strongRecOn generalizing p with
  | ind d ih =>
    subst hd
    rcases Nat.eq_or_lt_of_le h'.2 with rfl | hlt
    · exact h
    · have hpos := lowBit_pos hp
      have hnext := (spans_next hp hlt).1 h'
      have := h.2
      exact (spans_next hp (by omega)).2 (ih (j - (p + lowBit p)) (by omega) (by omega) hnext rfl)

/-- Below a cell that spans a flag there is one that spans it too and hands its count to the cell. -/
theorem Spans.child {i p : Nat} (hp : 0 < p) (h : Spans i p) (hlt : p < i) :
    ∃ j < i, 0 < j ∧ j + lowBit j = i ∧ Spans j p := by
  induction hd : i - p using Nat.strongRecOn generalizing p with
  | ind d ih =>
    subst hd
    have hpos := lowBit_pos hp
    have hnext := (spans_next hp hlt).1 h
    rcases Nat.eq_or_lt_of_le hnext.2 with he | hlt'
    · exact ⟨p, hlt, hp, he, spans_self hp⟩
    · obtain ⟨j, hj, hj₀, he, hs⟩ := ih (i - (p + lowBit p)) (by omega) (by omega) hnext hlt' rfl
      refine ⟨j, hj, hj₀, he, (spans_next hp ?_).2 hs⟩
      have := hs.2
      omega

/-- Of the cells that hand their counts to one cell no two span the same flag. -/
theorem Spans.lone {j k p : Nat} (hp : 0 < p) (hj : Spans j p) (hk : Spans k p) (he : j + lowBit j = k + lowBit k) : j = k := by
  have apart : ∀ {j k : Nat}, Spans j p → Spans k p → j + lowBit j = k + lowBit k → ¬j < k := by
    intro j k hj hk he hlt
    have hj₀ : 0 < j := Nat.lt_of_lt_of_le hp hj.2
    have hspan : Spans k j := ⟨Nat.lt_of_lt_of_le hk.1 hj.2, Nat.le_of_lt hlt⟩
    have hnext := ((spans_next hj₀ hlt).1 hspan).2
    have := lowBit_pos (Nat.lt_trans hj₀ hlt)
    omega
  exact Nat.le_antisymm (Nat.not_lt.1 (apart hk hj he.symm)) (Nat.not_lt.1 (apart hj hk he))

/-! ## Counts of flags -/

/-- What a flag, counted from one, adds to a count. -/
def weight (flags : List Bool) (p : Nat) : Nat := if flags[p - 1]? = some true then 1 else 0

/-- The number of kept flags that a cell counts. -/
def spanned (flags : List Bool) (i : Nat) : Nat := ∑ p ∈ Finset.Ioc (i - lowBit i) i, weight flags p

theorem sum_weight {flags : List Bool} {i : Nat} (h : i ≤ flags.length) :
    ∑ p ∈ Finset.Ioc 0 i, weight flags p = (flags.take i).count true := by
  induction i with
  | zero => simp
  | succ i ih =>
    have hi : i < flags.length := h
    have last : ∑ p ∈ Finset.Ioc i (i + 1), weight flags p = weight flags (i + 1) := by
      rw [Nat.Ioc_succ_singleton, Finset.sum_singleton]
    rw [← Finset.sum_Ioc_consecutive _ (Nat.zero_le i) (Nat.le_succ i), ih (Nat.le_of_lt hi), ← List.take_concat_get' _ _ hi,
      List.count_append, last, weight, Nat.add_sub_cancel, List.getElem?_eq_getElem hi]
    cases flags[i] <;> rfl

namespace KeptCounts

/-- Every cell of the tree has the number of kept flags that it counts. -/
structure Correct (k : KeptCounts) : Prop where
  size : k.tree.size = k.flags.length + 1
  cell : ∀ i, 0 < i → i ≤ k.flags.length → k.tree.getD i 0 = spanned k.flags i

variable {k : KeptCounts}

theorem Correct.total_eq (h : k.Correct) (i : Nat) (hi : i ≤ k.flags.length) :
    total k.tree i = ∑ p ∈ Finset.Ioc 0 i, weight k.flags p := by
  induction i using Nat.strongRecOn with
  | ind i ih =>
    cases i with
    | zero =>
      unfold total
      rfl
    | succ i =>
      have hbelow : (i + 1) &&& i = i + 1 - lowBit (i + 1) := (sub_lowBit (i + 1)).symm
      have hpos : 0 < lowBit (i + 1) := lowBit_pos (Nat.succ_pos i)
      unfold total
      rw [hbelow, ih _ (by omega) (by omega), h.cell _ (Nat.succ_pos i) hi, Nat.add_comm]
      exact Finset.sum_Ioc_consecutive _ (Nat.zero_le _) (Nat.sub_le _ _)

/-- The tree tells how many flags are kept among the first ones. -/
theorem Correct.before_eq (h : k.Correct) (stop : Nat) : k.before stop = (k.flags.take stop).count true := by
  rw [before, h.total_eq _ (Nat.min_le_right _ _), sum_weight (Nat.min_le_right _ _), ← List.take_eq_take_min]

/-! ## Setting a flag -/

theorem getD_modify (tree : Array Nat) (f : Nat → Nat) {i c : Nat} (hi : i < tree.size) :
    (tree.modify i f).getD c 0 = if c = i then f (tree.getD c 0) else tree.getD c 0 := by
  simp only [Array.getD_eq_getD_getElem?, Array.getElem?_modify]
  by_cases hc : c = i
  · subst hc
    simp [hi]
  · simp [hc, Ne.symm hc]

@[simp] theorem size_adjust (n : Nat) (f : Nat → Nat) (tree : Array Nat) (i : Nat) : (adjust n f tree i).size = tree.size := by
  fun_induction adjust n f tree i with
  | case1 tree i h ih => rw [ih, Array.size_modify]
  | case2 => rfl

/-- The walk upwards from a flag changes the cells that span it. -/
theorem getD_adjust {n : Nat} {f : Nat → Nat} {tree : Array Nat} {i : Nat} (hi : 0 < i) (hn : tree.size = n + 1) (c : Nat) :
    (adjust n f tree i).getD c 0 = if Spans c i ∧ c ≤ n then f (tree.getD c 0) else tree.getD c 0 := by
  fun_induction adjust n f tree i with
  | case1 tree i h ih =>
    have hpos := lowBit_pos hi
    rw [ih (by omega) (by rw [Array.size_modify, hn]), getD_modify _ _ (by omega)]
    rcases Nat.lt_trichotomy c i with hlt | rfl | hgt
    · have hnot : ¬Spans c i := fun hs => Nat.not_le.2 hlt hs.2
      have hnot' : ¬Spans c (i + lowBit i) := fun hs => Nat.not_le.2 hlt (by have := hs.2; omega)
      simp [hnot, hnot', Nat.ne_of_lt hlt]
    · have hnot' : ¬Spans c (c + lowBit c) := fun hs => by
        have := hs.2
        omega
      simp [hnot', spans_self hi, h.2]
    · simp [spans_next hi hgt, Nat.ne_of_gt hgt]
  | case2 tree i h =>
    have hnot : ¬(Spans c i ∧ c ≤ n) := fun hs => h ⟨hi, Nat.le_trans hs.1.2 hs.2⟩
    rw [if_neg hnot]

theorem weight_set {flags : List Bool} {index : Nat} (h : index < flags.length) (kept : Bool) {p : Nat} (hp : 0 < p) :
    weight (flags.set index kept) p = if p = index + 1 then (if kept then 1 else 0) else weight flags p := by
  obtain ⟨p, rfl⟩ : ∃ q, p = q + 1 := ⟨p - 1, by omega⟩
  simp only [weight, Nat.add_sub_cancel, Nat.add_right_cancel_iff, List.getElem?_set]
  by_cases hpi : p = index
  · subst hpi
    cases kept <;> simp [h]
  · simp [hpi, Ne.symm hpi]

/-- Setting a flag that changes changes the cells that count it by one. -/
theorem spanned_set {flags : List Bool} {index : Nat} (h : index < flags.length) {kept : Bool} (hold : flags[index] = !kept) (i : Nat) :
    spanned (flags.set index kept) i =
      if Spans i (index + 1) then (if kept then spanned flags i + 1 else spanned flags i - 1) else spanned flags i := by
  have hsame : ∀ p ∈ Finset.Ioc (i - lowBit i) i, p ≠ index + 1 → weight (flags.set index kept) p = weight flags p :=
    fun p hp hne => by rw [weight_set h kept (Nat.zero_lt_of_lt (Finset.mem_Ioc.1 hp).1), if_neg hne]
  unfold spanned
  split
  · rename_i hs
    have hmem : index + 1 ∈ Finset.Ioc (i - lowBit i) i := Finset.mem_Ioc.2 hs
    have hrest : ∑ p ∈ (Finset.Ioc (i - lowBit i) i).erase (index + 1), weight (flags.set index kept) p =
        ∑ p ∈ (Finset.Ioc (i - lowBit i) i).erase (index + 1), weight flags p :=
      Finset.sum_congr rfl fun p hp => hsame p (Finset.mem_of_mem_erase hp) (Finset.ne_of_mem_erase hp)
    have hflag : weight flags (index + 1) = if kept then 0 else 1 := by
      cases kept <;> simp [weight, h, hold]
    rw [← Finset.add_sum_erase _ _ hmem, ← Finset.add_sum_erase _ (weight flags) hmem, hrest, hflag,
      weight_set h kept (Nat.succ_pos index), if_pos rfl]
    cases kept
    · simp
    · simp [Nat.add_comm]
  · rename_i hs
    refine Finset.sum_congr rfl fun p hp => hsame p hp ?_
    rintro rfl
    exact hs (Finset.mem_Ioc.1 hp)

@[simp] theorem flags_set (index : Nat) (kept : Bool) : (k.set index kept).1.flags = k.flags.set index kept := by
  unfold set
  split
  · rename_i flag hf
    split
    · rename_i he
      obtain ⟨hlt, hget⟩ := List.getElem?_eq_some_iff.1 hf
      rw [← he, ← hget, List.set_getElem_self]
    · rfl
  · rename_i hf
    rw [List.set_eq_of_length_le (List.getElem?_eq_none_iff.1 hf)]

/-- Whether a flag changed. -/
theorem set_changed (index : Nat) (kept : Bool) : (k.set index kept).2 = true ↔ k.flags[index]? = some (!kept) := by
  unfold set
  split
  · rename_i flag hf
    rw [hf]
    cases flag <;> cases kept <;> simp
  · rename_i hf
    simp [hf]

theorem Correct.set (h : k.Correct) (index : Nat) (kept : Bool) : (k.set index kept).1.Correct := by
  unfold KeptCounts.set
  split
  · rename_i flag hf
    split
    · exact h
    · rename_i hne
      obtain ⟨hlt, hget⟩ := List.getElem?_eq_some_iff.1 hf
      have hold : k.flags[index] = !kept := by
        rw [hget]
        cases flag <;> cases kept <;> simp_all
      refine ⟨?_, fun i hi hle => ?_⟩
      · rw [size_adjust, List.length_set, h.size]
      · rw [List.length_set] at hle
        rw [getD_adjust (Nat.succ_pos index) h.size, h.cell i hi hle, spanned_set hlt hold]
        simp only [hle, and_true]
  · exact h

/-! ## Building the tree -/

/-- The cell counts the flag once the counts of the first `done` cells were handed on. -/
def Reached (done cell flag : Nat) : Prop := flag = cell ∨ ∃ j ≤ done, 0 < j ∧ j + lowBit j = cell ∧ Spans j flag

instance (done cell flag : Nat) : Decidable (Reached done cell flag) := inferInstanceAs (Decidable (_ ∨ _))

theorem reached_zero {cell flag : Nat} : Reached 0 cell flag ↔ flag = cell := by
  unfold Reached
  constructor
  · rintro (h | ⟨j, hj, hj₀, -⟩)
    · exact h
    · omega
  · exact .inl

/-- A cell has all that it counts once the cells below it have handed on theirs. -/
theorem reached_all {done cell flag : Nat} (hflag : 0 < flag) (hdone : cell ≤ done + 1) :
    Reached done cell flag ↔ Spans cell flag := by
  constructor
  · rintro (rfl | ⟨j, -, hj₀, rfl, hs⟩)
    · exact spans_self hflag
    · have hpos := lowBit_pos hj₀
      have hspan : Spans (j + lowBit j) j := (spans_next hj₀ (by omega)).2 (spans_self (by omega))
      exact hspan.trans hflag hs
  · intro hs
    rcases Nat.eq_or_lt_of_le hs.2 with rfl | hlt
    · exact .inl rfl
    · obtain ⟨j, hj, hj₀, he, hs'⟩ := hs.child hflag hlt
      exact .inr ⟨j, by omega, hj₀, he, hs'⟩

theorem reached_succ {done cell flag : Nat} :
    Reached (done + 1) cell flag ↔ Reached done cell flag ∨ (done + 1 + lowBit (done + 1) = cell ∧ Spans (done + 1) flag) := by
  constructor
  · rintro (h | ⟨j, hj, hj₀, he, hs⟩)
    · exact .inl (.inl h)
    · rcases Nat.eq_or_lt_of_le hj with rfl | hlt
      · exact .inr ⟨he, hs⟩
      · exact .inl (.inr ⟨j, by omega, hj₀, he, hs⟩)
  · rintro ((h | ⟨j, hj, rest⟩) | ⟨he, hs⟩)
    · exact .inl h
    · exact .inr ⟨j, by omega, rest⟩
    · exact .inr ⟨done + 1, Nat.le_refl _, Nat.succ_pos _, he, hs⟩

/-- What is handed on had not been counted. -/
theorem not_reached {done flag : Nat} (hflag : 0 < flag) (hs : Spans (done + 1) flag) :
    ¬Reached done (done + 1 + lowBit (done + 1)) flag := by
  rintro (rfl | ⟨j, hj, hj₀, he, hs'⟩)
  · have hpos : 0 < lowBit (done + 1) := lowBit_pos (Nat.succ_pos done)
    have := hs.2
    omega
  · have := hs'.lone hflag hs he
    omega

/-- What a cell counts once the counts of the first `done` cells were handed on. -/
def counted (flags : List Bool) (done cell : Nat) : Nat :=
  ∑ p ∈ Finset.Ioc 0 cell, if Reached done cell p then weight flags p else 0

theorem spanned_eq_sum (flags : List Bool) {i cell : Nat} (h : i ≤ cell) :
    spanned flags i = ∑ p ∈ Finset.Ioc 0 cell, if Spans i p then weight flags p else 0 := by
  have hcells : Finset.Ioc (i - lowBit i) i = (Finset.Ioc 0 cell).filter (Spans i) := by
    ext p
    simp only [Finset.mem_Ioc, Finset.mem_filter, Spans]
    omega
  rw [spanned, hcells, Finset.sum_filter]

theorem counted_zero (flags : List Bool) {cell : Nat} (h : 0 < cell) : counted flags 0 cell = weight flags cell := by
  simp only [counted, reached_zero]
  rw [Finset.sum_ite_eq' _ cell, if_pos (Finset.mem_Ioc.2 ⟨h, Nat.le_refl _⟩)]

theorem counted_all (flags : List Bool) {done cell : Nat} (h : cell ≤ done + 1) : counted flags done cell = spanned flags cell := by
  rw [spanned_eq_sum flags (Nat.le_refl cell), counted]
  exact Finset.sum_congr rfl fun p hp => by rw [if_congr (reached_all (Finset.mem_Ioc.1 hp).1 h) rfl rfl]

/-- The count of one more cell is handed on. -/
theorem counted_succ (flags : List Bool) (done cell : Nat) : counted flags (done + 1) cell =
    if cell = done + 1 + lowBit (done + 1) then counted flags done cell + spanned flags (done + 1) else counted flags done cell := by
  unfold counted
  split
  · rename_i hc
    subst hc
    rw [spanned_eq_sum flags (Nat.le_add_right (done + 1) _), ← Finset.sum_add_distrib]
    refine Finset.sum_congr rfl fun p hp => ?_
    by_cases hs : Spans (done + 1) p
    · simp [reached_succ, hs, not_reached (Finset.mem_Ioc.1 hp).1 hs]
    · simp [reached_succ, hs]
  · rename_i hc
    exact Finset.sum_congr rfl fun p _ => by simp [reached_succ, Ne.symm hc]

/-- The cells while the tree is built. -/
theorem built (flags : List Bool) {done : Nat} (h : done ≤ flags.length) :
    let tree := (List.range' 1 done).foldl (propagate flags.length) (#[0] ++ (flags.map fun b => if b then 1 else 0).toArray)
    tree.size = flags.length + 1 ∧ ∀ i, 0 < i → i ≤ flags.length → tree.getD i 0 = counted flags done i := by
  induction done with
  | zero =>
    refine ⟨by simp, fun i hi hle => ?_⟩
    obtain ⟨i, rfl⟩ : ∃ j, i = j + 1 := ⟨i - 1, by omega⟩
    rw [counted_zero flags hi]
    have hlt : i < flags.length := hle
    simp [weight, Array.getD_eq_getD_getElem?, hlt]
  | succ done ih =>
    obtain ⟨hsize, hcell⟩ := ih (Nat.le_of_succ_le h)
    rw [List.range'_1_concat, List.foldl_append]
    generalize (List.range' 1 done).foldl (propagate flags.length) _ = tree at hsize hcell
    simp only [List.foldl_cons, List.foldl_nil, propagate, Nat.add_comm 1 done]
    have hdone : tree.getD (done + 1) 0 = spanned flags (done + 1) :=
      (hcell _ (Nat.succ_pos done) h).trans (counted_all flags (Nat.le_refl _))
    split
    · rename_i hparent
      refine ⟨by rw [Array.size_modify, hsize], fun i hi hle => ?_⟩
      rw [getD_modify _ _ (by omega), counted_succ, hcell i hi hle, hdone]
    · rename_i hparent
      refine ⟨hsize, fun i hi hle => ?_⟩
      rw [counted_succ, if_neg (by omega), hcell i hi hle]

@[simp] theorem flags_ofFlags (flags : List Bool) : (ofFlags flags).flags = flags := rfl

/-- The counts of flags are right. -/
theorem correct_ofFlags (flags : List Bool) : (ofFlags flags).Correct where
  size := (built flags (Nat.le_refl _)).1
  cell i hi hle := ((built flags (Nat.le_refl _)).2 i hi hle).trans (counted_all flags (Nat.le_succ_of_le hle))

end KeptCounts

end LiveBindings
