import LiveBindings.Operators
import LiveBindings.Proofs.Arithmetic
import LiveBindings.Proofs.Order
import Mathlib.Algebra.Order.Ring.Int

/-!
# What dropping an update leaves as it was

An update is dropped when the new value is the same as the old one. Whatever was computed from the old value should then be what
would be computed from the new one. So it is for the operators of the standard table (`Operator.standard_same`), except that a
quotient tells the zero that it divides by, and a power the zero that it raises. The order of values tells the zeros and the bits of
a NaN apart; as long as no NaN changes its sign, that matters only between values that are the same (`Value.compare_congr`), so that
a stable order keeps elements with different keys as they are, and the least or greatest key stays the same.
-/

namespace LiveBindings

namespace Value

/-- Two zeros that are not equal: one is negative. -/
def ZerosApart (a b : Value) : Prop := ∃ x y : Number, a = number x ∧ b = number y ∧ x.isZero = true ∧ y.isZero = true ∧ x ≠ y

/-- Two NaN with different bits. -/
def NaNsApart (a b : Value) : Prop := ∃ x y : Number, a = number x ∧ b = number y ∧ x.isNaN = true ∧ y.isNaN = true ∧ x ≠ y

/-- Two NaN of opposite sign. -/
def NaNsOpposed (a b : Value) : Prop :=
  ∃ x y : Number, a = number x ∧ b = number y ∧ x.isNaN = true ∧ y.isNaN = true ∧ x.negative ≠ y.negative

variable {a a' b b' c : Value}

/-- Values that are the same are equal, but for zeros and for NaN. -/
theorem eq_or_apart (h : a.same b = true) : a = b ∨ ZerosApart a b ∨ NaNsApart a b := by
  rcases same_iff.1 h with rfl | ⟨x, y, rfl, rfl, h⟩
  · exact .inl rfl
  · by_cases he : x = y
    · exact .inl (congrArg number he)
    · rcases (Number.same_iff.1 h).resolve_left he with ⟨hx, hy⟩ | ⟨hx, hy⟩
      · exact .inr (.inl ⟨x, y, rfl, rfl, hx, hy, he⟩)
      · exact .inr (.inr ⟨x, y, rfl, rfl, hx, hy, he⟩)

theorem zerosApart_of_toNumber (h : a.same b = true) (hz : a.toNumber.isZero = true) (hne : a.toNumber ≠ b.toNumber) :
    a.ZerosApart b := by
  rcases same_iff.1 h with rfl | ⟨x, y, rfl, rfl, h⟩
  · exact absurd rfl hne
  · exact ⟨x, y, rfl, rfl, hz, Number.isZero_eq_of_same h ▸ hz, hne⟩

theorem isNullish_eq_of_same (h : a.same b = true) : a.isNullish = b.isNullish := eq_of_same (fun _ _ _ => rfl) h

theorem asText_eq_of_same (h : a.same b = true) : a.asText = b.asText := eq_of_same (fun _ _ _ => rfl) h

end Value

namespace Contents

/-- The text of a value, what containers hold being as it is. -/
theorem text_eq_of_same (c : Contents) {a b : Value} (h : a.same b = true) : c.text a = c.text b :=
  Value.eq_of_same (fun x y h => by simp only [text, textWithin, Number.valueText_eq_of_same h]) h

end Contents

/-! ## Operators -/

namespace Operator

/-- Operands are the same one by one. -/
abbrev SameArgs (args args' : List Value) : Prop := List.Forall₂ (fun a b : Value => a.same b = true) args args'

variable {args args' : List Value} {a a' b b' : Value}

theorem operand_same (h : SameArgs args args') (i : Nat) : (operand args i).same (operand args' i) = true := by
  induction h generalizing i with
  | nil => exact Value.same_refl _
  | cons hab _ ih =>
    cases i with
    | zero => exact hab
    | succ i => exact ih i

theorem joinText_eq_of_same (c : Contents) (h : a.same b = true) : joinText c a = joinText c b := by
  rw [joinText, joinText, Value.isNullish_eq_of_same h, c.text_eq_of_same h]

theorem map_eq_of_same {α : Type} {f : Value → α} (hf : ∀ a b : Value, a.same b = true → f a = f b) (h : SameArgs args args') :
    args.map f = args'.map f := by
  induction h with
  | nil => rfl
  | cons hab _ ih => rw [List.map_cons, List.map_cons, hf _ _ hab, ih]

theorem add_same (c : Contents) (h : SameArgs args args') : (add c args).same (add c args') = true := by
  have htext : args.any isText = args'.any isText := by
    have := map_eq_of_same (f := isText) (fun a b hab => by rw [isText, isText, Value.asText_eq_of_same hab]) h
    simpa only [List.any_map, Function.id_comp] using congrArg (List.any · id) this
  unfold add
  rw [htext]
  split
  · rw [map_eq_of_same (fun _ _ => joinText_eq_of_same c) h]
    exact Value.same_refl _
  · refine Number.same_sum ?_
    rw [List.forall₂_map_left_iff, List.forall₂_map_right_iff]
    exact h.imp fun _ _ => Value.toNumber_same

theorem numericCompare_eq_of_same {x x' y y' : Number} (hx : x.same x' = true) (hy : y.same y' = true) :
    x.numericCompare y = x'.numericCompare y' := by
  unfold Number.numericCompare
  rw [Number.isNaN_eq_of_same hx, Number.isNaN_eq_of_same hy]
  split
  · rfl
  · rename_i h
    obtain ⟨nx, ny⟩ : x'.isNaN = false ∧ y'.isNaN = false := by simpa using h
    have key_eq : ∀ {z z' : Number}, z.same z' = true → z'.isNaN = false → z.numericKey = z'.numericKey := by
      intro z z' hz nz
      rcases Number.eq_or_zeros hz (Number.isNaN_eq_of_same hz ▸ nz) with rfl | ⟨h, h'⟩
      · rfl
      · simp only [Number.isZero, beq_iff_eq] at h h'
        simp [Number.numericKey, h, h']
    rw [key_eq hx nx, key_eq hy ny]

theorem compareOperands_eq_of_same (ha : a.same a' = true) (hb : b.same b' = true) :
    compareOperands a b = compareOperands a' b' := by
  rcases Value.same_iff.1 ha with rfl | ⟨x, x', rfl, rfl, hx⟩ <;> rcases Value.same_iff.1 hb with rfl | ⟨y, y', rfl, rfl, hy⟩
  · rfl
  · cases a with
    | number x => exact congrArg (Option.getD · .eq) (numericCompare_eq_of_same (Number.same_refl x) hy)
    | _ => rfl
  · cases b with
    | number y => exact congrArg (Option.getD · .eq) (numericCompare_eq_of_same hx (Number.same_refl y))
    | _ => rfl
  · exact congrArg (Option.getD · .eq) (numericCompare_eq_of_same hx hy)

theorem isNaN_eq_of_same (h : a.same b = true) : isNaN a = isNaN b :=
  Value.eq_of_same (fun _ _ h => Number.isNaN_eq_of_same h) h

theorem onOrder_eq_of_same (test : Ordering → Bool) (c : Contents) (h : SameArgs args args') :
    (onOrder test).apply c args = (onOrder test).apply c args' := by
  simp only [onOrder, isNaN_eq_of_same (operand_same h 0), isNaN_eq_of_same (operand_same h 1),
    compareOperands_eq_of_same (operand_same h 0) (operand_same h 1)]

theorem onTexts_apply (test : List Char → List Char → Bool) (c : Contents) (args : List Value) :
    (onTexts test).apply c args =
      .bool ((operand args 0).asText.any fun s => (operand args 1).asText.any fun s' => test s.toList s'.toList) := by
  simp only [onTexts]
  cases operand args 0 <;> cases operand args 1 <;> rfl

theorem onTexts_eq_of_same (test : List Char → List Char → Bool) (c : Contents) (h : SameArgs args args') :
    (onTexts test).apply c args = (onTexts test).apply c args' := by
  rw [onTexts_apply, onTexts_apply, Value.asText_eq_of_same (operand_same h 0), Value.asText_eq_of_same (operand_same h 1)]

theorem find_same (h : SameArgs args args') :
    ((args.find? (!·.isNullish)).getD .undefined).same ((args'.find? (!·.isNullish)).getD .undefined) = true := by
  induction h with
  | nil => exact Value.same_refl _
  | cons hab _ ih =>
    rw [List.find?_cons, List.find?_cons, ← Value.isNullish_eq_of_same hab]
    split
    · exact hab
    · exact ih

/-- The operation lets the sign of a zero out: something that is neither a zero nor NaN is divided by one zero and by the other, or
one zero and the other are raised to a negative odd number. -/
def TellsZeros (name : String) (args args' : List Value) : Prop :=
  (name = "div" ∧ ((operand args 0).toNumber.isZero = false ∧ (operand args 0).toNumber.isNaN = false) ∧
    (operand args 1).ZerosApart (operand args' 1)) ∨
  (name = "pow" ∧ ((operand args 1).toNumber.negative = true ∧ (operand args 1).toNumber.isOdd = true) ∧
    (operand args 0).ZerosApart (operand args' 0))

theorem div_same (h : SameArgs args args') (zeros : ¬TellsZeros "div" args args') (c : Contents) :
    ((onNumbers Number.div).apply c args).same ((onNumbers Number.div).apply c args') = true := by
  refine Number.same_div (Value.toNumber_same (operand_same h 0)) (Value.toNumber_same (operand_same h 1)) fun hz hne => ?_
  by_contra hx
  exact zeros (.inl ⟨rfl, by simpa using hx, Value.zerosApart_of_toNumber (operand_same h 1) hz hne⟩)

theorem pow_same (h : SameArgs args args') (zeros : ¬TellsZeros "pow" args args') (c : Contents) :
    ((onNumbers Number.pow).apply c args).same ((onNumbers Number.pow).apply c args') = true := by
  refine Number.same_pow (Value.toNumber_same (operand_same h 0)) (Value.toNumber_same (operand_same h 1)) fun hz hne => ?_
  rw [← Bool.not_eq_true]
  exact fun odd => zeros (.inr ⟨rfl, by simpa using odd, Value.zerosApart_of_toNumber (operand_same h 0) hz hne⟩)

/-- The two operations do tell the zeros apart. -/
theorem standard_not_same {name : String} {op : Operator} (hop : (name, op) ∈ standard) (h : SameArgs args args')
    (zeros : TellsZeros name args args') (c : Contents) : (op.apply c args).same (op.apply c args') = false := by
  have first := Value.toNumber_same (operand_same h 0)
  have second := Value.toNumber_same (operand_same h 1)
  rcases zeros with ⟨rfl, ⟨zx, nx⟩, y, y', hy, hy', zy, zy', hne⟩ | ⟨rfl, ⟨negative, odd⟩, x, x', hx, hx', zx, zx', hne⟩
  · obtain rfl : op = onNumbers Number.div := by simpa [standard] using hop
    change (Number.div _ _).same (Number.div _ _) = false
    rw [hy, hy']
    exact Number.div_not_same first zx nx zy zy' hne
  · obtain rfl : op = onNumbers Number.pow := by simpa [standard] using hop
    change (Number.pow _ _).same (Number.pow _ _) = false
    rw [hx, hx']
    exact Number.pow_not_same second negative odd zx zx' hne

/-- The operators of the standard table have the same result for operands that are the same, but for zeros told apart. -/
theorem standard_same {name : String} {op : Operator} (hop : (name, op) ∈ standard) (h : SameArgs args args')
    (zeros : ¬TellsZeros name args args') (c : Contents) : (op.apply c args).same (op.apply c args') = true := by
  have same_of_eq {v v' : Value} (h : v = v') : v.same v' = true := h ▸ Value.same_refl v
  have first := operand_same h 0
  have second := operand_same h 1
  have firstNumber := Value.toNumber_same first
  have secondNumber := Value.toNumber_same second
  have truths := map_eq_of_same (fun _ _ => Value.truthy_eq_of_same) h
  simp only [standard, List.mem_cons, Prod.mk.injEq, List.not_mem_nil, or_false] at hop
  rcases hop with ⟨rfl, rfl⟩ | ⟨rfl, rfl⟩ | ⟨rfl, rfl⟩ | ⟨rfl, rfl⟩ | ⟨rfl, rfl⟩ | ⟨rfl, rfl⟩ | ⟨rfl, rfl⟩ | ⟨rfl, rfl⟩ |
    ⟨rfl, rfl⟩ | ⟨rfl, rfl⟩ | ⟨rfl, rfl⟩ | ⟨rfl, rfl⟩ | ⟨rfl, rfl⟩ | ⟨rfl, rfl⟩ | ⟨rfl, rfl⟩ | ⟨rfl, rfl⟩ | ⟨rfl, rfl⟩ |
    ⟨rfl, rfl⟩ | ⟨rfl, rfl⟩ | ⟨rfl, rfl⟩ | ⟨rfl, rfl⟩ | ⟨rfl, rfl⟩ | ⟨rfl, rfl⟩
  · exact same_of_eq (congrArg (Value.bool !·) (Value.truthy_eq_of_same first))
  · exact Number.neg_same firstNumber
  · exact firstNumber
  · exact same_of_eq (congrArg Value.text (joinText_eq_of_same c first))
  · exact add_same c h
  · exact Number.same_sub firstNumber secondNumber
  · exact Number.same_mul firstNumber secondNumber
  · exact div_same h zeros c
  · exact Number.same_rem firstNumber secondNumber
  · exact pow_same h zeros c
  · exact same_of_eq (onOrder_eq_of_same _ c h)
  · exact same_of_eq (onOrder_eq_of_same _ c h)
  · exact same_of_eq (onOrder_eq_of_same _ c h)
  · exact same_of_eq (onOrder_eq_of_same _ c h)
  · exact same_of_eq (congrArg (fun r => Value.number (orderingNumber r)) (compareOperands_eq_of_same first second))
  · exact same_of_eq (congrArg Value.bool (Value.same_congr first second))
  · exact same_of_eq (congrArg (Value.bool !·) (Value.same_congr first second))
  · exact same_of_eq (by simpa using congrArg (fun truths => Value.bool (List.all truths id)) truths)
  · exact same_of_eq (by simpa using congrArg (fun truths => Value.bool (List.any truths id)) truths)
  · exact find_same h
  · exact same_of_eq (onTexts_eq_of_same _ c h)
  · exact same_of_eq (onTexts_eq_of_same _ c h)
  · exact same_of_eq (onTexts_eq_of_same _ c h)

end Operator

/-! ## The order of values -/

namespace Number

variable {x y z : Number}

theorem totalCompare_eq_of_beyond
    (h : (x.totalKey < z.totalKey ∧ y.totalKey < z.totalKey) ∨ (z.totalKey < x.totalKey ∧ z.totalKey < y.totalKey)) :
    x.totalCompare z = y.totalCompare z := by
  unfold totalCompare
  rcases h with ⟨hx, hy⟩ | ⟨hx, hy⟩
  · rw [compare_lt_iff_lt.2 hx, compare_lt_iff_lt.2 hy]
  · rw [compare_gt_iff_gt.2 hx, compare_gt_iff_gt.2 hy]

/-- The two zeros are next to each other in the total order. -/
theorem totalCompare_eq_of_isZero (hx : x.isZero = true) (hy : y.isZero = true) (hz : z.isZero = false) :
    x.totalCompare z = y.totalCompare z := by
  simp only [isZero, beq_iff_eq, beq_eq_false_iff_ne] at hx hy hz
  refine totalCompare_eq_of_beyond ?_
  simp only [totalKey, hx, hy]
  split_ifs <;> omega

/-- A NaN is beyond all numbers, on the side of its sign. -/
theorem totalCompare_eq_of_isNaN (hx : x.isNaN = true) (hy : y.isNaN = true) (sign : x.negative = y.negative)
    (hz : z.isNaN = false) : x.totalCompare z = y.totalCompare z := by
  simp only [isNaN, decide_eq_true_eq, decide_eq_false_iff_not] at hx hy hz
  refine totalCompare_eq_of_beyond ?_
  simp only [totalKey, sign]
  split_ifs <;> omega

end Number

namespace Value

variable {a b c : Value}

theorem compare_self (a : Value) : a.compare a = .eq := Std.ReflCmp.compare_self

theorem eq_of_totalCompare {x y : Number} (h : x.totalCompare y = .eq) : x = y := by
  have key : x.totalKey = y.totalKey := compare_eq_iff_eq.1 h
  have signs : x.negative = y.negative ∧ x.magnitude = y.magnitude := by
    unfold Number.totalKey at key
    split_ifs at key <;> simp_all <;> omega
  rw [← Number.ofMagnitude_magnitude x, ← Number.ofMagnitude_magnitude y, signs.1, signs.2]

/-- Values that are the same stand at one place in the order, but for zeros and for NaN. -/
theorem compare_eq_iff_of_same (h : a.same b = true) : a.compare b = .eq ↔ ¬ZerosApart a b ∧ ¬NaNsApart a b := by
  constructor
  · intro he
    have apart : ∀ {x y : Number}, a = number x → b = number y → x ≠ y → False := by
      rintro x y rfl rfl hne
      exact hne (eq_of_totalCompare he)
    exact ⟨fun ⟨_, _, ha, hb, _, _, hne⟩ => apart ha hb hne, fun ⟨_, _, ha, hb, _, _, hne⟩ => apart ha hb hne⟩
  · rintro ⟨zeros, nans⟩
    obtain rfl := (eq_or_apart h).resolve_right (by simp [zeros, nans])
    exact compare_self a

/-- Values that are the same stand at one place among the others, but for NaN of opposite sign among numbers. -/
theorem compare_congr (h : a.same b = true) (sign : NaNsOpposed a b → c.asNumber = none) (hc : a = b ∨ c.same a = false) :
    a.compare c = b.compare c := by
  rcases same_iff.1 h with rfl | ⟨x, y, rfl, rfl, hxy⟩
  · rfl
  rcases hc with he | hc
  · rw [he]
  cases c with
  | number z =>
    change x.totalCompare z = y.totalCompare z
    have hzx : z.same x = false := hc
    rcases Number.same_iff.1 hxy with rfl | ⟨hx, hy⟩ | ⟨hx, hy⟩
    · rfl
    · refine Number.totalCompare_eq_of_isZero hx hy ?_
      rw [← Bool.not_eq_true]
      exact fun hz => by simp [Number.same_of_isZero hz hx] at hzx
    · have hsign : x.negative = y.negative := by
        by_contra hne
        cases sign ⟨x, y, rfl, rfl, hx, hy, hne⟩
      refine Number.totalCompare_eq_of_isNaN hx hy hsign ?_
      rw [← Bool.not_eq_true]
      exact fun hz => by simp [Number.same_iff.2 (.inr (.inr ⟨hz, hx⟩))] at hzx
  | _ => rfl

/-- Two values that are not the same are compared as two others that are the same as they are. -/
theorem compare_congr_both (ha : a.same a' = true) (hb : b.same b' = true) (signA : ¬NaNsOpposed a a') (signB : ¬NaNsOpposed b b')
    (hne : a.same b = false) : a.compare b = a'.compare b' := by
  have hba : b.same a = false := by rwa [same_comm]
  have hab' : a'.same b = false := by rwa [← same_congr ha (same_refl b)]
  rw [compare_congr ha (absurd · signA) (.inr hba), compare_swap a' b, compare_swap a' b',
    compare_congr hb (absurd · signB) (.inr hab')]

end Value

/-! ## Stable orders and extremes -/

/-- Keys are the same one by one, and no NaN has changed its sign. -/
abbrev AlikeKeys (keys keys' : List Value) : Prop := List.Forall₂ (fun a b : Value => a.same b = true ∧ ¬a.NaNsOpposed b) keys keys'

section

variable {keys keys' : List Value} {order order' : List Nat} {i j : Nat} {a b : Value} {greatest : Bool}

/-- In a stable order one element stands somewhere before another if and only if it goes before it. -/
theorem StableOrder.sublist_iff (h : StableOrder keys order) : [i, j].Sublist order ↔ Before keys i j := by
  constructor
  · intro hsub
    have := h.sorted.sublist hsub
    simpa using this
  · intro hbefore
    obtain ⟨a, b, ha, hb, hcompare⟩ := hbefore
    have mem_order : ∀ {n : Nat} {v : Value}, keys[n]? = some v → n ∈ order := fun hn =>
      h.perm.mem_iff.2 (List.mem_range.2 (List.getElem?_eq_some_iff.1 hn).1)
    have hne : j ≠ i := by
      rintro rfl
      exact Before.asymm ⟨a, b, ha, hb, hcompare⟩ ⟨a, b, ha, hb, hcompare⟩
    obtain ⟨before, after, rfl⟩ := List.append_of_mem (mem_order ha)
    rcases List.mem_append.1 (mem_order hb) with hj | hj
    · have hji : Before keys j i := (List.pairwise_append.1 h.sorted).2.2 j hj i List.mem_cons_self
      exact (hji.asymm ⟨a, b, ha, hb, hcompare⟩).elim
    · have hj : j ∈ after := (List.mem_cons.1 hj).resolve_left hne
      exact ((List.singleton_sublist.2 hj).cons_cons i).trans (List.sublist_append_right _ _)

theorem AlikeKeys.getElem? (h : AlikeKeys keys keys') (ha : keys[i]? = some a) :
    ∃ a', keys'[i]? = some a' ∧ a.same a' = true ∧ ¬a.NaNsOpposed a' := by
  induction h generalizing i with
  | nil => simp at ha
  | cons hab _ ih =>
    cases i with
    | zero =>
      cases ha
      exact ⟨_, rfl, hab⟩
    | succ i => exact ih ha

/-- Keys that are the same put elements with different keys in the same order. -/
theorem AlikeKeys.before_iff (h : AlikeKeys keys keys') (ha : keys[i]? = some a) (hb : keys[j]? = some b)
    (hne : a.same b = false) : Before keys i j ↔ Before keys' i j := by
  obtain ⟨a', ha', haa, signA⟩ := h.getElem? ha
  obtain ⟨b', hb', hbb, signB⟩ := h.getElem? hb
  simp [Before, ha, hb, ha', hb', Value.compare_congr_both haa hbb signA signB hne]

/-- The least or greatest of keys that are the same is the same. -/
theorem AlikeKeys.extreme_same (h : AlikeKeys keys keys') (hi : Extreme greatest keys i a) (hj : Extreme greatest keys' j b) :
    a.same b = true := by
  obtain ⟨a', ha', haa, signA⟩ := h.getElem? hi.place
  obtain ⟨b₀, hb₀⟩ : ∃ b₀, keys[j]? = some b₀ := by
    have hlt : j < keys.length := h.length_eq ▸ (List.getElem?_eq_some_iff.1 hj.place).1
    exact ⟨_, List.getElem?_eq_getElem hlt⟩
  obtain ⟨b', hb', hbb, signB⟩ := h.getElem? hb₀
  obtain rfl : b' = b := Option.some.inj (hb'.symm.trans hj.place)
  by_contra hne
  have hne : a.same b₀ = false := by
    rw [← Bool.not_eq_true, Value.same_congr (Value.same_refl a) hbb]
    exact hne
  have hcompare : a.compare b₀ = a'.compare b' := Value.compare_congr_both haa hbb signA signB hne
  have notBelow : ¬b₀.Beyond greatest a := hi.extreme b₀ (List.mem_of_getElem? hb₀)
  have notBelow' : ¬a'.Beyond greatest b' := hj.extreme a' (List.mem_of_getElem? ha')
  -- neither key is beyond the other one, so that the first place decides, in both lists
  rcases Nat.lt_trichotomy i j with hlt | rfl | hlt
  · have hfirst := hj.first i a' ha' hlt
    rw [Value.Beyond, Value.compare_swap, ← hcompare, ← Value.compare_swap] at hfirst
    exact notBelow hfirst
  · rw [Option.some.inj (hi.place.symm.trans hb₀), Value.same_refl] at hne
    cases hne
  · have hfirst := hi.first j b₀ hb₀ hlt
    rw [Value.Beyond, hcompare] at hfirst
    exact notBelow' hfirst

end

/-! ## What an update that is dropped would have changed -/

/-- Dropping updates to values that are the same changes no result of a standard operator, apart from zeros that a quotient or a
power tells apart; it changes no comparison, apart from zeros and from NaN with different bits, and that between values that are the
same; and it changes neither the order of elements with different keys nor the least or greatest key. -/
theorem Value.same_congruent :
    (∀ name op, (name, op) ∈ Operator.standard → ∀ c args args', Operator.SameArgs args args' →
      ((op.apply c args).same (op.apply c args') = true ↔ ¬Operator.TellsZeros name args args')) ∧
    (∀ a b : Value, a.same b = true → (a.compare b = .eq ↔ ¬ZerosApart a b ∧ ¬NaNsApart a b) ∧
      ∀ c : Value, (NaNsOpposed a b → c.asNumber = none) → a = b ∨ c.same a = false → a.compare c = b.compare c) ∧
    (∀ keys keys', AlikeKeys keys keys' →
      (∀ order order', StableOrder keys order → StableOrder keys' order' → ∀ i j a b, keys[i]? = some a → keys[j]? = some b →
        a.same b = false → ([i, j].Sublist order ↔ [i, j].Sublist order')) ∧
      ∀ greatest i j a b, Extreme greatest keys i a → Extreme greatest keys' j b → a.same b = true) := by
  refine ⟨fun name op hop c args args' h => ⟨fun hsame zeros => ?_, fun zeros => Operator.standard_same hop h zeros c⟩,
    fun a b h => ?_, fun keys keys' h => ?_⟩
  · rw [Operator.standard_not_same hop h zeros c] at hsame
    cases hsame
  · exact ⟨compare_eq_iff_of_same h, fun c sign hc => compare_congr h sign hc⟩
  · refine ⟨fun order order' ho ho' i j a b ha hb hne => ?_, fun greatest i j a b hi hj => h.extreme_same hi hj⟩
    rw [ho.sublist_iff, ho'.sublist_iff, h.before_iff ha hb hne]

/-- There are no containers. -/
def Contents.nothing : Contents := ⟨fun _ => [], fun _ => [], 0⟩

/-- A zero turns negative: neither a difference tells, nor a comparison with one, nor what stands first in order or is least. -/
theorem Value.same_congruent_zero :
    ("sub", Operator.onNumbers Number.sub) ∈ Operator.standard ∧
      Operator.SameArgs [number .zero, number .one] [number .negZero, number .one] ∧
      ((Operator.onNumbers Number.sub).apply .nothing [number .zero, number .one]).same
        ((Operator.onNumbers Number.sub).apply .nothing [number .negZero, number .one]) = true ∧
      (number .zero).compare (number .one) = (number .negZero).compare (number .one) ∧
      AlikeKeys [number .one, number .zero] [number .one, number .negZero] ∧
      StableOrder [number .one, number .zero] [1, 0] ∧ StableOrder [number .one, number .negZero] [1, 0] ∧
      ([1, 0].Sublist [1, 0] ↔ [1, 0].Sublist [1, 0]) ∧
      Extreme false [number .one, number .zero] 1 (number .zero) ∧
      Extreme false [number .one, number .negZero] 1 (number .negZero) ∧ (number .zero).same (number .negZero) = true := by
  have hop : ("sub", Operator.onNumbers Number.sub) ∈ Operator.standard := by simp [Operator.standard]
  have hargs : Operator.SameArgs [number .zero, number .one] [number .negZero, number .one] := .cons rfl (.cons rfl .nil)
  have blind : ¬Operator.TellsZeros "sub" [number .zero, number .one] [number .negZero, number .one] := by simp [Operator.TellsZeros]
  have unsigned : ∀ {v w : Value}, v.asNumber.any Number.isNaN = false → ¬v.NaNsOpposed w := by
    rintro _ _ h ⟨x, y, rfl, rfl, hx, -⟩
    simp [asNumber, hx] at h
  have hkeys : AlikeKeys [number .one, number .zero] [number .one, number .negZero] :=
    .cons ⟨rfl, unsigned rfl⟩ (.cons ⟨rfl, unsigned rfl⟩ .nil)
  have order : StableOrder [number .one, number .zero] [1, 0] := by decide
  have order' : StableOrder [number .one, number .negZero] [1, 0] := by decide
  have least {k : Value} (hk : k.Beyond false (number .one)) : Extreme false [number .one, k] 1 k := by
    have first : Extreme false [number .one] 0 (number .one) := .singleton _
    simpa [hk] using first.concat k
  have least₀ : Extreme false [number .one, number .zero] 1 (number .zero) := least (by decide)
  have least₁ : Extreme false [number .one, number .negZero] 1 (number .negZero) := least (by decide)
  obtain ⟨operators, comparisons, keys⟩ := same_congruent
  exact ⟨hop, hargs, (operators _ _ hop .nothing _ _ hargs).2 blind,
    (comparisons (number .zero) (number .negZero) rfl).2 (number .one) (absurd · (unsigned rfl)) (.inr rfl), hkeys, order, order',
    (keys _ _ hkeys).1 _ _ order order' 1 0 (number .zero) (number .one) rfl rfl rfl, least₀, least₁,
    (keys _ _ hkeys).2 _ _ _ _ _ least₀ least₁⟩

/-- One divided by the one zero and by the other gives two results, and the order of values puts one zero before the other. -/
theorem Value.same_not_congruent :
    ("div", Operator.onNumbers Number.div) ∈ Operator.standard ∧
      Operator.SameArgs [number .one, number .zero] [number .one, number .negZero] ∧
      ((Operator.onNumbers Number.div).apply .nothing [number .one, number .zero]).same
        ((Operator.onNumbers Number.div).apply .nothing [number .one, number .negZero]) = false ∧
      (number .zero).same (number .negZero) = true ∧ (number .zero).compare (number .negZero) ≠ .eq :=
  ⟨by simp [Operator.standard], .cons rfl (.cons rfl .nil), by decide, rfl, by decide⟩

end LiveBindings
