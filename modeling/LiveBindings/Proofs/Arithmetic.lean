import LiveBindings.Proofs.Same
import Mathlib.Algebra.Group.Nat.Defs
import Mathlib.Data.List.Forall2

/-!
# Arithmetic on what cannot be told apart

Two numbers are the same when they are equal, both zeros or both NaN. A sum, a difference, a product and a remainder are the same
for operands that are the same: the sign of a zero only ever becomes the sign of a zero. Two operations let it out: a quotient by
zero (`same_div`) and a power of zero (`same_pow`) are infinite with a sign that depends on it.
-/

namespace LiveBindings

namespace Number

/-! ## Signs and magnitudes -/

theorem toNat_ofMagnitude {negative : Bool} {m : Nat} (h : m < 2 ^ 63) :
    (ofMagnitude negative m).bits.toNat = if negative then 2 ^ 63 + m else m := by
  cases negative <;> simp [ofMagnitude] <;> omega

theorem magnitude_ofMagnitude {negative : Bool} {m : Nat} (h : m < 2 ^ 63) : (ofMagnitude negative m).magnitude = m := by
  rw [magnitude, toNat_ofMagnitude h]
  cases negative <;> simp <;> omega

theorem magnitude_lt (x : Number) : x.magnitude < 2 ^ 63 := Nat.mod_lt _ (by decide)

@[simp] theorem magnitude_neg (x : Number) : x.neg.magnitude = x.magnitude := magnitude_ofMagnitude x.magnitude_lt

@[simp] theorem negative_neg (x : Number) : x.neg.negative = !x.negative := by
  have h := x.magnitude_lt
  rw [neg, negative, toNat_ofMagnitude h]
  cases x.negative
  · simp
  · simp
    omega

theorem ofMagnitude_magnitude (x : Number) : ofMagnitude x.negative x.magnitude = x := by
  have h : x.bits.toNat < 2 ^ 64 := x.bits.toNat_lt
  have hbits : (ofMagnitude x.negative x.magnitude).bits.toNat = x.bits.toNat := by
    rw [toNat_ofMagnitude x.magnitude_lt]
    simp only [negative, magnitude, decide_eq_true_eq, Nat.pow_eq]
    split <;> omega
  exact congrArg mk (UInt64.toNat_inj.1 hbits)

@[simp] theorem neg_neg (x : Number) : x.neg.neg = x := by
  rw [neg, negative_neg, magnitude_neg, Bool.not_not, ofMagnitude_magnitude]

theorem neg_same {x y : Number} (h : x.same y = true) : x.neg.same y.neg = true := by
  rw [same_iff] at h ⊢
  simpa only [isZero, isNaN, magnitude_neg] using h.imp_left (congrArg neg)

/-! ## Zeros -/

variable {x x' y y' r r' : Number}

theorem isInfinite_of_isZero (h : x.isZero = true) : x.isInfinite = false := by
  simp only [isZero, beq_iff_eq] at h
  simp [isInfinite, h, infiniteMagnitude]

theorem units_of_isZero (h : x.isZero = true) : x.units = 0 := by
  simp [units, absUnits_of_isZero h]

theorem isZero_ofMagnitude_zero (negative : Bool) : (ofMagnitude negative 0).isZero = true := by
  simp [isZero, magnitude_ofMagnitude]

theorem same_of_isZero (h : x.isZero = true) (h' : y.isZero = true) : x.same y = true := same_iff.2 (.inr (.inl ⟨h, h'⟩))

theorem isZero_ofRatio_zero (negative : Bool) (den : Nat) : (ofRatio negative 0 den).isZero = true := by
  simp [ofRatio, nearestMagnitude, isZero_ofMagnitude_zero]

/-- Rounding tells the sign of a zero from nothing but the zeros. -/
theorem same_ofUnits (sign sign' : Bool) (u : Int) : (ofUnits sign u).same (ofUnits sign' u) = true := by
  unfold ofUnits
  split
  · exact same_of_isZero (isZero_ofMagnitude_zero _) (isZero_ofMagnitude_zero _)
  · exact same_refl _

/-- Numbers that are the same and not NaN are equal, or both zeros. -/
theorem eq_or_zeros (h : x.same y = true) (hx : x.isNaN = false) : x = y ∨ (x.isZero = true ∧ y.isZero = true) := by
  rcases same_iff.1 h with h | h | ⟨h, -⟩
  · exact .inl h
  · exact .inr h
  · rw [hx] at h
    cases h

theorem isNaN_eq_of_same (h : x.same y = true) : x.isNaN = y.isNaN :=
  eq_of_same (fun _ _ hx hy => by rw [isNaN_eq_false_of_isZero hx, isNaN_eq_false_of_isZero hy]) (fun _ _ hx hy => by rw [hx, hy]) h

theorem isZero_eq_of_same (h : x.same y = true) : x.isZero = y.isZero :=
  eq_of_same (fun _ _ hx hy => by rw [hx, hy]) (fun _ _ hx hy => by rw [isZero_eq_false_of_isNaN hx, isZero_eq_false_of_isNaN hy]) h

/-! ## NaN -/

theorem isNaN_quiet (h : x.isNaN = true) : x.quiet.isNaN = true := by
  simp only [isNaN, decide_eq_true_eq] at h ⊢
  refine Nat.lt_of_lt_of_le h ?_
  simp only [magnitude, quiet, UInt64.toNat_or, Nat.pow_eq, Nat.or_mod_two_pow]
  exact Nat.left_le_or

theorem isNaN_withNaN (h : x.isNaN = true ∨ y.isNaN = true) : (withNaN x y r).isNaN = true := by
  unfold withNaN
  split
  · exact isNaN_quiet ‹_›
  · rw [if_pos (h.resolve_left ‹_›)]
    exact isNaN_quiet (h.resolve_left ‹_›)

theorem withNaN_eq (hx : x.isNaN = false) (hy : y.isNaN = false) : withNaN x y r = r := by
  simp [withNaN, hx, hy]

/-- An operation that passes NaN on need only be looked at for numbers that are not NaN. -/
theorem same_withNaN (hx : x.same x' = true) (hy : y.same y' = true)
    (h : x.isNaN = false → y.isNaN = false → r.same r' = true) : (withNaN x y r).same (withNaN x' y' r') = true := by
  by_cases hnan : x.isNaN = true ∨ y.isNaN = true
  · refine same_iff.2 (.inr (.inr ⟨isNaN_withNaN hnan, isNaN_withNaN ?_⟩))
    rwa [← isNaN_eq_of_same hx, ← isNaN_eq_of_same hy]
  · obtain ⟨nx, ny⟩ : x.isNaN = false ∧ y.isNaN = false := by simpa using hnan
    rw [withNaN_eq nx ny, withNaN_eq (isNaN_eq_of_same hx ▸ nx) (isNaN_eq_of_same hy ▸ ny)]
    exact h nx ny

/-! ## Operations -/

theorem same_add (hx : x.same x' = true) (hy : y.same y' = true) : (add x y).same (add x' y') = true := by
  refine same_withNaN hx hy fun nx ny => ?_
  rcases eq_or_zeros hx nx with rfl | ⟨zx, zx'⟩ <;> rcases eq_or_zeros hy ny with rfl | ⟨zy, zy'⟩
  · exact same_refl _
  · simp only [isInfinite_of_isZero zy, isInfinite_of_isZero zy', units_of_isZero zy, units_of_isZero zy']
    split
    · exact same_refl _
    · exact same_ofUnits _ _ _
  · simp only [isInfinite_of_isZero zx, isInfinite_of_isZero zx', units_of_isZero zx, units_of_isZero zx']
    split
    · contradiction
    · split
      · exact same_refl _
      · exact same_ofUnits _ _ _
  · simp [isInfinite_of_isZero, units_of_isZero, zx, zx', zy, zy', same_ofUnits]

theorem same_sub (hx : x.same x' = true) (hy : y.same y' = true) : (sub x y).same (sub x' y') = true :=
  same_withNaN hx hy fun _ _ => same_add hx (neg_same hy)

/-- Nothing is left of a product when one operand is a zero, and what its sign is does not matter. -/
theorem same_mul_of_isZero {negative negative' : Bool} (zx : x.isZero = true) (zx' : x'.isZero = true) (hy : y.same y' = true)
    (ny : y.isNaN = false) :
    (if x.isInfinite || y.isInfinite then if x.isZero || y.isZero then invalid else infinity negative
      else ofRatio negative (x.absUnits * y.absUnits) (unitsPerOne * unitsPerOne)).same
    (if x'.isInfinite || y'.isInfinite then if x'.isZero || y'.isZero then invalid else infinity negative'
      else ofRatio negative' (x'.absUnits * y'.absUnits) (unitsPerOne * unitsPerOne)) = true := by
  have hinf : y.isInfinite = y'.isInfinite := by
    rcases eq_or_zeros hy ny with rfl | ⟨zy, zy'⟩
    · rfl
    · rw [isInfinite_of_isZero zy, isInfinite_of_isZero zy']
  simp only [isInfinite_of_isZero zx, isInfinite_of_isZero zx', absUnits_of_isZero zx, absUnits_of_isZero zx', zx, zx', hinf,
    Bool.false_or, Bool.true_or, if_true, Nat.zero_mul]
  split
  · exact same_refl _
  · exact same_of_isZero (isZero_ofRatio_zero _ _) (isZero_ofRatio_zero _ _)

theorem same_mul (hx : x.same x' = true) (hy : y.same y' = true) : (mul x y).same (mul x' y') = true := by
  refine same_withNaN hx hy fun nx ny => ?_
  rcases eq_or_zeros hx nx with rfl | ⟨zx, zx'⟩
  · rcases eq_or_zeros hy ny with rfl | ⟨zy, zy'⟩
    · exact same_refl _
    · simpa only [Bool.or_comm, Nat.mul_comm] using same_mul_of_isZero zy zy' (same_refl x) nx
  · exact same_mul_of_isZero zx zx' hy ny

theorem same_rem (hx : x.same x' = true) (hy : y.same y' = true) : (rem x y).same (rem x' y') = true := by
  refine same_withNaN hx hy fun nx ny => ?_
  rcases eq_or_zeros hy ny with rfl | ⟨zy, zy'⟩
  · rcases eq_or_zeros hx nx with rfl | ⟨zx, zx'⟩
    · exact same_refl _
    · simp only [isInfinite_of_isZero zx, isInfinite_of_isZero zx', absUnits_of_isZero zx, absUnits_of_isZero zx', Nat.zero_mod]
      split
      · exact same_refl _
      · split
        · exact hx
        · exact same_of_isZero (isZero_ofRatio_zero _ _) (isZero_ofRatio_zero _ _)
  · simp [zy, zy', same_refl]

/-- A quotient is the same unless something that is not a zero is divided by one zero and by the other. -/
theorem same_div (hx : x.same x' = true) (hy : y.same y' = true)
    (apart : y.isZero = true → y ≠ y' → x.isZero = true ∨ x.isNaN = true) : (div x y).same (div x' y') = true := by
  refine same_withNaN hx hy fun nx ny => ?_
  by_cases he : y = y'
  · subst he
    rcases eq_or_zeros hx nx with rfl | ⟨zx, zx'⟩
    · exact same_refl _
    · simp only [isInfinite_of_isZero zx, isInfinite_of_isZero zx', absUnits_of_isZero zx, absUnits_of_isZero zx', zx, zx']
      split
      · contradiction
      · split
        · exact same_of_isZero (isZero_ofMagnitude_zero _) (isZero_ofMagnitude_zero _)
        · split
          · exact same_refl _
          · exact same_of_isZero (isZero_ofRatio_zero _ _) (isZero_ofRatio_zero _ _)
  · obtain ⟨zy, zy'⟩ := (eq_or_zeros hy ny).resolve_left he
    have zx : x.isZero = true := (apart zy he).resolve_right (by simp [nx])
    have zx' : x'.isZero = true := isZero_eq_of_same hx ▸ zx
    simp [isInfinite_of_isZero, zx, zx', zy, zy', same_refl]

/-- The opposite infinities are not the same. -/
theorem infinity_not_same {negative negative' : Bool} (h : negative ≠ negative') :
    (infinity negative).same (infinity negative') = false := by
  cases negative <;> cases negative' <;> first | exact absurd rfl h | decide

/-- Zeros that are not equal differ in their sign. -/
theorem negative_ne_of_isZero (hx : x.isZero = true) (hy : y.isZero = true) (h : x ≠ y) : x.negative ≠ y.negative := by
  intro hs
  simp only [isZero, beq_iff_eq] at hx hy
  exact h (by rw [← ofMagnitude_magnitude x, ← ofMagnitude_magnitude y, hs, hx, hy])

/-- Dividing by one zero and by the other tells them apart, unless a zero or NaN is divided. -/
theorem div_not_same (hx : x.same x' = true) (zx : x.isZero = false) (nx : x.isNaN = false) (zy : y.isZero = true)
    (zy' : y'.isZero = true) (h : y ≠ y') : (div x y).same (div x' y') = false := by
  obtain rfl := (eq_or_zeros hx nx).resolve_right (by simp [zx])
  have quotient : ∀ {y : Number}, y.isZero = true → div x y = infinity (x.negative != y.negative) := by
    intro y zy
    have iy := isInfinite_of_isZero zy
    unfold div
    rw [withNaN_eq nx (isNaN_eq_false_of_isZero zy)]
    simp [iy, zy, zx]
  rw [quotient zy, quotient zy']
  refine infinity_not_same fun hs => negative_ne_of_isZero zy zy' h ?_
  revert hs
  cases x.negative <;> cases y.negative <;> cases y'.negative <;> decide

theorem beq_one_of_isZero (h : x.isZero = true) : (x == one) = false := by
  have one_not : one.isZero = false := by decide
  exact beq_eq_false_iff_ne.2 (by rintro rfl; simp [h] at one_not)

theorem beq_one_of_isNaN (h : x.isNaN = true) : (x == one) = false := by
  have one_not : one.isNaN = false := by decide
  exact beq_eq_false_iff_ne.2 (by rintro rfl; simp [h] at one_not)

theorem beq_one_eq_of_same (h : x.same y = true) : (x == one) = (y == one) :=
  eq_of_same (f := (· == one)) (fun _ _ hx hy => by rw [beq_one_of_isZero hx, beq_one_of_isZero hy])
    (fun _ _ hx hy => by rw [beq_one_of_isNaN hx, beq_one_of_isNaN hy]) h

theorem isZero_eq_false_of_isOdd (h : x.isOdd = true) : x.isZero = false := by
  rw [← Bool.not_eq_true]
  exact fun hz => by simp [isOdd, wholePart_of_isZero hz] at h

theorem isNaN_eq_false_of_isOdd (h : x.isOdd = true) : x.isNaN = false := by
  rw [← Bool.not_eq_true]
  exact fun hn => by simp [isOdd, isWhole_of_isNaN hn] at h

theorem pow_of_isZero (zx : x.isZero = true) (zy : y.isZero = false) (ny : y.isNaN = false) : pow x y = zeroPow x y := by
  simp [pow, zy, beq_one_of_isZero zx, withNaN_eq (isNaN_eq_false_of_isZero zx) ny, zx]

/-- A power is the same unless one zero and the other are raised to a negative odd number. -/
theorem same_pow (hx : x.same x' = true) (hy : y.same y' = true)
    (apart : x.isZero = true → x ≠ x' → (y.negative && y.isOdd) = false) : (pow x y).same (pow x' y') = true := by
  unfold pow
  rw [beq_one_eq_of_same hx, isZero_eq_of_same hy]
  split
  · exact same_refl _
  · rename_i h
    obtain ⟨zy, -⟩ : y'.isZero = false ∧ (x' == one) = false := by simpa using h
    rw [← isZero_eq_of_same hy] at zy
    refine same_withNaN hx hy fun nx ny => ?_
    obtain rfl : y = y' := (eq_or_zeros hy ny).resolve_right (by simp [zy])
    by_cases he : x = x'
    · rw [he]
      exact same_refl _
    · obtain ⟨zx, zx'⟩ := (eq_or_zeros hx nx).resolve_left he
      have even := apart zx he
      rw [if_pos zx, if_pos zx', zeroPow, zeroPow]
      cases hs : y.negative with
      | true =>
        have notOdd : y.isOdd = false := by simpa [hs] using even
        simp only [notOdd, Bool.and_false]
        exact same_refl _
      | false => exact same_of_isZero (isZero_ofMagnitude_zero _) (isZero_ofMagnitude_zero _)

/-- Raising one zero and the other to a negative odd number tells them apart. -/
theorem pow_not_same (hy : y.same y' = true) (negative : y.negative = true) (odd : y.isOdd = true)
    (zx : x.isZero = true) (zx' : x'.isZero = true) (h : x ≠ x') : (pow x y).same (pow x' y') = false := by
  have zy := isZero_eq_false_of_isOdd odd
  have ny := isNaN_eq_false_of_isOdd odd
  obtain rfl := (eq_or_zeros hy ny).resolve_right (by simp [zy])
  rw [pow_of_isZero zx zy ny, pow_of_isZero zx' zy ny]
  simp only [zeroPow, negative, odd, Bool.and_true, if_true]
  exact infinity_not_same (negative_ne_of_isZero zx zx' h)

/-- A sum is taken from the left; what comes in at each step is the same. -/
theorem same_sum {xs ys : List Number} (h : List.Forall₂ (fun x y : Number => x.same y = true) xs ys) :
    (sum xs).same (sum ys) = true := by
  have from_same : ∀ {a b : Number}, a.same b = true → (xs.foldl add a).same (ys.foldl add b) = true := by
    induction h with
    | nil => exact id
    | cons hxy _ ih => exact fun hab => ih (same_add hab hxy)
  exact from_same (same_refl _)

end Number

end LiveBindings
