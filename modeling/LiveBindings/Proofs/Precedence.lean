import LiveBindings.Proofs.Congruence
import LiveBindings.Proofs.Nearest

/-!
# What the relations between values say

When two values are taken for the same (`Value.Alike`), when one comes before another (`Value.Below`) and when neither comes before
the other (`Value.Level`), said without the comparisons that decide it (`Value.same_iff_alike`, `Value.compare_eq_lt_iff`,
`Value.compare_eq_eq_iff`).

Values of different kinds are ordered by their kinds. Numbers are ordered in five bands (`Number.band`): NaN with the sign bit, `-∞`,
the finite numbers, `∞`, NaN. Finite numbers are ordered by what they are exactly, and of the zeros the negative one is below the
other; of two NaNs of one sign the bits decide that are left.
-/

namespace LiveBindings

namespace Number

variable {x y : Number}

/-! ## The total order of numbers -/

/-- The bands of the total order: NaN with the sign bit, `-∞`, the finite numbers, `∞`, NaN. -/
def band (x : Number) : Nat :=
  if x.isNaN then (if x.negative then 0 else 4)
  else if x.isInfinite then (if x.negative then 1 else 3)
  else 2

/-- One number is below another one in the total order. -/
inductive Below (x y : Number) : Prop
  | bands (h : x.band < y.band)
  | values (hx : x.isFinite = true) (hy : y.isFinite = true) (h : x.units < y.units)
  | zeros (hx : x = negZero) (hy : y = zero)
  | payloads (hx : x.isNaN = true) (hy : y.isNaN = true) (sign : x.negative = y.negative)
    (h : if x.negative then y.magnitude < x.magnitude else x.magnitude < y.magnitude)

/-- Each band has its stretch of the total order. -/
theorem band_totalKey (x : Number) :
    (x.band = 0 ∧ x.totalKey < -infiniteMagnitude - 1) ∨ (x.band = 1 ∧ x.totalKey = -infiniteMagnitude - 1) ∨
      (x.band = 2 ∧ -infiniteMagnitude - 1 < x.totalKey ∧ x.totalKey < infiniteMagnitude) ∨
        (x.band = 3 ∧ x.totalKey = infiniteMagnitude) ∨ (x.band = 4 ∧ infiniteMagnitude < x.totalKey) := by
  simp only [band, isNaN, isInfinite, totalKey, decide_eq_true_eq, beq_iff_eq]
  split_ifs <;> omega

theorem band_eq_two_iff : x.band = 2 ↔ x.isFinite = true := by
  simp only [band, isNaN, isInfinite, isFinite, decide_eq_true_eq, beq_iff_eq]
  constructor
  · intro h
    split_ifs at h <;> omega
  · intro h
    rw [if_neg (by omega), if_neg (by omega)]

/-- Numbers in one band that are not finite are both infinite, and then they stand at one place, or both NaN of one sign. -/
theorem isNaN_of_band_eq (hband : x.band = y.band) (hx : x.isFinite = false) (hne : x.totalKey ≠ y.totalKey) :
    x.isNaN = true ∧ y.isNaN = true ∧ x.negative = y.negative := by
  simp only [isFinite, decide_eq_false_iff_not] at hx
  simp only [band, isNaN, isInfinite, totalKey, decide_eq_true_eq, beq_iff_eq] at *
  split_ifs at * <;> simp_all <;> omega

theorem eq_of_sign_of_magnitude (sign : x.negative = y.negative) (h : x.magnitude = y.magnitude) : x = y := by
  rw [← ofMagnitude_magnitude x, ← ofMagnitude_magnitude y, sign, h]

theorem eq_negZero_iff : x = negZero ↔ x.negative = true ∧ x.magnitude = 0 :=
  ⟨fun h => h ▸ ⟨by decide, by decide⟩, fun h => eq_of_sign_of_magnitude (h.1.trans (by decide)) (h.2.trans (by decide))⟩

theorem eq_zero_iff : x = zero ↔ x.negative = false ∧ x.magnitude = 0 :=
  ⟨fun h => h ▸ ⟨by decide, by decide⟩, fun h => eq_of_sign_of_magnitude (h.1.trans (by decide)) (h.2.trans (by decide))⟩

theorem unitsAt_zero : unitsAt 0 = 0 := rfl

/-- Bit patterns are in the total order as the exact values are, but for the two zeros. -/
theorem totalKey_lt_iff_units : x.totalKey < y.totalKey ↔ x.units < y.units ∨ (x = negZero ∧ y = zero) := by
  have grows : ∀ {m n : Nat}, unitsAt m < unitsAt n ↔ m < n := unitsAt_strictMono.lt_iff_lt
  have hx := (grows (m := 0) (n := x.magnitude))
  have hy := (grows (m := 0) (n := y.magnitude))
  have hxy := (grows (m := x.magnitude) (n := y.magnitude))
  have hyx := (grows (m := y.magnitude) (n := x.magnitude))
  rw [unitsAt_zero] at hx hy
  rw [eq_negZero_iff, eq_zero_iff, totalKey, totalKey, units, units, absUnits_eq, absUnits_eq]
  cases x.negative <;> cases y.negative <;> simp <;> omega

/-- What the places in the total order say. -/
theorem totalKey_lt_iff : x.totalKey < y.totalKey ↔ x.Below y := by
  have hx := x.band_totalKey
  have hy := y.band_totalKey
  constructor
  · intro h
    by_cases hband : x.band < y.band
    · exact .bands hband
    have hsame : x.band = y.band := by omega
    cases hfinite : x.isFinite with
    | true =>
      have hfinite' : y.isFinite = true := band_eq_two_iff.1 (hsame ▸ band_eq_two_iff.2 hfinite)
      rcases totalKey_lt_iff_units.1 h with h | ⟨hx, hy⟩
      · exact .values hfinite hfinite' h
      · exact .zeros hx hy
    | false =>
      obtain ⟨hx, hy, sign⟩ := isNaN_of_band_eq hsame hfinite h.ne
      refine .payloads hx hy sign ?_
      unfold totalKey at h
      rw [← sign] at h
      split_ifs at h ⊢ <;> omega
  · intro h
    cases h with
    | bands h => omega
    | values _ _ h => exact totalKey_lt_iff_units.2 (.inl h)
    | zeros hx hy => exact totalKey_lt_iff_units.2 (.inr ⟨hx, hy⟩)
    | payloads _ _ sign h =>
      unfold totalKey
      rw [← sign]
      split_ifs at h ⊢ <;> omega

theorem totalCompare_eq_lt_iff : x.totalCompare y = .lt ↔ x.Below y := compare_lt_iff_lt.trans totalKey_lt_iff

theorem totalCompare_eq_eq_iff : x.totalCompare y = .eq ↔ x = y :=
  ⟨Value.eq_of_totalCompare, fun h => h ▸ compare_eq_iff_eq.2 rfl⟩

end Number

/-- No two kinds stand at one place. -/
theorem Kind.eq_of_rank_eq {k k' : Kind} (h : k.rank = k'.rank) : k = k' := by
  cases k <;> cases k' <;> first
    | rfl
    | cases h

namespace Value

variable {a b : Value}

/-! ## Sameness -/

/-- Two values are taken for the same: they are equal, and containers only if they are one container, or both are zero, or both
are NaN. -/
inductive Alike : Value → Value → Prop
  | equal (a : Value) : Alike a a
  | zeros {x y : Number} (hx : x.isZero = true) (hy : y.isZero = true) : Alike (number x) (number y)
  | nans {x y : Number} (hx : x.isNaN = true) (hy : y.isNaN = true) : Alike (number x) (number y)

theorem same_iff_alike : a.same b = true ↔ a.Alike b := by
  constructor
  · intro h
    obtain rfl | ⟨x, y, rfl, rfl, h⟩ := same_iff.1 h
    · exact .equal a
    rcases Number.same_iff.1 h with rfl | ⟨hx, hy⟩ | ⟨hx, hy⟩
    · exact .equal _
    · exact .zeros hx hy
    · exact .nans hx hy
  · intro h
    cases h with
    | equal => exact same_refl a
    | zeros hx hy => exact Number.same_iff.2 (.inr (.inl ⟨hx, hy⟩))
    | nans hx hy => exact Number.same_iff.2 (.inr (.inr ⟨hx, hy⟩))

/-! ## The order -/

/-- One value comes before another one. -/
inductive Below : Value → Value → Prop
  | kinds {a b : Value} (h : a.kind.rank < b.kind.rank) : Below a b
  | flags : Below (bool false) (bool true)
  | numbers {x y : Number} (h : x.Below y) : Below (number x) (number y)
  | texts {s t : String} (h : s < t) : Below (text s) (text t)

/-- Neither of two values comes before the other: they are equal, or containers of one kind. -/
def Level (a b : Value) : Prop := a = b ∨ a.isScalar = false ∧ a.kind = b.kind

/-- Values of different kinds are compared by their kinds. -/
theorem compare_of_kind_ne (h : a.kind ≠ b.kind) : a.compare b = Ord.compare a.kind.rank b.kind.rank := by
  cases a <;> cases b <;> first
    | rfl
    | exact absurd rfl h

theorem compare_eq_lt_iff : a.compare b = .lt ↔ a.Below b := by
  constructor
  · intro h
    by_cases hkind : a.kind = b.kind
    · cases a <;> cases b <;> cases hkind
      case bool.bool.refl x y =>
        cases x <;> cases y <;> first
          | exact .flags
          | cases h
      case number.number.refl => exact .numbers (Number.totalCompare_eq_lt_iff.1 h)
      case text.text.refl => exact .texts (compareOfLessAndEq_eq_lt.1 h)
      all_goals cases h
    · rw [compare_of_kind_ne hkind] at h
      exact .kinds (compare_lt_iff_lt.1 h)
  · intro h
    cases h with
    | kinds h => exact (compare_of_kind_ne fun he => (he ▸ h).false).trans (compare_lt_iff_lt.2 h)
    | flags => rfl
    | numbers h => exact Number.totalCompare_eq_lt_iff.2 h
    | texts h => exact compareOfLessAndEq_eq_lt.2 h

theorem compare_eq_eq_iff : a.compare b = .eq ↔ a.Level b := by
  constructor
  · intro h
    by_cases hkind : a.kind = b.kind
    · cases a <;> cases b <;> cases hkind
      case bool.bool.refl x y =>
        cases x <;> cases y <;> first
          | exact .inl rfl
          | cases h
      case number.number.refl => exact .inl (congrArg number (Number.totalCompare_eq_eq_iff.1 h))
      case text.text.refl s t =>
        have h : Ord.compare s t = .eq := h
        exact .inl (congrArg text (Std.LawfulEqCmp.eq_of_compare h))
      case list.list.refl => exact .inr ⟨rfl, rfl⟩
      case object.object.refl => exact .inr ⟨rfl, rfl⟩
      all_goals exact .inl rfl
    · rw [compare_of_kind_ne hkind] at h
      exact absurd (Kind.eq_of_rank_eq (compare_eq_iff_eq.1 h)) hkind
  · intro h
    rcases h with rfl | ⟨hscalar, hkind⟩
    · exact compare_self a
    · cases a <;> cases hscalar <;> cases b <;> cases hkind <;> rfl

end Value

end LiveBindings
