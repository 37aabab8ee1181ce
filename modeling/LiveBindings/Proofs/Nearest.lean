import LiveBindings.Json
import LiveBindings.Proofs.Arithmetic
import LiveBindings.Proofs.Replica

/-!
# The double nearest to a JSON number

A finite number of magnitude `m` is `unitsAt m` units from zero, which grows with `m`. So between the magnitudes `m` and `m + 1` there
is no number, and of what lies between them one of the two is the nearest (`Number.IsNearest.of_between`). A natural number with more
than fifty-three places lies between two such magnitudes that share its leading places, and the rest decides
(`Number.ofNat_nearest`). `JsonNumber.toNumber_nearest` says it of every number that JSON has.
-/

namespace LiveBindings

namespace Number

/-! ## Magnitudes and units -/

/-- The units of a magnitude. -/
def unitsAt (m : Nat) : Nat := if m / 2 ^ 52 = 0 then m % 2 ^ 52 else (2 ^ 52 + m % 2 ^ 52) * 2 ^ (m / 2 ^ 52 - 1)

theorem absUnits_eq (x : Number) : x.absUnits = unitsAt x.magnitude := by
  simp only [absUnits, unitsAt, Nat.pow_eq]

/-- A count of last places, up to the one that carries into the exponent. -/
theorem unitsAt_places {e q : Nat} (hlow : 2 ^ 52 ≤ q ∨ e = 0) (hhigh : q ≤ 2 ^ 53) : unitsAt (e * 2 ^ 52 + q) = q * 2 ^ e := by
  unfold unitsAt
  rcases Nat.lt_or_ge q (2 ^ 52) with hlt | hge
  · have he : e = 0 := by omega
    subst he
    rw [if_pos (by omega), Nat.pow_zero, Nat.mul_one]
    omega
  · rcases Nat.lt_or_ge q (2 ^ 53) with hlt | hcarry
    · have hexponent : (e * 2 ^ 52 + q) / 2 ^ 52 = e + 1 := by omega
      have hfraction : 2 ^ 52 + (e * 2 ^ 52 + q) % 2 ^ 52 = q := by omega
      rw [hexponent, hfraction, if_neg (Nat.succ_ne_zero e), Nat.add_sub_cancel]
    · have hq : q = 2 * 2 ^ 52 := by omega
      have hexponent : (e * 2 ^ 52 + q) / 2 ^ 52 = e + 2 := by omega
      have hfraction : (e * 2 ^ 52 + q) % 2 ^ 52 = 0 := by omega
      have hpred : e + 2 - 1 = e + 1 := by omega
      rw [hexponent, hfraction, if_neg (Nat.succ_ne_zero _), hpred, Nat.add_zero, Nat.pow_succ 2 e, hq, Nat.mul_comm (2 ^ e) 2,
        ← Nat.mul_assoc, Nat.mul_comm (2 ^ 52) 2]

theorem exists_places (m : Nat) : ∃ e q, m = e * 2 ^ 52 + q ∧ (2 ^ 52 ≤ q ∨ e = 0) ∧ q < 2 ^ 53 := by
  rcases Nat.eq_zero_or_pos (m / 2 ^ 52) with h | h
  · exact ⟨0, m, by omega, .inr rfl, by omega⟩
  · exact ⟨m / 2 ^ 52 - 1, 2 ^ 52 + m % 2 ^ 52, by omega, .inl (by omega), by omega⟩

/-- The units grow with the magnitude. -/
theorem unitsAt_strictMono : StrictMono unitsAt := by
  refine strictMono_nat_of_lt_succ fun m => ?_
  obtain ⟨e, q, rfl, hlow, hhigh⟩ := exists_places m
  have hnext : 2 ^ 52 ≤ q + 1 ∨ e = 0 := hlow.imp_left Nat.le_succ_of_le
  rw [unitsAt_places hlow hhigh.le, Nat.add_assoc, unitsAt_places hnext hhigh]
  exact Nat.mul_lt_mul_of_pos_right (Nat.lt_succ_self q) (Nat.two_pow_pos e)

theorem unitsAt_mono : Monotone unitsAt := unitsAt_strictMono.monotone

/-! ## Nearest numbers -/

/-- No finite number is nearer to a count of units; if another one is as near, the fraction is even. -/
structure IsNearest (x : Number) (u : Int) : Prop where
  finite : x.isFinite = true
  least : ∀ y : Number, y.isFinite = true → (u - x.units).natAbs ≤ (u - y.units).natAbs
  even : ∀ y : Number, y.isFinite = true → (u - x.units).natAbs = (u - y.units).natAbs → x.units = y.units ∨ x.magnitude % 2 = 0

/-- A finite number is the nearest to itself. -/
theorem isNearest_self {x : Number} (h : x.isFinite = true) : x.IsNearest x.units where
  finite := h
  least y _ := by
    rw [Int.sub_self]
    exact Nat.zero_le _
  even y _ he := by
    rw [Int.sub_self] at he
    left
    omega

theorem units_neg (x : Number) : x.neg.units = -x.units := by
  unfold units
  rw [negative_neg, absUnits_eq, magnitude_neg, ← absUnits_eq]
  cases x.negative <;> simp

theorem isFinite_neg (x : Number) : x.neg.isFinite = x.isFinite := by
  rw [isFinite, isFinite, magnitude_neg]

/-- What is nearest on one side of zero is nearest on the other. -/
theorem IsNearest.neg {u : Int} {x : Number} (h : x.IsNearest u) : x.neg.IsNearest (-u) where
  finite := (isFinite_neg x).trans h.finite
  least y hy := by
    have := h.least y.neg ((isFinite_neg y).trans hy)
    rw [units_neg] at this ⊢
    omega
  even y hy he := by
    have := h.even y.neg ((isFinite_neg y).trans hy)
    rw [units_neg] at this he ⊢
    rw [magnitude_neg]
    omega

variable {u m M : Nat}

/-- The magnitudes of numbers leave the place of the sign free. -/
theorem lt_of_le_infiniteMagnitude (h : M ≤ infiniteMagnitude) : M < 2 ^ 63 := by
  unfold infiniteMagnitude at h
  rw [Nat.pow_eq] at h
  omega

theorem nearestMagnitude_le (num den : Nat) : nearestMagnitude num den ≤ infiniteMagnitude := by
  unfold nearestMagnitude
  split
  · exact Nat.zero_le _
  · exact Nat.min_le_left _ _

/-- The nearest number to a quotient of the other sign. -/
theorem neg_ofRatio (negative : Bool) (num den : Nat) : (ofRatio negative num den).neg = ofRatio (!negative) num den := by
  have hlt := lt_of_le_infiniteMagnitude (nearestMagnitude_le num den)
  have hsign : (ofMagnitude negative (nearestMagnitude num den)).negative = negative := by
    rw [Number.negative, toNat_ofMagnitude hlt]
    cases negative
    · simpa using hlt
    · simp
  rw [ofRatio, neg, hsign, magnitude_ofMagnitude hlt, ofRatio]

theorem units_ofMagnitude (hM : M < infiniteMagnitude) : (ofMagnitude false M).units = unitsAt M := by
  have hlt := lt_of_le_infiniteMagnitude hM.le
  have hsign : (ofMagnitude false M).negative = false := by
    rw [negative, toNat_ofMagnitude hlt]
    simpa using hlt
  rw [units, hsign, absUnits_eq, magnitude_ofMagnitude hlt]
  rfl

/-- Every number is on one side or the other of two neighbours. -/
theorem units_apart (m : Nat) (y : Number) : y.units ≤ unitsAt m ∨ (unitsAt (m + 1) : Int) ≤ y.units := by
  unfold units
  rw [absUnits_eq]
  cases y.negative with
  | true =>
    left
    simp only [if_true]
    omega
  | false =>
    simp only [Bool.false_eq_true, if_false]
    rcases Nat.lt_or_ge m y.magnitude with h | h
    · right
      exact_mod_cast unitsAt_mono h
    · left
      exact_mod_cast unitsAt_mono h

/-- Of what lies between two neighbours the nearer one is the nearest of all, and the even one if neither is nearer. -/
theorem IsNearest.of_between (hM : M < infiniteMagnitude) (hlow : unitsAt m ≤ u) (hhigh : u ≤ unitsAt (m + 1))
    (h : (M = m ∧ 2 * u < unitsAt m + unitsAt (m + 1)) ∨ (M = m + 1 ∧ unitsAt m + unitsAt (m + 1) < 2 * u) ∨
      ((M = m ∨ M = m + 1) ∧ 2 * u = unitsAt m + unitsAt (m + 1) ∧ M % 2 = 0)) : (ofMagnitude false M).IsNearest u := by
  have hlt := lt_of_le_infiniteMagnitude hM.le
  have hunits := units_ofMagnitude hM
  have hmagnitude : (ofMagnitude false M).magnitude = M := magnitude_ofMagnitude hlt
  refine ⟨?_, ?_, ?_⟩
  · rw [isFinite, hmagnitude]
    exact decide_eq_true hM
  · intro y _
    have hy := units_apart m y
    rw [hunits]
    rcases h with ⟨rfl, h⟩ | ⟨rfl, h⟩ | ⟨rfl | rfl, h, -⟩ <;> omega
  · intro y _ he
    have hy := units_apart m y
    rw [hunits] at he ⊢
    rw [hmagnitude]
    rcases h with ⟨rfl, h⟩ | ⟨rfl, h⟩ | ⟨-, -, h⟩
    · left
      omega
    · left
      omega
    · exact .inr h

/-! ## Natural numbers -/

/-- The integer nearest to a quotient, by what the rest is. -/
theorem roundToEven_cases (num den : Nat) :
    (roundToEven num den = num / den ∧ 2 * (num % den) < den) ∨ (roundToEven num den = num / den + 1 ∧ den < 2 * (num % den)) ∨
      ((roundToEven num den = num / den ∨ roundToEven num den = num / den + 1) ∧ 2 * (num % den) = den ∧
        roundToEven num den % 2 = 0) := by
  unfold roundToEven
  dsimp only
  split
  · rename_i hless
    exact .inl ⟨rfl, hless⟩
  · split
    · rename_i hmore
      exact .inr (.inl ⟨rfl, hmore⟩)
    · right
      right
      omega

theorem roundToEven_le (num den : Nat) : roundToEven num den ≤ num / den + 1 := by
  rcases roundToEven_cases num den with ⟨h, -⟩ | ⟨h, -⟩ | ⟨h, -⟩ <;> omega

/-- A number with `k + 1` places, more than fifty-three, has fifty-three before its place `k - 52`. -/
theorem leading_places {n k : Nat} (hk : 53 ≤ k) (hlow : 2 ^ k ≤ n) (hhigh : n < 2 ^ (k + 1)) :
    2 ^ 52 ≤ n / 2 ^ (k - 52) ∧ n / 2 ^ (k - 52) < 2 ^ 53 ∧ 2 ^ 53 ≤ n / 2 ^ (k - 53) := by
  refine ⟨?_, ?_, ?_⟩
  · rw [Nat.le_div_iff_mul_le (Nat.two_pow_pos _), ← Nat.pow_add, Nat.add_sub_cancel' (by omega)]
    exact hlow
  · rw [Nat.div_lt_iff_lt_mul (Nat.two_pow_pos _), ← Nat.pow_add]
    have hplaces : 53 + (k - 52) = k + 1 := by omega
    rw [hplaces]
    exact hhigh
  · rw [Nat.le_div_iff_mul_le (Nat.two_pow_pos _), ← Nat.pow_add, Nat.add_sub_cancel' hk]
    exact hlow

/-- The rounding of a natural number that has more than fifty-three places: the first fifty-three are kept, and the rest decides. -/
theorem nearestMagnitude_large {n : Nat} (hlow : 53 ≤ n.log2) (hhigh : n.log2 < 64) :
    nearestMagnitude n 1 = (n.log2 - 52 + 1074) * 2 ^ 52 + roundToEven n (2 ^ (n.log2 - 52)) := by
  have hn : n ≠ 0 := by
    rintro rfl
    exact absurd hlow (by decide)
  have hone : Nat.log2 1 = 0 := by decide
  obtain ⟨-, hfits, hover⟩ := leading_places hlow (Nat.log2_self_le hn) Nat.lt_log2_self
  have hround := roundToEven_le n (2 ^ (n.log2 - 52))
  unfold nearestMagnitude
  rw [if_neg hn, hone]
  generalize n.log2 = k at *
  -- The first guess of the exponent keeps fifty-four places, one too many; the next one keeps fifty-three.
  have hguess : max (-1074) ((k : Int) - ((0 : Nat) : Int) - 53) = (k : Int) - 53 := by omega
  have e₁ : (-((k : Int) - 53)).toNat = 0 := by omega
  have e₂ : (-((k : Int) - 53 + 1)).toNat = 0 := by omega
  have e₃ : ((k : Int) - 53).toNat = k - 53 := by omega
  have e₄ : ((k : Int) - 53 + 1).toNat = k - 52 := by omega
  have e₅ : ((k : Int) - 53 + 1 + 1074).toNat = k - 52 + 1074 := by omega
  have hunit : n * Nat.pow 2 0 = n := Nat.mul_one n
  have hover' : ¬n / 2 ^ (k - 53) < Nat.pow 2 53 := by
    rw [Nat.pow_eq]
    omega
  have hfits' : n / 2 ^ (k - 52) < Nat.pow 2 53 := hfits
  simp only [hguess, e₁, e₂, e₃, e₄, hunit, Nat.one_mul, Nat.pow_eq] at hover' hfits' ⊢
  simp only [hover', hfits', decide_false, decide_true, Bool.false_eq_true, if_false, if_true, e₂, e₄, e₅, infiniteMagnitude]
  rw [Nat.pow_zero, Nat.mul_one, Nat.pow_eq, Nat.min_eq_right (by omega)]

/-- A natural number is rounded to the nearest number. -/
theorem ofNat_nearest {n : Nat} (h : n < 2 ^ 64) : (ofNat n).IsNearest (n * unitsPerOne : Nat) := by
  by_cases hsmall : n < 2 ^ 53
  · obtain ⟨hfinite, hsign, hunits⟩ := ofNat_exact hsmall
    have hself : (ofNat n).units = ((n * unitsPerOne : Nat) : Int) := by
      rw [units, hsign, hunits]
      rfl
    exact hself ▸ isNearest_self hfinite
  have hn : n ≠ 0 := by omega
  have hhigh : n.log2 < 64 := (Nat.log2_lt hn).2 h
  have hlow : 53 ≤ n.log2 := (Nat.le_log2 hn).2 (Nat.not_lt.1 hsmall)
  obtain ⟨hfull, hfits, -⟩ := leading_places hlow (Nat.log2_self_le hn) Nat.lt_log2_self
  have hmagnitude := nearestMagnitude_large hlow hhigh
  have hround := roundToEven_le n (2 ^ (n.log2 - 52))
  rw [ofNat, ofRatio, hmagnitude]
  generalize n.log2 = k at *
  obtain ⟨t, ht⟩ : ∃ t, t = 1074 := ⟨_, rfl⟩
  have hpos := unitsPerOne_pos
  -- In units, the two neighbours are the kept places and one more of the last of them.
  obtain ⟨place, hplace⟩ : ∃ place, place = 2 ^ (k - 52) * unitsPerOne := ⟨_, rfl⟩
  have hlast : 2 ^ (k - 52 + 1074) = place := by
    rw [hplace, ← two_pow_units ht, ← ht, ← Nat.pow_add]
  have hbelow : unitsAt ((k - 52 + 1074) * 2 ^ 52 + n / 2 ^ (k - 52)) = n / 2 ^ (k - 52) * place := by
    rw [unitsAt_places (.inl hfull) hfits.le, hlast]
  have habove : unitsAt ((k - 52 + 1074) * 2 ^ 52 + n / 2 ^ (k - 52) + 1) = n / 2 ^ (k - 52) * place + place := by
    rw [Nat.add_assoc, unitsAt_places (.inl (Nat.le_succ_of_le hfull)) hfits, hlast, Nat.succ_mul]
  have hunits : n * unitsPerOne = n / 2 ^ (k - 52) * place + n % 2 ^ (k - 52) * unitsPerOne := by
    rw [hplace, ← Nat.mul_assoc, ← Nat.add_mul, Nat.div_add_mod']
  have hrest : n % 2 ^ (k - 52) * unitsPerOne ≤ place := by
    rw [hplace]
    exact Nat.mul_le_mul_right _ (Nat.mod_lt _ (Nat.two_pow_pos _)).le
  have hfinite : (k - 52 + 1074) * 2 ^ 52 + roundToEven n (2 ^ (k - 52)) < infiniteMagnitude := by
    unfold infiniteMagnitude
    rw [Nat.pow_eq]
    omega
  refine IsNearest.of_between (m := (k - 52 + 1074) * 2 ^ 52 + n / 2 ^ (k - 52)) hfinite ?_ ?_ ?_
  · rw [hbelow, hunits]
    exact Nat.le_add_right _ _
  · rw [habove, hunits]
    exact Nat.add_le_add_left hrest _
  · rw [hbelow, habove, hunits]
    have htwice : 2 * (n % 2 ^ (k - 52) * unitsPerOne) = 2 * (n % 2 ^ (k - 52)) * unitsPerOne := (Nat.mul_assoc _ _ _).symm
    rcases roundToEven_cases n (2 ^ (k - 52)) with ⟨hr, hless⟩ | ⟨hr, hmore⟩ | ⟨hr, heven, hparity⟩
    · have hless' := Nat.mul_lt_mul_of_pos_right hless hpos
      rw [← htwice, ← hplace] at hless'
      left
      omega
    · have hmore' := Nat.mul_lt_mul_of_pos_right hmore hpos
      rw [← htwice, ← hplace] at hmore'
      right
      left
      omega
    · rw [heven, ← hplace] at htwice
      right
      right
      omega

end Number

/-! ## Numbers of JSON -/

namespace JsonNumber

/-- A number that JSON has: a natural number below `2 ^ 64`, a negative integer from `-2 ^ 63` on, or a finite double. -/
def InRange : JsonNumber → Prop
  | natural n => n < 2 ^ 64
  | negative n => 0 < n ∧ n ≤ 2 ^ 63
  | float x => x.isFinite = true

/-- The exact value in units. -/
def units : JsonNumber → Int
  | natural n => (n * Number.unitsPerOne : Nat)
  | negative n => -((n * Number.unitsPerOne : Nat) : Int)
  | float x => x.units

/-- A number that JSON has is read as the nearest double. -/
theorem toNumber_nearest {n : JsonNumber} (h : n.InRange) : n.toNumber.IsNearest n.units := by
  cases n with
  | natural n => exact Number.ofNat_nearest h
  | negative n =>
    obtain ⟨hpos, hle⟩ := h
    have hneg : decide (-(n : Int) < 0) = true := decide_eq_true (by omega)
    have hself : toNumber (negative n) = (Number.ofNat n).neg := by
      rw [toNumber, Number.ofInt, hneg, Int.natAbs_neg, Int.natAbs_natCast, Number.ofNat, Number.neg_ofRatio, Bool.not_false]
    rw [hself]
    exact (Number.ofNat_nearest (by omega)).neg
  | float x => exact Number.isNearest_self h

end JsonNumber

end LiveBindings
