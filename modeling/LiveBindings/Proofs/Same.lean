import LiveBindings.Store.Contents

/-!
# What cannot be told apart

`Value.same` is an equivalence, and the readings by which an observer looks something up (truth, index, text of a scalar)
agree on values that are the same. An update that is dropped because the new value is the same as the old one therefore
changes none of them.
-/

namespace LiveBindings

namespace Number

theorem isNaN_eq_false_of_isZero {x : Number} (h : x.isZero = true) : x.isNaN = false := by
  simp only [isZero, beq_iff_eq] at h
  simp [isNaN, h]

theorem isZero_eq_false_of_isNaN {x : Number} (h : x.isNaN = true) : x.isZero = false := by
  cases hz : x.isZero with
  | false => rfl
  | true => rw [isNaN_eq_false_of_isZero hz] at h; cases h

/-- Two numbers are the same when they are equal, both zeros or both NaN. -/
theorem same_iff {x y : Number} :
    x.same y = true ↔ x = y ∨ (x.isZero = true ∧ y.isZero = true) ∨ (x.isNaN = true ∧ y.isNaN = true) := by
  cases hx : x.isNaN <;> cases hy : y.isNaN
  · simp [same, numericEq, hx, hy]
  · have hne : x ≠ y := fun h => by rw [h, hy] at hx; cases hx
    simp [same, numericEq, hx, hy, hne, isZero_eq_false_of_isNaN hy]
  · have hne : x ≠ y := fun h => by rw [h, hy] at hx; cases hx
    simp [same, numericEq, hx, hy, hne, isZero_eq_false_of_isNaN hx]
  · simp [same, hx, hy]

theorem same_refl (x : Number) : x.same x = true := same_iff.2 (Or.inl rfl)

theorem same_symm {x y : Number} (h : x.same y = true) : y.same x = true := by
  rcases same_iff.1 h with rfl | ⟨h1, h2⟩ | ⟨h1, h2⟩
  · exact same_refl _
  · exact same_iff.2 (Or.inr (Or.inl ⟨h2, h1⟩))
  · exact same_iff.2 (Or.inr (Or.inr ⟨h2, h1⟩))

theorem same_trans {x y z : Number} (h : x.same y = true) (h' : y.same z = true) : x.same z = true := by
  rcases same_iff.1 h with rfl | ⟨h1, h2⟩ | ⟨h1, h2⟩
  · exact h'
  · rcases same_iff.1 h' with rfl | ⟨_, h4⟩ | ⟨h3, _⟩
    · exact h
    · exact same_iff.2 (Or.inr (Or.inl ⟨h1, h4⟩))
    · simp [isNaN_eq_false_of_isZero h2] at h3
  · rcases same_iff.1 h' with rfl | ⟨h3, _⟩ | ⟨_, h4⟩
    · exact h
    · simp [isNaN_eq_false_of_isZero h3] at h2
    · exact same_iff.2 (Or.inr (Or.inr ⟨h1, h4⟩))

/-- What does not distinguish zeros, nor NaNs, does not distinguish what is the same. -/
theorem eq_of_same {α : Type} {f : Number → α} (zeros : ∀ x y, x.isZero = true → y.isZero = true → f x = f y)
    (nans : ∀ x y, x.isNaN = true → y.isNaN = true → f x = f y) {x y : Number} (h : x.same y = true) : f x = f y := by
  rcases same_iff.1 h with rfl | ⟨h1, h2⟩ | ⟨h1, h2⟩
  · rfl
  · exact zeros x y h1 h2
  · exact nans x y h1 h2

theorem absUnits_of_isZero {x : Number} (h : x.isZero = true) : x.absUnits = 0 := by
  simp only [isZero, beq_iff_eq] at h
  simp [absUnits, h]

theorem isFinite_of_isZero {x : Number} (h : x.isZero = true) : x.isFinite = true := by
  simp only [isZero, beq_iff_eq] at h
  simp [isFinite, h, infiniteMagnitude]

theorem isWhole_of_isZero {x : Number} (h : x.isZero = true) : x.isWhole = true := by
  simp [isWhole, isFinite_of_isZero h, absUnits_of_isZero h]

theorem wholePart_of_isZero {x : Number} (h : x.isZero = true) : x.wholePart = 0 := by
  simp [wholePart, absUnits_of_isZero h]

theorem isWhole_of_isNaN {x : Number} (h : x.isNaN = true) : x.isWhole = false := by
  simp only [isNaN, decide_eq_true_eq] at h
  simp [isWhole, isFinite, Nat.not_lt.mpr (Nat.le_of_lt h)]

theorem valueText_eq_of_same {x y : Number} (h : x.same y = true) : x.valueText = y.valueText := by
  refine eq_of_same (fun x y hx hy => ?_) (fun x y hx hy => ?_) h
  · simp [valueText, isWhole_of_isZero, wholePart_of_isZero, hx, hy]
  · simp [valueText, text, isWhole_of_isNaN, hx, hy]

end Number

namespace Value

/-- Two values are the same when they are equal or numbers that are the same. -/
theorem same_iff {a b : Value} :
    a.same b = true ↔ a = b ∨ ∃ x y, a = number x ∧ b = number y ∧ x.same y = true := by
  constructor
  · intro h
    cases a <;> cases b <;> simp_all [same]
  · rintro (rfl | ⟨x, y, rfl, rfl, h⟩)
    · cases a <;> simp [same, Number.same_refl]
    · exact h

@[simp] theorem same_refl (a : Value) : a.same a = true := same_iff.2 (Or.inl rfl)

theorem same_symm {a b : Value} (h : a.same b = true) : b.same a = true := by
  rcases same_iff.1 h with rfl | ⟨x, y, rfl, rfl, h⟩
  · exact same_refl _
  · exact Number.same_symm h

theorem same_comm (a b : Value) : a.same b = b.same a := by
  rw [Bool.eq_iff_iff]
  exact ⟨same_symm, same_symm⟩

theorem same_trans {a b c : Value} (h : a.same b = true) (h' : b.same c = true) : a.same c = true := by
  rcases same_iff.1 h with rfl | ⟨x, y, rfl, rfl, h⟩
  · exact h'
  · rcases same_iff.1 h' with rfl | ⟨y', z, hy, rfl, h'⟩
    · exact h
    · cases hy
      exact Number.same_trans h h'

/-- Replacing a value by one that is the same changes no comparison. -/
theorem same_congr {a a' b b' : Value} (ha : a.same a' = true) (hb : b.same b' = true) : a.same b = a'.same b' := by
  rw [Bool.eq_iff_iff]
  exact ⟨fun h => same_trans (same_symm ha) (same_trans h hb), fun h => same_trans ha (same_trans h (same_symm hb))⟩

/-- What does not distinguish zeros, nor NaNs, does not distinguish what is the same. -/
theorem eq_of_same {α : Type} {f : Value → α} (numbers : ∀ x y : Number, x.same y = true → f (number x) = f (number y))
    {a b : Value} (h : a.same b = true) : f a = f b := by
  rcases same_iff.1 h with rfl | ⟨x, y, rfl, rfl, h⟩
  · rfl
  · exact numbers x y h

theorem toNumber_same {a b : Value} (h : a.same b = true) : a.toNumber.same b.toNumber = true := by
  rcases same_iff.1 h with rfl | ⟨x, y, rfl, rfl, h⟩
  · exact Number.same_refl _
  · exact h

theorem truthy_eq_of_same {a b : Value} (h : a.same b = true) : a.truthy = b.truthy := by
  refine eq_of_same (fun x y h => ?_) h
  refine Number.eq_of_same (f := fun x => (number x).truthy) (fun x y hx hy => ?_) (fun x y hx hy => ?_) h
  · simp [truthy, hx, hy]
  · simp [truthy, hx, hy]

theorem asIndex_eq_of_same {a b : Value} (h : a.same b = true) : a.asIndex = b.asIndex := by
  refine eq_of_same (fun x y h => ?_) h
  refine Number.eq_of_same (f := fun x => (number x).asIndex) (fun x y hx hy => ?_) (fun x y hx hy => ?_) h
  · simp [asIndex, Number.isWhole_of_isZero, Number.wholePart_of_isZero, hx, hy]
  · simp [asIndex, Number.isWhole_of_isNaN, hx, hy]

theorem memberOf_eq_of_same {a b : Value} (h : a.same b = true) (items : List Value) :
    a.memberOf items = b.memberOf items := by
  have hs : ∀ x : Value, x.same a = x.same b := fun x => same_congr (same_refl x) h
  simp [memberOf, hs]

/-- Whether a value is no container. -/
def isScalar : Value → Bool
  | list _ | object _ => false
  | _ => true

theorem isScalar_eq_of_same {a b : Value} (h : a.same b = true) : a.isScalar = b.isScalar :=
  eq_of_same (fun _ _ _ => rfl) h

/-- Values other than numbers are the same only when they are equal. -/
theorem eq_of_same_list {l : ListId} {a : Value} (h : (list l).same a = true) : a = list l := by
  cases a <;> simp_all [same]

theorem eq_of_same_object {o : ObjectId} {a : Value} (h : (object o).same a = true) : a = object o := by
  cases a <;> simp_all [same]

theorem eq_of_same_text {s : String} {a : Value} (h : (text s).same a = true) : a = text s := by
  cases a <;> simp_all [same]

end Value

namespace Contents

/-- The text of a scalar does not depend on what containers hold, and scalars that are the same have one text. -/
theorem key_eq_of_same {c c' : Contents} {a b : Value} (ha : a.isScalar = true) (h : a.same b = true) :
    c.key a = c'.key b := by
  have hk : ∀ (c : Contents) (v : Value), v.isScalar = true → ∀ n, c.textWithin n v = c.textWithin 0 v := by
    intro c v hv n
    cases v <;> cases n <;> simp_all [textWithin, Value.isScalar]
  have hb : b.isScalar = true := by rw [← Value.isScalar_eq_of_same h]; exact ha
  simp only [key, text, hk _ _ ha, hk _ _ hb]
  rcases Value.same_iff.1 h with rfl | ⟨x, y, rfl, rfl, h⟩
  · cases a <;> simp_all [textWithin, Value.isScalar]
  · simp [textWithin, Number.valueText_eq_of_same h]

@[simp] theorem key_text (c : Contents) (s : String) : c.key (.text s) = s := by simp [key, text, textWithin]

end Contents

end LiveBindings
