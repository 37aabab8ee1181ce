import LiveBindings.Proofs.Order
import LiveBindings.Proofs.Spans
import LiveBindings.Proofs.Outlets

/-!
# Values found over all elements

Six expressions find one value over the elements of a collection: whether all or some of the results of an expression are true, the
element with the least or greatest result, and the sum or mean of the elements that are numbers. A `Measure` is one of them;
`Measure.value` is what the view computes, and `Measure.IsOf` says what it is to be. The value depends on the results only up to
`Value.same`, as long as keys that are compared are canonical (`Measure.value_set`).
-/

namespace LiveBindings

variable {π σ : Type}

/-- What is found over all elements. -/
inductive Measure
  | quantifier (all : Bool)
  | extreme (greatest : Bool)
  | reduction (what : Reduction)

namespace Measure

variable {up latest : List Value} {nan : Number} {v : Value}

/-- Whether an expression is evaluated per element. -/
def evaluates : Measure → Bool
  | reduction _ => false
  | _ => true

/-- The expression that finds it. -/
def expr (collection relation : Expr) : Measure → Expr
  | quantifier true => .perElement .every collection relation
  | quantifier false => .perElement .some collection relation
  | extreme false => .perElement .least collection relation
  | extreme true => .perElement .greatest collection relation
  | reduction what => .reduce what collection

/-- What the view computes from the elements and the latest results. -/
def value (up latest : List Value) : Measure → Value
  | quantifier all => .bool (if all then latest.all Value.truthy else latest.any Value.truthy)
  | extreme greatest => ((extremeOf greatest (up.zip latest)).map (·.1)).getD .undefined
  | reduction what => .number (what.of up)

/-- What the value is to be: the truth of all results, or of some; the first element whose result is least, or greatest; the sum, or the
mean, of the elements that are numbers. -/
def IsOf (up latest : List Value) (v : Value) : Measure → Prop
  | quantifier true => v = .bool (decide (∀ k ∈ latest, k.truthy = true))
  | quantifier false => v = .bool (decide (∃ k ∈ latest, k.truthy = true))
  | extreme greatest => if up = [] then v = .undefined else ∃ i k, Extreme greatest latest i k ∧ up[i]? = some v
  | reduction .sum => v = .number ((up.filterMap Value.asNumber).foldl Number.add .negZero)
  | reduction .mean =>
    v = .number (((up.filterMap Value.asNumber).foldl Number.add .negZero).div (.ofNat (up.filterMap Value.asNumber).length))

/-- Whether a result may be had: keys that are compared are canonical. -/
def Fits (nan : Number) (v : Value) : Measure → Prop
  | extreme _ => v.Canonical nan
  | _ => True

/-- What the view computes is what it is to be. -/
theorem isOf_value (M : Measure) (hl : M.evaluates = true → up.length = latest.length) : M.IsOf up latest (M.value up latest) := by
  match M with
  | quantifier true => simp only [IsOf, value, if_true, List.all_eq]
  | quantifier false => simp [IsOf, value, List.any_eq]
  | reduction .sum => rfl
  | reduction .mean => rfl
  | extreme greatest =>
    have hl := hl rfl
    simp only [IsOf, value]
    split
    · rename_i hup
      simp [hup, extremeOf]
    · rename_i hup
      have hne : up.zip latest ≠ [] := by
        cases up <;> cases latest <;> simp_all
      obtain ⟨i, p, hi, hp, hextreme⟩ := @extremeOf_spec greatest _ hne
      rw [List.map_snd_zip hl.ge] at hextreme
      exact ⟨i, p.2, hextreme, by rw [hp]; exact (List.getElem?_zip_eq_some.1 hi).1⟩

/-- A result that cannot be told from the one before makes no difference. -/
theorem value_set {M : Measure} {i : Nat} {k : Value} (hi : latest[i]? = some k) (hsame : k.same v = true)
    (hM : M.evaluates = true) (hk : M.Fits nan k) (hv : M.Fits nan v) : M.value up (latest.set i v) = M.value up latest := by
  match M with
  | reduction _ => cases hM
  | extreme _ =>
    have hkv : k = v := Value.Canonical.eq_of_same hk hv hsame
    obtain ⟨_, rfl⟩ := List.getElem?_eq_some_iff.1 hi
    rw [← hkv, List.set_getElem_self]
  | quantifier all =>
    have htruth : (latest.set i v).map Value.truthy = latest.map Value.truthy := by
      rw [List.map_set, ← Value.truthy_eq_of_same hsame]
      obtain ⟨_, rfl⟩ := List.getElem?_eq_some_iff.1 hi
      simp [← List.map_set]
    have hall (f : Value → Bool) (xs : List Value) : xs.all f = (xs.map f).all id := by simp
    have hany (f : Value → Bool) (xs : List Value) : xs.any f = (xs.map f).any id := by simp
    simp only [value, hall Value.truthy, hany Value.truthy, htruth]

end Measure

example : (Measure.extreme false).value [.text "a", .text "b", .text "c"] [.bool true, .bool false, .bool false] = .text "b" := by
  decide

end LiveBindings
