import LiveBindings.Observe.Follow
import LiveBindings.Proofs.Same
import Mathlib.Data.List.Forall2

/-!
# What an expression denotes

The value of an expression evaluated from scratch on what the containers hold at one moment. Only expressions whose value is
computed from other values have one (`Expr.Scalar`); the others denote containers that are made when they are started. The
value does not distinguish scopes with values that are the same (`Expr.denote_same`).
-/

namespace LiveBindings

/-- An operator gives results that are the same for operands that are the same, and does not look into containers. -/
def OperatorFunction.RespectsSame (f : OperatorFunction) : Prop :=
  ∀ c c' as bs, List.Forall₂ (fun a b : Value => a.same b = true) as bs → (f c as).same (f c' bs) = true

namespace Contents

/-- What a value has under a key: objects are read by the text of the key, lists by index or by `length`, texts by `length`. -/
def property (c : Contents) (target key : Value) : Value :=
  match target with
  | .object o => (Fields.get? (c.key key) (c.entries o)).getD .undefined
  | .list l =>
    if asksLength key then Value.ofNat (c.items l).length
    else match key.asIndex with
      | some index => (c.items l).getD index .undefined
      | none => .undefined
  | .text s => if asksLength key then Value.ofNat s.length else .undefined
  | _ => .undefined

/-- Whether a collection has an element or key. -/
def membership (c : Contents) (collection member : Value) : Value :=
  match collection with
  | .list l => .bool (member.memberOf (c.items l))
  | .object o => .bool (Fields.has (c.key member) (c.entries o))
  | _ => .bool false

/-- The entry of a registry under a name; without a registry there is none. -/
def registered (c : Contents) (registry : Option ObjectId) (name : String) : Value :=
  match registry with
  | some o => (Fields.get? name (c.entries o)).getD .undefined
  | none => .undefined

end Contents

/-- What is followed of a container under a key, as it is now. -/
def Followed.value (c : Contents) : Followed → Value → Value → Value
  | .property => c.property
  | .membership => c.membership

namespace Expr

/-- Expressions whose value is computed from other values, with operators that respect what is the same. -/
inductive Scalar : Expr → Prop
  | literal (v : Value) : Scalar (.literal v)
  | value : Scalar .value
  | parameters : Scalar .parameters
  | element (id : String) : Scalar (.element id)
  | component (label : String) : Scalar (.component label)
  | property {a b : Expr} : Scalar a → Scalar b → Scalar (.property a b)
  | membership {a b : Expr} : Scalar a → Scalar b → Scalar (.membership a b)
  | within {a b : Expr} : Scalar a → Scalar b → Scalar (.within a b)
  | choice {p a b : Expr} : Scalar p → Scalar a → Scalar b → Scalar (.choice p a b)
  | operator {f : OperatorFunction} {xs : List Expr} :
      f.RespectsSame → (∀ x ∈ xs, Scalar x) → Scalar (.operator f xs)

mutual

/-- The value of an expression on given contents. -/
def denote (c : Contents) : Expr → Scope → Value
  | .literal v, _ => v
  | .value, s => s.value
  | .parameters, s => s.parameters
  | .element id, s => c.registered s.elements id
  | .component label, s => c.registered s.components label
  | .property a b, s => c.property (a.denote c s) (b.denote c s)
  | .membership a b, s => c.membership (a.denote c s) (b.denote c s)
  | .within a b, s => b.denote c (s.nest (a.denote c s))
  | .choice p a b, s => if (p.denote c s).truthy then a.denote c s else b.denote c s
  | .operator f xs, s => f c (denoteAll c xs s)
  | _, _ => .undefined

def denoteAll (c : Contents) : List Expr → Scope → List Value
  | [], _ => []
  | x :: xs, s => x.denote c s :: denoteAll c xs s

end

mutual

/-- Whenever the evaluation looks up a key or member in an object, that key or member is a scalar. -/
def ScalarKeys (c : Contents) : Expr → Scope → Prop
  | .property a b, s | .membership a b, s =>
    a.ScalarKeys c s ∧ b.ScalarKeys c s ∧ ∀ o, a.denote c s = .object o → (b.denote c s).isScalar = true
  | .within a b, s => a.ScalarKeys c s ∧ b.ScalarKeys c (s.nest (a.denote c s))
  | .choice p a b, s =>
    p.ScalarKeys c s ∧ if (p.denote c s).truthy then a.ScalarKeys c s else b.ScalarKeys c s
  | .operator _ xs, s => ScalarKeysAll c xs s
  | _, _ => True

def ScalarKeysAll (c : Contents) : List Expr → Scope → Prop
  | [], _ => True
  | x :: xs, s => x.ScalarKeys c s ∧ ScalarKeysAll c xs s

end

mutual

/-- The number of nodes of an expression. -/
def size : Expr → Nat
  | .property a b | .membership a b | .within a b => a.size + b.size + 1
  | .choice p a b => p.size + a.size + b.size + 1
  | .operator _ xs => sizeAll xs + 1
  | _ => 1

def sizeAll : List Expr → Nat
  | [] => 0
  | x :: xs => x.size + sizeAll xs

end

theorem size_le_sizeAll {x : Expr} {xs : List Expr} (h : x ∈ xs) : x.size ≤ sizeAll xs := by
  induction xs with
  | nil => cases h
  | cons y ys ih =>
    rw [sizeAll]
    rcases List.mem_cons.1 h with rfl | h
    · omega
    · have := ih h
      omega

theorem denoteAll_eq_map (c : Contents) (xs : List Expr) (s : Scope) :
    denoteAll c xs s = xs.map fun x => x.denote c s := by
  induction xs with
  | nil => rfl
  | cons x xs ih => rw [denoteAll, ih, List.map_cons]

theorem scalarKeysAll_iff (c : Contents) (xs : List Expr) (s : Scope) :
    ScalarKeysAll c xs s ↔ ∀ x ∈ xs, x.ScalarKeys c s := by
  induction xs with
  | nil => simp [ScalarKeysAll]
  | cons x xs ih => simp [ScalarKeysAll, ih]

end Expr

/-! ## What is the same is looked up alike -/

theorem asksLength_eq_of_same {a b : Value} (h : a.same b = true) : asksLength a = asksLength b :=
  Value.eq_of_same (fun _ _ _ => rfl) h

namespace Contents

theorem key_congr (c : Contents) {a b : Value} (h : a.same b = true) : c.key a = c.key b := by
  by_cases ha : a.isScalar = true
  · exact key_eq_of_same ha h
  · rcases Value.same_iff.1 h with rfl | ⟨x, y, rfl, -, -⟩
    · rfl
    · exact absurd rfl ha

/-- What is looked up in a container that is no number depends only on the container and on what the key is the same as. -/
theorem property_congr (c : Contents) {t t' k k' : Value} (ht : t.same t' = true) (hk : k.same k' = true) :
    c.property t k = c.property t' k' := by
  rcases Value.same_iff.1 ht with rfl | ⟨x, y, rfl, rfl, -⟩
  · cases t <;> simp [property, key_congr c hk, asksLength_eq_of_same hk, Value.asIndex_eq_of_same hk]
  · rfl

theorem membership_congr (c : Contents) {t t' m m' : Value} (ht : t.same t' = true) (hm : m.same m' = true) :
    c.membership t m = c.membership t' m' := by
  rcases Value.same_iff.1 ht with rfl | ⟨x, y, rfl, rfl, -⟩
  · cases t <;> simp [membership, key_congr c hm, Value.memberOf_eq_of_same hm]
  · rfl

end Contents

theorem Followed.value_congr (c : Contents) (what : Followed) {t t' k k' : Value} (ht : t.same t' = true)
    (hk : k.same k' = true) : what.value c t k = what.value c t' k' := by
  cases what with
  | property => exact c.property_congr ht hk
  | membership => exact c.membership_congr ht hk

namespace Expr

/-- Values that are the same in scope give results that are the same. -/
theorem denote_same {x : Expr} (hx : x.Scalar) (c : Contents) (s : Scope) {v v' : Value} (h : v.same v' = true) :
    (x.denote c (s.nest v)).same (x.denote c (s.nest v')) = true := by
  induction hx generalizing v v' with
  | literal | parameters | element | component => simp [denote, Scope.nest]
  | value => simpa [denote, Scope.nest] using h
  | property _ _ iha ihb => simp [denote, Contents.property_congr c (iha h) (ihb h)]
  | membership _ _ iha ihb => simp [denote, Contents.membership_congr c (iha h) (ihb h)]
  | within _ _ iha ihb =>
    simp only [denote]
    exact ihb (iha h)
  | choice _ _ _ ihp iha ihb =>
    simp only [denote, Value.truthy_eq_of_same (ihp h)]
    split
    · exact iha h
    · exact ihb h
  | @operator f xs hf _ ih =>
    simp only [denote, denoteAll_eq_map]
    refine hf c c _ _ ?_
    rw [List.forall₂_map_left_iff, List.forall₂_map_right_iff, List.forall₂_same]
    exact fun x hx => ih x hx h

/-- The condition on keys depends only on what the value in scope is the same as. -/
theorem Scalar.scalarKeys_congr {x : Expr} (hx : x.Scalar) {c : Contents} {s : Scope} {v v' : Value} (h : v.same v' = true)
    (hk : x.ScalarKeys c (s.nest v)) : x.ScalarKeys c (s.nest v') := by
  induction hx generalizing v v' with
  | literal | parameters | element | component | value => simp [ScalarKeys]
  | property ha hb iha ihb | membership ha hb iha ihb =>
    obtain ⟨h1, h2, h3⟩ := hk
    refine ⟨iha h h1, ihb h h2, fun o ho => ?_⟩
    have he := denote_same ha c s (Value.same_symm h)
    rw [ho] at he
    rw [← Value.isScalar_eq_of_same (denote_same hb c s h)]
    exact h3 o (Value.eq_of_same_object he)
  | within ha _ iha ihb =>
    obtain ⟨h1, h2⟩ := hk
    exact ⟨iha h h1, ihb (denote_same ha c s h) h2⟩
  | choice hp _ _ ihp iha ihb =>
    obtain ⟨h1, h2⟩ := hk
    refine ⟨ihp h h1, ?_⟩
    rw [← Value.truthy_eq_of_same (denote_same hp c s h)]
    split
    · rename_i ht
      rw [if_pos ht] at h2
      exact iha h h2
    · rename_i ht
      rw [if_neg ht] at h2
      exact ihb h h2
  | operator _ _ ih =>
    simp only [ScalarKeys, scalarKeysAll_iff] at hk ⊢
    exact fun x hx => ih x hx h (hk x hx)

end Expr

end LiveBindings
