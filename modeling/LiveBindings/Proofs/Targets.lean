import LiveBindings.Compile

/-!
# What can be written to can be read

A tree that is compiled as a target is compiled as an expression too, with the same containers for its literals, and the target writes to
what the expression reads (`Target.WritesTo`, `OperatorTable.Orderly.compile_of_compileTarget`). The table of operators has to be
orderly for that: an operator with an inverse does not stand under the name of a primitive or a construct, where an expression
never finds it, and there is a comparison. In an orderly table the ways in which a kind can be written to follow from what the
kind stands for (`OperatorTable.Orderly.writeForm_eq`), so that primitives and constructs come before operators.

In a table that is not orderly they need not: a kind that stands for a primitive is written through the operator that the
primitive hides (`compileTarget_hidden`), and a comparison is written to that cannot be read (`compileTarget_uncompared`).
-/

namespace LiveBindings

variable {κ ε α β : Type}

/-! ## Compiling step by step -/

section

variable {w w' : World κ ε}

/-- Two things are compiled one after the other. -/
theorem compiled_bind {δ : Type} {c : ExceptT δ (Run κ ε) α} {f : α → ExceptT δ (Run κ ε) β} {b : β} :
    (c >>= f).run w = .ok (.ok b) w' ↔ ∃ a w₁, c.run w = .ok (.ok a) w₁ ∧ (f a).run w₁ = .ok (.ok b) w' := by
  change (EStateM.bind c.run fun r => ExceptT.bindCont f r) w = _ ↔ _
  unfold EStateM.bind
  cases hc : c.run w with
  | error e w₁ => simp
  | ok r w₁ =>
    cases r with
    | error e =>
      constructor
      · intro h
        cases h
      · rintro ⟨a, w₂, h, -⟩
        cases h
    | ok a =>
      constructor
      · intro h
        exact ⟨a, w₁, rfl, h⟩
      · rintro ⟨a', w₂, h, hf⟩
        cases h
        exact hf

theorem compiled_pure {δ : Type} {a b : α} :
    (pure a : ExceptT δ (Run κ ε) α).run w = .ok (.ok b) w' ↔ a = b ∧ w = w' := by
  constructor
  · intro h
    cases h
    exact ⟨rfl, rfl⟩
  · rintro ⟨rfl, rfl⟩
    rfl

theorem not_compiled_throw {δ : Type} {e : δ} {b : α} : ¬(throw e : ExceptT δ (Run κ ε) α).run w = .ok (.ok b) w' := by
  intro h
  cases h

/-- A part that is only observed is compiled as an expression. -/
theorem compiled_observed {c : Compiling κ ε α} {a : α} :
    (observed c).run w = .ok (.ok a) w' ↔ c.run w = .ok (.ok a) w' := by
  change EStateM.map (Except.mapError BindError.compile) c.run w = _ ↔ _
  unfold EStateM.map
  cases hc : c.run w with
  | error e w₁ => simp
  | ok r w₁ =>
    cases r with
    | error e =>
      constructor
      · intro h
        cases h
      · intro h
        cases h
    | ok b =>
      constructor
      · intro h
        cases h
        rfl
      · intro h
        cases h
        rfl

end

/-! ## Orderly tables -/

theorem Construct.name_named {c : Construct} {kind : String} (h : Construct.named? kind = some c) : c.name = kind := by
  unfold Construct.named? at h
  exact beq_iff_eq.1 (List.find?_some (p := fun c : Construct => c.name == kind) h)

/-- How something can be written to, by what it stands for. -/
def Meaning.writeForm (kind : String) : Meaning → WriteForm
  | .primitive _ => .never
  | .construct .property | .construct .get => .property
  | .construct .has => .membership
  | .construct .within => .within
  | .construct _ => .never
  | .operator op =>
    if kind = "equals" then .equals
    else match op.inverse with
      | some f => .inverse f
      | none => .never
  | .unknown => .unknown

namespace OperatorTable

/-- An operator with an inverse is what its name stands for, and there is an operator that compares. -/
structure Orderly (t : OperatorTable) : Prop where
  unhidden : ∀ kind op, t.get? kind = some op → op.inverse.isSome → t.meaning kind = .operator op
  compares : (t.get? "equals").isSome

variable {t : OperatorTable} {kind : String}

/-- An operator is in the table under the name that stands for it. -/
theorem get?_of_meaning {op : Operator} (h : t.meaning kind = .operator op) : t.get? kind = some op := by
  unfold meaning at h
  split at h
  · cases h
  · split at h
    · cases h
    · split at h
      · cases h
        assumption
      · cases h

theorem named_of_meaning {c : Construct} (h : t.meaning kind = .construct c) : Construct.named? kind = some c := by
  unfold meaning at h
  split at h
  · cases h
  · split at h
    · cases h
      assumption
    · split at h <;> cases h

theorem Orderly.meaning_equals (ht : t.Orderly) : ∃ op, t.meaning "equals" = .operator op := by
  obtain ⟨op, hop⟩ := Option.isSome_iff_exists.1 ht.compares
  refine ⟨op, ?_⟩
  have hp : Primitive.named? "equals" = none := by decide
  have hc : Construct.named? "equals" = none := by decide
  simp only [meaning, hp, hc, hop]

/-- In an orderly table what a kind stands for decides how it can be written to: primitives and constructs come before
operators. -/
theorem Orderly.writeForm_eq (ht : t.Orderly) (kind : String) : t.writeForm kind = (t.meaning kind).writeForm kind := by
  unfold writeForm
  split
  · rename_i hk
    rw [Bool.or_eq_true, decide_eq_true_iff, decide_eq_true_iff] at hk
    rcases hk with rfl | rfl <;> rfl
  split
  · rename_i hk
    subst hk
    rfl
  split
  · rename_i hk
    subst hk
    obtain ⟨op, hop⟩ := ht.meaning_equals
    rw [hop]
    rfl
  split
  · rename_i hk
    subst hk
    rfl
  rename_i hproperty hhas hequals hwithin
  rw [Bool.or_eq_true, decide_eq_true_iff, decide_eq_true_iff, not_or] at hproperty
  split
  · rename_i f hf
    obtain ⟨op, hop, hinverse⟩ := Option.bind_eq_some_iff.1 hf
    rw [ht.unhidden kind op hop (by rw [hinverse]; rfl)]
    simp only [Meaning.writeForm, if_neg hequals, hinverse]
  · rename_i hf
    cases hm : t.meaning kind with
    | unknown => rfl
    | primitive p => rfl
    | operator op =>
      rw [get?_of_meaning hm] at hf
      simp only [Option.bind_some] at hf
      simp only [Meaning.writeForm, if_neg hequals, hf]
    | construct c =>
      -- The four constructs with a form of their own have been looked at.
      have hname := Construct.name_named (named_of_meaning hm)
      cases c with
      | property => exact absurd hname.symm hproperty.1
      | get => exact absurd hname.symm hproperty.2
      | has => exact absurd hname.symm hhas
      | within => exact absurd hname.symm hwithin
      | _ => rfl

end OperatorTable

/-! ## Targets and what they write to -/

/-- The target writes to what the expression reads. -/
inductive Target.WritesTo (t : OperatorTable) : Target → Expr → Prop
  | property (object key : Expr) : WritesTo t (.property object key) (.property object key)
  | membership (collection member : Expr) : WritesTo t (.membership collection member) (.membership collection member)
  | inverse {kind : String} {op : Operator} {f : Value → Value} {T : Target} {x : Expr} :
      t.meaning kind = .operator op → op.inverse = some f → WritesTo t T x → WritesTo t (.inverse f T) (.operator op.apply [x])
  | equals {op : Operator} {T : Target} {x : Expr} (right : Expr) :
      t.meaning "equals" = .operator op → WritesTo t T x → WritesTo t (.equals T right) (.operator op.apply [x, right])
  | within {T : Target} {x : Expr} (context : Expr) : WritesTo t T x → WritesTo t (.within context T) (.within context x)

section

variable {t : OperatorTable} {w w' : World κ ε}

theorem compileAll_one {a : Node} {x : Expr} (ha : (compile t a).run w = .ok (.ok x) w') :
    (compileAll t [a]).run w = .ok (.ok [x]) w' := by
  unfold compileAll
  exact compiled_bind.2 ⟨x, w', ha, compiled_bind.2 ⟨[], w', rfl, rfl⟩⟩

theorem compileAll_two {a b : Node} {x y : Expr} {w₁ : World κ ε} (ha : (compile t a).run w = .ok (.ok x) w₁)
    (hb : (compile t b).run w₁ = .ok (.ok y) w') : (compileAll t [a, b]).run w = .ok (.ok [x, y]) w' := by
  unfold compileAll
  exact compiled_bind.2 ⟨x, w₁, ha, compiled_bind.2 ⟨[y], w', compileAll_one hb, rfl⟩⟩

/-- A call of a construct with as many arguments as it takes. -/
theorem compile_construct {h : Head} {c : Construct} {ns : List Node} {xs : List Expr}
    (hm : t.meaning h.kind = .construct c) (hc : c.arity = some ns.length)
    (hxs : (compileAll t ns).run w = .ok (.ok xs) w') : (compile t (.call h ns)).run w = .ok (.ok (c.build xs)) w' := by
  have hm' : t.meaning (Node.call h ns).kind = .construct c := hm
  unfold compile assemble
  simp only [hm', hc, Node.positional, ne_eq, not_true_eq_false, if_false]
  exact compiled_bind.2 ⟨xs, w', hxs, rfl⟩

theorem compile_operator {h : Head} {op : Operator} {ns : List Node} {xs : List Expr} (hm : t.meaning h.kind = .operator op)
    (hxs : (compileAll t ns).run w = .ok (.ok xs) w') :
    (compile t (.call h ns)).run w = .ok (.ok (.operator op.apply xs)) w' := by
  have hm' : t.meaning (Node.call h ns).kind = .operator op := hm
  unfold compile assemble
  simp only [hm']
  exact compiled_bind.2 ⟨xs, w', hxs, rfl⟩

/-- What a call with two arguments has been compiled to as a target, by the way in which its kind can be written to. -/
theorem compileTarget_two {h : Head} {a b : Node} {T : Target}
    (hT : (compileTarget t (.call h [a, b])).run w = .ok (.ok T) w') :
    (t.writeForm h.kind = .property ∧ ∃ x y w₁, (compile t a).run w = .ok (.ok x) w₁ ∧
      (compile t b).run w₁ = .ok (.ok y) w' ∧ T = .property x y) ∨
    (t.writeForm h.kind = .membership ∧ ∃ x y w₁, (compile t a).run w = .ok (.ok x) w₁ ∧
      (compile t b).run w₁ = .ok (.ok y) w' ∧ T = .membership x y) ∨
    (t.writeForm h.kind = .equals ∧ ∃ S y w₁, (compileTarget t a).run w = .ok (.ok S) w₁ ∧
      (compile t b).run w₁ = .ok (.ok y) w' ∧ T = .equals S y) ∨
    (t.writeForm h.kind = .within ∧ ∃ x S w₁, (compile t a).run w = .ok (.ok x) w₁ ∧
      (compileTarget t b).run w₁ = .ok (.ok S) w' ∧ T = .within x S) := by
  unfold compileTarget at hT
  cases hf : t.writeForm h.kind with
  | property =>
    simp only [hf, compiled_bind, compiled_observed, compiled_pure] at hT
    obtain ⟨x, w₁, hx, y, w₂, hy, rfl, rfl⟩ := hT
    exact .inl ⟨rfl, x, y, w₁, hx, hy, rfl⟩
  | membership =>
    simp only [hf, compiled_bind, compiled_observed, compiled_pure] at hT
    obtain ⟨x, w₁, hx, y, w₂, hy, rfl, rfl⟩ := hT
    exact .inr (.inl ⟨rfl, x, y, w₁, hx, hy, rfl⟩)
  | equals =>
    simp only [hf, compiled_bind, compiled_observed, compiled_pure] at hT
    obtain ⟨S, w₁, hS, y, w₂, hy, rfl, rfl⟩ := hT
    exact .inr (.inr (.inl ⟨rfl, S, y, w₁, hS, hy, rfl⟩))
  | within =>
    simp only [hf, compiled_bind, compiled_observed, compiled_pure] at hT
    obtain ⟨x, w₁, hx, S, w₂, hS, rfl, rfl⟩ := hT
    exact .inr (.inr (.inr ⟨rfl, x, S, w₁, hx, hS, rfl⟩))
  | inverse f =>
    simp only [hf, wrongCount] at hT
    exact absurd hT not_compiled_throw
  | never =>
    simp only [hf] at hT
    exact absurd hT not_compiled_throw
  | unknown =>
    simp only [hf] at hT
    exact absurd hT not_compiled_throw

/-- A call with one argument is written to through an operator with an inverse. -/
theorem compileTarget_one {h : Head} {a : Node} {T : Target}
    (hT : (compileTarget t (.call h [a])).run w = .ok (.ok T) w') :
    ∃ f S, t.writeForm h.kind = .inverse f ∧ (compileTarget t a).run w = .ok (.ok S) w' ∧ T = .inverse f S := by
  unfold compileTarget at hT
  split at hT
  · rename_i f hf
    simp only [compiled_bind, compiled_pure] at hT
    obtain ⟨S, w₁, hS, rfl, rfl⟩ := hT
    exact ⟨f, S, hf, hS, rfl⟩
  · exact absurd hT not_compiled_throw
  · exact absurd hT not_compiled_throw
  · exact absurd hT not_compiled_throw

/-- A tree of any other shape is refused. -/
theorem not_compileTarget {n : Node} {T : Target} {w w' : World κ ε} (hone : ∀ h a, n ≠ .call h [a])
    (htwo : ∀ h a b, n ≠ .call h [a, b]) : (compileTarget t n).run w ≠ .ok (.ok T) w' := by
  unfold compileTarget
  split
  · rename_i h a
    exact absurd rfl (hone h a)
  · rename_i h a b
    exact absurd rfl (htwo h a b)
  · split <;> exact not_compiled_throw

namespace Meaning

variable {kind : String} {m : Meaning}

theorem of_property (h : m.writeForm kind = .property) : m = .construct .property ∨ m = .construct .get := by
  unfold writeForm at h
  repeat' split at h
  all_goals first
    | exact .inl rfl
    | exact .inr rfl
    | cases h

theorem of_membership (h : m.writeForm kind = .membership) : m = .construct .has := by
  unfold writeForm at h
  repeat' split at h
  all_goals first
    | rfl
    | cases h

theorem of_within (h : m.writeForm kind = .within) : m = .construct .within := by
  unfold writeForm at h
  repeat' split at h
  all_goals first
    | rfl
    | cases h

theorem of_equals (h : m.writeForm kind = .equals) : kind = "equals" ∧ ∃ op, m = .operator op := by
  unfold writeForm at h
  repeat' split at h
  all_goals first
    | exact ⟨by assumption, _, rfl⟩
    | cases h

theorem of_inverse {f : Value → Value} (h : m.writeForm kind = .inverse f) :
    ∃ op, m = .operator op ∧ op.inverse = some f := by
  unfold writeForm at h
  repeat' split at h
  all_goals first
    | cases h; exact ⟨_, rfl, by assumption⟩
    | cases h

end Meaning

/-- What is compiled as a target in an orderly table is compiled as an expression too, with the same containers made for its
literals, and the target writes to what the expression reads. -/
theorem OperatorTable.Orderly.compile_of_compileTarget (ht : t.Orderly) : ∀ (n : Node) {T : Target} {w w' : World κ ε},
    (compileTarget t n).run w = .ok (.ok T) w' → ∃ x, (compile t n).run w = .ok (.ok x) w' ∧ T.WritesTo t x
  | .call h [a], T, w, w', hT => by
    obtain ⟨f, S, hform, hS, rfl⟩ := compileTarget_one hT
    rw [ht.writeForm_eq] at hform
    obtain ⟨op, hm, hf⟩ := Meaning.of_inverse hform
    obtain ⟨x, hx, hwrites⟩ := ht.compile_of_compileTarget a hS
    exact ⟨_, compile_operator hm (compileAll_one hx), .inverse hm hf hwrites⟩
  | .call h [a, b], T, w, w', hT => by
    have hforms := compileTarget_two hT
    rw [ht.writeForm_eq] at hforms
    rcases hforms with ⟨hform, x, y, w₁, hx, hy, rfl⟩ | ⟨hform, x, y, w₁, hx, hy, rfl⟩ | ⟨hform, S, y, w₁, hS, hy, rfl⟩ |
      ⟨hform, x, S, w₁, hx, hS, rfl⟩
    · have hargs := compileAll_two hx hy
      rcases Meaning.of_property hform with hm | hm
      · exact ⟨_, compile_construct hm rfl hargs, .property x y⟩
      · exact ⟨_, compile_construct hm rfl hargs, .property x y⟩
    · exact ⟨_, compile_construct (Meaning.of_membership hform) rfl (compileAll_two hx hy), .membership x y⟩
    · obtain ⟨hk, op, hm⟩ := Meaning.of_equals hform
      obtain ⟨x, hx, hwrites⟩ := ht.compile_of_compileTarget a hS
      exact ⟨_, compile_operator hm (compileAll_two hx hy), .equals y (hk ▸ hm) hwrites⟩
    · obtain ⟨y, hy, hwrites⟩ := ht.compile_of_compileTarget b hS
      exact ⟨_, compile_construct (Meaning.of_within hform) rfl (compileAll_two hx hy), .within x hwrites⟩
  | .leaf h, T, w, w', hT => absurd hT (not_compileTarget (fun _ _ => nofun) fun _ _ _ => nofun)
  | .fields h fs, T, w, w', hT => absurd hT (not_compileTarget (fun _ _ => nofun) fun _ _ _ => nofun)
  | .call h [], T, w, w', hT => absurd hT (not_compileTarget (fun _ _ => nofun) fun _ _ _ => nofun)
  | .call h (_ :: _ :: _ :: _), T, w, w', hT => absurd hT (not_compileTarget (fun _ _ => nofun) fun _ _ _ => nofun)

end

/-! ## What is refused as a target -/

section

variable {t : OperatorTable} {n : Node}

theorem compileTarget_never (h : t.writeForm n.kind = .never) :
    (compileTarget t n : Binding κ ε Target) = throw (.nonInvertible n.kind) := by
  unfold compileTarget
  split <;> simp only [Node.kind, Node.head] at h ⊢ <;> rw [h]

theorem compileTarget_unknown (h : t.writeForm n.kind = .unknown) :
    (compileTarget t n : Binding κ ε Target) = throw (.compile (.unknownNode n)) := by
  unfold compileTarget
  split <;> simp only [Node.kind, Node.head] at h ⊢ <;> rw [h]

/-- In an orderly table nothing is written to a primitive, whatever operators there are. -/
theorem OperatorTable.Orderly.compileTarget_primitive (ht : t.Orderly) {p : Primitive} (h : t.meaning n.kind = .primitive p) :
    (compileTarget t n : Binding κ ε Target) = throw (.nonInvertible n.kind) := by
  refine compileTarget_never ?_
  rw [ht.writeForm_eq, h]
  rfl

/-- Nor is anything to a construct that has no form of its own. -/
theorem OperatorTable.Orderly.compileTarget_construct (ht : t.Orderly) {c : Construct}
    (hc : c ∉ [.property, .get, .has, .within]) (h : t.meaning n.kind = .construct c) :
    (compileTarget t n : Binding κ ε Target) = throw (.nonInvertible n.kind) := by
  refine compileTarget_never ?_
  rw [ht.writeForm_eq, h]
  cases c with
  | property | get | has | within => exact absurd (by decide) hc
  | _ => rfl

/-- A kind that stands for nothing is reported with its node, as it is when the tree is compiled as an expression. -/
theorem OperatorTable.Orderly.compileTarget_unknown (ht : t.Orderly) (h : t.meaning n.kind = .unknown) :
    (compileTarget t n : Binding κ ε Target) = throw (.compile (.unknownNode n)) := by
  refine LiveBindings.compileTarget_unknown ?_
  rw [ht.writeForm_eq, h]
  rfl

end

/-! ## Tables that are orderly, and others -/

/-- The standard operators are orderly. -/
theorem OperatorTable.standard_orderly : standard.Orderly where
  unhidden kind op h hinverse := by
    have hinvertible : ∀ e ∈ standard.entries, e.2.inverse.isSome → e.1 = "not" ∨ e.1 = "neg" := by decide +kernel
    have hnot : Primitive.named? "not" = none ∧ Construct.named? "not" = none := by decide
    have hneg : Primitive.named? "neg" = none ∧ Construct.named? "neg" = none := by decide
    rcases hinvertible (kind, op) (Fields.mem_of_get? h) hinverse with rfl | rfl
    · simp only [meaning, hnot, h]
    · simp only [meaning, hneg, h]
  compares := by decide +kernel

/-- One operator with an inverse, under the name of a primitive. -/
def OperatorTable.hiding : OperatorTable where
  entries := [("value", { apply := fun _ args => .bool !(Operator.operand args 0).truthy,
                          inverse := some fun v => .bool !v.truthy })]

/-- A world without containers. -/
def World.bare : World Unit Unit where
  env := ()

/-- The kind of a tree stands for a primitive, and all the same the tree is compiled as a target. -/
theorem compileTarget_hidden :
    OperatorTable.hiding.meaning "value" = .primitive .value ∧
      ∃ T, (compileTarget OperatorTable.hiding (.apply "value" [.property .value "k"])).run World.bare =
        .ok (.ok T) World.bare :=
  ⟨rfl, _, rfl⟩

/-- Where there is no operator that compares, a comparison is compiled as a target and is unknown as an expression. -/
theorem compileTarget_uncompared :
    (∃ T, (compileTarget {} (.apply "equals" [.property .value "k", .value])).run World.bare = .ok (.ok T) World.bare) ∧
      (compile {} (.apply "equals" [.property .value "k", .value])).run World.bare =
        .ok (.error (.unknownNode (.apply "equals" [.property .value "k", .value]))) World.bare :=
  ⟨⟨_, rfl⟩, rfl⟩

end LiveBindings
