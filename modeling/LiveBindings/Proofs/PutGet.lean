import LiveBindings.Proofs.Arithmetic
import LiveBindings.Proofs.Binders
import LiveBindings.Proofs.Presence
import LiveBindings.Proofs.Targets

/-!
# Writing and reading back

A tree of properties, elements and keys, with `not`, `neg` and `with` over them, is compiled twice: as a target that is written
through, and as an expression that is read (`Target.Puts`, `Node.Writable.puts`). A value that is handed to the binder goes down
through the inverses, becomes what was written at the place, and goes up again when it is read (`Target.returned`); what can be read
through the tree at all is the same after the whole way (`Target.Turns.returned_same`). So the observer reports the value
(`Node.Writable.put_get`), if the binder and the observer come to the same place. They need not where the container is written in the
tree itself, which each compilation makes anew (`writeThenRead_literal`).
-/

namespace LiveBindings

variable {π σ : Type}

/-! ## Values on the way down and back -/

namespace Value

/-- A number of the other sign. -/
def opposite (v : Value) : Value := .number v.toNumber.neg

/-- A function that is its own inverse: truth values are negated, or numbers given the other sign. -/
inductive Turning : (Value → Value) → Prop
  | negated : Turning negated
  | opposite : Turning opposite

/-- A truth value or a number. -/
def Counts : Value → Prop
  | bool _ | number _ => True
  | _ => False

theorem Counts.truthy_opposite {v : Value} (h : v.Counts) : v.opposite.truthy = v.truthy := by
  cases v with
  | bool b => cases b <;> decide
  | number n => simp [opposite, toNumber, truthy, Number.isZero, Number.isNaN]
  | _ => exact h.elim

theorem truthy_toNumber_bool (t : Bool) : (number (bool t).toNumber).truthy = t := by cases t <;> decide

theorem negated_toNumber_negated (v : Value) : (number v.negated.toNumber).negated = v.negated.negated := by
  simp only [negated, truthy_toNumber_bool]
  rfl

theorem Turning.same {f : Value → Value} (hf : Turning f) {a b : Value} (h : a.same b = true) : (f a).same (f b) = true := by
  cases hf with
  | negated => simp [Value.negated, truthy_eq_of_same h]
  | opposite => exact Number.neg_same (toNumber_same h)

end Value

namespace Target

/-- The functions on the way to the place turn values, and nothing is compared. -/
def Turns : Target → Prop
  | property _ _ | membership _ _ => True
  | inverse f operand => Value.Turning f ∧ operand.Turns
  | equals _ _ => False
  | within _ body => body.Turns

/-- What is read through a target, by what is at the place. -/
def passed : Target → Value → Value
  | inverse f operand, v => f (operand.passed v)
  | within _ body, v => body.passed v
  | equals left _, v => left.passed v
  | property _ _, v | membership _ _, v => v

/-- What comes back of a value that is written and read. -/
def returned (T : Target) (v : Value) : Value := T.passed (T.stroke v).result

/-- The values that can be read through a target. -/
inductive Shows : Target → Value → Prop
  | property {a k : Expr} (v : Value) : Shows (.property a k) v
  | membership {a m : Expr} (t : Bool) : Shows (.membership a m) (.bool t)
  | inverse {f : Value → Value} {T : Target} {v : Value} : Shows T v → Shows (.inverse f T) (f v)
  | within {x : Expr} {T : Target} {v : Value} : Shows T v → Shows (.within x T) v

theorem Turns.passed_same {T : Target} (h : T.Turns) {a b : Value} (hab : a.same b = true) :
    (T.passed a).same (T.passed b) = true := by
  induction T with
  | property | membership => exact hab
  | inverse f operand ih => exact h.1.same (ih h.2)
  | equals => exact h.elim
  | within context body ih => exact ih h

/-- A truth value or number that is written comes back as one that is as true. -/
theorem Turns.returned_truthy {T : Target} (h : T.Turns) {v : Value} (hv : v.Counts) :
    (T.returned v).Counts ∧ (T.returned v).truthy = v.truthy := by
  induction T generalizing v with
  | property => exact ⟨hv, rfl⟩
  | membership => exact ⟨trivial, rfl⟩
  | inverse f operand ih =>
    obtain ⟨hf, ho⟩ := h
    change (f (operand.returned (f v))).Counts ∧ (f (operand.returned (f v))).truthy = v.truthy
    cases hf with
    | negated =>
      have key := (ih ho (v := v.negated) trivial).2
      refine ⟨trivial, ?_⟩
      simp only [Value.negated, Value.truthy] at key ⊢
      rw [key, Bool.not_not]
    | opposite =>
      have key := ih ho (v := v.opposite) trivial
      exact ⟨trivial, key.1.truthy_opposite.trans (key.2.trans hv.truthy_opposite)⟩
  | equals => exact h.elim
  | within context body ih => exact ih h hv

/-- What is negated, written, read and negated again is as it was. -/
theorem Turns.negated_returned {T : Target} (h : T.Turns) (v : Value) :
    (T.returned v.negated.negated).negated = v.negated := by
  have key := (h.returned_truthy (v := v.negated.negated) trivial).2
  rw [Value.negated, key]
  simp [Value.negated, Value.truthy]

/-- When the number of a value that can be read is written, what comes back has the same number. -/
theorem Turns.returned_number {T : Target} (h : T.Turns) {v : Value} (hv : T.Shows v) :
    (T.returned (.number v.toNumber)).toNumber.same v.toNumber = true := by
  induction hv with
  | property v => exact Number.same_refl _
  | membership t =>
    change (Value.bool (Value.number (Value.bool t).toNumber).truthy).toNumber.same (Value.bool t).toNumber = true
    rw [Value.truthy_toNumber_bool]
    exact Number.same_refl _
  | @inverse f T v _ ih =>
    obtain ⟨hf, ho⟩ := h
    change (f (T.returned (f (.number (f v).toNumber)))).toNumber.same (f v).toNumber = true
    cases hf with
    | negated =>
      rw [Value.negated_toNumber_negated, ho.negated_returned]
      exact Number.same_refl _
    | opposite =>
      simp only [Value.opposite, Value.toNumber, Number.neg_neg]
      exact Number.neg_same (ih ho)
  | within _ ih => exact ih h

/-- A value that can be read comes back the same. -/
theorem Turns.returned_same {T : Target} (h : T.Turns) {v : Value} (hv : T.Shows v) : (T.returned v).same v = true := by
  induction hv with
  | property v => exact Value.same_refl v
  | membership t => exact Value.same_refl _
  | @inverse f T v hv _ =>
    obtain ⟨hf, ho⟩ := h
    change (f (T.returned (f (f v)))).same (f v) = true
    cases hf with
    | negated =>
      rw [ho.negated_returned]
      exact Value.same_refl _
    | opposite =>
      simp only [Value.opposite, Value.toNumber, Number.neg_neg]
      exact Number.neg_same (ho.returned_number hv)
  | within _ ih => exact ih h

end Target

/-! ## What can be written and read -/

/-- Where the value of an expression that can be written to is found. -/
def Expr.spot (c : Contents) : Expr → Scope → Spot
  | .property a b, s => Followed.property.spot c (a.denote c s) (b.denote c s)
  | .membership a b, s => Followed.membership.spot c (a.denote c s) (b.denote c s)
  | .operator _ [x], s => x.spot c s
  | .within a x, s => x.spot c (s.nest (a.denote c s))
  | _, _ => .constant .undefined

/-- A target, and an expression that reads what the target writes when both come to the same place. -/
inductive Target.Puts : Target → Expr → Prop
  | property {a b x y : Expr} : a.Computed → b.Computed → x.Computed → y.Computed → Puts (.property a b) (.property x y)
  | membership {a b x y : Expr} : a.Computed → b.Computed → x.Computed → y.Computed → Puts (.membership a b) (.membership x y)
  | inverse {f : Value → Value} {op : OperatorFunction} {T : Target} {X : Expr} :
      Value.Turning f → (∀ c v, op c [v] = f v) → Puts T X → Puts (.inverse f T) (.operator op [X])
  | within {a x : Expr} {T : Target} {X : Expr} : a.Computed → x.Computed → Puts T X → Puts (.within a T) (.within x X)

namespace Target.Puts

variable {T : Target} {X : Expr}

theorem turns (h : T.Puts X) : T.Turns := by
  induction h with
  | property | membership => trivial
  | inverse hf _ _ ih => exact ⟨hf, ih⟩
  | within _ _ _ ih => exact ih

theorem computed (h : T.Puts X) : X.Computed := by
  induction h with
  | property _ _ hx hy => exact .property hx hy
  | membership _ _ hx hy => exact .membership hx hy
  | inverse _ _ _ ih => exact .operator _ (by simpa using ih)
  | within _ hx _ ih => exact .within hx ih

/-- A value that is written makes one stroke. -/
theorem writes (h : T.Puts X) {source : Source} {v : Value} (hs : source.value? = some v) : T.Writes (T.stroke v) source := by
  induction h generalizing source v with
  | property ha hb => exact ⟨ha, hb, rfl, hs⟩
  | membership ha hb => exact ⟨ha, hb, rfl, hs⟩
  | @inverse f op T X _ _ _ ih =>
    have hsource : (Source.inverse f source).value? = some (f v) := by rw [Source.value?, hs]; rfl
    exact ih hsource
  | within ha _ _ ih => exact ⟨ha, ih hs⟩

/-- The expression reads what is found at its place through the target. -/
theorem denote (h : T.Puts X) (c : Contents) (s : Scope) : X.denote c s = T.passed ((X.spot c s).read c) := by
  induction h generalizing s with
  | property => exact (Followed.spot_read_self .property c _ _).symm
  | membership => exact (Followed.spot_read_self .membership c _ _).symm
  | inverse _ hop _ ih =>
    simp only [Expr.denote, Expr.denoteAll, hop, Target.passed, Expr.spot]
    rw [ih]
  | within _ _ _ ih => exact ih _

/-- What is read can be read through the target. -/
theorem shows (h : T.Puts X) (c : Contents) (s : Scope) : T.Shows (X.denote c s) := by
  induction h generalizing s with
  | property => exact .property _
  | @membership a b x y =>
    simp only [Expr.denote, Contents.membership]
    split <;> exact .membership _
  | inverse _ hop _ ih =>
    simp only [Expr.denote, Expr.denoteAll, hop]
    exact .inverse (ih s)
  | within _ _ _ ih => exact .within (ih _)

end Target.Puts

/-! ## Trees -/

/-- The kinds of nodes that look up or compute, and make no containers but those of literals. -/
def Meaning.Computes : Meaning → Prop
  | .primitive p => p ≠ .record
  | .construct c => c ∈ [.property, .get, .has, .within, .choice, .rangeContent, .mapContent]
  | .operator _ => True
  | .unknown => False

namespace Node

/-- Every node of a tree looks up or computes. -/
inductive Computed : Node → Prop
  | leaf {h : Head} : (OperatorTable.standard.meaning h.kind).Computes → Computed (.leaf h)
  | call {h : Head} {ns : List Node} :
      (OperatorTable.standard.meaning h.kind).Computes → (∀ n ∈ ns, Computed n) → Computed (.call h ns)
  | fields {h : Head} {fs : List (String × Node)} :
      (OperatorTable.standard.meaning h.kind).Computes → Computed (.fields h fs)

/-- A tree built from `property`, `get` and `has`, with `not`, `neg` and `with` over them. -/
inductive Writable : Node → Prop
  | property {h : Head} {a b : Node} : h.kind = "property" ∨ h.kind = "get" → a.Computed → b.Computed → Writable (.call h [a, b])
  | membership {h : Head} {a b : Node} : h.kind = "has" → a.Computed → b.Computed → Writable (.call h [a, b])
  | inverse {h : Head} {a : Node} : h.kind = "not" ∨ h.kind = "neg" → Writable a → Writable (.call h [a])
  | within {h : Head} {a b : Node} : h.kind = "with" → a.Computed → Writable b → Writable (.call h [a, b])

end Node

section

variable {κ ε : Type} {t : OperatorTable} {w w' : World κ ε}

theorem computed_build {c : Construct} (hc : (Meaning.construct c).Computes) {xs : List Expr} (hxs : ∀ x ∈ xs, x.Computed) :
    (c.build xs).Computed := by
  have harg : ∀ i, (xs.getD i (.literal .undefined)).Computed := fun i => by
    rw [List.getD_eq_getElem?_getD]
    cases hi : xs[i]? with
    | none => exact .literal _
    | some x => exact hxs x (List.mem_of_getElem? hi)
  simp only [Meaning.Computes, List.mem_cons, List.not_mem_nil, or_false] at hc
  rcases hc with rfl | rfl | rfl | rfl | rfl | rfl | rfl
  · exact .property (harg 0) (harg 1)
  · exact .property (harg 0) (harg 1)
  · exact .membership (harg 0) (harg 1)
  · exact .within (harg 0) (harg 1)
  · exact .choice (harg 0) (harg 1) (harg 2)
  · exact harg 0
  · exact harg 0

/-- What a node comes to when it looks up or computes. -/
theorem assemble_computed {node : Node} {args : Compiling κ ε (List Expr)}
    {fields : Option (Compiling κ ε (List (String × Expr)))} (hk : (t.meaning node.kind).Computes)
    (hargs : ∀ xs w₁, args.run w = .ok (.ok xs) w₁ → ∀ x ∈ xs, x.Computed) {x : Expr}
    (h : (assemble t node args fields).run w = .ok (.ok x) w') : x.Computed := by
  have built : ∀ f : List Expr → Expr, (∀ xs, (∀ x ∈ xs, x.Computed) → (f xs).Computed) →
      (do return f (← args) : Compiling κ ε Expr).run w = .ok (.ok x) w' → x.Computed := by
    intro f hf hrun
    obtain ⟨xs, w₁, hxs, hpure⟩ := compiled_bind.1 hrun
    obtain ⟨rfl, -⟩ := compiled_pure.1 hpure
    exact hf xs (hargs xs w₁ hxs)
  unfold assemble at h
  cases hm : t.meaning node.kind with
  | unknown => exact (hm ▸ hk : Meaning.unknown.Computes).elim
  | primitive p =>
    simp only [hm] at h
    cases p with
    | literal =>
      cases hv : node.head.value with
      | none =>
        simp only [hv, compiled_pure] at h
        exact h.1 ▸ .literal _
      | some j =>
        simp only [hv] at h
        obtain ⟨v, w₁, -, hpure⟩ := compiled_bind.1 h
        obtain ⟨rfl, -⟩ := compiled_pure.1 hpure
        exact .literal v
    | value => exact (compiled_pure.1 h).1 ▸ .value
    | parameters => exact (compiled_pure.1 h).1 ▸ .parameters
    | element =>
      cases hi : node.head.id with
      | none =>
        simp only [hi] at h
        exact absurd h not_compiled_throw
      | some id =>
        simp only [hi, compiled_pure] at h
        exact h.1 ▸ .element id
    | component =>
      cases hl : node.head.label with
      | none =>
        simp only [hl] at h
        exact absurd h not_compiled_throw
      | some label =>
        simp only [hl, compiled_pure] at h
        exact h.1 ▸ .component label
    | record => exact absurd rfl (hm ▸ hk : (Meaning.primitive .record).Computes)
  | construct c =>
    have hc : (Meaning.construct c).Computes := hm ▸ hk
    simp only [hm] at h
    refine built c.build (fun xs => computed_build hc) ?_
    cases harity : c.arity with
    | none => simpa only [harity] using h
    | some expected =>
      simp only [harity] at h
      split at h
      · obtain ⟨u, _, hthrow, -⟩ := compiled_bind.1 h
        exact absurd hthrow not_compiled_throw
      · exact h
  | operator op =>
    simp only [hm] at h
    exact built (.operator op.apply) (fun xs hxs => .operator _ hxs) h

/-! ## Compiled parts -/

theorem compiledAll_forall {P : Expr → Prop} {ns : List Node} {xs : List Expr}
    (hP : ∀ n ∈ ns, ∀ w w' x, (compile t n : Compiling κ ε Expr).run w = .ok (.ok x) w' → P x)
    (h : (compileAll t ns).run w = .ok (.ok xs) w') : ∀ x ∈ xs, P x := by
  induction ns generalizing xs w w' with
  | nil =>
    unfold compileAll at h
    obtain ⟨rfl, -⟩ := compiled_pure.1 h
    intro x hx
    cases hx
  | cons n ns ih =>
    unfold compileAll at h
    simp only [compiled_bind, compiled_pure] at h
    obtain ⟨x, w₁, hx, xs', w₂, hxs, rfl, -⟩ := h
    exact List.forall_mem_cons.2
      ⟨hP n List.mem_cons_self w w₁ x hx, ih (fun m hm => hP m (List.mem_cons_of_mem n hm)) hxs⟩

theorem compiledAll_one {a : Node} {xs : List Expr} (h : (compileAll t [a]).run w = .ok (.ok xs) w') :
    ∃ x, (compile t a).run w = .ok (.ok x) w' ∧ xs = [x] := by
  unfold compileAll at h
  unfold compileAll at h
  simp only [compiled_bind, compiled_pure] at h
  obtain ⟨x, w₁, hx, _, _, ⟨rfl, rfl⟩, rfl, rfl⟩ := h
  exact ⟨x, hx, rfl⟩

theorem compiledAll_two {a b : Node} {xs : List Expr} (h : (compileAll t [a, b]).run w = .ok (.ok xs) w') :
    ∃ x y w₁, (compile t a).run w = .ok (.ok x) w₁ ∧ (compile t b).run w₁ = .ok (.ok y) w' ∧ xs = [x, y] := by
  unfold compileAll at h
  simp only [compiled_bind, compiled_pure] at h
  obtain ⟨x, w₁, hx, ys, w₂, hys, rfl, rfl⟩ := h
  obtain ⟨y, hy, rfl⟩ := compiledAll_one hys
  exact ⟨x, y, w₁, hx, hy, rfl⟩

/-- What a call of a construct has been compiled to. -/
theorem compiled_construct {h : Head} {c : Construct} {ns : List Node} {x : Expr} (hm : t.meaning h.kind = .construct c)
    (hx : (compile t (.call h ns)).run w = .ok (.ok x) w') :
    ∃ xs, (compileAll t ns).run w = .ok (.ok xs) w' ∧ x = c.build xs := by
  have hm' : t.meaning (Node.call h ns).kind = .construct c := hm
  unfold compile assemble at hx
  simp only [hm'] at hx
  have hbuilt : ∀ {w₁}, (do return c.build (← compileAll t ns) : Compiling κ ε Expr).run w₁ = .ok (.ok x) w' →
      ∃ xs, (compileAll t ns).run w₁ = .ok (.ok xs) w' ∧ x = c.build xs := by
    intro w₁ h
    simp only [compiled_bind, compiled_pure] at h
    obtain ⟨xs, w₂, hxs, rfl, rfl⟩ := h
    exact ⟨xs, hxs, rfl⟩
  cases harity : c.arity with
  | none => exact hbuilt (by simpa only [harity] using hx)
  | some expected =>
    simp only [harity] at hx
    split at hx
    · obtain ⟨u, _, hthrow, -⟩ := compiled_bind.1 hx
      exact absurd hthrow not_compiled_throw
    · exact hbuilt hx

theorem compiled_operator {h : Head} {op : Operator} {ns : List Node} {x : Expr} (hm : t.meaning h.kind = .operator op)
    (hx : (compile t (.call h ns)).run w = .ok (.ok x) w') :
    ∃ xs, (compileAll t ns).run w = .ok (.ok xs) w' ∧ x = .operator op.apply xs := by
  have hm' : t.meaning (Node.call h ns).kind = .operator op := hm
  unfold compile assemble at hx
  simp only [hm', compiled_bind, compiled_pure] at hx
  obtain ⟨xs, w₂, hxs, rfl, rfl⟩ := hx
  exact ⟨xs, hxs, rfl⟩

/-- A tree whose nodes look up and compute is compiled to an expression that does. -/
theorem Node.Computed.compiled {a : Node} (ha : a.Computed) {w w' : World κ ε} {x : Expr}
    (h : (compile .standard a).run w = .ok (.ok x) w') : x.Computed := by
  induction ha generalizing w w' x with
  | leaf hk =>
    unfold compile at h
    refine assemble_computed hk (fun xs w₁ hxs => ?_) h
    obtain ⟨rfl, -⟩ := compiled_pure.1 hxs
    intro y hy
    cases hy
  | call hk _ ih =>
    unfold compile at h
    exact assemble_computed hk (fun xs w₁ hxs => compiledAll_forall (fun n hn _ _ _ hx => ih n hn hx) hxs) h
  | fields hk =>
    unfold compile at h
    refine assemble_computed hk (fun xs w₁ hxs => ?_) h
    obtain ⟨rfl, -⟩ := compiled_pure.1 hxs
    intro y hy
    cases hy

end

/-! ## Two compilations of one tree -/

section

variable {κ ε : Type}

/-- The operators that are written through are their own inverses. -/
theorem OperatorTable.meaning_turning {kind : String} (h : kind = "not" ∨ kind = "neg") :
    ∃ op f, standard.meaning kind = .operator op ∧ standard.writeForm kind = .inverse f ∧ Value.Turning f ∧
      ∀ c v, op.apply c [v] = f v := by
  rcases h with rfl | rfl
  · exact ⟨_, Value.negated, rfl, rfl, .negated, fun _ _ => rfl⟩
  · exact ⟨_, Value.opposite, rfl, rfl, .opposite, fun _ _ => rfl⟩

/-- A tree that is compiled once as a target and once as an expression is written to and read alike. -/
theorem Node.Writable.puts {a : Node} (ha : a.Writable) {w₁ w₂ w₃ w₄ : World κ ε} {T : Target} {X : Expr}
    (hT : (compileTarget .standard a).run w₁ = .ok (.ok T) w₂) (hX : (compile .standard a).run w₃ = .ok (.ok X) w₄) :
    T.Puts X := by
  induction ha generalizing w₁ w₂ w₃ w₄ T X with
  | @property h a b hk ha hb =>
    have hform : OperatorTable.standard.writeForm h.kind = .property := by rcases hk with hk | hk <;> rw [hk] <;> rfl
    obtain ⟨c, hm, hbuild⟩ : ∃ c, OperatorTable.standard.meaning h.kind = .construct c ∧
        ∀ x y, c.build [x, y] = .property x y := by
      rcases hk with hk | hk <;> rw [hk] <;> exact ⟨_, rfl, fun _ _ => rfl⟩
    obtain ⟨xs, hxs, rfl⟩ := compiled_construct hm hX
    obtain ⟨x, y, _, hx, hy, rfl⟩ := compiledAll_two hxs
    rcases compileTarget_two hT with ⟨-, o, k, _, ho, hk, rfl⟩ | ⟨h', -⟩ | ⟨h', -⟩ | ⟨h', -⟩
    · rw [hbuild]
      exact .property (ha.compiled ho) (hb.compiled hk) (ha.compiled hx) (hb.compiled hy)
    all_goals cases hform.symm.trans h'
  | @membership h a b hk ha hb =>
    have hform : OperatorTable.standard.writeForm h.kind = .membership := by rw [hk]; rfl
    have hm : OperatorTable.standard.meaning h.kind = .construct .has := by rw [hk]; rfl
    obtain ⟨xs, hxs, rfl⟩ := compiled_construct hm hX
    obtain ⟨x, y, _, hx, hy, rfl⟩ := compiledAll_two hxs
    rcases compileTarget_two hT with ⟨h', -⟩ | ⟨-, o, m, _, ho, hm, rfl⟩ | ⟨h', -⟩ | ⟨h', -⟩
    · cases hform.symm.trans h'
    · exact .membership (ha.compiled ho) (hb.compiled hm) (ha.compiled hx) (hb.compiled hy)
    all_goals cases hform.symm.trans h'
  | @inverse h a hk _ ih =>
    obtain ⟨op, f, hm, hform, hturning, happly⟩ := OperatorTable.meaning_turning hk
    obtain ⟨xs, hxs, rfl⟩ := compiled_operator hm hX
    obtain ⟨x, hx, rfl⟩ := compiledAll_one hxs
    obtain ⟨g, S, h', hS, rfl⟩ := compileTarget_one hT
    cases hform.symm.trans h'
    exact .inverse hturning happly (ih hS hx)
  | @within h a b hk ha _ ih =>
    have hform : OperatorTable.standard.writeForm h.kind = .within := by rw [hk]; rfl
    have hm : OperatorTable.standard.meaning h.kind = .construct .within := by rw [hk]; rfl
    obtain ⟨xs, hxs, rfl⟩ := compiled_construct hm hX
    obtain ⟨x, y, _, hx, hy, rfl⟩ := compiledAll_two hxs
    rcases compileTarget_two hT with ⟨h', -⟩ | ⟨h', -⟩ | ⟨h', -⟩ | ⟨-, o, S, _, ho, hS, rfl⟩
    · cases hform.symm.trans h'
    · cases hform.symm.trans h'
    · cases hform.symm.trans h'
    · exact .within (ha.compiled ho) (ha.compiled hx) (ih hS hy)

end

/-! ## Writing, then reading -/

section

variable {k : Stroke} {b : Extent} {w w' : World (Callback π) (Env π σ)}

-- Only the slots of an extent are looked at, so that the recursions are the same ones.
theorem Sink.serves_extent (sink : Sink π) (lists objects : Nat) :
    sink.Serves k { b with lists, objects } = sink.Serves k b := by
  delta Sink.Serves
  rfl

theorem Cancel.plain_extent (handle : Cancel π) (lists objects : Nat) :
    handle.Plain { b with lists, objects } = handle.Plain b := by
  delta Cancel.Plain
  rfl

theorem Post.serves_extent (q : Post π) (lists objects : Nat) : q.Serves k { b with lists, objects } = q.Serves k b := by
  have hcallback : ∀ callback : Callback π, callback.Serves k { b with lists, objects } = callback.Serves k b := fun callback => by
    cases callback <;> simp only [Callback.Serves, Sink.serves_extent]
  cases q <;> simp only [Serves, hcallback]

/-- New containers lead to nothing. -/
theorem World.Adds.serves (h : w.Adds w') (hw : w.layout.Serves k b) :
    w'.layout.Serves k { b with lists := w'.layout.lists, objects := w'.layout.objects } where
  posts hq := Eq.mpr (Post.serves_extent _ _ _) (hw.posts (h.posted.1 hq))
  slots s hs := Eq.mpr (Cancel.plain_extent _ _ _) (h.cells ▸ hw.slots s hs)
  size := h.cells ▸ hw.size
  orphans := h.cells ▸ hw.orphans
  lists := rfl
  objects := rfl

/-- Places that there were read as before. -/
theorem World.Adds.read (h : w.Adds w') (hw : w.layout.Serves k b) {p : Place} (hp : p.Found b) :
    p.read w'.contents = p.read w.contents := by
  cases p with
  | entry o name => simp only [Place.read, h.entries o (hw.objects.symm ▸ hp)]
  | length => exact hp.elim
  | item l index => simp only [Place.read, h.items l (hw.lists.symm ▸ hp)]
  | element l v => simp only [Place.read, h.items l (hw.lists.symm ▸ hp)]
  | key o name => simp only [Place.read, h.entries o (hw.objects.symm ▸ hp)]

end

theorem Host.recorder_idle : Host.recorder.Idle where
  listener _ _ _ w := ⟨w.env.host, rfl, trivial⟩
  observer _ _ v w := ⟨w.env.host ++ [v], rfl⟩

section

variable {κ ε : Type} {H : Host π σ} {q : π} {log : σ → List Value} {a : Node} {T : Target} {X : Expr} {v : Value}
  {u u' r r' : World κ ε} {w w₁ w₂ : World (Callback π) (Env π σ)} {b : Extent} {n : Nat} {s s₀ : Scope} {handle : Cancel π}
  {p : Place}

/-- A value is handed to a binder for a tree, and then an observer of the same tree is started. If both come to the same place of a
container, the observer reports the value: through `not` and `neg` the way down to the place is undone on the way back, for every
value that can be read through the tree at all. -/
theorem Node.Writable.put_get (hH : H.Idle) (hlog : H.Records q log) (ha : a.Writable)
    (hT : (compileTarget .standard a).run u = .ok (.ok T) u') (hX : (compile .standard a).run r = .ok (.ok X) r')
    (hv : ∃ c s, X.denote c s = v) (hw : w.layout.Serves (T.stroke v) b) (hn : 2 * T.size ≤ n) (hn' : 2 * X.size ≤ n)
    (hbind : T.bind (engine H n) (.observe (.literal v) s₀) s w = .ok handle w₁) (hadds : w₁.Adds w₂) (hp : p.Found b)
    (hput : T.spot w.contents s = .place p) (hget : X.spot w₂.contents s = .place p) :
    (X.start (engine H n) (.user q) s).Ends w₂ fun _ w₃ =>
      ∃ v', log w₃.env.host = log w₂.env.host ++ [v'] ∧ v'.same v = true := by
  have hputs : T.Puts X := ha.puts hT hX
  have hshows : T.Shows v := by
    obtain ⟨c, s, rfl⟩ := hv
    exact hputs.shows c s
  have hwrites : T.Writes (T.stroke v) (.observe (.literal v) s₀) := hputs.writes rfl
  obtain ⟨hw₁, hread⟩ := (Target.bind_leaves hH hwrites hn hw hput hp).of_eq hbind
  refine (hputs.computed.reports hH hlog s hn' (hadds.serves hw₁)).imp fun _ w₃ hreported => ⟨_, hreported, ?_⟩
  have hplace : (p.read w₂.contents).same (T.stroke v).result = true := by
    rw [hadds.read hw₁ hp]
    exact hread
  have hseen : X.denote w₂.contents s = T.passed (p.read w₂.contents) := by
    rw [hputs.denote, hget]
    rfl
  rw [hseen]
  exact Value.same_trans (hputs.turns.passed_same hplace) (hputs.turns.returned_same hshows)

/-- Whether an object lacks a key is written and read. -/
theorem Node.Writable.put_get_key :
    let a : Node := .apply "not" [.apply "has" [.value, .literal (.text "a")]]
    let s : Scope := { value := .object ⟨0⟩ }
    ∃ T X handle w, (compileTarget .standard a).run World.bare = .ok (.ok T) World.bare ∧
      (compile .standard a).run World.bare = .ok (.ok X) World.bare ∧
      T.bind (engine Host.recorder 12) (.observe (.literal (.bool false)) s) s (World.fresh [[]] []) = .ok handle w ∧
      (X.start (engine Host.recorder 12) (.user ()) s).Ends w fun _ w' =>
        ∃ v', w'.env.host = w.env.host ++ [v'] ∧ v'.same (.bool false) = true := by
  intro a s
  have ha : a.Writable := .inverse (.inl rfl) (.membership rfl (.leaf nofun) (.leaf nofun))
  have hw : (World.fresh [[]] [] : World (Callback Unit) (Env Unit (List Value))).layout.Serves ⟨.toggle, .bool true⟩ ⟨0, 0, 1⟩ :=
    ⟨fun hq => absurd hq (World.not_posted_fresh _ _), fun _ _ => trivial, Nat.zero_le _, rfl, rfl, rfl⟩
  let T : Target := .inverse Value.negated (.membership .value (.literal (.text "a")))
  obtain ⟨handle, w, hbind⟩ : ∃ handle w, T.bind (engine Host.recorder 12) (.observe (.literal (.bool false)) s) s
      (World.fresh [[]] []) = .ok handle w := by
    have hends : (T.bind (engine Host.recorder 12) (.observe (.literal (.bool false)) s) s).Ends (World.fresh [[]] [])
        fun _ _ => True := by decide +kernel
    obtain ⟨handle, w, h, -⟩ := Run.ends_iff.1 hends
    exact ⟨handle, w, h⟩
  have hT : (compileTarget .standard a).run World.bare = .ok (.ok T) World.bare := rfl
  have hX : (compile .standard a).run World.bare = .ok (.ok _) World.bare := rfl
  refine ⟨T, _, handle, w, hT, hX, hbind, ?_⟩
  exact Node.Writable.put_get (v := .bool false) (p := .key ⟨0⟩ "a") Host.recorder_idle Host.recorder_records ha hT hX
    ⟨(World.fresh [[("a", .null)]] [] : World (Callback Unit) (Env Unit (List Value))).contents, s, by decide +kernel⟩ hw
    (by decide) (by decide) hbind (.refl w) Nat.zero_lt_one rfl rfl

end

/-- Compiles a tree as a target and hands a value to the binder; then compiles the tree as an expression and observes it. -/
def writeThenRead (E : Engine π σ) (a : Node) (v : Value) (s : Scope) (q : π) : Live π σ Bool := do
  let .ok T ← (compileTarget .standard a).run | return false
  discard <| T.bind E (.observe (.literal v) s) s
  let .ok X ← (compile .standard a).run | return false
  discard <| X.start E (.user q) s
  return true

/-- A list that is written in the tree is made twice: the binder adds an element to the one, and the observer looks for it in the
other, though the tree can well be read as true. -/
theorem writeThenRead_literal :
    let a : Node := .apply "has" [.literal (.array [.text "a"]), .property .value "x"]
    let s : Scope := { value := .object ⟨0⟩ }
    let reading : World Unit Unit := { objects := #[{ entries := [("x", .text "a")] }], env := () }
    a.Writable ∧
      (∃ X w, (compile .standard a).run reading = .ok (.ok X) w ∧ X.denote w.contents s = .bool true) ∧
      (writeThenRead (engine Host.recorder 12) a (.bool true) s ()).Ends (World.fresh [[("x", .text "b")]] [])
        fun done w => done = true ∧ w.env.host = [.bool false] := by
  intro a s reading
  have ha : a.Writable := by
    refine .membership rfl (.leaf nofun) (.call ?_ ?_)
    · exact List.mem_cons_self
    · simpa using ⟨.leaf nofun, .leaf nofun⟩
  exact ⟨ha, ⟨_, _, rfl, by decide +kernel⟩, by decide +kernel⟩

end LiveBindings
