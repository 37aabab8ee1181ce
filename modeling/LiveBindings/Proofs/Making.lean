import LiveBindings.Proofs.Compiling
import LiveBindings.Proofs.Leads

/-!
# Compiling makes containers and nothing else

Whatever relation of worlds holds when a container is made, and is closed under composition (`World.Making`), relates the
worlds before and after compiling, whether the tree compiles or not (`World.Making.compile_moves`). A definition that fails
has done nothing but compile, so that it relates them too (`World.Making.define_fails`).
-/

namespace LiveBindings

section

variable {κ ε α β δ δ' : Type} {T : World κ ε → World κ ε → Prop} {w : World κ ε}

/-- A relation of worlds that holds when containers are made. -/
structure World.Making (T : World κ ε → World κ ε → Prop) : Prop where
  refl : ∀ w, T w w
  trans : ∀ {w w₁ w₂}, T w w₁ → T w₁ w₂ → T w w₂
  list : ∀ w items, T w { w with lists := w.lists.push { items } }
  object : ∀ w entries, T w { w with objects := w.objects.push { entries } }

/-! ## Computations that move a world by a relation -/

/-- A computation leaves a world that is in a relation to the one that it began in. -/
abbrev Run.Moves (T : World κ ε → World κ ε → Prop) (act : Run κ ε α) (w : World κ ε) : Prop := act.Leads w fun _ => T w

/-- So does one that may fail with a reason. -/
abbrev Run.MovesExcept (T : World κ ε → World κ ε → Prop) (act : ExceptT δ (Run κ ε) α) (w : World κ ε) : Prop :=
  Run.Moves T act.run w

theorem Run.Moves.lift {act : Run κ ε α} (h : Run.Moves T act w) :
    Run.MovesExcept T (ExceptT.lift act : ExceptT δ (Run κ ε) α) w := by
  change Run.Moves T (Except.ok <$> act) w
  rw [Run.Moves, Run.leads_map]
  exact h

theorem Run.MovesExcept.adapt {act : ExceptT δ (Run κ ε) α} (g : δ → δ') (h : Run.MovesExcept T act w) :
    Run.MovesExcept T (ExceptT.adapt g act) w := by
  change Run.Moves T (Except.mapError g <$> act.run) w
  rw [Run.Moves, Run.leads_map]
  exact h

namespace World.Making

variable (hT : World.Making T)

include hT

theorem pure (a : α) : Run.Moves T (Pure.pure a) w := hT.refl w

theorem bind {act : Run κ ε α} {f : α → Run κ ε β} (h : Run.Moves T act w) (hf : ∀ a w', Run.Moves T (f a) w') :
    Run.Moves T (act >>= f) w := by
  rw [Run.Moves, Run.leads_bind]
  exact Run.Leads.imp h fun a w₁ h₁ => Run.Leads.imp (hf a w₁) fun _ _ h₂ => hT.trans h₁ h₂

theorem exceptPure (a : α) : Run.MovesExcept T (Pure.pure a : ExceptT δ (Run κ ε) α) w := hT.refl w

theorem throw (e : δ) : Run.MovesExcept T (throw e : ExceptT δ (Run κ ε) α) w := hT.refl w

theorem exceptBind {act : ExceptT δ (Run κ ε) α} {f : α → ExceptT δ (Run κ ε) β} (h : Run.MovesExcept T act w)
    (hf : ∀ a w', Run.MovesExcept T (f a) w') : Run.MovesExcept T (act >>= f) w :=
  hT.bind h fun r w' => by
    cases r with
    | ok a => exact hf a w'
    | error e => exact hT.pure _

/-! ## Literals -/

mutual

theorem fromJson_moves : (j : Json) → ∀ w, Run.Moves T (fromJson j) w
  | .null, _ | .bool _, _ | .number _, _ | .text _, _ => by
    rw [fromJson]
    exact hT.pure _
  | .array js, w => by
    rw [fromJson]
    exact hT.bind (fromJsonItems_moves js w) fun items w₁ => hT.bind (hT.list w₁ items) fun _ _ => hT.pure _
  | .object ms, w => by
    rw [fromJson]
    refine hT.bind (fromJsonMembers_moves ms w) fun entries w₁ => ?_
    have made : ∀ w₂, Run.Moves T (do return Value.object (← ObjectId.create entries)) w₂ := fun w₂ =>
      hT.bind (hT.object w₂ entries) fun _ _ => hT.pure _
    split
    · exact hT.bind (Run.leads_nested (hT.refl w₁) (hT.refl w₁)) fun _ w₂ => made w₂
    · exact made w₁

theorem fromJsonItems_moves : (js : List Json) → ∀ w, Run.Moves T (fromJsonItems js) w
  | [], _ => hT.pure _
  | j :: js, w => hT.bind (fromJson_moves j w) fun _ w₁ => hT.bind (fromJsonItems_moves js w₁) fun _ _ => hT.pure _

theorem fromJsonMembers_moves : (ms : List (String × Json)) → ∀ w, Run.Moves T (fromJsonMembers ms) w
  | [], _ => hT.pure _
  | (_, j) :: ms, w => hT.bind (fromJson_moves j w) fun _ w₁ => hT.bind (fromJsonMembers_moves ms w₁) fun _ _ => hT.pure _

end

/-! ## Trees -/

theorem assemble_moves (t : OperatorTable) (n : Node) {args : Compiling κ ε (List Expr)}
    {fields : Option (Compiling κ ε (List (String × Expr)))} (ha : ∀ w, Run.MovesExcept T args w)
    (hf : ∀ c ∈ fields, ∀ w, Run.MovesExcept T c w) : Run.MovesExcept T (assemble t n args fields) w := by
  unfold assemble
  split
  · split
    · exact hT.exceptBind (Run.Moves.lift (hT.fromJson_moves _ w)) fun _ _ => hT.exceptPure _
    · exact hT.exceptPure _
  · exact hT.exceptPure _
  · exact hT.exceptPure _
  · split
    · exact hT.exceptPure _
    · exact hT.throw _
  · split
    · exact hT.exceptPure _
    · exact hT.throw _
  · split
    · exact hT.exceptBind (hf _ rfl w) fun _ _ => hT.exceptPure _
    · exact hT.throw _
  · have built : ∀ c : Construct, ∀ w, Run.MovesExcept T (do return c.build (← args)) w := fun c w =>
      hT.exceptBind (ha w) fun _ _ => hT.exceptPure _
    split
    · split
      · exact hT.exceptBind (hT.throw _) fun _ _ => built _ _
      · exact built _ w
    · exact built _ w
  · exact hT.exceptBind (ha w) fun _ _ => hT.exceptPure _
  · exact hT.throw _

mutual

theorem compile_moves (t : OperatorTable) : (n : Node) → ∀ w, Run.MovesExcept T (compile t n) w
  | .leaf h, w => by
    rw [compile]
    exact hT.assemble_moves t _ (fun _ => hT.exceptPure _) (by simp)
  | .call h ns, w => by
    rw [compile]
    exact hT.assemble_moves t _ (compileAll_moves t ns) (by simp)
  | .fields h fs, w => by
    rw [compile]
    exact hT.assemble_moves t _ (fun _ => hT.exceptPure _) (by simpa using compileFields_moves t fs)

theorem compileAll_moves (t : OperatorTable) : (ns : List Node) → ∀ w, Run.MovesExcept T (compileAll t ns) w
  | [], _ => hT.exceptPure _
  | n :: ns, w =>
    hT.exceptBind (compile_moves t n w) fun _ w₁ => hT.exceptBind (compileAll_moves t ns w₁) fun _ _ => hT.exceptPure _

theorem compileFields_moves (t : OperatorTable) : (fs : List (String × Node)) → ∀ w,
    Run.MovesExcept T (compileFields t fs) w
  | [], _ => hT.exceptPure _
  | (_, n) :: fs, w =>
    hT.exceptBind (compile_moves t n w) fun _ w₁ => hT.exceptBind (compileFields_moves t fs w₁) fun _ _ => hT.exceptPure _

end

theorem compileTarget_moves (t : OperatorTable) (n : Node) (w : World κ ε) : Run.MovesExcept T (compileTarget t n) w := by
  have part : ∀ (a : Node) w, Run.MovesExcept T (observed (compile t a)) w := fun a w => (hT.compile_moves t a w).adapt _
  have sides : ∀ (f : Expr → Expr → Target) (a b : Node) w,
      Run.MovesExcept T (do return f (← observed (compile t a)) (← observed (compile t b))) w := fun f a b w =>
    hT.exceptBind (part a w) fun _ w₁ => hT.exceptBind (part b w₁) fun _ _ => hT.exceptPure _
  fun_induction compileTarget t n generalizing w with
  | case1 h a f hform ih => exact hT.exceptBind (ih w) fun _ _ => hT.exceptPure _
  | case5 h a b | case6 h a b => exact sides _ a b w
  | case7 h a b hform ih => exact hT.exceptBind (ih w) fun _ w₁ => hT.exceptBind (part b w₁) fun _ _ => hT.exceptPure _
  | case8 h a b hform ih => exact hT.exceptBind (part a w) fun _ w₁ => hT.exceptBind (ih w₁) fun _ _ => hT.exceptPure _
  | _ => exact hT.throw _

end World.Making

end

/-! ## Definitions that fail -/

section

variable {π σ α β δ : Type} {w : World (Callback π) (Env π σ)}

theorem World.adds_making : World.Making (World.Adds (π := π) (σ := σ)) where
  refl := .refl
  trans := .trans
  list w items := (Run.ends_of_eq rfl).1 (ListId.create_ends (w := w) items)
  object w entries := (Run.ends_of_eq rfl).1 (ObjectId.create_ends (w := w) entries)

/-- A computation that fails with a reason has moved the world by a relation. -/
def FailsBy (T : World (Callback π) (Env π σ) → World (Callback π) (Env π σ) → Prop)
    (act : ExceptT δ (Run (Callback π) (Env π σ)) α) (w : World (Callback π) (Env π σ)) : Prop :=
  act.run.Leads w fun r w' => ∀ e, r = .error e → T w w'

variable {T : World (Callback π) (Env π σ) → World (Callback π) (Env π σ) → Prop}

theorem FailsBy.lift (act : Live π σ α) :
    FailsBy T (ExceptT.lift act : ExceptT δ (Run (Callback π) (Env π σ)) α) w := by
  change Run.Leads (Except.ok <$> act) w _
  rw [Run.leads_map, Run.leads_iff]
  exact fun _ _ _ _ he => nomatch he

namespace World.Making

variable (hT : World.Making T)

include hT

/-- What follows on compiling fails after no more than compiling. -/
theorem failsAfter {act : ExceptT δ (Run (Callback π) (Env π σ)) α}
    {f : α → ExceptT δ (Run (Callback π) (Env π σ)) β} (h : Run.MovesExcept T act w) (hf : ∀ a w', FailsBy T (f a) w') :
    FailsBy T (act >>= f) w := by
  change Run.Leads (act.run >>= _) w _
  rw [Run.leads_bind]
  refine Run.Leads.imp h fun r w₁ h₁ => ?_
  cases r with
  | ok a => exact (hf a w₁).imp fun _ _ h₂ e he => hT.trans h₁ (h₂ e he)
  | error e => exact fun _ _ => h₁

variable {E : Engine π σ} {b : BindingSet π}

theorem bindOneWay_fails (target : Node) (source : Expr) : FailsBy T (b.bindOneWay E target source) w :=
  hT.failsAfter (hT.compileTarget_moves _ _ w) fun _ _ => .lift _

theorem bindTwoWay_fails (target source : Node) : FailsBy T (b.bindTwoWay E target source) w := by
  refine hT.failsAfter (hT.compileTarget_moves _ _ w) fun _ w₁ => ?_
  refine hT.failsAfter (hT.compileTarget_moves _ _ w₁) fun _ w₂ => ?_
  refine hT.failsAfter ((hT.compile_moves _ _ w₂).adapt _) fun _ w₃ => ?_
  exact hT.failsAfter ((hT.compile_moves _ _ w₃).adapt _) fun _ _ => .lift _

theorem bind_fails (target : Node) (d : Descriptor) : FailsBy T (b.bind E target d) w := by
  cases d with
  | oneWay source => exact hT.failsAfter ((hT.compile_moves _ _ w).adapt _) fun _ _ => hT.bindOneWay_fails _ _
  | twoWay source => exact hT.bindTwoWay_fails _ _
  | compute f args => exact hT.failsAfter ((hT.compileAll_moves _ _ w).adapt _) fun _ _ => hT.bindOneWay_fails _ _

/-- A definition that fails has only made containers. -/
theorem define_fails (target : Node) (d : Descriptor) : FailsBy T (b.define E target d) w := by
  change Run.Leads ((b.bind E target d).run >>= _) w _
  rw [Run.leads_bind]
  refine Run.Leads.imp (hT.bind_fails target d) fun r w₁ h₁ => ?_
  cases r with
  | ok handle => exact fun _ he => nomatch he
  | error e => exact fun _ _ => h₁ e rfl

end World.Making

end

end LiveBindings
