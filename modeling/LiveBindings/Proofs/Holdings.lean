import LiveBindings.Proofs.Making
import LiveBindings.Proofs.Ownership

/-!
# What a set of bindings leads to

Compiling changes nothing that matters (`compile_quiet`), so that a definition leaves in hand just the handle of the binding
that it has started, or nothing when it fails (`BindingSet.bind_yields`). A set leads to what its installed bindings lead to:
defining adds to it, and cancelling all of them takes everything down (`BindingSet.define_yields`,
`BindingSet.cancelAll_yields`).
-/

namespace LiveBindings

open Estate

variable {π τ α β δ : Type} {P : Set (Ref .block)} {A : Set Asset} {w w' : World (Callback π) (Env π (Ledger π τ))}
  {E : Engine π (Ledger π τ)}

/-! ## Compiling -/

theorem World.estate_making :
    World.Making fun w w' : World (Callback π) (Env π (Ledger π τ)) => w'.estate = w.estate where
  refl _ := rfl
  trans h h' := h'.trans h
  list _ items := ListId.create_quiet items
  object _ entries := ObjectId.create_quiet entries

/-- A computation that may fail with a reason changes nothing that matters. -/
abbrev QuietExcept (act : ExceptT δ (Run (Callback π) (Env π (Ledger π τ))) α)
    (w : World (Callback π) (Env π (Ledger π τ))) : Prop :=
  Quiet act.run w

/-- Compiling makes containers for literals and nothing else. -/
theorem compile_quiet (t : OperatorTable) (n : Node) (w : World (Callback π) (Env π (Ledger π τ))) :
    QuietExcept (compile t n) w :=
  World.estate_making.compile_moves t n w

theorem compileAll_quiet (t : OperatorTable) (ns : List Node) (w : World (Callback π) (Env π (Ledger π τ))) :
    QuietExcept (compileAll t ns) w :=
  World.estate_making.compileAll_moves t ns w

theorem observed_quiet {c : Compiling (Callback π) (Env π (Ledger π τ)) α} (h : QuietExcept c w) :
    QuietExcept (observed c) w :=
  Run.MovesExcept.adapt (T := fun w w' => w'.estate = w.estate) _ h

theorem compileTarget_quiet (t : OperatorTable) (n : Node) (w : World (Callback π) (Env π (Ledger π τ))) :
    QuietExcept (compileTarget t n) w :=
  World.estate_making.compileTarget_moves t n w

/-! ## Bindings -/

theorem Yields.map {parts : β → Set Asset} {act : Live π (Ledger π τ) α} (g : α → β)
    (h : Yields P A act (fun a => parts (g a)) w) : Yields P A (g <$> act) parts w := fun R hR =>
  (Run.leads_map ..).2 (h R hR)

theorem Yields.discard {D : Set Asset} {act : Live π (Ledger π τ) α} (h : Yields P A act (fun _ => D) w) :
    Yields P A (Functor.discard act) (fun _ => D) w := fun R hR =>
  (Run.leads_discard ..).2 (h R hR)

/-- What follows on compiling. -/
theorem Yields.compiled {act : ExceptT δ (Run (Callback π) (Env π (Ledger π τ))) α}
    {f : α → ExceptT δ (Run (Callback π) (Env π (Ledger π τ))) β} {parts : Except δ β → Set Asset} (h : QuietExcept act w)
    (hf : ∀ a w', Yields P A (f a).run parts w') (he : ∀ e, parts (.error e) = A) : Yields P A (act >>= f).run parts w := by
  have hquiet : Run.Leads act.run w fun _ w' => w'.estate = w.estate ∧ True := Run.Leads.imp h fun _ _ he => ⟨he, trivial⟩
  refine Yields.quiet hquiet fun r w' _ _ => ?_
  cases r with
  | ok a => exact hf a w'
  | error e => exact .pure _ (he e)

/-- Views that are still being set up are not new. -/
theorem Estate.Sound.not_fresh {R X : Set Asset} {e : Estate π} (h : Sound P R e) (hX : ∀ x ∈ X, ¬e.Has x) :
    ∀ b ∈ P, .block b ∉ X :=
  fun _ hb hx => hX _ hx (h.reserved hb).1.isSome

namespace BindingSet

/-- What the bindings of a set lead to. -/
def assets (b : BindingSet π) : Set Asset := {x | x ∈ Cancel.assetsOfAll b.handles}

/-- What was started leads to, if it was. -/
def started : Except δ (Cancel π) → Set Asset
  | .ok handle => {x | x ∈ handle.assets}
  | .error _ => ∅

variable {b : BindingSet π}

theorem bindOneWay_yields (hE : E.Sound) (target : Node) (source : Expr) :
    Yields P ∅ (b.bindOneWay E target source).run started w :=
  .compiled (compileTarget_quiet _ _ w) (fun place _ => .map _ (place.bind_starts hE _ _)) fun _ => rfl

theorem bindTwoWay_yields (hE : E.Sound) (target source : Node) : Yields P ∅ (b.bindTwoWay E target source).run started w := by
  refine .compiled (compileTarget_quiet _ _ w) (fun forward w₁ => ?_) fun _ => rfl
  refine .compiled (compileTarget_quiet _ _ w₁) (fun backward w₂ => ?_) fun _ => rfl
  refine .compiled (observed_quiet (compile_quiet _ _ w₂)) (fun sourceValue w₃ => ?_) fun _ => rfl
  refine .compiled (observed_quiet (compile_quiet _ _ w₃)) (fun targetValue w₄ => .map _ ?_) fun _ => rfl
  refine newFlag_quiet.keeps.bindYields fun syncing w₅ _ => newFlag_quiet.keeps.bindYields fun ready w₆ _ => ?_
  refine (forward.bind_starts hE _ _).bind fun there w₇ _ _ => Yields.also (backward.bind_starts hE _ _) fun back w₈ _ => ?_
  refine (setFlag_quiet ready true).keeps.bindYields fun _ w₉ _ => .pure _ ?_
  ext x
  simp [started, Cancel.assets_pair, or_comm]

/-- What a definition starts is led to by the handle of the binding. -/
theorem bind_yields (hE : E.Sound) (target : Node) (d : Descriptor) : Yields P ∅ (b.bind E target d).run started w := by
  cases d with
  | oneWay source =>
    exact .compiled (observed_quiet (compile_quiet _ _ w)) (fun _ _ => bindOneWay_yields hE _ _) fun _ => rfl
  | twoWay source => exact bindTwoWay_yields hE _ _
  | compute f args =>
    exact .compiled (observed_quiet (compileAll_quiet _ _ w)) (fun _ _ => bindOneWay_yields hE _ _) fun _ => rfl

/-- What the bindings of a set lead to after a definition that may have failed. -/
def assetsAfter (b : BindingSet π) : Except δ (BindingSet π) → Set Asset
  | .ok b' => b'.assets
  | .error _ => b.assets

theorem define_yields (hE : E.Sound) (target : Node) (d : Descriptor) :
    Yields P b.assets (b.define E target d).run b.assetsAfter w := by
  refine Yields.also (bind_yields hE target d) fun r w₁ _ => ?_
  cases r with
  | ok handle =>
    refine .pure _ ?_
    ext x
    simp [assetsAfter, assets, started, handles, Cancel.assetsOfAll_eq]
  | error e => exact .pure _ (Set.union_empty _).symm

theorem defineAll_yields (hE : E.Sound) (defs : List (String × Descriptor)) :
    Yields P b.assets (b.defineAll E defs) (fun r => r.1.assets) w := by
  induction defs generalizing b w with
  | nil => exact .pure _ rfl
  | cons def_ defs ih =>
    obtain ⟨path, d⟩ := def_
    refine (define_yields hE _ d).bind fun r w₁ _ _ => ?_
    cases r with
    | ok b' => exact ih
    | error e => exact .pure _ rfl

theorem cancelInTurn_yields (hE : E.Sound) {handles : List (Cancel π)} (hP : ∀ b ∈ P, .block b ∉ Cancel.assetsOfAll handles) :
    Yields P {x | x ∈ Cancel.assetsOfAll handles} (cancelInTurn E handles) (fun _ => ∅) w := by
  induction handles generalizing w with
  | nil => exact .pure _ (by simp [Cancel.assetsOfAll])
  | cons handle handles ih =>
    have hset : {x | x ∈ Cancel.assetsOfAll (handle :: handles)} =
        {x | x ∈ handle.assets} ∪ {x | x ∈ Cancel.assetsOfAll handles} := by
      ext x
      simp [Cancel.assetsOfAll]
    rw [hset]
    refine (hE.cancel fun b hb hm => hP b hb ?_).andThen fun _ w₁ _ => ih fun b hb hm => hP b hb ?_ <;>
      simp [Cancel.assetsOfAll, hm]

theorem cancelled_yields (hE : E.Sound) (hP : ∀ b' ∈ P, .block b' ∉ b.assets) :
    Yields P b.assets (cancelInTurn E (b.installed.map (·.2)).reverse) (fun _ => ∅) w := by
  have hset : b.assets = {x | x ∈ Cancel.assetsOfAll (b.installed.map (·.2)).reverse} := by
    ext x
    simp [assets, handles, Cancel.assetsOfAll_eq]
  rw [hset] at hP ⊢
  exact cancelInTurn_yields hE hP

/-- After all bindings of a set were cancelled it leads nowhere. -/
theorem cancelAll_yields (hE : E.Sound) (hP : ∀ b' ∈ P, .block b' ∉ b.assets) :
    Yields P b.assets (b.cancelAll E) assets w :=
  (cancelled_yields hE hP).bind fun _ _ _ _ => .pure _ (by simp [assets, handles, Cancel.assetsOfAll])

/-- A set without bindings leads nowhere. -/
theorem assets_ofValue {target : Value} (h : ofValue target = .ok b) : b.assets = ∅ := by
  cases target with
  | object o =>
    cases h
    simp [assets, handles, ofObject, Cancel.assetsOfAll]
  | _ => cases h

/-- What the bindings of a new set lead to, if it was made. -/
def assetsOfNew : Except δ (BindingSet π) → Set Asset
  | .ok b => b.assets
  | .error _ => ∅

theorem create_yields (hE : E.Sound) (target : Value) (defs : List (String × Descriptor)) :
    Yields P ∅ (create E target defs) assetsOfNew w := by
  unfold create
  split
  · exact .pure _ rfl
  · rename_i b hb
    have hnone : b.assets = ∅ := assets_ofValue hb
    refine .of_sound fun hR => ?_
    rw [← hnone]
    refine (defineAll_yields hE defs).bind fun r w₁ _ hfresh => ?_
    obtain ⟨b', failure⟩ := r
    cases failure with
    | none => exact .pure _ rfl
    | some e =>
      rw [hnone] at hfresh
      have hP := hR.not_fresh fun x hx => (hfresh x hx).resolve_left id
      have hcancel : Yields P b'.assets (b'.cancelAll E) (fun _ => ∅) w₁ :=
        (cancelled_yields hE hP).bind fun _ _ _ _ => .pure _ rfl
      exact hcancel.discard.bind fun _ _ _ _ => .pure _ rfl

end BindingSet

end LiveBindings
