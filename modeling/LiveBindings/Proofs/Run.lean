import LiveBindings.Store.List
import LiveBindings.Store.Object

/-!
# Computations that end

`Run.Ends act w Q` says that a computation started in `w` is not abandoned and leaves a result and a world of which `Q` holds.
It is an equation for every combinator of the store, so that a computation is followed step by step by rewriting with the
lemmas below; a loop over captured listeners is followed by an invariant on the listeners that are still to be told.
-/

namespace LiveBindings

variable {κ ε α β : Type}

/-- The computation ends, with a result and a world of which `Q` holds. -/
def Run.Ends (act : Run κ ε α) (w : World κ ε) (Q : α → World κ ε → Prop) : Prop :=
  match act w with
  | .ok a w' => Q a w'
  | .error _ _ => False

namespace Run

variable {w : World κ ε} {Q : α → World κ ε → Prop}

/-- What holds at the end may be weakened. -/
theorem Ends.imp {act : Run κ ε α} {Q' : α → World κ ε → Prop} (h : act.Ends w Q) (hQ : ∀ a w', Q a w' → Q' a w') :
    act.Ends w Q' := by
  unfold Ends at h ⊢
  cases hw : act w with
  | ok a w' => rw [hw] at h; exact hQ a w' h
  | error e w' => rw [hw] at h; exact h

/-- A computation ends exactly when it returns some result. -/
theorem ends_iff {act : Run κ ε α} : act.Ends w Q ↔ ∃ a w', act w = .ok a w' ∧ Q a w' := by
  unfold Ends
  cases act w with
  | ok a w' => exact ⟨fun h => ⟨a, w', rfl, h⟩, fun ⟨_, _, h, hQ⟩ => by cases h; exact hQ⟩
  | error e w' => exact ⟨False.elim, fun ⟨_, _, h, _⟩ => by cases h⟩

theorem ends_of_eq {act : Run κ ε α} {a : α} {w' : World κ ε} (h : act w = .ok a w') : act.Ends w Q ↔ Q a w' := by
  simp [Ends, h]

instance decidableEnds {act : Run κ ε α} [∀ a w', Decidable (Q a w')] : Decidable (act.Ends w Q) :=
  match h : act w with
  | .ok a w' => decidable_of_iff (Q a w') (ends_of_eq h).symm
  | .error _ _ => isFalse fun hends => by simp [Ends, h] at hends

@[simp] theorem ends_pure (a : α) : (pure a : Run κ ε α).Ends w Q ↔ Q a w := Iff.rfl

@[simp] theorem ends_bind (act : Run κ ε α) (f : α → Run κ ε β) (Q : β → World κ ε → Prop) :
    (act >>= f).Ends w Q ↔ act.Ends w fun a w' => (f a).Ends w' Q := by
  unfold Ends
  simp only [bind, EStateM.bind]
  cases act w <;> rfl

@[simp] theorem ends_map (f : α → β) (act : Run κ ε α) (Q : β → World κ ε → Prop) :
    (f <$> act).Ends w Q ↔ act.Ends w fun a w' => Q (f a) w' := by
  unfold Ends
  simp only [Functor.map, EStateM.map]
  cases act w <;> rfl

@[simp] theorem ends_discard (act : Run κ ε α) (Q : PUnit → World κ ε → Prop) :
    (discard act).Ends w Q ↔ act.Ends w fun _ w' => Q ⟨⟩ w' := by
  unfold Ends
  simp only [discard, Functor.discard, Functor.mapConst, Function.comp, EStateM.map]
  cases act w <;> rfl

@[simp] theorem ends_get (Q : World κ ε → World κ ε → Prop) : (get : Run κ ε _).Ends w Q ↔ Q w w := Iff.rfl

@[simp] theorem ends_stateGet (Q : World κ ε → World κ ε → Prop) : Run.Ends EStateM.get w Q ↔ Q w w := Iff.rfl

@[simp] theorem ends_set (w' : World κ ε) (Q : PUnit → World κ ε → Prop) :
    (set w' : Run κ ε PUnit).Ends w Q ↔ Q ⟨⟩ w' := Iff.rfl

@[simp] theorem ends_modify (f : World κ ε → World κ ε) (Q : PUnit → World κ ε → Prop) :
    (modify f : Run κ ε PUnit).Ends w Q ↔ Q ⟨⟩ (f w) := Iff.rfl

@[simp] theorem ends_modifyGet (f : World κ ε → α × World κ ε) :
    (modifyGet f : Run κ ε α).Ends w Q ↔ Q (f w).1 (f w).2 := Iff.rfl

@[simp] theorem ends_throw (e : Fault) : (throw e : Run κ ε α).Ends w Q ↔ False := Iff.rfl

@[simp] theorem ends_restoring (restore : World κ ε → World κ ε) (act : Run κ ε α) :
    (restoring restore act).Ends w Q ↔ act.Ends w fun a w' => Q a (restore w') := by
  simp only [Ends, restoring]
  cases act w <;> rfl

/-- A dispatch below the limit runs one level deeper. -/
theorem ends_nested {container : Kind} {silent act : Run κ ε α} (h : w.depth < w.config.maxDispatchDepth) :
    (nested container silent act).Ends w Q ↔
      act.Ends { w with depth := w.depth + 1 } fun a w' => Q a { w' with depth := w'.depth - 1 } := by
  simp [nested, Nat.not_le.mpr h]

theorem ends_withHeld {callbacks : List κ} {act : Run κ ε α} :
    (withHeld callbacks act).Ends w Q ↔
      act.Ends { w with held := callbacks ++ w.held } fun a w' => Q a { w' with held := w.held } := by
  simp [withHeld]

theorem ends_holding {R : Reactions κ ε} {callbacks : List κ} {act : Run κ ε α} :
    (holding R callbacks act).Ends w Q ↔
      act.Ends { w with held := callbacks ++ w.held } fun a w' =>
        R.letGo.Ends { w' with held := w.held } fun _ w'' => Q a w'' := by
  simp [holding, ends_withHeld]

end Run

/-! ## Passes over captured listeners -/

section

variable {τ : Type} {R : Reactions κ ε} {registered : World κ ε → ListenerId → Bool} {e : Event}

/-- A pass keeps what every turn keeps: `I` relates the listeners that are still to be told to the world. -/
theorem tellAll_ends {I : List (Listener τ κ) → World κ ε → Prop} {ls : List (Listener τ κ)} {w : World κ ε}
    (turn : ∀ l ls w, I (l :: ls) w → (tell R registered e l).Ends w fun _ => I ls) (h : I ls w) :
    (tellAll R registered e ls).Ends w fun _ => I [] := by
  induction ls generalizing w with
  | nil => exact h
  | cons l ls ih =>
    rw [tellAll, Run.ends_bind]
    exact (turn l ls w h).imp fun _ w' h' => ih h'

/-- A pass in which every callback is let go in its turn keeps what every turn keeps, if `I` does not look at the callbacks
that are held. -/
theorem tellInTurn_ends {I : List (Listener τ κ) → World κ ε → Prop} {ls : List (Listener τ κ)} {w : World κ ε}
    (held : ∀ ls w h, I ls w → I ls { w with held := h })
    (turn : ∀ l ls w, I (l :: ls) w → (tell R registered e l).Ends w fun _ => I ls)
    (letGo : ∀ ls w, I ls w → R.letGo.Ends w fun _ => I ls) (h : I ls w) :
    (tellInTurn R registered e ls).Ends w fun _ => I [] := by
  induction ls generalizing w with
  | nil => exact h
  | cons l ls ih =>
    rw [tellInTurn, Run.ends_bind, Run.ends_withHeld, Run.ends_holding]
    refine (turn l ls _ (held _ _ _ (held _ _ _ h))).imp fun _ w₁ h₁ => ?_
    refine (letGo ls _ (held _ _ _ h₁)).imp fun _ w₂ h₂ => ?_
    exact ih (held _ _ _ h₂)

end

end LiveBindings
