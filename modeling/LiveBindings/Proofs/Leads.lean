import LiveBindings.Store.List
import LiveBindings.Store.Object

/-!
# What a computation leads to

`Run.Leads act w Q` says that a computation started in `w` ends in a result and a world of which `Q` holds, unless it is
abandoned. It is followed step by step as `Run.Ends` is. What every callback keeps, whatever else it does, the operations of
the store keep as well: the lemmas on passes and dispatches take the callbacks as they are.
-/

namespace LiveBindings

variable {κ ε α β : Type}

/-- The computation is abandoned, or ends with a result and a world of which `Q` holds. -/
def Run.Leads (act : Run κ ε α) (w : World κ ε) (Q : α → World κ ε → Prop) : Prop :=
  match act w with
  | .ok a w' => Q a w'
  | .error _ _ => True

namespace Run

variable {w : World κ ε} {Q : α → World κ ε → Prop}

/-- What holds at the end may be weakened. -/
theorem Leads.imp {act : Run κ ε α} {Q' : α → World κ ε → Prop} (h : act.Leads w Q) (hQ : ∀ a w', Q a w' → Q' a w') :
    act.Leads w Q' := by
  unfold Leads at h ⊢
  cases hw : act w with
  | ok a w' => rw [hw] at h; exact hQ a w' h
  | error e w' => trivial

/-- What a computation leads to holds of every result that it returns. -/
theorem leads_iff {act : Run κ ε α} : act.Leads w Q ↔ ∀ a w', act w = .ok a w' → Q a w' := by
  unfold Leads
  cases act w with
  | ok a w' => exact ⟨fun h _ _ he => by cases he; exact h, fun h => h a w' rfl⟩
  | error e w' => exact ⟨fun _ _ _ he => (nomatch he), fun _ => trivial⟩

theorem Leads.of_eq {act : Run κ ε α} (h : act.Leads w Q) {a : α} {w' : World κ ε} (he : act w = .ok a w') : Q a w' :=
  leads_iff.1 h a w' he

@[simp] theorem leads_pure (a : α) : (pure a : Run κ ε α).Leads w Q ↔ Q a w := Iff.rfl

@[simp] theorem leads_bind (act : Run κ ε α) (f : α → Run κ ε β) (Q : β → World κ ε → Prop) :
    (act >>= f).Leads w Q ↔ act.Leads w fun a w' => (f a).Leads w' Q := by
  unfold Leads
  simp only [bind, EStateM.bind]
  cases act w <;> rfl

@[simp] theorem leads_map (f : α → β) (act : Run κ ε α) (Q : β → World κ ε → Prop) :
    (f <$> act).Leads w Q ↔ act.Leads w fun a w' => Q (f a) w' := by
  unfold Leads
  simp only [Functor.map, EStateM.map]
  cases act w <;> rfl

@[simp] theorem leads_discard (act : Run κ ε α) (Q : PUnit → World κ ε → Prop) :
    (discard act).Leads w Q ↔ act.Leads w fun _ w' => Q ⟨⟩ w' := by
  unfold Leads
  simp only [discard, Functor.discard, Functor.mapConst, Function.comp, EStateM.map]
  cases act w <;> rfl

@[simp] theorem leads_get (Q : World κ ε → World κ ε → Prop) : (get : Run κ ε _).Leads w Q ↔ Q w w := Iff.rfl

@[simp] theorem leads_stateGet (Q : World κ ε → World κ ε → Prop) : Run.Leads EStateM.get w Q ↔ Q w w := Iff.rfl

@[simp] theorem leads_set (w' : World κ ε) (Q : PUnit → World κ ε → Prop) :
    (set w' : Run κ ε PUnit).Leads w Q ↔ Q ⟨⟩ w' := Iff.rfl

@[simp] theorem leads_modify (f : World κ ε → World κ ε) (Q : PUnit → World κ ε → Prop) :
    (modify f : Run κ ε PUnit).Leads w Q ↔ Q ⟨⟩ (f w) := Iff.rfl

@[simp] theorem leads_modifyGet (f : World κ ε → α × World κ ε) :
    (modifyGet f : Run κ ε α).Leads w Q ↔ Q (f w).1 (f w).2 := Iff.rfl

@[simp] theorem leads_throw (e : Fault) : (throw e : Run κ ε α).Leads w Q := trivial

@[simp] theorem leads_restoring (restore : World κ ε → World κ ε) (act : Run κ ε α) :
    (restoring restore act).Leads w Q ↔ act.Leads w fun a w' => Q a (restore w') := by
  simp only [Leads, restoring]
  cases act w <;> rfl

/-- A dispatch tells nobody at the limit, and below it runs one level deeper. -/
theorem leads_nested {container : Kind} {silent act : Run κ ε α} (hs : silent.Leads w Q)
    (ha : act.Leads { w with depth := w.depth + 1 } fun a w' => Q a { w' with depth := w'.depth - 1 }) :
    (nested container silent act).Leads w Q := by
  simp only [nested, leads_bind, leads_get]
  split
  · split
    · exact hs
    · exact leads_throw _
  · simpa only [leads_restoring, leads_bind, leads_modify] using ha

theorem leads_withHeld {callbacks : List κ} {act : Run κ ε α} :
    (withHeld callbacks act).Leads w Q ↔
      act.Leads { w with held := callbacks ++ w.held } fun a w' => Q a { w' with held := w.held } := by
  simp [withHeld]

theorem leads_holding {R : Reactions κ ε} {callbacks : List κ} {act : Run κ ε α} :
    (holding R callbacks act).Leads w Q ↔
      act.Leads { w with held := callbacks ++ w.held } fun a w' =>
        R.letGo.Leads { w' with held := w.held } fun _ w'' => Q a w'' := by
  simp [holding, leads_withHeld]

end Run

/-! ## Outcomes -/

/-- One more dispatch is in flight. -/
def World.deeper (w : World κ ε) : World κ ε := { w with depth := w.depth + 1 }

/-- One dispatch less is in flight. -/
def World.shallower (w : World κ ε) : World κ ε := { w with depth := w.depth - 1 }

/-- What comes of a computation: why it was abandoned, or its result and the world that it leaves. -/
def Run.outcome (act : Run κ ε α) (w : World κ ε) : Except Fault (α × World κ ε) :=
  match act w with
  | .ok a w' => .ok (a, w')
  | .error e _ => .error e

namespace Run

@[simp] theorem outcome_pure (a : α) (w : World κ ε) : (pure a : Run κ ε α).outcome w = pure (a, w) := rfl

@[simp] theorem outcome_modify (f : World κ ε → World κ ε) (w : World κ ε) :
    (modify f : Run κ ε PUnit).outcome w = pure (⟨⟩, f w) := rfl

@[simp] theorem outcome_bind (act : Run κ ε α) (f : α → Run κ ε β) (w : World κ ε) :
    (act >>= f).outcome w = act.outcome w >>= fun p => (f p.1).outcome p.2 := by
  unfold outcome
  simp only [bind, EStateM.bind]
  cases act w <;> rfl

@[simp] theorem outcome_map (f : α → β) (act : Run κ ε α) (w : World κ ε) :
    (f <$> act).outcome w = (fun p => (f p.1, p.2)) <$> act.outcome w := by
  unfold outcome
  simp only [Functor.map, EStateM.map]
  cases act w <;> rfl

@[simp] theorem outcome_discard (act : Run κ ε α) (w : World κ ε) :
    (discard act).outcome w = (act.outcome w).map fun p => (⟨⟩, p.2) := by
  unfold outcome
  simp only [discard, Functor.discard, Functor.mapConst, Function.comp, EStateM.map]
  cases act w <;> rfl

@[simp] theorem outcome_restoring (restore : World κ ε → World κ ε) (act : Run κ ε α) (w : World κ ε) :
    (restoring restore act).outcome w = (fun p => (p.1, restore p.2)) <$> act.outcome w := by
  unfold outcome restoring
  cases act w <;> rfl

theorem of_outcome_map {out : Except Fault (α × World κ ε)} {f : α → β} {b : β} {w' : World κ ε}
    (h : (out.map fun p => (f p.1, p.2)) = .ok (b, w')) : ∃ a, out = .ok (a, w') ∧ f a = b := by
  cases out with
  | error e => cases h
  | ok p =>
    cases h
    exact ⟨p.1, rfl, rfl⟩

theorem outcome_same (out : Except Fault (α × World κ ε)) : out = out.map fun p => (id p.1, p.2) := by
  cases out <;> rfl

theorem outcome_nested (container : Kind) (silent act : Run κ ε α) (w : World κ ε) :
    (nested container silent act).outcome w =
      if w.config.maxDispatchDepth ≤ w.depth then
        match w.config.onDepthExceeded with
        | .skip => silent.outcome w
        | .panic => .error (.depthLimit container w.depth)
      else (fun p => (p.1, p.2.shallower)) <$> act.outcome w.deeper := by
  rw [nested, outcome_bind]
  change (if _ then _ else _ : Run κ ε α).outcome w = _
  split
  · cases w.config.onDepthExceeded <;> rfl
  · rw [outcome_restoring, outcome_bind, outcome_modify]
    rfl

/-- Below the limit a dispatch runs one level deeper. -/
theorem leads_nested_below {container : Kind} {silent act : Run κ ε α} {w : World κ ε} {Q : α → World κ ε → Prop}
    (hd : w.depth < w.config.maxDispatchDepth) :
    (nested container silent act).Leads w Q ↔ act.Leads w.deeper fun a w' => Q a w'.shallower := by
  simp only [nested, leads_bind, leads_get, if_neg (Nat.not_le.2 hd), leads_restoring, leads_modify]
  rfl

theorem leads_iff_outcome {act : Run κ ε α} {w : World κ ε} {Q : α → World κ ε → Prop} :
    act.Leads w Q ↔ ∀ a w', act.outcome w = .ok (a, w') → Q a w' := by
  unfold outcome Leads
  cases act w with
  | ok a w' => exact ⟨fun h _ _ he => by cases he; exact h, fun h => h a w' rfl⟩
  | error e w' => exact ⟨fun _ _ _ he => (nomatch he), fun _ => trivial⟩

theorem Leads.of_outcome {act : Run κ ε α} {w w' : World κ ε} {a : α} {Q : α → World κ ε → Prop} (h : act.Leads w Q)
    (ho : act.outcome w = .ok (a, w')) : Q a w' := by
  unfold outcome at ho
  unfold Leads at h
  cases hw : act w with
  | ok b w₁ =>
    rw [hw] at ho h
    cases ho
    exact h
  | error e w₁ =>
    rw [hw] at ho
    cases ho

end Run

/-! ## Passes over captured listeners -/

/-- The callbacks keep `I`, as does what follows when they are let go. -/
structure Reactions.Keeps (R : Reactions κ ε) (I : World κ ε → Prop) : Prop where
  fire : ∀ callback e w, I w → (R.fire callback e).Leads w fun _ => I
  letGo : ∀ w, I w → R.letGo.Leads w fun _ => I

/-- What can be said of a world without looking at its lists and at the dispatches in flight. -/
structure World.Lasting (I : World κ ε → Prop) : Prop where
  held : ∀ w held, I w → I { w with held }
  depth : ∀ w depth, I w → I { w with depth }
  nextListener : ∀ w nextListener, I w → I { w with nextListener }
  list : ∀ w l f, I w → I (World.modifyList l f w)

/-- What can be said of a world without looking at the items of its lists and at the dispatches in flight. -/
structure World.Steady (I : World κ ε → Prop) : Prop where
  held : ∀ w held, I w → I { w with held }
  depth : ∀ w depth, I w → I { w with depth }
  list : ∀ w l (f : ListCell κ → ListCell κ), (∀ c, (f c).listeners = c.listeners) → I w → I (World.modifyList l f w)

/-- What can be said of a world without looking at the dispatches in flight. -/
structure World.Calm (I : World κ ε → Prop) : Prop where
  held : ∀ w held, I w → I { w with held }
  depth : ∀ w depth, I w → I { w with depth }
  dispatching : ∀ w l (f : Nat → Nat), I w → I (World.modifyList l (fun c => { c with dispatching := f c.dispatching }) w)

theorem World.Lasting.steady {I : World κ ε → Prop} (h : World.Lasting I) : World.Steady I :=
  ⟨h.held, h.depth, fun w l f _ => h.list w l f⟩

theorem World.Steady.calm {I : World κ ε → Prop} (h : World.Steady I) : World.Calm I :=
  ⟨h.held, h.depth, fun w l _ => h.list w l _ fun _ => rfl⟩

/-- The callbacks that are registered under some topics keep `I`, as does what follows when callbacks are let go. -/
structure Reactions.Upholds (R : Reactions κ ε) (T : ListTopic → Prop) (T' : ObjectTopic → Prop) (I : World κ ε → Prop) :
    Prop where
  calm : World.Calm I
  list : ∀ {w l lst}, I w → lst ∈ (w.listCell l).listeners → T lst.topic →
    ∀ e w', I w' → (R.fire lst.callback e).Leads w' fun _ => I
  object : ∀ {w o lst}, I w → lst ∈ (w.objectCell o).listeners → T' lst.topic →
    ∀ e w', I w' → (R.fire lst.callback e).Leads w' fun _ => I
  letGo : ∀ w, I w → R.letGo.Leads w fun _ => I

/-- The callbacks that are registered with one list under some topics keep `I`, as do the bookkeeping of a dispatch of that list and
what follows when callbacks are let go. -/
structure Reactions.UpholdsOn (R : Reactions κ ε) (l : ListId) (T : ListTopic → Prop) (I : World κ ε → Prop) : Prop where
  held : ∀ w held, I w → I { w with held }
  depth : ∀ w depth, I w → I { w with depth }
  dispatching : ∀ w (f : Nat → Nat), I w → I (World.modifyList l (fun c => { c with dispatching := f c.dispatching }) w)
  fire : ∀ {w lst}, I w → lst ∈ (w.listCell l).listeners → T lst.topic →
    ∀ e w', I w' → (R.fire lst.callback e).Leads w' fun _ => I
  letGo : ∀ w, I w → R.letGo.Leads w fun _ => I

theorem Reactions.Upholds.on {R : Reactions κ ε} {T : ListTopic → Prop} {T' : ObjectTopic → Prop} {I : World κ ε → Prop}
    (h : R.Upholds T T' I) (l : ListId) : R.UpholdsOn l T I where
  held := h.calm.held
  depth := h.calm.depth
  dispatching w f := h.calm.dispatching w l f
  fire := h.list
  letGo := h.letGo

theorem Reactions.Keeps.upholds {R : Reactions κ ε} {I : World κ ε → Prop} (h : R.Keeps I) (hI : World.Steady I) :
    R.Upholds (fun _ => True) (fun _ => True) I :=
  ⟨hI.calm, fun _ _ _ => h.fire _, fun _ _ _ => h.fire _, h.letGo⟩

section

variable {τ : Type} {R : Reactions κ ε} {I : World κ ε → Prop} {registered : World κ ε → ListenerId → Bool} {e : Event}
  {w : World κ ε}

theorem tell_leads {l : Listener τ κ} (hfire : ∀ w, I w → (R.fire l.callback e).Leads w fun _ => I) (h : I w) :
    (tell R registered e l).Leads w fun _ => I := by
  unfold tell
  rw [Run.leads_bind, Run.leads_get]
  split
  · exact hfire _ h
  · exact h

theorem tellAll_leads {ls : List (Listener τ κ)} (hfire : ∀ l ∈ ls, ∀ w, I w → (R.fire l.callback e).Leads w fun _ => I)
    (h : I w) : (tellAll R registered e ls).Leads w fun _ => I := by
  induction ls generalizing w with
  | nil => exact h
  | cons l ls ih =>
    rw [tellAll, Run.leads_bind]
    exact (tell_leads (hfire l (by simp)) h).imp fun _ _ h' => ih (fun l hl => hfire l (by simp [hl])) h'

theorem holding_leads (hI : ∀ w held, I w → I { w with held }) (hR : ∀ w, I w → R.letGo.Leads w fun _ => I) {callbacks : List κ}
    {act : Run κ ε α} (ha : ∀ w, I w → act.Leads w fun _ => I) (h : I w) : (holding R callbacks act).Leads w fun _ => I := by
  rw [Run.leads_holding]
  refine (ha _ (hI _ _ h)).imp fun _ w₁ h₁ => ?_
  exact hR _ (hI _ _ h₁)

theorem tellInTurn_leads (hI : ∀ w held, I w → I { w with held }) (hR : ∀ w, I w → R.letGo.Leads w fun _ => I) {ls : List (Listener τ κ)}
    (hfire : ∀ l ∈ ls, ∀ w, I w → (R.fire l.callback e).Leads w fun _ => I) (h : I w) :
    (tellInTurn R registered e ls).Leads w fun _ => I := by
  induction ls generalizing w with
  | nil => exact h
  | cons l ls ih =>
    rw [tellInTurn, Run.leads_bind, Run.leads_withHeld]
    have turn : (holding R [l.callback] (tell R registered e l)).Leads
        { w with held := ls.map (·.callback) ++ w.held } fun _ => I :=
      holding_leads hI hR (fun _ hw => tell_leads (hfire l (by simp)) hw) (hI _ _ h)
    exact turn.imp fun _ w₁ h₁ => ih (fun l hl => hfire l (by simp [hl])) (hI _ _ h₁)

end

end LiveBindings
