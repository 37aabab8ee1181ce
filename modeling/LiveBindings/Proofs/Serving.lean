import LiveBindings.Proofs.Strokes

/-!
# An engine that makes nothing but a stroke

Starting expressions that look up and compute, binding targets and telling listeners of the kind that `World.Serves` speaks of
registers more of that kind and makes nothing but the stroke, so that what survives the stroke survives all of it
(`engine_serves`), whatever becomes of the places that are followed meanwhile.
-/

namespace LiveBindings

variable {π σ : Type} {k : Stroke} {b : Extent} {G : Contents → Prop} {w : World (Callback π) (Env π σ)} {E : Engine π σ}

/-- What is started may be kept in hand, and makes nothing but the stroke. -/
abbrev Run.Starts (k : Stroke) (b : Extent) (G : Contents → Prop) (act : Live π σ (Cancel π))
    (w : World (Callback π) (Env π σ)) : Prop :=
  act.Leads w fun handle w' => handle.Plain b ∧ w'.Serves k b G

@[simp] theorem Cancel.plain_pair {a c : Cancel π} : (Cancel.join [a, c]).Plain b ↔ a.Plain b ∧ c.Plain b := by
  simp [Cancel.Plain, Cancel.PlainAll]

theorem plain_forEach {s : Ref .slot} {outer : Cancel π} (hs : b.slots ≤ s.index) (ho : outer.Plain b) :
    (forEach s outer).Plain b :=
  Cancel.plain_pair.2 ⟨ho, hs⟩

/-! ## Following -/

section

variable (hE : E.Serves k b G) {next : Sink π} (hnext : next.Serves k b)
include hE hnext

theorem constant_serves (v : Value) (h : w.Serves k b G) : Run.Starts k b G (constant E v next) w := by
  rw [Run.Starts, constant, Run.leads_bind]
  exact (hE.emit v hnext h).imp fun _ _ h' => ⟨trivial, h'⟩

theorem Place.watch_serves (p : Place) (h : w.Serves k b G) : Run.Starts k b G (p.watch E next) w := by
  unfold Run.Starts
  cases p with
  | entry o name =>
    have hq : (Post.object o (.after name) (.forward next)).Serves k b := ⟨hnext, Or.inl ⟨name, rfl⟩⟩
    simp only [watch, followEntry, ObjectId.get, ObjectId.entries, Run.leads_bind, Run.leads_stateGet, Run.leads_pure]
    refine (hE.emit _ hnext h).imp fun _ w₁ h₁ => ?_
    exact (o.listen_serves _ hq h₁).imp fun _ _ h₂ => ⟨trivial, h₂⟩
  | key o name =>
    have hq : (Post.object o .entries (.objectHas o name next)).Serves k b := ⟨hnext, Or.inr (Or.inl rfl)⟩
    simp only [watch, followKey, ObjectId.has, ObjectId.entries, Run.leads_bind, Run.leads_stateGet, Run.leads_pure]
    refine (hE.emit _ hnext h).imp fun _ w₁ h₁ => ?_
    exact (o.listen_serves _ hq h₁).imp fun _ _ h₂ => ⟨trivial, h₂⟩
  | length l =>
    have hq : (Post.list l .length (.forward next)).Serves k b := ⟨hnext, Or.inr (Or.inl rfl)⟩
    simp only [watch, followLength, ListId.length, ListId.items, Run.leads_bind, Run.leads_get, Run.leads_pure]
    refine (hE.emit _ hnext h).imp fun _ w₁ h₁ => ?_
    exact (l.listen_serves _ hq h₁).imp fun _ _ h₂ => ⟨trivial, h₂⟩
  | item l index =>
    have hq : (Post.list l .content (.reread l index next)).Serves k b := ⟨hnext, Or.inl rfl⟩
    simp only [watch, followItem, ListId.get, ListId.items, Run.leads_bind, Run.leads_get, Run.leads_pure]
    refine (hE.emit _ hnext h).imp fun _ w₁ h₁ => ?_
    exact (l.listen_serves _ hq h₁).imp fun _ _ h₂ => ⟨trivial, h₂⟩
  | element l value =>
    have hq : (Post.list l .content (.listHas l value next)).Serves k b := ⟨hnext, Or.inl rfl⟩
    simp only [watch, followElement, ListId.contains, ListId.items, Run.leads_bind, Run.leads_get, Run.leads_pure]
    refine (hE.emit _ hnext h).imp fun _ w₁ h₁ => ?_
    exact (l.listen_serves _ hq h₁).imp fun _ _ h₂ => ⟨trivial, h₂⟩

theorem Spot.follow_serves (spot : Spot) (h : w.Serves k b G) : Run.Starts k b G (spot.follow E next) w := by
  cases spot with
  | place p => exact p.watch_serves hE hnext h
  | constant v => exact constant_serves hE hnext v h

theorem follow_serves (what : Followed) (container key : Value) (h : w.Serves k b G) :
    Run.Starts k b G (follow E what container key next) w := by
  rw [Run.Starts, Run.Leads, follow_eq]
  exact Spot.follow_serves hE hnext _ h

end

/-! ## Slots -/

theorem takeCurrent_serves {s : Ref .slot} (hs : b.slots ≤ s.index) (h : w.Serves k b G) :
    Run.Starts k b G (takeCurrent s) w := by
  simp only [Run.Starts, takeCurrent, cells, Run.leads_bind, Run.leads_get, Run.leads_pure]
  exact (modifySlot_serves (f := fun c => { c with current := .done }) h fun _ _ => trivial).imp fun _ _ h₁ => ⟨h.1.slots s hs, h₁⟩

theorem swapCurrent_serves {s : Ref .slot} {next : Cancel π} (hs : b.slots ≤ s.index) (hnext : next.Plain b)
    (h : w.Serves k b G) : Run.Starts k b G (swapCurrent s next) w := by
  simp only [Run.Starts, swapCurrent, cells, Run.leads_bind, Run.leads_get, Run.leads_pure]
  exact (modifySlot_serves (f := fun c => { c with current := next }) h fun _ _ => hnext).imp fun _ _ h₁ => ⟨h.1.slots s hs, h₁⟩

/-- The first steps of restarting a slot. -/
def clear (E : Engine π σ) (s : Ref .slot) (generation : Nat) : Live π σ Unit := do
  modifySlot s fun c => { c with generation }
  E.cancel (← takeCurrent s)

/-- The last steps of restarting a slot: what was started is kept there, unless the slot was closed or restarted meanwhile. -/
def keepIn (E : Engine π σ) (s : Ref .slot) (generation : Nat) (next : Cancel π) : Live π σ Unit := do
  let slot := (← cells).slot s
  if slot.closed || slot.generation != generation then E.cancel next
  else E.cancel (← swapCurrent s next)

/-- Restarting a slot does nothing when the slot is closed. -/
theorem restart_eq (E : Engine π σ) (s : Ref .slot) (start : Live π σ (Cancel π)) {slot : Slot π}
    (hs : w.layout.cells.slot s = slot) :
    restart E s start w = (if slot.closed then pure () else do
      clear E s (slot.generation + 1)
      start >>= keepIn E s (slot.generation + 1)) w := by
  subst hs
  simp only [clear, bind_assoc]
  rfl

theorem clear_serves (hE : E.Serves k b G) {s : Ref .slot} (generation : Nat) (hs : b.slots ≤ s.index) (h : w.Serves k b G) :
    (clear E s generation).Leads w fun _ => World.Serves k b G := by
  simp only [clear, Run.leads_bind]
  have renewed : (modifySlot s fun c => { c with generation } : Live π σ Unit).Leads w fun _ => World.Serves k b G :=
    modifySlot_serves h fun _ hp => hp
  refine renewed.imp fun _ w₁ h₁ => ?_
  exact (takeCurrent_serves hs h₁).imp fun _ w₂ h₂ => hE.cancel h₂.1 h₂.2

theorem keepIn_serves (hE : E.Serves k b G) {s : Ref .slot} {next : Cancel π} (generation : Nat) (hs : b.slots ≤ s.index)
    (hnext : next.Plain b) (h : w.Serves k b G) : (keepIn E s generation next).Leads w fun _ => World.Serves k b G := by
  simp only [keepIn, cells, Run.leads_bind, Run.leads_get, Run.leads_pure]
  split
  · exact hE.cancel hnext h
  · rw [Run.leads_bind]
    exact (swapCurrent_serves hs hnext h).imp fun _ _ h₁ => hE.cancel h₁.1 h₁.2

theorem restart_serves (hE : E.Serves k b G) {s : Ref .slot} {start : Live π σ (Cancel π)} (hs : b.slots ≤ s.index)
    (hstart : ∀ {w}, w.Serves k b G → Run.Starts k b G start w) (h : w.Serves k b G) :
    (restart E s start).Leads w fun _ => World.Serves k b G := by
  rw [Run.Leads, restart_eq E s start rfl, ← Run.Leads]
  split
  · exact h
  · simp only [Run.leads_bind]
    refine (clear_serves hE _ hs h).imp fun _ w₁ h₁ => ?_
    exact (hstart h₁).imp fun _ w₂ h₂ => keepIn_serves hE _ hs h₂.1 h₂.2

theorem closeSlot_serves (hE : E.Serves k b G) {s : Ref .slot} (hs : b.slots ≤ s.index) (h : w.Serves k b G) :
    (closeSlot E s).Leads w fun _ => World.Serves k b G := by
  simp only [closeSlot, Run.leads_bind]
  refine (modifySlot_serves (f := fun c => { c with closed := true }) h fun _ hp => hp).imp fun _ w₁ h₁ => ?_
  exact (takeCurrent_serves hs h₁).imp fun _ w₂ h₂ => hE.cancel h₂.1 h₂.2

/-! ## Starting -/

/-- Something can be started in front of every sink that makes nothing but the stroke. -/
def Starting.Serves (k : Stroke) (b : Extent) (G : Contents → Prop) (start : Starting π σ) : Prop :=
  ∀ {next : Sink π} {w}, next.Serves k b → w.Serves k b G → Run.Starts k b G (start next) w

section

variable (hE : E.Serves k b G)
include hE

theorem settle_serves {row : Ref .args} {action : ArgsAction π} (ha : action.Serves k b) (h : w.Serves k b G) :
    (settle E row action).Leads w fun _ => World.Serves k b G := by
  simp only [settle, Run.leads_bind, cells, Run.leads_get, Run.leads_pure]
  exact (h.cells rfl rfl).imp fun _ w₁ h₁ => hE.react _ ha h₁

theorem startTwo_serves {action : ArgsAction π} {first second : Starting π σ} (ha : action.Serves k b)
    (h₁ : first.Serves k b G) (h₂ : second.Serves k b G) (h : w.Serves k b G) :
    Run.Starts k b G (startTwo E action first second) w := by
  simp only [Run.Starts, startTwo, Run.leads_bind, Run.leads_pure]
  refine (newArgs_serves 2 h).imp fun row w₁ hw₁ => ?_
  refine (h₁ (show (Sink.argument row 0 action).Serves k b from ha) hw₁).imp fun _ w₂ hw₂ => ?_
  refine (h₂ (show (Sink.argument row 1 action).Serves k b from ha) hw₂.2).imp fun _ w₃ hw₃ => ?_
  exact (settle_serves hE ha hw₃.2).imp fun _ w₄ hw₄ => ⟨Cancel.plain_pair.2 ⟨hw₂.1, hw₃.1⟩, hw₄⟩

theorem startFollowing_serves (what : Followed) {container key : Starting π σ} (hc : container.Serves k b G)
    (hk : key.Serves k b G) {next : Sink π} (hnext : next.Serves k b) (h : w.Serves k b G) :
    Run.Starts k b G (startFollowing E what container key next) w := by
  simp only [Run.Starts, startFollowing, distinct, Run.leads_bind, Run.leads_pure]
  refine (newLast_serves h).imp fun last w₁ h₁ => ?_
  refine (newSlot_serves h₁).imp fun s w₂ h₂ => ?_
  have ha : (ArgsAction.follow s what (.distinct last next)).Serves k b := ⟨h₂.1, hnext⟩
  exact (startTwo_serves hE ha hc hk h₂.2).imp fun _ w₃ h₃ => ⟨plain_forEach h₂.1 h₃.1, h₃.2⟩

/-- Expressions that look up and compute. -/
theorem Expr.Computed.start_serves {x : Expr} (hx : x.Computed) (s : Scope) : Starting.Serves k b G (x.start E · s) := by
  induction hx generalizing s with
  | literal | value | parameters => exact fun hnext h => constant_serves hE hnext _ h
  | element | component =>
    intro next w hnext h
    simp only [Expr.start]
    split
    · exact Place.watch_serves hE hnext (.entry _ _) h
    · exact constant_serves hE hnext _ h
  | property _ _ iha ihb => exact fun hnext h => startFollowing_serves hE _ (iha s) (ihb s) hnext h
  | membership _ _ iha ihb => exact fun hnext h => startFollowing_serves hE _ (iha s) (ihb s) hnext h
  | within _ hb iha _ =>
    intro next w hnext h
    simp only [Run.Starts, Expr.start, Run.leads_bind, Run.leads_pure]
    refine (newSlot_serves h).imp fun slot w₁ h₁ => ?_
    have hnext' : (Sink.switch slot (.body _ s next)).Serves k b := ⟨h₁.1, hb, hnext⟩
    exact (iha s hnext' h₁.2).imp fun _ _ h₂ => ⟨plain_forEach h₁.1 h₂.1, h₂.2⟩
  | choice _ ha hb ihp _ _ =>
    intro next w hnext h
    simp only [Run.Starts, Expr.start, distinct, Run.leads_bind, Run.leads_pure]
    refine (newSlot_serves h).imp fun slot w₁ h₁ => (newLast_serves h₁.2).imp fun last w₂ h₂ => ?_
    have hnext' : (Sink.truth (.distinct last (.switch slot (.either _ _ s next)))).Serves k b := ⟨h₁.1, ha, hb, hnext⟩
    exact (ihp s hnext' h₂).imp fun _ _ h₃ => ⟨plain_forEach h₁.1 h₃.1, h₃.2⟩
  | @operator xs f _ ih =>
    -- The arguments from an index on.
    have args : ∀ (ys : List Expr) (row : Ref .args) (action : ArgsAction π) (index : Nat)
        {w : World (Callback π) (Env π σ)}, (∀ y ∈ ys, y ∈ xs) → action.Serves k b → w.Serves k b G →
          (startArgs E row action s index ys).Leads w fun handles w' => Cancel.PlainAll b handles ∧ w'.Serves k b G := by
      intro ys row action
      induction ys with
      | nil => exact fun _ {w} _ _ h => ⟨trivial, h⟩
      | cons y ys ihys =>
        intro index w hys ha h
        simp only [startArgs, Run.leads_bind, Run.leads_pure]
        refine (ih y (hys y (by simp)) s (show (Sink.argument row index action).Serves k b from ha) h).imp fun _ w₁ h₁ => ?_
        exact (ihys (index + 1) (fun y hy => hys y (by simp [hy])) ha h₁.2).imp fun _ w₂ h₂ => ⟨⟨h₁.1, h₂.1⟩, h₂.2⟩
    intro next w hnext h
    simp only [Run.Starts, Expr.start, distinct, Run.leads_bind, Run.leads_pure]
    refine (newLast_serves h).imp fun last w₁ h₁ => (newArgs_serves _ h₁).imp fun row w₂ h₂ => ?_
    have ha : (ArgsAction.compute f (.distinct last next)).Serves k b := hnext
    refine (args xs row _ 0 (fun _ h => h) ha h₂).imp fun _ w₃ h₃ => ?_
    exact (settle_serves hE ha h₃.2).imp fun _ w₄ h₄ => ⟨h₃.1, h₄⟩

/-- A source that hands on one value. -/
theorem Source.start_serves {source : Source} {v : Value} (hs : source.value? = some v) {next : Sink π}
    (hnext : next.Enters k v) (h : w.Serves k b G) : Run.Starts k b G (source.start E next) w := by
  induction source generalizing next v with
  | observe x scope =>
    cases x <;> simp only [Source.value?, Option.some.injEq, reduceCtorEq] at hs
    subst hs
    simp only [Run.Starts, Source.start, Expr.start, constant, Run.leads_bind, Run.leads_pure]
    exact (hE.hand hnext h).imp fun _ _ h' => ⟨trivial, h'⟩
  | inverse f source ih =>
    obtain ⟨u, hu, rfl⟩ := Option.map_eq_some_iff.1 hs
    exact ih hu (show (Sink.inverse f next).Enters k u from hnext)
  | guarded | gated => cases hs

theorem bindPlace_serves {container key : Expr} (hc : container.Computed) (hk : key.Computed) {source : Source}
    (hs : source.value? = some k.value) (scope : Scope) (h : w.Serves k b G) :
    Run.Starts k b G (bindPlace E k.how container key source scope) w := by
  simp only [Run.Starts, bindPlace, Run.leads_bind, Run.leads_pure]
  refine (newSlot_serves h).imp fun s w₁ h₁ => ?_
  have ha : (ArgsAction.writeTo s k.how source : ArgsAction π).Serves k b := ⟨h₁.1, rfl, hs⟩
  exact (startTwo_serves hE ha (hc.start_serves hE scope) (hk.start_serves hE scope) h₁.2).imp fun _ _ h₂ =>
    ⟨plain_forEach h₁.1 h₂.1, h₂.2⟩

theorem Target.bind_serves {t : Target} {source : Source} (ht : t.Writes k source) (scope : Scope) (h : w.Serves k b G) :
    Run.Starts k b G (t.bind E source scope) w := by
  induction t generalizing source scope w with
  | property object key =>
    obtain ⟨ho, hk, hhow, hs⟩ := ht
    rw [bind, ← hhow]
    exact bindPlace_serves hE ho hk hs scope h
  | membership collection member =>
    obtain ⟨ho, hk, hhow, hs⟩ := ht
    rw [bind, ← hhow]
    exact bindPlace_serves hE ho hk hs scope h
  | inverse f operand ih => exact ih ht scope h
  | equals => exact ht.elim
  | within context body _ =>
    simp only [Run.Starts, bind, Run.leads_bind, Run.leads_pure]
    refine (newSlot_serves h).imp fun s w₁ h₁ => ?_
    have hnext : (Sink.switch s (.target body source scope) : Sink π).Serves k b := ⟨h₁.1, ht.2⟩
    exact (ht.1.start_serves hE scope hnext h₁.2).imp fun _ _ h₂ =>
      ⟨plain_forEach h₁.1 h₂.1, h₂.2⟩

theorem Branch.start_serves {branch : Branch π} (hb : branch.Serves k b) (v : Value) (h : w.Serves k b G) :
    Run.Starts k b G (branch.start E v) w := by
  cases branch with
  | body x scope next => exact hE.start _ hb.1 hb.2 h
  | either a c scope next =>
    simp only [Branch.start]
    split
    · exact hE.start _ hb.1 hb.2.2 h
    · exact hE.start _ hb.2.1 hb.2.2 h
  | target t source scope => exact Target.bind_serves hE hb _ h
  | content | entries => exact hb.elim

end

/-! ## Values on their way -/

/-- A computation that ends well leads to what holds at its end. -/
theorem Run.Ends.leads {κ ε α : Type} {act : Run κ ε α} {w : World κ ε} {Q : α → World κ ε → Prop} (h : act.Ends w Q) :
    act.Leads w Q :=
  leads_iff.2 fun _ _ he => (ends_of_eq he).1 h

/-- A host that is idle is handed a value. -/
theorem Host.Idle.observer_serves {H : Host π σ} (hH : H.Idle) (p : π) (v : Value) (h : w.Serves k b G) :
    (H.observer E p v).Leads w fun _ => World.Serves k b G := by
  refine (hH.observer E p v w).leads.imp ?_
  rintro _ _ ⟨_, rfl⟩
  exact h

mutual

theorem Sink.emit_serves (hE : E.Serves k b G) {observer : π → Value → Live π σ Unit}
    (hO : ∀ p v {w}, w.Serves k b G → (observer p v).Leads w fun _ => World.Serves k b G)
    {w : World (Callback π) (Env π σ)} :
    ∀ {sink : Sink π}, sink.Serves k b → ∀ v : Value, w.Serves k b G →
      (sink.emit E observer v).Leads w fun _ => World.Serves k b G
  | .user p, _, v, h => hO p v h
  | .distinct last next, hs, v, h => by
    simp only [Sink.emit, cells, Run.leads_bind, Run.leads_get, Run.leads_pure]
    split
    · exact h
    · rw [Run.leads_bind]
      have stored : (setLast last v : Live π σ Unit).Leads w fun _ => World.Serves k b G := h.cells rfl rfl
      refine stored.imp fun _ w₁ h₁ => ?_
      exact next.emit_serves hE hO hs v h₁
  | .truth next, hs, v, h => next.emit_serves hE hO hs _ h
  | .argument row index action, hs, v, h => by
    simp only [Sink.emit, cells, Run.leads_bind, Run.leads_get, Run.leads_pure]
    split
    · exact h
    · rw [Run.leads_bind]
      have stored : (modifyArgs row fun c => { c with values := c.values.set index v } : Live π σ Unit).Leads w
          fun _ => World.Serves k b G := h.cells rfl rfl
      refine stored.imp fun _ w₁ h₁ => ?_
      split
      · exact action.react_serves hE hO hs _ h₁
      · exact h₁
  | .switch s branch, hs, v, h => restart_serves hE hs.1 (fun h => Branch.start_serves hE hs.2 v h) h

theorem ArgsAction.react_serves (hE : E.Serves k b G) {observer : π → Value → Live π σ Unit}
    (hO : ∀ p v {w}, w.Serves k b G → (observer p v).Leads w fun _ => World.Serves k b G)
    {w : World (Callback π) (Env π σ)} :
    ∀ {action : ArgsAction π}, action.Serves k b → ∀ vs : List Value, w.Serves k b G →
      (action.react E observer vs).Leads w fun _ => World.Serves k b G
  | .compute f next, hs, vs, h => by
    simp only [ArgsAction.react, contents, Run.leads_bind, Run.leads_get, Run.leads_pure]
    exact next.emit_serves hE hO hs _ h
  | .follow s what next, hs, vs, h => restart_serves hE hs.1 (fun h => follow_serves hE hs.2 what _ _ h) h
  | .writeTo s how source, ⟨hs, hhow, hv⟩, vs, h => by
    subst hhow
    refine restart_serves hE hs (fun h => ?_) h
    refine source.start_serves hE hv ?_ h
    exact ⟨rfl, rfl⟩

end

/-- A value that enters makes the stroke, where it is now to be made. -/
theorem Sink.hand_serves (hE : E.Serves k b G) (hs : k.Spares G) {observer : π → Value → Live π σ Unit}
    {w : World (Callback π) (Env π σ)} :
    ∀ (sink : Sink π) {v : Value}, sink.Enters k v → w.Serves k b G →
      (sink.emit E observer v).Leads w fun _ => World.Serves k b G
  | .inverse f next, v, hv, h => next.hand_serves hE hs (show next.Enters k (f v) from hv) h
  | .write _ container key, _, ⟨rfl, rfl⟩, h => write_spares hE hs container key h

/-! ## Listeners and handles -/

theorem Callback.fire_serves {H : Host π σ} (hH : H.Idle) (hE : E.Serves k b G) {callback : Callback π}
    (hc : callback.Serves k b) (event : Event) (h : w.Serves k b G) :
    (callback.fire H E event).Leads w fun _ => World.Serves k b G := by
  cases callback with
  | forward next =>
    cases event with
    | value v => exact hE.emit v hc h
    | _ => exact h
  | reread l index next =>
    simp only [Callback.fire, ListId.get, ListId.items, Run.leads_bind, Run.leads_get, Run.leads_pure]
    exact hE.emit _ hc h
  | listHas l value next =>
    simp only [Callback.fire, ListId.contains, ListId.items, Run.leads_bind, Run.leads_get, Run.leads_pure]
    exact hE.emit _ hc h
  | objectHas o key next =>
    simp only [Callback.fire, ObjectId.has, ObjectId.entries, Run.leads_bind, Run.leads_stateGet, Run.leads_pure]
    exact hE.emit _ hc h
  | user p =>
    refine (hH.listener E p event w).leads.imp ?_
    rintro _ _ ⟨_, rfl, -⟩
    exact h
  | _ => exact hc.elim

mutual

theorem Cancel.run_serves (H : Host π σ) (hE : E.Serves k b G) {w : World (Callback π) (Env π σ)} :
    ∀ {handle : Cancel π}, handle.Plain b → w.Serves k b G → (handle.run H E).Leads w fun _ => World.Serves k b G
  | .done, _, h => h
  | .unlistenList l topic id, _, h => l.unlisten_serves topic id h
  | .unlistenObject o topic id, _, h => o.unlisten_serves topic id h
  | .closeSlot _, hp, h => closeSlot_serves hE hp h
  | .join _, hp, h => Cancel.runAll_serves H hE hp h

theorem Cancel.runAll_serves (H : Host π σ) (hE : E.Serves k b G) {w : World (Callback π) (Env π σ)} :
    ∀ {handles : List (Cancel π)}, Cancel.PlainAll b handles → w.Serves k b G →
      (Cancel.runAll H E handles).Leads w fun _ => World.Serves k b G
  | [], _, h => h
  | handle :: handles, hp, h => by
    have first := Cancel.run_serves H hE hp.1 h
    unfold Run.Leads at first ⊢
    simp only [Cancel.runAll]
    cases hr : handle.run H E w with
    | ok _ w₁ =>
      rw [hr] at first
      exact Cancel.runAll_serves H hE hp.2 first
    | error e w₁ =>
      simp only
      cases Cancel.runAll H E handles w₁ <;> trivial

end

/-- When no view was given up, letting go does nothing. -/
theorem sweep_leads {w : World (Callback π) (Env π σ)} (h : w.layout.cells.orphans = []) :
    (sweep E).Leads w fun _ w' => w' = w := by
  have ho : w.env.cells.orphans = [] := h
  simp only [sweep, cells, Run.leads_bind, Run.leads_get, Run.leads_pure, ho, List.length_nil, finishOrphans]

/-- Whatever survives the stroke survives everything that makes nothing but the stroke. -/
theorem engine_serves {H : Host π σ} (hH : H.Idle) (hs : k.Spares G) (calls : Nat) : (engine H calls).Serves k b G := by
  induction calls with
  | zero => constructor <;> intros <;> trivial
  | succ calls hE =>
    have hO : ∀ p v {w}, w.Serves k b G → (H.observer (engine H calls) p v).Leads w fun _ => World.Serves k b G :=
      fun p v {_} h => hH.observer_serves p v h
    exact {
      fire := fun e _ hc h => Callback.fire_serves hH hE hc e h
      user := fun p e w => (hH.listener _ p e w).leads.imp fun _ _ ⟨s, he, _⟩ => ⟨s, he⟩
      letGo := fun w h => sweep_leads h
      emit := fun v _ hn h => Sink.emit_serves hE hO hn v h
      hand := fun hv h => Sink.hand_serves hE hs _ hv h
      react := fun vs _ ha h => ArgsAction.react_serves hE hO ha vs h
      start := fun s _ hx hn h => hx.start_serves hE s hn h
      cancel := fun hp h => Cancel.run_serves H hE hp h }

end LiveBindings
