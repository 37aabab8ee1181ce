import LiveBindings.Observe.Fire
import LiveBindings.Proofs.Starting

/-!
# Every engine keeps order

Whatever an engine is asked to do keeps what there is (`engine_sound`), if the program that it runs in does so when it is called
(`Host.Sound`): by induction on the number of calls that may be nested.
-/

namespace LiveBindings

open Estate

variable {π τ α : Type} {P : Set (Ref .block)} {w w' : World (Callback π) (Env π (Ledger π τ))} {E : Engine π (Ledger π τ)}
  {next : Sink π}

/-! ## Sources and targets -/

theorem Source.start_starts (hE : E.Sound) (s : Source) : Begins (s.start (π := π) E ·) := by
  induction s with
  | observe x scope => exact Expr.start_starts hE x scope
  | guarded x scope syncing ready => exact fun P w sink hs => Expr.start_starts hE x scope P w (.guarded syncing ready sink) hs
  | inverse f s ih => exact fun P w sink hs => ih P w (.inverse f sink) hs
  | gated s right scope ih => exact fun P w sink hs => startTwo_starts hs hE ih (Expr.start_starts hE right scope)

theorem bindPlace_starts (hE : E.Sound) (how : Writing) (container key : Expr) (source : Source) (scope : Scope) :
    Starts P (bindPlace E how container key source scope) w :=
  forEach_starts fun s w₁ _ hslot =>
    startTwo_starts (by simpa [ArgsAction.refs] using hslot) hE (Expr.start_starts hE container scope)
      (Expr.start_starts hE key scope)

theorem Target.bind_starts (hE : E.Sound) (t : Target) (source : Source) (scope : Scope) :
    Starts P (t.bind E source scope) w := by
  induction t generalizing source scope w with
  | property object key | membership collection member => exact bindPlace_starts hE _ _ _ _ _
  | inverse f operand ih => exact ih _ _
  | equals left right ih => exact ih _ _
  | within context body _ =>
    refine forEach_starts fun s w₁ _ hslot => Expr.start_starts hE context scope _ _ (.switch s (.target body source scope)) ?_
    simpa [Sink.refs, Branch.refs] using hslot

theorem Branch.start_starts (hE : E.Sound) {branch : Branch π} (hs : w.estate.AllSafe P branch.refs) (v : Value) :
    Starts P (branch.start E v) w := by
  cases branch with
  | body x scope next => exact hE.start x _ hs
  | either consequent alternate scope next => exact hE.start _ scope hs
  | content b =>
    have hb : w.estate.Safe P (.block b) := by simpa [Branch.refs] using hs
    cases v with
    | list l =>
      refine .read rfl ((Block.reset_keeps hE hb _).bindYields fun _ w₁ hs₁ => Starts.listenList l _ (by simp) ?_)
      simpa [Callback.refs] using hs₁.safe hb
    | _ => exact (Block.reset_keeps hE hb []).bindYields fun _ _ _ => Starts.done
  | entries p =>
    cases v with
    | object o =>
      refine (refreshEntries_keeps hE p _).bindYields fun _ w₁ _ => Starts.listenObject o _ (by simp) ?_
      simp [Callback.refs]
    | _ => exact (refreshEntries_keeps hE p none).bindYields fun _ _ _ => Starts.done
  | target t source scope => exact t.bind_starts hE source _

/-! ## Writing -/

theorem setExtent_keeps (hE : E.Sound) (l : ListId) (wanted : Nat) : Keeps P (setExtent E l wanted) w := by
  refine .read rfl ?_
  split
  · exact ListId.push_keeps hE _
  · split
    · exact (ListId.splice_keeps hE _ _ _).discard
    · exact .pure _

theorem deleteAll_keeps (hE : E.Sound) (l : ListId) (value : Value) (rounds : Nat) :
    Keeps P (deleteAll E l value rounds) w := by
  induction rounds generalizing w with
  | zero => exact .throw _
  | succ rounds ih =>
    refine (ListId.delete_keeps hE value).bind fun found w₁ _ => ?_
    split
    · exact ih
    · exact .pure _

theorem setPresence_keeps (hE : E.Sound) (collection member : Value) (present : Bool) :
    Keeps P (setPresence E collection member present) w := by
  unfold setPresence
  split
  · split
    · refine .read rfl ?_
      split
      · exact ListId.push_keeps hE _
      · exact .pure _
    · exact .read rfl (deleteAll_keeps hE _ _ _)
  · refine .read rfl ?_
    dsimp only
    split
    · exact ObjectId.assign_keeps hE _ _
    · exact (ObjectId.delete_keeps hE _).discard
  · exact .pure _

theorem assignUnder_keeps (hE : E.Sound) (container key value : Value) : Keeps P (assignUnder E container key value) w := by
  unfold assignUnder
  split
  · exact .read rfl (ObjectId.assign_keeps hE _ _)
  · split
    · exact ListId.assign_keeps hE _ _
    · exact .pure _
  · exact .pure _

theorem write_keeps (hE : E.Sound) (how : Writing) (container key value : Value) :
    Keeps P (write E how container key value) w := by
  cases how with
  | assign => exact assignUnder_keeps hE _ _ _
  | toggle => exact setPresence_keeps hE _ _ _

/-! ## Sinks -/

theorem emitGuarded_keeps (syncing : Ref .flag) (ready : Option (Ref .flag)) {emit : Live π (Ledger π τ) Unit}
    (h : ∀ w', Stays P w.estate w'.estate → Keeps P emit w') : Keeps P (emitGuarded syncing ready emit) w := by
  refine .read rfl ?_
  split
  · exact .pure _
  refine (setFlag_quiet syncing true).keeps.bind fun _ w₁ hs₁ => (h w₁ hs₁).bind fun _ w₂ _ => ?_
  exact (setFlag_quiet syncing false).keeps

/-- What the embedding program does when it is called keeps what there is. -/
structure Host.Sound (H : Host π (Ledger π τ)) : Prop where
  listener : ∀ {E : Engine π (Ledger π τ)}, E.Sound → ∀ {P w} p event, LiveBindings.Keeps P (H.listener E p event) w
  observer : ∀ {E : Engine π (Ledger π τ)}, E.Sound → ∀ {P w} p v, LiveBindings.Keeps P (H.observer E p v) w

section

variable {observer : π → Value → Live π (Ledger π τ) Unit}

mutual

/-- Handing a value to a sink keeps what there is. -/
theorem Sink.emit_keeps (hE : E.Sound) (ho : ∀ {P w} p v, Keeps P (observer p v) w) : (s : Sink π) → ∀ P w,
    w.estate.AllSafe P s.refs → ∀ v, Keeps P (s.emit E observer v) w
  | .user p => fun _ _ _ v => ho p v
  | .distinct last next => by
    intro P w hs v
    refine .read rfl ?_
    split
    · exact .pure _
    · exact (setLast_quiet last v).keeps.bind fun _ w₁ hs₁ => Sink.emit_keeps hE ho next P w₁ (hs.stays hs₁) v
  | .mapped f next => fun P w hs v => .read rfl (Sink.emit_keeps hE ho next P w hs _)
  | .inverse f next => fun P w hs v => Sink.emit_keeps hE ho next P w hs _
  | .truth next => fun P w hs v => Sink.emit_keeps hE ho next P w hs _
  | .argument row index action => by
    intro P w hs v
    refine .read rfl ?_
    dsimp only
    split
    · exact .pure _
    refine (modifyArgs_quiet row _).keeps.bind fun _ w₁ hs₁ => ?_
    split
    · exact ArgsAction.react_keeps hE ho action P w₁ (hs.stays hs₁) _
    · exact .pure _
  | .switch s branch => by
    intro P w hs v
    rw [Sink.refs, allSafe_cons] at hs
    exact restart_keeps hE hs.1.1 fun w₁ hs₁ => Branch.start_starts hE (hs.2.stays hs₁) v
  | .property o key => fun _ _ _ v => ObjectId.assign_keeps hE key v
  | .item l index => fun _ _ _ v => ListId.assign_keeps hE index v
  | .extent l => fun _ _ _ v => setExtent_keeps hE l _
  | .result r e => fun _ _ _ v => .read rfl (Relations.receive_keeps (fun _ _ _ _ => Block.update_keeps hE _ _ _) e v)
  | .guarded syncing ready next => fun P w hs v =>
    emitGuarded_keeps syncing ready fun w₁ hs₁ => Sink.emit_keeps hE ho next P w₁ (hs.stays hs₁) v
  | .write how container key => fun _ _ _ v => write_keeps hE how container key v

theorem ArgsAction.react_keeps (hE : E.Sound) (ho : ∀ {P w} p v, Keeps P (observer p v) w) : (action : ArgsAction π) →
    ∀ P w, w.estate.AllSafe P action.refs → ∀ values, Keeps P (action.react E observer values) w
  | .compute f next => fun P w hs values => .read rfl (Sink.emit_keeps hE ho next P w hs _)
  | .follow s what next => by
    intro P w hs values
    rw [ArgsAction.refs, allSafe_cons] at hs
    exact restart_keeps hE hs.1.1 fun w₁ hs₁ => follow_starts (hs.2.stays hs₁) hE what _ _
  | .bounds window => fun _ _ _ _ => setBounds_keeps hE _ _
  | .writeTo s how source => by
    intro P w hs values
    rw [ArgsAction.refs, allSafe_singleton] at hs
    exact restart_keeps hE hs.1 fun w₁ hs₁ => Source.start_starts hE source _ _ (.write how _ _) allSafe_nil
  | .gate next => by
    intro P w hs values
    unfold ArgsAction.react
    split
    · exact Sink.emit_keeps hE ho next P w hs _
    · exact .pure _

end

end

/-! ## Callbacks and handles -/

section

variable {H : Host π (Ledger π τ)}

theorem Callback.fire_keeps (hH : H.Sound) (hE : E.Sound) {callback : Callback π}
    (hs : w.estate.AllSafe P callback.refs) (event : Event) : Keeps P (callback.fire H E event) w := by
  cases callback with
  | forward next =>
    simp only [Callback.fire]
    split
    · exact hE.emit _ hs
    · exact .pure _
  | reread l index next => exact .read rfl (hE.emit _ hs)
  | listHas l value next => exact .read rfl (hE.emit _ hs)
  | objectHas o key next => exact .read rfl (hE.emit _ hs)
  | content b =>
    simp only [Callback.fire]
    split
    · exact Block.splice_keeps hE (by simpa [Callback.refs] using hs) _ _ _
    · exact .pure _
  | entries p o =>
    simp only [Callback.fire]
    exact refreshEntries_keeps hE p _
  | segment b s inner =>
    simp only [Callback.fire]
    exact Block.refill_keeps hE s inner
  | user p =>
    simp only [Callback.fire]
    exact hH.listener hE p event

/-- Handles are taken down one after the other, unless one is abandoned. -/
theorem Cancel.runAll_leads {handle : Cancel π} {handles : List (Cancel π)}
    {Q : Unit → World (Callback π) (Env π (Ledger π τ)) → Prop}
    (h : (handle.run H E >>= fun _ => Cancel.runAll H E handles).Leads w Q) :
    (Cancel.runAll H E (handle :: handles)).Leads w Q := by
  refine Run.leads_iff.2 fun a w' ha => ?_
  rw [Run.leads_bind] at h
  simp only [Cancel.runAll] at ha
  split at ha
  · rename_i hw
    exact (h.of_eq hw).of_eq ha
  · split at ha <;> cases ha

mutual

/-- Cancelling takes down what a handle leads to. -/
theorem Cancel.run_yields (hE : E.Sound) : (handle : Cancel π) → ∀ P w, (∀ b ∈ P, .block b ∉ handle.assets) →
    Yields P {x | x ∈ handle.assets} (handle.run H E) (fun _ => ∅) w
  | .done => fun P w _ => by
    rw [Cancel.run]
    exact .pure _ (by simp [Cancel.assets])
  | .unlistenList l topic id => fun P w _ => by
    simpa [Cancel.run, Cancel.assets] using ListId.unlisten_yields l topic id
  | .unlistenObject o topic id => fun P w _ => by
    simpa [Cancel.run, Cancel.assets] using ObjectId.unlisten_yields o topic id
  | .closeSlot s => fun P w _ => by simpa [Cancel.run, Cancel.assets] using closeSlot_yields hE s
  | .release b => fun P w hP => by
    have hb : b ∉ P := fun hb => hP b hb (by simp [Cancel.assets])
    simpa [Cancel.run, Cancel.assets] using release_yields hE hb
  | .join handles => fun P w hP => by
    rw [Cancel.run]
    exact Cancel.runAll_yields hE handles P w hP
  | .user p => by
    intro P w _ R hR
    have hforeign : Asset.foreign ∈ R ∪ {x | x ∈ (Cancel.user p).assets} := Or.inr (by simp [Cancel.assets])
    exact absurd (hR.known (.of_mem hforeign)) (by simp [Has])

theorem Cancel.runAll_yields (hE : E.Sound) : (handles : List (Cancel π)) → ∀ P w,
    (∀ b ∈ P, .block b ∉ Cancel.assetsOfAll handles) → Yields P {x | x ∈ Cancel.assetsOfAll handles} (Cancel.runAll H E handles) (fun _ => ∅) w
  | [] => fun P w _ => by
    rw [Cancel.runAll]
    exact .pure _ (by simp [Cancel.assetsOfAll])
  | handle :: handles => by
    intro P w hP
    have hsplit : {x | x ∈ Cancel.assetsOfAll (handle :: handles)} =
        {x | x ∈ handle.assets} ∪ {x | x ∈ Cancel.assetsOfAll handles} := by
      ext x
      simp [Cancel.assetsOfAll]
    have hhandle : ∀ b ∈ P, .block b ∉ handle.assets := fun b hb hm => hP b hb (by simp [Cancel.assetsOfAll, hm])
    have hrest : ∀ b ∈ P, .block b ∉ Cancel.assetsOfAll handles := fun b hb hm =>
      hP b hb (by simp [Cancel.assetsOfAll, hm])
    rw [hsplit]
    have hboth : Yields P ({x | x ∈ handle.assets} ∪ {x | x ∈ Cancel.assetsOfAll handles})
        (handle.run H E >>= fun _ => Cancel.runAll H E handles) (fun _ => ∅) w :=
      (Cancel.run_yields hE handle P w hhandle).andThen fun _ w₁ _ => Cancel.runAll_yields hE handles P w₁ hrest
    exact fun R hR => Cancel.runAll_leads (hboth R hR)

end

end

/-! ## The engine -/

/-- Every engine keeps what there is. -/
theorem engine_sound {H : Host π (Ledger π τ)} (hH : H.Sound) (calls : Nat) : (engine H calls).Sound := by
  induction calls with
  | zero =>
    exact
      { fire := fun _ _ => .throw _
        letGo := fun _ _ _ _ => Run.leads_throw _
        emit := fun _ _ => .throw _
        react := fun _ _ => .throw _
        start := fun _ _ _ _ _ => Run.leads_throw _
        cancel := fun _ _ _ => Run.leads_throw _ }
  | succ calls ih =>
    exact
      { fire := fun event hs => Callback.fire_keeps hH ih hs event
        letGo := fun _ _ => sweep_settles ih
        emit := fun v hs => Sink.emit_keeps ih (hH.observer ih) _ _ _ hs v
        react := fun values hs => ArgsAction.react_keeps ih (hH.observer ih) _ _ _ hs values
        start := fun x scope hs => Expr.start_starts ih x scope _ _ _ hs
        cancel := fun hP => Cancel.run_yields ih _ _ _ hP }

end LiveBindings
