import LiveBindings.Bindings
import LiveBindings.Observe.Fire
import LiveBindings.Proofs.Making
import LiveBindings.Proofs.Recovery

/-!
# What a panic leaves

Whatever an engine is asked to do, and however that comes to its end, the counts of dispatches are what they were before
(`engine_recovers`), if the program that it runs in leaves them so when it is called (`Host.Recovers`). So they are when bindings
are defined and cancelled.

Only the flag of a guarded sink is not lowered when a value is abandoned on its way through the sink (`emitGuarded_abandoned`).
No later computation lowers it, and while it is set the sink drops every value: both sides of a binding that passes values on in
two ways are silent from then on (`Sink.silent_after_abandoned`).
-/

namespace LiveBindings

variable {π σ : Type} {E : Engine π σ}

/-! ## Expressions -/

section

variable (hE : E.Recovers)
include hE

theorem settle_recovers (args : Ref .args) (action : ArgsAction π) : Run.Recovers (settle E args action) :=
  .bind (.cells fun _ => rfl) fun _ => .read (fun _ => ⟨_, rfl⟩) fun _ => hE.react action _

omit hE in
theorem distinct_recovers (next : Sink π) : Run.Recovers (distinct next : Live π σ (Sink π)) :=
  .bind (.making fun _ => rfl) fun _ => .pure _

omit hE in
theorem PerElement.block_recovers (what : PerElement) (r : Ref .relations) (next : Sink π) :
    Run.Recovers (what.block r next : Live π σ (Block π × Option Value)) := by
  cases what with
  | map | filter | sorted | group => exact .bind (ListId.create_recovers _) fun _ => .pure _
  | groupMap => exact .bind (ObjectId.create_recovers _) fun _ => .pure _
  | every | some | least | greatest => exact .bind (distinct_recovers next) fun _ => .pure _

omit hE in
theorem forEach_recovers {outer : Ref .slot → Live π σ (Cancel π)} (h : ∀ s, (outer s).Recovers) :
    Run.Recovers (do let s ← newSlot; let handle ← outer s; return forEach s handle) :=
  .bind (.making fun _ => rfl) fun s => .bind (h s) fun _ => .pure _

omit hE in
theorem watch_recovers (b : Ref .block) {collection : Starting π σ} (h : ∀ sink, Run.Recovers (collection sink)) :
    Run.Recovers (watch b collection) :=
  forEach_recovers fun _ => h _

theorem startTwo_recovers (action : ArgsAction π) {first second : Starting π σ} (h₁ : ∀ sink, Run.Recovers (first sink))
    (h₂ : ∀ sink, Run.Recovers (second sink)) : Run.Recovers (startTwo E action first second) :=
  .bind (.making fun _ => rfl) fun row => .bind (h₁ _) fun _ => .bind (h₂ _) fun _ =>
    .bind (settle_recovers hE row action) fun _ => .pure _

theorem startFollowing_recovers (what : Followed) {container key : Starting π σ} (h₁ : ∀ sink, Run.Recovers (container sink))
    (h₂ : ∀ sink, Run.Recovers (key sink)) (next : Sink π) : Run.Recovers (startFollowing E what container key next) :=
  .bind (distinct_recovers next) fun _ => forEach_recovers fun _ => startTwo_recovers hE _ h₁ h₂

end

namespace Expr

mutual

/-- Starting an expression leaves in progress what was in progress. -/
theorem start_recovers (hE : E.Recovers) : (x : Expr) → ∀ next scope, Run.Recovers (x.start E next scope)
  | .literal v => fun next _ => constant_recovers hE v next
  | .value => fun next scope => constant_recovers hE scope.value next
  | .parameters => fun next scope => constant_recovers hE scope.parameters next
  | .element id => by
    intro next scope
    rw [start]
    split
    · exact followEntry_recovers hE _ _ next
    · exact constant_recovers hE _ next
  | .component label => by
    intro next scope
    rw [start]
    split
    · exact followEntry_recovers hE _ _ next
    · exact constant_recovers hE _ next
  | .record fields => fun next scope =>
    .bind (ObjectId.create_recovers _) fun o => .bind (startFields_recovers hE o scope fields) fun _ =>
      .bind (hE.emit next _) fun _ => .pure _
  | .property object key => fun next scope =>
    startFollowing_recovers hE _ (start_recovers hE object · scope) (start_recovers hE key · scope) next
  | .membership collection member => fun next scope =>
    startFollowing_recovers hE _ (start_recovers hE collection · scope) (start_recovers hE member · scope) next
  | .within context body => fun next scope => forEach_recovers fun _ => start_recovers hE context _ scope
  | .choice condition consequent alternate => fun next scope =>
    .bind (.making fun _ => rfl) fun _ => .bind (distinct_recovers _) fun _ =>
      .bind (start_recovers hE condition _ scope) fun _ => .pure _
  | .operator f args => fun next scope =>
    .bind (distinct_recovers next) fun _ => .bind (.making fun _ => rfl) fun row =>
      .bind (startArgs_recovers hE row _ scope 0 args) fun _ => .bind (settle_recovers hE row _) fun _ => .pure _
  | .project what object => fun next scope =>
    .bind (ListId.create_recovers _) fun _ => .bind (.making fun _ => rfl) fun _ => .bind (.making fun _ => rfl) fun _ =>
      .bind (start_recovers hE object _ scope) fun _ => .bind (hE.emit next _) fun _ => .pure _
  | .perElement what collection relation => by
    intro next scope
    rw [start]
    refine .read (fun _ => ⟨_, rfl⟩) fun _ => .bind (.making fun _ => rfl) fun r => ?_
    refine .bind (what.block_recovers r next) fun view => .bind (.making fun _ => rfl) fun b => ?_
    refine .bind (watch_recovers b (start_recovers hE collection · scope)) fun _ => ?_
    split
    · exact .bind (hE.emit next _) fun _ => .pure _
    · exact .pure _
  | .rearrange what collection => fun next scope =>
    .bind (ListId.create_recovers _) fun _ => .bind (.making fun _ => rfl) fun b =>
      .bind (watch_recovers b (start_recovers hE collection · scope)) fun _ => .bind (hE.emit next _) fun _ => .pure _
  | .window collection first length => fun next scope =>
    .bind (ListId.create_recovers _) fun _ => .bind (.making fun _ => rfl) fun b =>
      .bind (startTwo_recovers hE _ (start_recovers hE first · scope) (start_recovers hE length · scope)) fun _ =>
        .bind (watch_recovers b (start_recovers hE collection · scope)) fun _ => .bind (hE.emit next _) fun _ => .pure _
  | .reduce what collection => fun next scope =>
    .bind (distinct_recovers next) fun _ => .bind (.making fun _ => rfl) fun b =>
      watch_recovers b (start_recovers hE collection · scope)
  | .tuple elements => fun next scope =>
    .bind (ListId.create_recovers _) fun output => .bind (startItems_recovers hE output scope 0 elements) fun _ =>
      .bind (hE.emit next _) fun _ => .pure _
  | .range length => fun next scope =>
    .bind (ListId.create_recovers _) fun _ => .bind (start_recovers hE length _ scope) fun _ =>
      .bind (hE.emit next _) fun _ => .pure _
  | .mapped f source => fun next scope => start_recovers hE source _ scope

theorem startArgs_recovers (hE : E.Recovers) (row : Ref .args) (action : ArgsAction π) (scope : Scope) (index : Nat) :
    (xs : List Expr) → Run.Recovers (startArgs E row action scope index xs)
  | [] => .pure _
  | x :: xs => .bind (start_recovers hE x _ scope) fun _ => .bind (startArgs_recovers hE row action scope (index + 1) xs) fun _ =>
    .pure _

theorem startFields_recovers (hE : E.Recovers) (o : ObjectId) (scope : Scope) :
    (fields : List (String × Expr)) → Run.Recovers (startFields E o scope fields)
  | [] => .pure _
  | (_, x) :: fields => .bind (start_recovers hE x _ scope) fun _ => .bind (startFields_recovers hE o scope fields) fun _ =>
    .pure _

theorem startItems_recovers (hE : E.Recovers) (output : ListId) (scope : Scope) (index : Nat) :
    (xs : List Expr) → Run.Recovers (startItems E output scope index xs)
  | [] => .pure _
  | x :: xs => .bind (start_recovers hE x _ scope) fun _ => .bind (startItems_recovers hE output scope (index + 1) xs) fun _ =>
    .pure _

end

end Expr

section

variable (hE : E.Recovers)
include hE

/-! ## Sources and targets -/

theorem Source.start_recovers (s : Source) (next : Sink π) : Run.Recovers (s.start E next) := by
  induction s generalizing next with
  | observe x scope => exact x.start_recovers hE next scope
  | guarded x scope syncing ready => exact x.start_recovers hE _ scope
  | inverse f s ih => exact ih _
  | gated s right scope ih => exact startTwo_recovers hE _ ih (right.start_recovers hE · scope)

theorem bindPlace_recovers (how : Writing) (container key : Expr) (source : Source) (scope : Scope) :
    Run.Recovers (bindPlace E how container key source scope) :=
  forEach_recovers fun _ => startTwo_recovers hE _ (container.start_recovers hE · scope) (key.start_recovers hE · scope)

theorem Target.bind_recovers (t : Target) (source : Source) (scope : Scope) : Run.Recovers (t.bind E source scope) := by
  induction t generalizing source scope with
  | property object key | membership collection member => exact bindPlace_recovers hE _ _ _ source scope
  | inverse f operand ih => exact ih _ scope
  | equals left right ih => exact ih _ scope
  | within context body _ => exact forEach_recovers fun _ => context.start_recovers hE _ scope

/-! ## Sinks -/

theorem Branch.start_recovers (branch : Branch π) (v : Value) : Run.Recovers (branch.start E v) := by
  cases branch with
  | body x scope next => exact hE.start x next _
  | either consequent alternate scope next => exact hE.start _ next scope
  | content b =>
    cases v with
    | list l =>
      exact .read (fun _ => ⟨_, rfl⟩) fun _ => .bind (Block.reset_recovers hE b _) fun _ => .bind (l.listen_recovers _ _) fun _ =>
        .pure _
    | _ => exact .bind (Block.reset_recovers hE b []) fun _ => .pure _
  | entries p =>
    cases v with
    | object o => exact .bind (refreshEntries_recovers hE p _) fun _ => .bind (o.listen_recovers _ _) fun _ => .pure _
    | _ => exact .bind (refreshEntries_recovers hE p none) fun _ => .pure _
  | target t source scope => exact t.bind_recovers hE source _

theorem setExtent_recovers (l : ListId) (wanted : Nat) : Run.Recovers (setExtent E l wanted) := by
  refine .read (fun _ => ⟨_, rfl⟩) fun _ => ?_
  split
  · exact l.push_recovers hE.reactions _
  · split
    · exact (l.splice_recovers hE.reactions _ _ _).discard
    · exact .pure _

end

/-! ## Guarded sinks -/

section

variable {w w' : World (Callback π) (Env π σ)} {syncing : Ref .flag} {ready : Option (Ref .flag)} {emit : Live π σ Unit}

/-- A flag was set or lowered. -/
def World.withFlag (w : World (Callback π) (Env π σ)) (f : Ref .flag) (b : Bool) : World (Callback π) (Env π σ) :=
  { w with env := { w.env with cells := { w.env.cells with flags := w.env.cells.flags.modify f.index fun _ => b } } }

theorem World.size_withFlag (f : Ref .flag) (b : Bool) : (w.withFlag f b).env.cells.flags.size = w.env.cells.flags.size :=
  Array.size_modify

theorem World.flag_withFlag (f g : Ref .flag) (b : Bool) :
    (w.withFlag f b).env.cells.flag g = if g = f ∧ f.index < w.env.cells.flags.size then b else w.env.cells.flag g := by
  cases f with | mk i =>
  cases g with | mk j =>
  simp only [withFlag, Cells.flag, Array.getD_eq_getD_getElem?, Array.getElem?_modify, Ref.mk.injEq]
  by_cases hij : i = j
  · subst hij
    by_cases hi : i < w.env.cells.flags.size
    · simp [hi]
    · simp [hi]
  · simp [hij, Ne.symm hij]

/-- A flag that is there is what it was set to. -/
theorem World.flag_withFlag_self {f : Ref .flag} (h : f.index < w.env.cells.flags.size) (b : Bool) :
    (w.withFlag f b).env.cells.flag f = b := by
  rw [flag_withFlag, if_pos ⟨rfl, h⟩]

theorem World.flag_withFlag_ne {f g : Ref .flag} (h : g ≠ f) (b : Bool) :
    (w.withFlag f b).env.cells.flag g = w.env.cells.flag g := by
  rw [flag_withFlag, if_neg fun hn => h hn.1]

/-- What a guarded sink does with a value. -/
theorem emitGuarded_eq (syncing : Ref .flag) (ready : Option (Ref .flag)) (emit : Live π σ Unit)
    (w : World (Callback π) (Env π σ)) : emitGuarded syncing ready emit w =
      if w.env.cells.flag syncing || ready.any (fun r => !w.env.cells.flag r) then .ok () w
      else match emit (w.withFlag syncing true) with
        | .ok _ w' => .ok () (w'.withFlag syncing false)
        | .error e w' => .error e w' := by
  change (if _ then Pure.pure () else _ : Live π σ Unit) w = _
  split
  · rfl
  · change EStateM.bind emit _ (w.withFlag syncing true) = _
    unfold EStateM.bind
    cases emit (w.withFlag syncing true) <;> rfl

/-- While its flag is set, a guarded sink drops every value. -/
theorem emitGuarded_silent (h : w.env.cells.flag syncing = true) : emitGuarded syncing ready emit w = .ok () w := by
  rw [emitGuarded_eq, h]
  rfl

/-- A guarded sink lowers its flag when it has passed a value on. -/
theorem emitGuarded_recovers (syncing : Ref .flag) (ready : Option (Ref .flag)) (h : emit.Recovers) :
    Run.Recovers (emitGuarded syncing ready emit) := by
  intro w
  rw [emitGuarded_eq]
  by_cases blocked : (w.env.cells.flag syncing || ready.any fun r => !w.env.cells.flag r) = true
  · rw [if_pos blocked]
    exact .refl w
  rw [if_neg blocked]
  have lowered : w.env.cells.flag syncing = false := by
    rw [Bool.or_eq_true, not_or, Bool.not_eq_true] at blocked
    exact blocked.1
  have hemit := h (w.withFlag syncing true)
  revert hemit
  cases emit (w.withFlag syncing true) with
  | ok _ w' =>
    intro hemit
    have hsize : w.env.cells.flags.size ≤ w'.env.cells.flags.size := (World.size_withFlag syncing true).symm.trans_le hemit.size
    refine .of_flags hemit.depth hemit.dispatching (hsize.trans_eq (World.size_withFlag syncing false).symm) fun f hf => ?_
    by_cases hfs : f = syncing
    · subst hfs
      rw [World.flag_withFlag_self (hf.trans_le hsize), lowered]
    · rw [World.flag_withFlag_ne hfs, hemit.flags f (hf.trans_eq (World.size_withFlag syncing true).symm),
        World.flag_withFlag_ne hfs]
  | error e w' =>
    intro hemit
    have hsize : w.env.cells.flags.size ≤ w'.env.cells.flags.size := (World.size_withFlag syncing true).symm.trans_le hemit.size
    refine ⟨hemit.depth, hemit.dispatching, hsize, fun f hf => hemit.set f ?_⟩
    have hfs : f ≠ syncing := by
      rintro rfl
      rw [lowered] at hf
      cases hf
    rwa [World.flag_withFlag_ne hfs]

/-- When a value is abandoned on its way through a guarded sink, the flag stays set. -/
theorem emitGuarded_abandoned (h : emit.Recovers) (made : syncing.index < w.env.cells.flags.size) {e : Fault}
    (he : emitGuarded syncing ready emit w = .error e w') : w'.env.cells.flag syncing = true := by
  rw [emitGuarded_eq] at he
  by_cases blocked : (w.env.cells.flag syncing || ready.any fun r => !w.env.cells.flag r) = true
  · rw [if_pos blocked] at he
    cases he
  rw [if_neg blocked] at he
  have hemit := h (w.withFlag syncing true)
  revert hemit he
  cases emit (w.withFlag syncing true) with
  | ok _ w₁ =>
    intro he
    cases he
  | error e' w₁ =>
    intro he hemit
    cases he
    exact hemit.set syncing (World.flag_withFlag_self made true)

end

section

variable {observer : π → Value → Live π σ Unit}

mutual

/-- Handing a value to a sink leaves in progress what was in progress. -/
theorem Sink.emit_recovers (hE : E.Recovers) (ho : ∀ p v, Run.Recovers (observer p v)) :
    (s : Sink π) → ∀ v, Run.Recovers (s.emit E observer v)
  | .user p => ho p
  | .distinct last next => by
    intro v
    refine .read (fun _ => ⟨_, rfl⟩) fun _ => ?_
    split
    · exact .pure _
    · exact .bind (.cells fun _ => rfl) fun _ => Sink.emit_recovers hE ho next v
  | .mapped f next => fun _ => .read (fun _ => ⟨_, rfl⟩) fun _ => Sink.emit_recovers hE ho next _
  | .inverse f next => fun _ => Sink.emit_recovers hE ho next _
  | .truth next => fun _ => Sink.emit_recovers hE ho next _
  | .argument row index action => by
    intro v
    refine .read (fun _ => ⟨_, rfl⟩) fun _ => ?_
    dsimp only
    split
    · exact .pure _
    refine .bind (.cells fun _ => rfl) fun _ => ?_
    split
    · exact ArgsAction.react_recovers hE ho action _
    · exact .pure _
  | .switch s branch => fun v => restart_recovers hE s (branch.start_recovers hE v)
  | .property o key => fun v => o.assign_recovers hE.reactions key v
  | .item l index => fun v => l.assign_recovers hE.reactions index v
  | .extent l => fun _ => setExtent_recovers hE l _
  | .result r e => fun v =>
    .read (fun _ => ⟨_, rfl⟩) fun _ => Relations.receive_recovers (fun _ _ _ => Block.update_recovers hE _ _ _ _) r e v
  | .guarded syncing ready next => fun v => emitGuarded_recovers syncing ready (Sink.emit_recovers hE ho next v)
  | .write how container key => fun v => write_recovers hE how container key v

theorem ArgsAction.react_recovers (hE : E.Recovers) (ho : ∀ p v, Run.Recovers (observer p v)) :
    (action : ArgsAction π) → ∀ values, Run.Recovers (action.react E observer values)
  | .compute f next => fun _ => .read (fun _ => ⟨_, rfl⟩) fun _ => Sink.emit_recovers hE ho next _
  | .follow s what next => fun _ => restart_recovers hE s (follow_recovers hE what _ _ next)
  | .bounds window => fun _ => setBounds_recovers hE window _ _
  | .writeTo s how source => fun _ => restart_recovers hE s (source.start_recovers hE _)
  | .gate next => by
    intro values
    unfold ArgsAction.react
    split
    · exact Sink.emit_recovers hE ho next _
    · exact .pure _

end

end

/-! ## Callbacks and handles -/

/-- What the embedding program does when it is called leaves in progress what was in progress. -/
structure Host.Recovers (H : Host π σ) : Prop where
  listener : ∀ {E : Engine π σ}, E.Recovers → ∀ p event, Run.Recovers (H.listener E p event)
  observer : ∀ {E : Engine π σ}, E.Recovers → ∀ p v, Run.Recovers (H.observer E p v)
  teardown : ∀ {E : Engine π σ}, E.Recovers → ∀ p, Run.Recovers (H.teardown E p)

section

variable {H : Host π σ}

theorem Callback.fire_recovers (hH : H.Recovers) (hE : E.Recovers) (callback : Callback π) (event : Event) :
    Run.Recovers (callback.fire H E event) := by
  cases callback with
  | forward next =>
    simp only [Callback.fire]
    split
    · exact hE.emit next _
    · exact .pure _
  | reread l index next => exact .read (fun _ => ⟨_, rfl⟩) fun _ => hE.emit next _
  | listHas l value next => exact .read (fun _ => ⟨_, rfl⟩) fun _ => hE.emit next _
  | objectHas o key next => exact .read (fun _ => ⟨_, rfl⟩) fun _ => hE.emit next _
  | content b =>
    simp only [Callback.fire]
    split
    · exact Block.splice_recovers hE b _ _ _
    · exact .pure _
  | entries p o =>
    simp only [Callback.fire]
    exact refreshEntries_recovers hE p _
  | segment b s inner => exact Block.refill_recovers hE b s inner
  | user p => exact hH.listener hE p event

mutual

/-- Taking down a handle leaves in progress what was in progress. -/
theorem Cancel.run_recovers (hH : H.Recovers) (hE : E.Recovers) : (handle : Cancel π) → Run.Recovers (handle.run H E)
  | .done => .pure _
  | .unlistenList l topic id => l.unlisten_recovers topic id
  | .unlistenObject o topic id => o.unlisten_recovers topic id
  | .closeSlot s => closeSlot_recovers hE s
  | .release b => release_recovers hE b
  | .join handles => Cancel.runAll_recovers hH hE handles
  | .user p => hH.teardown hE p

theorem Cancel.runAll_recovers (hH : H.Recovers) (hE : E.Recovers) :
    (handles : List (Cancel π)) → Run.Recovers (Cancel.runAll H E handles)
  | [] => .pure _
  | handle :: handles => by
    intro w
    have first := Cancel.run_recovers hH hE handle w
    simp only [Cancel.runAll]
    revert first
    cases handle.run H E w with
    | ok _ w₁ =>
      intro first
      have others := Cancel.runAll_recovers hH hE handles w₁
      revert others
      dsimp only
      cases Cancel.runAll H E handles w₁ with
      | ok _ w₂ => exact first.trans
      | error e w₂ => exact first.toLeaves.trans
    | error e w₁ =>
      intro first
      have others := Cancel.runAll_recovers hH hE handles w₁
      revert others
      dsimp only
      cases Cancel.runAll H E handles w₁ with
      | ok _ w₂ => exact fun others => first.trans others.toLeaves
      | error e w₂ => exact first.trans

end

/-! ## The engine -/

/-- Every engine leaves in progress what was in progress. -/
theorem engine_recovers (hH : H.Recovers) (calls : Nat) : (engine H calls).Recovers := by
  induction calls with
  | zero =>
    exact
      { fire := fun _ _ => .throw _
        letGo := .throw _
        emit := fun _ _ => .throw _
        react := fun _ _ => .throw _
        start := fun _ _ _ => .throw _
        cancel := fun _ => .throw _ }
  | succ calls ih =>
    exact
      { fire := Callback.fire_recovers hH ih
        letGo := sweep_recovers ih
        emit := Sink.emit_recovers ih (hH.observer ih)
        react := ArgsAction.react_recovers ih (hH.observer ih)
        start := Expr.start_recovers ih
        cancel := Cancel.run_recovers hH ih }

/-- Once a value was abandoned on its way through a guarded sink, no sink with the same flag passes a value on: neither side of a
binding that passes values on in two ways does, whatever happens until then. -/
theorem Sink.silent_after_abandoned (hE : E.Recovers) {observer : π → Value → Live π σ Unit}
    (ho : ∀ p v, Run.Recovers (observer p v)) {syncing : Ref .flag} {ready : Option (Ref .flag)} {next : Sink π} {v : Value}
    {w w' : World (Callback π) (Env π σ)} {e : Fault} (made : syncing.index < w.env.cells.flags.size)
    (he : (Sink.guarded syncing ready next).emit E observer v w = .error e w') {later : World (Callback π) (Env π σ)}
    (hl : w'.Leaves later) (ready' : Option (Ref .flag)) (next' : Sink π) (v' : Value) :
    (Sink.guarded syncing ready' next').emit E observer v' later = .ok () later :=
  emitGuarded_silent (hl.set syncing (emitGuarded_abandoned (Sink.emit_recovers hE ho next v) made he))

end

/-! ## Sets of bindings -/

section

variable {α β δ δ' : Type}

/-- A computation that may fail with a reason leaves in progress what was in progress. -/
abbrev Run.RecoversExcept (act : ExceptT δ (Live π σ) α) : Prop := Run.Recovers act.run

namespace Run.RecoversExcept

theorem pure (a : α) : Run.RecoversExcept (Pure.pure a : ExceptT δ (Live π σ) α) := Run.Recovers.pure _

theorem throw (e : δ) : Run.RecoversExcept (MonadExcept.throw e : ExceptT δ (Live π σ) α) := Run.Recovers.pure _

theorem bind {act : ExceptT δ (Live π σ) α} {f : α → ExceptT δ (Live π σ) β} (h : Run.RecoversExcept act)
    (hf : ∀ a, Run.RecoversExcept (f a)) : Run.RecoversExcept (act >>= f) :=
  Run.Recovers.bind h fun r => by
    cases r with
    | ok a => exact hf a
    | error e => exact .pure _

theorem lift {act : Live π σ α} (h : act.Recovers) : Run.RecoversExcept (ExceptT.lift act : ExceptT δ (Live π σ) α) := h.map _

theorem adapt {act : ExceptT δ (Live π σ) α} (g : δ → δ') (h : Run.RecoversExcept act) :
    Run.RecoversExcept (ExceptT.adapt g act) := h.map _

end Run.RecoversExcept

mutual

theorem fromJson_recovers : (j : Json) → Run.Recovers (fromJson j : Live π σ Value)
  | .null | .bool _ | .number _ | .text _ => by
    rw [fromJson]
    exact .pure _
  | .array js => by
    rw [fromJson]
    exact .bind (fromJsonItems_recovers js) fun _ => .bind (ListId.create_recovers _) fun _ => .pure _
  | .object ms => by
    rw [fromJson]
    refine .bind (fromJsonMembers_recovers ms) fun _ => ?_
    split
    · exact .bind (.nested (.pure _) (.pure _)) fun _ => .bind (ObjectId.create_recovers _) fun _ => .pure _
    · exact .bind (ObjectId.create_recovers _) fun _ => .pure _

theorem fromJsonItems_recovers : (js : List Json) → Run.Recovers (fromJsonItems js : Live π σ (List Value))
  | [] => .pure _
  | j :: js => .bind (fromJson_recovers j) fun _ => .bind (fromJsonItems_recovers js) fun _ => .pure _

theorem fromJsonMembers_recovers : (ms : List (String × Json)) →
    Run.Recovers (fromJsonMembers ms : Live π σ (List (String × Value)))
  | [] => .pure _
  | (_, j) :: ms => .bind (fromJson_recovers j) fun _ => .bind (fromJsonMembers_recovers ms) fun _ => .pure _

end

theorem assemble_recovers (t : OperatorTable) (n : Node) {args : Compiling (Callback π) (Env π σ) (List Expr)}
    {fields : Option (Compiling (Callback π) (Env π σ) (List (String × Expr)))} (ha : Run.RecoversExcept args)
    (hf : ∀ c ∈ fields, Run.RecoversExcept c) : Run.RecoversExcept (assemble t n args fields) := by
  have built (c : Construct) : Run.RecoversExcept (do return c.build (← args)) := .bind ha fun _ => .pure _
  unfold assemble
  split
  · split
    · exact .bind (.lift (fromJson_recovers _)) fun _ => .pure _
    · exact .pure _
  · exact .pure _
  · exact .pure _
  · split
    · exact .pure _
    · exact .throw _
  · split
    · exact .pure _
    · exact .throw _
  · split
    · exact .bind (hf _ rfl) fun _ => .pure _
    · exact .throw _
  · split
    · split
      · exact .bind (.throw _) fun _ => built _
      · exact built _
    · exact built _
  · exact .bind ha fun _ => .pure _
  · exact .throw _

mutual

theorem compile_recovers (t : OperatorTable) :
    (n : Node) → Run.RecoversExcept (compile t n : Compiling (Callback π) (Env π σ) Expr)
  | .leaf h => by
    rw [compile]
    exact assemble_recovers t _ (.pure _) (by simp)
  | .call h ns => by
    rw [compile]
    exact assemble_recovers t _ (compileAll_recovers t ns) (by simp)
  | .fields h fs => by
    rw [compile]
    exact assemble_recovers t _ (.pure _) (by simpa using compileFields_recovers t fs)

theorem compileAll_recovers (t : OperatorTable) :
    (ns : List Node) → Run.RecoversExcept (compileAll t ns : Compiling (Callback π) (Env π σ) (List Expr))
  | [] => .pure _
  | n :: ns => .bind (compile_recovers t n) fun _ => .bind (compileAll_recovers t ns) fun _ => .pure _

theorem compileFields_recovers (t : OperatorTable) :
    (fs : List (String × Node)) →
      Run.RecoversExcept (compileFields t fs : Compiling (Callback π) (Env π σ) (List (String × Expr)))
  | [] => .pure _
  | (_, n) :: fs => .bind (compile_recovers t n) fun _ => .bind (compileFields_recovers t fs) fun _ => .pure _

end

theorem compileTarget_recovers (t : OperatorTable) (n : Node) :
    Run.RecoversExcept (compileTarget t n : Binding (Callback π) (Env π σ) Target) := by
  have part (a : Node) : Run.RecoversExcept (observed (compile t a) : Binding (Callback π) (Env π σ) Expr) :=
    .adapt _ (compile_recovers t a)
  have sides (f : Expr → Expr → Target) (a b : Node) :
      Run.RecoversExcept (do
        return f (← observed (compile t a)) (← observed (compile t b)) : Binding (Callback π) (Env π σ) Target) :=
    .bind (part a) fun _ => .bind (part b) fun _ => .pure _
  fun_induction compileTarget t n with
  | case1 h a f hform ih => exact .bind ih fun _ => .pure _
  | case5 h a b | case6 h a b => exact sides _ a b
  | case7 h a b hform ih => exact .bind ih fun _ => .bind (part b) fun _ => .pure _
  | case8 h a b hform ih => exact .bind (part a) fun _ => .bind ih fun _ => .pure _
  | _ => exact .throw _

theorem newFlag_recovers : Run.Recovers (newFlag : Live π σ (Ref .flag)) := by
  intro w
  refine .of_flags rfl (fun _ => rfl) ?_ fun f hf => ?_
  · change w.env.cells.flags.size ≤ (w.env.cells.flags.push false).size
    rw [Array.size_push]
    exact Nat.le_succ _
  · change (w.env.cells.flags.push false).getD f.index false = w.env.cells.flags.getD f.index false
    rw [Array.getD_eq_getD_getElem?, Array.getD_eq_getD_getElem?, Array.getElem?_push, if_neg hf.ne]

/-- A new flag is set at the end. -/
theorem Run.Recovers.readying {act : Ref .flag → Live π σ α} (h : ∀ ready, (act ready).Recovers) :
    Run.Recovers (do let ready ← newFlag; let a ← act ready; setFlag ready true; return a) := by
  intro w
  -- the flag that is set stands behind all that were there
  let ready : Ref .flag := ⟨w.env.cells.flags.size⟩
  let w₁ : World (Callback π) (Env π σ) :=
    { w with env := { w.env with cells := { w.env.cells with flags := w.env.cells.flags.push false } } }
  have made : w.Completes w₁ := newFlag_recovers w
  have hact := h ready w₁
  have hrun : (do let ready ← newFlag; let a ← act ready; setFlag ready true; return a : Live π σ α) w =
      EStateM.bind (act ready) (fun a => setFlag ready true >>= fun _ => Pure.pure a) w₁ := rfl
  rw [hrun, EStateM.bind]
  revert hact
  cases act ready w₁ with
  | ok a w₂ =>
    intro hact
    have all := made.trans hact
    refine .of_flags all.depth all.dispatching (all.size.trans_eq (World.size_withFlag ready true).symm) fun f hf => ?_
    have hne : f ≠ ready := by
      rintro rfl
      exact lt_irrefl _ hf
    exact (World.flag_withFlag_ne hne true).trans (all.flags f hf)
  | error e w₂ => exact made.toLeaves.trans

namespace BindingSet

variable {b : BindingSet π} (hE : E.Recovers)
include hE

theorem bindOneWay_recovers (target : Node) (source : Expr) : Run.RecoversExcept (b.bindOneWay E target source) :=
  .bind (compileTarget_recovers _ _) fun place => .lift (place.bind_recovers hE _ _)

theorem bindTwoWay_recovers (target source : Node) : Run.RecoversExcept (b.bindTwoWay E target source) := by
  refine .bind (compileTarget_recovers _ _) fun forward => .bind (compileTarget_recovers _ _) fun backward => ?_
  refine .bind (.adapt _ (compile_recovers _ _)) fun sourceValue => .bind (.adapt _ (compile_recovers _ _)) fun targetValue => ?_
  refine .lift (.bind newFlag_recovers fun syncing => ?_)
  have sides (ready : Ref .flag) : Run.Recovers (do
      let there ← forward.bind E (.guarded sourceValue b.scope syncing none) b.scope
      let back ← backward.bind E (.guarded targetValue b.scope syncing (some ready)) b.scope
      return Cancel.join [back, there]) :=
    .bind (forward.bind_recovers hE _ _) fun _ => .bind (backward.bind_recovers hE _ _) fun _ => .pure _
  simpa only [bind_assoc, pure_bind] using Run.Recovers.readying sides

theorem define_recovers (target : Node) (d : Descriptor) : Run.RecoversExcept (b.define E target d) := by
  refine .bind ?_ fun _ => .pure _
  cases d with
  | oneWay source => exact .bind (.adapt _ (compile_recovers _ _)) fun _ => bindOneWay_recovers hE _ _
  | twoWay source => exact bindTwoWay_recovers hE _ _
  | compute f args => exact .bind (.adapt _ (compileAll_recovers _ _)) fun _ => bindOneWay_recovers hE _ _

theorem cancelAll_recovers : Run.Recovers (b.cancelAll E) := by
  have each (handles : List (Cancel π)) : Run.Recovers (cancelInTurn E handles) := by
    induction handles with
    | nil => exact .pure _
    | cons handle handles ih => exact .bind (hE.cancel handle) fun _ => ih
  exact .bind (each _) fun _ => .pure _

end BindingSet

end

/-! ## A binding that is stuck -/

/-- A program whose listeners add to the first list. -/
def Host.pushing : Host Unit Unit where
  listener E _ _ := ListId.push E.reactions ⟨0⟩ [.null]
  observer _ _ _ := return ()
  teardown _ _ := return ()

/-- A list and an object with two keys, where a third dispatch within two panics. -/
def World.twoKeys : World (Callback Unit) (Env Unit Unit) where
  lists := #[{}]
  objects := #[{ entries := [("x", .null), ("y", .null)] }]
  config := { maxDispatchDepth := 2, onDepthExceeded := .panic }
  env := { host := () }

/-- The keys are bound to each other. A change of `y` sets `x`, and a listener there adds to the list, which panics. The panic is
caught and the listener removed: nothing is counted as in progress any more, but `x` does not follow `y`. -/
theorem BindingSet.stuck_after_panic : (do
      let E := engine Host.pushing 20
      discard ((BindingSet.ofObject ⟨0⟩).define E (.property .value "x") (.twoWay (.property .value "y"))).run
      let id ← (⟨0⟩ : ObjectId).listen (.after "x") (.user ())
      try (⟨0⟩ : ObjectId).assign E.reactions "y" (.text "a") catch _ => pure ()
      (⟨0⟩ : ObjectId).unlisten (.after "x") id
      (⟨0⟩ : ObjectId).assign E.reactions "y" (.text "b") : Live Unit Unit Unit).Ends .twoKeys fun _ w' =>
    w'.depth = 0 ∧ (w'.objectCell ⟨0⟩).entries = [("x", .text "a"), ("y", .text "b")] := by
  decide +kernel

end LiveBindings
