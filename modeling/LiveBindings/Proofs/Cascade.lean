import LiveBindings.Proofs.Limit

/-!
# Cascades of changes

Listeners answer to what they hear by changes of lists and objects (`Response`), and whoever listens to those answers in turn:
nothing but the limit of nested dispatches ends such a cascade. Under the policy that skips dispatches every call ends, with as
many dispatches in flight as before it and within as many nested calls as the limit leaves; and no listener is ever called while
more are in flight than the limit allows (`Responses.cascade_ends`).

Two runs are followed side by side (`Run.Alike`): of listeners that do the same up to the limit, with different bounds on the
calls inside each other. A dispatch leads from one depth to the next, and at the limit there is no next.
-/

namespace LiveBindings

variable {κ ε α β : Type}

/-! ## Listeners that answer by changes -/

/-- What a listener does when it hears an event: it changes lists and objects, and in between it works on anything else but the
configuration. How it goes on may depend on what it was answered and on the world as it is by then. -/
inductive Response (κ ε : Type)
  | done
  | giveUp (e : Fault)
  | change (op : Operation κ ε) (next : op.Answer → World κ ε → Response κ ε)
  | work (f : World κ ε → World κ ε) (depth : ∀ w, (f w).depth = w.depth) (config : ∀ w, (f w).config = w.config)
    (next : World κ ε → Response κ ε)

namespace Response

def run (R : Reactions κ ε) : Response κ ε → Run κ ε Unit
  | done => pure ()
  | giveUp e => throw e
  | change op next => do
    let a ← op.run R
    run R (next a (← get))
  | work f _ _ next => do
    modify f
    run R (next (← get))

/-- If a listener gives up, it is for one of some reasons. -/
def GivesUpFor (G : Fault → Prop) : Response κ ε → Prop
  | done => True
  | giveUp e => G e
  | change _ next => ∀ a w, GivesUpFor G (next a w)
  | work _ _ _ next => ∀ w, GivesUpFor G (next w)

end Response

/-- What every callback does on every event, in the world that it finds. -/
abbrev Responses (κ ε : Type) := κ → Event → World κ ε → Response κ ε

/-- The listeners answer as they are said to, and at most `nesting` of them are called inside each other. -/
def Responses.reactions (answer : Responses κ ε) (nesting : Nat) : Reactions κ ε where
  fire callback e := match nesting with
    | 0 => throw .exhausted
    | nesting + 1 => do (answer callback e (← get)).run (answer.reactions nesting)

/-! ## Two runs at one depth -/

/-- The end of a run that began with `depth` dispatches in flight under a configuration: both are as they were, and if the run
was abandoned, it was for one of some reasons. -/
inductive Run.Restores (G : Fault → Prop) (depth : Nat) (config : Config) : EStateM.Result Fault (World κ ε) α → Prop
  | ok {a w} (hd : w.depth = depth) (hc : w.config = config) : Restores G depth config (.ok a w)
  | error {e w} (he : G e) (hd : w.depth = depth) (hc : w.config = config) : Restores G depth config (.error e w)

/-- With `depth` dispatches in flight under a configuration, two computations are the same and restore both. -/
def Run.Alike (G : Fault → Prop) (depth : Nat) (config : Config) (act act' : Run κ ε α) : Prop :=
  ∀ w : World κ ε, w.depth = depth → w.config = config → act w = act' w ∧ Run.Restores G depth config (act w)

namespace Run.Alike

variable {G : Fault → Prop} {d : Nat} {c : Config} {act act' : Run κ ε α} {f f' : α → Run κ ε β}

theorem pure (a : α) : Run.Alike G d c (Pure.pure a : Run κ ε α) (Pure.pure a) := fun _ hd hc => ⟨rfl, .ok hd hc⟩

theorem throw {e : Fault} (he : G e) : Run.Alike G d c (MonadExcept.throw e : Run κ ε α) (MonadExcept.throw e) :=
  fun _ hd hc => ⟨rfl, .error he hd hc⟩

theorem bind (h : Run.Alike G d c act act') (hf : ∀ a, Run.Alike G d c (f a) (f' a)) :
    Run.Alike G d c (act >>= f) (act' >>= f') := by
  intro w hd hc
  obtain ⟨he, hr⟩ := h w hd hc
  change EStateM.bind act f w = EStateM.bind act' f' w ∧ Run.Restores G d c (EStateM.bind act f w)
  unfold EStateM.bind
  rw [← he]
  cases hw : act w with
  | ok a w' =>
    rw [hw] at hr
    cases hr with | ok hd' hc' => exact hf a w' hd' hc'
  | error e w' =>
    rw [hw] at hr
    cases hr with | error hG hd' hc' => exact ⟨rfl, .error hG hd' hc'⟩

/-- A computation that only looks at the world. -/
theorem reads {act : Run κ ε α} (h : ∀ w, ∃ a, act w = .ok a w) : Run.Alike G d c act act := by
  intro w hd hc
  obtain ⟨a, ha⟩ := h w
  rw [ha]
  exact ⟨rfl, .ok hd hc⟩

theorem discard (h : Run.Alike G d c act act') : Run.Alike G d c (Functor.discard act) (Functor.discard act') := by
  intro w hd hc
  obtain ⟨he, hr⟩ := h w hd hc
  change EStateM.map _ act w = EStateM.map _ act' w ∧ Run.Restores G d c (EStateM.map _ act w)
  unfold EStateM.map
  rw [← he]
  cases hw : act w with
  | ok a w' =>
    rw [hw] at hr
    cases hr with | ok hd' hc' => exact ⟨rfl, .ok hd' hc'⟩
  | error e w' =>
    rw [hw] at hr
    cases hr with | error hG hd' hc' => exact ⟨rfl, .error hG hd' hc'⟩

theorem modifies {f : World κ ε → World κ ε} (depth : ∀ w, (f w).depth = w.depth) (config : ∀ w, (f w).config = w.config) :
    Run.Alike G d c (modify f : Run κ ε PUnit) (modify f) :=
  fun w hd hc => ⟨rfl, .ok ((depth w).trans hd) ((config w).trans hc)⟩

/-- Part of the world is restored, also when the computation is abandoned. -/
theorem restoring (restore : World κ ε → World κ ε) {d' : Nat} (h : Run.Alike G d c act act')
    (depth : ∀ w, w.depth = d → (restore w).depth = d') (config : ∀ w, (restore w).config = w.config) {w : World κ ε}
    (hd : w.depth = d) (hc : w.config = c) :
    LiveBindings.restoring restore act w = LiveBindings.restoring restore act' w ∧
      Run.Restores G d' c (LiveBindings.restoring restore act w) := by
  obtain ⟨he, hr⟩ := h w hd hc
  unfold LiveBindings.restoring
  rw [← he]
  cases hw : act w with
  | ok a w' =>
    rw [hw] at hr
    cases hr with | ok hd' hc' => exact ⟨rfl, .ok (depth w' hd') ((config w').trans hc')⟩
  | error e w' =>
    rw [hw] at hr
    cases hr with | error hG hd' hc' => exact ⟨rfl, .error hG (depth w' hd') ((config w').trans hc')⟩

/-- A dispatch leads to the next depth, as long as there is one, and back. -/
theorem nested {container : Kind} {silent : Run κ ε α} (skip : c.onDepthExceeded = .skip)
    (hs : Run.Alike G d c silent silent) (h : d < c.maxDispatchDepth → Run.Alike G (d + 1) c act act') :
    Run.Alike G d c (LiveBindings.nested container silent act) (LiveBindings.nested container silent act') := by
  rintro w rfl rfl
  by_cases limit : w.config.maxDispatchDepth ≤ w.depth
  · rw [nested_silent limit skip, nested_silent limit skip]
    exact hs w rfl rfl
  · have back : ∀ u : World κ ε, u.depth = w.depth + 1 → u.shallower.depth = w.depth := by
      intro u hu
      rw [World.shallower, hu, Nat.add_sub_cancel]
    have deeper := (h (Nat.lt_of_not_le limit)).restoring World.shallower (w := w.deeper) back (fun _ => rfl) rfl rfl
    change (if _ then _ else _ : Run κ ε α) w = (if _ then _ else _ : Run κ ε α) w ∧
      Run.Restores G w.depth w.config ((if _ then _ else _ : Run κ ε α) w)
    rw [if_neg limit, if_neg limit]
    exact deeper

theorem withHeld {callbacks : List κ} (h : Run.Alike G d c act act') :
    Run.Alike G d c (LiveBindings.withHeld callbacks act) (LiveBindings.withHeld callbacks act') := by
  intro w hd hc
  exact h.restoring (fun u => { u with held := w.held }) (w := { w with held := callbacks ++ w.held })
    (fun _ hu => hu) (fun _ => rfl) hd hc

/-- An action between the announcements of a list. -/
theorem dispatching {l : ListId} (h : Run.Alike G d c act act') :
    Run.Alike G d c (l.dispatching act) (l.dispatching act') := by
  intro w hd hc
  exact h.restoring (World.modifyList l fun c => { c with dispatching := c.dispatching - 1 })
    (w := w.modifyList l fun c => { c with dispatching := c.dispatching + 1 }) (fun _ hu => hu) (fun _ => rfl) hd hc

end Run.Alike

/-- With `depth` dispatches in flight under a configuration, listeners answer alike, and so does what follows when they are let
go. -/
structure Reactions.Alike (G : Fault → Prop) (depth : Nat) (config : Config) (R R' : Reactions κ ε) : Prop where
  fire : ∀ callback e, Run.Alike G depth config (R.fire callback e) (R'.fire callback e)
  letGo : Run.Alike G depth config R.letGo R'.letGo

section

variable {G : Fault → Prop} {d : Nat} {c : Config} {R R' : Reactions κ ε} {l : ListId} {o : ObjectId}

/-! ## Passes over captured listeners -/

section

variable (hR : R.Alike G d c R')
include hR

theorem Reactions.Alike.holding {callbacks : List κ} {act act' : Run κ ε α} (h : Run.Alike G d c act act') :
    Run.Alike G d c (LiveBindings.holding R callbacks act) (LiveBindings.holding R' callbacks act') :=
  h.withHeld.bind fun a => hR.letGo.bind fun _ => .pure a

variable {τ : Type} {registered : World κ ε → ListenerId → Bool} {e : Event}

theorem Reactions.Alike.tell (x : Listener τ κ) : Run.Alike G d c (tell R registered e x) (tell R' registered e x) := by
  unfold LiveBindings.tell
  refine .bind (.reads fun w => ⟨w, rfl⟩) fun w => ?_
  split
  · exact hR.fire x.callback e
  · exact .pure ()

theorem Reactions.Alike.tellAll (xs : List (Listener τ κ)) :
    Run.Alike G d c (tellAll R registered e xs) (tellAll R' registered e xs) := by
  induction xs with
  | nil => exact .pure ()
  | cons x xs ih => exact (hR.tell x).bind fun _ => ih

theorem Reactions.Alike.tellInTurn (xs : List (Listener τ κ)) :
    Run.Alike G d c (tellInTurn R registered e xs) (tellInTurn R' registered e xs) := by
  induction xs with
  | nil => exact .pure ()
  | cons x xs ih => exact (hR.holding (hR.tell x)).withHeld.bind fun _ => ih

theorem ListId.tellItems_alike (xs : List (Listener ListTopic κ)) (count index : Nat) :
    Run.Alike G d c (l.tellItems R xs count index) (l.tellItems R' xs count index) := by
  induction count generalizing index with
  | zero => exact .pure ()
  | succ count ih =>
    exact .bind (.reads fun _ => ⟨_, rfl⟩) fun _ => (hR.tellAll xs).bind fun _ => ih (index + 1)

theorem ListId.tellSpan_alike (topic : ListTopic) (change : ListChange) :
    Run.Alike G d c (l.tellSpan R topic change) (l.tellSpan R' topic change) := by
  unfold ListId.tellSpan
  refine .bind (.reads fun _ => ⟨_, rfl⟩) fun xs => ?_
  split
  · exact .pure ()
  · exact hR.holding (ListId.tellItems_alike hR xs _ _)

theorem ListId.tellLength_alike (topic : ListTopic) (length : Nat) :
    Run.Alike G d c (l.tellLength R topic length) (l.tellLength R' topic length) :=
  .bind (.reads fun _ => ⟨_, rfl⟩) fun xs => hR.holding (hR.tellAll xs)

theorem ListId.tellContent_alike (topic : ListTopic) (report : ListReport) :
    Run.Alike G d c (l.tellContent R topic report) (l.tellContent R' topic report) :=
  .bind (.reads fun _ => ⟨_, rfl⟩) fun xs => hR.tellInTurn xs

theorem ObjectId.tellEntry_alike (key : String) (value : Value) :
    Run.Alike G d c (o.tellEntry R key value) (o.tellEntry R' key value) :=
  .bind (.reads fun _ => ⟨_, rfl⟩) fun xs => hR.holding (hR.tellAll xs)

end

/-! ## Changes -/

section

variable (skip : c.onDepthExceeded = .skip) (hR : d < c.maxDispatchDepth → R.Alike G (d + 1) c R')
include skip hR

theorem ListId.apply_alike {change : ListChange} {before : ListReport} {mutate : Run κ ε ListReport}
    (hm : ∀ d, Run.Alike G d c mutate mutate) :
    Run.Alike G d c (l.apply R change before mutate) (l.apply R' change before mutate) := by
  refine .nested skip (hm d) fun below => ?_
  have hR := hR below
  have hbetween : Run.Alike G (d + 1) c
      (l.dispatching do
        l.tellContent R .beforeContent before
        l.tellSpan R .beforeEach change
        let after ← mutate
        l.tellSpan R .each change
        l.tellContent R .content after
        return after)
      (l.dispatching do
        l.tellContent R' .beforeContent before
        l.tellSpan R' .beforeEach change
        let after ← mutate
        l.tellSpan R' .each change
        l.tellContent R' .content after
        return after) :=
    .dispatching <| (ListId.tellContent_alike hR _ _).bind fun _ => (ListId.tellSpan_alike hR _ _).bind fun _ =>
      (hm _).bind fun after => (ListId.tellSpan_alike hR _ _).bind fun _ => (ListId.tellContent_alike hR _ _).bind fun _ =>
        .pure after
  have hlast : ∀ after : ListReport, Run.Alike G (d + 1) c
      (do l.tellLength R .length (← l.length); return after) (do l.tellLength R' .length (← l.length); return after) :=
    fun after => .bind (.reads fun _ => ⟨_, rfl⟩) fun _ => (ListId.tellLength_alike hR _ _).bind fun _ => .pure after
  dsimp only
  by_cases changes : (change.oldLength != change.newLength) = true
  · simp only [if_pos changes]
    exact (ListId.tellLength_alike hR _ _).bind fun _ => hbetween.bind hlast
  · simp only [if_neg changes]
    exact hbetween.bind fun after => .pure after

theorem ObjectId.change_alike (key : String) (old new : Value) (f : List (String × Value) → List (String × Value)) :
    Run.Alike G d c (o.change R key old new f) (o.change R' key old new f) := by
  have hm : ∀ d, Run.Alike G d c (o.modifyEntries f : Run κ ε Unit) (o.modifyEntries f) :=
    fun _ => .modifies (fun _ => rfl) fun _ => rfl
  refine .nested skip (hm d) fun below => ?_
  have hR := hR below
  refine .bind (.reads fun _ => ⟨_, rfl⟩) fun before => .bind (.reads fun _ => ⟨_, rfl⟩) fun after => ?_
  refine hR.holding ?_
  exact (hR.tellAll before).bind fun _ => (hm _).bind fun _ => (hR.tellAll after).bind fun _ =>
    ObjectId.tellEntry_alike hR key new

theorem ListId.splice_alike (index remove : Nat) (plus : List Value) :
    Run.Alike G d c (l.splice R index remove plus) (l.splice R' index remove plus) := by
  unfold ListId.splice
  refine .bind (.reads fun _ => ⟨_, rfl⟩) fun items => ?_
  dsimp only
  split
  · exact .pure []
  · refine .bind (ListId.apply_alike skip hR fun d => ?_) fun _ => .pure _
    exact .bind (.reads fun _ => ⟨_, rfl⟩) fun _ => .bind (.modifies (fun _ => rfl) fun _ => rfl) fun _ => .pure _

theorem ListId.reorder_alike (order : World κ ε → List Value → List Value) :
    Run.Alike G d c (l.reorder R order) (l.reorder R' order) := by
  unfold ListId.reorder
  refine .bind (.reads fun _ => ⟨_, rfl⟩) fun items => ?_
  dsimp only
  split
  · exact .pure ()
  · refine .discard (ListId.apply_alike skip hR fun d => ?_)
    exact .bind (.reads fun _ => ⟨_, rfl⟩) fun _ => .bind (.modifies (fun _ => rfl) fun _ => rfl) fun _ => .pure _

theorem ListOperation.run_alike (op : ListOperation κ ε) : Run.Alike G d c (op.run R l) (op.run R' l) := by
  have splice := fun index remove plus => ListId.splice_alike (l := l) skip hR index remove plus
  have reorder := fun order => ListId.reorder_alike (l := l) skip hR order
  have sortBy : ∀ compare, Run.Alike G d c (l.sortBy R compare) (l.sortBy R' compare) := fun compare => reorder _
  have hlength : Run.Alike G d c (l.length : Run κ ε Nat) l.length := .reads fun _ => ⟨_, rfl⟩
  cases op with
  | splice index remove plus => exact splice index remove plus
  | push values =>
    change Run.Alike G d c (l.push R values) (l.push R' values)
    exact hlength.bind fun _ => (splice _ _ _).discard
  | pop =>
    change Run.Alike G d c (l.pop R) (l.pop R')
    refine hlength.bind fun _ => ?_
    split
    · exact .pure none
    · exact (splice _ _ _).bind fun _ => .pure _
  | shift =>
    change Run.Alike G d c (l.shift R) (l.shift R')
    refine hlength.bind fun _ => ?_
    split
    · exact .pure none
    · exact (splice _ _ _).bind fun _ => .pure _
  | unshift values => exact (splice 0 0 values).discard
  | set index value =>
    change Run.Alike G d c (l.assign R index value) (l.assign R' index value)
    refine hlength.bind fun _ => ?_
    split
    · refine .bind (.reads fun _ => ⟨_, rfl⟩) fun _ => ?_
      split
      · exact .pure ()
      · exact (splice _ _ _).discard
    · exact (splice _ _ _).discard
  | delete value =>
    change Run.Alike G d c (l.delete R value) (l.delete R' value)
    refine .bind (.reads fun _ => ⟨_, rfl⟩) fun index => ?_
    split
    · exact (splice _ _ _).discard.bind fun _ => .pure true
    · exact .pure false
  | wipe =>
    change Run.Alike G d c (l.wipe R) (l.wipe R')
    exact hlength.bind fun _ => (splice _ _ _).discard
  | replaceAll values =>
    change Run.Alike G d c (l.replaceAll R values) (l.replaceAll R' values)
    exact hlength.bind fun _ => (splice _ _ _).discard
  | reverse => exact reorder fun _ items => items.reverse
  | sort => exact sortBy fun _ => Value.compare
  | sortBy compare => exact sortBy compare

theorem ObjectOperation.run_alike (op : ObjectOperation) : Run.Alike G d c (op.run R o) (op.run R' o) := by
  have change := fun key old new f => ObjectId.change_alike (o := o) skip hR key old new f
  cases op with
  | set key value =>
    change Run.Alike G d c (o.assign R key value) (o.assign R' key value)
    unfold ObjectId.assign
    refine .bind (.reads fun _ => ⟨_, rfl⟩) fun entries => ?_
    split
    · split
      · exact .pure ()
      · exact change _ _ _ _
    · split
      · refine .bind (.modifies (fun _ => rfl) fun _ => rfl) fun _ => ?_
        exact .nested skip (.pure ()) fun below => ObjectId.tellEntry_alike (hR below) key .undefined
      · exact change _ _ _ _
  | delete key =>
    change Run.Alike G d c (o.delete R key) (o.delete R' key)
    unfold ObjectId.delete
    refine .bind (.reads fun _ => ⟨_, rfl⟩) fun entries => ?_
    split
    · exact (change _ _ _ _).bind fun _ => .pure _
    · exact .pure none

/-- A change is the same when the listeners answer alike in the dispatch that it makes, if it makes one. -/
theorem Operation.run_alike (op : Operation κ ε) : Run.Alike G d c (op.run R) (op.run R') := by
  cases op with
  | list l op => exact ListOperation.run_alike skip hR op
  | object o op => exact ObjectOperation.run_alike skip hR op

/-- What a listener does is the same when those that hear of its changes answer alike. -/
theorem Response.run_alike {response : Response κ ε} (h : response.GivesUpFor G) :
    Run.Alike G d c (response.run R) (response.run R') := by
  induction response with
  | done => exact .pure ()
  | giveUp e => exact .throw h
  | change op next ih =>
    exact (Operation.run_alike skip hR op).bind fun a => .bind (.reads fun w => ⟨w, rfl⟩) fun w => ih a w (h a w)
  | work f depth config next ih =>
    exact (Run.Alike.modifies depth config).bind fun _ => .bind (.reads fun w => ⟨w, rfl⟩) fun w => ih w (h w)

end

/-! ## Cascades -/

/-- Listeners that do the same up to the limit answer alike, as long as the bound on calls inside each other leaves one for
every depth up to the limit. -/
theorem Responses.reactions_alike {answer answer' : Responses κ ε} (skip : c.onDepthExceeded = .skip)
    (hG : ∀ callback e w, (answer callback e w).GivesUpFor G)
    (same : ∀ callback e w, w.depth ≤ c.maxDispatchDepth → answer callback e w = answer' callback e w) (n n' : Nat)
    (hd : d ≤ c.maxDispatchDepth) (hn : c.maxDispatchDepth < d + n) (hn' : c.maxDispatchDepth < d + n') :
    (answer.reactions n).Alike G d c (answer'.reactions n') := by
  induction n generalizing d n' with
  | zero => exact absurd hn (Nat.not_lt.2 hd)
  | succ n ih =>
    cases n' with
    | zero => exact absurd hn' (Nat.not_lt.2 hd)
    | succ n' =>
      refine ⟨fun callback e w hw hc => ?_, .pure ()⟩
      have next : d < c.maxDispatchDepth → (answer.reactions n).Alike G (d + 1) c (answer'.reactions n') :=
        fun below => ih n' below (by omega) (by omega)
      have hanswer := same callback e w (hw.trans_le hd)
      have hrun := Response.run_alike skip next (hG callback e w) w hw hc
      unfold Responses.reactions
      change (answer callback e w).run _ w = (answer' callback e w).run _ w ∧ _
      rw [← hanswer]
      exact hrun

/-- Under the policy that skips dispatches the limit ends every cascade. Whatever listeners answer to what they hear, a change of
a list or an object ends: with as many dispatches in flight as before it, and abandoned only if a listener gave up. At most as
many listeners are called inside each other as the limit leaves dispatches, so that a higher bound makes no difference; and none
is called while more dispatches are in flight than the limit allows, so that what they would do then makes none either. -/
theorem Responses.cascade_ends {w : World κ ε} {n : Nat} (answer : Responses κ ε) (op : Operation κ ε)
    (skip : w.config.onDepthExceeded = .skip) (hn : w.config.maxDispatchDepth ≤ w.depth + n)
    (hG : ∀ callback e u, (answer callback e u).GivesUpFor G) :
    Run.Restores G w.depth w.config (op.run (answer.reactions n) w) ∧
      ∀ answer' : Responses κ ε,
        (∀ callback e u, u.depth ≤ w.config.maxDispatchDepth → answer' callback e u = answer callback e u) →
          ∀ n', w.config.maxDispatchDepth ≤ w.depth + n' →
            op.run (answer'.reactions n') w = op.run (answer.reactions n) w := by
  have alike : ∀ answer' : Responses κ ε,
      (∀ callback e u, u.depth ≤ w.config.maxDispatchDepth → answer' callback e u = answer callback e u) →
        ∀ n', w.config.maxDispatchDepth ≤ w.depth + n' →
          Run.Alike G w.depth w.config (op.run (answer.reactions n)) (op.run (answer'.reactions n')) := by
    intro answer' same n' hn'
    refine Operation.run_alike skip (fun below => ?_) op
    exact answer.reactions_alike skip hG (fun callback e u hu => (same callback e u hu).symm) n n' below (by omega) (by omega)
  refine ⟨(alike answer (fun _ _ _ _ => rfl) n hn w rfl rfl).2, fun answer' same n' hn' => ?_⟩
  exact (alike answer' same n' hn' w rfl rfl).1.symm

end

/-- Two listeners, each of which answers to every change by one item more in the list of the other. -/
def Responses.volley : Responses Bool Unit := fun callback _ _ =>
  .change (.list ⟨if callback then 1 else 0⟩ (.push [.null])) fun _ _ => .done

/-- Two empty lists with those listeners, and a limit of three dispatches. -/
def World.volley : World Bool Unit where
  lists := #[{ listeners := [⟨⟨0⟩, .content, true⟩] }, { listeners := [⟨⟨1⟩, .content, false⟩] }]
  config := { maxDispatchDepth := 3 }
  env := ()

/-- After three dispatches the fourth item is added without a word, and that is the end of it. -/
theorem Responses.cascade_ends_volley :
    World.volley.config.onDepthExceeded = .skip ∧ World.volley.config.maxDispatchDepth ≤ World.volley.depth + 3 ∧
      (∀ callback e u, (Responses.volley callback e u).GivesUpFor fun _ => False) ∧
      ((ListId.push (Responses.volley.reactions 3) ⟨0⟩ [.null]).Ends World.volley fun _ w =>
        w.lists.map (·.items.length) = #[2, 2]) ∧
      Run.Restores (fun _ => False) 0 World.volley.config
        ((Operation.list ⟨0⟩ (.push [.null])).run (Responses.volley.reactions 3) World.volley) := by
  have skip : World.volley.config.onDepthExceeded = .skip := rfl
  have nesting : World.volley.config.maxDispatchDepth ≤ World.volley.depth + 3 := Nat.le.refl
  have answers : ∀ callback e u, (Responses.volley callback e u).GivesUpFor fun _ => False := fun _ _ _ _ _ => trivial
  refine ⟨skip, nesting, answers, by decide +kernel, ?_⟩
  exact (Responses.volley.cascade_ends (.list ⟨0⟩ (.push [.null])) skip nesting answers).1

end LiveBindings
