import LiveBindings.Proofs.Leads
import LiveBindings.Proofs.Pieces
import LiveBindings.Proofs.Same

/-!
# How a mutation of a list goes

Every operation that changes a list makes one step of its own, between the announcements before it (`ListId.opening`) and
those after it (`ListId.closing`). `Course` says how a run of an operation can go, whatever the listeners do in it: there
was nothing to change, the dispatch was refused or made without telling anyone at the limit, a listener abandoned it before
or after the step, or all were told. In all of these the report that the content listeners are handed is the one of the
step that was made (`OwnStep.Exact`), to the items that the list had by then. Splices and reorderings go by such a course
(`ListId.splice_course`, `ListId.reorder_course`).
-/

namespace LiveBindings

variable {κ ε α β : Type}

/-! ## Around the step -/

namespace ListId

/-- What is announced before the step of a change. -/
def opening (R : Reactions κ ε) (l : ListId) (change : ListChange) (before : ListReport) : Run κ ε Unit := do
  if change.oldLength != change.newLength then l.tellLength R .beforeLength change.oldLength
  modify (World.modifyList l fun c => { c with dispatching := c.dispatching + 1 })
  l.tellContent R .beforeContent before
  l.tellSpan R .beforeEach change

/-- What is announced after the step of a change; the content listeners are handed `report`. -/
def closing (R : Reactions κ ε) (l : ListId) (change : ListChange) (report : ListReport) : Run κ ε Unit := do
  l.tellSpan R .each change
  l.tellContent R .content report
  modify (World.modifyList l fun c => { c with dispatching := c.dispatching - 1 })
  if change.oldLength != change.newLength then l.tellLength R .length (← l.length)

end ListId

/-- The step that a mutation itself makes: the world right before it, its report, and the world right after it. -/
structure OwnStep (κ ε : Type) where
  before : World κ ε
  report : ListReport
  after : World κ ε

namespace OwnStep

/-- The items of the list right before the step. -/
def old (s : OwnStep κ ε) (l : ListId) : List Value := (s.before.listCell l).items

/-- The items of the list right after the step. -/
def new (s : OwnStep κ ε) (l : ListId) : List Value := (s.after.listCell l).items

/-- The report says what the step did, and the step changes nothing but the items of the list. -/
structure Exact (l : ListId) (s : OwnStep κ ε) : Prop where
  only : ∃ items, s.after = s.before.modifyList l fun c => { c with items }
  inside : s.report.index + s.report.removed.length ≤ (s.old l).length
  replaced : s.new l = replaceRun (s.old l) s.report.index s.report.removed.length s.report.added

end OwnStep

/-- How a run that mutates a list goes, from a world `w` to an outcome. `idle` are the answers when there is nothing to
change, `made` are the steps that may be made, and `returns` the answers to a report. -/
inductive Course (R : Reactions κ ε) (l : ListId) (w : World κ ε) (idle : α → Prop) (made : OwnStep κ ε → Prop)
    (returns : ListReport → α → Prop) : Except Fault (α × World κ ε) → Prop
  /-- Nothing is changed and nobody is told. -/
  | idle {a : α} : idle a → Course R l w idle made returns (.ok (a, w))
  /-- The limit of nested dispatches is reached, and the policy refuses the change. -/
  | refused : w.config.maxDispatchDepth ≤ w.depth →
      Course R l w idle made returns (.error (.depthLimit .list w.depth))
  /-- The limit of nested dispatches is reached, and the change is made without telling anyone. -/
  | silent {s : OwnStep κ ε} {a : α} : w.config.maxDispatchDepth ≤ w.depth → s.before = w → made s →
      returns s.report a → Course R l w idle made returns (.ok (a, s.after))
  /-- A listener abandons the run before the step. -/
  | stopped {change : ListChange} {before : ListReport} {e : Fault} :
      (l.opening R change before).outcome w.deeper = .error e → Course R l w idle made returns (.error e)
  /-- The step is made and everyone is told. -/
  | told {change : ListChange} {before : ListReport} {s : OwnStep κ ε} {a : α} {w' : World κ ε} :
      (l.opening R change before).outcome w.deeper = .ok ((), s.before) → made s →
      (l.closing R change s.report).outcome s.after = .ok ((), w') → returns s.report a →
      Course R l w idle made returns (.ok (a, w'.shallower))
  /-- The step is made, and a listener abandons the run after it. -/
  | cutShort {change : ListChange} {before : ListReport} {s : OwnStep κ ε} {e : Fault} :
      (l.opening R change before).outcome w.deeper = .ok ((), s.before) → made s →
      (l.closing R change s.report).outcome s.after = .error e → Course R l w idle made returns (.error e)

section

variable {R : Reactions κ ε} {l : ListId} {w : World κ ε} {idle : α → Prop} {idle' : β → Prop}
  {made made' : OwnStep κ ε → Prop} {returns : ListReport → α → Prop} {returns' : ListReport → β → Prop}

/-- What is returned may be made something else of. -/
theorem Course.map {out : Except Fault (α × World κ ε)} (h : Course R l w idle made returns out) (f : α → β)
    (hi : ∀ a, idle a → idle' (f a)) (hm : ∀ s, made s → made' s) (hr : ∀ r a, returns r a → returns' r (f a)) :
    Course R l w idle' made' returns' (out.map fun p => (f p.1, p.2)) := by
  cases h with
  | idle h => exact .idle (hi _ h)
  | refused h => exact .refused h
  | silent h hb h₁ h₂ => exact .silent h hb (hm _ h₁) (hr _ _ h₂)
  | stopped h => exact .stopped h
  | told h h₁ h₂ h₃ => exact .told h (hm _ h₁) h₂ (hr _ _ h₃)
  | cutShort h h₁ h₂ => exact .cutShort h (hm _ h₁) h₂

/-- Below the limit of nested dispatches a change is announced, made and announced again. -/
theorem ListId.apply_below (R : Reactions κ ε) (change : ListChange) (before : ListReport)
    (mutate : Run κ ε ListReport) (h : ¬w.config.maxDispatchDepth ≤ w.depth) :
    (l.apply R change before mutate).outcome w = do
      let opened ← (l.opening R change before).outcome w.deeper
      let made ← mutate.outcome opened.2
      let closed ← (l.closing R change made.1).outcome made.2
      return (made.1, closed.2.shallower) := by
  rw [ListId.apply, Run.outcome_nested, if_neg h]
  unfold ListId.opening ListId.closing ListId.dispatching
  by_cases hl : change.oldLength = change.newLength
  all_goals simp [hl]

/-- What a change below that limit leads to. -/
theorem ListId.apply_leads_iff (hd : w.depth < w.config.maxDispatchDepth) {change : ListChange} {before : ListReport}
    {mutate : Run κ ε ListReport} {Q : ListReport → World κ ε → Prop} :
    (l.apply R change before mutate).Leads w Q ↔
      (l.opening R change before).Leads w.deeper fun _ w₁ => mutate.Leads w₁ fun after w₂ =>
        (l.closing R change after).Leads w₂ fun _ w₃ => Q after w₃.shallower := by
  rw [ListId.apply, Run.leads_nested_below hd]
  unfold ListId.opening ListId.closing ListId.dispatching
  by_cases hc : change.oldLength = change.newLength
  all_goals simp [hc]

/-- A change that is announced goes by its course, when its step can be made from wherever the announcements before it
lead to. -/
theorem ListId.apply_course {change : ListChange} {before : ListReport} {mutate : Run κ ε ListReport}
    {reached : World κ ε → Prop} (start : reached w)
    (opened : (l.opening R change before).Leads w.deeper fun _ => reached)
    (step : ∀ w₁, reached w₁ → ∃ s : OwnStep κ ε, s.before = w₁ ∧ mutate.outcome w₁ = .ok (s.report, s.after) ∧ made s) :
    Course R l w (fun _ : ListReport => False) made (fun r a => a = r) ((l.apply R change before mutate).outcome w) := by
  by_cases limit : w.config.maxDispatchDepth ≤ w.depth
  · obtain ⟨s, hb, he, hm⟩ := step w start
    rw [ListId.apply, Run.outcome_nested, if_pos limit]
    cases w.config.onDepthExceeded with
    | panic => exact .refused limit
    | skip =>
      simp only [he]
      exact .silent limit hb hm rfl
  · rw [ListId.apply_below R change before mutate limit]
    cases ho : (l.opening R change before).outcome w.deeper with
    | error e => exact .stopped ho
    | ok p =>
      obtain ⟨u, w₁⟩ := p
      obtain ⟨s, rfl, he, hm⟩ := step w₁ (opened.of_outcome ho)
      simp only [bind, Except.bind, he]
      cases hc : (l.closing R change s.report).outcome s.after with
      | error e => exact .cutShort ho hm hc
      | ok p => exact .told ho hm hc rfl

/-- The registered callbacks keep what is announced about a list, whatever the topics that are announced. -/
theorem ListId.tellItems_leads {I : World κ ε → Prop} {ls : List (Listener ListTopic κ)}
    (hfire : ∀ lst ∈ ls, ∀ e w, I w → (R.fire lst.callback e).Leads w fun _ => I) (h : I w)
    (count index : Nat) : (ListId.tellItems R l ls count index).Leads w fun _ => I := by
  induction count generalizing w index with
  | zero => exact h
  | succ count ih =>
    simp only [ListId.tellItems, ListId.get, ListId.items, Run.leads_bind, Run.leads_get, Run.leads_pure]
    exact (tellAll_leads (fun lst hl => hfire lst hl _) h).imp fun _ w₁ h₁ => ih h₁ _

section

variable {I : World κ ε → Prop} {T : ListTopic → Prop} (hR : R.UpholdsOn l T I)
include hR

/-- The listeners of a topic that is among those upheld keep `I`. -/
theorem Reactions.UpholdsOn.captured {topic : ListTopic} (ht : T topic) (h : I w) :
    ∀ lst ∈ Listeners.on topic (w.listCell l).listeners, ∀ e w', I w' → (R.fire lst.callback e).Leads w' fun _ => I := by
  intro lst hl
  obtain ⟨hl, he⟩ := List.mem_filter.1 hl
  exact hR.fire h hl (of_decide_eq_true he ▸ ht)

theorem ListId.tellLength_leads {topic : ListTopic} (ht : T topic) (length : Nat) (h : I w) :
    (l.tellLength R topic length).Leads w fun _ => I := by
  simp only [ListId.tellLength, ListId.listeners, Run.leads_bind, Run.leads_stateGet, Run.leads_pure]
  exact holding_leads hR.held hR.letGo (fun _ hw => tellAll_leads (fun lst hl => hR.captured ht h lst hl _) hw) h

theorem ListId.tellContent_leads {topic : ListTopic} (ht : T topic) (report : ListReport) (h : I w) :
    (l.tellContent R topic report).Leads w fun _ => I := by
  simp only [ListId.tellContent, ListId.listeners, Run.leads_bind, Run.leads_stateGet, Run.leads_pure]
  exact tellInTurn_leads hR.held hR.letGo (fun lst hl => hR.captured ht h lst hl _) h

theorem ListId.tellSpan_leads {topic : ListTopic} (ht : T topic) (change : ListChange) (h : I w) :
    (l.tellSpan R topic change).Leads w fun _ => I := by
  simp only [ListId.tellSpan, ListId.listeners, Run.leads_bind, Run.leads_stateGet, Run.leads_pure]
  split
  · exact h
  · exact holding_leads hR.held hR.letGo (fun _ hw => ListId.tellItems_leads (hR.captured ht h) hw _ _) h

/-- The announcements before a change keep what the callbacks keep that hear them. -/
theorem ListId.opening_leads (ht : ∀ topic, topic = .beforeLength ∨ topic = .beforeContent ∨ topic = .beforeEach → T topic)
    (change : ListChange) (before : ListReport) (h : I w) : (l.opening R change before).Leads w fun _ => I := by
  have rest : ∀ w, I w → Run.Leads (do
      modify (World.modifyList l fun c => { c with dispatching := c.dispatching + 1 })
      l.tellContent R .beforeContent before
      l.tellSpan R .beforeEach change) w fun _ => I := by
    intro w h
    simp only [Run.leads_bind, Run.leads_modify]
    have h := hR.dispatching w (· + 1) h
    refine (ListId.tellContent_leads hR (ht .beforeContent (by simp)) _ h).imp fun _ w₁ h₁ => ?_
    exact ListId.tellSpan_leads hR (ht .beforeEach (by simp)) _ h₁
  unfold ListId.opening
  split
  · rw [Run.leads_bind]
    exact (ListId.tellLength_leads hR (ht .beforeLength (by simp)) _ h).imp fun _ => rest
  · exact rest w h

/-- So do those after it. -/
theorem ListId.closing_leads (ht : ∀ topic, topic = .each ∨ topic = .content ∨ topic = .length → T topic)
    (change : ListChange) (report : ListReport) (h : I w) : (l.closing R change report).Leads w fun _ => I := by
  unfold ListId.closing
  rw [Run.leads_bind]
  refine (ListId.tellSpan_leads hR (ht .each (by simp)) _ h).imp fun _ w₁ h₁ => ?_
  rw [Run.leads_bind]
  refine (ListId.tellContent_leads hR (ht .content (by simp)) _ h₁).imp fun _ w₂ h₂ => ?_
  rw [Run.leads_bind, Run.leads_modify]
  have h₃ := hR.dispatching w₂ (· - 1) h₂
  split
  · simp only [ListId.length, ListId.items, Run.leads_bind, Run.leads_get, Run.leads_pure]
    exact ListId.tellLength_leads hR (ht .length (by simp)) _ h₃
  · exact h₃

end

end

/-! ## The two kinds of steps -/

/-- A list that was made. -/
def ListId.Exists (l : ListId) (w : World κ ε) : Prop := l.index < w.lists.size

theorem ListId.exists_lasting (l : ListId) : World.Lasting (l.Exists : World κ ε → Prop) where
  held _ _ h := h
  depth _ _ h := h
  nextListener _ _ h := h
  list w l' f h := by
    unfold ListId.Exists at h ⊢
    rwa [World.lists_size_modifyList]

namespace OwnStep

/-- The step sets the items of the list. -/
def setItems (l : ListId) (w : World κ ε) (items : List Value) (report : ListReport) : OwnStep κ ε where
  before := w
  report := report
  after := w.modifyList l fun c => { c with items }

theorem old_setItems (l : ListId) (w : World κ ε) (items : List Value) (report : ListReport) :
    (setItems l w items report).old l = (w.listCell l).items := rfl

theorem new_setItems {l : ListId} {w : World κ ε} (h : l.Exists w) (items : List Value) (report : ListReport) :
    (setItems l w items report).new l = items := by
  unfold setItems new
  rw [World.listCell_modifyList, if_pos ⟨rfl, h⟩]

/-- The step of a splice: what was removed is what left the list, and `plus` is what came in its place. -/
structure Splices (l : ListId) (plus : List Value) (s : OwnStep κ ε) : Prop extends s.Exact l where
  left : s.report.removed = ((s.old l).drop s.report.index).take s.report.removed.length
  entered : s.report.added = plus

/-- The step of a reordering: the whole list is put in its place in another order. -/
structure Reorders (l : ListId) (s : OwnStep κ ε) : Prop extends s.Exact l where
  whole : s.report.index = 0 ∧ s.report.removed.length = (s.old l).length
  permuted : s.report.added.Perm (s.old l)

end OwnStep

/-- Replacing a run from wherever it is cut off at the length. -/
theorem replaceRun_min (items : List Value) (index remove : Nat) (plus : List Value) :
    replaceRun items (min index items.length) (min remove (items.length - min index items.length)) plus =
      replaceRun items (min index items.length) remove plus := by
  unfold replaceRun
  congr 1
  by_cases h : remove ≤ items.length - min index items.length
  · rw [Nat.min_eq_left h]
  · rw [List.drop_eq_nil_of_le (by omega), List.drop_eq_nil_of_le (by omega)]

/-- Replacing all of a list. -/
theorem replaceRun_whole {items : List Value} {n : Nat} (h : items.length ≤ n) (plus : List Value) :
    replaceRun items 0 n plus = plus := by
  unfold replaceRun
  rw [List.drop_eq_nil_of_le (by omega), List.take_zero, List.nil_append, List.append_nil]

/-- The replacement of a run makes a step from every world that has the list, cut off at the length that the list has
there. -/
theorem ListId.replaceItems_step {l : ListId} {w : World κ ε} (h : l.Exists w) (index remove : Nat) (plus : List Value) :
    ∃ s : OwnStep κ ε, s.before = w ∧ (l.replaceItems index remove plus).outcome w = .ok (s.report, s.after) ∧
      s.Splices l plus ∧ s.report.index = min index (w.listCell l).items.length ∧
      s.report.removed.length = min remove ((w.listCell l).items.length - s.report.index) := by
  let items := (w.listCell l).items
  let start := min index items.length
  let stop := min (index + remove) items.length
  let report : ListReport := { index := start, added := plus, removed := (items.take stop).drop start }
  have hlen : report.removed.length = stop - start := by
    simp only [report, List.length_drop, List.length_take]
    omega
  refine ⟨OwnStep.setItems l w (replaceRun items start (stop - start) plus) report, rfl, rfl, ⟨⟨⟨_, rfl⟩, ?_, ?_⟩, ?_, rfl⟩,
    rfl, ?_⟩
  · rw [OwnStep.old_setItems]
    change start + report.removed.length ≤ items.length
    omega
  · rw [OwnStep.new_setItems h, OwnStep.old_setItems]
    change _ = replaceRun items start report.removed.length plus
    rw [hlen]
  · rw [OwnStep.old_setItems]
    change (items.take stop).drop start = (items.drop start).take report.removed.length
    rw [hlen, List.drop_take]
  · change report.removed.length = min remove (items.length - start)
    omega

section

variable {R : Reactions κ ε} {l : ListId} {w : World κ ε}

@[simp] theorem ListId.outcome_length (l : ListId) (w : World κ ε) :
    (l.length : Run κ ε _).outcome w = pure ((w.listCell l).items.length, w) := rfl

@[simp] theorem ListId.outcome_get (l : ListId) (index : Nat) (w : World κ ε) :
    (l.get index : Run κ ε _).outcome w = pure ((w.listCell l).items.getD index .undefined, w) := rfl

@[simp] theorem ListId.outcome_items (l : ListId) (w : World κ ε) :
    (l.items : Run κ ε _).outcome w = pure ((w.listCell l).items, w) := rfl

/-- The announcements before a change leave the list where it is. -/
theorem ListId.opening_exists (hR : R.Keeps l.Exists) (h : l.Exists w) (change : ListChange) (before : ListReport) :
    (l.opening R change before).Leads w.deeper fun _ => l.Exists :=
  ListId.opening_leads ((hR.upholds l.exists_lasting.steady).on l) (fun _ _ => trivial) change before h

/-- A splice goes by its course. What it returns left the list. -/
theorem ListId.splice_course (hR : R.Keeps l.Exists) (h : l.Exists w) (index remove : Nat) (plus : List Value) :
    Course R l w
      (fun removed => removed = [] ∧ plus = [] ∧
        (((w.listCell l).items.drop (min index (w.listCell l).items.length)).take remove) = [])
      (fun s => s.Splices l plus ∧ (s.old l = (w.listCell l).items →
        s.new l = replaceRun (s.old l) (min index (s.old l).length) remove plus))
      (fun report removed => removed = report.removed)
      ((l.splice R index remove plus).outcome w) := by
  unfold ListId.splice
  simp only [Run.outcome_bind, ListId.outcome_items, pure_bind]
  split
  · rename_i hnone
    rw [Bool.and_eq_true, List.isEmpty_iff, List.isEmpty_iff] at hnone
    exact .idle ⟨rfl, hnone⟩
  · rw [Run.outcome_bind]
    refine (ListId.apply_course h (ListId.opening_exists hR h _ _) fun w₁ h₁ => ?_).map (·.removed) (fun _ => False.elim)
      (fun _ => id) fun _ _ => congrArg _
    obtain ⟨s, rfl, hs, hsplices, hindex, hlen⟩ := ListId.replaceItems_step h₁ (min index (w.listCell l).items.length)
      ((((w.listCell l).items.drop (min index (w.listCell l).items.length)).take remove).length) plus
    refine ⟨s, rfl, hs, hsplices, fun hold => ?_⟩
    change s.old l = _ at hold
    change s.report.index = min _ (s.old l).length at hindex
    rw [hsplices.replaced, hsplices.entered, hlen, hindex, hold, List.length_take, List.length_drop]
    change (s.before.listCell l).items = _ at hold
    rw [hold, Nat.min_assoc, Nat.min_self, Nat.min_assoc, Nat.min_self, replaceRun_min]

/-- A reordering goes by its course. -/
theorem ListId.reorder_course (hR : R.Keeps l.Exists) (h : l.Exists w) {order : World κ ε → List Value → List Value}
    (ho : ∀ w items, (order w items).Perm items) :
    Course R l w (fun _ : PUnit => (w.listCell l).items = [])
      (fun s => s.Reorders l ∧ s.new l = order s.before (s.old l))
      (fun _ _ => True)
      ((l.reorder R order).outcome w) := by
  unfold ListId.reorder
  simp only [Run.outcome_bind, ListId.outcome_items, pure_bind]
  split
  · rename_i hnone
    exact .idle (List.length_eq_zero_iff.1 hnone)
  · rw [Run.outcome_discard]
    refine (ListId.apply_course h (ListId.opening_exists hR h _ _) fun w₁ h₁ => ?_).map
      (fun _ : ListReport => PUnit.unit) (fun _ => False.elim) (fun _ => id) fun _ _ _ => trivial
    have hperm := ho w₁ (w₁.listCell l).items
    refine ⟨OwnStep.setItems l w₁ (order w₁ (w₁.listCell l).items)
      ⟨0, order w₁ (w₁.listCell l).items, order w₁ (w₁.listCell l).items⟩, rfl, rfl, ⟨⟨⟨_, rfl⟩, ?_, ?_⟩, ⟨rfl, ?_⟩, ?_⟩, ?_⟩
    · rw [OwnStep.old_setItems]
      exact (Nat.zero_add _).trans_le hperm.length_eq.le
    · rw [OwnStep.new_setItems h₁, OwnStep.old_setItems]
      exact (replaceRun_whole hperm.length_eq.ge _).symm
    · rw [OwnStep.old_setItems]
      exact hperm.length_eq
    · rw [OwnStep.old_setItems]
      exact hperm
    · rw [OwnStep.new_setItems h₁, OwnStep.old_setItems]
      rfl

/-! ## What changes keep -/

/-- What the callbacks keep that hear a change announced, the step makes into what those keep that hear of it. -/
theorem ListId.apply_turns {I₀ : World κ ε → Prop} {T₀ T : ListTopic → Prop} (h₀ : R.UpholdsOn l T₀ I₀) (h₁ : R.UpholdsOn l T I)
    (ht₀ : ∀ topic, topic = .beforeLength ∨ topic = .beforeContent ∨ topic = .beforeEach → T₀ topic)
    (ht : ∀ topic, topic = .each ∨ topic = .content ∨ topic = .length → T topic) {change : ListChange} {before : ListReport}
    {mutate : Run κ ε ListReport} (hm : ∀ w, I₀ w → mutate.Leads w fun _ => I) (h : I₀ w) :
    (l.apply R change before mutate).Leads w fun _ => I := by
  by_cases limit : w.config.maxDispatchDepth ≤ w.depth
  · refine Run.leads_iff_outcome.2 fun report w' ho => ?_
    rw [ListId.apply, Run.outcome_nested, if_pos limit] at ho
    split at ho
    · exact (hm w h).of_outcome ho
    · cases ho
  · rw [ListId.apply_leads_iff (Nat.not_le.1 limit)]
    refine (ListId.opening_leads h₀ ht₀ change before (h₀.depth w _ h)).imp fun _ w₁ hw₁ => ?_
    refine (hm w₁ hw₁).imp fun report w₂ hw₂ => ?_
    exact (ListId.closing_leads h₁ ht change report hw₂).imp fun _ w₃ hw₃ => h₁.depth _ _ hw₃

/-- A change keeps what the callbacks and the step itself keep. -/
theorem ListId.apply_leads (hI : World.Steady I) (hR : R.Keeps I) {change : ListChange} {before : ListReport}
    {mutate : Run κ ε ListReport} (hm : ∀ w, I w → mutate.Leads w fun _ => I) (h : I w) :
    (l.apply R change before mutate).Leads w fun _ => I :=
  ListId.apply_turns ((hR.upholds hI).on l) ((hR.upholds hI).on l) (fun _ _ => trivial) (fun _ _ => trivial) hm h

theorem ListId.replaceItems_leads (hI : World.Steady I) (h : I w) (index remove : Nat) (plus : List Value) :
    (l.replaceItems index remove plus).Leads w fun _ => I :=
  hI.list w l _ (fun _ => rfl) h

theorem ListId.splice_leads (hI : World.Steady I) (hR : R.Keeps I) (h : I w) (index remove : Nat) (plus : List Value) :
    (l.splice R index remove plus).Leads w fun _ => I := by
  simp only [ListId.splice, ListId.items, Run.leads_bind, Run.leads_get, Run.leads_pure]
  split
  · exact h
  · rw [Run.leads_bind]
    exact ListId.apply_leads hI hR (fun w' h' => hI.list w' l _ (fun _ => rfl) h') h

theorem ListId.reorder_leads (hI : World.Steady I) (hR : R.Keeps I) (h : I w) (order : World κ ε → List Value → List Value) :
    (l.reorder R order).Leads w fun _ => I := by
  simp only [ListId.reorder, ListId.items, Run.leads_bind, Run.leads_get, Run.leads_pure]
  split
  · exact h
  · rw [Run.leads_discard]
    exact ListId.apply_leads hI hR (fun w' h' => hI.list w' l _ (fun _ => rfl) h') h

end

end LiveBindings
