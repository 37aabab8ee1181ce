import LiveBindings.Proofs.Report

/-!
# What the listeners of a list are told

An operation that changes a list, when nobody else changes the list meanwhile, comes to nothing or to one `Edit` of its
items (`ListOperation.edit?`), and the edit to a sequence of notices (`Edit.notices`): each says under which topic which
event is sent, and the listeners of the topic hear it in the order in which they registered. `ListOperation.tells_exactly`
says that the listeners hear these notices, all of them and nothing else.

The listeners may do whatever leaves the list alone (`Reactions.Watches`); of what they keep, only a view is looked at, and
how each event changes it.
-/

namespace LiveBindings

variable {κ ε σ : Type}

/-! ## Edits and their notices -/

/-- An event that is sent to the listeners of a topic. -/
structure Notice where
  topic : ListTopic
  event : Event

/-- The event that a report is told by. -/
def ListReport.event (r : ListReport) : Event := .content r.added r.removed r.index

namespace Notice

/-- The calls by which a notice reaches its listeners. -/
def calls (ls : List (Listener ListTopic κ)) (n : Notice) : List (κ × Event) :=
  (Listeners.on n.topic ls).map fun x => (x.callback, n.event)

/-- What becomes of a view by calls, when `hear` says what becomes of it by one. -/
def callAll (hear : κ → Event → σ → σ) (calls : List (κ × Event)) (s : σ) : σ :=
  calls.foldl (fun s call => hear call.1 call.2 s) s

/-- What becomes of a view when listeners hear notices. -/
def heard (hear : κ → Event → σ → σ) (ls : List (Listener ListTopic κ)) (notices : List Notice) (s : σ) : σ :=
  notices.foldl (fun s n => callAll hear (n.calls ls) s) s

/-- The notices on single items: `count` indices from `index` on, each with the value there. -/
def ofSpan (topic : ListTopic) (items : List Value) (index count : Nat) : List Notice :=
  (List.range' index count).map fun i => ⟨topic, .item (items.getD i .undefined) i⟩

/-- The notice on a length, given only of changes of the length. -/
def ofLength (topic : ListTopic) (change : ListChange) (length : Nat) : List Notice :=
  if change.oldLength = change.newLength then [] else [⟨topic, .value (Value.ofNat length)⟩]

theorem heard_append (hear : κ → Event → σ → σ) (ls : List (Listener ListTopic κ)) (ns ns' : List Notice) :
    heard hear ls (ns ++ ns') = fun s => heard hear ls ns' (heard hear ls ns s) :=
  funext fun _ => List.foldl_append

theorem ofSpan_succ (topic : ListTopic) (items : List Value) (index count : Nat) :
    ofSpan topic items index (count + 1) =
      ⟨topic, .item (items.getD index .undefined) index⟩ :: ofSpan topic items (index + 1) count := by
  rw [ofSpan, List.range'_succ, List.map_cons]
  rfl

/-- Notices under a topic that nobody listens to are not heard. -/
theorem ofSpan_unheard {hear : κ → Event → σ → σ} {ls : List (Listener ListTopic κ)} {topic : ListTopic}
    (h : Listeners.on topic ls = []) (items : List Value) (index count : Nat) (s : σ) :
    heard hear ls (ofSpan topic items index count) s = s := by
  induction count generalizing index with
  | zero => rfl
  | succ count ih =>
    rw [ofSpan_succ, heard, List.foldl_cons, calls, h]
    exact ih (index + 1)

end Notice

/-- What becomes of the items of a list: what is said of it before the step and after the step, and the items then. -/
structure Edit where
  announced : ListReport
  reported : ListReport
  result : List Value

namespace Edit

/-- The values `removed`, which are found at `index`, are replaced; nothing in place of nothing is no edit. -/
def replacing? (items : List Value) (index : Nat) (removed added : List Value) : Option Edit :=
  if removed.isEmpty && added.isEmpty then none
  else
    let report : ListReport := { index, added, removed }
    some { announced := report, reported := report, result := replaceRun items index removed.length added }

/-- All items are put in another order: all before and all after count as both added and removed. -/
def reordering? (items result : List Value) : Option Edit :=
  if items.isEmpty then none
  else some { announced := ⟨0, items, items⟩, reported := ⟨0, result, result⟩, result }

/-- The lengths before and after, and the affected span: when the length changes, it runs from the index to the larger of
the two lengths, otherwise it is that of the values that came in. -/
def change (items : List Value) (e : Edit) : ListChange where
  index := e.announced.index
  spanLength :=
    if e.result.length = items.length then e.announced.added.length
    else max items.length e.result.length - e.announced.index
  oldLength := items.length
  newLength := e.result.length

/-- What is told before the step: the old length if the length changes, what comes and goes, and the old values of the
span. -/
def opening (items : List Value) (e : Edit) : List Notice :=
  Notice.ofLength .beforeLength (e.change items) items.length ++ ⟨.beforeContent, e.announced.event⟩ ::
    Notice.ofSpan .beforeEach items (e.change items).index (e.change items).spanLength

/-- What is told after the step: the new values of the span, what came and went, and the new length if it changed. -/
def closing (items : List Value) (e : Edit) : List Notice :=
  Notice.ofSpan .each e.result (e.change items).index (e.change items).spanLength ++ ⟨.content, e.reported.event⟩ ::
    Notice.ofLength .length (e.change items) e.result.length

def notices (items : List Value) (e : Edit) : List Notice := e.opening items ++ e.closing items

end Edit

namespace ListOperation

/-- What an operation does to the items of a list, if anything. A comparison looks at the world of the step. -/
def edit? (w : World κ ε) (items : List Value) : ListOperation κ ε → Option Edit
  | splice index remove plus =>
    let index := min index items.length
    Edit.replacing? items index ((items.drop index).take remove) plus
  | push values => Edit.replacing? items items.length [] values
  | pop => Edit.replacing? items (items.length - 1) items.getLast?.toList []
  | shift => Edit.replacing? items 0 items.head?.toList []
  | unshift values => Edit.replacing? items 0 [] values
  | set index value =>
    match items[index]? with
    | some old => if old.same value then none else Edit.replacing? items index [old] [value]
    | none => Edit.replacing? items items.length [] (List.replicate (index - items.length) .undefined ++ [value])
  | delete value =>
    match items.findIdx? (·.same value) with
    | some index => Edit.replacing? items index items[index]?.toList []
    | none => none
  | wipe => Edit.replacing? items 0 items []
  | replaceAll values => Edit.replacing? items 0 items values
  | reverse => Edit.reordering? items items.reverse
  | sort => Edit.reordering? items (items.mergeSort fun a b => a.compare b != .gt)
  | sortBy compare => Edit.reordering? items (items.mergeSort fun a b => compare w a b != .gt)

/-- The items after an operation that nobody interferes with. -/
def result (w : World κ ε) (items : List Value) (op : ListOperation κ ε) : List Value :=
  ((op.edit? w items).map (·.result)).getD items

/-- What is told of an operation that nobody interferes with: nothing if there is nothing to change. -/
def notices (w : World κ ε) (items : List Value) (op : ListOperation κ ε) : List Notice :=
  ((op.edit? w items).map (·.notices items)).getD []

end ListOperation

/-! ## Edits are replacements -/

/-- An edit replaces a run of the items by what is reported as added, not nothing by nothing; what was announced has the
same place and brings as much. -/
structure Edit.Replaces (items : List Value) (e : Edit) : Prop where
  fits : e.reported.index + e.reported.removed.length ≤ items.length
  effective : ¬(e.reported.added = [] ∧ e.reported.removed = [])
  result : e.result = replaceRun items e.reported.index e.reported.removed.length e.reported.added
  index : e.announced.index = e.reported.index
  added : e.announced.added.length = e.reported.added.length

theorem Edit.replaces_of_replacing? {items removed added : List Value} {index : Nat} {e : Edit}
    (fits : index + removed.length ≤ items.length) (he : Edit.replacing? items index removed added = some e) :
    e.Replaces items := by
  rw [Edit.replacing?] at he
  split at he
  · cases he
  rename_i effective
  cases he
  have nothing : added = [] ∧ removed = [] → removed.isEmpty && added.isEmpty := by
    rintro ⟨rfl, rfl⟩
    rfl
  exact ⟨fits, fun h => effective (nothing h), rfl, rfl, rfl⟩

theorem Edit.replaces_of_reordering? {items result : List Value} {e : Edit} (hlength : result.length = items.length)
    (he : Edit.reordering? items result = some e) : e.Replaces items := by
  rw [Edit.reordering?] at he
  split at he
  · cases he
  rename_i effective
  cases he
  refine ⟨by dsimp only; omega, fun h => effective ?_, ?_, rfl, hlength.symm⟩
  · have hnone : items.length = 0 := hlength ▸ congrArg List.length h.1
    rw [List.length_eq_zero_iff.1 hnone]
    rfl
  · simp [replaceRun, hlength]

/-- Whatever an operation does to the items is a replacement. -/
theorem ListOperation.edit?_replaces {w : World κ ε} {items : List Value} {op : ListOperation κ ε} {e : Edit}
    (he : op.edit? w items = some e) : e.Replaces items := by
  cases op with
  | splice index remove plus =>
    refine Edit.replaces_of_replacing? ?_ he
    rw [List.length_take, List.length_drop]
    omega
  | push values => exact Edit.replaces_of_replacing? (Nat.le_refl _) he
  | pop =>
    refine Edit.replaces_of_replacing? ?_ he
    cases items <;> simp
  | shift =>
    refine Edit.replaces_of_replacing? ?_ he
    cases items <;> simp
  | unshift values => exact Edit.replaces_of_replacing? (Nat.zero_le _) he
  | set index value =>
    simp only [edit?] at he
    split at he
    · rename_i old hold
      split at he
      · cases he
      · exact Edit.replaces_of_replacing? (List.getElem?_eq_some_iff.1 hold).1 he
    · exact Edit.replaces_of_replacing? (Nat.le_refl _) he
  | delete value =>
    simp only [edit?] at he
    split at he
    · rename_i index hfound
      have hlt : index < items.length := (List.findIdx?_eq_some_iff_getElem.1 hfound).1
      refine Edit.replaces_of_replacing? ?_ he
      rw [List.getElem?_eq_getElem hlt]
      exact hlt
    · cases he
  | wipe => exact Edit.replaces_of_replacing? (Nat.zero_add _).le he
  | replaceAll values => exact Edit.replaces_of_replacing? (Nat.zero_add _).le he
  | reverse => exact Edit.replaces_of_reordering? List.length_reverse he
  | sort => exact Edit.replaces_of_reordering? (List.length_mergeSort _) he
  | sortBy compare => exact Edit.replaces_of_reordering? (List.length_mergeSort _) he

/-! ## Listeners that leave the list alone -/

/-- Between two worlds a list has gone through `cell`, and what the listeners keep of it through `f`. -/
structure ListId.Through (l : ListId) (view : ε → σ) (cell : ListCell κ → ListCell κ) (f : σ → σ) (w w' : World κ ε) :
    Prop where
  cell : w'.listCell l = cell (w.listCell l)
  stays : l.Exists w → l.Exists w'
  depth : w'.depth = w.depth
  config : w'.config = w.config
  view : view w'.env = f (view w.env)

/-- The world has changed only beside a list, and what the listeners keep of it has gone through `f`. -/
abbrev ListId.Beside (l : ListId) (view : ε → σ) (f : σ → σ) (w w' : World κ ε) : Prop := l.Through view id f w w'

/-- Every callback leaves a list alone, and changes the view as `hear` says. -/
structure Reactions.Watches (R : Reactions κ ε) (l : ListId) (view : ε → σ) (hear : κ → Event → σ → σ) : Prop where
  fire : ∀ callback e w, (R.fire callback e).Ends w fun _ => l.Beside view (hear callback e) w
  letGo : ∀ w, R.letGo.Ends w fun _ => l.Beside view id w

section

variable {R : Reactions κ ε} {l : ListId} {view : ε → σ} {hear : κ → Event → σ → σ} {w w' w'' : World κ ε}

namespace ListId.Through

theorem trans {cell cell' : ListCell κ → ListCell κ} {f f' : σ → σ} (h : l.Through view cell f w w')
    (h' : l.Through view cell' f' w' w'') : l.Through view (fun c => cell' (cell c)) (fun s => f' (f s)) w w'' where
  cell := h'.cell.trans (congrArg cell' h.cell)
  stays hl := h'.stays (h.stays hl)
  depth := h'.depth.trans h.depth
  config := h'.config.trans h.config
  view := h'.view.trans (congrArg f' h.view)

theorem modifyList (h : l.Exists w) (view : ε → σ) (cell : ListCell κ → ListCell κ) :
    l.Through view cell id w (w.modifyList l cell) :=
  ⟨by rw [World.listCell_modifyList, if_pos ⟨rfl, h⟩], l.exists_lasting.list w l cell, rfl, rfl, rfl⟩

theorem refl (l : ListId) (view : ε → σ) (w : World κ ε) : l.Beside view id w w := ⟨rfl, id, rfl, rfl, rfl⟩

theorem held (l : ListId) (view : ε → σ) (w : World κ ε) (callbacks : List κ) :
    l.Beside view id w { w with held := callbacks } := ⟨rfl, id, rfl, rfl, rfl⟩

end ListId.Through

/-- A listener that is registered is told. -/
theorem Reactions.Watches.tell (hR : R.Watches l view hear) {x : Listener ListTopic κ} (e : Event)
    (hx : x ∈ (w.listCell l).listeners) :
    (LiveBindings.tell R l.registered e x).Ends w fun _ => l.Beside view (hear x.callback e) w := by
  have hr : l.registered w x.id = true := List.any_eq_true.2 ⟨x, hx, by simp⟩
  rw [LiveBindings.tell, Run.ends_bind, Run.ends_get, if_pos hr]
  exact hR.fire _ _ _

/-- All listeners of a pass are told, since none is removed. -/
theorem Reactions.Watches.tellAll (hR : R.Watches l view hear) (xs : List (Listener ListTopic κ)) (e : Event)
    (w : World κ ε) (hx : ∀ x ∈ xs, x ∈ (w.listCell l).listeners) :
    (LiveBindings.tellAll R l.registered e xs).Ends w fun _ =>
      l.Beside view (Notice.callAll hear (xs.map fun x => (x.callback, e))) w := by
  induction xs generalizing w with
  | nil => exact .refl l view w
  | cons x xs ih =>
    rw [LiveBindings.tellAll, Run.ends_bind]
    refine (hR.tell e (hx x List.mem_cons_self)).imp fun _ w₁ h₁ => ?_
    refine (ih w₁ fun y hy => ?_).imp fun _ w₂ h₂ => h₁.trans h₂
    rw [h₁.cell]
    exact hx y (List.mem_cons_of_mem _ hy)

/-- What a dispatch does while it holds callbacks. -/
theorem Reactions.Watches.holding (hR : R.Watches l view hear) {callbacks : List κ} {act : Run κ ε Unit} {f : σ → σ}
    (h : ∀ held, act.Ends { w with held } fun _ => l.Beside view f { w with held }) :
    (LiveBindings.holding R callbacks act).Ends w fun _ => l.Beside view f w := by
  rw [Run.ends_holding]
  refine (h _).imp fun _ w₁ h₁ => (hR.letGo _).imp fun _ w₂ h₂ => ?_
  exact (((ListId.Through.held l view w _).trans h₁).trans (.held l view w₁ _)).trans h₂

theorem Reactions.Watches.tellInTurn (hR : R.Watches l view hear) (xs : List (Listener ListTopic κ)) (e : Event)
    (w : World κ ε) (hx : ∀ x ∈ xs, x ∈ (w.listCell l).listeners) :
    (LiveBindings.tellInTurn R l.registered e xs).Ends w fun _ =>
      l.Beside view (Notice.callAll hear (xs.map fun x => (x.callback, e))) w := by
  induction xs generalizing w with
  | nil => exact .refl l view w
  | cons x xs ih =>
    have turn : ∀ held, (LiveBindings.holding R [x.callback] (LiveBindings.tell R l.registered e x)).Ends
        { w with held } fun _ => l.Beside view (hear x.callback e) { w with held } :=
      fun _ => hR.holding fun _ => hR.tell e (hx x List.mem_cons_self)
    rw [LiveBindings.tellInTurn, Run.ends_bind, Run.ends_withHeld]
    refine (turn _).imp fun _ w₁ h₁ => ?_
    have h : l.Beside view (hear x.callback e) w { w₁ with held := w.held } :=
      ((ListId.Through.held l view w _).trans h₁).trans (.held l view w₁ _)
    refine (ih _ fun y hy => ?_).imp fun _ w₂ h₂ => h.trans h₂
    rw [h.cell]
    exact hx y (List.mem_cons_of_mem _ hy)

/-! ## One phase of a change -/

section

variable {ls : List (Listener ListTopic κ)} {items : List Value}

/-- The captured listeners of a topic are registered. -/
theorem ListId.on_registered (hls : (w.listCell l).listeners = ls) (topic : ListTopic) :
    ∀ x ∈ Listeners.on topic ls, x ∈ (w.listCell l).listeners :=
  fun _ hx => hls ▸ (List.mem_filter.1 hx).1

theorem ListId.tellLength_notices (hR : R.Watches l view hear) (hls : (w.listCell l).listeners = ls) (topic : ListTopic)
    (length : Nat) :
    (l.tellLength R topic length).Ends w fun _ =>
      l.Beside view (Notice.heard hear ls [⟨topic, .value (Value.ofNat length)⟩]) w := by
  simp only [ListId.tellLength, Run.ends_bind, ListId.ends_listeners, hls]
  exact hR.holding fun _ => hR.tellAll _ _ _ (ListId.on_registered hls topic)

theorem ListId.tellContent_notices (hR : R.Watches l view hear) (hls : (w.listCell l).listeners = ls) (topic : ListTopic)
    (report : ListReport) :
    (l.tellContent R topic report).Ends w fun _ =>
      l.Beside view (Notice.heard hear ls [⟨topic, report.event⟩]) w := by
  simp only [ListId.tellContent, Run.ends_bind, ListId.ends_listeners, hls]
  exact hR.tellInTurn _ _ _ (ListId.on_registered hls topic)

theorem ListId.tellItems_notices (hR : R.Watches l view hear) (topic : ListTopic) (index count : Nat) (w : World κ ε)
    (hls : (w.listCell l).listeners = ls) (hi : (w.listCell l).items = items) :
    (ListId.tellItems R l (Listeners.on topic ls) count index).Ends w fun _ =>
      l.Beside view (Notice.heard hear ls (Notice.ofSpan topic items index count)) w := by
  induction count generalizing w index with
  | zero => exact .refl l view w
  | succ count ih =>
    rw [ListId.tellItems, Run.ends_bind, ListId.ends_get, Run.ends_bind]
    refine (hR.tellAll _ _ _ (ListId.on_registered hls topic)).imp fun _ w₁ h₁ => ?_
    refine (ih (index + 1) w₁ (h₁.cell ▸ hls) (h₁.cell ▸ hi)).imp fun _ w₂ h₂ => ?_
    subst hi
    exact h₁.trans h₂

theorem ListId.tellSpan_notices (hR : R.Watches l view hear) (hls : (w.listCell l).listeners = ls)
    (hi : (w.listCell l).items = items) (topic : ListTopic) (change : ListChange) :
    (l.tellSpan R topic change).Ends w fun _ =>
      l.Beside view (Notice.heard hear ls (Notice.ofSpan topic items change.index change.spanLength)) w := by
  simp only [ListId.tellSpan, Run.ends_bind, ListId.ends_listeners, hls]
  split
  · rename_i hnone
    exact ⟨rfl, id, rfl, rfl, (Notice.ofSpan_unheard (List.isEmpty_iff.1 hnone) _ _ _ _).symm⟩
  · exact hR.holding fun held => ListId.tellItems_notices hR topic _ _ _ hls hi

end

/-! ## A whole change -/

/-- Below the limit of nested dispatches a change is announced, made and announced again. -/
theorem ListId.apply_ends_iff (hd : w.depth < w.config.maxDispatchDepth) {change : ListChange} {before : ListReport}
    {mutate : Run κ ε ListReport} {Q : ListReport → World κ ε → Prop} :
    (l.apply R change before mutate).Ends w Q ↔
      (l.opening R change before).Ends w.deeper fun _ w₁ => mutate.Ends w₁ fun after w₂ =>
        (l.closing R change after).Ends w₂ fun _ w₃ => Q after w₃.shallower := by
  rw [ListId.apply, Run.ends_nested hd]
  unfold ListId.opening ListId.closing ListId.dispatching
  by_cases hc : change.oldLength = change.newLength
  all_goals simp [hc]
  all_goals rfl

section

variable {ls : List (Listener ListTopic κ)} {items : List Value}

/-- The announcements before an edit. -/
theorem ListId.opening_notices (hR : R.Watches l view hear) (h : l.Exists w) (hls : (w.listCell l).listeners = ls)
    (hi : (w.listCell l).items = items) (e : Edit) :
    (l.opening R (e.change items) e.announced).Ends w fun _ =>
      l.Through view (fun c => { c with dispatching := c.dispatching + 1 }) (Notice.heard hear ls (e.opening items)) w := by
  have rest : ∀ w₁ f, l.Beside view f w w₁ → Run.Ends (do
      modify (World.modifyList l fun c => { c with dispatching := c.dispatching + 1 })
      l.tellContent R .beforeContent e.announced
      l.tellSpan R .beforeEach (e.change items)) w₁ fun _ =>
        l.Through view (fun c => { c with dispatching := c.dispatching + 1 }) (fun s =>
          Notice.heard hear ls (⟨.beforeContent, e.announced.event⟩ ::
            Notice.ofSpan .beforeEach items (e.change items).index (e.change items).spanLength) (f s)) w := by
    intro w₁ f h₁
    rw [Run.ends_bind, Run.ends_modify, Run.ends_bind]
    have h₂ := h₁.trans (.modifyList (h₁.stays h) view fun c => { c with dispatching := c.dispatching + 1 })
    have hls₂ := (congrArg ListCell.listeners h₂.cell).trans hls
    refine (ListId.tellContent_notices hR hls₂ _ _).imp fun _ w₃ h₃ => ?_
    have hls₃ := (congrArg ListCell.listeners h₃.cell).trans hls₂
    have hi₃ := (congrArg ListCell.items (h₂.trans h₃).cell).trans hi
    exact (ListId.tellSpan_notices hR hls₃ hi₃ _ _).imp fun _ w₄ h₄ => (h₂.trans h₃).trans h₄
  unfold ListId.opening Edit.opening Notice.ofLength
  by_cases hc : (e.change items).oldLength = (e.change items).newLength
  · simp only [hc, bne_self_eq_false, Bool.false_eq_true, if_false, if_true]
    exact rest w id (.refl l view w)
  · simp only [bne_iff_ne, ne_eq, hc, not_false_eq_true, if_true, if_false]
    rw [Run.ends_bind]
    exact (ListId.tellLength_notices hR hls _ _).imp fun _ w₁ h₁ => rest w₁ _ h₁

/-- The announcements after an edit. -/
theorem ListId.closing_notices (hR : R.Watches l view hear) (h : l.Exists w) (hls : (w.listCell l).listeners = ls)
    (e : Edit) (hi : (w.listCell l).items = e.result) :
    (l.closing R (e.change items) e.reported).Ends w fun _ =>
      l.Through view (fun c => { c with dispatching := c.dispatching - 1 }) (Notice.heard hear ls (e.closing items)) w := by
  unfold ListId.closing
  rw [Run.ends_bind]
  refine (ListId.tellSpan_notices hR hls hi _ _).imp fun _ w₁ h₁ => ?_
  have hls₁ := (congrArg ListCell.listeners h₁.cell).trans hls
  rw [Run.ends_bind]
  refine (ListId.tellContent_notices hR hls₁ _ _).imp fun _ w₂ h₂ => ?_
  rw [Run.ends_bind, Run.ends_modify]
  have h₃ := (h₁.trans h₂).trans (.modifyList (h₂.stays (h₁.stays h)) view fun c =>
    { c with dispatching := c.dispatching - 1 })
  have hls₃ := (congrArg ListCell.listeners h₃.cell).trans hls
  have hi₃ : (World.contents _).items l = e.result := (congrArg ListCell.items h₃.cell).trans hi
  rw [Edit.closing, Notice.ofLength, Notice.heard_append]
  by_cases hc : (e.change items).oldLength = (e.change items).newLength
  · simp only [hc, bne_self_eq_false, Bool.false_eq_true, if_false, if_true, Run.ends_pure]
    exact h₃
  · simp only [bne_iff_ne, ne_eq, hc, not_false_eq_true, if_true, if_false]
    rw [Run.ends_bind, ListId.ends_length, hi₃]
    exact (ListId.tellLength_notices hR hls₃ _ _).imp fun _ w₄ h₄ => h₃.trans h₄

/-- A change that carries an edit out: it is announced as the edit is, and its step makes the edit, which may depend on the
world of the step. -/
def Edit.Carried (l : ListId) (items : List Value) (edit? : World κ ε → Option Edit) (change : ListChange)
    (before : ListReport) (mutate : Run κ ε ListReport) : Prop :=
  ∀ w : World κ ε, l.Exists w → (w.listCell l).items = items → ∃ e, edit? w = some e ∧ e.change items = change ∧
    e.announced = before ∧ mutate.Ends w fun after w' =>
      after = e.reported ∧ w' = w.modifyList l fun c => { c with items := e.result }

/-- A change that carries an edit out is told by the notices of the edit. -/
theorem ListId.apply_notices (hR : R.Watches l view hear) (h : l.Exists w) (hls : (w.listCell l).listeners = ls)
    (hi : (w.listCell l).items = items) (hd : w.depth < w.config.maxDispatchDepth) {change : ListChange}
    {before : ListReport} {mutate : Run κ ε ListReport} {edit? : World κ ε → Option Edit}
    (carried : Edit.Carried l items edit? change before mutate) :
    (l.apply R change before mutate).Ends w fun _ w' => ∃ w₁ e, (w₁.listCell l).items = items ∧ edit? w₁ = some e ∧
      l.Through view (fun c => { c with items := e.result }) (Notice.heard hear ls (e.notices items)) w w' := by
  obtain ⟨e, -, rfl, rfl, -⟩ := carried w h hi
  rw [ListId.apply_ends_iff hd]
  refine (ListId.opening_notices (w := w.deeper) hR h hls hi e).imp fun _ w₁ h₁ => ?_
  have hls₁ := (congrArg ListCell.listeners h₁.cell).trans hls
  obtain ⟨e₁, he, hchange, hbefore, hm⟩ := carried w₁ (h₁.stays h) ((congrArg ListCell.items h₁.cell).trans hi)
  refine hm.imp ?_
  rintro _ w₂ ⟨rfl, rfl⟩
  have h₂ := h₁.trans (.modifyList (h₁.stays h) view fun c => { c with items := e₁.result })
  have hls₂ := (congrArg ListCell.listeners h₂.cell).trans hls
  rw [← hchange]
  refine (ListId.closing_notices hR (h₂.stays h) hls₂ e₁ (congrArg ListCell.items h₂.cell)).imp fun _ w₃ h₃ => ?_
  have h₄ := h₂.trans h₃
  refine ⟨w₁, e₁, (congrArg ListCell.items h₁.cell).trans hi, he, h₄.cell, h₄.stays, ?_, h₄.config, ?_⟩
  · exact congrArg (· - 1) h₄.depth
  · have hopening : e₁.opening items = e.opening items := by rw [Edit.opening, Edit.opening, hchange, hbefore]
    rw [Edit.notices, Notice.heard_append, hopening]
    exact h₄.view

end

/-! ## The operations carry their edits out -/

section

variable {ls : List (Listener ListTopic κ)} {items : List Value} {Q : World κ ε → Prop}

/-- A splice does nothing or carries out the replacement of what is found where it is cut off at the length. -/
theorem ListId.splice_carries (hi : (w.listCell l).items = items) (index remove : Nat) (plus : List Value)
    {edit? : World κ ε → Option Edit}
    (he : ∀ w₁, edit? w₁ = Edit.replacing? items (min index items.length)
      ((items.drop (min index items.length)).take remove) plus)
    (idle : (∀ w₁, edit? w₁ = none) → Q w)
    (apply : ∀ change before mutate, Edit.Carried l items edit? change before mutate →
      (l.apply R change before mutate).Ends w fun _ => Q) :
    (l.splice R index remove plus).Ends w fun _ => Q := by
  simp only [ListId.splice, Run.ends_bind, ListId.ends_items, World.contents, hi]
  generalize hstart : min index items.length = start at *
  have hle : start ≤ items.length := hstart ▸ Nat.min_le_right _ _
  generalize hminus : (items.drop start).take remove = minus at *
  have hminus' : minus = (items.drop start).take minus.length := by
    rw [← hminus, List.length_take, ← List.take_take, List.take_length]
  have hfit : start + minus.length ≤ items.length := by
    rw [← hminus, List.length_take, List.length_drop]
    omega
  have hlength := replaceRun_length hfit plus
  split
  · rename_i hnone
    refine idle fun w₁ => ?_
    rw [he, Edit.replacing?, if_pos (by simpa only [Bool.and_comm] using hnone)]
  · rename_i hsome
    rw [Run.ends_bind]
    refine (apply _ _ _ fun w₁ h₁ hi₁ => ?_).imp fun _ _ hQ => hQ
    refine ⟨⟨⟨start, plus, minus⟩, ⟨start, plus, minus⟩, replaceRun items start minus.length plus⟩, ?_, ?_, rfl, ?_⟩
    · rw [he, Edit.replacing?, if_neg (by simpa only [Bool.and_comm] using hsome)]
    · simp only [Edit.change, hlength]
    · simp only [ListId.replaceItems, Run.ends_bind, ListId.ends_items, World.contents, hi₁, Run.ends_modify, Run.ends_pure]
      rw [Nat.min_eq_left hle, Nat.min_eq_left hfit, Nat.add_sub_cancel_left]
      refine ⟨?_, rfl⟩
      rw [← List.take_drop, ← hminus']

/-- A reordering does nothing to no items, and otherwise carries the new order out. -/
theorem ListId.reorder_carries (hi : (w.listCell l).items = items) (order : World κ ε → List Value → List Value)
    (ho : ∀ w₁, (order w₁ items).length = items.length) {edit? : World κ ε → Option Edit}
    (he : ∀ w₁, edit? w₁ = Edit.reordering? items (order w₁ items))
    (idle : (∀ w₁, edit? w₁ = none) → Q w)
    (apply : ∀ change before mutate, Edit.Carried l items edit? change before mutate →
      (l.apply R change before mutate).Ends w fun _ => Q) :
    (l.reorder R order).Ends w fun _ => Q := by
  simp only [ListId.reorder, Run.ends_bind, ListId.ends_items, World.contents, hi]
  split
  · rename_i hnone
    exact idle fun w₁ => by rw [he, Edit.reordering?, if_pos (by simpa using hnone)]
  · rename_i hsome
    rw [Run.ends_discard]
    refine apply _ _ _ fun w₁ h₁ hi₁ => ?_
    refine ⟨⟨⟨0, items, items⟩, ⟨0, order w₁ items, order w₁ items⟩, order w₁ items⟩, ?_, ?_, rfl, ?_⟩
    · rw [he, Edit.reordering?, if_neg (by simpa using hsome)]
    · simp only [Edit.change, ho, if_true]
    · simp only [Run.ends_bind, Run.ends_stateGet, Run.ends_modify, Run.ends_pure, hi₁]
      trivial

/-- Every operation does nothing or carries its edit out. -/
theorem ListOperation.run_carries (hi : (w.listCell l).items = items) (op : ListOperation κ ε)
    (idle : (∀ w₁, op.edit? w₁ items = none) → Q w)
    (apply : ∀ change before mutate, Edit.Carried l items (op.edit? · items) change before mutate →
      (l.apply R change before mutate).Ends w fun _ => Q) :
    (op.run R l).Ends w fun _ => Q := by
  have hlength : (w.contents.items l).length = items.length := congrArg List.length hi
  cases op with
  | splice index remove plus => exact ListId.splice_carries hi index remove plus (fun _ => rfl) idle apply
  | push values =>
    change (l.push R values).Ends w fun _ => Q
    simp only [ListId.push, Run.ends_bind, ListId.ends_length, Run.ends_discard, hlength]
    exact ListId.splice_carries hi _ _ _ (fun _ => by simp [edit?]) idle apply
  | pop =>
    change (l.pop R).Ends w fun _ => Q
    simp only [ListId.pop, Run.ends_bind, ListId.ends_length, hlength]
    split
    · rename_i hnone
      exact idle fun _ => by simp [edit?, List.length_eq_zero_iff.1 hnone, Edit.replacing?]
    · rename_i hsome
      simp only [Run.ends_bind, Run.ends_pure]
      refine ListId.splice_carries hi _ _ _ (fun _ => ?_) idle apply
      rw [Nat.min_eq_left (Nat.sub_le _ _), List.take_one, List.head?_drop, edit?, List.getLast?_eq_getElem?]
  | shift =>
    change (l.shift R).Ends w fun _ => Q
    simp only [ListId.shift, Run.ends_bind, ListId.ends_length, hlength]
    split
    · rename_i hnone
      exact idle fun _ => by simp [edit?, List.length_eq_zero_iff.1 hnone, Edit.replacing?]
    · simp only [Run.ends_bind, Run.ends_pure]
      refine ListId.splice_carries hi _ _ _ (fun _ => ?_) idle apply
      rw [Nat.zero_min, List.drop_zero, List.take_one, edit?]
  | unshift values =>
    change (l.unshift R values).Ends w fun _ => Q
    simp only [ListId.unshift, Run.ends_discard]
    exact ListId.splice_carries hi _ _ _ (fun _ => by simp [edit?]) idle apply
  | set index value =>
    change (l.assign R index value).Ends w fun _ => Q
    simp only [ListId.assign, Run.ends_bind, ListId.ends_length, hlength]
    split
    · rename_i hlt
      have hold : items[index]? = some items[index] := List.getElem?_eq_getElem hlt
      simp only [Run.ends_bind, ListId.ends_get, World.contents, hi, List.getD_eq_getElem?_getD, hold, Option.getD_some]
      split
      · rename_i hsame
        exact idle fun _ => by simp only [edit?, hold, if_pos hsame]
      · rename_i hsame
        rw [Run.ends_discard]
        refine ListId.splice_carries hi _ _ _ (fun _ => ?_) idle apply
        simp only [edit?, Nat.min_eq_left hlt.le, List.take_one, List.head?_drop, hold, if_neg hsame, Option.toList_some]
    · rename_i hge
      have hnew : items[index]? = none := List.getElem?_eq_none (Nat.not_lt.1 hge)
      rw [Run.ends_discard]
      exact ListId.splice_carries hi _ _ _ (fun _ => by simp [edit?, hnew]) idle apply
  | delete value =>
    change (l.delete R value).Ends w fun _ => Q
    simp only [ListId.delete, ListId.indexOf, Run.ends_bind, ListId.ends_items, Run.ends_pure, World.contents, hi]
    split
    · rename_i index hfound
      have hlt : index < items.length := (List.findIdx?_eq_some_iff_getElem.1 hfound).1
      simp only [Run.ends_bind, Run.ends_discard, Run.ends_pure]
      refine ListId.splice_carries hi _ _ _ (fun _ => ?_) idle apply
      rw [Nat.min_eq_left hlt.le, List.take_one, List.head?_drop, edit?, hfound]
    · rename_i hnone
      exact idle fun _ => by rw [edit?, hnone]
  | wipe =>
    change (l.wipe R).Ends w fun _ => Q
    simp only [ListId.wipe, Run.ends_bind, ListId.ends_length, Run.ends_discard, hlength]
    exact ListId.splice_carries hi _ _ _ (fun _ => by simp [edit?]) idle apply
  | replaceAll values =>
    change (l.replaceAll R values).Ends w fun _ => Q
    simp only [ListId.replaceAll, Run.ends_bind, ListId.ends_length, Run.ends_discard, hlength]
    exact ListId.splice_carries hi _ _ _ (fun _ => by simp [edit?]) idle apply
  | reverse =>
    exact ListId.reorder_carries hi (fun _ items => items.reverse) (fun _ => List.length_reverse) (fun _ => rfl) idle apply
  | sort =>
    exact ListId.reorder_carries hi (fun _ items => items.mergeSort fun a b => a.compare b != .gt)
      (fun _ => List.length_mergeSort _) (fun _ => rfl) idle apply
  | sortBy compare =>
    exact ListId.reorder_carries hi (fun w items => items.mergeSort fun a b => compare w a b != .gt)
      (fun _ => List.length_mergeSort _) (fun _ => rfl) idle apply

/-! ## What is heard of an operation -/

/-- An operation, made while the listeners leave the list alone, comes to its result and is told by its notices. -/
theorem ListOperation.run_notices (hR : R.Watches l view hear) (h : l.Exists w) (hls : (w.listCell l).listeners = ls)
    (hi : (w.listCell l).items = items) (hd : w.depth < w.config.maxDispatchDepth) (op : ListOperation κ ε) :
    (op.run R l).Ends w fun _ w' => ∃ w₁, (w₁.listCell l).items = items ∧
      l.Through view (fun c => { c with items := op.result w₁ items }) (Notice.heard hear ls (op.notices w₁ items))
        w w' := by
  refine op.run_carries hi (fun idle => ?_) fun change before mutate carried => ?_
  · refine ⟨w, hi, ?_⟩
    rw [result, notices, idle]
    exact ⟨by rw [← hi]; rfl, id, rfl, rfl, rfl⟩
  · refine (ListId.apply_notices hR h hls hi hd carried).imp ?_
    rintro _ w' ⟨w₁, e, hi₁, he, t⟩
    refine ⟨w₁, hi₁, ?_⟩
    rw [result, notices, he]
    exact t

/-- What a log of all calls holds after notices. -/
theorem Notice.heard_log (ls : List (Listener ListTopic κ)) (ns : List Notice) (log : List (κ × Event)) :
    heard (fun callback e log => log ++ [(callback, e)]) ls ns log = log ++ ns.flatMap (calls ls) := by
  have one : ∀ (cs log : List (κ × Event)), callAll (fun callback e log => log ++ [(callback, e)]) cs log = log ++ cs := by
    intro cs
    induction cs with
    | nil => intro log; exact (List.append_nil log).symm
    | cons c cs ih => intro log; exact (ih _).trans (List.append_assoc _ _ _)
  induction ns generalizing log with
  | nil => exact (List.append_nil log).symm
  | cons n ns ih =>
    rw [List.flatMap_cons, ← List.append_assoc, ← one (n.calls ls) log]
    exact ih _

/-- The calls of listeners that an operation leads to, when the listeners keep a log of them and leave the list alone, are
exactly those of its notices; the comparison of a sorting looks at the world of its step. -/
theorem ListOperation.tells_exactly {log : ε → List (κ × Event)}
    (hR : R.Watches l log fun callback e log => log ++ [(callback, e)]) (h : l.Exists w)
    (hd : w.depth < w.config.maxDispatchDepth) (op : ListOperation κ ε) :
    (op.run R l).Ends w fun _ w' => ∃ w₁, (w₁.listCell l).items = (w.listCell l).items ∧
      w'.listCell l = { w.listCell l with items := op.result w₁ (w.listCell l).items } ∧
      log w'.env = log w.env ++
        (op.notices w₁ (w.listCell l).items).flatMap (Notice.calls (w.listCell l).listeners) := by
  refine (op.run_notices hR h rfl rfl hd).imp ?_
  rintro _ w' ⟨w₁, hi₁, t⟩
  exact ⟨w₁, hi₁, t.cell, t.view.trans (Notice.heard_log _ _ _)⟩

end

end

/-- Listeners that log every call. -/
def Reactions.logging : Reactions κ (List (κ × Event)) where
  fire callback e := modify fun w => { w with env := w.env ++ [(callback, e)] }

theorem Reactions.logging_watches (l : ListId) :
    (logging : Reactions κ _).Watches l id fun callback e log => log ++ [(callback, e)] :=
  ⟨fun _ _ _ => ⟨rfl, id, rfl, rfl, rfl⟩, fun _ => ⟨rfl, id, rfl, rfl, rfl⟩⟩

/-- A list of three items with a listener for every topic. -/
def World.sixListeners : World ListTopic (List (ListTopic × Event)) where
  lists := #[{
    items := [.bool true, .bool false, .null]
    listeners := [⟨⟨0⟩, .content, .content⟩, ⟨⟨1⟩, .each, .each⟩, ⟨⟨2⟩, .beforeEach, .beforeEach⟩,
      ⟨⟨3⟩, .beforeContent, .beforeContent⟩, ⟨⟨4⟩, .length, .length⟩, ⟨⟨5⟩, .beforeLength, .beforeLength⟩] }]
  env := []

/-- A splice that removes more than there is and inserts less: the span runs to the old length, past the new end. -/
theorem ListOperation.tells_exactly_splice :
    (⟨0⟩ : ListId).Exists World.sixListeners ∧
      World.sixListeners.depth < World.sixListeners.config.maxDispatchDepth ∧
      ∃ a w', (splice 1 5 [.undefined]).run .logging ⟨0⟩ World.sixListeners = .ok a w' ∧
        (w'.listCell ⟨0⟩).items = [.bool true, .undefined] ∧
        w'.env = [(.beforeLength, .value (Value.ofNat 3)),
          (.beforeContent, .content [.undefined] [.bool false, .null] 1),
          (.beforeEach, .item (.bool false) 1), (.beforeEach, .item .null 2),
          (.each, .item .undefined 1), (.each, .item .undefined 2),
          (.content, .content [.undefined] [.bool false, .null] 1),
          (.length, .value (Value.ofNat 2))] := by
  have exists₀ : (⟨0⟩ : ListId).Exists World.sixListeners := Nat.one_pos
  have below : World.sixListeners.depth < World.sixListeners.config.maxDispatchDepth := by decide
  refine ⟨exists₀, below, ?_⟩
  generalize hw : World.sixListeners = w at exists₀ below ⊢
  obtain ⟨a, w', hrun, w₁, -, hcell, hlog⟩ :=
    Run.ends_iff.1 (tells_exactly (Reactions.logging_watches ⟨0⟩) exists₀ below (splice 1 5 [.undefined]))
  subst hw
  exact ⟨a, w', hrun, congrArg ListCell.items hcell, hlog.trans rfl⟩

end LiveBindings
