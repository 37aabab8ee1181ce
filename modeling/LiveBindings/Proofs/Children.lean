import LiveBindings.Observe.Fire
import LiveBindings.Proofs.Pieces

/-!
# The children of a slot

A program of calls on one slot (`SlotCall`): the start functions and the teardowns of the children are programs of calls on the
same slot again. A run writes down what happens (`Mark`), and an account of it is kept against the slot (`Tended`): a child that
was started has been torn down, or is the one in the slot, or is in the hands of a call that is still running.

The main result is `tends_children`: whatever the program, no child is torn down twice, and between calls the children that were
started and not torn down are the one of the latest restart, or none once the slot was cancelled.
-/

namespace LiveBindings

/-! ## Programs -/

/-- A call on a slot. -/
inductive SlotCall
  /-- A restart: what its start function does before it returns the child, and what the teardown of the child does. -/
  | restart (starting teardown : List SlotCall)
  | cancel

mutual

/-- How many calls a call can lead to, itself included. -/
def SlotCall.size : SlotCall → Nat
  | .restart starting teardown => SlotCall.sizeAll starting + SlotCall.sizeAll teardown + 1
  | .cancel => 1

def SlotCall.sizeAll : List SlotCall → Nat
  | [] => 0
  | call :: calls => call.size + SlotCall.sizeAll calls

end

/-- A child, by the generation that its restart gave the slot. -/
structure Child where
  generation : Nat
  teardown : List SlotCall

/-- What happens to a slot and its children. -/
inductive Mark
  /-- A restart is called; if the slot is open, it begins this generation. -/
  | begun (generation : Nat)
  | started (generation : Nat)
  | torn (generation : Nat)
  | cancelled
deriving DecidableEq

/-- Adds to the record of what happened. -/
def Mark.note (mark : Mark) : Live Child (List Mark) Unit := modifyHost (· ++ [mark])

mutual

/-- Makes a call. -/
def SlotCall.run (E : Engine Child (List Mark)) (s : Ref .slot) : SlotCall → Live Child (List Mark) Unit
  | .restart starting teardown => do
    let generation := ((← cells).slot s).generation + 1
    (Mark.begun generation).note
    LiveBindings.restart E s do
      (Mark.started generation).note
      SlotCall.runAll E s starting
      return .user ⟨generation, teardown⟩
  | .cancel => do
    Mark.cancelled.note
    closeSlot E s

/-- Makes calls one after the other. -/
def SlotCall.runAll (E : Engine Child (List Mark)) (s : Ref .slot) : List SlotCall → Live Child (List Mark) Unit
  | [] => pure ()
  | call :: calls => do
    call.run E s
    SlotCall.runAll E s calls

end

/-- The teardown of a child makes calls on the slot. -/
def tending (s : Ref .slot) : Host Child (List Mark) where
  listener _ _ _ := pure ()
  observer _ _ _ := pure ()
  teardown E child := do
    (Mark.torn child.generation).note
    SlotCall.runAll E s child.teardown

namespace Mark

/-! ## Records -/

/-- The generations of the restarts that were called. -/
def begunIn (marks : List Mark) : List Nat := marks.filterMap fun | .begun g => some g | _ => none

/-- The children that were started. -/
def startedIn (marks : List Mark) : List Nat := marks.filterMap fun | .started g => some g | _ => none

/-- The children whose teardown ran. -/
def tornIn (marks : List Mark) : List Nat := marks.filterMap fun | .torn g => some g | _ => none

/-- The children that were started and not torn down. -/
def liveIn (marks : List Mark) : List Nat := (startedIn marks).filter (· ∉ tornIn marks)

section

variable {marks rest : List Mark} {mark : Mark} {g : Nat}

@[simp] theorem begunIn_append : begunIn (marks ++ rest) = begunIn marks ++ begunIn rest := List.filterMap_append

@[simp] theorem startedIn_append : startedIn (marks ++ rest) = startedIn marks ++ startedIn rest := List.filterMap_append

@[simp] theorem tornIn_append : tornIn (marks ++ rest) = tornIn marks ++ tornIn rest := List.filterMap_append

@[simp] theorem begunIn_nil : begunIn [] = [] := rfl

@[simp] theorem begunIn_cons : begunIn (mark :: marks) = (match mark with | .begun g => [g] | _ => []) ++ begunIn marks := by
  cases mark <;> rfl

@[simp] theorem startedIn_nil : startedIn [] = [] := rfl

@[simp] theorem startedIn_cons : startedIn (mark :: marks) = (match mark with | .started g => [g] | _ => []) ++ startedIn marks := by
  cases mark <;> rfl

@[simp] theorem tornIn_nil : tornIn [] = [] := rfl

@[simp] theorem tornIn_cons : tornIn (mark :: marks) = (match mark with | .torn g => [g] | _ => []) ++ tornIn marks := by
  cases mark <;> rfl

/-- Restarts that are called after the cancellation come too late: none of them begins the generation that it would. -/
def LateAt (generation : Nat) (marks : List Mark) : Prop :=
  ∀ before g after, marks = before ++ .begun g :: after → .cancelled ∈ before → g = generation + 1

theorem LateAt.note {n : Nat} (h : LateAt n marks) (hm : ∀ g, mark = .begun g → .cancelled ∈ marks → g = n + 1) :
    LateAt n (marks ++ [mark]) := by
  intro before g after split closed
  rcases List.eq_nil_or_concat after with rfl | ⟨after, last, rfl⟩
  · obtain ⟨rfl, last⟩ := List.append_inj' split rfl
    exact hm g (List.singleton_inj.1 last) closed
  · rw [List.concat_eq_append, ← List.cons_append, ← List.append_assoc] at split
    exact h before g after (List.append_inj' split rfl).1 closed

/-- While the slot is open there is nothing of which a restart could be too late. -/
theorem LateAt.of_open {n : Nat} (h : Mark.cancelled ∉ marks) : LateAt n marks := by
  rintro before g after rfl closed
  exact absurd (List.mem_append_left _ closed) h

end

end Mark

open Mark

/-! ## The account of a slot -/

/-- The child that a handle takes down. -/
def Cancel.child : Cancel Child → List Nat
  | .user c => [c.generation]
  | _ => []

/-- How many calls taking down a handle can lead to. -/
def Cancel.cost : Cancel Child → Nat
  | .user c => SlotCall.sizeAll c.teardown
  | _ => 0

@[simp] theorem Cancel.child_done : (Cancel.done : Cancel Child).child = [] := rfl

@[simp] theorem Cancel.child_user (c : Child) : (Cancel.user c).child = [c.generation] := rfl

@[simp] theorem Cancel.cost_done : (Cancel.done : Cancel Child).cost = 0 := rfl

@[simp] theorem Cancel.cost_user (c : Child) : (Cancel.user c).cost = SlotCall.sizeAll c.teardown := rfl

/-- The handle of a child, or one with nothing to take down. -/
def Cancel.IsChild (handle : Cancel Child) : Prop := handle = .done ∨ ∃ c, handle = .user c

theorem Cancel.IsChild.eq_done {handle : Cancel Child} (h : handle.IsChild) (none : handle.child = []) : handle = .done := by
  rcases h with rfl | ⟨c, rfl⟩
  · rfl
  · cases none

/-- Every child that was started has been torn down, is `held` by a call that is running, or is the one in the slot. -/
structure Tended (held : List Nat) (cell : Slot Child) (marks : List Mark) : Prop where
  child : cell.current.IsChild
  account : (startedIn marks).Perm (tornIn marks ++ (held ++ cell.current.child))
  once : (startedIn marks).Nodup
  below : ∀ g ∈ startedIn marks, g ≤ cell.generation
  emptied : cell.closed = true → cell.current = .done
  closed : cell.closed = true ↔ .cancelled ∈ marks
  begun : cell.closed = false → begunIn marks = List.range' 1 cell.generation
  late : LateAt cell.generation marks

/-- An open slot whose child a restart has taken out. -/
def Slot.begun (cell : Slot Child) : Slot Child := { cell with generation := cell.generation + 1, current := .done }

@[simp] theorem Slot.begun_generation (cell : Slot Child) : cell.begun.generation = cell.generation + 1 := rfl

@[simp] theorem Slot.begun_closed (cell : Slot Child) : cell.begun.closed = cell.closed := rfl

@[simp] theorem Slot.begun_current (cell : Slot Child) : cell.begun.current = .done := rfl

/-- What calls may do to a slot: generations go up, children that are started are of new ones, and as long as the slot is open
its child is the one that was there or, after a restart, the one of the last generation. -/
structure Onward (cell : Slot Child) (marks : List Mark) (cell' : Slot Child) (marks' : List Mark) : Prop where
  generation : cell.generation ≤ cell'.generation
  closed : cell.closed = true → cell'.closed = true
  fresh : ∀ g ∈ startedIn marks', g ∈ startedIn marks ∨ cell.generation < g
  current : cell'.closed = false →
    cell'.current.child = if cell'.generation = cell.generation then cell.current.child else [cell'.generation]

variable {held : List Nat} {cell cell' cell'' : Slot Child} {marks marks' marks'' : List Mark}

namespace Onward

theorem refl (cell : Slot Child) (marks : List Mark) : Onward cell marks cell marks :=
  ⟨le_rfl, id, fun _ => .inl, fun _ => by simp⟩

theorem open_of_open (h : Onward cell marks cell' marks') (isOpen : cell'.closed = false) : cell.closed = false := by
  rw [← Bool.not_eq_true]
  exact fun isClosed => by simp [h.closed isClosed] at isOpen

theorem trans (h : Onward cell marks cell' marks') (h' : Onward cell' marks' cell'' marks'') :
    Onward cell marks cell'' marks'' where
  generation := h.generation.trans h'.generation
  closed := h'.closed ∘ h.closed
  fresh g hg := by
    rcases h'.fresh g hg with hg | hg
    · exact h.fresh g hg
    · exact .inr (h.generation.trans_lt hg)
  current isOpen := by
    have := h.generation
    have := h'.generation
    rw [h'.current isOpen, h.current (h'.open_of_open isOpen)]
    split_ifs <;> first | rfl | omega | simp only [*]

theorem note (h : Onward cell marks cell' marks') (mark : Mark) : Onward cell (marks ++ [mark]) cell' (marks' ++ [mark]) where
  generation := h.generation
  closed := h.closed
  fresh g hg := by
    rw [startedIn_append, List.mem_append] at hg ⊢
    rcases hg with hg | hg
    · exact (h.fresh g hg).imp_left .inl
    · exact .inl (.inr hg)
  current := h.current

/-- What a restart of an open slot comes to. -/
theorem of_restart (isOpen : cell.closed = false) (later : cell.generation + 1 ≤ cell'.generation)
    (fresh : ∀ g ∈ startedIn marks', g ∈ startedIn (marks ++ [.begun (cell.generation + 1)] ++ [.started (cell.generation + 1)]) ∨
      cell.generation + 1 < g)
    (current : cell'.closed = false → cell'.current.child = [cell'.generation]) : Onward cell marks cell' marks' := by
  refine ⟨by omega, fun isClosed => by simp [isOpen] at isClosed, fun g hg => ?_, fun isOpen' => ?_⟩
  · have hg : (g ∈ startedIn marks ∨ g = cell.generation + 1) ∨ cell.generation + 1 < g := by simpa using fresh g hg
    rcases hg with (old | rfl) | new
    · exact .inl old
    · exact .inr (Nat.lt_succ_self _)
    · exact .inr (Nat.lt_of_succ_lt new)
  · rw [current isOpen', if_neg (by omega)]

end Onward

namespace Tended

/-- A restart of an open slot takes the child out. -/
theorem begin (h : Tended held cell marks) (isOpen : cell.closed = false) :
    Tended (cell.current.child ++ held) cell.begun (marks ++ [.begun (cell.generation + 1)]) where
  child := .inl rfl
  account := by simpa using h.account.trans (.append_left _ List.perm_append_comm)
  once := by simpa using h.once
  below g hg := by
    have := h.below g (by simpa using hg)
    exact Nat.le_succ_of_le this
  emptied _ := rfl
  closed := by simpa using h.closed
  begun _ := by simp [h.begun isOpen, List.range'_concat, Nat.add_comm]
  late := .of_open (by simpa [isOpen] using h.closed)

/-- A restart of a closed slot comes too late. -/
theorem tooLate (h : Tended held cell marks) (isClosed : cell.closed = true) :
    Tended held cell (marks ++ [.begun (cell.generation + 1)]) where
  child := h.child
  account := by simpa using h.account
  once := by simpa using h.once
  below g hg := h.below g (by simpa using hg)
  emptied := h.emptied
  closed := by simpa using h.closed
  begun isOpen := by simp [isClosed] at isOpen
  late := h.late.note fun g hg _ => by simpa using hg.symm

theorem start {g : Nat} (h : Tended held cell marks) (new : g ∉ startedIn marks) (hg : g ≤ cell.generation) :
    Tended (g :: held) cell (marks ++ [.started g]) where
  child := h.child
  account := by simpa using (List.perm_append_singleton g _).trans ((h.account.cons g).trans List.perm_middle.symm)
  once := by simpa using List.nodup_append_comm.1 (List.nodup_cons.2 ⟨new, h.once⟩ : ([g] ++ startedIn marks).Nodup)
  below g' hg' := by
    rcases (by simpa using hg' : g' ∈ startedIn marks ∨ g' = g) with hg' | rfl
    · exact h.below g' hg'
    · exact hg
  emptied := h.emptied
  closed := by simpa using h.closed
  begun isOpen := by simpa using h.begun isOpen
  late := h.late.note nofun

theorem tear {g : Nat} (h : Tended (g :: held) cell marks) : Tended held cell (marks ++ [.torn g]) where
  child := h.child
  account := by simpa using h.account
  once := by simpa using h.once
  below g hg := h.below g (by simpa using hg)
  emptied := h.emptied
  closed := by simpa using h.closed
  begun isOpen := by simpa using h.begun isOpen
  late := h.late.note nofun

/-- A child is put into the open slot, when nothing is there. -/
theorem keep {c : Child} (h : Tended (c.generation :: held) cell marks) (isOpen : cell.closed = false)
    (empty : cell.current = .done) : Tended held { cell with current := .user c } marks where
  child := .inr ⟨c, rfl⟩
  account := by
    have h := h.account
    rw [empty, Cancel.child_done, List.append_nil] at h
    exact h.trans (.append_left _ (List.perm_append_singleton _ _).symm)
  once := h.once
  below := h.below
  emptied isClosed := by simp [isOpen] at isClosed
  closed := h.closed
  begun := h.begun
  late := h.late

/-- A cancellation takes the child out and closes the slot. -/
theorem close (h : Tended held cell marks) :
    Tended (cell.current.child ++ held) { cell with closed := true, current := .done } (marks ++ [.cancelled]) where
  child := .inl rfl
  account := by simpa using h.account.trans (.append_left _ List.perm_append_comm)
  once := by simpa using h.once
  below g hg := h.below g (by simpa using hg)
  emptied _ := rfl
  closed := by simp
  begun isOpen := by simp at isOpen
  late := h.late.note nofun

end Tended

/-! ## Runs -/

/-- The slot of a program, and what happened to it after `past`. -/
structure Slot.At (s : Ref .slot) (past : List Mark) (cell : Slot Child) (marks : List Mark)
    (w : World (Callback Child) (Env Child (List Mark))) : Prop where
  slot : w.layout.slotIs s cell
  record : w.env.host = past ++ marks

variable {s : Ref .slot} {past : List Mark} {w : World (Callback Child) (Env Child (List Mark))}

namespace Slot.At

theorem note (h : At s past cell marks w) (mark : Mark) : mark.note.Ends w fun _ w' => At s past cell (marks ++ [mark]) w' :=
  ⟨h.slot, by simp [h.record]⟩

theorem modifySlot (h : At s past cell marks w) (f : Slot Child → Slot Child) :
    (modifySlot s f).Ends w fun _ w' => At s past (f cell) marks w' := by
  have slot : w.env.cells.slots[s.index]? = some cell := h.slot
  refine ⟨?_, h.record⟩
  change (w.env.cells.slots.modify s.index f)[s.index]? = some (f cell)
  simp [Array.getElem?_modify, slot]

theorem takeCurrent (h : At s past cell marks w) : (takeCurrent s).Ends w fun handle w' =>
    handle = cell.current ∧ At s past { cell with current := .done } marks w' := by
  simp only [LiveBindings.takeCurrent, Run.ends_bind, ends_cells, Run.ends_pure, h.slot.eq]
  exact (h.modifySlot _).imp fun _ w' h' => ⟨trivial, h'⟩

theorem swapCurrent (h : At s past cell marks w) (next : Cancel Child) : (swapCurrent s next).Ends w fun handle w' =>
    handle = cell.current ∧ At s past { cell with current := next } marks w' := by
  simp only [LiveBindings.swapCurrent, Run.ends_bind, ends_cells, Run.ends_pure, h.slot.eq]
  exact (h.modifySlot _).imp fun _ w' h' => ⟨trivial, h'⟩

end Slot.At

/-- What calls leave: the account still stands, and taking down the child in the slot cannot lead to more than `budget` calls. -/
def Slot.Kept (s : Ref .slot) (past : List Mark) (held : List Nat) (budget : Nat) (cell : Slot Child) (marks : List Mark)
    (w' : World (Callback Child) (Env Child (List Mark))) : Prop :=
  ∃ cell' marks', Slot.At s past cell' marks' w' ∧ Tended held cell' marks' ∧ cell'.current.cost ≤ budget ∧
    Onward cell marks cell' marks'

theorem Slot.Kept.mono {budget budget' : Nat} (h : Kept s past held budget cell marks w) (hb : budget ≤ budget') :
    Kept s past held budget' cell marks w := by
  obtain ⟨cell', marks', h', t, cost, on⟩ := h
  exact ⟨cell', marks', h', t, cost.trans hb, on⟩

/-- The engine keeps the account of a slot through a program, if it is deep enough for every call that may follow. -/
def Tends (s : Ref .slot) (past : List Mark) (depth : Nat) (calls : List SlotCall) : Prop :=
  ∀ {held : List Nat} {cell : Slot Child} {marks : List Mark} {w : World (Callback Child) (Env Child (List Mark))},
    Slot.At s past cell marks w → Tended held cell marks → SlotCall.sizeAll calls + cell.current.cost ≤ depth →
      (SlotCall.runAll (engine (tending s) depth) s calls).Ends w fun _ w' =>
        Slot.Kept s past held (SlotCall.sizeAll calls + cell.current.cost) cell marks w'

variable {depth : Nat}

/-- A child that was taken out of the slot is torn down. -/
theorem Tends.tearDown (ih : ∀ calls, Tends s past depth calls) {handle : Cancel Child} (child : handle.IsChild)
    (h : Slot.At s past cell marks w) (t : Tended (handle.child ++ held) cell marks)
    (room : handle.cost + cell.current.cost ≤ depth) :
    ((engine (tending s) (depth + 1)).cancel handle).Ends w fun _ w' =>
      Slot.Kept s past held (handle.cost + cell.current.cost) cell marks w' := by
  rcases child with rfl | ⟨c, rfl⟩
  · exact ⟨cell, marks, h, t, by simp, .refl cell marks⟩
  · change ((Mark.torn c.generation).note >>= fun _ => SlotCall.runAll (engine (tending s) depth) s c.teardown).Ends w _
    rw [Run.ends_bind]
    refine (h.note _).imp fun _ w₁ h₁ => ?_
    refine (ih c.teardown h₁ t.tear room).imp fun _ w₂ kept => ?_
    obtain ⟨cell', marks', h₂, t₂, cost, on⟩ := kept
    exact ⟨cell', marks', h₂, t₂, cost, on.generation, on.closed, fun g hg => by simpa using on.fresh g hg, on.current⟩

theorem Tends.cancel (ih : ∀ calls, Tends s past depth calls) (h : Slot.At s past cell marks w) (t : Tended held cell marks)
    (room : cell.current.cost ≤ depth) :
    (SlotCall.cancel.run (engine (tending s) (depth + 1)) s).Ends w fun _ w' =>
      Slot.Kept s past held cell.current.cost cell marks w' := by
  simp only [SlotCall.run, closeSlot, Run.ends_bind]
  refine (h.note _).imp fun _ w₁ h₁ => (h₁.modifySlot _).imp fun _ w₂ h₂ => h₂.takeCurrent.imp fun handle w₃ taken => ?_
  obtain ⟨rfl, h₃⟩ := taken
  refine (Tends.tearDown ih t.child h₃ t.close room).imp fun _ w₄ kept => ?_
  obtain ⟨cell', marks', h₄, t₄, cost, on⟩ := kept
  refine ⟨cell', marks', h₄, t₄, cost, on.generation, fun _ => on.closed rfl, fun g hg => by simpa using on.fresh g hg, ?_⟩
  intro isOpen
  simp [on.closed rfl] at isOpen

/-- A child that has been started is kept, or torn down when other calls have come in between. -/
theorem Tends.settle {teardown : List SlotCall} (ih : ∀ calls, Tends s past depth calls) (isOpen : cell.closed = false)
    (h : Slot.At s past cell' marks' w) (t : Tended ((cell.generation + 1) :: held) cell' marks')
    (on : Onward cell.begun (marks ++ [.begun (cell.generation + 1)] ++ [.started (cell.generation + 1)]) cell' marks')
    (room : SlotCall.sizeAll teardown + cell'.current.cost ≤ depth) :
    Run.Ends (do
      let slot := (← cells).slot s
      if slot.closed || slot.generation != cell.generation + 1 then
        (engine (tending s) (depth + 1)).cancel (.user ⟨cell.generation + 1, teardown⟩)
      else (engine (tending s) (depth + 1)).cancel (← swapCurrent s (.user ⟨cell.generation + 1, teardown⟩))) w fun _ w' =>
      Slot.Kept s past held (SlotCall.sizeAll teardown + cell'.current.cost) cell marks w' := by
  have later := on.generation
  simp only [Run.ends_bind, ends_cells, h.slot.eq]
  split
  · rename_i superseded
    have child : (Cancel.user ⟨cell.generation + 1, teardown⟩ : Cancel Child).IsChild := .inr ⟨_, rfl⟩
    refine (Tends.tearDown ih child h t room).imp fun _ w₁ kept => ?_
    obtain ⟨cell₁, marks₁, h₁, t₁, cost₁, on₁⟩ := kept
    have on := on.trans on₁
    refine ⟨cell₁, marks₁, h₁, t₁, cost₁, .of_restart isOpen on.generation on.fresh fun isOpen₁ => ?_⟩
    have isOpen' : cell'.closed = false := on₁.open_of_open isOpen₁
    have := on₁.generation
    have : cell'.generation ≠ cell.generation + 1 := by simpa [isOpen'] using superseded
    have : cell.generation + 1 ≤ cell'.generation := later
    rw [on.current isOpen₁, if_neg (by rw [Slot.begun_generation]; omega)]
  · rename_i go
    simp only [Bool.or_eq_true, bne_iff_ne, ne_eq, not_or, Bool.not_eq_true, not_not] at go
    rw [Run.ends_bind]
    refine (h.swapCurrent _).imp fun handle w₁ taken => ?_
    obtain ⟨rfl, h₁⟩ := taken
    have empty : cell'.current = .done := t.child.eq_done (by simpa [go.2] using on.current go.1)
    rw [empty]
    exact ⟨_, _, h₁, t.keep go.1 empty, by simp, .of_restart isOpen later on.fresh fun _ => by simp [go.2]⟩

theorem Tends.restart {starting teardown : List SlotCall} (ih : ∀ calls, Tends s past depth calls)
    (body : Tends s past (depth + 1) starting) (h : Slot.At s past cell marks w) (t : Tended held cell marks)
    (room : SlotCall.sizeAll starting + SlotCall.sizeAll teardown + cell.current.cost ≤ depth) :
    ((SlotCall.restart starting teardown).run (engine (tending s) (depth + 1)) s).Ends w fun _ w' =>
      Slot.Kept s past held (SlotCall.sizeAll starting + SlotCall.sizeAll teardown + cell.current.cost) cell marks w' := by
  simp only [SlotCall.run, LiveBindings.restart, Run.ends_bind, ends_cells, h.slot.eq]
  refine (h.note _).imp fun _ w₁ h₁ => ?_
  simp only [h₁.slot.eq]
  cases isOpen : cell.closed with
  | true =>
    exact ⟨cell, _, h₁, t.tooLate isOpen, Nat.le_add_left _ _, le_rfl, id, fun g hg => .inl (by simpa using hg), fun _ => by simp⟩
  | false =>
    simp only [Bool.false_eq_true, if_false, Run.ends_bind]
    refine (h₁.modifySlot _).imp fun _ w₂ h₂ => h₂.takeCurrent.imp fun handle w₃ taken => ?_
    obtain ⟨rfl, h₃⟩ := taken
    refine (Tends.tearDown ih t.child h₃ (t.begin isOpen) (by simp only [Cancel.cost_done]; omega)).imp fun _ w₄ kept => ?_
    obtain ⟨cell₄, marks₄, h₄, t₄, cost₄, on₄⟩ := kept
    refine (h₄.note _).imp fun _ w₅ h₅ => ?_
    have new : cell.generation + 1 ∉ startedIn marks₄ := by
      intro old
      rcases on₄.fresh _ old with old | old
      · have := t.below _ (by simpa using old)
        omega
      · exact absurd old (lt_irrefl _)
    refine (body h₅ (t₄.start new on₄.generation) (by simp only [Cancel.cost_done] at cost₄; omega)).imp fun _ w₆ kept => ?_
    obtain ⟨cell₆, marks₆, h₆, t₆, cost₆, on₆⟩ := kept
    have on := (on₄.note (.started (cell.generation + 1))).trans on₆
    simp only [Cancel.cost_done] at cost₄
    refine (Tends.settle ih isOpen h₆ t₆ on (by omega)).imp fun _ w₇ kept => ?_
    exact kept.mono (by omega)

mutual

theorem SlotCall.tends (ih : ∀ calls, Tends s past depth calls) : (call : SlotCall) → {held : List Nat} → {cell : Slot Child} →
    {marks : List Mark} → {w : World (Callback Child) (Env Child (List Mark))} → Slot.At s past cell marks w →
    Tended held cell marks → call.size + cell.current.cost ≤ depth + 1 →
      (call.run (engine (tending s) (depth + 1)) s).Ends w fun _ w' =>
        Slot.Kept s past held (call.size + cell.current.cost) cell marks w'
  | .cancel, _, _, _, _, h, t, room => by
    simp only [size] at room
    exact (Tends.cancel ih h t (by omega)).imp fun _ _ kept => kept.mono (Nat.le_add_left _ _)
  | .restart starting teardown, _, _, _, _, h, t, room => by
    simp only [size] at room ⊢
    exact (Tends.restart ih (SlotCall.tendsAll ih starting) h t (by omega)).imp fun _ _ kept => kept.mono (by omega)

theorem SlotCall.tendsAll (ih : ∀ calls, Tends s past depth calls) : (calls : List SlotCall) → Tends s past (depth + 1) calls
  | [], _, cell, marks, _, h, t, _ => ⟨cell, marks, h, t, Nat.le_add_left _ _, .refl cell marks⟩
  | call :: calls, _, _, _, _, h, t, room => by
    simp only [sizeAll] at room ⊢
    rw [runAll, Run.ends_bind]
    refine (SlotCall.tends ih call h t (by omega)).imp fun _ w₁ kept => ?_
    obtain ⟨cell₁, marks₁, h₁, t₁, cost₁, on₁⟩ := kept
    refine (SlotCall.tendsAll ih calls h₁ t₁ (by omega)).imp fun _ w₂ kept => ?_
    obtain ⟨cell₂, marks₂, h₂, t₂, cost₂, on₂⟩ := kept
    exact ⟨cell₂, marks₂, h₂, t₂, by omega, on₁.trans on₂⟩

end

/-- The engine of any depth keeps the account of a slot. -/
theorem tends (s : Ref .slot) (past : List Mark) (depth : Nat) : ∀ calls, Tends s past depth calls := by
  induction depth with
  | succ depth ih => exact SlotCall.tendsAll ih
  | zero =>
    rintro (_ | ⟨call, calls⟩) held cell marks w h t room
    · exact ⟨cell, marks, h, t, Nat.le_add_left _ _, .refl cell marks⟩
    · have : 0 < call.size := by cases call <;> simp [SlotCall.size]
      simp only [SlotCall.sizeAll] at room
      omega

/-! ## Between calls -/

/-- What a slot keeps to, as far as it shows between calls. -/
structure Orderly (marks : List Mark) : Prop where
  startedOnce : (startedIn marks).Nodup
  tornOnce : (tornIn marks).Nodup
  tornStarted : tornIn marks ⊆ startedIn marks
  /-- An open slot has the child of the latest restart. -/
  live : .cancelled ∉ marks → liveIn marks = (begunIn marks).max?.toList
  cancelled : .cancelled ∈ marks → liveIn marks = []
  /-- What is restarted after the cancellation is never started. -/
  late : ∀ before g after, marks = before ++ .begun g :: after → .cancelled ∈ before → g ∉ startedIn marks

theorem Tended.live (t : Tended [] cell marks) : liveIn marks = cell.current.child := by
  have account : (startedIn marks).Perm (tornIn marks ++ cell.current.child) := by simpa using t.account
  have apart : ∀ g ∈ cell.current.child, g ∉ tornIn marks := fun g hg torn =>
    List.disjoint_of_nodup_append (account.nodup_iff.1 t.once) torn hg
  have rest : (liveIn marks).Perm cell.current.child := by
    have gone : (tornIn marks).filter (· ∉ tornIn marks) = [] := List.filter_eq_nil_iff.2 (by simp)
    have kept : cell.current.child.filter (· ∉ tornIn marks) = cell.current.child := List.filter_eq_self.2 (by simpa using apart)
    have := account.filter (· ∉ tornIn marks)
    rwa [List.filter_append, gone, kept, List.nil_append] at this
  rcases t.child with h | ⟨c, h⟩
  · rw [h] at rest ⊢
    exact rest.eq_nil
  · rw [h] at rest ⊢
    exact List.perm_singleton.1 rest

theorem Tended.orderly (t : Tended [] cell marks) (on : Onward {} [] cell marks) : Orderly marks where
  startedOnce := t.once
  tornOnce := (t.account.nodup_iff.1 t.once).of_append_left
  tornStarted := fun g hg => t.account.mem_iff.2 (List.mem_append_left _ hg)
  live isOpen := by
    have isOpen : cell.closed = false := by simpa using mt t.closed.1 isOpen
    rw [t.live, on.current isOpen, t.begun isOpen]
    cases cell.generation with
    | zero => rfl
    | succ n =>
      have last : (List.range' 1 (n + 1)).max? = some (n + 1) :=
        List.max?_eq_some_iff.2 ⟨by simp [List.mem_range'_1], fun g hg => by simp only [List.mem_range'_1] at hg; omega⟩
      simp [last]
  cancelled isClosed := by
    rw [t.live, t.emptied (t.closed.2 isClosed)]
    rfl
  late before g after split isClosed started := by
    have := t.below g started
    have := t.late before g after split isClosed
    omega

/-- Whatever calls a program makes on a slot, no child is started or torn down twice. Between calls the child of the latest
restart is the only one that was started and not torn down; once the slot was cancelled there is none, and nothing starts. -/
theorem tends_children (calls : List SlotCall) (spare : Nat) (w : World (Callback Child) (Env Child (List Mark))) :
    Run.Ends (do
      let s ← newSlot
      SlotCall.runAll (engine (tending s) (SlotCall.sizeAll calls + spare)) s calls) w fun _ w' =>
      ∃ marks, w'.env.host = w.env.host ++ marks ∧ Orderly marks := by
  simp only [newSlot, Run.ends_bind, ends_cells, Run.ends_pure]
  let s : Ref .slot := ⟨w.layout.cells.slots.size⟩
  let w₁ := w.withCells { w.env.cells with slots := w.env.cells.slots.push {} }
  have h : Slot.At s w.env.host {} [] w₁ := ⟨Array.getElem?_push_size, (List.append_nil _).symm⟩
  have t : Tended [] {} [] :=
    ⟨.inl rfl, .refl _, List.nodup_nil, fun _ h => absurd h List.not_mem_nil, fun _ => rfl, by simp, fun _ => rfl, .of_open List.not_mem_nil⟩
  refine (tends s w.env.host _ calls h t (Nat.le_add_right _ spare)).imp fun _ w' kept => ?_
  obtain ⟨cell, marks, h', t', -, on⟩ := kept
  exact ⟨marks, h'.record, t'.orderly on⟩

-- A child that restarts its slot while it starts is superseded, and torn down as soon as it has started.
example : Run.Ends (do
    let s ← newSlot
    SlotCall.runAll (engine (tending s) 2) s [.restart [.restart [] []] []]) { env := { host := [] } } fun _ w =>
    w.env.host = [.begun 1, .started 1, .begun 2, .started 2, .torn 1] := by
  decide

end LiveBindings
