import LiveBindings.Engine

/-!
# Slots

A slot holds at most one running child. Restarting it cancels the child before the next one starts; a child whose slot was
restarted or closed while it was starting is cancelled at once.
-/

namespace LiveBindings

variable {π σ : Type}

/-- Takes the current child out of a slot. -/
def takeCurrent (s : Ref .slot) : Live π σ (Cancel π) := do
  let current := ((← cells).slot s).current
  modifySlot s fun c => { c with current := .done }
  return current

/-- Puts a child into a slot and returns the one that was there. -/
def swapCurrent (s : Ref .slot) (next : Cancel π) : Live π σ (Cancel π) := do
  let current := ((← cells).slot s).current
  modifySlot s fun c => { c with current := next }
  return current

/-- Cancels the child of a slot, then starts and keeps a new one. A closed slot starts nothing. -/
def restart (E : Engine π σ) (s : Ref .slot) (start : Live π σ (Cancel π)) : Live π σ Unit := do
  let slot := (← cells).slot s
  if slot.closed then return ()
  let generation := slot.generation + 1
  modifySlot s fun c => { c with generation }
  E.cancel (← takeCurrent s)
  let next ← start
  let slot := (← cells).slot s
  if slot.closed || slot.generation != generation then E.cancel next
  else E.cancel (← swapCurrent s next)

/-- Cancels the child of a slot and closes it. -/
def closeSlot (E : Engine π σ) (s : Ref .slot) : Live π σ Unit := do
  modifySlot s fun c => { c with closed := true }
  E.cancel (← takeCurrent s)

end LiveBindings
