import LiveBindings.Script.Session

/-!
# Handles and slots of a script

A handle that is replaced under its name is cancelled. A slot exists as long as a name, a handle or a step in progress holds
it; when it goes, its child is cancelled.
-/

namespace LiveBindings.Script

mutual

/-- The slots that a handle closes. -/
def slotsOf : Cancel Hook → List (Ref .slot)
  | .closeSlot s => [s]
  | .join handles => slotsOfAll handles
  | _ => []

def slotsOfAll : List (Cancel Hook) → List (Ref .slot)
  | [] => []
  | handle :: handles => slotsOf handle ++ slotsOfAll handles

end

/-- Whether anything holds a slot. -/
def Session.holdsSlot (s : Session) (slot : Ref .slot) : Bool :=
  s.slots.any (·.2 == slot) || s.busySlots.contains slot || (slotsOfAll (s.handles.map (·.2))).contains slot

/-- Cancels the child of a slot that nothing holds any more. -/
def dropSlot (E : Engine Hook Session) (slot : Ref .slot) : Act Unit := do
  if !(← host).holdsSlot slot then E.cancel (← takeCurrent slot)

/-- Runs an action that works on slots; one that is held by nothing else goes when it is over. -/
def withSlots (slots : List (Ref .slot)) (act : Act Unit) : Act Unit := do
  let before := (← host).busySlots
  let release (s : Session) : Session := { s with busySlots := before }
  restoring (fun w => { w with env := { w.env with host := release w.env.host } }) do
    modifySession fun s => { s with busySlots := slots ++ s.busySlots }
    act

/-- Cancels a handle. -/
def cancelHandle (E : Engine Hook Session) (handle : Cancel Hook) : Act Unit :=
  withSlots (slotsOf handle) (E.cancel handle)

/-- Stores a handle under a name; the one that was there is cancelled. -/
def storeHandle (E : Engine Hook Session) (name : String) (handle : Cancel Hook) : Act Outcome := do
  let old := Fields.get? name (← host).handles
  modifySession fun s => { s with handles := Fields.put name handle s.handles }
  if let some old := old then cancelHandle E old
  return .nothing

/-- Takes the handle of a name out of the session. -/
def takeHandle (name : String) : Act (Option (Cancel Hook)) := do
  let handle := Fields.get? name (← host).handles
  modifySession fun s => { s with handles := Fields.erase name s.handles }
  return handle

/-- Takes out the handles of names; those that are not there are left out. -/
def takeHandles : List String → Act (List (Cancel Hook))
  | [] => return []
  | name :: names => do
    let handle ← takeHandle name
    let handles ← takeHandles names
    return handle.toList ++ handles

/-- Cancels the handle of a name. -/
def cancelNamed (E : Engine Hook Session) (name : String) : Act Outcome := do
  match ← takeHandle name with
  | some handle =>
    cancelHandle E handle
    return .cancelled handle.isDone true
  | none => return .failed .noObserver

/-- The diagnostic text of a handle. -/
def quoteHandle (name : String) : Act Outcome := do
  let quoted (handle : Cancel Hook) : String :=
    "Cancel \x7b cancelled: " ++ (if handle.isDone then "true" else "false") ++ " \x7d"
  return .text ((Fields.get? name (← host).handles).map quoted)

/-- Makes a slot. -/
def makeSlot (E : Engine Hook Session) (name : String) : Act Outcome := do
  let slot ← newSlot
  let old := Fields.get? name (← host).slots
  modifySession fun s => { s with slots := Fields.put name slot s.slots }
  if let some old := old then dropSlot E old
  return .nothing

/-- Works on the slot of a name, if there is one. -/
def onSlot (E : Engine Hook Session) (name : String) (act : Ref .slot → Act Unit) : Act Outcome := do
  if let some slot := Fields.get? name (← host).slots then
    withSlots [slot] (act slot)
    dropSlot E slot
  return .nothing

/-- Makes a handle that closes the slot of a name. -/
def handleOfSlot (E : Engine Hook Session) (name handle : String) : Act Outcome := do
  match Fields.get? name (← host).slots with
  | some slot => storeHandle E handle (.closeSlot slot)
  | none => return .nothing

end LiveBindings.Script
