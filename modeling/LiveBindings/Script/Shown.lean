import LiveBindings.Store.Contents

/-!
# Showing values

A value is shown with all that it holds at that moment. Containers are told apart by numbers that are given in the order in
which they are first shown, and a container that occurs again in what is shown at once is only referred to.
-/

namespace LiveBindings.Script

/-- A list or an object. -/
inductive Container
  | list (l : ListId)
  | object (o : ObjectId)
deriving DecidableEq

/-- What is seen of a value at one moment. -/
inductive Shown
  | undefined
  | null
  | bool (b : Bool)
  | number (n : Number)
  | text (s : String)
  | list (id : Nat) (items : List Shown)
  | object (id : Nat) (entries : List (String × Shown))
  /-- A container that was shown before in the same showing. -/
  | seen (id : Nat)

/-- The containers that have a number, and those that the showing in progress has come across. -/
structure Showing where
  numbered : Array Container := #[]
  met : List Nat := []

/-- Gives a container its number and says whether it was met before. -/
def Showing.meet (c : Container) : StateM Showing (Nat × Bool) := do
  let s ← get
  match s.numbered.idxOf? c with
  | some id =>
    if s.met.contains id then return (id, true)
    set { s with met := id :: s.met }
    return (id, false)
  | none =>
    let id := s.numbered.size
    set ({ numbered := s.numbered.push c, met := id :: s.met } : Showing)
    return (id, false)

namespace Shown

/-- Shows a value through at most `depth` containers inside each other. -/
def within (c : Contents) : Nat → Value → StateM Showing Shown
  | _, .undefined => return undefined
  | _, .null => return null
  | _, .bool b => return bool b
  | _, .number n => return number n
  | _, .text s => return text s
  | 0, .list _ | 0, .object _ => return undefined
  | depth + 1, .list l => do
    let (id, before) ← Showing.meet (.list l)
    if before then return seen id
    return list id (← (c.items l).mapM (within c depth))
  | depth + 1, .object o => do
    let (id, before) ← Showing.meet (.object o)
    if before then return seen id
    return object id (← (c.entries o).mapM fun e => return (e.1, ← within c depth e.2))

/-- Shows values at once. No container is entered twice, so that their number bounds the depth. -/
def all (c : Contents) (numbered : Array Container) (vs : List Value) : List Shown × Array Container :=
  let (shown, s) := (vs.mapM (within c (c.count + 1))).run { numbered }
  (shown, s.numbered)

/-- Shows one value. -/
def one (c : Contents) (numbered : Array Container) (v : Value) : Shown × Array Container :=
  let (shown, s) := (within c (c.count + 1) v).run { numbered }
  (shown, s.numbered)

end Shown

end LiveBindings.Script
