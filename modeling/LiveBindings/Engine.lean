import LiveBindings.Collection.KeptCounts
import LiveBindings.Expr
import LiveBindings.Store.Span

/-!
# The engine: observers as data

An observer that runs is data in the world: cells with its state, listeners that lead back to it, and a handle to cancel
it. A `Sink` says where the values of an observer go, a `Callback` what a listener does, and a `Cancel` what a handle
takes down. The type `π` stands for what the embedding program attaches of its own (`Host`), and `σ` for its state.

The operations of the following modules take an `Engine`, the record of what can be asked of a running engine, as a
parameter, and are not recursive through it. The knot is tied once, in the module on runs.
-/

namespace LiveBindings

/-- The tables of cells. -/
inductive Table
  | last
  | args
  | slot
  | flag
  | block
  | relations
  | entry
  | segment
  | projector
deriving DecidableEq

/-- A cell of a table. -/
structure Ref (t : Table) where
  index : Nat
deriving DecidableEq, Inhabited

/-- How a value is written to a place given by a container and a key. -/
inductive Writing
  /-- It becomes the property or item under the key. -/
  | assign
  /-- Its truth becomes the presence of the element or key. -/
  | toggle
deriving DecidableEq

/-- What is followed of a container and a key. -/
inductive Followed
  | property
  | membership
deriving DecidableEq

/-- Where the values of a binding come from. -/
inductive Source
  | observe (x : Expr) (scope : Scope)
  /-- Values that arrive while `syncing` is set, or before `ready` is, are dropped; `syncing` is set while one is passed
  on. -/
  | guarded (x : Expr) (scope : Scope) (syncing : Ref .flag) (ready : Option (Ref .flag))
  | inverse (f : Value → Value) (s : Source)
  /-- The value of the right side whenever the source or the right side changes and the source is true. -/
  | gated (s : Source) (right : Expr) (scope : Scope)

mutual

/-- Where the values of an observer go. -/
inductive Sink (π : Type)
  | user (p : π)
  /-- Passes on a value that is not the same as the last one. -/
  | distinct (last : Ref .last) (next : Sink π)
  | mapped (f : OperatorFunction) (next : Sink π)
  | inverse (f : Value → Value) (next : Sink π)
  | truth (next : Sink π)
  /-- Becomes one of the arguments of something that runs when all are there. -/
  | argument (args : Ref .args) (index : Nat) (action : ArgsAction π)
  /-- Starts a branch in a slot, in place of the one there. -/
  | switch (slot : Ref .slot) (branch : Branch π)
  | property (o : ObjectId) (key : String)
  | item (l : ListId) (index : Nat)
  /-- Becomes the length of a list of consecutive numbers. -/
  | extent (l : ListId)
  /-- Becomes the result for one element. -/
  | result (relations : Ref .relations) (entry : Ref .entry)
  | guarded (syncing : Ref .flag) (ready : Option (Ref .flag)) (next : Sink π)
  | write (how : Writing) (container key : Value)

/-- What is done with arguments that are all there. -/
inductive ArgsAction (π : Type)
  | compute (f : OperatorFunction) (next : Sink π)
  /-- Follows, in a slot, the first argument under the key that is the second. -/
  | follow (slot : Ref .slot) (what : Followed) (next : Sink π)
  /-- Sets the start and the length of a window. -/
  | bounds (window : Ref .block)
  /-- Starts a source, in a slot, that writes to the place given by the arguments. -/
  | writeTo (slot : Ref .slot) (how : Writing) (source : Source)
  /-- Passes the second argument on when the first is true. -/
  | gate (next : Sink π)

/-- What is started for a value. -/
inductive Branch (π : Type)
  /-- An expression with the value in scope. -/
  | body (x : Expr) (scope : Scope) (next : Sink π)
  /-- One of two expressions by the truth of the value. -/
  | either (consequent alternate : Expr) (scope : Scope) (next : Sink π)
  /-- A view of the value's content. -/
  | content (block : Ref .block)
  /-- A view of the value's entries. -/
  | entries (projector : Ref .projector)
  /-- A target with the value in scope. -/
  | target (t : Target) (source : Source) (scope : Scope)

end

/-- What a listener does. -/
inductive Callback (π : Type)
  /-- Passes on the value that it is told. -/
  | forward (next : Sink π)
  /-- Passes on the item at an index. -/
  | reread (l : ListId) (index : Nat) (next : Sink π)
  /-- Passes on whether the list has a value. -/
  | listHas (l : ListId) (value : Value) (next : Sink π)
  /-- Passes on whether the object has a key. -/
  | objectHas (o : ObjectId) (key : String) (next : Sink π)
  /-- Tells a view how the content changed. -/
  | content (block : Ref .block)
  /-- Lets a view of entries look at the object again. -/
  | entries (projector : Ref .projector) (o : ObjectId)
  /-- Lets one segment of a flattened list look at its inner list again. -/
  | segment (block : Ref .block) (segment : Ref .segment) (inner : ListId)
  | user (p : π)

/-- What a handle takes down. A handle that was cancelled, or never had anything to take down, is `done`. -/
inductive Cancel (π : Type)
  | done
  | unlistenList (l : ListId) (topic : ListTopic) (id : ListenerId)
  | unlistenObject (o : ObjectId) (topic : ObjectTopic) (id : ListenerId)
  /-- Cancels what runs in a slot and lets nothing more start there. -/
  | closeSlot (slot : Ref .slot)
  /-- Gives up the owner's hold on a view. -/
  | release (block : Ref .block)
  | join (handles : List (Cancel π))
  | user (p : π)

instance {π : Type} : Inhabited (Cancel π) := ⟨.done⟩

/-- Whether a handle has nothing left to take down. -/
def Cancel.isDone {π : Type} : Cancel π → Bool
  | done => true
  | _ => false

/-! ## Cells -/

/-- The latest arguments, and whether all of them have been started. -/
structure ArgsCell where
  values : List Value := []
  ready : Bool := false

/-- A holder of at most one running child. -/
structure Slot (π : Type) where
  current : Cancel π := .done
  generation : Nat := 0
  closed : Bool := false

/-- Expressions running once per element of a collection, aligned with it, for a view. -/
structure Relations where
  relation : Expr := .value
  scope : Scope := {}
  owner : Ref .block := ⟨0⟩
  entries : List (Ref .entry) := []

/-- An element and the latest result for it. Results that arrive before the entry has started are not reported. -/
structure Entry (π : Type) where
  index : Nat := 0
  input : Value := .undefined
  output : Value := .undefined
  started : Bool := false
  cancel : Cancel π := .done

/-- An element of a flattened list: where it stands and how many items it contributes. -/
structure Segment (π : Type) where
  index : Nat := 0
  length : Nat := 0
  cancel : Cancel π := .done

/-- The elements with one key, and the pair of both that is listed. -/
structure Bucket where
  key : Value
  members : ListId
  pair : ListId

/-- A view of a collection's content. -/
inductive Block (π : Type)
  | map (output : ListId) (relations : Ref .relations)
  | filter (output : ListId) (relations : Ref .relations) (kept : KeptCounts)
  | quantifier (all : Bool) (relations : Ref .relations) (sink : Sink π)
  | extreme (greatest : Bool) (relations : Ref .relations) (sink : Sink π)
  | sorted (output : ListId) (relations : Ref .relations)
  | group (output : ListId) (relations : Ref .relations) (buckets : List Bucket)
  /-- `merged` holds the lists of the keys that several buckets share. -/
  | groupMap (output : ObjectId) (relations : Ref .relations) (buckets : List Bucket) (merged : List (String × ListId))
  | enumerate (output : ListId)
  | reversed (output : ListId)
  | flatten (output : ListId) (segments : List (Ref .segment))
  | window (output : ListId) (items : List Value) (start length : Nat)
  | reduce (what : Reduction) (items : List Value) (sink : Sink π)

/-- A view, and whether nothing holds it any more. -/
structure BlockCell (π : Type) where
  block : Block π
  finished : Bool := false

/-- A view of an object's entries. `pairs` are the pairs listed by key; they are `busy` while being set. -/
structure Projector where
  what : Projection := .keys
  output : ListId := ⟨0⟩
  pairs : List (String × ListId) := []
  busy : Bool := false

/-- The state of all observers. -/
structure Cells (π : Type) where
  lasts : Array (Option Value) := #[]
  args : Array ArgsCell := #[]
  slots : Array (Slot π) := #[]
  flags : Array Bool := #[]
  blocks : Array (BlockCell π) := #[]
  relations : Array Relations := #[]
  entries : Array (Entry π) := #[]
  segments : Array (Segment π) := #[]
  projectors : Array Projector := #[]
  /-- Views given up by their owners while something in progress still held them. -/
  orphans : List (Ref .block) := []
  /-- Views that something in progress holds. -/
  heldBlocks : List (Ref .block) := []
  /-- Entries that something in progress holds. -/
  heldEntries : List (Ref .entry) := []

/-- The observers' state and that of the embedding program. -/
structure Env (π σ : Type) where
  cells : Cells π := {}
  host : σ

/-- A computation of the engine. -/
abbrev Live (π σ : Type) := Run (Callback π) (Env π σ)

/-- What can be asked of a running engine. -/
structure Engine (π σ : Type) where
  /-- The action of a listener. -/
  fire : Callback π → Event → Live π σ Unit
  /-- What happens when captured callbacks are let go. -/
  letGo : Live π σ Unit
  /-- Hands a value to a sink. -/
  emit : Sink π → Value → Live π σ Unit
  /-- Does what is to be done with arguments that are all there. -/
  react : ArgsAction π → List Value → Live π σ Unit
  /-- Starts an expression; its value goes to the sink before the start is over. -/
  start : Expr → Sink π → Scope → Live π σ (Cancel π)
  /-- Takes down what a handle stands for. -/
  cancel : Cancel π → Live π σ Unit

/-- What the containers of the store ask of the engine. -/
def Engine.reactions {π σ : Type} (E : Engine π σ) : Reactions (Callback π) (Env π σ) where
  fire := E.fire
  letGo := E.letGo

/-- What the embedding program does when it is called. -/
structure Host (π σ : Type) where
  /-- It hears an event. -/
  listener : Engine π σ → π → Event → Live π σ Unit
  /-- It receives a value. -/
  observer : Engine π σ → π → Value → Live π σ Unit
  /-- It takes something down. -/
  teardown : Engine π σ → π → Live π σ Unit

/-! ## Access -/

variable {π σ : Type}

/-- The cells now. -/
def cells : Live π σ (Cells π) := return (← get).env.cells

def modifyCells (f : Cells π → Cells π) : Live π σ Unit :=
  modify fun w => { w with env := { w.env with cells := f w.env.cells } }

/-- The state of the embedding program. -/
def host : Live π σ σ := return (← get).env.host

def modifyHost (f : σ → σ) : Live π σ Unit := modify fun w => { w with env := { w.env with host := f w.env.host } }

namespace Cells

def slot (c : Cells π) (s : Ref .slot) : Slot π := c.slots.getD s.index {}
def flag (c : Cells π) (f : Ref .flag) : Bool := c.flags.getD f.index false
def lastValue (c : Cells π) (r : Ref .last) : Option Value := c.lasts.getD r.index none
def argsCell (c : Cells π) (r : Ref .args) : ArgsCell := c.args.getD r.index {}
def relationsCell (c : Cells π) (r : Ref .relations) : Relations := c.relations.getD r.index {}
def entry (c : Cells π) (e : Ref .entry) : Entry π := c.entries.getD e.index {}
def segment (c : Cells π) (s : Ref .segment) : Segment π := c.segments.getD s.index {}
def projector (c : Cells π) (p : Ref .projector) : Projector := c.projectors.getD p.index {}

/-- A view; one that was never made, or that nothing holds any more, is absent. -/
def block? (c : Cells π) (b : Ref .block) : Option (Block π) :=
  match c.blocks[b.index]? with
  | some cell => if cell.finished then none else some cell.block
  | none => none

end Cells

/-- A new cell for the last value passed on. -/
def newLast : Live π σ (Ref .last) := do
  let c ← cells
  modifyCells fun c => { c with lasts := c.lasts.push none }
  return ⟨c.lasts.size⟩

def newSlot : Live π σ (Ref .slot) := do
  let c ← cells
  modifyCells fun c => { c with slots := c.slots.push {} }
  return ⟨c.slots.size⟩

/-- A new flag that is not set. -/
def newFlag : Live π σ (Ref .flag) := do
  let c ← cells
  modifyCells fun c => { c with flags := c.flags.push false }
  return ⟨c.flags.size⟩

def newArgs (count : Nat) : Live π σ (Ref .args) := do
  let c ← cells
  modifyCells fun c => { c with args := c.args.push { values := List.replicate count .undefined } }
  return ⟨c.args.size⟩

def newRelations (relation : Expr) (scope : Scope) (owner : Ref .block) : Live π σ (Ref .relations) := do
  let c ← cells
  modifyCells fun c => { c with relations := c.relations.push { relation, scope, owner } }
  return ⟨c.relations.size⟩

def newEntry (entry : Entry π) : Live π σ (Ref .entry) := do
  let c ← cells
  modifyCells fun c => { c with entries := c.entries.push entry }
  return ⟨c.entries.size⟩

def newSegment (segment : Segment π) : Live π σ (Ref .segment) := do
  let c ← cells
  modifyCells fun c => { c with segments := c.segments.push segment }
  return ⟨c.segments.size⟩

def newProjector (what : Projection) (output : ListId) : Live π σ (Ref .projector) := do
  let c ← cells
  modifyCells fun c => { c with projectors := c.projectors.push { what, output } }
  return ⟨c.projectors.size⟩

/-- The reference that the next view will have. -/
def nextBlock : Live π σ (Ref .block) := return ⟨(← cells).blocks.size⟩

def newBlock (block : Block π) : Live π σ (Ref .block) := do
  let c ← cells
  modifyCells fun c => { c with blocks := c.blocks.push { block } }
  return ⟨c.blocks.size⟩

def modifySlot (s : Ref .slot) (f : Slot π → Slot π) : Live π σ Unit :=
  modifyCells fun c => { c with slots := c.slots.modify s.index f }

def setFlag (r : Ref .flag) (b : Bool) : Live π σ Unit :=
  modifyCells fun c => { c with flags := c.flags.modify r.index fun _ => b }

def setLast (r : Ref .last) (v : Value) : Live π σ Unit :=
  modifyCells fun c => { c with lasts := c.lasts.modify r.index fun _ => some v }

def modifyArgs (r : Ref .args) (f : ArgsCell → ArgsCell) : Live π σ Unit :=
  modifyCells fun c => { c with args := c.args.modify r.index f }

def modifyRelations (r : Ref .relations) (f : Relations → Relations) : Live π σ Unit :=
  modifyCells fun c => { c with relations := c.relations.modify r.index f }

def modifyEntry (e : Ref .entry) (f : Entry π → Entry π) : Live π σ Unit :=
  modifyCells fun c => { c with entries := c.entries.modify e.index f }

def modifySegment (s : Ref .segment) (f : Segment π → Segment π) : Live π σ Unit :=
  modifyCells fun c => { c with segments := c.segments.modify s.index f }

def modifyProjector (p : Ref .projector) (f : Projector → Projector) : Live π σ Unit :=
  modifyCells fun c => { c with projectors := c.projectors.modify p.index f }

def modifyBlock (b : Ref .block) (f : Block π → Block π) : Live π σ Unit :=
  modifyCells fun c => { c with blocks := c.blocks.modify b.index fun cell => { cell with block := f cell.block } }

end LiveBindings
