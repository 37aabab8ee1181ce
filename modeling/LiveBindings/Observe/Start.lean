import LiveBindings.Collection.Block
import LiveBindings.Collection.Projection
import LiveBindings.Observe.Follow
import LiveBindings.Observe.Slot

/-!
# Starting an expression

An expression that is started hands its value to a sink before the start is over, and again after every change that
matters to it. What comes back is the handle that stops it. A handle takes down what feeds an expression before what the
expression itself keeps.

Several expressions whose values are wanted together are started with sinks that fill a row of arguments; what is to be
done with them is done once when all have been started and from then on after every change of one of them.
-/

namespace LiveBindings

variable {π σ : Type}

/-- The arguments are all there: what is to be done is done. -/
def settle (E : Engine π σ) (args : Ref .args) (action : ArgsAction π) : Live π σ Unit := do
  modifyArgs args fun c => { c with ready := true }
  E.react action ((← cells).argsCell args).values

/-- The handle of something that is started in a slot for every value of something else. -/
def forEach (s : Ref .slot) (outer : Cancel π) : Cancel π := .join [outer, .closeSlot s]

/-- A sink that drops a value that is the same as the one before. -/
def distinct (next : Sink π) : Live π σ (Sink π) := return .distinct (← newLast) next

/-- A view of a list, the list that it keeps, and the value by which others see it. -/
def PerElement.block (what : PerElement) (r : Ref .relations) (next : Sink π) :
    Live π σ (Block π × Option Value) := do
  match what with
  | .map =>
    let output ← ListId.create []
    return (.map output r, Option.some (.list output))
  | .filter =>
    let output ← ListId.create []
    return (.filter output r {}, Option.some (.list output))
  | .every => return (.quantifier true r (← distinct next), none)
  | .some => return (.quantifier false r (← distinct next), none)
  | .sorted =>
    let output ← ListId.create []
    return (.sorted output r, Option.some (.list output))
  | .group =>
    let output ← ListId.create []
    return (.group output r [], Option.some (.list output))
  | .groupMap =>
    let output ← ObjectId.create []
    return (.groupMap output r [] [], Option.some (.object output))
  | .least => return (.extreme false r (← distinct next), none)
  | .greatest => return (.extreme true r (← distinct next), none)

def Rearrangement.block (what : Rearrangement) (output : ListId) : Block π :=
  match what with
  | .enumerate => .enumerate output
  | .reversed => .reversed output
  | .flatten => .flatten output []

/-- Something that can be started with a sink. -/
abbrev Starting (π σ : Type) := Sink π → Live π σ (Cancel π)

/-- Shows a view the content of every value. -/
def watch (b : Ref .block) (collection : Starting π σ) : Live π σ (Cancel π) := do
  let s ← newSlot
  let outer ← collection (.switch s (.content b))
  return forEach s outer

/-- Starts two things as a row of arguments. -/
def startTwo (E : Engine π σ) (action : ArgsAction π) (first second : Starting π σ) : Live π σ (Cancel π) := do
  let row ← newArgs 2
  let first ← first (.argument row 0 action)
  let second ← second (.argument row 1 action)
  settle E row action
  return .join [first, second]

/-- Follows a container under a key. -/
def startFollowing (E : Engine π σ) (what : Followed) (container key : Starting π σ) (next : Sink π) :
    Live π σ (Cancel π) := do
  let next ← distinct next
  let s ← newSlot
  let outer ← startTwo E (.follow s what next) container key
  return forEach s outer

namespace Expr

mutual

/-- Starts an expression in a scope. -/
def start (E : Engine π σ) : Expr → Sink π → Scope → Live π σ (Cancel π)
  | .literal v, next, _ => constant E v next
  | .value, next, scope => constant E scope.value next
  | .parameters, next, scope => constant E scope.parameters next
  | .element id, next, scope =>
    match scope.elements with
    | some o => followEntry E o id next
    | none => constant E .undefined next
  | .component label, next, scope =>
    match scope.components with
    | some o => followEntry E o label next
    | none => constant E .undefined next
  | .record fields, next, scope => do
    let o ← ObjectId.create []
    let handles ← startFields E o scope fields
    E.emit next (.object o)
    return .join handles
  | .property object key, next, scope =>
    startFollowing E .property (object.start E · scope) (key.start E · scope) next
  | .membership collection member, next, scope =>
    startFollowing E .membership (collection.start E · scope) (member.start E · scope) next
  | .within context body, next, scope => do
    let s ← newSlot
    let outer ← context.start E (.switch s (.body body scope next)) scope
    return forEach s outer
  | .choice condition consequent alternate, next, scope => do
    let s ← newSlot
    let flag ← distinct (.switch s (.either consequent alternate scope next))
    let outer ← condition.start E (.truth flag) scope
    return forEach s outer
  | .operator f args, next, scope => do
    let action := .compute f (← distinct next)
    let row ← newArgs args.length
    let handles ← startArgs E row action scope 0 args
    settle E row action
    return .join handles
  | .project what object, next, scope => do
    let output ← ListId.create []
    let p ← newProjector what output
    let s ← newSlot
    let outer ← object.start E (.switch s (.entries p)) scope
    E.emit next (.list output)
    return forEach s outer
  | .perElement what collection relation, next, scope => do
    let b ← nextBlock
    let r ← newRelations relation scope b
    let (block, output) ← what.block r next
    let b ← newBlock block
    let content ← watch b (collection.start E · scope)
    if let some output := output then E.emit next output
    return .join [content, .release b]
  | .rearrange what collection, next, scope => do
    let output ← ListId.create []
    let b ← newBlock (what.block output)
    let content ← watch b (collection.start E · scope)
    E.emit next (.list output)
    return .join [content, .release b]
  | .window collection first length, next, scope => do
    let output ← ListId.create []
    let b ← newBlock (.window output [] 0 0)
    let bounds ← startTwo E (.bounds b) (first.start E · scope) (length.start E · scope)
    let content ← watch b (collection.start E · scope)
    E.emit next (.list output)
    return .join [content, bounds]
  | .reduce what collection, next, scope => do
    let b ← newBlock (.reduce what [] (← distinct next))
    watch b (collection.start E · scope)
  | .tuple elements, next, scope => do
    let output ← ListId.create (List.replicate elements.length .undefined)
    let handles ← startItems E output scope 0 elements
    E.emit next (.list output)
    return .join handles
  | .range length, next, scope => do
    let output ← ListId.create []
    let handle ← length.start E (.extent output) scope
    E.emit next (.list output)
    return handle
  | .mapped f source, next, scope => source.start E (.mapped f next) scope

/-- Starts the arguments of a row from an index on. -/
def startArgs (E : Engine π σ) (row : Ref .args) (action : ArgsAction π) (scope : Scope) :
    Nat → List Expr → Live π σ (List (Cancel π))
  | _, [] => return []
  | index, x :: xs => do
    let handle ← x.start E (.argument row index action) scope
    let handles ← startArgs E row action scope (index + 1) xs
    return handle :: handles

/-- Starts the fields of a record. -/
def startFields (E : Engine π σ) (o : ObjectId) (scope : Scope) : List (String × Expr) → Live π σ (List (Cancel π))
  | [] => return []
  | (name, x) :: fields => do
    let handle ← x.start E (.property o name) scope
    let handles ← startFields E o scope fields
    return handle :: handles

/-- Starts the elements of a tuple from an index on. -/
def startItems (E : Engine π σ) (output : ListId) (scope : Scope) : Nat → List Expr → Live π σ (List (Cancel π))
  | _, [] => return []
  | index, x :: xs => do
    let handle ← x.start E (.item output index) scope
    let handles ← startItems E output scope (index + 1) xs
    return handle :: handles

end

end Expr

end LiveBindings
