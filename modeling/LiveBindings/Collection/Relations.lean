import LiveBindings.Collection.Lifetime

/-!
# Relations

A view that evaluates an expression once per element keeps one entry per element, in the order of the elements. An entry
that was removed is gone, unless the removal itself or a result of the entry is still in progress: until then a late
result is taken like any other, at the index that the entry had.
-/

namespace LiveBindings

variable {π σ : Type}

/-- Runs an action and afterwards holds the entries again that were held before. -/
def keepingHeldEntries {α : Type} (act : Live π σ α) : Live π σ α := do
  let base := (← cells).heldEntries
  restoring (fun w => { w with env := { w.env with cells := { w.env.cells with heldEntries := base } } }) act

def holdEntries (es : List (Ref .entry)) : Live π σ Unit :=
  modifyCells fun c => { c with heldEntries := es ++ c.heldEntries }

/-- Whether an entry still exists. -/
def isAlive (c : Cells π) (r : Ref .relations) (e : Ref .entry) : Bool :=
  (c.relationsCell r).entries.contains e || c.heldEntries.contains e

namespace Relations

/-- The elements of the entries, in order. -/
def inputs (r : Ref .relations) : Live π σ (List Value) := do
  let c ← cells
  return (c.relationsCell r).entries.map fun e => (c.entry e).input

/-- The latest results, in order. -/
def outputs (r : Ref .relations) : Live π σ (List Value) := do
  let c ← cells
  return (c.relationsCell r).entries.map fun e => (c.entry e).output

/-- The element of the entry at an index. -/
def input (r : Ref .relations) (index : Nat) : Live π σ Value := return (← inputs r).getD index .undefined

def length (r : Ref .relations) : Live π σ Nat := return ((← cells).relationsCell r).entries.length

/-- Starts the expression for an element. -/
def startEntry (E : Engine π σ) (r : Ref .relations) (index : Nat) (input : Value) : Live π σ (Ref .entry) := do
  let c := (← cells).relationsCell r
  let e ← newEntry { index, input }
  holdEntries [e]
  let cancel ← E.start c.relation (.result r e) (c.scope.nest input)
  modifyEntry e fun c => { c with started := true }
  modifyEntry e fun c => { c with cancel }
  return e

/-- Starts the expression for elements that stand from an index on. -/
def startEntries (E : Engine π σ) (r : Ref .relations) : Nat → List Value → Live π σ (List (Ref .entry))
  | _, [] => return []
  | index, v :: vs => do
    let e ← startEntry E r index v
    let es ← startEntries E r (index + 1) vs
    return e :: es

/-- Tells entries where they stand, from an index on. -/
def number : Nat → List (Ref .entry) → Live π σ Unit
  | _, [] => pure ()
  | index, e :: es => do
    modifyEntry e fun c => { c with index }
    number (index + 1) es

/-- Follows a replacement of elements: the removed entries are cancelled, then new ones are started. Returns the results of
the new ones. -/
def splice (E : Engine π σ) (r : Ref .relations) (index removed : Nat) (plus : List Value) :
    Live π σ (List Value) :=
  keepingHeldEntries do
    let entries := ((← cells).relationsCell r).entries
    let start := min index entries.length
    let stop := min (start + removed) entries.length
    let stale := (entries.take stop).drop start
    modifyRelations r fun c => { c with entries := entries.take start ++ entries.drop stop }
    holdEntries stale
    cancelEntries E stale
    let fresh ← startEntries E r index plus
    let c ← cells
    let outputs := fresh.map fun e => (c.entry e).output
    let entries := (c.relationsCell r).entries
    let start := min index entries.length
    let entries := entries.take start ++ fresh ++ entries.drop start
    modifyRelations r fun c => { c with entries }
    number start (entries.drop start)
    return outputs

/-- Starts over with other elements. Returns their results. -/
def reset (E : Engine π σ) (r : Ref .relations) (items : List Value) : Live π σ (List Value) := do
  splice E r 0 (← length r) items

/-- Takes a result for an entry. When the entry has started and the result differs from the one before, `update` is told
the index and both results. -/
def receive (update : Nat → Value → Value → Live π σ Unit) (r : Ref .relations) (e : Ref .entry) (v : Value) :
    Live π σ Unit := do
  if isAlive (← cells) r e then
    keepingHeldEntries do
      holdEntries [e]
      let old := ((← cells).entry e).output
      modifyEntry e fun c => { c with output := v }
      let entry := (← cells).entry e
      if entry.started && !old.same v then update entry.index old v

end Relations

end LiveBindings
