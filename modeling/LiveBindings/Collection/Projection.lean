import LiveBindings.Engine

/-!
# Views of an object's entries

Lists of the keys, the values or the pairs of an object, in insertion order. A pair is kept by its key: when only the
value under a key changes, its pair is updated in place.
-/

namespace LiveBindings

variable {π σ : Type}

/-- The pairs for entries, in order: each is the one listed for its key, set to the value, or a new one. -/
def setPairs (E : Engine π σ) (p : Ref .projector) : List (String × Value) → Live π σ (List (String × ListId))
  | [] => return []
  | (key, value) :: rest => do
    let known := Fields.get? key ((← cells).projector p).pairs
    modifyProjector p fun c => { c with pairs := Fields.erase key c.pairs }
    let pair ← match known with
      | some pair => do
        pair.assign E.reactions 1 value
        pure pair
      | none => ListId.create [.text key, value]
    let pairs ← setPairs E p rest
    return (key, pair) :: pairs

/-- Sets the pairs of all entries. While this is in progress the view cannot be refreshed. -/
def refreshPairs (E : Engine π σ) (p : Ref .projector) (entries : List (String × Value)) : Live π σ (List Value) := do
  if ((← cells).projector p).busy then throw .tuplesBusy
  let release (c : Cells π) : Cells π :=
    { c with projectors := c.projectors.modify p.index fun c => { c with busy := false } }
  restoring (fun w => { w with env := { w.env with cells := release w.env.cells } }) do
    modifyProjector p fun c => { c with busy := true }
    let pairs ← setPairs E p entries
    modifyProjector p fun c => { c with pairs }
    return pairs.map fun pair => .list pair.2

/-- Brings a view up to date with an object; without one it is empty. -/
def refreshEntries (E : Engine π σ) (p : Ref .projector) (object : Option ObjectId) : Live π σ Unit := do
  let entries ← match object with
    | some o => o.entries
    | none => pure []
  let view := (← cells).projector p
  let next ← match view.what with
    | .keys => pure (entries.map fun e => .text e.1)
    | .values => pure (entries.map (·.2))
    | .items => refreshPairs E p entries
  view.output.reconcile E.reactions next

end LiveBindings
