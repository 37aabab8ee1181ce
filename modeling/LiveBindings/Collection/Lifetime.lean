import LiveBindings.Engine

/-!
# How long a view lives

The handle of a view is one of its holders. The others are callbacks that a dispatch in flight has captured and that lead
to the view, and updates of the view that are in progress. A view is finished when its last holder lets it go: only then
are the expressions that run for its elements cancelled, so that until then they still update it.
-/

namespace LiveBindings

variable {π σ : Type}

mutual

/-- Whether a sink holds a view, given which views hold it. -/
def Sink.holds (via : Ref .block → Bool) : Sink π → Bool
  | .distinct _ next | .mapped _ next | .inverse _ next | .truth next | .guarded _ _ next => next.holds via
  | .argument _ _ action => action.holds via
  | .switch _ branch => branch.holds via
  | .user _ | .property _ _ | .item _ _ | .extent _ | .result _ _ | .write _ _ _ => false

def ArgsAction.holds (via : Ref .block → Bool) : ArgsAction π → Bool
  | .compute _ next | .follow _ _ next | .gate next => next.holds via
  | .bounds window => via window
  | .writeTo _ _ _ => false

def Branch.holds (via : Ref .block → Bool) : Branch π → Bool
  | .body _ _ next | .either _ _ _ next => next.holds via
  | .content block => via block
  | .entries _ | .target _ _ _ => false

end

/-- Where a view sends its values, if it does not keep them in a container. -/
def Block.sink? : Block π → Option (Sink π)
  | .quantifier _ _ sink | .extreme _ _ sink | .reduce _ _ sink => some sink
  | _ => none

/-- Whether a view that is not finished is `target` or holds it through at most `depth` views. -/
def Cells.blockHolds (c : Cells π) (target : Ref .block) : Nat → Ref .block → Bool
  | 0, _ => false
  | depth + 1, b =>
    match c.block? b with
    | none => false
    | some block => b == target || (block.sink?.any fun s => s.holds (c.blockHolds target depth))

/-- Whether a callback holds a view, given which views hold it. -/
def Callback.holds (via : Ref .block → Bool) : Callback π → Bool
  | .forward next | .reread _ _ next | .listHas _ _ next | .objectHas _ _ next => next.holds via
  | .content block => via block
  | .entries _ _ | .segment _ _ _ | .user _ => false

/-- Whether something in progress holds a view. -/
def isHeld (w : World (Callback π) (Env π σ)) (b : Ref .block) : Bool :=
  let c := w.env.cells
  let via := c.blockHolds b (c.blocks.size + 1)
  w.held.any (·.holds via) || c.heldBlocks.any via

/-- Takes the handle of an entry. -/
def takeEntryCancel (e : Ref .entry) : Live π σ (Cancel π) := do
  let cancel := ((← cells).entry e).cancel
  modifyEntry e fun c => { c with cancel := .done }
  return cancel

/-- Takes the handle of a segment. -/
def takeSegmentCancel (s : Ref .segment) : Live π σ (Cancel π) := do
  let cancel := ((← cells).segment s).cancel
  modifySegment s fun c => { c with cancel := .done }
  return cancel

def cancelEntries (E : Engine π σ) : List (Ref .entry) → Live π σ Unit
  | [] => pure ()
  | e :: es => do
    E.cancel (← takeEntryCancel e)
    cancelEntries E es

def cancelSegments (E : Engine π σ) : List (Ref .segment) → Live π σ Unit
  | [] => pure ()
  | s :: ss => do
    E.cancel (← takeSegmentCancel s)
    cancelSegments E ss

/-- The expressions that run for the elements of a view. -/
def Block.relations? : Block π → Option (Ref .relations)
  | .map _ r | .filter _ r _ | .quantifier _ r _ | .extreme _ r _ | .sorted _ r | .group _ r _ | .groupMap _ r _ _ =>
    some r
  | _ => none

/-- Finishes a view: what runs for its elements is cancelled in their order. -/
def finish (E : Engine π σ) (b : Ref .block) : Live π σ Unit := do
  match (← cells).block? b with
  | none => pure ()
  | some block =>
    modifyCells fun c => { c with blocks := c.blocks.modify b.index fun cell => { cell with finished := true } }
    match block with
    | .flatten _ segments => cancelSegments E segments
    | block =>
      match block.relations? with
      | some r =>
        let entries := ((← cells).relationsCell r).entries
        modifyRelations r fun c => { c with entries := [] }
        cancelEntries E entries
      | none => pure ()

/-- The owner of a view lets it go; it is finished now or when nothing in progress holds it any more. -/
def release (E : Engine π σ) (b : Ref .block) : Live π σ Unit := do
  if isHeld (← get) b then modifyCells fun c => { c with orphans := c.orphans ++ [b] }
  else finish E b

/-- Finishes the orphans that nothing holds any more. Finishing one may free others, so that as many rounds are made as
there are orphans. -/
def finishOrphans (E : Engine π σ) : Nat → Live π σ Unit
  | 0 => pure ()
  | rounds + 1 => do
    let w ← get
    match w.env.cells.orphans.find? fun b => !isHeld w b with
    | none => pure ()
    | some b =>
      modifyCells fun c => { c with orphans := c.orphans.filter (· != b) }
      finish E b
      finishOrphans E rounds

/-- What follows when something in progress lets views go. -/
def sweep (E : Engine π σ) : Live π σ Unit := do
  finishOrphans E (← cells).orphans.length

/-- Runs an update of a view while it holds the view. -/
def holdingBlock (E : Engine π σ) (b : Ref .block) (act : Live π σ Unit) : Live π σ Unit := do
  let base := (← cells).heldBlocks
  restoring (fun w => { w with env := { w.env with cells := { w.env.cells with heldBlocks := base } } }) do
    modifyCells fun c => { c with heldBlocks := b :: base }
    act
  sweep E

end LiveBindings
