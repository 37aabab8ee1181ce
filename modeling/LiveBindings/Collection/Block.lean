import LiveBindings.Collection.Relations

/-!
# Views of a collection

A view is told the whole content of a collection once (`Block.reset`) and then how it changes (`Block.splice`). It relies
on how many elements were removed, never on which. A view that evaluates an expression per element is also told when one
of the results changes (`Block.update`).
-/

namespace LiveBindings

variable {π σ : Type}

/-! ## Elements selected by a flag -/

/-- The elements with a true flag. -/
def keepTrue (items flags : List Value) : List Value :=
  ((items.zip flags).filter fun p => p.2.truthy).map (·.1)

/-- Changes the counts of a view that filters. -/
def setKept (b : Ref .block) (kept : KeptCounts) : Live π σ Unit :=
  modifyBlock b fun
    | .filter output r _ => .filter output r kept
    | block => block

/-- The counts of a view that filters. -/
def keptOf (b : Ref .block) : Live π σ KeptCounts := do
  match (← cells).block? b with
  | some (.filter _ _ kept) => return kept
  | _ => return {}

/-- Follows the flag of one element. -/
def flip (E : Engine π σ) (b : Ref .block) (output : ListId) (r : Ref .relations) (index : Nat) (was now : Bool) :
    Live π σ Unit := do
  if was = now then return ()
  let (kept, changed) := (← keptOf b).set index now
  if !changed then return ()
  setKept b kept
  let place := kept.before index
  if now then discard <| output.splice E.reactions place 0 [← Relations.input r index]
  else discard <| output.splice E.reactions place 1 []

/-! ## Values found over all elements -/

/-- Whether all results are true, or whether some are. -/
def publishQuantifier (E : Engine π σ) (all : Bool) (r : Ref .relations) (sink : Sink π) : Live π σ Unit := do
  let flags ← Relations.outputs r
  E.emit sink (.bool (if all then flags.all Value.truthy else flags.any Value.truthy))

/-- The first of the elements whose key is least, or greatest, in the order of values. -/
def extremeOf (greatest : Bool) : List (Value × Value) → Option (Value × Value)
  | [] => none
  | p :: ps =>
    some (ps.foldl (fun best q => if q.2.compare best.2 == (if greatest then .gt else .lt) then q else best) p)

def publishExtreme (E : Engine π σ) (greatest : Bool) (r : Ref .relations) (sink : Sink π) : Live π σ Unit := do
  let best := extremeOf greatest ((← Relations.inputs r).zip (← Relations.outputs r))
  E.emit sink ((best.map (·.1)).getD .undefined)

/-- The sum or mean of the numbers among values. -/
def Reduction.of (what : Reduction) (items : List Value) : Number :=
  let numbers := items.filterMap Value.asNumber
  match what with
  | .sum => Number.sum numbers
  | .mean => Number.mean numbers

def publishReduction (E : Engine π σ) (what : Reduction) (items : List Value) (sink : Sink π) : Live π σ Unit :=
  E.emit sink (.number (what.of items))

/-! ## Order -/

/-- Elements in the order of their keys; elements with equal keys keep their order. -/
def sortByKeys (inputs keys : List Value) : List Value :=
  ((inputs.zip keys).mergeSort fun a b => a.2.compare b.2 != .gt).map (·.1)

def resort (E : Engine π σ) (output : ListId) (r : Ref .relations) : Live π σ Unit := do
  output.reconcile E.reactions (sortByKeys (← Relations.inputs r) (← Relations.outputs r))

/-! ## Grouping -/

/-- Elements partitioned by key, the groups in the order of their first elements. -/
def partitionByKey : List (Value × Value) → List (Value × List Value)
  | ps => ps.foldl add []
where
  /-- Adds an element to the group of its key, or to a new one at the end. -/
  add (groups : List (Value × List Value)) (p : Value × Value) : List (Value × List Value) :=
    match groups with
    | [] => [(p.2, [p.1])]
    | g :: rest => if g.1.same p.2 then (g.1, g.2 ++ [p.1]) :: rest else g :: add rest p

/-- Changes the buckets of a view that groups. -/
def setBuckets (b : Ref .block) (buckets : List Bucket) : Live π σ Unit :=
  modifyBlock b fun
    | .group output r _ => .group output r buckets
    | .groupMap output r _ merged => .groupMap output r buckets merged
    | block => block

def setMerged (b : Ref .block) (merged : List (String × ListId)) : Live π σ Unit :=
  modifyBlock b fun
    | .groupMap output r buckets _ => .groupMap output r buckets merged
    | block => block

def bucketsOf (b : Ref .block) : Live π σ (List Bucket) := do
  match (← cells).block? b with
  | some (.group _ _ buckets) | some (.groupMap _ _ buckets _) => return buckets
  | _ => return []

def mergedOf (b : Ref .block) : Live π σ (List (String × ListId)) := do
  match (← cells).block? b with
  | some (.groupMap _ _ _ merged) => return merged
  | _ => return []

/-- A new bucket without elements. -/
def newBucket (key : Value) : Live π σ Bucket := do
  let members ← ListId.create []
  let pair ← ListId.create [key, .list members]
  return { key, members, pair }

/-- Fills the buckets of groups in order, each from the previous buckets if its key was among them. -/
def fillBuckets (E : Engine π σ) (previous : List Bucket) : List (Value × List Value) → Live π σ (List Bucket)
  | [] => return []
  | (key, members) :: groups => do
    let found := previous.find? (·.key.same key)
    let bucket ← match found with
      | some bucket => pure bucket
      | none => newBucket key
    bucket.members.reconcile E.reactions members
    let rest ← fillBuckets E (previous.filter fun b => !(found.any fun f => f.members = b.members)) groups
    return bucket :: rest

/-- The buckets by the text of their key, in the order of the first bucket of each. -/
def bucketsByName (c : Contents) (buckets : List Bucket) : List (String × List Bucket) :=
  buckets.foldl (fun named bucket =>
    let name := c.key bucket.key
    Fields.put name ((Fields.get? name named).getD [] ++ [bucket]) named) []

/-- The elements of several lists. -/
def concatItems : List ListId → Live π σ (List Value)
  | [] => return []
  | l :: ls => do
    let items ← l.items
    return items ++ (← concatItems ls)

/-- The list of every name: that of its only bucket, or one in which its buckets are merged. -/
def mergeBuckets (E : Engine π σ) (b : Ref .block) : List (String × List Bucket) → Live π σ (List (String × ListId))
  | [] => return []
  | (name, buckets) :: named => do
    let members ← match buckets with
      | [only] => pure only.members
      | _ => do
        let merged ← mergedOf b
        let members ← match Fields.get? name merged with
          | some members => pure members
          | none => do
            let members ← ListId.create []
            setMerged b (Fields.put name members merged)
            pure members
        members.reconcile E.reactions (← concatItems (buckets.map (·.members)))
        pure members
    return (name, members) :: (← mergeBuckets E b named)

/-- Deletes the keys of an object that are not among the names. -/
def deleteOthers (E : Engine π σ) (output : ObjectId) (names : List String) : List String → Live π σ Unit
  | [] => pure ()
  | key :: keys => do
    if !names.contains key then discard <| output.delete E.reactions key
    deleteOthers E output names keys

def assignLists (E : Engine π σ) (output : ObjectId) : List (String × ListId) → Live π σ Unit
  | [] => pure ()
  | (name, members) :: rest => do
    output.assign E.reactions name (.list members)
    assignLists E output rest

/-- Brings the object of a view that groups up to date with the buckets. Keys with the same text share an entry. -/
def publishGroupMap (E : Engine π σ) (b : Ref .block) (output : ObjectId) (buckets : List Bucket) :
    Live π σ Unit := do
  let named := bucketsByName (← contents) buckets
  setMerged b ((← mergedOf b).filter fun m => ((Fields.get? m.1 named).getD []).length > 1)
  let lists ← mergeBuckets E b named
  deleteOthers E output (named.map (·.1)) ((← output.entries).map (·.1))
  assignLists E output lists

/-- Groups the elements anew. While this is in progress the view has no buckets. -/
def regroup (E : Engine π σ) (b : Ref .block) (r : Ref .relations) (publish : List Bucket → Live π σ Unit) :
    Live π σ Unit := do
  let groups := partitionByKey ((← Relations.inputs r).zip (← Relations.outputs r))
  let previous ← bucketsOf b
  setBuckets b []
  let buckets ← fillBuckets E previous groups
  publish buckets
  setBuckets b buckets

def regroupList (E : Engine π σ) (b : Ref .block) (output : ListId) (r : Ref .relations) : Live π σ Unit :=
  regroup E b r fun buckets => output.reconcile E.reactions (buckets.map fun bucket => .list bucket.pair)

def regroupMap (E : Engine π σ) (b : Ref .block) (output : ObjectId) (r : Ref .relations) : Live π σ Unit :=
  regroup E b r (publishGroupMap E b output)

/-! ## Moved elements -/

/-- Pairs of an index and an element, from an index on. -/
def enumeratePairs : Nat → List Value → Live π σ (List Value)
  | _, [] => return []
  | index, v :: vs => do
    let pair ← ListId.create [Value.ofNat index, v]
    let pairs ← enumeratePairs (index + 1) vs
    return .list pair :: pairs

/-- Sets the index of `count` pairs from a position on. -/
def renumberPairs (E : Engine π σ) (output : ListId) : (count position : Nat) → Live π σ Unit
  | 0, _ => pure ()
  | count + 1, position => do
    if let .list pair ← output.get position then pair.assign E.reactions 0 (Value.ofNat position)
    renumberPairs E output count (position + 1)

/-- The elements of a value. -/
def elementsOf : Value → Live π σ (List Value)
  | .list l => l.items
  | _ => return []

def allElements : List Value → Live π σ (List Value)
  | [] => return []
  | v :: vs => do
    let items ← elementsOf v
    return items ++ (← allElements vs)

def setSegments (b : Ref .block) (segments : List (Ref .segment)) : Live π σ Unit :=
  modifyBlock b fun
    | .flatten output _ => .flatten output segments
    | block => block

def segmentsOf (b : Ref .block) : Live π σ (List (Ref .segment)) := do
  match (← cells).block? b with
  | some (.flatten _ segments) => return segments
  | _ => return []

/-- The number of items that segments contribute. -/
def segmentsLength (c : Cells π) (segments : List (Ref .segment)) : Nat :=
  segments.foldr (fun s n => (c.segment s).length + n) 0

/-- Watches the inner list of an element. -/
def watchSegment (b : Ref .block) (index : Nat) (value : Value) : Live π σ (Ref .segment) := do
  let s ← newSegment { index, length := (← elementsOf value).length }
  if let .list inner := value then
    let id ← inner.listen .content (.segment b s inner)
    modifySegment s fun c => { c with cancel := .unlistenList inner .content id }
  return s

def watchSegments (b : Ref .block) : Nat → List Value → Live π σ (List (Ref .segment))
  | _, [] => return []
  | index, v :: vs => do
    let s ← watchSegment b index v
    let ss ← watchSegments b (index + 1) vs
    return s :: ss

def numberSegments : Nat → List (Ref .segment) → Live π σ Unit
  | _, [] => pure ()
  | index, s :: ss => do
    modifySegment s fun c => { c with index }
    numberSegments (index + 1) ss

def spliceFlatten (E : Engine π σ) (b : Ref .block) (output : ListId) (index removed : Nat) (plus : List Value) :
    Live π σ Unit := do
  let segments ← segmentsOf b
  let start := min index segments.length
  let stop := min (start + removed) segments.length
  let offset := segmentsLength (← cells) (segments.take start)
  let stale := (segments.take stop).drop start
  setSegments b (segments.take start ++ segments.drop stop)
  let staleLength := segmentsLength (← cells) stale
  cancelSegments E stale
  let fresh ← watchSegments b index plus
  let segments ← segmentsOf b
  let start := min index segments.length
  let segments := segments.take start ++ fresh ++ segments.drop start
  setSegments b segments
  numberSegments start (segments.drop start)
  discard <| output.splice E.reactions offset staleLength (← allElements plus)

/-- Brings the items of one segment up to date with its inner list. -/
def refillSegment (E : Engine π σ) (b : Ref .block) (output : ListId) (s : Ref .segment) (next : List Value) :
    Live π σ Unit := do
  let c ← cells
  let segment := c.segment s
  let offset := segmentsLength c ((← segmentsOf b).take segment.index)
  modifySegment s fun c => { c with length := next.length }
  output.replaceSpan E.reactions offset segment.length next

/-! ## Windows -/

/-- The part of the items that a window shows. -/
def windowOf (items : List Value) (start length : Nat) : List Value :=
  (items.take (start + length)).drop start

def refreshWindow (E : Engine π σ) (b : Ref .block) : Live π σ Unit := do
  if let some (.window output items start length) := (← cells).block? b then
    output.reconcile E.reactions (windowOf items start length)

/-- Moves a window. -/
def setBounds (E : Engine π σ) (b : Ref .block) (start length : Nat) : Live π σ Unit := do
  modifyBlock b fun
    | .window output items _ _ => .window output items start length
    | block => block
  refreshWindow E b

/-- The items with a run replaced, cut off at their number. -/
def replaceCut (items : List Value) (index removed : Nat) (plus : List Value) : List Value :=
  let start := min index items.length
  let stop := min (start + removed) items.length
  replaceRun items start (stop - start) plus

def spliceWindow (E : Engine π σ) (b : Ref .block) (output : ListId) (items : List Value) (start length : Nat)
    (index removed : Nat) (plus : List Value) : Live π σ Unit := do
  modifyBlock b fun _ => .window output (replaceCut items index removed plus) start length
  if start + length ≤ index then return ()
  if removed = plus.length && start ≤ index then
    -- the change moves nothing and begins inside the window
    let offset := index - start
    let span := min removed (length - offset)
    output.replaceSpan E.reactions offset span (plus.take span)
  else refreshWindow E b

/-! ## The three events of a view -/

namespace Block

/-- Starts over with the whole content of a collection. -/
def reset (E : Engine π σ) (b : Ref .block) (items : List Value) : Live π σ Unit := do
  match (← cells).block? b with
  | none => return ()
  | some (.map output r) =>
    let results ← Relations.reset E r items
    output.reconcile E.reactions results
  | some (.filter output r _) =>
    let flags ← Relations.reset E r items
    setKept b (KeptCounts.ofFlags (flags.map Value.truthy))
    output.reconcile E.reactions (keepTrue items flags)
  | some (.quantifier all r sink) =>
    discard <| Relations.reset E r items
    publishQuantifier E all r sink
  | some (.extreme greatest r sink) =>
    discard <| Relations.reset E r items
    publishExtreme E greatest r sink
  | some (.sorted output r) =>
    discard <| Relations.reset E r items
    resort E output r
  | some (.group output r _) =>
    discard <| Relations.reset E r items
    regroupList E b output r
  | some (.groupMap output r _ _) =>
    discard <| Relations.reset E r items
    regroupMap E b output r
  | some (.enumerate output) =>
    let n ← output.length
    discard <| output.splice E.reactions 0 n (← enumeratePairs 0 items)
  | some (.reversed output) => output.reconcile E.reactions items.reverse
  | some (.flatten output segments) => spliceFlatten E b output 0 segments.length items
  | some (.window output _ start length) =>
    modifyBlock b fun _ => .window output items start length
    refreshWindow E b
  | some (.reduce what _ sink) =>
    modifyBlock b fun _ => .reduce what items sink
    publishReduction E what items sink

/-- Follows a replacement of `removed` elements at an index. -/
def splice (E : Engine π σ) (b : Ref .block) (index removed : Nat) (plus : List Value) : Live π σ Unit := do
  match (← cells).block? b with
  | none => return ()
  | some (.map output r) =>
    let results ← Relations.splice E r index removed plus
    discard <| output.splice E.reactions index removed results
  | some (.filter output r kept) =>
    let place := kept.before index
    let dropped := kept.before (index + removed) - place
    let flags ← Relations.splice E r index removed plus
    setKept b ((← keptOf b).replace index removed (flags.map Value.truthy))
    discard <| output.splice E.reactions place dropped (keepTrue plus flags)
  | some (.quantifier all r sink) =>
    discard <| Relations.splice E r index removed plus
    publishQuantifier E all r sink
  | some (.extreme greatest r sink) =>
    discard <| Relations.splice E r index removed plus
    publishExtreme E greatest r sink
  | some (.sorted output r) =>
    discard <| Relations.splice E r index removed plus
    resort E output r
  | some (.group output r _) =>
    discard <| Relations.splice E r index removed plus
    regroupList E b output r
  | some (.groupMap output r _ _) =>
    discard <| Relations.splice E r index removed plus
    regroupMap E b output r
  | some (.enumerate output) =>
    discard <| output.splice E.reactions index removed (← enumeratePairs index plus)
    if removed ≠ plus.length then
      let first := index + plus.length
      renumberPairs E output ((← output.length) - first) first
  | some (.reversed output) =>
    let n ← output.length
    discard <| output.splice E.reactions (n - (index + removed)) removed plus.reverse
  | some (.flatten output _) => spliceFlatten E b output index removed plus
  | some (.window output items start length) => spliceWindow E b output items start length index removed plus
  | some (.reduce what items sink) =>
    let items := replaceCut items index removed plus
    modifyBlock b fun _ => .reduce what items sink
    publishReduction E what items sink

/-- Follows the result of one element. A view that nothing holds any more does not. -/
def update (E : Engine π σ) (b : Ref .block) (index : Nat) (old new : Value) : Live π σ Unit := do
  match (← cells).block? b with
  | none => return ()
  | some block =>
    holdingBlock E b do
      match block with
      | .map output _ => output.assign E.reactions index new
      | .filter output r _ => flip E b output r index old.truthy new.truthy
      | .quantifier all r sink => publishQuantifier E all r sink
      | .extreme greatest r sink => publishExtreme E greatest r sink
      | .sorted output r => resort E output r
      | .group output r _ => regroupList E b output r
      | .groupMap output r _ _ => regroupMap E b output r
      | _ => return ()

/-- Follows a change of the inner list of one segment. -/
def refill (E : Engine π σ) (b : Ref .block) (s : Ref .segment) (inner : ListId) : Live π σ Unit := do
  match (← cells).block? b with
  | some (.flatten output _) => holdingBlock E b do refillSegment E b output s (← inner.items)
  | _ => return ()

end Block

end LiveBindings
