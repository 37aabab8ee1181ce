import LiveBindings.Node
import LiveBindings.Json.Document
import LiveBindings.Json.Printer

/-!
# Expression trees on the wire

A node is written as a JSON object with the members `type`, `value`, `id`, `label` and `args`, in this order and without
those that are absent; `args` is an array of nodes or an object of named nodes. Reading is more lenient than writing: a
node may also be an array of these five in order, `null` stands for an absent member, and unknown members are skipped.
A member that occurs twice is refused.
-/

namespace LiveBindings

namespace Node

/-! ## Writing -/

/-- The members of a node before its children, the braces left open. -/
def renderHead (h : Head) : List Char :=
  "\x7b\"type\":".toList ++ Json.renderText h.kind
    ++ (match h.value with | some v => ",\"value\":".toList ++ v.render | none => [])
    ++ (match h.id with | some s => ",\"id\":".toList ++ Json.renderText s | none => [])
    ++ (match h.label with | some s => ",\"label\":".toList ++ Json.renderText s | none => [])

mutual

/-- The compact text of a node. -/
def render : Node → List Char
  | leaf h => renderHead h ++ ['}']
  | call h [] => renderHead h ++ (",\"args\":[]".toList ++ ['}'])
  | call h (n :: ns) => renderHead h ++ (",\"args\":[".toList ++ (render n ++ (renderArgs ns ++ ['}'])))
  | fields h [] => renderHead h ++ (",\"args\":".toList ++ ['{', '}', '}'])
  | fields h ((name, n) :: fs) =>
    renderHead h ++ (",\"args\":".toList ++
      ('{' :: (Json.renderText name ++ ':' :: (render n ++ (renderFields fs ++ ['}'])))))

/-- The children after the first, and the closing bracket. -/
def renderArgs : List Node → List Char
  | [] => [']']
  | n :: ns => ',' :: (render n ++ renderArgs ns)

/-- The named children after the first, and the closing brace. -/
def renderFields : List (String × Node) → List Char
  | [] => ['}']
  | (name, n) :: fs => ',' :: (Json.renderText name ++ ':' :: (render n ++ renderFields fs))

end

/-- The compact text of a node. -/
def text (n : Node) : String := String.ofList n.render

/-! ## Reading -/

/-- The members of a node as they were written. -/
structure Members where
  type : Document
  value : Document
  id : Document
  label : Document
  args : Document

/-- The content of a member, `null` when it is absent; refused when it occurs twice. -/
def member? (name : String) (ms : List (Option String × Document)) : Option Document :=
  match ms.filter (·.1 == some name) with
  | [] => some .null
  | [m] => some m.2
  | _ => none

/-- The members of a node written as an object, or as an array of up to five in order. -/
def members? : Document → Option Members
  | .object ms =>
    if ms.all (·.1.isSome) then do
      some ⟨← member? "type" ms, ← member? "value" ms, ← member? "id" ms, ← member? "label" ms, ← member? "args" ms⟩
    else none
  | .array ds =>
    if ds.length ≤ 5 then
      some ⟨ds.getD 0 .null, ds.getD 1 .null, ds.getD 2 .null, ds.getD 3 .null, ds.getD 4 .null⟩
    else none
  | _ => none

/-- A text that must be there. -/
def readText? : Document → Option String
  | .text s => s
  | _ => none

/-- A text that may be absent. -/
def readOptional? : Document → Option (Option String)
  | .null => some none
  | .text (some s) => some (some s)
  | _ => none

/-- A literal value that may be absent, nested at most `nesting` deep. -/
def readValue? (nesting : Nat) : Document → Option (Option Json)
  | .null => some none
  | d => (d.toJson? nesting).map some

/-- A node of a document. The children of the node were judged before; `fuel` bounds the nesting of nodes. -/
def build? : Nat → Document → Option Node
  | 0, _ => none
  | fuel + 1, d => do
    let m ← members? d
    let kind ← readText? m.type
    let value ← readValue? Document.maxNesting m.value
    let id ← readOptional? m.id
    let label ← readOptional? m.label
    let head : Head := { kind, value, id, label }
    match m.args with
    | .null => some (leaf head)
    | .array ds => (ds.mapM (build? fuel)).map (call head)
    | .object ms =>
      let fs ← ms.mapM fun f => do some ((← f.1), (← build? fuel f.2))
      some (fields head (Fields.ofList fs))
    | _ => none

/-- Whether all that a node keeps makes sense when it is nested at most `nesting` deep; members that it skips may hold
anything. -/
def judged (nesting : Nat) (d : Document) : Bool :=
  match nesting, members? d with
  | inner + 1, some m =>
    [m.value, m.id, m.label, m.args].all fun d => (d.toJson? inner).isSome
  | _, _ => false

/-- The node that a document nested at most `nesting` deep describes. -/
def ofDocument? (nesting : Nat) (d : Document) : Option Node :=
  if judged nesting d then build? nesting d else none

/-- Reads a node from the whole of a text. -/
def read? (s : String) : Option Node := (Document.read? s.toList).bind (ofDocument? Document.maxNesting)

end Node

end LiveBindings
