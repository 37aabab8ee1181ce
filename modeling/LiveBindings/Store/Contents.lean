import LiveBindings.Json.Printer
import LiveBindings.Store.List
import LiveBindings.Store.Object
import LiveBindings.Text.Quoted

/-!
# What values hold

A `Contents` is what all containers hold at one moment. Over it a value has a text (what it is shown as, and its key in an
object), a diagnostic text and a JSON form. Containers that contain themselves have none of these; nesting beyond the
number of containers can only come from them and is cut off.
-/

namespace LiveBindings

/-- What the lists and objects hold at one moment, and how many there are. -/
structure Contents where
  items : ListId → List Value
  entries : ObjectId → List (String × Value)
  count : Nat

/-- What the containers of a world hold. -/
def World.contents {κ ε : Type} (w : World κ ε) : Contents where
  items l := (w.listCell l).items
  entries o := (w.objectCell o).entries
  count := w.lists.size + w.objects.size

/-- What the containers hold now. -/
def contents {κ ε : Type} : Run κ ε Contents := return (← get).contents

/-- The text of a number as a value: whole numbers below `10 ^ 15` in absolute value without a sign on zero. -/
def Number.valueText (n : Number) : String :=
  if n.isWhole && n.wholePart < Nat.pow 10 15 then
    (if n.negative && !n.isZero then "-" else "") ++ natText n.wholePart
  else n.text

namespace Contents

/-- The text of a value through at most `depth` lists inside each other: lists are the texts of their items with commas
between them. -/
def textWithin (c : Contents) : Nat → Value → String
  | _, .undefined => "undefined"
  | _, .null => "null"
  | _, .bool b => if b then "true" else "false"
  | _, .number n => n.valueText
  | _, .text s => s
  | 0, .list _ => ""
  | depth + 1, .list l => ",".intercalate ((c.items l).map (c.textWithin depth))
  | _, .object _ => "[object Object]"

/-- The text of a value. -/
def text (c : Contents) (v : Value) : String := c.textWithin (c.count + 1) v

/-- The diagnostic text of a value through at most `depth` containers inside each other. -/
def quotedWithin (c : Contents) : Nat → Value → String
  | _, .undefined => "undefined"
  | _, .null => "null"
  | _, .bool b => if b then "true" else "false"
  | _, .number n => n.text
  | _, .text s => Text.quoted s
  | 0, .list _ => ""
  | depth + 1, .list l => "[" ++ ", ".intercalate ((c.items l).map (c.quotedWithin depth)) ++ "]"
  | 0, .object _ => ""
  | depth + 1, .object o =>
    let entry (e : String × Value) : String := Text.quoted e.1 ++ ": " ++ c.quotedWithin depth e.2
    "\x7b" ++ ", ".intercalate ((c.entries o).map entry) ++ "\x7d"

/-- The diagnostic text of a value. -/
def quoted (c : Contents) (v : Value) : String := c.quotedWithin (c.count + 1) v

/-- The JSON form of a value through at most `depth` containers inside each other. What has no JSON form is null. -/
def jsonWithin (c : Contents) : Nat → Value → Json
  | _, .undefined | _, .null => .null
  | _, .bool b => .bool b
  | _, .number n => if n.isFinite then .number (.float n) else .null
  | _, .text s => .text s
  | 0, .list _ => .null
  | depth + 1, .list l => .array ((c.items l).map (c.jsonWithin depth))
  | 0, .object _ => .null
  | depth + 1, .object o => Json.ofMembers ((c.entries o).map fun e => (e.1, c.jsonWithin depth e.2))

/-- The JSON form of a value. -/
def toJson (c : Contents) (v : Value) : Json := c.jsonWithin (c.count + 1) v

/-- The key that a value stands for in an object: its text. -/
def key (c : Contents) (v : Value) : String := c.text v

end Contents

section

variable {κ ε : Type}

mutual

/-- Makes a value of fresh containers from JSON. The entries of an object are assigned one by one, which nobody is told
about but which counts as a change at the limit of nested dispatches. -/
def fromJson : Json → Run κ ε Value
  | .null => return .null
  | .bool b => return .bool b
  | .number n => return .number n.toNumber
  | .text s => return .text s
  | .array js => do
    let items ← fromJsonItems js
    return .list (← ListId.create items)
  | .object ms => do
    let entries ← fromJsonMembers ms
    if !entries.isEmpty then nested .object (pure ()) (pure ())
    return .object (← ObjectId.create entries)

def fromJsonItems : List Json → Run κ ε (List Value)
  | [] => return []
  | j :: js => do
    let v ← fromJson j
    let vs ← fromJsonItems js
    return v :: vs

def fromJsonMembers : List (String × Json) → Run κ ε (List (String × Value))
  | [] => return []
  | (k, j) :: ms => do
    let v ← fromJson j
    let vs ← fromJsonMembers ms
    return (k, v) :: vs

end

end

end LiveBindings
