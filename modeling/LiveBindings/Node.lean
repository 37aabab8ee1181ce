import LiveBindings.Fields
import LiveBindings.Json

/-!
# Expression trees

An expression arrives as a tree of nodes. A node has a kind and, where its kind asks for one, a literal value, the id of
an element or the label of a component. Its children are either a sequence or a set of named fields in the order in
which they were written.
-/

namespace LiveBindings

/-- What a node says apart from its children. -/
structure Head where
  kind : String
  value : Option Json := none
  id : Option String := none
  label : Option String := none

/-- A node of an expression tree. -/
inductive Node
  /-- A node with no children given. -/
  | leaf (head : Head)
  /-- A node with a sequence of children. -/
  | call (head : Head) (args : List Node)
  /-- A node with named children; no name occurs twice. -/
  | fields (head : Head) (fields : List (String × Node))

namespace Node

instance : Inhabited Node := ⟨.leaf ⟨"value", none, none, none⟩⟩

def head : Node → Head
  | leaf h => h
  | call h _ => h
  | fields h _ => h

/-- The kind decides what a node means. -/
def kind (n : Node) : String := n.head.kind

/-- The sequence of children; none when they are named. -/
def positional : Node → List Node
  | call _ args => args
  | _ => []

/-- The named children, if they are named. -/
def named : Node → Option (List (String × Node))
  | fields _ fs => some fs
  | _ => none

/-! ## Building -/

def ofKind (kind : String) : Node := leaf { kind }

def literal (value : Json) : Node := leaf { kind := "literal", value := some value }

/-- The value that is in scope. -/
def value : Node := ofKind "value"

/-- The parameters that are in scope. -/
def parameters : Node := ofKind "parameters"

def element (id : String) : Node := leaf { kind := "element", id := some id }

def component (label : String) : Node := leaf { kind := "component", label := some label }

def apply (kind : String) (args : List Node) : Node := call { kind } args

/-- A record with the given fields; a repeated name keeps its first place and takes its last content. -/
def record (fs : List (String × Node)) : Node :=
  fields { kind := "record" } (Fields.ofList fs)

/-- The property of an object under a fixed key. -/
def property (object : Node) (key : String) : Node := apply "property" [object, literal (.text key)]

/-- The segments of a dotted path; empty ones are dropped. -/
def segments (path : String) : List String :=
  ((path.toList.splitBy (fun a b => a != '.' && b != '.')).filter (fun s => s.head? != some '.')).map String.ofList

/-- The property reached from the value in scope by a dotted path. -/
def path (path : String) : Node := (segments path).foldl property value

/-! ## Equality -/

/-- Equality of optional literal values. -/
def equalValue : Option Json → Option Json → Bool
  | none, none => true
  | some a, some b => a.equal b
  | _, _ => false

def equalHead (a b : Head) : Bool :=
  a.kind == b.kind && equalValue a.value b.value && a.id == b.id && a.label == b.label

mutual

/-- Equality of trees. Named children are equal when they have the same names with equal content, in whatever order. -/
def equal : Node → Node → Bool
  | leaf a, leaf b => equalHead a b
  | call a as, call b bs => equalHead a b && equalArgs as bs
  | fields a fs, fields b gs => equalHead a b && fs.length == gs.length && equalFields fs gs
  | _, _ => false

def equalArgs : List Node → List Node → Bool
  | [], [] => true
  | a :: as, b :: bs => equal a b && equalArgs as bs
  | _, _ => false

/-- Whether every field occurs among the others with equal content. -/
def equalFields : List (String × Node) → List (String × Node) → Bool
  | [], _ => true
  | (name, a) :: fs, gs =>
    (match gs.find? (·.1 == name) with
      | some g => equal a g.2
      | none => false) && equalFields fs gs

end

end Node

end LiveBindings
