import LiveBindings.Construct
import LiveBindings.Node

/-!
# Compiling trees

A node is looked up by its kind: first among the primitives, then among the constructs, then in the operator table. What
is found decides what the node needs; `compile` stops at the first node, in pre-order from the left, that lacks it. As a
target only properties, memberships, comparisons, contexts and operators with an inverse make sense.

Literals become values when they are compiled, so that all uses of a compiled literal share its containers. That is why
compiling is a computation on a world.
-/

namespace LiveBindings

/-- Why a tree does not compile. -/
inductive CompileError
  /-- The kind of the node is not known. -/
  | unknownNode (node : Node)
  | arity (kind : String) (expected found : Nat)
  | missingField (kind field : String)

/-- Why a binding cannot be made. -/
inductive BindError
  | compile (e : CompileError)
  /-- The target cannot be written to. -/
  | nonInvertible (kind : String)
  /-- The value cannot be observed, under the key if there is one. -/
  | unobservable (kind : Kind) (key : Option String)

def CompileError.message : CompileError → String
  | unknownNode node => "unknown syntax node type \x60" ++ node.kind ++ "\x60"
  | arity kind expected found =>
    "\x60" ++ kind ++ "\x60 expects " ++ Number.natText expected ++ " argument(s), found " ++ Number.natText found
  | missingField kind field => "\x60" ++ kind ++ "\x60 node is missing its \x60" ++ field ++ "\x60"

def BindError.message : BindError → String
  | compile e => e.message
  | nonInvertible kind => "cannot bind through non-invertible \x60" ++ kind ++ "\x60 expression"
  | unobservable kind none => "cannot observe " ++ kind.name ++ " value"
  | unobservable kind (some key) => "cannot observe property \x60" ++ key ++ "\x60 of " ++ kind.name ++ " value"

/-- What the kind of a node stands for. -/
inductive Meaning
  | primitive (p : Primitive)
  | construct (c : Construct)
  | operator (op : Operator)
  | unknown

/-- Looks up a kind: primitives come before constructs, and these before the operators of the table. -/
def OperatorTable.meaning (t : OperatorTable) (kind : String) : Meaning :=
  match Primitive.named? kind with
  | some p => .primitive p
  | none =>
    match Construct.named? kind with
    | some c => .construct c
    | none =>
      match t.get? kind with
      | some op => .operator op
      | none => .unknown

variable {κ ε : Type}

/-- Compiling an expression: the reason why it fails leaves the world as it is by then. -/
abbrev Compiling (κ ε : Type) := ExceptT CompileError (Run κ ε)

/-- The expression of a node, given how to compile its sequence of arguments and, if they are named, its fields. -/
def assemble (t : OperatorTable) (node : Node) (args : Compiling κ ε (List Expr))
    (fields : Option (Compiling κ ε (List (String × Expr)))) : Compiling κ ε Expr :=
  let missing (field : String) : Compiling κ ε Expr := throw (.missingField node.kind field)
  match t.meaning node.kind with
  | .primitive .literal =>
    match node.head.value with
    | some j => return .literal (← ExceptT.lift (fromJson j))
    | none => return .literal .undefined
  | .primitive .value => return .value
  | .primitive .parameters => return .parameters
  | .primitive .element =>
    match node.head.id with
    | some id => return .element id
    | none => missing "id"
  | .primitive .component =>
    match node.head.label with
    | some label => return .component label
    | none => missing "label"
  | .primitive .record =>
    match fields with
    | some fields => return .record (← fields)
    | none => missing "args"
  | .construct c => do
    if let some expected := c.arity then
      if node.positional.length ≠ expected then
        throw (.arity node.kind expected node.positional.length)
    return c.build (← args)
  | .operator op => return .operator op.apply (← args)
  | .unknown => throw (.unknownNode node)

mutual

/-- Compiles a tree into an expression. -/
def compile (t : OperatorTable) : Node → Compiling κ ε Expr
  | .leaf h => assemble t (.leaf h) (return []) none
  | .call h ns => assemble t (.call h ns) (compileAll t ns) none
  | .fields h fs => assemble t (.fields h fs) (return []) (some (compileFields t fs))

def compileAll (t : OperatorTable) : List Node → Compiling κ ε (List Expr)
  | [] => return []
  | n :: ns => do
    let x ← compile t n
    let xs ← compileAll t ns
    return x :: xs

def compileFields (t : OperatorTable) : List (String × Node) → Compiling κ ε (List (String × Expr))
  | [] => return []
  | (name, n) :: fs => do
    let x ← compile t n
    let xs ← compileFields t fs
    return (name, x) :: xs

end

/-- Compiling a target. -/
abbrev Binding (κ ε : Type) := ExceptT BindError (Run κ ε)

/-- Compiles a part of a target that is only observed. -/
def observed {α : Type} (c : Compiling κ ε α) : Binding κ ε α := ExceptT.adapt .compile c

/-- The reason why a node has the wrong number of arguments. -/
def wrongCount {α : Type} (node : Node) (expected : Nat) : Binding κ ε α :=
  throw (.compile (.arity node.kind expected node.positional.length))

/-- How a node can be written to. -/
inductive WriteForm
  | property
  | membership
  | equals
  | within
  | inverse (f : Value → Value)
  /-- The kind is known but cannot be written to. -/
  | never
  | unknown

/-- Looks up how a kind can be written to. The four fixed forms come before the operators with an inverse; a primitive
can never be written to. -/
def OperatorTable.writeForm (t : OperatorTable) (kind : String) : WriteForm :=
  if kind = Construct.property.name || kind = Construct.get.name then .property
  else if kind = Construct.has.name then .membership
  else if kind = "equals" then .equals
  else if kind = Construct.within.name then .within
  else match (t.get? kind).bind (·.inverse) with
    | some f => .inverse f
    | none =>
      match t.meaning kind with
      | .unknown => .unknown
      | _ => .never

/-- Compiles a tree into a target. -/
def compileTarget (t : OperatorTable) : Node → Binding κ ε Target
  | .call h [a] =>
    match t.writeForm h.kind with
    | .inverse f => return .inverse f (← compileTarget t a)
    | .never => throw (.nonInvertible h.kind)
    | .unknown => throw (.compile (.unknownNode (.call h [a])))
    | _ => wrongCount (.call h [a]) 2
  | .call h [a, b] =>
    match t.writeForm h.kind with
    | .property => return .property (← observed (compile t a)) (← observed (compile t b))
    | .membership => return .membership (← observed (compile t a)) (← observed (compile t b))
    | .equals => return .equals (← compileTarget t a) (← observed (compile t b))
    | .within => return .within (← observed (compile t a)) (← compileTarget t b)
    | .inverse _ => wrongCount (.call h [a, b]) 1
    | .never => throw (.nonInvertible h.kind)
    | .unknown => throw (.compile (.unknownNode (.call h [a, b])))
  | n =>
    match t.writeForm n.kind with
    | .inverse _ => wrongCount n 1
    | .never => throw (.nonInvertible n.kind)
    | .unknown => throw (.compile (.unknownNode n))
    | _ => wrongCount n 2

end LiveBindings
