import LiveBindings.Expr

/-!
# Constructs

The closed set of node kinds that are neither primitive nor operators, with their names and numbers of arguments. The
primitive kinds are listed here as well, so that both kinds of names are at hand where a node is looked up.
-/

namespace LiveBindings

/-- The node kinds that do not evaluate a sequence of arguments. -/
inductive Primitive
  | literal
  | value
  | parameters
  | element
  | component
  | record
deriving DecidableEq

namespace Primitive

def all : List Primitive := [literal, value, parameters, element, component, record]

def name : Primitive → String
  | literal => "literal"
  | value => "value"
  | parameters => "parameters"
  | element => "element"
  | component => "component"
  | record => "record"

/-- The primitive of a name. -/
def named? (name : String) : Option Primitive := all.find? (·.name == name)

end Primitive

/-- The node kinds with a meaning of their own for their arguments. -/
inductive Construct
  | property
  | get
  | within
  | choice
  | rangeContent
  | mapContent
  | keys
  | values
  | items
  | mapBlock
  | filterBlock
  | everyBlock
  | someBlock
  | sortedBlock
  | groupBlock
  | groupMapBlock
  | minBlock
  | maxBlock
  | enumerate
  | reversed
  | flatten
  | view
  | sum
  | average
  | has
  | tuple
  | range
deriving DecidableEq

namespace Construct

def all : List Construct := [
  property, get, within, choice, rangeContent, mapContent, keys, values, items, mapBlock, filterBlock, everyBlock,
  someBlock, sortedBlock, groupBlock, groupMapBlock, minBlock, maxBlock, enumerate, reversed, flatten, view, sum, average,
  has, tuple, range]

def name : Construct → String
  | property => "property"
  | get => "get"
  | within => "with"
  | choice => "if"
  | rangeContent => "rangeContent"
  | mapContent => "mapContent"
  | keys => "keys"
  | values => "values"
  | items => "items"
  | mapBlock => "mapBlock"
  | filterBlock => "filterBlock"
  | everyBlock => "everyBlock"
  | someBlock => "someBlock"
  | sortedBlock => "sortedBlock"
  | groupBlock => "groupBlock"
  | groupMapBlock => "groupMapBlock"
  | minBlock => "minBlock"
  | maxBlock => "maxBlock"
  | enumerate => "enumerate"
  | reversed => "reversed"
  | flatten => "flatten"
  | view => "view"
  | sum => "sum"
  | average => "average"
  | has => "has"
  | tuple => "tuple"
  | range => "range"

/-- The construct of a name. -/
def named? (name : String) : Option Construct := all.find? (·.name == name)

/-- The number of arguments; a tuple takes any. -/
def arity : Construct → Option Nat
  | tuple => none
  | rangeContent | mapContent | keys | values | items | enumerate | reversed | flatten | sum | average | range => some 1
  | choice | view => some 3
  | property | get | within | mapBlock | filterBlock | everyBlock | someBlock | sortedBlock | groupBlock | groupMapBlock
  | minBlock | maxBlock | has => some 2

/-- The expression of a construct; missing arguments are `undefined`. -/
def build (c : Construct) (args : List Expr) : Expr :=
  let arg (i : Nat) : Expr := args.getD i (.literal .undefined)
  match c with
  | property | get => .property (arg 0) (arg 1)
  | within => .within (arg 0) (arg 1)
  | choice => .choice (arg 0) (arg 1) (arg 2)
  | rangeContent | mapContent => arg 0
  | keys => .project .keys (arg 0)
  | values => .project .values (arg 0)
  | items => .project .items (arg 0)
  | mapBlock => .perElement .map (arg 0) (arg 1)
  | filterBlock => .perElement .filter (arg 0) (arg 1)
  | everyBlock => .perElement .every (arg 0) (arg 1)
  | someBlock => .perElement .some (arg 0) (arg 1)
  | sortedBlock => .perElement .sorted (arg 0) (arg 1)
  | groupBlock => .perElement .group (arg 0) (arg 1)
  | groupMapBlock => .perElement .groupMap (arg 0) (arg 1)
  | minBlock => .perElement .least (arg 0) (arg 1)
  | maxBlock => .perElement .greatest (arg 0) (arg 1)
  | enumerate => .rearrange .enumerate (arg 0)
  | reversed => .rearrange .reversed (arg 0)
  | flatten => .rearrange .flatten (arg 0)
  | view => .window (arg 0) (arg 1) (arg 2)
  | sum => .reduce .sum (arg 0)
  | average => .reduce .mean (arg 0)
  | has => .membership (arg 0) (arg 1)
  | tuple => .tuple args
  | range => .range (arg 0)

end Construct

end LiveBindings
