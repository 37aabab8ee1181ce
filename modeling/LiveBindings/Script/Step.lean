import LiveBindings.Json.Document

/-!
# Steps of a script

A script drives the engine from outside: it binds variables, changes containers, registers listeners, starts observers and
defines bindings, all under names. What a listener or observer does when it is called is again a list of steps, done a
limited number of times. Expressions and descriptors are kept as they were written, because a step that holds a malformed
one fails only when it is run.
-/

namespace LiveBindings.Script

/-- A value as a script writes it. Lists and objects are made anew each time the operand is evaluated. -/
inductive Operand
  | undefined
  | null
  | bool (b : Bool)
  | number (n : Number)
  | text (s : String)
  | list (items : List Operand)
  | object (entries : List (String × Operand))
  | variable (name : String)
  /-- The last value emitted by the observer of a name. -/
  | emitted (observer : String)
  | item (list : Operand) (index : Nat)
  | entry (object : Operand) (key : String)

instance : Inhabited Operand := ⟨.undefined⟩

/-- What a listener listens to. The last three also take values that may not be observable. -/
inductive ListenerKind
  | beforeContent
  | content
  | beforeEach
  | each
  | beforeLength
  | length
  | beforeProperty
  | property
  | entries
  | anyProperty
  | anyBeforeProperty
  | anyContent
deriving DecidableEq

/-- An order to sort by. -/
inductive SortOrder
  | descending
  /-- By the number of characters of the text. -/
  | textLength
  /-- All values are equal. -/
  | equal
deriving DecidableEq

/-- A step on a list. -/
inductive ListStep
  | splice (index remove : Nat) (values : List Operand)
  | push (values : List Operand)
  | pop
  | shift
  | unshift (values : List Operand)
  | assign (index : Nat) (value : Operand)
  | delete (value : Operand)
  | wipe
  | replaceAll (values : List Operand)
  | reverse
  | sort
  | sortBy (order : SortOrder)
  | slice (start stop : Nat)
  | get (index : Nat)
  | contains (value : Operand)
  | indexOf (value : Operand)
  | info

/-- A step on an object. -/
inductive ObjectStep
  | assign (key : String) (value : Operand)
  | delete (key : String)
  | get (key : String)
  | has (key : String)
  | info
  | listeners (key : String)

/-- What an expression is evaluated in. -/
structure Context where
  value : Option Operand := none
  parameters : Option Operand := none
  elements : Option Operand := none
  components : Option Operand := none

/-- The operators at hand: the standard ones or none, and standard ones under further names. -/
structure Operators where
  empty : Bool := false
  aliases : List (String × String) := []

/-- The expression that an observer runs, as it is written. -/
inductive Written
  | tree (d : Document)
  /-- A construct over arguments whose number is not checked. -/
  | construct (name : String) (args : List Document)

/-- How an observer is made: what it runs, where, and what its values pass through on their way out. -/
structure Observation where
  source : Written
  operators : Operators := {}
  context : Context := {}
  mapped : Option String := none
  distinct : Bool := false

/-- A descriptor as it is written. -/
inductive WrittenDescriptor
  | arrow (d : Document)
  | compute (operator : String) (args : List Document)

/-- A step of a script. -/
inductive Step
  /-- Binds a variable. -/
  | bind (name : String) (v : Operand)
  | show (v : Operand)
  | onList (list : Operand) (s : ListStep)
  | onObject (object : Operand) (s : ObjectStep)
  /-- Registers a listener, which runs the steps at most `times` times. -/
  | listen (name : String) (kind : ListenerKind) (on : Operand) (key : String) (steps : List Step) (times : Nat)
  /-- Removes a listener, by default from where it was registered. -/
  | unlisten (name : String) (kind : Option ListenerKind) (on : Option Operand) (key : Option String)
  /-- Repeats every content change of a list in another one. -/
  | follow (on other : Operand) (guarded : Bool)
  | configure (text : String)
  /-- Starts an observer, which runs the steps at most `times` times. -/
  | observe (name : String) (what : Observation) (steps : List Step) (times : Nat)
  | cancel (name : String)
  | join (name : String) (names : List String)
  /-- Makes a handle that runs the steps when it is cancelled. -/
  | teardown (name : String) (steps : List Step) (times : Nat)
  /-- Makes a handle with nothing to take down. -/
  | idle (name : String)
  | quoteHandle (name : String)
  | quoteScope (context : Context)
  | newSlot (name : String)
  /-- Starts a child in a slot: the steps `starting` are run while it starts and `steps` when it is cancelled. -/
  | restartSlot (name child : String) (starting steps : List Step) (times : Nat)
  | cancelSlot (name : String)
  /-- Makes a handle that closes a slot. -/
  | slotHandle (name handle : String)
  | newBindings (name : String) (on : Operand) (context : Option Context) (parameters : Option Operand)
      (operators : Option Operators)
  | createBindings (name : String) (on : Operand) (defs : List (String × WrittenDescriptor))
  | define (name : String) (target : Document) (descriptor : WrittenDescriptor)
  | defineAll (name : String) (defs : List (String × WrittenDescriptor))
  | cancelBindings (name : String)
  | dropBindings (name : String)
  | bindingsInfo (name : String)
  | quoteBindings (name : String)

/-- A script: variables bound in order before anything else, steps, and values to show after every step. -/
structure Program where
  vars : List (String × Operand) := []
  steps : List Step
  watch : Option (List Operand) := none

end LiveBindings.Script
