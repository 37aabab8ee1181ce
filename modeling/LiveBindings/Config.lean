import LiveBindings.Toml.Reader

/-!
# Engine configuration

How deep dispatches may nest, and what happens to a change at the limit. A configuration is read from a TOML document;
missing keys take their defaults and unknown keys are skipped.
-/

namespace LiveBindings

/-- What becomes of a change made while the limit of nested dispatches is reached. -/
inductive DepthPolicy
  /-- The change is made without telling anyone. -/
  | skip
  /-- The change is refused and everything in progress is abandoned. -/
  | panic
deriving DecidableEq

/-- The name of a policy in a configuration. -/
def DepthPolicy.name : DepthPolicy → String
  | skip => "skip"
  | panic => "panic"

/-- The settings of the engine. -/
structure Config where
  maxDispatchDepth : Nat := 256
  onDepthExceeded : DepthPolicy := .skip
deriving DecidableEq

/-- Why a configuration was refused. -/
inductive ConfigError
  /-- The file could not be read. -/
  | unreadable
  /-- The text is no TOML document, or a setting has the wrong type. -/
  | malformed
  /-- A setting has a value without meaning. -/
  | invalid (reason : String)
deriving DecidableEq

namespace ConfigError

/-- The wording of an invalid setting. -/
def message : ConfigError → Option String
  | unreadable | malformed => none
  | invalid reason => some ("invalid configuration: " ++ reason)

end ConfigError

namespace Config

/-- A depth limit: an integer that is not negative. -/
def depth? : Toml.Item → Option Nat
  | .scalar (.integer n) => if 0 ≤ n then some n.toNat else none
  | _ => none

/-- A policy by its name. -/
def policyNamed? (name : String) : Option DepthPolicy :=
  if name = DepthPolicy.skip.name then some .skip
  else if name = DepthPolicy.panic.name then some .panic
  else none

/-- A policy: its name, or a table with the name as its only key and nothing under it. -/
def policy? : Toml.Item → Option DepthPolicy
  | .scalar (.text s) => policyNamed? s
  | .table _ [(name, .array [])] | .table _ [(name, .table _ [])] => policyNamed? name
  | _ => none

/-- Reads a setting if it is there. -/
def setting {α : Type} (read : Toml.Item → Option α) (default : α) (key : String) (es : Toml.Entries) : Option α :=
  match Toml.lookup key es with
  | none => some default
  | some item => read item

/-- The configuration that the top table of a document describes, before it is checked. -/
def ofEntries? (es : Toml.Entries) : Option Config := do
  let maxDispatchDepth ← setting depth? 256 "max_dispatch_depth" es
  let onDepthExceeded ← setting policy? .skip "on_depth_exceeded" es
  some { maxDispatchDepth, onDepthExceeded }

/-- A limit of zero would let no dispatch begin. -/
def check (c : Config) : Except ConfigError Config :=
  if c.maxDispatchDepth = 0 then .error (.invalid "max_dispatch_depth must be at least 1") else .ok c

/-- Reads a configuration. -/
def read (s : String) : Except ConfigError Config :=
  match (Toml.read? s).bind ofEntries? with
  | none => .error .malformed
  | some c => c.check

/-- Reads a configuration from the text of a file, `none` when there is no such file. -/
def load : Option String → Except ConfigError Config
  | none => .error .unreadable
  | some s => read s

end Config

end LiveBindings
