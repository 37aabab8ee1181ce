import LiveBindings.Observe.Start

/-!
# Binding a target to a source

A source is started with the sink that writes to the place that the target denotes. The place is followed: when it
becomes another one, the source is started anew for it.
-/

namespace LiveBindings

variable {π σ : Type}

/-- Starts a source; its values go to the sink. -/
def Source.start (E : Engine π σ) : Source → Sink π → Live π σ (Cancel π)
  | .observe x scope, next => x.start E next scope
  | .guarded x scope syncing ready, next => x.start E (.guarded syncing ready next) scope
  | .inverse f s, next => s.start E (.inverse f next)
  | .gated s right scope, next => startTwo E (.gate next) (s.start E ·) (right.start E · scope)

/-- Follows a place and writes a source to it. -/
def bindPlace (E : Engine π σ) (how : Writing) (container key : Expr) (source : Source) (scope : Scope) :
    Live π σ (Cancel π) := do
  let s ← newSlot
  let outer ← startTwo E (.writeTo s how source) (container.start E · scope) (key.start E · scope)
  return forEach s outer

/-- Writes a source to the place that a target denotes in a scope. -/
def Target.bind (E : Engine π σ) : Target → Source → Scope → Live π σ (Cancel π)
  | .property object key, source, scope => bindPlace E .assign object key source scope
  | .membership collection member, source, scope => bindPlace E .toggle collection member source scope
  | .inverse f operand, source, scope => operand.bind E (.inverse f source) scope
  | .equals left right, source, scope => left.bind E (.gated source right scope) scope
  | .within context body, source, scope => do
    let s ← newSlot
    let outer ← context.start E (.switch s (.target body source scope)) scope
    return forEach s outer

end LiveBindings
