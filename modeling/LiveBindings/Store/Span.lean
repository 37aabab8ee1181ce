import LiveBindings.Store.List

/-!
# Replacing a span by what differs

A view that knows its next content replaces only the part between the longest common start and the longest common end of
the rest, in one splice.
-/

namespace LiveBindings

/-- The length of the longest common start of two lists, up to `same`. -/
def commonStart : List Value → List Value → Nat
  | a :: as, b :: bs => if a.same b then commonStart as bs + 1 else 0
  | _, _ => 0

/-- What has to be replaced to turn one list into another: where, how many items, and by which. -/
structure SpanEdit where
  start : Nat
  remove : Nat
  plus : List Value

/-- The replacement that turns `current` into `next` without touching a common start and, of the rest, a common end. -/
def spanEdit (current next : List Value) : SpanEdit :=
  let front := commonStart current next
  let back := commonStart (current.drop front).reverse (next.drop front).reverse
  { start := front
    remove := current.length - front - back
    plus := (next.take (next.length - back)).drop front }

namespace ListId

variable {κ ε : Type}

/-- Makes the `length` items from `start` on the same as `next`, in one splice of what differs. -/
def replaceSpan (R : Reactions κ ε) (l : ListId) (start length : Nat) (next : List Value) : Run κ ε Unit := do
  let edit := spanEdit (← l.slice start (start + length)) next
  discard <| l.splice R (start + edit.start) edit.remove edit.plus

/-- Makes the whole list the same as `next`, in one splice of what differs. -/
def reconcile (R : Reactions κ ε) (l : ListId) (next : List Value) : Run κ ε Unit := do
  l.replaceSpan R 0 (← l.length) next

end ListId

end LiveBindings
