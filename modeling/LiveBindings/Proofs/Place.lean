import LiveBindings.Proofs.Denotation
import LiveBindings.Proofs.Pieces
import LiveBindings.Observe.Fire

/-!
# Places that are watched

A place is what one listener of an observer keeps an eye on: it has a value on given contents (`Place.read`), and a listener
that hands the value on after every change (`Place.post`). Following a container under a key comes down to watching one place
or to a value that never changes (`follow_ends`).
-/

namespace LiveBindings

variable {π σ : Type}

/-- What one listener watches. -/
inductive Place
  /-- The value of an object under a name. -/
  | entry (o : ObjectId) (name : String)
  | length (l : ListId)
  | item (l : ListId) (index : Nat)
  /-- Whether a list has an element. -/
  | element (l : ListId) (value : Value)
  /-- Whether an object has a key. -/
  | key (o : ObjectId) (name : String)

namespace Place

/-- The value at a place. -/
def read (c : Contents) : Place → Value
  | entry o name => (Fields.get? name (c.entries o)).getD .undefined
  | length l => Value.ofNat (c.items l).length
  | item l index => (c.items l).getD index .undefined
  | element l value => .bool (value.memberOf (c.items l))
  | key o name => .bool (Fields.has name (c.entries o))

/-- What the listener of a place does. -/
def callback (next : Sink π) : Place → Callback π
  | entry _ _ | length _ => .forward next
  | item l index => .reread l index next
  | element l value => .listHas l value next
  | key o name => .objectHas o name next

/-- Where the listener of a place is registered. -/
def post (next : Sink π) : Place → Post π
  | entry o name => .object o (.after name) (.forward next)
  | length l => .list l .length (.forward next)
  | item l index => .list l .content (.reread l index next)
  | element l value => .list l .content (.listHas l value next)
  | key o name => .object o .entries (.objectHas o name next)

/-- The handle that removes the listener of a place. -/
def handle (id : ListenerId) : Place → Cancel π
  | entry o name => .unlistenObject o (.after name) id
  | length l => .unlistenList l .length id
  | item l _ | element l _ => .unlistenList l .content id
  | key o _ => .unlistenObject o .entries id

/-- Hands on the value at a place, then registers its listener. -/
def watch (E : Engine π σ) (next : Sink π) : Place → Live π σ (Cancel π)
  | entry o name => followEntry E o name next
  | length l => followLength E l next
  | item l index => followItem E l index next
  | element l value => followElement E l value next
  | key o name => followKey E o name next

/-- Whether the listener of a place is told the value that is there. -/
def Tells (c : Contents) (p : Place) : Event → Prop
  | .value v => v = p.read c
  | _ => match p with
    | entry _ _ | length _ => False
    | _ => True

/-- What follows when a place is watched: its value is handed on, and then there is one more listener. -/
theorem watch_ends {N : Post π → Prop} {E : Engine π σ} {next : Sink π} {p : Place}
    {w : World (Callback π) (Env π σ)} {Q : Cancel π → World (Callback π) (Env π σ) → Prop} (hN : N (p.post next))
    (h : (E.emit next (p.read w.contents)).Ends w fun _ w₁ => w₁.layout.Tidy ∧
      ∀ id w', ¬w₁.layout.Has (.listener id) → Touches N 0 {.listener id} w₁ w' → w'.layout.Holds id (p.post next) →
        Q (p.handle id) w') : (p.watch E next).Ends w Q := by
  cases p <;>
    simp only [watch, followEntry, followLength, followItem, followElement, followKey, Run.ends_bind, ObjectId.ends_get,
      ObjectId.ends_has, ListId.ends_length, ListId.ends_get, ListId.ends_contains, Run.ends_pure] <;>
    refine h.imp fun _ w₁ h₁ => ?_
  · exact ObjectId.listen_ends h₁.1 hN h₁.2
  · exact ListId.listen_ends h₁.1 hN h₁.2
  · exact ListId.listen_ends h₁.1 hN h₁.2
  · exact ListId.listen_ends h₁.1 hN h₁.2
  · exact ObjectId.listen_ends h₁.1 hN h₁.2

/-- Removing the listener of a place. -/
theorem unwatch_ends {N : Post π → Prop} {H : Host π σ} {E : Engine π σ} {next : Sink π} {p : Place} {id : ListenerId}
    {w : World (Callback π) (Env π σ)} {Q : PUnit → World (Callback π) (Env π σ) → Prop}
    (hp : w.layout.Holds id (p.post next)) (h : ∀ w', Touches N {.listener id} 0 w w' → Q ⟨⟩ w') :
    ((p.handle id).run H E).Ends w Q := by
  cases p <;> simp only [handle, Cancel.run]
  · exact ObjectId.unlisten_ends hp h
  · exact ListId.unlisten_ends hp h
  · exact ListId.unlisten_ends hp h
  · exact ListId.unlisten_ends hp h
  · exact ObjectId.unlisten_ends hp h

/-- A listener that is told the value at its place hands it on. -/
theorem fire_ends {H : Host π σ} {E : Engine π σ} {next : Sink π} {p : Place} {e : Event}
    {w : World (Callback π) (Env π σ)} {Q : PUnit → World (Callback π) (Env π σ) → Prop} (he : p.Tells w.contents e)
    (h : (E.emit next (p.read w.contents)).Ends w Q) : ((p.callback next).fire H E e).Ends w Q := by
  cases p
  case entry | length =>
    cases e <;> simp only [Tells] at he
    simpa only [callback, Callback.fire, he] using h
  all_goals simpa [callback, Callback.fire, read] using h

end Place

/-- What following a container under a key comes down to. -/
inductive Spot
  | place (p : Place)
  | constant (v : Value)

namespace Spot

def read (c : Contents) : Spot → Value
  | place p => p.read c
  | constant v => v

def follow (E : Engine π σ) (next : Sink π) : Spot → Live π σ (Cancel π)
  | place p => p.watch E next
  | constant v => LiveBindings.constant E v next

end Spot

/-- What is followed of a container under a key, given the texts of keys. -/
def Followed.spot (c : Contents) : Followed → Value → Value → Spot
  | .property, .object o, key => .place (.entry o (c.key key))
  | .property, .list l, key =>
    if asksLength key then .place (.length l)
    else match key.asIndex with
      | some index => .place (.item l index)
      | none => .constant .undefined
  | .property, .text s, key => .constant (if asksLength key then Value.ofNat s.length else .undefined)
  | .property, _, _ => .constant .undefined
  | .membership, .list l, member => .place (.element l member)
  | .membership, .object o, member => .place (.key o (c.key member))
  | .membership, _, _ => .constant (.bool false)

/-- What the entry of a registry comes down to. -/
def registrySpot (registry : Option ObjectId) (name : String) : Spot :=
  match registry with
  | some o => .place (.entry o name)
  | none => .constant .undefined

theorem registrySpot_read (c : Contents) (registry : Option ObjectId) (name : String) :
    (registrySpot registry name).read c = c.registered registry name := by
  cases registry <;> rfl

/-- Following a container under a key is following its spot. -/
theorem follow_eq (E : Engine π σ) (what : Followed) (container key : Value) (next : Sink π)
    (w : World (Callback π) (Env π σ)) :
    follow E what container key next w = (what.spot w.contents container key).follow E next w := by
  cases what
  · cases container <;> try rfl
    case list l =>
      simp only [follow, followProperty, Followed.spot]
      split
      · rfl
      · cases key.asIndex <;> rfl
  · cases container <;> rfl

theorem follow_ends {E : Engine π σ} {what : Followed} {container key : Value} {next : Sink π}
    {w : World (Callback π) (Env π σ)} {Q : Cancel π → World (Callback π) (Env π σ) → Prop} :
    (follow E what container key next).Ends w Q ↔ ((what.spot w.contents container key).follow E next).Ends w Q := by
  rw [Run.Ends, follow_eq, Run.Ends]

/-- A spot found earlier reads as what is followed now, unless a key of an object was no scalar. -/
theorem Followed.spot_read (what : Followed) (c₀ c : Contents) {container key : Value}
    (h : ∀ o, container = .object o → key.isScalar = true) :
    (what.spot c₀ container key).read c = what.value c container key := by
  cases what
  · cases container <;> simp only [Followed.spot, Followed.value, Contents.property, Spot.read, Place.read]
    case list l =>
      by_cases hl : asksLength key = true
      · simp [hl]
      · cases key.asIndex <;> simp [hl]
    case object o => rw [Contents.key_eq_of_same (h o rfl) (Value.same_refl key)]
  · cases container <;> simp only [Followed.spot, Followed.value, Contents.membership, Spot.read, Place.read]
    case object o => rw [Contents.key_eq_of_same (h o rfl) (Value.same_refl key)]

end LiveBindings
