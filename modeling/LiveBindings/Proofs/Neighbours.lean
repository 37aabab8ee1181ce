import LiveBindings.Collection.Block
import LiveBindings.Proofs.Pieces
import Mathlib.Data.Set.Lattice
import Mathlib.Order.CompletePartialOrder

/-!
# A view among its neighbours

A view keeps a few parts of the world for itself: its cells, and the containers that it fills. Everything else belongs to its
neighbours, the callbacks that hear of its containers and the expressions that run for it. `Neighbours` says what they rely on,
which parts are theirs and what they have heard of a list; `Neighbours.Around` is the bargain: whatever a view does to its own
parts leaves the neighbours calm, and whatever they do when the engine calls them leaves the parts of the view alone. In
particular nothing that is called while a view follows an event makes another event for it.

What was done between two worlds is stated by `Neighbours.Changes`, with the parts that changed and those of which anything was
heard. It is closed under composition, so that a lemma about one operation is enough for all who use it.
-/

namespace LiveBindings

variable {π σ : Type}

theorem Ref.index_ne {t : Table} {r r' : Ref t} (h : r' ≠ r) : r'.index ≠ r.index :=
  fun hi => h (by cases r; cases r'; cases hi; rfl)

theorem getElem?_modify_of_ne {α : Type} {xs : Array α} {i j : Nat} {f : α → α} (h : j ≠ i) :
    (xs.modify i f)[j]? = xs[j]? := by
  rw [Array.getElem?_modify, if_neg h.symm]

theorem getElem?_push_of_ne {α : Type} {xs : Array α} {i : Nat} {a : α} (h : i ≠ xs.size) : (xs.push a)[i]? = xs[i]? := by
  rw [Array.getElem?_push, if_neg h]

/-- Something that a view may keep for itself. -/
inductive Part
  | list (l : ListId)
  | object (o : ObjectId)
  | block (b : Ref .block)
  | relations (r : Ref .relations)
  | entry (e : Ref .entry)
  | segment (s : Ref .segment)
  | slot (s : Ref .slot)
  /-- The listeners of a list that lead to a view. -/
  | watch (l : ListId) (b : Ref .block)
deriving DecidableEq

/-- What is in progress: how many dispatches, and what they and the views hold. -/
structure Progress (π : Type) where
  depth : Nat
  held : List (Callback π)
  heldBlocks : List (Ref .block)
  heldEntries : List (Ref .entry)

/-- Whether a callback leads to a view of elements. -/
def Callback.isWatching : Callback π → Bool
  | .content _ | .segment _ _ _ => true
  | _ => false

/-- Whether a callback leads to a certain view. -/
def Callback.watches (b : Ref .block) : Callback π → Bool
  | .content b' | .segment b' _ _ => b' = b
  | _ => false

theorem Callback.isWatching_of_watches {b : Ref .block} {c : Callback π} (h : c.watches b = true) : c.isWatching = true := by
  cases c <;> first | rfl | cases h

namespace World

/-- The listeners of a list that lead to a view, in the order of registration. -/
def watch (w : World (Callback π) (Env π σ)) (l : ListId) (b : Ref .block) : List (Listener ListTopic (Callback π)) :=
  (w.listCell l).listeners.filter (·.callback.watches b)

/-- The listeners of every list have different numbers, which have been given out. -/
def Numbered {κ ε : Type} (w : World κ ε) : Prop :=
  ∀ l, ((w.listCell l).listeners.map (·.id)).Nodup ∧ ∀ x ∈ (w.listCell l).listeners, x.id.index < w.nextListener

/-- A listener of a list that was not there before has a new number. -/
structure Registers {κ ε : Type} (w w' : World κ ε) : Prop where
  mono : w.nextListener ≤ w'.nextListener
  fresh : ∀ l, ∀ x ∈ (w'.listCell l).listeners, x ∈ (w.listCell l).listeners ∨ w.nextListener ≤ x.id.index

/-- The part has been made. -/
def Made (w : World (Callback π) (Env π σ)) : Part → Prop
  | .list l => l.index < w.lists.size
  | .object o => o.index < w.objects.size
  | .block b => b.index < w.env.cells.blocks.size
  | .relations r => r.index < w.env.cells.relations.size
  | .entry e => e.index < w.env.cells.entries.size
  | .segment s => s.index < w.env.cells.segments.size
  | .slot s => s.index < w.env.cells.slots.size
  | .watch _ _ => True

/-- The part holds the same in both worlds. -/
def HoldsSame (w w' : World (Callback π) (Env π σ)) : Part → Prop
  | .list l => (w'.listCell l).items = (w.listCell l).items
  | .object o => (w'.objectCell o).entries = (w.objectCell o).entries
  | .block b => w'.env.cells.blocks[b.index]? = w.env.cells.blocks[b.index]?
  | .relations r => w'.env.cells.relations[r.index]? = w.env.cells.relations[r.index]?
  | .entry e => w'.env.cells.entries[e.index]? = w.env.cells.entries[e.index]?
  | .segment s => w'.env.cells.segments[s.index]? = w.env.cells.segments[s.index]?
  | .slot s => w'.env.cells.slots[s.index]? = w.env.cells.slots[s.index]?
  | .watch l b => w'.watch l b = w.watch l b

/-- A change that is made now is made: either its listeners are told, or the limit of nested dispatches is reached and the
configuration has the change made without them. -/
def Admits {κ ε : Type} (w : World κ ε) : Prop :=
  w.depth < w.config.maxDispatchDepth ∨ w.config.onDepthExceeded = .skip

instance {κ ε : Type} (w : World κ ε) : Decidable w.Admits := inferInstanceAs (Decidable (_ ∨ _))

variable {w w' w'' : World (Callback π) (Env π σ)} {p : Part}

/-- What is in progress. -/
def progress (w : World (Callback π) (Env π σ)) : Progress π :=
  { depth := w.depth, held := w.held, heldBlocks := w.env.cells.heldBlocks, heldEntries := w.env.cells.heldEntries }

/-- The world while something else is in progress. -/
def during (w : World (Callback π) (Env π σ)) (p : Progress π) : World (Callback π) (Env π σ) :=
  { w with
    depth := p.depth
    held := p.held
    env := { w.env with cells := { w.env.cells with heldBlocks := p.heldBlocks, heldEntries := p.heldEntries } } }

@[simp] theorem progress_during (w : World (Callback π) (Env π σ)) (q : Progress π) : (w.during q).progress = q := rfl

/-- Callbacks are let go. -/
theorem during_of_held {q : Progress π} {held : List (Callback π)} (h : w.progress = { q with held }) :
    { w with held := q.held } = w.during q := by
  simp only [progress, Progress.mk.injEq] at h
  simp only [during, ← h.1, ← h.2.2.1, ← h.2.2.2]

/-- Views are let go. -/
theorem during_of_heldBlocks {q : Progress π} {bs : List (Ref .block)} (h : w.progress = { q with heldBlocks := bs }) :
    { w with env := { w.env with cells := { w.env.cells with heldBlocks := q.heldBlocks } } } = w.during q := by
  simp only [progress, Progress.mk.injEq] at h
  simp only [during, ← h.1, ← h.2.1, ← h.2.2.2]

/-- Entries are let go. -/
theorem during_of_heldEntries {q : Progress π} {es : List (Ref .entry)} (h : w.progress = { q with heldEntries := es }) :
    { w with env := { w.env with cells := { w.env.cells with heldEntries := q.heldEntries } } } = w.during q := by
  simp only [progress, Progress.mk.injEq] at h
  simp only [during, ← h.1, ← h.2.1, ← h.2.2.1]

/-- A dispatch is over. -/
theorem during_of_depth {q : Progress π} (h : w.progress = { q with depth := q.depth + 1 }) :
    { w with depth := w.depth - 1 } = w.during q := by
  simp only [progress, Progress.mk.injEq] at h
  have hdepth : w.depth - 1 = q.depth := by omega
  simp only [during, hdepth, ← h.2.1, ← h.2.2.1, ← h.2.2.2]

theorem HoldsSame.refl (w : World (Callback π) (Env π σ)) (p : Part) : w.HoldsSame w p := by
  cases p <;> rfl

theorem HoldsSame.trans (h : w.HoldsSame w' p) (h' : w'.HoldsSame w'' p) : w.HoldsSame w'' p := by
  cases p <;> exact Eq.trans h' h

theorem Registers.refl {κ ε : Type} (w : World κ ε) : w.Registers w := ⟨le_rfl, fun _ _ h => .inl h⟩

theorem Registers.trans {κ ε : Type} {w w' w'' : World κ ε} (h : w.Registers w') (h' : w'.Registers w'') : w.Registers w'' where
  mono := h.mono.trans h'.mono
  fresh l x hx := (h'.fresh l x hx).elim (h.fresh l x) fun hn => .inr (h.mono.trans hn)

end World

/-- Reading the cells. -/
theorem ends_envCells {w : World (Callback π) (Env π σ)} (Q : Cells π → World (Callback π) (Env π σ) → Prop) :
    (cells : Live π σ (Cells π)).Ends w Q ↔ Q w.env.cells w := Iff.rfl

/-- The cells that are not of views. -/
def Cells.others (c : Cells π) : Cells π :=
  { c with
    blocks := #[]
    relations := #[]
    entries := #[]
    segments := #[]
    slots := #[]
    heldBlocks := []
    heldEntries := [] }

/-- Containers, cells of views and listeners that lead to views may have changed, and others may have been made; everything else is as
it was. -/
structure World.Inert (w w' : World (Callback π) (Env π σ)) : Prop where
  made : ∀ p, w.Made p → w'.Made p
  listListeners : ∀ l, (w'.listCell l).listeners.filter (!·.callback.isWatching) =
    (w.listCell l).listeners.filter (!·.callback.isWatching)
  objectListeners : ∀ o, (w'.objectCell o).listeners = (w.objectCell o).listeners
  registers : w.Registers w'
  numbered : w.Numbered → w'.Numbered
  others : w'.env.cells.others = w.env.cells.others
  host : w'.env.host = w.env.host
  config : w'.config = w.config

namespace World.Inert

variable {w w' : World (Callback π) (Env π σ)}

/-- No listener has changed. -/
theorem ofListeners (made : ∀ p, w.Made p → w'.Made p) (list : ∀ l, (w'.listCell l).listeners = (w.listCell l).listeners)
    (object : ∀ o, (w'.objectCell o).listeners = (w.objectCell o).listeners) (next : w'.nextListener = w.nextListener)
    (others : w'.env.cells.others = w.env.cells.others) (host : w'.env.host = w.env.host) (config : w'.config = w.config) :
    w.Inert w' where
  made := made
  listListeners l := by rw [list]
  objectListeners := object
  registers := ⟨next.ge, fun l x hx => .inl (list l ▸ hx)⟩
  numbered h l := by
    rw [list, next]
    exact h l
  others := others
  host := host
  config := config

theorem during (w : World (Callback π) (Env π σ)) (q : Progress π) : w.Inert (w.during q) :=
  .ofListeners (fun p h => by cases p <;> exact h) (fun _ => rfl) (fun _ => rfl) rfl rfl rfl rfl

theorem listeners_modifyList {l l' : ListId} {f : ListCell (Callback π) → ListCell (Callback π)}
    (hf : ∀ c, (f c).listeners = c.listeners) : ((w.modifyList l f).listCell l').listeners = (w.listCell l').listeners := by
  rw [listCell_modifyList]
  split
  · rename_i h
    rw [hf, h.1]
  · rfl

/-- A list gets other items, or another number of its dispatches is in flight. -/
theorem modifyList {l : ListId} {f : ListCell (Callback π) → ListCell (Callback π)} (hf : ∀ c, (f c).listeners = c.listeners) :
    w.Inert (w.modifyList l f) :=
  .ofListeners (fun p h => by cases p <;> simp_all [Made, World.modifyList]) (fun _ => listeners_modifyList hf) (fun _ => rfl)
    rfl rfl rfl rfl

/-- An object gets other entries. -/
theorem modifyObject {o : ObjectId} {f : ObjectCell (Callback π) → ObjectCell (Callback π)}
    (hf : ∀ c, (f c).listeners = c.listeners) : w.Inert (w.modifyObject o f) := by
  refine .ofListeners (fun p h => by cases p <;> simp_all [Made, World.modifyObject]) (fun _ => rfl) (fun o' => ?_) rfl rfl rfl rfl
  rw [objectCell_modifyObject]
  split
  · rename_i h
    rw [hf, h.1]
  · rfl

/-- Cells of views get other contents. -/
theorem withCells {c : Cells π} (others : c.others = w.env.cells.others) (made : ∀ p, w.Made p → (w.withCells c).Made p) :
    w.Inert (w.withCells c) := .ofListeners made (fun _ => rfl) (fun _ => rfl) rfl others rfl rfl

end World.Inert

/-- What surrounds a view: the worlds in which its neighbours can go on, the parts that are theirs, the containers that the view only
looks at and they leave alone, the callbacks of theirs that may hear of the containers of the view, and how often they have heard
of the content of a list. A callback with `ears` for a list may count what it hears of it. -/
structure Neighbours (π σ : Type) where
  calm : World (Callback π) (Env π σ) → Prop
  theirs : World (Callback π) (Env π σ) → Set Part
  sources : World (Callback π) (Env π σ) → Set Part
  callbacks : Set (Callback π)
  ears : Callback π → Set Part
  heard : World (Callback π) (Env π σ) → ListId → Nat

namespace Neighbours

variable {N : Neighbours π σ} {E : Engine π σ} {S S' T T' : Set Part} {w w' w'' : World (Callback π) (Env π σ)} {p : Part}

/-- The part has been made, and is neither one of the neighbours' nor one that the view only looks at. -/
structure Owns (N : Neighbours π σ) (w : World (Callback π) (Env π σ)) (p : Part) : Prop where
  made : w.Made p
  ours : p ∉ N.theirs w
  apart : p ∉ N.sources w

/-- The part has been made, and the view only looks at it. -/
structure Sees (N : Neighbours π σ) (w : World (Callback π) (Env π σ)) (p : Part) : Prop where
  made : w.Made p
  source : p ∈ N.sources w

/-- Something that is done without the neighbours: parts may be changed and made, but none of theirs, and no listener of theirs. -/
structure Ours (N : Neighbours π σ) (w w' : World (Callback π) (Env π σ)) : Prop extends w.Inert w' where
  theirs : ∀ p ∈ N.theirs w, w.HoldsSame w' p

/-- Of the parts of the view, those that it looks at and the listeners that lead to it only those among `S` were changed, of its lists
only those among `T` were heard of, and its neighbours are calm. -/
structure Changes (N : Neighbours π σ) (S T : Set Part) (w w' : World (Callback π) (Env π σ)) : Prop where
  calm : N.calm w'
  made : ∀ p, w.Made p → w'.Made p
  owns : ∀ p, N.Owns w p → N.Owns w' p
  same : ∀ p, N.Owns w p → p ∉ S → w.HoldsSame w' p
  heard : ∀ l, N.Owns w (.list l) → .list l ∉ T → N.heard w' l = N.heard w l
  sees : ∀ p, N.Sees w p → N.Sees w' p
  kept : ∀ p, N.Sees w p → p ∉ S → w.HoldsSame w' p
  watch : ∀ l b, N.Owns w (.block b) → .watch l b ∉ S → w'.watch l b = w.watch l b
  registers : w.Registers w'
  progress : w'.progress = w.progress
  config : w'.config = w.config

/-- What stays while neighbours do something, and whatever is in progress. -/
def Lasting (N : Neighbours π σ) (P : World (Callback π) (Env π σ) → Prop) : Prop :=
  ∀ {w w' : World (Callback π) (Env π σ)} (q : Progress π), N.calm w → N.Changes ∅ ∅ (w.during q) w' → P w → P w'

/-- The bargain between a view and its neighbours when the engine is `E`. -/
structure Around (N : Neighbours π σ) (E : Engine π σ) : Prop where
  made : ∀ {w p}, N.calm w → p ∈ N.theirs w ∪ N.sources w → w.Made p
  ours : ∀ {w w'}, N.calm w → N.Ours w w' →
    N.calm w' ∧ N.theirs w' ⊆ N.theirs w ∧ N.heard w' = N.heard w ∧ N.sources w' = N.sources w
  listTold : ∀ {w l}, N.calm w → N.Owns w (.list l) →
    ∀ x ∈ (w.listCell l).listeners, x.callback ∈ N.callbacks ∧ N.ears x.callback ⊆ {.list l}
  objectTold : ∀ {w o}, N.calm w → N.Owns w (.object o) →
    ∀ x ∈ (w.objectCell o).listeners, x.callback ∈ N.callbacks ∧ N.ears x.callback ⊆ ∅
  fire : ∀ {w c e}, N.calm w → c ∈ N.callbacks → (E.fire c e).Ends w fun _ w' => N.Changes ∅ (N.ears c) w w'
  letGo : ∀ {w}, N.calm w → E.letGo.Ends w fun _ w' => N.Changes ∅ ∅ w w'
  sweep : ∀ {w}, N.calm w → (sweep E).Ends w fun _ w' => N.Changes ∅ ∅ w w'

namespace Lasting

variable {P Q : World (Callback π) (Env π σ) → Prop}

theorem and (hP : N.Lasting P) (hQ : N.Lasting Q) : N.Lasting fun w => P w ∧ Q w :=
  fun q hw h hPQ => ⟨hP q hw h hPQ.1, hQ q hw h hPQ.2⟩

theorem after (hP : N.Lasting P) (hw : N.calm w) (h : N.Changes ∅ ∅ w w') (hPw : P w) : P w' := hP w.progress hw h hPw

end Lasting

namespace Changes

theorem refl (h : N.calm w) (S T : Set Part) : N.Changes S T w w :=
  ⟨h, fun _ h => h, fun _ h => h, fun p _ _ => World.HoldsSame.refl w p, fun _ _ _ => rfl, fun _ h => h,
    fun p _ _ => World.HoldsSame.refl w p, fun _ _ _ _ => rfl, .refl w, rfl, rfl⟩

theorem mono (h : N.Changes S T w w') (hS : S ⊆ S') (hT : T ⊆ T') : N.Changes S' T' w w' where
  calm := h.calm
  made := h.made
  owns := h.owns
  same p hp hn := h.same p hp fun hm => hn (hS hm)
  heard l hl hn := h.heard l hl fun hm => hn (hT hm)
  sees := h.sees
  kept p hp hn := h.kept p hp fun hm => hn (hS hm)
  watch l b hb hn := h.watch l b hb fun hm => hn (hS hm)
  registers := h.registers
  progress := h.progress
  config := h.config

theorem trans (h : N.Changes S T w w') (h' : N.Changes S T w' w'') : N.Changes S T w w'' where
  calm := h'.calm
  made p hp := h'.made p (h.made p hp)
  owns p hp := h'.owns p (h.owns p hp)
  same p hp hn := (h.same p hp hn).trans (h'.same p (h.owns p hp) hn)
  heard l hl hn := (h'.heard l (h.owns _ hl) hn).trans (h.heard l hl hn)
  sees p hp := h'.sees p (h.sees p hp)
  kept p hp hn := (h.kept p hp hn).trans (h'.kept p (h.sees p hp) hn)
  watch l b hb hn := (h'.watch l b (h.owns _ hb) hn).trans (h.watch l b hb hn)
  registers := h.registers.trans h'.registers
  progress := h'.progress.trans h.progress
  config := h'.config.trans h.config

/-- What was done first is forgotten where it is no more than what was done later, and the other way round. -/
theorem andThen (h : N.Changes S T w w') (h' : N.Changes S' T' w' w'') : N.Changes (S ∪ S') (T ∪ T') w w'' :=
  (h.mono Set.subset_union_left Set.subset_union_left).trans (h'.mono Set.subset_union_right Set.subset_union_right)

/-- What becomes of parts that were made only meanwhile is no change of the view. -/
theorem fresh (h : N.Changes S T w w') (hS : ∀ p ∈ S, w.Made p → p ∈ S')
    (hT : ∀ p ∈ T, w.Made p → p ∈ T') : N.Changes S' T' w w' :=
  { h with
    same := fun p hp hn => h.same p hp fun hm => hn (hS p hm hp.made)
    heard := fun l hl hn => h.heard l hl fun hm => hn (hT _ hm hl.made)
    kept := fun p hp hn => h.kept p hp fun hm => hn (hS p hm hp.made)
    watch := fun l b hb hn => h.watch l b hb fun hm => hn (hS _ hm trivial) }

theorem admits (h : N.Changes S T w w') (hw : w.Admits) : w'.Admits := by
  have hdepth : w'.depth = w.depth := congrArg Progress.depth h.progress
  unfold World.Admits at *
  rw [hdepth, h.config]
  exact hw

end Changes

/-- Only what is in progress differs. -/
theorem Ours.during (q : Progress π) : N.Ours w (w.during q) := ⟨.during w q, fun p _ => by cases p <;> rfl⟩

namespace Around

/-- A dispatch, or at the limit the change alone. -/
theorem nested {α : Type} {container : Kind} {silent act : Live π σ α} {Q : α → World (Callback π) (Env π σ) → Prop}
    (room : w.Admits) (hs : silent.Ends w Q)
    (ha : act.Ends { w with depth := w.depth + 1 } fun a w' => Q a { w' with depth := w'.depth - 1 }) :
    (LiveBindings.nested container silent act).Ends w Q := by
  by_cases hd : w.depth < w.config.maxDispatchDepth
  · rwa [Run.ends_nested hd]
  · have hskip := room.resolve_left hd
    simpa [LiveBindings.nested, Nat.le_of_not_lt hd, hskip] using hs

variable (hN : N.Around E)

include hN

/-- What is done without the neighbours. -/
theorem changes (hw : N.calm w) (h : N.Ours w w') (same : ∀ p, w.Made p → p ∉ S → w.HoldsSame w' p)
    (progress : w'.progress = w.progress) : N.Changes S ∅ w w' where
  calm := (hN.ours hw h).1
  made := h.made
  owns p hp := ⟨h.made p hp.made, fun hm => hp.ours ((hN.ours hw h).2.1 hm), (hN.ours hw h).2.2.2 ▸ hp.apart⟩
  same p hp := same p hp.made
  heard l _ _ := by rw [(hN.ours hw h).2.2.1]
  sees p hp := ⟨h.made p hp.made, (hN.ours hw h).2.2.2.symm ▸ hp.source⟩
  kept p hp := same p hp.made
  watch l b _ := same (.watch l b) trivial
  registers := h.registers
  progress := progress
  config := h.config

theorem calm_during (hw : N.calm w) (q : Progress π) : N.calm (w.during q) := (hN.ours hw (.during q)).1

theorem owns_during (hw : N.calm w) (hp : N.Owns w p) (q : Progress π) : N.Owns (w.during q) p :=
  ⟨by cases p <;> exact hp.made, fun hm => hp.ours ((hN.ours hw (.during q)).2.1 hm), (hN.ours hw (.during q)).2.2.2 ▸ hp.apart⟩

theorem sees_during (hw : N.calm w) (hp : N.Sees w p) (q : Progress π) : N.Sees (w.during q) p :=
  ⟨by cases p <;> exact hp.made, (hN.ours hw (.during q)).2.2.2.symm ▸ hp.source⟩

/-- What is done while something else is in progress. -/
theorem through {q : Progress π} (hw : N.calm w) (h : N.Changes S T (w.during q) w') :
    N.Changes S T w (w'.during w.progress) where
  calm := hN.calm_during h.calm _
  made p hp := by
    have hq := h.made p (by cases p <;> exact hp)
    cases p <;> exact hq
  owns p hp := hN.owns_during h.calm (h.owns p (hN.owns_during hw hp q)) _
  same p hp hn := by
    have hq := h.same p (hN.owns_during hw hp q) hn
    cases p <;> exact hq
  heard l hl hn := by
    rw [(hN.ours h.calm (.during _)).2.2.1, h.heard l (hN.owns_during hw hl q) hn, (hN.ours hw (.during q)).2.2.1]
  sees p hp := hN.sees_during h.calm (h.sees p (hN.sees_during hw hp q)) _
  kept p hp hn := by
    have hq := h.kept p (hN.sees_during hw hp q) hn
    cases p <;> exact hq
  watch l b hb hn := h.watch l b (hN.owns_during hw hb q) hn
  registers := ⟨h.registers.mono, h.registers.fresh⟩
  progress := rfl
  config := h.config

/-- The same is done whatever else is in progress. -/
theorem changes_during (hw : N.calm w) (h : N.Changes S T w w') (q : Progress π) : N.Changes S T (w.during q) (w'.during q) :=
  hN.through (w := w.during q) (q := w.progress) (hN.calm_during hw q) h

/-- A change of one part that is none of the neighbours'. -/
theorem changePart (hw : N.calm w) (hp : p ∉ N.theirs w) (h : w.Inert w') (same : ∀ p', p' ≠ p → w.HoldsSame w' p')
    (progress : w'.progress = w.progress) : N.Changes {p} ∅ w w' :=
  hN.changes hw ⟨h, fun p' ht => same p' fun he => hp (he ▸ ht)⟩ (fun p' _ hn => same p' hn) progress

/-- A part is made. -/
theorem makePart (hw : N.calm w) (hn : ¬w.Made p) (hm : w'.Made p) (h : w.Inert w') (same : ∀ p', p' ≠ p → w.HoldsSame w' p')
    (progress : w'.progress = w.progress) : N.Changes ∅ ∅ w w' ∧ N.Owns w' p := by
  have hne {p'} (hm' : w.Made p') : p' ≠ p := fun he => hn (he ▸ hm')
  have hours : N.Ours w w' := ⟨h, fun p' ht => same p' (hne (hN.made hw (.inl ht)))⟩
  refine ⟨hN.changes hw hours (fun p' hp' _ => same p' (hne hp')) progress, hm, fun ht => ?_, fun hs => ?_⟩
  · exact hn (hN.made hw (.inl ((hN.ours hw hours).2.1 ht)))
  · exact hn (hN.made hw (.inr ((hN.ours hw hours).2.2.2 ▸ hs)))

/-- A change of a list that is none of the neighbours'. -/
theorem modifyList {l : ListId} {f : ListCell (Callback π) → ListCell (Callback π)} (hw : N.calm w) (hl : .list l ∉ N.theirs w)
    (hf : ∀ c, (f c).listeners = c.listeners) : N.Changes {.list l} ∅ w (w.modifyList l f) := by
  refine hN.changePart hw hl (.modifyList hf) (fun p hp => ?_) rfl
  cases p with
  | list l' =>
    have hne : l' ≠ l := fun h => hp (h ▸ rfl)
    simp [World.HoldsSame, World.listCell_modifyList, hne]
  | watch l' b => simp only [World.HoldsSame, World.watch, World.Inert.listeners_modifyList hf]
  | _ => rfl

/-- Another number of dispatches of a list is in flight. -/
theorem countDispatches {l : ListId} {g : Nat → Nat} (hw : N.calm w) :
    N.Changes ∅ ∅ w (w.modifyList l fun c => { c with dispatching := g c.dispatching }) := by
  have hsame (p : Part) : w.HoldsSame (w.modifyList l fun c => { c with dispatching := g c.dispatching }) p := by
    cases p with
    | list l' =>
      simp only [World.HoldsSame, World.listCell_modifyList]
      split
      · rename_i hl'
        rw [hl'.1]
      · rfl
    | watch l' b => exact congrArg (List.filter _) (World.Inert.listeners_modifyList fun _ => rfl)
    | _ => rfl
  exact hN.changes hw ⟨.modifyList fun _ => rfl, fun p _ => hsame p⟩ (fun p _ _ => hsame p) rfl

/-- A change of an object of the view. -/
theorem modifyObject {o : ObjectId} {f : ObjectCell (Callback π) → ObjectCell (Callback π)} (hw : N.calm w)
    (ho : N.Owns w (.object o)) (hf : ∀ c, (f c).listeners = c.listeners) : N.Changes {.object o} ∅ w (w.modifyObject o f) := by
  refine hN.changePart hw ho.ours (.modifyObject hf) (fun p hp => ?_) rfl
  cases p with
  | object o' =>
    have hne : o' ≠ o := fun h => hp (h ▸ rfl)
    simp [World.HoldsSame, World.objectCell_modifyObject, hne]
  | _ => rfl

/-! ### Cells -/

section

variable {b : Ref .block} {r : Ref .relations} {e : Ref .entry}

theorem modifyBlock (hw : N.calm w) (hb : N.Owns w (.block b)) (f : Block π → Block π) :
    (LiveBindings.modifyBlock b f : Live π σ Unit).Ends w fun _ w' => N.Changes {.block b} ∅ w w' ∧
      w'.env.cells.blocks[b.index]? = w.env.cells.blocks[b.index]?.map fun c => { c with block := f c.block } := by
  simp only [LiveBindings.modifyBlock, LiveBindings.modifyCells, Run.ends_modify]
  refine ⟨hN.changePart hw hb.ours (.withCells rfl fun p hp => ?_) (fun p hp => ?_) rfl, ?_⟩
  · cases p with
    | block b' => simpa [World.Made, World.withCells] using hp
    | _ => exact hp
  · cases p with
    | block b' => exact getElem?_modify_of_ne (Ref.index_ne fun h => hp (h ▸ rfl))
    | _ => rfl
  · simp [Array.getElem?_modify]

theorem modifyRelations (hw : N.calm w) (hr : N.Owns w (.relations r)) (f : Relations → Relations) :
    (LiveBindings.modifyRelations r f : Live π σ Unit).Ends w fun _ w' => N.Changes {.relations r} ∅ w w' ∧
      w'.env.cells.relations[r.index]? = w.env.cells.relations[r.index]?.map f := by
  simp only [LiveBindings.modifyRelations, LiveBindings.modifyCells, Run.ends_modify]
  refine ⟨hN.changePart hw hr.ours (.withCells rfl fun p hp => ?_) (fun p hp => ?_) rfl, ?_⟩
  · cases p with
    | relations r' => simpa [World.Made, World.withCells] using hp
    | _ => exact hp
  · cases p with
    | relations r' => exact getElem?_modify_of_ne (Ref.index_ne fun h => hp (h ▸ rfl))
    | _ => rfl
  · simp [Array.getElem?_modify]

theorem modifyEntry (hw : N.calm w) (he : N.Owns w (.entry e)) (f : Entry π → Entry π) :
    (LiveBindings.modifyEntry e f : Live π σ Unit).Ends w fun _ w' => N.Changes {.entry e} ∅ w w' ∧
      w'.env.cells.entries[e.index]? = w.env.cells.entries[e.index]?.map f := by
  simp only [LiveBindings.modifyEntry, LiveBindings.modifyCells, Run.ends_modify]
  refine ⟨hN.changePart hw he.ours (.withCells rfl fun p hp => ?_) (fun p hp => ?_) rfl, ?_⟩
  · cases p with
    | entry e' => simpa [World.Made, World.withCells] using hp
    | _ => exact hp
  · cases p with
    | entry e' => exact getElem?_modify_of_ne (Ref.index_ne fun h => hp (h ▸ rfl))
    | _ => rfl
  · simp [Array.getElem?_modify]

theorem newEntry (hw : N.calm w) (c : Entry π) :
    (LiveBindings.newEntry c : Live π σ _).Ends w fun e w' => (N.Changes ∅ ∅ w w' ∧ N.Owns w' (.entry e)) ∧ ¬w.Made (.entry e) ∧
      w'.env.cells.entries[e.index]? = some c := by
  simp only [LiveBindings.newEntry, LiveBindings.modifyCells, Run.ends_bind, ends_envCells, Run.ends_modify, Run.ends_pure]
  have hfresh : ¬w.Made (.entry ⟨w.env.cells.entries.size⟩) := Nat.lt_irrefl _
  refine ⟨hN.makePart hw hfresh (by simp [World.Made]) (.withCells rfl fun p hp => ?_) (fun p hp => ?_) rfl, hfresh, by simp⟩
  · cases p with
    | entry e' => exact Nat.lt_of_lt_of_le hp (by simp [World.withCells])
    | _ => exact hp
  · cases p with
    | entry e' => exact getElem?_push_of_ne (Ref.index_ne fun h => hp (h ▸ rfl))
    | _ => rfl

end

/-! ## While the view is held -/

theorem lasting_during {P : World (Callback π) (Env π σ) → Prop} (hP : N.Lasting P) (hw : N.calm w) (q : Progress π) (h : P w) :
    P (w.during q) := hP q hw (.refl (hN.calm_during hw q) _ _) h

/-- An update of a view, which holds the view meanwhile. -/
theorem holdingBlock {P : World (Callback π) (Env π σ) → Prop} {b : Ref .block} {act : Live π σ Unit} (hw : N.calm w) (hP : N.Lasting P)
    (ha : ∀ bs, act.Ends (w.during { w.progress with heldBlocks := bs }) fun _ w' =>
      N.Changes S T (w.during { w.progress with heldBlocks := bs }) w' ∧ P w') :
    (LiveBindings.holdingBlock E b act).Ends w fun _ w' => N.Changes S T w w' ∧ P w' := by
  simp only [LiveBindings.holdingBlock, Run.ends_bind, ends_envCells, Run.ends_restoring]
  refine (ha (b :: w.env.cells.heldBlocks)).imp fun _ w₁ ended => ?_
  obtain ⟨h₁, hP₁⟩ := ended
  have h := hN.through hw h₁
  have hdone : (LiveBindings.sweep E).Ends (w₁.during w.progress) fun _ w' => N.Changes S T w w' ∧ P w' :=
    (hN.sweep h.calm).imp fun _ w₂ h₂ => ⟨h.trans (h₂.mono (Set.empty_subset _) (Set.empty_subset _)),
      hP.after h.calm h₂ (hN.lasting_during hP h₁.calm _ hP₁)⟩
  rw [← World.during_of_heldBlocks (q := w.progress) h₁.progress] at hdone
  exact hdone

/-- Something that holds entries meanwhile. -/
theorem keepingHeldEntries {α : Type} {P : α → World (Callback π) (Env π σ) → Prop} {act : Live π σ α} (hw : N.calm w)
    (hP : ∀ a, N.Lasting (P a))
    (ha : act.Ends w fun a w' => (∃ es, N.Changes S T (w.during { w.progress with heldEntries := es }) w') ∧ P a w') :
    (LiveBindings.keepingHeldEntries act).Ends w fun a w' => N.Changes S T w w' ∧ P a w' := by
  simp only [LiveBindings.keepingHeldEntries, Run.ends_bind, ends_envCells, Run.ends_restoring]
  refine ha.imp fun a w₁ ended => ?_
  obtain ⟨⟨es, h₁⟩, hP₁⟩ := ended
  have hdone : N.Changes S T w (w₁.during w.progress) ∧ P a (w₁.during w.progress) :=
    ⟨hN.through hw h₁, hN.lasting_during (hP a) h₁.calm _ hP₁⟩
  rw [← World.during_of_heldEntries (q := w.progress) h₁.progress] at hdone
  exact hdone

/-! ## Telling -/

section

variable {τ : Type} {registered : World (Callback π) (Env π σ) → ListenerId → Bool} {e : Event}
  {ls : List (Listener τ (Callback π))}

theorem tell {x : Listener τ (Callback π)} (hx : x.callback ∈ N.callbacks ∧ N.ears x.callback ⊆ T) (hw : N.calm w) :
    (LiveBindings.tell E.reactions registered e x).Ends w fun _ w' => N.Changes ∅ T w w' := by
  simp only [LiveBindings.tell, Run.ends_bind, Run.ends_get]
  split
  · exact (hN.fire hw hx.1).imp fun _ _ h => h.mono subset_rfl hx.2
  · exact .refl hw _ _

theorem tellAll (hls : ∀ x ∈ ls, x.callback ∈ N.callbacks ∧ N.ears x.callback ⊆ T) (hw : N.calm w) :
    (LiveBindings.tellAll E.reactions registered e ls).Ends w fun _ w' => N.Changes ∅ T w w' := by
  refine (tellAll_ends
    (I := fun ls w' => (∀ x ∈ ls, x.callback ∈ N.callbacks ∧ N.ears x.callback ⊆ T) ∧ N.Changes ∅ T w w') ?_
    ⟨hls, .refl hw _ _⟩).imp fun _ _ h => h.2
  rintro x ls w₁ ⟨hls, h⟩
  refine (hN.tell (hls x (List.mem_cons_self ..)) h.calm).imp fun _ w₂ h₂ => ?_
  exact ⟨fun y hy => hls y (List.mem_cons_of_mem _ hy), h.trans h₂⟩

/-- Something that is done while callbacks are held, which are let go then. -/
theorem holdingWith {P : World (Callback π) (Env π σ) → Prop} {callbacks : List (Callback π)} {act : Live π σ Unit} (hw : N.calm w)
    (hP : N.Lasting P)
    (ha : ∀ held, act.Ends (w.during { w.progress with held }) fun _ w' =>
      N.Changes S T (w.during { w.progress with held }) w' ∧ P w') :
    (LiveBindings.holding E.reactions callbacks act).Ends w fun _ w' => N.Changes S T w w' ∧ P w' := by
  rw [Run.ends_holding]
  refine (ha (callbacks ++ w.held)).imp fun _ w₁ ⟨h₁, hP₁⟩ => ?_
  have h := hN.through hw h₁
  change Run.Ends _ { w₁ with held := w.progress.held } _
  rw [World.during_of_held h₁.progress]
  exact (hN.letGo h.calm).imp fun _ w₂ h₂ => ⟨h.trans (h₂.mono (Set.empty_subset _) (Set.empty_subset _)),
    hP.after h.calm h₂ (hN.lasting_during hP h₁.calm _ hP₁)⟩

theorem holding {callbacks : List (Callback π)} {act : Live π σ Unit} (hw : N.calm w)
    (ha : ∀ held, act.Ends (w.during { w.progress with held }) fun _ w' => N.Changes S T (w.during { w.progress with held }) w') :
    (LiveBindings.holding E.reactions callbacks act).Ends w fun _ w' => N.Changes S T w w' :=
  (hN.holdingWith (P := fun _ => True) hw (fun _ _ _ _ => trivial) fun held => (ha held).imp fun _ _ h => ⟨h, trivial⟩).imp
    fun _ _ h => h.1

/-- One listener after the other is told, and each of them takes what is known a step further. -/
theorem tellInTurnWith {I : List (Listener τ (Callback π)) → World (Callback π) (Env π σ) → Prop} (hw : N.calm w)
    (hI : ∀ ls, N.Lasting (I ls))
    (told : ∀ {x ls w₁}, N.calm w₁ → (w.Admits → w₁.Admits) → I (x :: ls) w₁ →
      (LiveBindings.tell E.reactions registered e x).Ends w₁ fun _ w' => N.Changes S T w₁ w' ∧ I ls w') (h : I ls w) :
    (LiveBindings.tellInTurn E.reactions registered e ls).Ends w fun _ w' => N.Changes S T w w' ∧ I [] w' := by
  induction ls generalizing w with
  | nil => exact ⟨.refl hw _ _, h⟩
  | cons x ls ih =>
    rw [LiveBindings.tellInTurn, Run.ends_bind, Run.ends_withHeld]
    have hlater : N.calm (w.during { w.progress with held := ls.map (·.callback) ++ w.held }) := hN.calm_during hw _
    refine (hN.holdingWith hlater (hI ls) fun held => told (hN.calm_during hlater _) id
      (hN.lasting_during (hI _) hlater _ (hN.lasting_during (hI _) hw _ h))).imp fun _ w₁ ended => ?_
    obtain ⟨h₁, hI₁⟩ := ended
    have h := hN.through hw h₁
    change Run.Ends _ { w₁ with held := w.progress.held } _
    rw [World.during_of_held h₁.progress]
    refine (ih h.calm (fun hw₂ room => told hw₂ fun hr => room (h.admits hr))
      (hN.lasting_during (hI _) h₁.calm _ hI₁)).imp fun _ w₂ ended => ⟨h.trans ended.1, ended.2⟩

theorem tellInTurn (hls : ∀ x ∈ ls, x.callback ∈ N.callbacks ∧ N.ears x.callback ⊆ T) (hw : N.calm w) :
    (LiveBindings.tellInTurn E.reactions registered e ls).Ends w fun _ w' => N.Changes ∅ T w w' := by
  refine (hN.tellInTurnWith (I := fun ls _ => ∀ x ∈ ls, x.callback ∈ N.callbacks ∧ N.ears x.callback ⊆ T) hw
    (fun _ _ _ _ _ _ h => h) (fun hw _ h => ?_) hls).imp fun _ _ h => h.1
  rw [List.forall_mem_cons] at h
  exact (hN.tell h.1 hw).imp fun _ _ h' => ⟨h', h.2⟩

end

end Around

end Neighbours

end LiveBindings
