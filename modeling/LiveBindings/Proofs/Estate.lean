import LiveBindings.Bindings
import LiveBindings.Proofs.Dispatch

/-!
# What handles lead to

Everything that an observer leaves in a world is an `Asset`: a listener, a slot, a view, or the cell of one element of a view.
A handle leads to some assets, these to others, and so on (`Estate.Reach`). The `Estate` of a world is what matters for that:
the listeners, the handles kept in cells, the views with their elements, and what is held while something is in progress.

`Estate.Sound P R` is the invariant of every computation of the engine: what needs an owner is led to by a handle that the
program keeps, by a view that was given up, or by one of the assets `R` that the computation itself has in hand. The views `P`
are those that are still being set up, which nothing else leads to. `Stays P` relates the estates before and after a
computation: assets only come to lead to new ones, and what has been taken down stays so.
-/

namespace LiveBindings

variable {π τ : Type}

/-! ## Assets -/

/-- What a handle may lead to. -/
inductive Asset
  | list (l : ListId) (topic : ListTopic) (id : ListenerId)
  | object (o : ObjectId) (topic : ObjectTopic) (id : ListenerId)
  | slot (s : Ref .slot)
  | block (b : Ref .block)
  | entry (e : Ref .entry)
  | segment (s : Ref .segment)
  /-- Something of the embedding program. -/
  | foreign
deriving DecidableEq

/-- The listener of a post. -/
def Post.asset (id : ListenerId) : Post π → Asset
  | .list l topic _ => .list l topic id
  | .object o topic _ => .object o topic id

mutual

/-- What a handle takes down itself. -/
def Cancel.assets : Cancel π → List Asset
  | .done => []
  | .unlistenList l topic id => [.list l topic id]
  | .unlistenObject o topic id => [.object o topic id]
  | .closeSlot s => [.slot s]
  | .release b => [.block b]
  | .join handles => assetsOfAll handles
  | .user _ => [.foreign]

def Cancel.assetsOfAll : List (Cancel π) → List Asset
  | [] => []
  | handle :: handles => handle.assets ++ assetsOfAll handles

end

theorem Cancel.assetsOfAll_eq (handles : List (Cancel π)) :
    Cancel.assetsOfAll handles = handles.flatMap Cancel.assets := by
  induction handles with
  | nil => rfl
  | cons handle handles ih => rw [Cancel.assetsOfAll, ih, List.flatMap_cons]

@[simp] theorem Cancel.mem_assets_join {handles : List (Cancel π)} {a : Asset} :
    a ∈ (Cancel.join handles).assets ↔ ∃ handle ∈ handles, a ∈ handle.assets := by
  rw [Cancel.assets, Cancel.assetsOfAll_eq, List.mem_flatMap]

/-! ## What a sink refers to -/

mutual

/-- The views and slots that a sink refers to, not through other views. -/
def Sink.refs : Sink π → List Asset
  | .distinct _ next | .mapped _ next | .inverse _ next | .truth next | .guarded _ _ next => next.refs
  | .argument _ _ action => action.refs
  | .switch slot branch => .slot slot :: branch.refs
  | .user _ | .property _ _ | .item _ _ | .extent _ | .result _ _ | .write _ _ _ => []

def ArgsAction.refs : ArgsAction π → List Asset
  | .compute _ next | .gate next => next.refs
  | .follow slot _ next => .slot slot :: next.refs
  | .bounds window => [.block window]
  | .writeTo slot _ _ => [.slot slot]

def Branch.refs : Branch π → List Asset
  | .body _ _ next | .either _ _ _ next => next.refs
  | .content block => [.block block]
  | .entries _ | .target _ _ _ => []

end

def Callback.refs : Callback π → List Asset
  | .forward next | .reread _ _ next | .listHas _ _ next | .objectHas _ _ next => next.refs
  | .content block => [.block block]
  | .entries _ _ | .segment _ _ _ | .user _ => []

/-- A test of views, as one of assets. -/
def Asset.via (via : Ref .block → Bool) : Asset → Bool
  | .block b => via b
  | _ => false

mutual

theorem Sink.holds_eq (via : Ref .block → Bool) : (s : Sink π) → s.holds via = s.refs.any (Asset.via via)
  | .distinct _ next | .mapped _ next | .inverse _ next | .truth next | .guarded _ _ next => by
    rw [Sink.holds, Sink.refs]
    exact Sink.holds_eq via next
  | .argument _ _ action => by
    rw [Sink.holds, Sink.refs]
    exact ArgsAction.holds_eq via action
  | .switch _ branch => by
    rw [Sink.holds, Sink.refs]
    exact Branch.holds_eq via branch
  | .user _ | .property _ _ | .item _ _ | .extent _ | .result _ _ | .write _ _ _ => rfl

theorem ArgsAction.holds_eq (via : Ref .block → Bool) : (action : ArgsAction π) →
    action.holds via = action.refs.any (Asset.via via)
  | .compute _ next | .follow _ _ next | .gate next => by
    rw [ArgsAction.holds, ArgsAction.refs]
    exact Sink.holds_eq via next
  | .bounds window => by simp [ArgsAction.holds, ArgsAction.refs, Asset.via]
  | .writeTo _ _ _ => rfl

theorem Branch.holds_eq (via : Ref .block → Bool) : (branch : Branch π) →
    branch.holds via = branch.refs.any (Asset.via via)
  | .body _ _ next | .either _ _ _ next => by
    rw [Branch.holds, Branch.refs]
    exact Sink.holds_eq via next
  | .content block => by simp [Branch.holds, Branch.refs, Asset.via]
  | .entries _ | .target _ _ _ => rfl

end

theorem Callback.holds_eq (via : Ref .block → Bool) (callback : Callback π) :
    callback.holds via = callback.refs.any (Asset.via via) := by
  cases callback with
  | content block => simp [Callback.holds, Callback.refs, Asset.via]
  | entries | segment | user => rfl
  | _ => simp only [Callback.holds, Callback.refs, Sink.holds_eq]

/-! ## Estates -/

/-- What the embedding program keeps: under names, the handles of its observers and its sets of bindings (one that is being
worked on is out of reach meanwhile), the listeners that it has registered itself, and a state of its own. -/
structure Ledger (π τ : Type) where
  handles : List (String × Cancel π) := []
  sets : List (String × BindingSet π) := []
  listeners : List (ListenerId × Post π) := []
  own : τ

/-- The handles of a set of bindings. -/
def BindingSet.handles (b : BindingSet π) : List (Cancel π) := b.installed.map (·.2)

/-- The handles that the program keeps, with the names that they are under. -/
def Ledger.named (g : Ledger π τ) : List (String × Cancel π) :=
  g.handles ++ g.sets.flatMap fun b => b.2.handles.map (b.1, ·)

/-- The handles that the program keeps. -/
def Ledger.kept (g : Ledger π τ) : List (Cancel π) := g.named.map (·.2)

/-- A cell that keeps a handle. One that is closed takes no other handle. -/
structure Holder (π : Type) where
  handle : Cancel π
  closed : Bool

/-- The view that relations belong to, and their entries. -/
structure Roster where
  owner : Ref .block
  entries : List (Ref .entry)

/-- What is said of a view: where it sends its values, and which cells it has for its elements. -/
structure Outline (π : Type) where
  finished : Bool
  sink : Option (Sink π)
  relations : Option (Ref .relations)
  segments : Option (List (Ref .segment))

def Block.segments? : Block π → Option (List (Ref .segment))
  | .flatten _ segments => some segments
  | _ => none

def BlockCell.outline (c : BlockCell π) : Outline π where
  finished := c.finished
  sink := c.block.sink?
  relations := c.block.relations?
  segments := c.block.segments?

/-- What matters of a world for what leads to what. -/
structure Estate (π : Type) where
  listListeners : ListId → List (Listener ListTopic (Callback π))
  objectListeners : ObjectId → List (Listener ObjectTopic (Callback π))
  nextListener : Nat
  holder : Asset → Option (Holder π)
  roster : Ref .relations → Option Roster
  view : Ref .block → Option (Outline π)
  orphans : List (Ref .block)
  heldBlocks : List (Ref .block)
  held : List (Callback π)
  kept : List (Cancel π)
  registered : List (ListenerId × Post π)

/-- The handles kept in cells. -/
def Cells.holder (c : Cells π) : Asset → Option (Holder π)
  | .slot s => c.slots[s.index]?.map fun cell => ⟨cell.current, cell.closed⟩
  | .entry e => c.entries[e.index]?.map fun cell => ⟨cell.cancel, true⟩
  | .segment s => c.segments[s.index]?.map fun cell => ⟨cell.cancel, true⟩
  | _ => none

/-- The entries of relations, and the view that they belong to. -/
def Cells.roster (c : Cells π) (r : Ref .relations) : Option Roster :=
  c.relations[r.index]?.map fun cell => ⟨cell.owner, cell.entries⟩

/-- What is said of a view. -/
def Cells.view (c : Cells π) (b : Ref .block) : Option (Outline π) := c.blocks[b.index]?.map BlockCell.outline

def World.estate (w : World (Callback π) (Env π (Ledger π τ))) : Estate π where
  listListeners := w.layout.listListeners
  objectListeners := w.layout.objectListeners
  nextListener := w.nextListener
  holder := w.env.cells.holder
  roster := w.env.cells.roster
  view := w.env.cells.view
  orphans := w.env.cells.orphans
  heldBlocks := w.env.cells.heldBlocks
  held := w.held
  kept := w.env.host.kept
  registered := w.env.host.listeners

namespace Estate

section

variable (e : Estate π)

/-- A listener is registered under an id. -/
def Posted (id : ListenerId) : Post π → Prop
  | .list l topic callback => ⟨id, topic, callback⟩ ∈ e.listListeners l
  | .object o topic callback => ⟨id, topic, callback⟩ ∈ e.objectListeners o

/-- An asset has been made. -/
def Has : Asset → Prop
  | .list _ _ id | .object _ _ id => id.index < e.nextListener
  | .block b => (e.view b).isSome
  | .foreign => False
  | a => (e.holder a).isSome

/-- The cells that a view has for its elements. -/
def elements (v : Outline π) : List Asset :=
  match v.segments with
  | some segments => segments.map .segment
  | none => ((v.relations.bind e.roster).elim [] Roster.entries).map .entry

/-- What an asset leads to. A view that is finished leads nowhere. -/
def children : Asset → List Asset
  | .block b => (e.view b).elim [] fun v => if v.finished then [] else e.elements v
  | .list _ _ _ | .object _ _ _ | .foreign => []
  | a => (e.holder a).elim [] fun h => h.handle.assets

/-- A view is not finished. -/
def Running (b : Ref .block) : Prop := ∃ v, e.view b = some v ∧ v.finished = false

/-- Something has to lead to an asset: a listener of an observer, a slot that may still start something, or a view that has
cells for its elements. -/
def Needs : Asset → Prop
  | .block b => ∃ v, e.view b = some v ∧ v.finished = false ∧ (v.relations.isSome ∨ v.segments.isSome)
  | .slot s => ∃ h, e.holder (.slot s) = some h ∧ h.closed = false
  | a => ∃ id q, e.Posted id q ∧ q.asset id = a ∧ ¬q.IsUser

/-- Where leading begins: at given assets, at the handles that the program keeps, and at the views that were given up. -/
def Root (R : Set Asset) (a : Asset) : Prop :=
  a ∈ R ∨ (∃ handle ∈ e.kept, a ∈ handle.assets) ∨ ∃ b ∈ e.orphans, a = .block b

inductive Reach (R : Set Asset) : Asset → Prop
  | root {a : Asset} (h : e.Root R a) : Reach R a
  | child {a a' : Asset} (h : Reach R a) (hc : a' ∈ e.children a) : Reach R a'

/-- Something leads to an asset, or leading begins there. -/
def Named (R : Set Asset) (a : Asset) : Prop := e.Root R a ∨ ∃ a', a ∈ e.children a'

/-- An asset has been taken down, or is a view that was given up. -/
def Spent (a : Asset) : Prop :=
  (e.Has a ∧ e.children a = [] ∧ ¬e.Needs a) ∨ ∃ b ∈ e.orphans, a = .block b

/-- A view is held by something in progress. -/
inductive Held : Ref .block → Prop
  | callback {callback : Callback π} {b : Ref .block} (h : callback ∈ e.held) (hb : .block b ∈ callback.refs)
      (hr : e.Running b) : Held b
  | block {b : Ref .block} (h : b ∈ e.heldBlocks) (hr : e.Running b) : Held b
  | through {b b' : Ref .block} {v : Outline π} {s : Sink π} (h : Held b) (hv : e.view b = some v) (hs : v.sink = some s)
      (hb : .block b' ∈ s.refs) (hr : e.Running b') : Held b'

/-- An asset has been made, and if it is a view then it is not finished before what is in progress is over, or is finished
already. -/
def Safe (P : Set (Ref .block)) (a : Asset) : Prop :=
  e.Has a ∧ ∀ b, a = .block b → b ∈ P ∨ e.Held b ∨ ∃ v, e.view b = some v ∧ v.finished = true

end

/-- The listeners of an estate are in order: each has an id of its own that was given out, and the program has noted those
that are its own. -/
structure Tidy (e : Estate π) : Prop where
  below : ∀ {id q}, e.Posted id q → id.index < e.nextListener
  listOnce : ∀ l, ((e.listListeners l).map (·.id)).Nodup
  objectOnce : ∀ o, ((e.objectListeners o).map (·.id)).Nodup
  notedOnce : (e.registered.map (·.1)).Nodup
  users : ∀ {id q}, q.IsUser → (e.Posted id q ↔ (id, q) ∈ e.registered)
  theirs : ∀ {id q}, (id, q) ∈ e.registered → q.IsUser

/-- What leads to what is in order. -/
structure Sound (P : Set (Ref .block)) (R : Set Asset) (e : Estate π) : Prop where
  tidy : e.Tidy
  known : ∀ {a}, e.Named R a → e.Has a
  covered : ∀ {a}, e.Needs a → e.Reach R a
  found : ∀ {id q}, e.Posted id q → ∀ a ∈ q.callback.refs, e.Has a
  /-- No handle leads to a listener of the program. -/
  ours : ∀ {id q}, e.Named R (q.asset id) → e.Posted id q → ¬q.IsUser
  /-- A view sends its values only to views that were made before it. -/
  sinks : ∀ {b v s}, e.view b = some v → v.sink = some s → ∀ a ∈ s.refs, e.Has a ∧ ∀ b', a = .block b' → b'.index < b.index
  owners : ∀ {b v r}, e.view b = some v → v.relations = some r → ∃ x, e.roster r = some x ∧ x.owner = b
  reserved : ∀ {b}, b ∈ P → e.Running b ∧ ¬e.Named ∅ (.block b)
  fenced : ∀ {b v s}, b ∈ P → e.view b = some v → v.sink = some s → ∀ a ∈ s.refs, e.Safe P a

/-- What there is goes on: views that are held, or still being set up, are not finished. -/
structure Carries (P : Set (Ref .block)) (e e' : Estate π) : Prop where
  has : ∀ {a}, e.Has a → e'.Has a
  held : e'.held = e.held
  heldBlocks : e'.heldBlocks = e.heldBlocks
  view : ∀ {b v}, e.view b = some v → ∃ v', e'.view b = some v' ∧ v'.sink = v.sink ∧ v'.relations = v.relations ∧
    v'.segments.isSome = v.segments.isSome ∧ (v.finished = true → v'.finished = true) ∧
      (b ∈ P ∨ e.Held b → v.finished = false → v'.finished = false)
  roster : ∀ {r x}, e.roster r = some x → ∃ x', e'.roster r = some x' ∧ x'.owner = x.owner

/-- What a computation leaves of an estate, whatever was held when it began. -/
structure Lasts (P : Set (Ref .block)) (e e' : Estate π) : Prop extends Carries P e e' where
  /-- An asset comes to lead only to new ones. -/
  children : ∀ {a a'}, a' ∈ e'.children a → a' ∈ e.children a ∨ ¬e.Has a'
  spent : ∀ {a}, e.Spent a → e'.Spent a

/-- What a computation leaves of an estate: moreover a view is given up only while something holds it. -/
structure Stays (P : Set (Ref .block)) (e e' : Estate π) : Prop extends Lasts P e e' where
  orphans : ∀ {b}, b ∈ e'.orphans → b ∈ e.orphans ∨ e'.Held b

/-! ## Leading -/

section

variable {P : Set (Ref .block)} {R R' X : Set Asset} {e e' e'' : Estate π} {a a' : Asset} {b b' : Ref .block}

theorem Root.mono (h : e.Root R a) (hR : R ⊆ R') : e.Root R' a := h.imp_left fun h => hR h

theorem Reach.mono (h : e.Reach R a) (hR : R ⊆ R') : e.Reach R' a := by
  induction h with
  | root h => exact .root (h.mono hR)
  | child _ hc ih => exact .child ih hc

theorem Named.mono (h : e.Named R a) (hR : R ⊆ R') : e.Named R' a := h.imp_left fun h => h.mono hR

theorem Named.of_mem (h : a ∈ R) : e.Named R a := Or.inl (Or.inl h)

theorem Named.of_child (h : a' ∈ e.children a) : e.Named R a' := Or.inr ⟨a, h⟩

theorem Reach.named (h : e.Reach R a) : e.Named R a := by
  cases h with
  | root h => exact Or.inl h
  | child _ hc => exact .of_child hc

/-- What leads somewhere has been made. -/
theorem has_of_child (h : a' ∈ e.children a) : e.Has a := by
  cases a with
  | list | object | foreign => exact absurd h List.not_mem_nil
  | block b =>
    rw [Has]
    cases hv : e.view b with
    | none => simp [children, hv] at h
    | some v => rfl
  | slot s | entry s | segment s =>
    simp only [Has]
    simp only [children] at h
    cases hv : e.holder _ with
    | none => simp [hv] at h
    | some v => rfl

theorem Held.running (h : e.Held b) : e.Running b := by
  cases h with
  | callback _ _ hr | block _ hr | through _ _ _ _ hr => exact hr

theorem Running.isSome (h : e.Running b) : (e.view b).isSome := by
  obtain ⟨v, hv, -⟩ := h
  rw [hv]
  rfl

namespace Carries

theorem refl (P : Set (Ref .block)) (e : Estate π) : Carries P e e where
  has h := h
  held := rfl
  heldBlocks := rfl
  view h := ⟨_, h, rfl, rfl, rfl, id, fun _ => id⟩
  roster h := ⟨_, h, rfl⟩

/-- A view that is held, or still being set up, is not finished. -/
theorem running (h : Carries P e e') (hb : b ∈ P ∨ e.Held b) (hr : e.Running b) : e'.Running b := by
  obtain ⟨v, hv, hf⟩ := hr
  obtain ⟨v', hv', -, -, -, -, hp⟩ := h.view hv
  exact ⟨v', hv', hp hb hf⟩

theorem of_held (h : Carries P e e') (hb : e.Held b) : e'.Held b := by
  have hr := h.running (Or.inr hb) hb.running
  induction hb with
  | callback hm hb => exact .callback (h.held ▸ hm) hb hr
  | block hm => exact .block (h.heldBlocks ▸ hm) hr
  | @through b b' v s hm hv hs hb _ ih =>
    obtain ⟨v', hv', hs', -⟩ := h.view hv
    exact .through (ih (h.running (Or.inr hm) hm.running)) hv' (hs'.trans hs) hb hr

theorem safe (h : Carries P e e') (ha : e.Safe P a) : e'.Safe P a := by
  refine ⟨h.has ha.1, fun b hb => ?_⟩
  rcases ha.2 b hb with hb | hb | ⟨v, hv, hf⟩
  · exact Or.inl hb
  · exact Or.inr (Or.inl (h.of_held hb))
  · obtain ⟨v', hv', -, -, -, hf', -⟩ := h.view hv
    exact Or.inr (Or.inr ⟨v', hv', hf' hf⟩)

theorem trans (h : Carries P e e') (h' : Carries P e' e'') : Carries P e e'' where
  has ha := h'.has (h.has ha)
  held := h'.held.trans h.held
  heldBlocks := h'.heldBlocks.trans h.heldBlocks
  view hv := by
    obtain ⟨v', hv', hs, hr, hg, hf, hp⟩ := h.view hv
    obtain ⟨v'', hv'', hs', hr', hg', hf', hp'⟩ := h'.view hv'
    refine ⟨v'', hv'', hs'.trans hs, hr'.trans hr, hg'.trans hg, fun h => hf' (hf h), fun hb hf => ?_⟩
    exact hp' (hb.imp_right h.of_held) (hp hb hf)
  roster hr := by
    obtain ⟨x', hx', ho⟩ := h.roster hr
    obtain ⟨x'', hx'', ho'⟩ := h'.roster hx'
    exact ⟨x'', hx'', ho'.trans ho⟩

/-- Fewer views need be still being set up. -/
theorem mono {P' : Set (Ref .block)} (h : Carries P' e e') (hP : P ⊆ P') : Carries P e e' where
  has := h.has
  held := h.held
  heldBlocks := h.heldBlocks
  view hv := by
    obtain ⟨v', hv', hs, hr, hg, hf, hp⟩ := h.view hv
    exact ⟨v', hv', hs, hr, hg, hf, fun hb => hp (hb.imp_left fun hb => hP hb)⟩
  roster := h.roster

end Carries

namespace Lasts

theorem refl (P : Set (Ref .block)) (e : Estate π) : Lasts P e e := ⟨.refl P e, Or.inl, id⟩

theorem trans (h : Lasts P e e') (h' : Lasts P e' e'') : Lasts P e e'' where
  toCarries := h.toCarries.trans h'.toCarries
  children hc := by
    rcases h'.children hc with hc | hn
    · exact h.children hc
    · exact Or.inr fun ha => hn (h.has ha)
  spent ha := h'.spent (h.spent ha)

theorem mono {P' : Set (Ref .block)} (h : Lasts P' e e') (hP : P ⊆ P') : Lasts P e e' :=
  ⟨h.toCarries.mono hP, h.children, h.spent⟩

/-- An asset that was there before a computation is not led to by what is new since then. -/
theorem reach (hs : Lasts P e e') (hX : ∀ a ∈ X, ¬e.Has a) (h : e'.Reach (R ∪ X) a) (ha : e.Has a) :
    e'.Reach R a := by
  induction h with
  | @root a h =>
    refine .root (h.imp_left fun h => ?_)
    exact h.resolve_right fun hx => hX a hx ha
  | @child a a' _ hc ih =>
    have hold := (hs.children hc).resolve_right (not_not_intro ha)
    exact .child (ih (has_of_child hold)) hc

end Lasts

namespace Stays

theorem refl (P : Set (Ref .block)) (e : Estate π) : Stays P e e := ⟨.refl P e, Or.inl⟩

theorem trans (h : Stays P e e') (h' : Stays P e' e'') : Stays P e e'' where
  toLasts := h.toLasts.trans h'.toLasts
  orphans hb := by
    rcases h'.orphans hb with hb | hb
    · exact (h.orphans hb).imp_right h'.of_held
    · exact Or.inr hb

theorem mono {P' : Set (Ref .block)} (h : Stays P' e e') (hP : P ⊆ P') : Stays P e e' := ⟨h.toLasts.mono hP, h.orphans⟩

end Stays

/-! ## Preservation -/

/-- What needed something that leads to it still has it, if whatever led somewhere still does. -/
theorem Sound.covers (h : Sound P R e) (needs : ∀ {a}, e'.Needs a → e.Needs a ∨ e'.Reach R' a)
    (roots : ∀ {a}, e.Root R a → e'.Reach R' a)
    (children : ∀ {a a'}, e'.Reach R' a → a' ∈ e.children a → e'.Reach R' a') (ha : e'.Needs a) : e'.Reach R' a := by
  have carried : ∀ {a}, e.Reach R a → e'.Reach R' a := by
    intro a hr
    induction hr with
    | root h => exact roots h
    | child _ hc ih => exact children ih hc
  exact (needs ha).elim (fun ha => carried (h.covered ha)) id

/-- Assets that have been taken down need not be kept in hand. -/
theorem Sound.drop (h : Sound P (R ∪ X) e) (hX : ∀ a ∈ X, e.Spent a) : Sound P R e where
  tidy := h.tidy
  known ha := h.known (ha.mono Set.subset_union_left)
  covered ha := by
    have hreach : ∀ {a}, e.Reach (R ∪ X) a → e.Reach R a ∨ (a ∈ X ∧ e.children a = [] ∧ ¬e.Needs a) := by
      intro a hr
      induction hr with
      | @root a h =>
        rcases h with (h | h) | h
        · exact Or.inl (.root (Or.inl h))
        · rcases hX a h with ⟨-, hc, hn⟩ | ho
          · exact Or.inr ⟨h, hc, hn⟩
          · exact Or.inl (.root (Or.inr (Or.inr ho)))
        · exact Or.inl (.root (Or.inr h))
      | child _ hc ih =>
        rcases ih with ih | ⟨-, hnone, -⟩
        · exact Or.inl (.child ih hc)
        · rw [hnone] at hc
          exact absurd hc List.not_mem_nil
    exact (hreach (h.covered ha)).resolve_right fun hn => hn.2.2 ha
  found := h.found
  ours ha := h.ours (ha.mono Set.subset_union_left)
  sinks := h.sinks
  owners := h.owners
  reserved := h.reserved
  fenced := h.fenced

end

end Estate

end LiveBindings
