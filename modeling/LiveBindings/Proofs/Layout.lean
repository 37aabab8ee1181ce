import LiveBindings.Engine
import LiveBindings.Proofs.Run
import LiveBindings.Store.Contents
import Mathlib.Algebra.Order.Group.Multiset
import Mathlib.Data.Multiset.Count
import Mathlib.Tactic.Abel

/-!
# What observers have laid out in a world

The `Layout` of a world is everything in it that belongs to observers: their cells and their listeners. What the containers
hold is kept apart (`World.contents`). An observer owns `Piece`s of the layout, counted in a multiset, and a computation is
described by the pieces that it works on: `Reshapes G G'` says that the pieces `G` became the pieces `G'`, which are among
them or new, and that nothing else was changed. Such descriptions compose (`trans`) and hold beside other pieces (`frame`).
-/

namespace LiveBindings

variable {π σ : Type}

/-- What a listener is registered for, and what it does. -/
inductive Post (π : Type)
  | list (l : ListId) (topic : ListTopic) (callback : Callback π)
  | object (o : ObjectId) (topic : ObjectTopic) (callback : Callback π)

/-- Something of which an observer is the only owner: a cell or a listener. -/
inductive Piece
  | last (r : Ref .last)
  | row (r : Ref .args)
  | slot (r : Ref .slot)
  | flag (r : Ref .flag)
  | listener (id : ListenerId)
deriving DecidableEq

/-- The cells and the listeners of a world. -/
structure Layout (π : Type) where
  cells : Cells π
  nextListener : Nat
  /-- How many lists there are. -/
  lists : Nat
  /-- How many objects there are. -/
  objects : Nat
  listListeners : ListId → List (Listener ListTopic (Callback π))
  objectListeners : ObjectId → List (Listener ObjectTopic (Callback π))

def World.layout (w : World (Callback π) (Env π σ)) : Layout π where
  cells := w.env.cells
  nextListener := w.nextListener
  lists := w.lists.size
  objects := w.objects.size
  listListeners l := (w.listCell l).listeners
  objectListeners o := (w.objectCell o).listeners

namespace Layout

/-- A listener is registered under an id. -/
def Posted (K : Layout π) (id : ListenerId) : Post π → Prop
  | .list l topic callback => ⟨id, topic, callback⟩ ∈ K.listListeners l
  | .object o topic callback => ⟨id, topic, callback⟩ ∈ K.objectListeners o

/-- A piece has been made. -/
def Has (K : Layout π) : Piece → Prop
  | .last r => r.index < K.cells.lasts.size
  | .row r => r.index < K.cells.args.size
  | .slot r => r.index < K.cells.slots.size
  | .flag r => r.index < K.cells.flags.size
  | .listener id => id.index < K.nextListener

/-- A piece is the same in two layouts. -/
def Same (K K' : Layout π) : Piece → Prop
  | .last r => K'.cells.lasts[r.index]? = K.cells.lasts[r.index]?
  | .row r => K'.cells.args[r.index]? = K.cells.args[r.index]?
  | .slot r => K'.cells.slots[r.index]? = K.cells.slots[r.index]?
  | .flag r => K'.cells.flags[r.index]? = K.cells.flags[r.index]?
  | .listener id => ∀ q, K'.Posted id q ↔ K.Posted id q

/-- No listener has an id that is still to be given, and no two have the same. -/
structure Tidy (K : Layout π) : Prop where
  below : ∀ {id q}, K.Posted id q → id.index < K.nextListener
  unique : ∀ {id q q'}, K.Posted id q → K.Posted id q' → q = q'
  listOnce : ∀ l, ((K.listListeners l).map (·.id)).Nodup
  objectOnce : ∀ o, ((K.objectListeners o).map (·.id)).Nodup

theorem Same.refl (K : Layout π) (p : Piece) : K.Same K p := by
  cases p <;> simp [Same]

theorem Same.trans {K K' K'' : Layout π} {p : Piece} (h : K.Same K' p) (h' : K'.Same K'' p) : K.Same K'' p := by
  cases p with
  | listener id => exact fun q => (h' q).trans (h q)
  | _ => exact Eq.trans h' h

end Layout

/-- The pieces `G` have become the pieces `G'`; everything else that had been made is as it was. -/
structure Reshapes (G G' : Multiset Piece) (K K' : Layout π) : Prop where
  lists : K'.lists = K.lists
  objects : K'.objects = K.objects
  orphans : K'.cells.orphans = K.cells.orphans
  grows : ∀ p, K.Has p → K'.Has p
  same : ∀ p, K.Has p → p ∉ G → K.Same K' p
  fresh : ∀ p ∈ G', p ∈ G ∨ ¬K.Has p
  has : (∀ p ∈ G, K.Has p) → ∀ p ∈ G', K'.Has p
  nodup : G.Nodup → G'.Nodup
  tidy : K.Tidy → K'.Tidy
  /-- A listener is never changed, only removed. -/
  kept : ∀ {id q}, K'.Posted id q → K.Has (.listener id) → K.Posted id q
  /-- A listener that is not one of the pieces now was there before and was none of them. -/
  posted : ∀ {id q}, K'.Posted id q → .listener id ∉ G' → K.Posted id q ∧ .listener id ∉ G

namespace Reshapes

variable {G G' G'' : Multiset Piece} {K K' K'' : Layout π}

theorem refl (G : Multiset Piece) (K : Layout π) : Reshapes G G K K where
  lists := rfl
  objects := rfl
  orphans := rfl
  grows _ h := h
  same p _ _ := Layout.Same.refl K p
  fresh _ h := Or.inl h
  has h := h
  nodup h := h
  tidy h := h
  kept h _ := h
  posted h hn := ⟨h, hn⟩

/-- A piece of `G'` that had been made before is one of `G`. -/
theorem mem_of_has (h : Reshapes G G' K K') {p : Piece} (hp : p ∈ G') (hK : K.Has p) : p ∈ G :=
  (h.fresh p hp).resolve_right fun hn => hn hK

theorem trans (h : Reshapes G G' K K') (h' : Reshapes G' G'' K' K'') : Reshapes G G'' K K'' where
  lists := h'.lists.trans h.lists
  objects := h'.objects.trans h.objects
  orphans := h'.orphans.trans h.orphans
  grows p hp := h'.grows p (h.grows p hp)
  same p hp hG := by
    have hG' : p ∉ G' := fun hm => hG (h.mem_of_has hm hp)
    exact (h.same p hp hG).trans (h'.same p (h.grows p hp) hG')
  fresh p hp := by
    rcases h'.fresh p hp with hm | hn
    · exact h.fresh p hm
    · exact Or.inr fun hK => hn (h.grows p hK)
  has hG := h'.has (h.has hG)
  nodup hG := h'.nodup (h.nodup hG)
  tidy hK := h'.tidy (h.tidy hK)
  kept hq hK := h.kept (h'.kept hq (h.grows _ hK)) hK
  posted hq hn := by
    obtain ⟨hq', hn'⟩ := h'.posted hq hn
    exact h.posted hq' hn'

/-- Pieces beside those worked on stay what they are. -/
theorem frame {F : Multiset Piece} (h : Reshapes G G' K K') (hF : ∀ p ∈ F, K.Has p) (hn : (F + G).Nodup) :
    Reshapes (F + G) (F + G') K K' where
  lists := h.lists
  objects := h.objects
  orphans := h.orphans
  grows := h.grows
  same p hp hG := h.same p hp fun hm => hG (Multiset.mem_add.2 (Or.inr hm))
  fresh p hp := by
    rcases Multiset.mem_add.1 hp with hm | hm
    · exact Or.inl (Multiset.mem_add.2 (Or.inl hm))
    · exact (h.fresh p hm).imp_left fun hG => Multiset.mem_add.2 (Or.inr hG)
  has hG p hp := by
    rcases Multiset.mem_add.1 hp with hm | hm
    · exact h.grows p (hF p hm)
    · exact h.has (fun p hp => hG p (Multiset.mem_add.2 (Or.inr hp))) p hm
  nodup _ := by
    obtain ⟨h1, h2, h3⟩ := Multiset.nodup_add.1 hn
    refine Multiset.nodup_add.2 ⟨h1, h.nodup h2, Multiset.disjoint_left.2 fun hpF hpG => ?_⟩
    exact Multiset.disjoint_left.1 h3 hpF (h.mem_of_has hpG (hF _ hpF))
  tidy := h.tidy
  kept := h.kept
  posted hq hm := by
    obtain ⟨h1, h2⟩ := h.posted hq fun hG => hm (Multiset.mem_add.2 (Or.inr hG))
    refine ⟨h1, fun hG => ?_⟩
    rcases Multiset.mem_add.1 hG with hF' | hG
    · exact hm (Multiset.mem_add.2 (Or.inl hF'))
    · exact h2 hG

end Reshapes

/-- The pieces fit into a world: they have been made, and each is counted once. -/
structure World.Fits (w : World (Callback π) (Env π σ)) (F : Multiset Piece) : Prop where
  has : ∀ p ∈ F, w.layout.Has p
  nodup : F.Nodup
  tidy : w.layout.Tidy

/-- Only the layout changed, and of it only the pieces `G`, which became `G'`; every new listener is for one of the posts
`N`. -/
structure Touches (N : Post π → Prop) (G G' : Multiset Piece) (w w' : World (Callback π) (Env π σ)) : Prop where
  layout : Reshapes G G' w.layout w'.layout
  contents : w'.contents = w.contents
  host : w'.env.host = w.env.host
  depth : w'.depth = w.depth
  config : w'.config = w.config
  posts : ∀ {id q}, w'.layout.Posted id q → w.layout.Posted id q ∨ N q

namespace Touches

variable {N : Post π → Prop} {G G' G'' F : Multiset Piece} {w w' w'' : World (Callback π) (Env π σ)}

theorem refl (G : Multiset Piece) (w : World (Callback π) (Env π σ)) : Touches N G G w w :=
  ⟨Reshapes.refl G _, rfl, rfl, rfl, rfl, Or.inl⟩

theorem trans (h : Touches N G G' w w') (h' : Touches N G' G'' w' w'') : Touches N G G'' w w'' where
  layout := h.layout.trans h'.layout
  contents := h'.contents.trans h.contents
  host := h'.host.trans h.host
  depth := h'.depth.trans h.depth
  config := h'.config.trans h.config
  posts hq := (h'.posts hq).elim h.posts Or.inr

theorem frame (h : Touches N G G' w w') (hw : w.Fits (F + G)) : Touches N (F + G) (F + G') w w' where
  layout := h.layout.frame (fun p hp => hw.has p (Multiset.mem_add.2 (Or.inl hp))) hw.nodup
  contents := h.contents
  host := h.host
  depth := h.depth
  config := h.config
  posts := h.posts

end Touches

theorem World.Fits.touch {N : Post π → Prop} {G G' : Multiset Piece} {w w' : World (Callback π) (Env π σ)}
    (h : w.Fits G) (ht : Touches N G G' w w') : w'.Fits G' :=
  ⟨ht.layout.has h.has, ht.layout.nodup h.nodup, ht.layout.tidy h.tidy⟩

theorem World.Fits.left {G F : Multiset Piece} {w : World (Callback π) (Env π σ)} (h : w.Fits (G + F)) : w.Fits G :=
  ⟨fun p hp => h.has p (Multiset.mem_add.2 (Or.inl hp)), (Multiset.nodup_add.1 h.nodup).1, h.tidy⟩

theorem World.Fits.right {G F : Multiset Piece} {w : World (Callback π) (Env π σ)} (h : w.Fits (G + F)) : w.Fits F :=
  ⟨fun p hp => h.has p (Multiset.mem_add.2 (Or.inr hp)), (Multiset.nodup_add.1 h.nodup).2.1, h.tidy⟩

theorem World.Fits.notMem {G F : Multiset Piece} {w : World (Callback π) (Env π σ)} (h : w.Fits (G + F)) {p : Piece}
    (hp : p ∈ G) : p ∉ F :=
  fun hF => Multiset.disjoint_left.1 (Multiset.nodup_add.1 h.nodup).2.2 hp hF

end LiveBindings
