import LiveBindings.Proofs.Notice
import LiveBindings.Proofs.Recording
import LiveBindings.Proofs.Segments

/-!
# Flattening

A view that flattens listens to its collection and to every list in it. When one of these lists changes, its listeners hear of it
one after the other, and several of them may lead to the view: the one for the collection, if it is that list, and one for each
element that is. Meanwhile the view is up to date but for what the rest of them has still to hear (`Pending`), and each of them takes
it a step further (`Pending.tell`). When all have heard, nothing is left out, however the list occurs in itself.

`Reaches.shows_flattened` is the result: after every change of a list and every new collection the list of the view is the
concatenation of the lists in the collection, and no list that is not among these has a listener left.
-/

namespace LiveBindings

variable {π σ : Type}

namespace Flattening

/-- The first part of the start of an expression that flattens: the view is made, and shows nothing yet. -/
def make : Live π σ Flattening := do
  let output ← ListId.create []
  let b ← newBlock (.flatten output [])
  let s ← newSlot
  return ⟨b, output, s⟩

/-- The listener for a collection. -/
def outer (V : Flattening) (v : Value) (id : ListenerId) : List (Tap π) := Tap.of v id fun _ => .content V.block

/-- The list of a view is the concatenation of the lists in a collection, and a list that is not among these has no listener that
leads to the view but the one for the collection itself. -/
structure Exact (V : Flattening) (v : Value) (w : World (Callback π) (Env π σ)) : Prop where
  items : SameItems (w.listCell V.output).items ((w.elements v).flatMap w.elements)
  unwatched : ∀ l, .list l ∉ w.elements v → ∀ x ∈ w.watch l V.block, v = .list l ∧ x.callback = .content V.block

end Flattening

theorem Expr.start_flatten (E : Engine π σ) (collection : Expr) (next : Sink π) (scope : Scope) :
    Expr.start E (.rearrange .flatten collection) next scope = do
      let V ← Flattening.make
      let outer ← collection.start E (.switch V.slot (.content V.block)) scope
      E.emit next (.list V.output)
      return .join [forEach V.slot outer, .release V.block] := by
  simp only [Expr.start, Flattening.make, watch, Rearrangement.block, bind_assoc, pure_bind]

/-- What may happen to what a view flattens. -/
inductive Turn (π σ : Type)
  /-- One of the lists that it looks at is changed. -/
  | change (l : ListId) (op : ListOperation (Callback π) (Env π σ))
  /-- The collection becomes another value. -/
  | replaced (collection : Value)

namespace Turn

/-- What is done about it, with the announcements of a change. -/
def run (E : Engine π σ) (observer : π → Value → Live π σ Unit) (V : Flattening) : Turn π σ → Live π σ Unit
  | change l op => discard (op.run E.reactions l)
  | replaced v => Sink.emit E observer (.switch V.slot (.content V.block)) v

/-- It is about lists that the view looks at, and so are all lists that come into the collection. A change is made where it can be
announced and the list of the view can be changed within the announcement. -/
def Valid (N : Neighbours π σ) (w : World (Callback π) (Env π σ)) (v : Value) : Turn π σ → Prop
  | change l op => N.Sees w (.list l) ∧ (w.depth < w.config.maxDispatchDepth ∧ w.deeper.Admits) ∧
      (v = .list l → ∀ w' m, .list m ∈ op.result w' (w.listCell l).items → N.Sees w (.list m))
  | replaced v' => (∀ l, v' = .list l → N.Sees w (.list l)) ∧ ∀ m, .list m ∈ w.elements v' → N.Sees w (.list m)

/-- The collection afterwards. -/
def after : Turn π σ → Value → Value
  | change _ _, v => v
  | replaced v', _ => v'

end Turn

/-- A view that flattens, as a machine. What it should know is the collection. -/
def Flattening.machine (N : Neighbours π σ) (E : Engine π σ) (observer : π → Value → Live π σ Unit) (V : Flattening) :
    Machine π σ Value (Turn π σ) where
  made w v w' := v = .undefined ∧ Flattening.make w = .ok V w'
  Valid := Turn.Valid N
  run := Turn.run E observer V
  after _ := Turn.after

namespace Neighbours

variable {N : Neighbours π σ} {E E' : Engine π σ} {observer : π → Value → Live π σ Unit} {S T : Set Part}
  {w w₀ w' : World (Callback π) (Env π σ)} {V : Flattening} {v : Value} {id : ListenerId} {l : ListId} {ps : List Stretch}
  {old : List Value} {rest : List (Listener ListTopic (Callback π))}

/-- What a view that flattens relies on when the engine is `E` and calls listeners with the engine `E'`. -/
structure Drives (N : Neighbours π σ) (V : Flattening) (E E' : Engine π σ) : Prop where
  outer : N.Around E
  inner : N.Around E'
  attentive : N.Attentive V.block
  unlistens : E.Unlistens
  unlistens' : E'.Unlistens
  content : ∀ added removed index, E.fire (.content V.block) (.content added removed index) =
    Block.splice E' V.block index removed.length added
  segment : ∀ s l e, E.fire (.segment V.block s l) e = Block.refill E' V.block s l

/-- A program that keeps the bargain with the views in it is such an engine. -/
theorem drives_engine {H : Host π σ} {calls : Nat} (hout : N.Around (engine H (calls + 2))) (hin : N.Around (engine H (calls + 1)))
    (hA : N.Attentive V.block) : N.Drives V (engine H (calls + 2)) (engine H (calls + 1)) where
  outer := hout
  inner := hin
  attentive := hA
  unlistens := engine_unlistens
  unlistens' := engine_unlistens
  content _ _ _ := rfl
  segment _ _ e := by cases e <;> rfl

namespace Around

variable (hN : N.Around E)

include hN

theorem modifySlot {s : Ref .slot} (hw : N.calm w) (hs : N.Owns w (.slot s)) (f : Slot π → Slot π) :
    (LiveBindings.modifySlot s f : Live π σ Unit).Ends w fun _ w' => N.Changes {.slot s} ∅ w w' ∧
      w'.env.cells.slots[s.index]? = w.env.cells.slots[s.index]?.map f := by
  simp only [LiveBindings.modifySlot, modifyCells, Run.ends_modify]
  refine ⟨hN.changePart hw hs.ours (.withCells rfl fun p hp => ?_) (fun p hp => ?_) rfl, ?_⟩
  · cases p with
    | slot s' => simpa [World.Made, World.withCells] using hp
    | _ => exact hp
  · cases p with
    | slot s' => exact getElem?_modify_of_ne (Ref.index_ne fun h => hp (h ▸ rfl))
    | _ => rfl
  · simp [Array.getElem?_modify]

theorem newSlot (hw : N.calm w) : (LiveBindings.newSlot : Live π σ _).Ends w fun s w' => (N.Changes ∅ ∅ w w' ∧ N.Owns w' (.slot s)) ∧
    w'.env.cells.slots[s.index]? = some {} := by
  simp only [LiveBindings.newSlot, modifyCells, Run.ends_bind, ends_envCells, Run.ends_modify, Run.ends_pure]
  have hfresh : ¬w.Made (.slot ⟨w.env.cells.slots.size⟩) := Nat.lt_irrefl _
  refine ⟨hN.makePart hw hfresh (by simp [World.Made]) (.withCells rfl fun p hp => ?_) (fun p hp => ?_) rfl, by simp⟩
  · cases p with
    | slot s' => exact Nat.lt_of_lt_of_le hp (by simp [World.withCells])
    | _ => exact hp
  · cases p with
    | slot s' => exact getElem?_push_of_ne (Ref.index_ne fun h => hp (h ▸ rfl))
    | _ => rfl

end Around

/-! ## While listeners hear of a change -/

/-- The stretches of a view are those of its collection, and each shows what its element holds. -/
structure UpToDate (N : Neighbours π σ) (V : Flattening) (v : Value) (id : ListenerId) (ps : List Stretch)
    (w : World (Callback π) (Env π σ)) : Prop where
  tiles : N.Tiles V (V.outer v id) ps w
  shown : ∀ p ∈ ps, p.shown = w.elements p.value
  values : ps.map (·.value) = w.elements v
  seen : ∀ m, .list m ∈ w.elements v → N.Sees w (.list m)

/-- A list has changed that held `old` before, and the listeners in `rest` have still to hear of it. A stretch whose listener is among
them may show what its list held before, and if the listener for the collection is among them the stretches are those of the
collection as it was. -/
structure Pending (N : Neighbours π σ) (V : Flattening) (v : Value) (id : ListenerId) (l : ListId) (old : List Value)
    (rest : List (Listener ListTopic (Callback π))) (ps : List Stretch) (w : World (Callback π) (Env π σ)) : Prop where
  tiles : N.Tiles V (V.outer v id) ps w
  shown : ∀ p ∈ ps, p.shown = w.elements p.value ∨ ∃ t ∈ p.taps V.block, t.list = l ∧ t.listener ∈ rest
  stale : ∀ t ∈ V.outer v id, t.list = l → t.listener ∈ rest → ps.map (·.value) = old
  heard : (∀ t ∈ V.outer v id, t.list = l → t.listener ∉ rest) → ps.map (·.value) = w.elements v
  seen : ∀ m, .list m ∈ w.elements v → N.Sees w (.list m)

theorem Tiles.sees_collection (h : N.Tiles V (V.outer v id) ps w) : ∀ l, v = .list l → N.Sees w (.list l) := fun l hl =>
  h.tapped.sees ⟨l, id, .content V.block⟩ (List.mem_append_left _ (Tap.mem_of.2 ⟨hl, rfl, rfl⟩))

namespace UpToDate

theorem after (h : N.UpToDate V v id ps w) (h' : N.Changes S T w w') (hS : Disjoint (insert (.list V.output) V.parts) S)
    (hl : ∀ l, .list l ∉ S) : N.UpToDate V v id ps w' := by
  have hv : w'.elements v = w.elements v := h'.elements h.tiles.sees_collection fun l _ => hl l
  refine ⟨h.tiles.after h' hS, fun p hp => ?_, hv ▸ h.values, fun m hm => h'.sees _ (h.seen m (hv ▸ hm))⟩
  rw [h'.elements (h.tiles.sees hp) fun l _ => hl l]
  exact h.shown p hp

theorem during (h : N.UpToDate V v id ps w) (hN : N.Around E) (hw : N.calm w) (q : Progress π) : N.UpToDate V v id ps (w.during q) :=
  ⟨h.tiles.during hN hw q, h.shown, h.values, fun m hm => hN.sees_during hw (h.seen m hm) q⟩

theorem exact (h : N.UpToDate V v id ps w) : V.Exact v w := by
  refine ⟨?_, fun l hl x hx => ?_⟩
  · rw [← h.values, List.flatMap_map, ← List.flatMap_congr fun p hp => h.shown p hp]
    exact h.tiles.items
  · obtain ⟨t, ht, rfl, rfl⟩ := (h.tiles.tapped.watch l x).1 hx
    rcases List.mem_append.1 ht with ht | ht
    · obtain ⟨hv, -, hc⟩ := Tap.mem_of.1 ht
      exact ⟨hv, hc⟩
    · obtain ⟨p, hp, ht⟩ := List.mem_flatMap.1 ht
      refine absurd ?_ hl
      rw [← h.values, ← (Tap.mem_of.1 ht).1]
      exact List.mem_map_of_mem hp

end UpToDate

namespace Pending

variable {x : Listener ListTopic (Callback π)}

theorem after (h : N.Pending V v id l old rest ps w) (h' : N.Changes ∅ T w w') : N.Pending V v id l old rest ps w' := by
  have hv : w'.elements v = w.elements v := h'.elements h.tiles.sees_collection (by simp)
  refine ⟨h.tiles.after h' (by simp), fun p hp => ?_, h.stale, ?_, ?_⟩
  · rw [h'.elements (h.tiles.sees hp) (by simp)]
    exact h.shown p hp
  · rw [hv]
    exact h.heard
  · rw [hv]
    exact fun m hm => h'.sees _ (h.seen m hm)

theorem lasting (hN : N.Around E) : N.Lasting (N.Pending V v id l old rest ps) := fun q hw h' h =>
  after ⟨h.tiles.during hN hw q, h.shown, h.stale, h.heard, fun m hm => hN.sees_during hw (h.seen m hm) q⟩ h'

/-- When nobody is left who has still to hear of the change, the view is up to date. -/
theorem upToDate (h : N.Pending V v id l old [] ps w) : N.UpToDate V v id ps w where
  tiles := h.tiles
  shown p hp := (h.shown p hp).resolve_right fun ⟨_, _, _, ht⟩ => List.not_mem_nil ht
  values := h.heard fun _ _ _ => List.not_mem_nil
  seen := h.seen

/-- A listener that is none of the view's takes it no further. -/
theorem skip (h : N.Pending V v id l old (x :: rest) ps w)
    (hx : ∀ t ∈ V.outer v id ++ ps.flatMap (·.taps V.block), t.list = l → t.listener ≠ x) : N.Pending V v id l old rest ps w where
  tiles := h.tiles
  shown p hp := (h.shown p hp).imp_right fun ⟨t, ht, hl, hm⟩ => ⟨t, ht, hl,
    (List.mem_cons.1 hm).resolve_left (hx t (List.mem_append_right _ (List.mem_flatMap.2 ⟨p, hp, ht⟩)) hl)⟩
  stale t ht hl hm := h.stale t ht hl (List.mem_cons_of_mem _ hm)
  heard hn := h.heard fun t ht hl hm => (List.mem_cons.1 hm).elim (hx t (List.mem_append_left _ ht) hl) (hn t ht hl)
  seen := h.seen

/-- The listener for the collection hears of the change. -/
theorem hearCollection {report : ListReport} (h : N.Pending V v id l old (⟨id, .content, .content V.block⟩ :: rest) ps w)
    (hD : N.Drives V E E') (hw : N.calm w) (room : w.Admits) (hv : v = .list l)
    (hrest : (⟨id, .content, .content V.block⟩ : Listener ListTopic (Callback π)) ∉ rest)
    (hreport : w.elements v = replaceRun old report.index report.removed.length report.added) :
    (E.fire (.content V.block) (.content report.added report.removed report.index)).Ends w fun _ w' =>
      N.Changes (insert (.list V.output) V.parts) {.list V.output} w w' ∧ ∃ ps', N.Pending V v id l old rest ps' w' := by
  have hvalues : ps.map (·.value) = old :=
    h.stale ⟨l, id, .content V.block⟩ (Tap.mem_of.2 ⟨hv, rfl, rfl⟩) rfl (List.mem_cons_self ..)
  have hplus : ∀ m, .list m ∈ report.added → N.Sees w (.list m) := fun m hm => by
    refine h.seen m (hreport ▸ ?_)
    simp [replaceRun, hm]
  simp only [hD.content, Block.splice, Run.ends_bind, ends_envCells, h.tiles.view.block?]
  refine (h.tiles.splice hD.inner hD.attentive hD.unlistens' hw room _ _ hplus).imp
    fun _ w' ended => ?_
  obtain ⟨h', fresh, hfresh, hshown, htiles⟩ := ended
  refine ⟨h', _, htiles, fun p hp => ?_, fun t ht _ hm => ?_, fun _ => ?_, fun m hm => ?_⟩
  · -- a stretch that was there before is told of by another listener
    have hkept : ∀ p ∈ ps, p.shown = w'.elements p.value ∨ ∃ t ∈ p.taps V.block, t.list = l ∧ t.listener ∈ rest := fun p hp => by
      rw [h'.elements (h.tiles.sees hp) h.tiles.notMem]
      refine (h.shown p hp).imp_right fun waits => ?_
      obtain ⟨t, ht, hl, hm⟩ := waits
      refine ⟨t, ht, hl, (List.mem_cons.1 hm).resolve_left fun he => ?_⟩
      cases (Tap.mem_of.1 ht).2.2.symm.trans (congrArg Listener.callback he)
    rcases List.mem_append.1 hp with hp | hp
    · rcases List.mem_append.1 hp with hp | hp
      · exact hkept p (List.mem_of_mem_take hp)
      · rw [h'.elements (fun m hm => hplus m (hfresh ▸ hm ▸ List.mem_map_of_mem hp)) h.tiles.notMem]
        exact .inl (hshown p hp)
    · exact hkept p (List.mem_of_mem_drop hp)
  · obtain ⟨hl, hid, hc⟩ := Tap.mem_of.1 ht
    rw [Tap.listener, hid, hc] at hm
    exact absurd hm hrest
  · rw [h'.elements h.tiles.sees_collection h.tiles.notMem, hreport, ← hvalues, ← hfresh]
    simp [replaceRun, List.map_take, List.map_drop]
  · rw [h'.elements h.tiles.sees_collection h.tiles.notMem] at hm
    exact h'.sees _ (h.seen m hm)

/-- The listener for an element hears of the change. -/
theorem hearElement {p : Stretch} {i : Nat} (h : N.Pending V v id l old (⟨p.id, .content, .segment V.block p.segment l⟩ :: rest) ps w)
    (hD : N.Drives V E E') (hw : N.calm w) (room : w.Admits) (hi : ps[i]? = some p) (hp : p.value = .list l) (e : Event) :
    (E.fire (.segment V.block p.segment l) e).Ends w fun _ w' =>
      N.Changes (insert (.list V.output) V.parts) {.list V.output} w w' ∧ ∃ ps', N.Pending V v id l old rest ps' w' := by
  simp only [hD.segment, Block.refill, Run.ends_bind, ends_envCells, h.tiles.view.block?]
  refine hD.inner.holdingBlock hw (fun q hw h' h => h.imp fun _ => lasting hD.inner q hw h') fun bs => ?_
  simp only [Run.ends_bind, ListId.ends_items]
  have htiles := h.tiles.during hD.inner hw { w.progress with heldBlocks := bs }
  have hvalues (next : List Value) : (ps.set i { p with shown := next }).map (·.value) = ps.map (·.value) := map_set_same hi rfl
  refine (htiles.refill hD.inner (hD.inner.calm_during hw _) room hi _).imp
    fun _ w' ended => ?_
  obtain ⟨h', htiles'⟩ := ended
  refine ⟨h', _, htiles', fun q hq => ?_, fun t ht hl hm => ?_, fun hn => ?_, fun m hm => ?_⟩
  · obtain ⟨j, hj⟩ := List.getElem?_of_mem hq
    rcases getElem?_set_cases h.tiles.nodup hi hj with ⟨-, rfl⟩ | ⟨hq, hne⟩
    · left
      rw [h'.elements (htiles.sees (List.mem_of_getElem? hi)) htiles.notMem, hp]
      rfl
    · have hq := List.mem_of_getElem? hq
      rw [h'.elements (htiles.sees hq) htiles.notMem]
      refine (h.shown q hq).imp_right fun waits => ?_
      obtain ⟨t, ht, hl, hm⟩ := waits
      refine ⟨t, ht, hl, (List.mem_cons.1 hm).resolve_left fun he => ?_⟩
      have hc := (Tap.mem_of.1 ht).2.2.symm.trans (congrArg Listener.callback he)
      injection hc with _ hs
      exact hne hs
  · rw [hvalues]
    exact h.stale t ht hl (List.mem_cons_of_mem _ hm)
  · rw [hvalues, h'.elements htiles.sees_collection htiles.notMem]
    refine h.heard fun t ht hl hm => (List.mem_cons.1 hm).elim (fun he => ?_) (hn t ht hl)
    cases (Tap.mem_of.1 ht).2.2.symm.trans (congrArg Listener.callback he)
  · rw [h'.elements htiles.sees_collection htiles.notMem] at hm
    exact h'.sees _ (hD.inner.sees_during hw (h.seen m hm) _)

end Pending

/-- After a list has changed, all its listeners have still to hear of it. -/
theorem UpToDate.pending (h : N.UpToDate V v id ps w) (h' : N.Changes {.list l} T w w') (hl : N.Sees w (.list l))
    (hnew : v = .list l → ∀ m, .list m ∈ w'.elements (.list l) → N.Sees w (.list m)) :
    N.Pending V v id l (w.elements (.list l)) (Listeners.on .content (w'.listCell l).listeners) ps w' := by
  have htiles : N.Tiles V (V.outer v id) ps w' := h.tiles.after h' (Set.disjoint_singleton_right.2 (h.tiles.notMem l hl))
  have hon {t : Tap π} (ht : t ∈ V.outer v id ++ ps.flatMap (·.taps V.block)) (hl : t.list = l) :
      t.listener ∈ Listeners.on .content (w'.listCell l).listeners :=
    List.mem_filter.2 ⟨hl ▸ htiles.tapped.mem ht, by simp [Tap.listener]⟩
  have hothers {u : Value} (hu : ∀ m, u = .list m → N.Sees w (.list m)) (hul : u ≠ .list l) : w'.elements u = w.elements u := by
    cases u with
    | list m => exact h'.kept _ (hu m rfl) fun hm => hul (by rw [Part.list.inj hm])
    | _ => rfl
  refine ⟨htiles, fun p hp => ?_, fun t ht htl _ => ?_, fun hn => ?_, fun m hm => ?_⟩
  · by_cases hpl : p.value = .list l
    · have ht : (⟨l, p.id, .segment V.block p.segment l⟩ : Tap π) ∈ p.taps V.block := Tap.mem_of.2 ⟨hpl, rfl, rfl⟩
      exact .inr ⟨_, ht, rfl, hon (List.mem_append_right _ (List.mem_flatMap.2 ⟨p, hp, ht⟩)) rfl⟩
    · rw [hothers (h.tiles.sees hp) hpl]
      exact .inl (h.shown p hp)
  · rw [h.values, (Tap.mem_of.1 ht).1, htl]
  · have hvl : v ≠ .list l := fun hv =>
      hn ⟨l, id, .content V.block⟩ (Tap.mem_of.2 ⟨hv, rfl, rfl⟩) rfl (hon (List.mem_append_left _ (Tap.mem_of.2 ⟨hv, rfl, rfl⟩)) rfl)
    rw [hothers h.tiles.sees_collection hvl]
    exact h.values
  · by_cases hvl : v = .list l
    · exact h'.sees _ (hnew hvl m (hvl ▸ hm))
    · rw [hothers h.tiles.sees_collection hvl] at hm
      exact h'.sees _ (h.seen m hm)

/-- In the middle of a pass over the listeners of a list that has changed: those in `rest` were among them when the pass began, in the
world `w₀`, and nothing that was done since has changed the list again. -/
structure Hearing (N : Neighbours π σ) (V : Flattening) (v : Value) (id : ListenerId) (l : ListId) (old : List Value)
    (w₀ : World (Callback π) (Env π σ)) (rest : List (Listener ListTopic (Callback π))) (w : World (Callback π) (Env π σ)) : Prop where
  pending : ∃ ps, N.Pending V v id l old rest ps w
  captured : ∀ x ∈ rest, x ∈ (w₀.listCell l).listeners
  nodup : rest.Nodup
  registers : w₀.Registers w
  sees : N.Sees w (.list l)
  items : (w.listCell l).items = (w₀.listCell l).items

namespace Hearing

variable {x : Listener ListTopic (Callback π)}

theorem lasting (hN : N.Around E) : N.Lasting (N.Hearing V v id l old w₀ rest) := fun q hw h' h =>
  { h with
    pending := h.pending.imp fun _ hp => Pending.lasting hN q hw h' hp
    registers := (show World.Registers _ (World.during _ q) from ⟨h.registers.mono, h.registers.fresh⟩).trans h'.registers
    sees := h'.sees _ (hN.sees_during hw h.sees q)
    items := (show _ = _ from h'.kept _ (hN.sees_during hw h.sees q) (Set.notMem_empty _)).trans h.items }

/-- A listener has been told. -/
theorem next (h : N.Hearing V v id l old w₀ (x :: rest) w) (h' : N.Changes (insert (.list V.output) V.parts) T w w')
    (hp : ∃ ps, N.Pending V v id l old rest ps w') : N.Hearing V v id l old w₀ rest w' where
  pending := hp
  captured y hy := h.captured y (List.mem_cons_of_mem _ hy)
  nodup := (List.nodup_cons.1 h.nodup).2
  registers := h.registers.trans h'.registers
  sees := h'.sees _ h.sees
  items := by
    obtain ⟨ps, hps⟩ := h.pending
    exact (show _ = _ from h'.kept _ h.sees (hps.tiles.notMem l h.sees)).trans h.items

/-- Every listener that is told takes the view a step further: one of the view by what it does, and any other because there is nothing
to do for it. -/
theorem tell {report : ListReport} (h : N.Hearing V v id l old w₀ (x :: rest) w) (hD : N.Drives V E E') (hw : N.calm w)
    (room : w.Admits) (hn : w₀.Numbered)
    (hreport : (w₀.listCell l).items = replaceRun old report.index report.removed.length report.added) :
    (LiveBindings.tell E.reactions l.registered (.content report.added report.removed report.index) x).Ends w fun _ w' =>
      N.Changes (insert (.list V.output) V.parts) Set.univ w w' ∧ N.Hearing V v id l old w₀ rest w' := by
  obtain ⟨ps, hps⟩ := h.pending
  have followed {w' : World (Callback π) (Env π σ)} {S' T' : Set Part} (h' : N.Changes S' T' w w')
      (hS : S' ⊆ insert (.list V.output) V.parts) (hp : ∃ ps, N.Pending V v id l old rest ps w') :
      N.Changes (insert (.list V.output) V.parts) Set.univ w w' ∧ N.Hearing V v id l old w₀ rest w' :=
    have h' := h'.mono hS (Set.subset_univ _)
    ⟨h', h.next h' hp⟩
  simp only [LiveBindings.tell, Run.ends_bind, Run.ends_get]
  split
  · rename_i hregistered
    have hmem := h.registers.mem_of_id hn (h.captured x (List.mem_cons_self ..)) hregistered
    by_cases hwatches : x.callback.watches V.block = true
    · obtain ⟨t, ht, rfl, rfl⟩ := (hps.tiles.tapped.watch l x).1 (World.mem_watch.2 ⟨hmem, hwatches⟩)
      rcases List.mem_append.1 ht with ht | ht
      · obtain ⟨hv, hid, hc⟩ := Tap.mem_of.1 ht
        have ht : t.listener = ⟨id, .content, .content V.block⟩ := by rw [Tap.listener, hid, hc]
        rw [ht] at hps h ⊢
        refine (hps.hearCollection hD hw room hv (List.nodup_cons.1 h.nodup).1 ?_).imp
          fun _ w' ⟨h', hp⟩ => followed h' subset_rfl hp
        rw [hv]
        exact h.items.trans hreport
      · obtain ⟨p, hp, ht⟩ := List.mem_flatMap.1 ht
        obtain ⟨hv, hid, hc⟩ := Tap.mem_of.1 ht
        obtain ⟨i, hi⟩ := List.getElem?_of_mem hp
        have ht : t.listener = ⟨p.id, .content, .segment V.block p.segment t.list⟩ := by rw [Tap.listener, hid, hc]
        rw [ht] at hps ⊢
        exact (hps.hearElement hD hw room hi hv _).imp fun _ w' ⟨h', hp⟩ => followed h' subset_rfl hp
    · have htold := (hD.attentive.told hw h.sees x hmem).resolve_left hwatches
      refine (hD.outer.fire hw htold.1).imp fun _ w' h' => followed h' (Set.empty_subset _) ⟨ps, (hps.skip ?_).after h'⟩
      rintro t ht - rfl
      exact hwatches (hps.tiles.tapped.watches ht)
  · rename_i hgone
    refine followed (.refl hw ∅ ∅) (Set.empty_subset _) ⟨ps, hps.skip ?_⟩
    rintro t ht rfl rfl
    exact hgone (List.any_eq_true.2 ⟨t.listener, hps.tiles.tapped.mem ht, by simp⟩)

end Hearing

/-! ## One step of a view that flattens -/

namespace UpToDate

/-- When a list has changed, what is announced afterwards brings the view up to date. -/
theorem closing {change : ListChange} {report : ListReport} (h : N.UpToDate V v id ps w) (hD : N.Drives V E E')
    (h' : N.Changes {.list l} T w w') (room : w'.Admits) (hl : N.Sees w (.list l))
    (hnew : v = .list l → ∀ m, .list m ∈ w'.elements (.list l) → N.Sees w (.list m))
    (hreport : (w'.listCell l).items = replaceRun (w.elements (.list l)) report.index report.removed.length report.added) :
    (l.closing E.reactions change report).Ends w' fun _ w'' =>
      N.Changes (insert (.list l) (insert (.list V.output) V.parts)) Set.univ w w'' ∧ ∃ ps', N.UpToDate V v id ps' w'' := by
  have htapped := (h.pending h' hl hnew).tiles.tapped
  have hb := (h.pending h' hl hnew).tiles.view.owns
  simp only [ListId.closing, ListId.tellContent, Run.ends_bind, ListId.ends_listeners, Run.ends_modify]
  refine (hD.outer.tellSpan h'.calm (htapped.told hD.attentive h'.calm (h'.sees _ hl) (by simp)) _).imp fun _ w₁ h₁ => ?_
  have hkept : w₁.elements (.list l) = w'.elements (.list l) :=
    h₁.elements (fun m hm => by cases hm; exact h'.sees _ hl) (by simp)
  have room₁ := h₁.admits room
  have h₁ := (h'.mono subset_rfl (Set.subset_univ _)).trans (h₁.mono (Set.empty_subset _) (Set.subset_univ _))
  have hnumbered := hD.attentive.numbered h₁.calm
  have hear : N.Hearing V v id l (w.elements (.list l)) w₁ (Listeners.on .content (w₁.listCell l).listeners) w₁ :=
    ⟨⟨ps, h.pending h₁ hl fun hv => hkept ▸ hnew hv⟩, fun x hx => List.mem_of_mem_filter hx,
      .sublist List.filter_sublist (.of_map _ (hnumbered l).1), .refl w₁, h₁.sees _ hl, rfl⟩
  refine (hD.outer.tellInTurnWith (I := N.Hearing V v id l (w.elements (.list l)) w₁) h₁.calm (fun _ => Hearing.lasting hD.outer)
    (fun hw₂ room₂ h₂ => h₂.tell hD hw₂ (room₂ room₁) hnumbered (hkept.trans hreport)) hear).imp fun _ w₂ ended => ?_
  obtain ⟨h₂, hear₂⟩ := ended
  obtain ⟨ps', hps⟩ := hear₂.pending
  have hcount := hD.outer.countDispatches (l := l) (g := (· - 1)) h₂.calm
  have hup := hps.upToDate.after hcount (by simp) (by simp)
  have hall : N.Changes (insert (.list l) (insert (.list V.output) V.parts)) Set.univ w
      (w₂.modifyList l fun c => { c with dispatching := c.dispatching - 1 }) :=
    ((h₁.mono (by simp) subset_rfl).trans (h₂.mono (Set.subset_insert ..) subset_rfl)).trans
      (hcount.mono (Set.empty_subset _) (Set.subset_univ _))
  split
  · simp only [Run.ends_bind, ListId.ends_length]
    have htold := hup.tiles.tapped.told hD.attentive hall.calm (hall.sees _ hl) (show ListTopic.length ≠ .content by simp)
    exact (hD.outer.tellLength hall.calm htold _).imp fun _ w₄ h₄ =>
      ⟨hall.trans (h₄.mono (Set.empty_subset _) (Set.subset_univ _)), ps', hup.after h₄ (by simp) (by simp)⟩
  · exact ⟨hall, ps', hup⟩

/-- A list that the view looks at is changed, with all announcements. -/
theorem change (h : N.UpToDate V v id ps w) (hD : N.Drives V E E') (hw : N.calm w) (hl : N.Sees w (.list l))
    (below : w.depth < w.config.maxDispatchDepth) (room : w.deeper.Admits) (op : ListOperation (Callback π) (Env π σ))
    (hop : v = .list l → ∀ w' m, .list m ∈ op.result w' (w.listCell l).items → N.Sees w (.list m)) :
    (op.run E.reactions l).Ends w fun _ w' => N.Changes (insert (.list l) (insert (.list V.output) V.parts)) Set.univ w w' ∧
      ∃ ps', N.UpToDate V v id ps' w' := by
  refine op.run_carries rfl (fun _ => ⟨.refl hw _ _, ps, h⟩) fun change before mutate carried => ?_
  rw [ListId.apply_ends_iff below]
  -- the dispatch is one level deeper
  let q : Progress π := { w.progress with depth := w.depth + 1 }
  have hl₀ : N.Sees w.deeper (.list l) := hD.outer.sees_during hw hl q
  have h₀ : N.UpToDate V v id ps w.deeper := h.during hD.outer hw q
  refine (hD.outer.opening hD.attentive (hD.outer.calm_during hw q) h₀.tiles.view.owns h₀.tiles.tapped hl₀).imp fun _ w₁ h₁ => ?_
  have hl₁ := h₁.sees _ hl₀
  have hitems : (w₁.listCell l).items = (w.listCell l).items := h₁.kept _ hl₀ (Set.notMem_empty _)
  obtain ⟨e, he, -, -, hmutate⟩ := carried w₁ hl₁.made hitems
  replace he : op.edit? w₁ (w.listCell l).items = some e := he
  refine hmutate.imp ?_
  rintro _ w₂ ⟨rfl, rfl⟩
  have hfree := (hD.attentive.free h₁.calm (h₁.made _ h₀.tiles.view.owns.made) hl₁).1
  have h₂ := hD.outer.modifyList (f := fun c => { c with items := e.result }) h₁.calm hfree fun _ => rfl
  have hresult : ((w₁.modifyList l fun c => { c with items := e.result }).listCell l).items = e.result := by
    rw [World.listCell_modifyList, if_pos ⟨rfl, hl₁.made⟩]
  refine ((h₀.after h₁ (by simp) (by simp)).closing hD h₂ (h₂.admits (h₁.admits room)) hl₁
    (fun hv m hm => h₁.sees _ (hD.outer.sees_during hw ?_ q)) ?_).imp fun _ w₃ ⟨h₃, ps', hup⟩ => ?_
  · refine hop hv w₁ m ?_
    rw [World.elements, hresult] at hm
    rwa [ListOperation.result, he]
  · rw [hresult, (ListOperation.edit?_replaces he).result]
    exact congrArg (replaceRun · _ _ _) hitems.symm
  have hall := (h₁.mono (Set.empty_subset _) (Set.subset_univ _)).trans h₃
  have hback : w₃.shallower = w₃.during w.progress := World.during_of_depth (q := w.progress) hall.progress
  rw [hback]
  exact ⟨hD.outer.through hw hall, ps', hup.during hD.outer hall.calm _⟩

end UpToDate

/-- The slot of a view holds what takes the listener for its collection down. -/
structure Holding (N : Neighbours π σ) (V : Flattening) (v : Value) (id : ListenerId) (w : World (Callback π) (Env π σ)) : Prop where
  owns : N.Owns w (.slot V.slot)
  cell : ∃ c, w.env.cells.slots[V.slot.index]? = some c ∧ c.current = .of v id ∧ c.closed = false

theorem Holding.after (h : N.Holding V v id w) (h' : N.Changes S T w w') (hS : .slot V.slot ∉ S) : N.Holding V v id w' where
  owns := h'.owns _ h.owns
  cell := by
    have hsame : w'.env.cells.slots[V.slot.index]? = w.env.cells.slots[V.slot.index]? := h'.same _ h.owns hS
    rw [hsame]
    exact h.cell

/-- A view without a collection is shown one. -/
theorem Tiles.start (h : N.Tiles V [] ps w) (hD : N.Drives V E E') (hw : N.calm w) (room : w.Admits)
    (hv : ∀ l, v = .list l → N.Sees w (.list l)) (hseen : ∀ m, .list m ∈ w.elements v → N.Sees w (.list m)) :
    (Branch.start E (.content V.block) v).Ends w fun handle w' =>
      N.Changes (insert (.list V.output) V.parts) {.list V.output} w w' ∧
        ∃ id ps', handle = .of v id ∧ N.UpToDate V v id ps' w' := by
  have reset {items : List Value} (hitems : items = w.elements v) : (Block.reset E V.block items).Ends w fun _ w' =>
      N.Changes (insert (.list V.output) V.parts) {.list V.output} w w' ∧ ∃ ps', N.Tiles V [] ps' w' ∧
        (∀ p ∈ ps', p.shown = w'.elements p.value) ∧ ps'.map (·.value) = w.elements v := by
    subst hitems
    simp only [Block.reset, Run.ends_bind, ends_envCells, h.view.block?]
    refine (h.splice hD.outer hD.attentive hD.unlistens hw room 0 _ hseen).imp
      fun _ w' ended => ?_
    obtain ⟨h', fresh, hfresh, hshown, htiles⟩ := ended
    refine ⟨h', fresh, by simpa using htiles, fun p hp => ?_, hfresh⟩
    rw [h'.elements (fun m hm => hseen m (hfresh ▸ hm ▸ List.mem_map_of_mem hp)) h.notMem]
    exact hshown p hp
  have upToDate {id : ListenerId} {ps' : List Stretch} {w₁ : World (Callback π) (Env π σ)}
      (h₁ : N.Changes (insert (.list V.output) V.parts) {.list V.output} w w₁) (htiles : N.Tiles V (V.outer v id) ps' w₁)
      (hshown : ∀ p ∈ ps', p.shown = w₁.elements p.value) (hvalues : ps'.map (·.value) = w.elements v) :
      N.UpToDate V v id ps' w₁ := by
    have hkept : w₁.elements v = w.elements v := h₁.elements hv h.notMem
    exact ⟨htiles, hshown, hvalues.trans hkept.symm, fun m hm => h₁.sees _ (hseen m (hkept ▸ hm))⟩
  cases v with
  | list l =>
    simp only [Branch.start, Run.ends_bind, ListId.ends_items, Run.ends_pure]
    refine (reset rfl).imp fun _ w₁ ended => ?_
    obtain ⟨h₁, ps', htiles, hshown, hvalues⟩ := ended
    have hc : (Callback.content V.block : Callback π).watches V.block = true := by simp [Callback.watches]
    refine (hD.outer.listen hD.attentive h₁.calm htiles.view.owns htiles.tapped (h₁.sees _ (hv l rfl)) hc).imp fun id w₂ ended => ?_
    obtain ⟨h₂, ht₂⟩ := ended
    have h₁₂ := h₁.trans (h₂.mono (watchParts_subset.trans (Set.subset_insert ..)) (Set.empty_subset _))
    refine ⟨h₁₂, id, ps', rfl, upToDate h₁₂ (htiles.retap h₂ ht₂) (fun p hp => ?_) hvalues⟩
    rw [h₂.elements (htiles.sees hp) (by simp)]
    exact hshown p hp
  | _ =>
    simp only [Branch.start, Run.ends_bind, Run.ends_pure]
    refine (reset rfl).imp fun _ w₁ ended => ?_
    obtain ⟨h₁, ps', htiles, hshown, hvalues⟩ := ended
    exact ⟨h₁, ⟨0⟩, ps', rfl, upToDate h₁ htiles hshown hvalues⟩

/-- A view is shown another collection. -/
theorem UpToDate.replace {v' : Value} (h : N.UpToDate V v id ps w) (hs : N.Holding V v id w) (hD : N.Drives V E E') (hw : N.calm w)
    (room : w.Admits) (hv : ∀ l, v' = .list l → N.Sees w (.list l)) (hseen : ∀ m, .list m ∈ w.elements v' → N.Sees w (.list m)) :
    (restart E V.slot (Branch.start E (.content V.block) v')).Ends w fun _ w' => N.calm w' ∧
      ∃ id' ps', N.UpToDate V v' id' ps' w' ∧ N.Holding V v' id' w' := by
  obtain ⟨c, hc, hcurrent, hopen⟩ := hs.cell
  have slot {u : World (Callback π) (Env π σ)} {c : Slot π} (hc : u.env.cells.slots[V.slot.index]? = some c) :
      u.env.cells.slot V.slot = c := by simp [Cells.slot, Array.getD_eq_getD_getElem?, hc]
  simp only [restart, Run.ends_bind, ends_envCells, slot hc, hopen, Bool.false_eq_true, if_false, takeCurrent, Run.ends_pure]
  refine (hD.outer.modifySlot hw hs.owns _).imp fun _ w₁ ended => ?_
  obtain ⟨h₁, hc₁⟩ := ended
  rw [hc, Option.map_some] at hc₁
  have hs₁ := h₁.owns _ hs.owns
  refine (hD.outer.modifySlot h₁.calm hs₁ _).imp fun _ w₂ ended => ?_
  obtain ⟨h₂, hc₂⟩ := ended
  rw [hc₁, Option.map_some] at hc₂
  simp only [slot hc₁, hcurrent]
  have h₁₂ := h₁.trans h₂
  have htiles₂ := h.tiles.after h₁₂ (by simp)
  refine (hD.outer.cancelTap hD.attentive hD.unlistens h₂.calm htiles₂.view.owns htiles₂.tapped).imp fun _ w₃ ended => ?_
  obtain ⟨h₃, ht₃⟩ := ended
  have hs₃ := h₃.owns _ (h₂.owns _ hs₁)
  have hc₃ : w₃.env.cells.slots[V.slot.index]? = w₂.env.cells.slots[V.slot.index]? := h₃.same _ (h₂.owns _ hs₁) (by simp)
  have h₁₃ := h₁₂.andThen h₃
  have hkept : w₃.elements v' = w.elements v' := h₁₃.elements hv (by simp)
  refine ((htiles₂.retap h₃ ht₃).start hD h₃.calm (h₁₃.admits room) (fun l hl => h₁₃.sees _ (hv l hl))
    fun m hm => h₁₃.sees _ (hseen m (hkept ▸ hm))).imp fun handle w₄ ended => ?_
  obtain ⟨h₄, id', ps', hhandle, hup⟩ := ended
  have hc₄ : w₄.env.cells.slots[V.slot.index]? = w₃.env.cells.slots[V.slot.index]? := h₄.same _ hs₃ (by simp)
  rw [hc₃, hc₂] at hc₄
  subst hhandle
  simp only [slot hc₄, hopen, bne_self_eq_false, Bool.or_self, Bool.false_eq_true, if_false, swapCurrent, Run.ends_bind, ends_envCells,
    Run.ends_pure]
  refine (hD.outer.modifySlot h₄.calm (h₄.owns _ hs₃) _).imp fun _ w₅ ended => ?_
  obtain ⟨h₅, hc₅⟩ := ended
  rw [hc₄, Option.map_some] at hc₅
  simp only [hD.unlistens.done, Run.ends_pure]
  exact ⟨h₅.calm, id', ps', hup.after h₅ (by simp) (by simp), h₅.owns _ (h₄.owns _ hs₃), _, hc₅, rfl, hopen⟩

/-- A view that has just been made has no collection, and shows nothing. -/
theorem UpToDate.made (hD : N.Drives V E E') (hw : N.calm w) (run : Flattening.make w = .ok V w') :
    N.calm w' ∧ ∃ id ps, N.UpToDate V .undefined id ps w' ∧ N.Holding V .undefined id w' := by
  suffices hmake : (Flattening.make : Live π σ _).Ends w fun U w' => N.Attentive U.block → N.calm w' ∧
      ∃ id ps, N.UpToDate U .undefined id ps w' ∧ N.Holding U .undefined id w' by
    rw [Run.ends_of_eq run] at hmake
    exact hmake hD.attentive
  simp only [Flattening.make, Run.ends_bind, Run.ends_pure]
  refine (hD.outer.create hw []).imp fun output w₁ ended => ?_
  obtain ⟨⟨h₁, ho₁⟩, _, hi₁⟩ := ended
  have hlists : (newBlock (.flatten output []) : Live π σ _).Ends w₁ fun _ w₂ => w₂.lists = w₁.lists := rfl
  refine ((hD.outer.newBlock h₁.calm _).and hlists).imp fun b w₂ ended => ?_
  obtain ⟨⟨h₂, hb, hk₂⟩, hlists₂⟩ := ended
  refine (hD.outer.newSlot h₂.calm).imp fun s w₃ ended hA => ?_
  obtain ⟨⟨h₃, hs₃⟩, hc₃⟩ := ended
  have hunwatched (l : ListId) : w₃.watch l b = [] := by
    rw [h₃.watch l b hk₂.owns (Set.notMem_empty _), World.watch, World.listCell, hlists₂]
    exact hA.unwatched h₁.calm (hb ▸ Nat.lt_irrefl _)
  have hitems : (w₃.listCell output).items = (w₁.listCell output).items :=
    (h₂.trans h₃).same _ ho₁ (Set.notMem_empty _)
  refine ⟨h₃.calm, ⟨0⟩, [], ⟨⟨⟨hk₂.after h₃ (Set.notMem_empty _), List.nodup_nil, nofun, nofun, List.nodup_nil, fun l x => ?_⟩,
    nofun, (h₂.trans h₃).owns _ ho₁, by rw [hitems, hi₁]; exact .nil⟩, nofun, rfl, nofun⟩, hs₃, {}, hc₃, rfl, rfl⟩
  rw [hunwatched]
  exact ⟨nofun, nofun⟩

/-- One step of a view that flattens. -/
theorem UpToDate.step (h : N.UpToDate V v id ps w) (hs : N.Holding V v id w) (hD : N.Drives V E E') (hw : N.calm w) (room : w.Admits)
    (s : Turn π σ) (hvalid : s.Valid N w v) : (s.run E observer V).Ends w fun _ w' => N.calm w' ∧
      ∃ id' ps', N.UpToDate V (s.after v) id' ps' w' ∧ N.Holding V (s.after v) id' w' := by
  cases s with
  | change l op =>
    obtain ⟨hl, ⟨below, deeper⟩, hop⟩ := hvalid
    rw [Turn.run, Run.ends_discard]
    exact (h.change hD hw hl below deeper op hop).imp fun _ w' ⟨h', ps', hup⟩ =>
      ⟨h'.calm, id, ps', hup, hs.after h' (by simp)⟩
  | replaced v' => exact h.replace hs hD hw room hvalid.1 hvalid.2

/-- Wherever a view that flattens can get to, it is up to date. -/
theorem Reaches.flattens (hD : N.Drives V E E') (h : N.Reaches (V.machine N E observer) v w) :
    N.calm w ∧ ∃ id ps, N.UpToDate V v id ps w ∧ N.Holding V v id w := by
  refine h.keeps (I := fun v w => ∃ id ps, N.UpToDate V v id ps w ∧ N.Holding V v id w) ?_ (fun v => ?_) ?_
  · rintro w _ w' hw ⟨rfl, run⟩
    exact UpToDate.made hD hw run
  · rintro w w' q hw h' ⟨id, ps, hup, hs⟩
    have hs' : N.Holding V v id (w.during q) := ⟨hD.outer.owns_during hw hs.owns q, hs.cell⟩
    exact ⟨id, ps, (hup.during hD.outer hw q).after h' (by simp) (by simp), hs'.after h' (Set.notMem_empty _)⟩
  · rintro v w s hw room ⟨id, ps, hup, hs⟩ hvalid
    exact hup.step hs hD hw room s hvalid

/-- A view that flattens is exact. In every world that it can get to, its list is the concatenation of the lists in its collection, and
no other list has a listener that leads to the view. Whatever happens next to these lists, with all announcements, or if the
collection becomes another one, it comes to an end, and the same holds again. -/
theorem Reaches.shows_flattened (hD : N.Drives V E E') (h : N.Reaches (V.machine N E observer) v w) :
    V.Exact v w ∧ ∀ s : Turn π σ, s.Valid N w v → w.Admits → (s.run E observer V).Ends w fun _ w' => V.Exact (s.after v) w' := by
  obtain ⟨hw, id, ps, hup, hs⟩ := h.flattens hD
  exact ⟨hup.exact, fun s hvalid room => (hup.step hs hD hw room s hvalid).imp fun _ _ ⟨_, _, _, hup', _⟩ => hup'.exact⟩

/-- A list of itself and another list is shown as its own items and those of the other one. When it is appended to itself once more,
its items are shown twice. -/
theorem Reaches.shows_flattened_circle : ∃ w,
    (recording ⟨0⟩ {⟨0⟩, ⟨1⟩}).Reaches (Flattening.machine (recording ⟨0⟩ {⟨0⟩, ⟨1⟩}) .recording (Host.recording.observer .recording)
        ⟨⟨0⟩, ⟨2⟩, ⟨0⟩⟩) (.list ⟨0⟩) w ∧
      SameItems (w.listCell ⟨2⟩).items [.list ⟨0⟩, .list ⟨1⟩, .bool true] ∧
        ((Turn.change ⟨0⟩ (.push [.list ⟨0⟩])).run .recording (Host.recording.observer .recording) ⟨⟨0⟩, ⟨2⟩, ⟨0⟩⟩).Ends w fun _ w' =>
          Flattening.Exact ⟨⟨0⟩, ⟨2⟩, ⟨0⟩⟩ (.list ⟨0⟩) w' := by
  have hruns : (Flattening.make : Live ListId (List ListId) Flattening).Ends (World.listing [[.list ⟨0⟩, .list ⟨1⟩], [.bool true]] [])
      fun V w₁ => (V = ⟨⟨0⟩, ⟨2⟩, ⟨0⟩⟩ ∧ w₁.Admits ∧ w₁.elements (.list ⟨0⟩) = [.list ⟨0⟩, .list ⟨1⟩] ∧ w₁.lists.size = 3) ∧
        ((Turn.replaced (.list ⟨0⟩)).run .recording (Host.recording.observer .recording) V).Ends w₁ fun _ w₂ =>
          ((w₂.Admits ∧ w₂.depth < w₂.config.maxDispatchDepth ∧ w₂.deeper.Admits) ∧ w₂.lists.size = 3) ∧
            (w₂.listCell ⟨0⟩).items = [.list ⟨0⟩, .list ⟨1⟩] ∧ (w₂.listCell ⟨1⟩).items = [.bool true] := by
    decide +kernel
  obtain ⟨_, w₁, hmake, ⟨rfl, room₁, hup, hsize⟩, hruns⟩ := Run.ends_iff.1 hruns
  have hsees {w : World (Callback ListId) (Env ListId (List ListId))} (hsize : w.lists.size = 3) {l : ListId} (hl : l = ⟨0⟩ ∨ l = ⟨1⟩) :
      (recording ⟨0⟩ {⟨0⟩, ⟨1⟩}).Sees w (.list l) :=
    ⟨by rcases hl with rfl | rfl <;> simp [World.Made, hsize], l, hl, rfl⟩
  have h₁ : (recording ⟨0⟩ {⟨0⟩, ⟨1⟩}).Reaches (Flattening.machine (recording ⟨0⟩ {⟨0⟩, ⟨1⟩}) .recording
      (Host.recording.observer .recording) ⟨⟨0⟩, ⟨2⟩, ⟨0⟩⟩) .undefined w₁ :=
    .made (World.recorded_listing _ _ (by simp)) ⟨rfl, hmake⟩
  obtain ⟨w₂, h₂, ⟨⟨room₂, hdepth⟩, hsize₂⟩, h0, h1⟩ := h₁.next (Turn.replaced (.list ⟨0⟩))
    ⟨by rintro l ⟨⟩; exact hsees hsize (.inl rfl), fun m hm => hsees hsize (by simpa [hup] using hm)⟩ rfl room₁ hruns
  obtain ⟨hexact, hstep⟩ := Reaches.shows_flattened
    (drives_engine (recording_around ⟨0⟩ _ 7) (recording_around ⟨0⟩ _ 6) (recording_attentive ⟨0⟩ _)) h₂
  refine ⟨w₂, h₂, ?_, hstep (.change ⟨0⟩ (.push [.list ⟨0⟩])) ⟨hsees hsize₂ (.inl rfl), hdepth, fun _ w' m hm => hsees hsize₂ ?_⟩ room₂⟩
  · have hitems : SameItems (w₂.listCell ⟨2⟩).items ((w₂.elements (.list ⟨0⟩)).flatMap w₂.elements) := hexact.items
    simpa [World.elements, h0, h1] using hitems
  · rw [h0] at hm
    change Value.list m ∈ [.list ⟨0⟩, .list ⟨1⟩] ++ [.list ⟨0⟩] at hm
    simpa [or_comm, or_assoc] using hm

end Neighbours

end LiveBindings
