import LiveBindings.Proofs.Feeds
import LiveBindings.Proofs.Same
import Mathlib.Data.List.Chain

/-!
# Where a view passes values on

A view that computes one value has no container of its own. It hands the value to a sink that passes it on only when it is not the
same as the last one. An `Outlet` is the cell with the last value, what stands behind it, and what that was told, as the program
notes it; `Outlet.Linked` says that the two agree and that no value was told after one that is the same.

`Neighbours.still` are the same neighbours as long as nothing is passed on. Whatever is known of a view among all of them is known
of it among the neighbours themselves, and in addition that nothing was passed on meanwhile.
-/

namespace LiveBindings

variable {π σ : Type}

/-- The world in which a value was the last one passed on. -/
def World.recall (w : World (Callback π) (Env π σ)) (last : Ref .last) (v : Value) : World (Callback π) (Env π σ) :=
  w.withCells { w.env.cells with lasts := w.env.cells.lasts.modify last.index fun _ => some v }

/-- Where values are passed on: the cell with the last of them, the sink that is told, and what it was told as the program notes
it. -/
structure Outlet (π σ : Type) where
  last : Ref .last
  next : Sink π
  told : σ → List Value

namespace Outlet

variable {O : Outlet π σ} {w w' : World (Callback π) (Env π σ)} {v : Value}

/-- The sink of the view, which drops a value that is the same as the last one. -/
def sink (O : Outlet π σ) : Sink π := .distinct O.last O.next

/-- What the sink was told. -/
def tolds (O : Outlet π σ) (w : World (Callback π) (Env π σ)) : List Value := O.told w.env.host

/-- What is in the cell, and what the sink was told. -/
def state (O : Outlet π σ) (w : World (Callback π) (Env π σ)) : Option (Option Value) × List Value :=
  (w.env.cells.lasts[O.last.index]?, O.tolds w)

/-- A value is passed on. -/
def pass (O : Outlet π σ) (H : Host π σ) (calls : Nat) (v : Value) : Live π σ Unit :=
  O.next.emit (engine H calls) (H.observer (engine H calls)) v

/-- A value is the last one of which the cell knows, and may be told next. -/
structure Awaits (O : Outlet π σ) (v : Value) (w : World (Callback π) (Env π σ)) : Prop where
  last : w.env.cells.lasts[O.last.index]? = some (some v)
  apart : (O.tolds w ++ [v]).IsChain fun a b => a.same b = false

/-- The cell has the last value that was told, and none was told after one that is the same. -/
structure Linked (O : Outlet π σ) (w : World (Callback π) (Env π σ)) : Prop where
  last : w.env.cells.lasts[O.last.index]? = some (O.tolds w).getLast?
  apart : (O.tolds w).IsChain fun a b => a.same b = false

theorem tolds_of_state (h : O.state w' = O.state w) : O.tolds w' = O.tolds w := congrArg Prod.snd h

@[simp] theorem tolds_recall (last : Ref .last) (v : Value) : O.tolds (w.recall last v) = O.tolds w := rfl

theorem Linked.congr (hl : O.Linked w) (h : O.state w' = O.state w) : O.Linked w' := by
  obtain ⟨hlast, htold⟩ := Prod.ext_iff.1 h
  change O.tolds w' = O.tolds w at htold
  exact ⟨by rw [htold]; exact hlast.trans hl.last, by rw [htold]; exact hl.apart⟩

theorem Linked.lastValue (hl : O.Linked w) : w.env.cells.lastValue O.last = (O.tolds w).getLast? := by
  simp [Cells.lastValue, Array.getD_eq_getD_getElem?, hl.last]

/-- A value that differs from the last one becomes the last one, and may be told. -/
theorem Linked.awaits (hl : O.Linked w) (hv : ((O.tolds w).getLast?.any (·.same v)) = false) : O.Awaits v (w.recall O.last v) where
  last := by simp [World.recall, World.withCells, Array.getElem?_modify, hl.last]
  apart := by
    rw [tolds_recall, List.isChain_append]
    refine ⟨hl.apart, List.isChain_singleton _, fun a ha b hb => ?_⟩
    rw [List.head?_singleton, Option.mem_some_iff] at hb
    rw [Option.mem_def.1 ha, Option.any_some] at hv
    exact hb ▸ hv

/-- When the value has been told, it is the last one that was. -/
theorem Awaits.linked (h : O.Awaits v w) (h' : O.state w' = ((O.state w).1, O.tolds w ++ [v])) : O.Linked w' := by
  obtain ⟨hlast, htold⟩ := Prod.ext_iff.1 h'
  change O.tolds w' = _ at htold
  refine ⟨?_, by rw [htold]; exact h.apart⟩
  rw [htold, List.getLast?_concat]
  exact hlast.trans h.last

/-- A value that is handed to the sink of a view is dropped or passed on. -/
theorem ends_emit (hl : O.Linked w) {H : Host π σ} {calls : Nat} (v : Value) (Q : Unit → World (Callback π) (Env π σ) → Prop) :
    ((engine H (calls + 1)).emit O.sink v).Ends w Q ↔
      if (O.tolds w).getLast?.any (·.same v) then Q () w else (O.pass H calls v).Ends (w.recall O.last v) Q := by
  change (Sink.emit (engine H calls) (H.observer (engine H calls)) (.distinct O.last O.next) v).Ends w Q ↔ _
  rw [Sink.emit]
  simp only [Run.ends_bind, ends_envCells, hl.lastValue]
  split <;> rfl

end Outlet

namespace Neighbours

variable {N : Neighbours π σ} {O : Outlet π σ} {E : Engine π σ} {S T : Set Part} {w w' : World (Callback π) (Env π σ)}
  {s : Option (Option Value) × List Value} {p : Part} {D : Desk} {light : Set (Cancel π)} {xs : List Row}

/-- The neighbours as long as nothing is passed on. -/
def still (N : Neighbours π σ) (O : Outlet π σ) (s : Option (Option Value) × List Value) : Neighbours π σ :=
  { N with calm := fun w => N.calm w ∧ O.state w = s }

theorem owns_still : (N.still O s).Owns w p ↔ N.Owns w p :=
  ⟨fun h => ⟨h.made, h.ours, h.apart⟩, fun h => ⟨h.made, h.ours, h.apart⟩⟩

theorem sees_still : (N.still O s).Sees w p ↔ N.Sees w p := ⟨fun h => ⟨h.made, h.source⟩, fun h => ⟨h.made, h.source⟩⟩

theorem changes_still : (N.still O s).Changes S T w w' ↔ N.Changes S T w w' ∧ O.state w' = s := by
  constructor
  · intro h
    exact ⟨⟨h.calm.1, h.made, fun p hp => owns_still.1 (h.owns p (owns_still.2 hp)), fun p hp => h.same p (owns_still.2 hp),
      fun l hl => h.heard l (owns_still.2 hl), fun p hp => sees_still.1 (h.sees p (sees_still.2 hp)),
      fun p hp => h.kept p (sees_still.2 hp), fun l b hb => h.watch l b (owns_still.2 hb), h.registers, h.progress, h.config⟩,
      h.calm.2⟩
  · rintro ⟨h, hs⟩
    exact ⟨⟨h.calm, hs⟩, h.made, fun p hp => owns_still.2 (h.owns p (owns_still.1 hp)), fun p hp => h.same p (owns_still.1 hp),
      fun l hl => h.heard l (owns_still.1 hl), fun p hp => sees_still.2 (h.sees p (sees_still.1 hp)),
      fun p hp => h.kept p (sees_still.1 hp), fun l b hb => h.watch l b (owns_still.1 hb), h.registers, h.progress, h.config⟩

theorem keeps_still {b : Ref .block} {block : Block π} : (N.still O s).Keeps b block w ↔ N.Keeps b block w :=
  ⟨fun h => ⟨owns_still.1 h.owns, h.cell⟩, fun h => ⟨owns_still.2 h.owns, h.cell⟩⟩

theorem rows_still : (N.still O s).Rows D light xs w ↔ N.Rows D light xs w :=
  ⟨fun h => ⟨owns_still.1 h.owns, h.cell, h.nodup, fun x hx => ⟨owns_still.1 (h.runs x hx).owns, (h.runs x hx).cell⟩, h.numbered⟩,
    fun h => ⟨owns_still.2 h.owns, h.cell, h.nodup, fun x hx => ⟨owns_still.2 (h.runs x hx).owns, (h.runs x hx).cell⟩, h.numbered⟩⟩

theorem Hands.of_still {r : Ref .relations} {e : Ref .entry} {vs : List Value} (h : (N.still O s).Hands r e w vs w') :
    N.Hands r e w vs w' := by
  induction h with
  | start => exact .start
  | idle _ h' ih => exact .idle ih (changes_still.1 h').1
  | hand _ E observer v run ih => exact .hand ih E observer v run

theorem Evaluated.of_still {v u : Value} (h : (N.still O s).Evaluated E D v u) : N.Evaluated E D v u := by
  obtain ⟨e, w, handle, w', vs, run, hands⟩ := h
  exact ⟨e, w, handle, w', vs, run, hands.of_still⟩

/-- A bargain that is kept as long as nothing is passed on is kept. -/
theorem Around.of_still (h : ∀ s, (N.still O s).Around E) : N.Around E where
  made {w _} hw := (h (O.state w)).made ⟨hw, rfl⟩
  ours {w w'} hw ho := by
    obtain ⟨⟨hw', -⟩, h'⟩ := (h (O.state w)).ours ⟨hw, rfl⟩ ⟨ho.toInert, ho.theirs⟩
    exact ⟨hw', h'⟩
  listTold {w _} hw hl := (h (O.state w)).listTold ⟨hw, rfl⟩ (owns_still.2 hl)
  objectTold {w _} hw ho := (h (O.state w)).objectTold ⟨hw, rfl⟩ (owns_still.2 ho)
  fire {w _ _} hw hc := ((h (O.state w)).fire ⟨hw, rfl⟩ hc).imp fun _ _ h => (changes_still.1 h).1
  letGo {w} hw := ((h (O.state w)).letGo ⟨hw, rfl⟩).imp fun _ _ h => (changes_still.1 h).1
  sweep {w} hw := ((h (O.state w)).sweep ⟨hw, rfl⟩).imp fun _ _ h => (changes_still.1 h).1

/-- Nobody but the view looks at the last value that it passed on: the cell may be made, and may get another value. -/
def Ignores (N : Neighbours π σ) (O : Outlet π σ) : Prop :=
  ∀ {w : World (Callback π) (Env π σ)} {lasts : Array (Option Value)}, N.calm w →
    (∀ i < w.env.cells.lasts.size, i ≠ O.last.index → lasts[i]? = w.env.cells.lasts[i]?) →
      N.calm (w.withCells { w.env.cells with lasts }) ∧ N.theirs (w.withCells { w.env.cells with lasts }) = N.theirs w ∧
        N.sources (w.withCells { w.env.cells with lasts }) = N.sources w ∧
          N.heard (w.withCells { w.env.cells with lasts }) = N.heard w

theorem Ignores.changes (h : N.Ignores O) {lasts : Array (Option Value)} (hw : N.calm w)
    (hl : ∀ i < w.env.cells.lasts.size, i ≠ O.last.index → lasts[i]? = w.env.cells.lasts[i]?) :
    N.Changes ∅ ∅ w (w.withCells { w.env.cells with lasts }) := by
  obtain ⟨hw', htheirs, hsources, hheard⟩ := h hw hl
  exact
    { calm := hw'
      made := fun p hp => by cases p <;> exact hp
      owns := fun p hp => ⟨by cases p <;> exact hp.made, htheirs ▸ hp.ours, hsources ▸ hp.apart⟩
      same := fun p _ _ => by cases p <;> rfl
      heard := fun l _ _ => by rw [hheard]
      sees := fun p hp => ⟨by cases p <;> exact hp.made, hsources ▸ hp.source⟩
      kept := fun p _ _ => by cases p <;> rfl
      watch := fun _ _ _ _ => rfl
      registers := ⟨le_rfl, fun _ _ h => .inl h⟩
      progress := rfl
      config := rfl }

theorem Ignores.recall (h : N.Ignores O) (hw : N.calm w) (v : Value) : N.Changes ∅ ∅ w (w.recall O.last v) :=
  h.changes hw fun _ _ hi => getElem?_modify_of_ne hi

theorem Ignores.push (h : N.Ignores O) (hw : N.calm w) :
    N.Changes ∅ ∅ w (w.withCells { w.env.cells with lasts := w.env.cells.lasts.push none }) :=
  h.changes hw fun _ hi _ => by rw [Array.getElem?_push_lt hi, Array.getElem?_eq_getElem hi]

end Neighbours

end LiveBindings
