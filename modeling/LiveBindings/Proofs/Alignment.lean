import LiveBindings.Proofs.CellSteps
import LiveBindings.Proofs.Neighbours
import LiveBindings.Proofs.Spans

/-!
# Relations stay aligned with the elements

Relations keep an entry for each element of a list that is spliced and reset. In a `Play` nothing is known of the expression that they
evaluate but what it hands over: any values while an entry is being started, and between two calls any value for any entry, also for
one that was removed. The program keeps a `Journal` of what was handed over, of the updates that it was told, and of what it started
and cancelled.

Whatever is asked of the relations in whatever order (`Move`), after every call and every value they are `Aligned`: the entries have
the elements of the list, know where they stand and what was handed over for them last, the updates are those that are `due`, and
what was cancelled are the entries that are gone, each of them once (`stay_aligned`).
-/

namespace LiveBindings

namespace Alignment

open Relations

/-- A value is handed over for an entry. -/
structure Emission where
  entry : Ref .entry
  value : Value
  /-- Whether the entry had been started by then. -/
  started : Bool
  /-- Where the entry stood among the entries. -/
  place : Option Nat
deriving DecidableEq

/-- An update, as the owner of the relations is told it. -/
structure Update where
  index : Nat
  old : Value
  new : Value
deriving DecidableEq

/-- What a program notes of its relations, the latest first. -/
structure Journal where
  emissions : List Emission := []
  updates : List Update := []
  started : List (Ref .entry) := []
  cancelled : List (Ref .entry) := []

/-- The world of a program that keeps a journal. -/
abbrev Scene := World (Callback (Ref .entry)) (Env (Ref .entry) Journal)

/-- The values that were handed over for an entry, the latest first. -/
def values (e : Ref .entry) (ms : List Emission) : List Value := (ms.filter (·.entry = e)).map (·.value)

/-- The last value that was handed over for an entry. -/
def latest (e : Ref .entry) (ms : List Emission) : Value := (values e ms).headD .undefined

/-- The updates that follow from values: one for each value of an entry that had been started and was present, if it is not the same
as the one before, with the place of the entry then. -/
def due : List Emission → List Update
  | [] => []
  | m :: ms =>
    match m.place with
    | some i => if m.started && !(latest m.entry ms).same m.value then ⟨i, latest m.entry ms, m.value⟩ :: due ms else due ms
    | none => due ms

/-- The program notes an update. -/
def note (index : Nat) (old new : Value) : Live (Ref .entry) Journal Unit :=
  modifyHost fun j => { j with updates := ⟨index, old, new⟩ :: j.updates }

/-- A value is handed over for an entry. -/
def hand (r : Ref .relations) (e : Ref .entry) (v : Value) : Live (Ref .entry) Journal Unit := do
  let place := ((← cells).relationsCell r).entries.idxOf? e
  modifyHost fun j => { j with emissions := ⟨e, v, j.started.contains e, place⟩ :: j.emissions }
  receive note r e v

def handEach (r : Ref .relations) (e : Ref .entry) : List Value → Live (Ref .entry) Journal Unit
  | [] => pure ()
  | v :: vs => do
    hand r e v
    handEach r e vs

/-- What is asked of relations, or done by one of them. -/
inductive Move
  | splice (index removed : Nat) (plus : List Value)
  | reset (items : List Value)
  | emit (e : Ref .entry) (v : Value)

/-- The elements after a move. -/
def Move.mirror (items : List Value) : Move → List Value
  | splice index removed plus => replaceRun items index removed plus
  | reset next => next
  | emit _ _ => items

/-- The elements after moves that begin with none. -/
def mirrored (moves : List Move) : List Value := moves.foldl Move.mirror []

/-- What relations evaluate, and the values that an evaluation hands over while an entry is being started. -/
structure Play where
  relation : Expr
  scope : Scope
  script : Expr → Scope → Ref .entry → List Value

/-- The values that are handed over while an entry is being started for an element. -/
def Play.opening (P : Play) (e : Ref .entry) (input : Value) : List Value := P.script P.relation (P.scope.nest input) e

/-- A program whose relations hand over the values of a script while an entry is being started. -/
def scripted (script : Expr → Scope → Ref .entry → List Value) : Engine (Ref .entry) Journal where
  fire _ _ := pure ()
  letGo := pure ()
  emit _ _ := pure ()
  react _ _ := pure ()
  start x sink scope :=
    match sink with
    | .result r e => do
      handEach r e (script x scope e)
      modifyHost fun j => { j with started := e :: j.started }
      return .user e
    | _ => return .done
  cancel
    | .user e => modifyHost fun j => { j with cancelled := e :: j.cancelled }
    | _ => pure ()

/-- A move is made. An entry that was never started has no relation that could hand over a value. -/
def Move.run (E : Engine (Ref .entry) Journal) (r : Ref .relations) : Move → Live (Ref .entry) Journal Unit
  | splice index removed plus => discard (Relations.splice E r index removed plus)
  | reset items => discard (Relations.reset E r items)
  | emit e v => do
    if e ∈ (← host).started then hand r e v

/-- Moves are made one after the other. -/
def perform (E : Engine (Ref .entry) Journal) (r : Ref .relations) : List Move → Live (Ref .entry) Journal Unit
  | [] => pure ()
  | m :: ms => do
    m.run E r
    perform E r ms

variable {w w' w'' : Scene} {r : Ref .relations} {e : Ref .entry} {S S' : Set (Ref .entry)} {items : List Value} {P : Play}

/-- The entries now. -/
abbrev present (r : Ref .relations) (w : Scene) : List (Ref .entry) := (w.env.cells.relationsCell r).entries

/-- Relations are aligned with a list of elements. -/
structure Aligned (P : Play) (r : Ref .relations) (items : List Value) (w : Scene) : Prop where
  inputs : (present r w).map (fun e => (w.env.cells.entry e).input) = items
  /-- An entry knows where it stands. -/
  index : ∀ i e, (present r w)[i]? = some e → (w.env.cells.entry e).index = i
  /-- The first values that were handed over for an entry are those of the expression for its element. -/
  ran : ∀ e ∈ present r w, (P.opening e (w.env.cells.entry e).input).reverse <:+ values e w.env.host.emissions
  output : ∀ e ∈ present r w, (w.env.cells.entry e).output = latest e w.env.host.emissions
  /-- The owner was told what is due and nothing else. -/
  updates : w.env.host.updates = due w.env.host.emissions
  started : ∀ e ∈ present r w, e ∈ w.env.host.started
  /-- The handle of an entry that was removed has been taken down, once. -/
  cancelled : ∀ e ∈ w.env.host.started, e ∉ present r w → w.env.host.cancelled.count e = 1
  spared : ∀ e ∈ w.env.host.cancelled, e ∈ w.env.host.started ∧ e ∉ present r w

/-! ## What is left alone -/

/-- Of the entries that are not among `S`, nothing was noted, and their cells are the same. -/
structure Keeps (S : Set (Ref .entry)) (w w' : Scene) : Prop where
  size : w.env.cells.entries.size ≤ w'.env.cells.entries.size
  entry : ∀ e ∉ S, w'.env.cells.entry e = w.env.cells.entry e
  values : ∀ e ∉ S, values e w'.env.host.emissions = values e w.env.host.emissions
  started : ∀ e ∉ S, e ∈ w'.env.host.started ↔ e ∈ w.env.host.started
  cancelled : ∀ e ∉ S, e ∈ w'.env.host.cancelled ↔ e ∈ w.env.host.cancelled

namespace Keeps

theorem refl (S : Set (Ref .entry)) (w : Scene) : Keeps S w w :=
  ⟨le_rfl, fun _ _ => rfl, fun _ _ => rfl, fun _ _ => Iff.rfl, fun _ _ => Iff.rfl⟩

theorem trans (h : Keeps S w w') (h' : Keeps S w' w'') : Keeps S w w'' where
  size := h.size.trans h'.size
  entry e he := (h'.entry e he).trans (h.entry e he)
  values e he := (h'.values e he).trans (h.values e he)
  started e he := (h'.started e he).trans (h.started e he)
  cancelled e he := (h'.cancelled e he).trans (h.cancelled e he)

theorem same (hc : w'.env.cells.entries = w.env.cells.entries) (hj : w'.env.host = w.env.host) : Keeps S w w' where
  size := by rw [hc]
  entry _ _ := by rw [Cells.entry, hc]; rfl
  values _ _ := by rw [hj]
  started _ _ := by rw [hj]
  cancelled _ _ := by rw [hj]

theorem mono (h : Keeps S w w') (hS : S ⊆ S') : Keeps S' w w' where
  size := h.size
  entry e he := h.entry e fun hm => he (hS hm)
  values e he := h.values e fun hm => he (hS hm)
  started e he := h.started e fun hm => he (hS hm)
  cancelled e he := h.cancelled e fun hm => he (hS hm)

/-- The elements of entries that are not among `S`. -/
theorem inputs {es : List (Ref .entry)} (h : Keeps S w w') (hes : ∀ e ∈ es, e ∉ S) :
    es.map (fun e => (w'.env.cells.entry e).input) = es.map (fun e => (w.env.cells.entry e).input) :=
  List.map_congr_left fun e he => by rw [h.entry e (hes e he)]

end Keeps

theorem relationsCell_congr (h : w'.env.cells.relations = w.env.cells.relations) :
    w'.env.cells.relationsCell r = w.env.cells.relationsCell r := by
  rw [Cells.relationsCell, h]
  rfl

theorem present_congr (h : w'.env.cells.relations = w.env.cells.relations) : present r w' = present r w :=
  congrArg Relations.entries (relationsCell_congr h)

/-- The relations are there, and evaluate what they should. -/
structure Staged (P : Play) (r : Ref .relations) (w : Scene) : Prop where
  made : r.index < w.env.cells.relations.size
  relation : (w.env.cells.relationsCell r).relation = P.relation
  scope : (w.env.cells.relationsCell r).scope = P.scope

theorem Staged.congr (h : Staged P r w) (h' : w'.env.cells.relations = w.env.cells.relations) : Staged P r w' where
  made := h'.symm ▸ h.made
  relation := by rw [relationsCell_congr h', h.relation]
  scope := by rw [relationsCell_congr h', h.scope]

/-- The journal is kept: it has the updates that are due, and nothing of an entry before the entry. -/
structure Kept (w : Scene) : Prop where
  updates : w.env.host.updates = due w.env.host.emissions
  emitted : ∀ m ∈ w.env.host.emissions, m.entry.index < w.env.cells.entries.size
  started : ∀ e ∈ w.env.host.started, e.index < w.env.cells.entries.size
  cancelled : ∀ e ∈ w.env.host.cancelled, e ∈ w.env.host.started
  once : w.env.host.cancelled.Nodup

theorem Kept.same (h : Kept w) (hs : w'.env.cells.entries.size = w.env.cells.entries.size) (hj : w'.env.host = w.env.host) :
    Kept w' := by
  obtain ⟨updates, emitted, started, cancelled, once⟩ := h
  rw [← hj] at updates emitted started cancelled once
  rw [← hs] at emitted started
  exact ⟨updates, emitted, started, cancelled, once⟩

/-- A value of an entry is noted, and the update that is due for it. -/
theorem Kept.told {m : Emission} {us : List Update} (h : Kept w) (made : m.entry.index < w.env.cells.entries.size)
    (hus : us = due (m :: w.env.host.emissions)) :
    Kept { w with env := { w.env with host := { w.env.host with emissions := m :: w.env.host.emissions, updates := us } } } where
  updates := hus
  emitted m' hm := by
    rcases List.mem_cons.1 hm with rfl | hm
    · exact made
    · exact h.emitted m' hm
  started := h.started
  cancelled := h.cancelled
  once := h.once

/-- The relation of an entry has been started and was not cancelled. -/
structure Runs (P : Play) (e : Ref .entry) (w : Scene) : Prop where
  made : e.index < w.env.cells.entries.size
  ran : (P.opening e (w.env.cells.entry e).input).reverse <:+ values e w.env.host.emissions
  output : (w.env.cells.entry e).output = latest e w.env.host.emissions
  started : (w.env.cells.entry e).started = true
  handle : (w.env.cells.entry e).cancel = .user e
  noted : e ∈ w.env.host.started
  spared : e ∉ w.env.host.cancelled

theorem Runs.keeps (h : Runs P e w) (h' : Keeps S w w') (he : e ∉ S) : Runs P e w' where
  made := h.made.trans_le h'.size
  ran := by
    rw [h'.entry e he, h'.values e he]
    exact h.ran
  output := by rw [h'.entry e he, latest, h'.values e he, h.output, latest]
  started := by rw [h'.entry e he, h.started]
  handle := by rw [h'.entry e he, h.handle]
  noted := (h'.started e he).2 h.noted
  spared := fun hc => h.spared ((h'.cancelled e he).1 hc)

/-! ## Cells and notes -/

/-- The cell of an entry is changed. -/
abbrev withEntry (w : Scene) (e : Ref .entry) (f : Entry (Ref .entry) → Entry (Ref .entry)) : Scene :=
  w.withCells { w.env.cells with entries := w.env.cells.entries.modify e.index f }

/-- The program makes notes. -/
abbrev noting (w : Scene) (j : Journal) : Scene :=
  { w with env := { w.env with host := j } }

theorem entry_withEntry (made : e.index < w.env.cells.entries.size) (f : Entry (Ref .entry) → Entry (Ref .entry)) (e' : Ref .entry) :
    (withEntry w e f).env.cells.entry e' = if e' = e then f (w.env.cells.entry e) else w.env.cells.entry e' := by
  simp only [World.withCells, Cells.entry, Array.getD_eq_getD_getElem?, Array.getElem?_modify]
  by_cases he : e' = e
  · subst he
    simp [Array.getElem?_eq_getElem made]
  · have hi : e.index ≠ e'.index := fun h => he (Ref.index_inj.1 h.symm)
    simp [he, hi]

theorem ends_modifyCells {f : Cells (Ref .entry) → Cells (Ref .entry)} {Q : PUnit → Scene → Prop} :
    (modifyCells f : Live (Ref .entry) Journal Unit).Ends w Q ↔ Q ⟨⟩ (w.withCells (f w.env.cells)) := Iff.rfl

theorem ends_modifyEntry {f : Entry (Ref .entry) → Entry (Ref .entry)} {Q : PUnit → Scene → Prop} :
    (modifyEntry e f).Ends w Q ↔ Q ⟨⟩ (withEntry w e f) := Iff.rfl

theorem ends_modifyHost {f : Journal → Journal} {Q : PUnit → Scene → Prop} :
    (modifyHost f : Live (Ref .entry) Journal Unit).Ends w Q ↔ Q ⟨⟩ (noting w (f w.env.host)) := Iff.rfl

/-! ## A value is handed over -/

/-- What is noted of a value. -/
def emission (w : Scene) (r : Ref .relations) (e : Ref .entry) (v : Value) : Emission :=
  ⟨e, v, w.env.host.started.contains e, (present r w).idxOf? e⟩

/-- The world after a value for an entry that exists. -/
def handed (w : Scene) (r : Ref .relations) (e : Ref .entry) (v : Value) : Scene :=
  let c := w.env.cells.entry e
  noting (withEntry w e fun c => { c with output := v }) { w.env.host with
    emissions := emission w r e v :: w.env.host.emissions
    updates := if c.started && !c.output.same v then ⟨c.index, c.output, v⟩ :: w.env.host.updates else w.env.host.updates }

/-- A value for an entry that exists is taken. -/
theorem ends_hand_alive {v : Value} {Q : PUnit → Scene → Prop} (made : e.index < w.env.cells.entries.size)
    (alive : isAlive w.env.cells r e = true) : (hand r e v).Ends w Q ↔ Q ⟨⟩ (handed w r e v) := by
  have alive' {j : Journal} : isAlive (noting w j).env.cells r e = true := alive
  simp only [hand, receive, Run.ends_bind, ends_envCells, ends_modifyHost, alive', if_true]
  simp only [keepingHeldEntries, holdEntries, note, Run.ends_bind, ends_envCells, Run.ends_restoring, ends_modifyCells,
    ends_modifyEntry]
  rw [entry_withEntry (by exact made), if_pos rfl]
  -- the output is replaced before the old one is compared with it, but the old one was read before that
  change Run.Ends (if (w.env.cells.entry e).started && !(w.env.cells.entry e).output.same v then _ else _) _ _ ↔ _
  by_cases told : ((w.env.cells.entry e).started && !(w.env.cells.entry e).output.same v) = true
  · simp only [handed, told, if_true]
    exact Iff.rfl
  · simp only [handed, told]
    exact Iff.rfl

/-- A value for an entry that is gone is dropped. -/
theorem ends_hand_gone {v : Value} {Q : PUnit → Scene → Prop} (gone : isAlive w.env.cells r e = false) :
    (hand r e v).Ends w Q ↔ Q ⟨⟩ (noting w { w.env.host with emissions := emission w r e v :: w.env.host.emissions }) := by
  have gone' {j : Journal} : isAlive (noting w j).env.cells r e = false := gone
  simp only [hand, receive, Run.ends_bind, ends_envCells, ends_modifyHost, gone']
  exact Iff.rfl

theorem values_handed (v : Value) :
    values e (handed w r e v).env.host.emissions = v :: values e w.env.host.emissions := by
  simp [values, handed, emission]

theorem values_of_ne {m : Emission} (h : m.entry ≠ e) (ms : List Emission) : values e (m :: ms) = values e ms := by
  simp [values, h]

theorem latest_handed (v : Value) : latest e (handed w r e v).env.host.emissions = v := by
  rw [latest, values_handed, List.headD_cons]

/-- A value concerns its own entry only. -/
theorem handed_keeps (made : e.index < w.env.cells.entries.size) (v : Value) : Keeps {e} w (handed w r e v) where
  size := (Array.size_modify ..).ge
  entry _ he := (entry_withEntry made _ _).trans (if_neg he)
  values _ he := values_of_ne (m := emission w r e v) (fun h => he h.symm) _
  started _ _ := Iff.rfl
  cancelled _ _ := Iff.rfl

theorem entry_handed (made : e.index < w.env.cells.entries.size) (v : Value) :
    (handed w r e v).env.cells.entry e = { w.env.cells.entry e with output := v } :=
  (entry_withEntry made _ e).trans (if_pos rfl)

/-- An entry that runs goes on running, with the value. -/
theorem Runs.handed (h : Runs P e w) (v : Value) : Runs P e (handed w r e v) where
  made := h.made.trans_le (handed_keeps h.made v).size
  ran := by
    rw [entry_handed h.made, values_handed]
    exact h.ran.trans (List.suffix_cons _ _)
  output := by rw [entry_handed h.made, latest_handed]
  started := by rw [entry_handed h.made, h.started]
  handle := by rw [entry_handed h.made, h.handle]
  noted := h.noted
  spared := h.spared

/-- The values of an entry that has not been started are noted and nothing else. -/
structure Opened (e : Ref .entry) (vs : List Value) (w w' : Scene) : Prop where
  keeps : Keeps {e} w w'
  values : values e w'.env.host.emissions = vs.reverse ++ values e w.env.host.emissions
  size : w'.env.cells.entries.size = w.env.cells.entries.size
  relations : w'.env.cells.relations = w.env.cells.relations
  held : w'.env.cells.heldEntries = w.env.cells.heldEntries
  cell : w'.env.cells.entry e = { w.env.cells.entry e with output := latest e w'.env.host.emissions }
  emitted : ∀ m ∈ w'.env.host.emissions, m ∈ w.env.host.emissions ∨ m.entry = e
  due : due w'.env.host.emissions = due w.env.host.emissions
  updates : w'.env.host.updates = w.env.host.updates
  started : w'.env.host.started = w.env.host.started
  cancelled : w'.env.host.cancelled = w.env.host.cancelled

theorem Opened.trans {vs vs' : List Value} (h : Opened e vs w w') (h' : Opened e vs' w' w'') : Opened e (vs ++ vs') w w'' where
  keeps := h.keeps.trans h'.keeps
  values := by rw [h'.values, h.values, List.reverse_append, List.append_assoc]
  size := h'.size.trans h.size
  relations := h'.relations.trans h.relations
  held := h'.held.trans h.held
  cell := by rw [h'.cell, h.cell]
  emitted m hm := (h'.emitted m hm).elim (h.emitted m) .inr
  due := h'.due.trans h.due
  updates := h'.updates.trans h.updates
  started := h'.started.trans h.started
  cancelled := h'.cancelled.trans h.cancelled

/-- An entry that is being started: it is held, stands nowhere yet, and has the value that was handed over last. -/
structure Opening (r : Ref .relations) (e : Ref .entry) (w : Scene) : Prop where
  made : e.index < w.env.cells.entries.size
  held : e ∈ w.env.cells.heldEntries
  absent : e ∉ present r w
  waits : (w.env.cells.entry e).started = false
  output : (w.env.cells.entry e).output = latest e w.env.host.emissions

theorem Opening.opened {vs : List Value} (h : Opening r e w) (h' : Opened e vs w w') : Opening r e w' where
  made := h'.size ▸ h.made
  held := h'.held ▸ h.held
  absent := by
    rw [present_congr h'.relations]
    exact h.absent
  waits := by rw [h'.cell, h.waits]
  output := by rw [h'.cell]

/-- A value of an entry that is being started. -/
theorem Opening.hand (h : Opening r e w) (v : Value) : Opened e [v] w (handed w r e v) where
  keeps := handed_keeps h.made v
  values := values_handed v
  size := Array.size_modify ..
  relations := rfl
  held := rfl
  cell := by rw [entry_handed h.made, latest_handed]
  emitted m hm := by
    rcases List.mem_cons.1 hm with rfl | hm
    · exact .inr rfl
    · exact .inl hm
  due := by
    have hplace : (emission w r e v).place = none := List.idxOf?_eq_none_iff.2 h.absent
    change due (emission w r e v :: _) = _
    rw [Alignment.due, hplace]
  updates := by simp [handed, h.waits]
  started := rfl
  cancelled := rfl

theorem handEach_opened (h : Opening r e w) (vs : List Value) : (handEach r e vs).Ends w fun _ w' => Opened e vs w w' := by
  induction vs generalizing w with
  | nil => exact ⟨.refl _ _, rfl, rfl, rfl, rfl, by rw [← h.output], fun _ => .inl, rfl, rfl, rfl, rfl⟩
  | cons v vs ih =>
    have alive : isAlive w.env.cells r e = true := by
      rw [isAlive, Bool.or_eq_true]
      exact .inr (List.contains_iff_mem.2 h.held)
    rw [handEach, Run.ends_bind, ends_hand_alive h.made alive]
    exact (ih (h.opened (h.hand v))).imp fun _ _ h' => (h.hand v).trans h'

theorem Kept.opened {vs : List Value} (h : Kept w) (h' : Opened e vs w w') (made : e.index < w.env.cells.entries.size) : Kept w' where
  updates := by rw [h'.updates, h'.due, h.updates]
  emitted m hm := by
    rw [h'.size]
    rcases h'.emitted m hm with hm | rfl
    · exact h.emitted m hm
    · exact made
  started := by
    rw [h'.started, h'.size]
    exact h.started
  cancelled := by
    rw [h'.started, h'.cancelled]
    exact h.cancelled
  once := h'.cancelled ▸ h.once

/-! ## An entry is started -/

/-- A new entry is held. -/
def entering (w : Scene) (c : Entry (Ref .entry)) : Scene :=
  w.withCells { w.env.cells with
    entries := w.env.cells.entries.push c
    heldEntries := [⟨w.env.cells.entries.size⟩] ++ w.env.cells.heldEntries }

/-- The next entry. -/
abbrev next (w : Scene) : Ref .entry := ⟨w.env.cells.entries.size⟩

theorem entry_entering (w : Scene) (c : Entry (Ref .entry)) (e : Ref .entry) :
    (entering w c).env.cells.entry e = if e = next w then c else w.env.cells.entry e := by
  simp only [entering, World.withCells, Cells.entry, Array.getD_eq_getD_getElem?, Array.getElem?_push, ← Ref.index_inj]
  split <;> rfl

theorem size_entering (w : Scene) (c : Entry (Ref .entry)) :
    (entering w c).env.cells.entries.size = w.env.cells.entries.size + 1 := Array.size_push ..

theorem entering_keeps (w : Scene) (c : Entry (Ref .entry)) : Keeps {next w} w (entering w c) where
  size := (size_entering w c).ge.trans' (Nat.le_succ _)
  entry e he := (entry_entering w c e).trans (if_neg he)
  values _ _ := rfl
  started _ _ := Iff.rfl
  cancelled _ _ := Iff.rfl

theorem Kept.entering (h : Kept w) (c : Entry (Ref .entry)) : Kept (entering w c) where
  updates := h.updates
  emitted m hm := (h.emitted m hm).trans_le (entering_keeps w c).size
  started e he := (h.started e he).trans_le (entering_keeps w c).size
  cancelled := h.cancelled
  once := h.once

/-- Nothing was handed over for an entry before it was made. -/
theorem Kept.values_next (h : Kept w) : values (next w) w.env.host.emissions = [] := by
  have hnone : w.env.host.emissions.filter (·.entry = next w) = [] := by
    refine List.filter_eq_nil_iff.2 fun m hm he => ?_
    exact (h.emitted m hm).ne (Ref.index_inj.2 (of_decide_eq_true he))
  rw [values, hnone, List.map_nil]

theorem Kept.opening (h : Kept w) (hr : ∀ e ∈ present r w, e.index < w.env.cells.entries.size) (index : Nat) (input : Value) :
    Opening r (next w) (Alignment.entering w { index, input }) where
  made := (size_entering ..).symm ▸ Nat.lt_succ_self _
  held := List.mem_cons_self ..
  absent hm := (hr _ hm).false
  waits := by rw [entry_entering, if_pos rfl]
  output := by
    rw [entry_entering, if_pos rfl]
    have hnone := h.values_next
    exact (congrArg (·.headD .undefined) hnone).symm

/-- An entry has been started: nothing but the entry has changed. -/
structure Entered (P : Play) (input : Value) (e : Ref .entry) (w w' : Scene) : Prop where
  fresh : e = next w
  size : w'.env.cells.entries.size = w.env.cells.entries.size + 1
  relations : w'.env.cells.relations = w.env.cells.relations
  keeps : Keeps {e} w w'
  kept : Kept w'
  runs : Runs P e w'
  input : (w'.env.cells.entry e).input = input

/-- The entry is started, and its handle is kept. -/
def entered (w : Scene) (e : Ref .entry) : Scene :=
  withEntry (withEntry (noting w { w.env.host with started := e :: w.env.host.started }) e fun c => { c with started := true }) e
    fun c => { c with cancel := .user e }

theorem entry_entered (made : e.index < w.env.cells.entries.size) (e' : Ref .entry) : (entered w e).env.cells.entry e' =
    if e' = e then { w.env.cells.entry e with started := true, cancel := .user e } else w.env.cells.entry e' := by
  have made' : e.index < (w.env.cells.entries.modify e.index fun c => { c with started := true }).size :=
    made.trans_eq (Array.size_modify ..).symm
  have hcell : (entered w e).env.cells.entry e' = _ := entry_withEntry made' _ e'
  have hold (e' : Ref .entry) := entry_withEntry (w := noting w { w.env.host with started := e :: w.env.host.started }) made
    (fun c => { c with started := true }) e'
  rw [hcell, hold, hold, if_pos rfl]
  split <;> rfl

theorem size_entered : (entered w e).env.cells.entries.size = w.env.cells.entries.size := by
  simp [entered, World.withCells]

theorem entered_keeps (made : e.index < w.env.cells.entries.size) : Keeps {e} w (entered w e) where
  size := size_entered.ge
  entry _ he := (entry_entered made _).trans (if_neg he)
  values _ _ := rfl
  started e' he := by
    refine List.mem_cons.trans (or_iff_right ?_)
    exact he
  cancelled _ _ := Iff.rfl

theorem Kept.entered (h : Kept w) (made : e.index < w.env.cells.entries.size) : Kept (entered w e) where
  updates := h.updates
  emitted m hm := size_entered.symm ▸ h.emitted m hm
  started e' he := by
    rw [size_entered]
    rcases List.mem_cons.1 he with rfl | he
    · exact made
    · exact h.started e' he
  cancelled e' he := List.mem_cons_of_mem _ (h.cancelled e' he)
  once := h.once

theorem startEntry_entered (h : Kept w) (staged : Staged P r w) (hr : ∀ e ∈ present r w, e.index < w.env.cells.entries.size)
    (index : Nat) (input : Value) :
    (startEntry (scripted P.script) r index input).Ends w fun e w' => Entered P input e w w' := by
  -- what was noted before is of entries with lower numbers, and the new one stands nowhere before it has been started
  have opening := h.opening hr index input
  simp only [startEntry, scripted, Run.ends_bind, Run.ends_pure, ends_envCells]
  change (handEach r (next w) _).Ends (Alignment.entering w { index, input }) _
  refine (handEach_opened opening _).imp fun _ w₂ opened => ?_
  change Entered P input (next w) w (Alignment.entered w₂ (next w))
  have made : (next w).index < w₂.env.cells.entries.size := (opening.opened opened).made
  have kept : Kept w₂ := (h.entering _).opened opened opening.made
  have hcell := entry_entered made (next w)
  rw [if_pos rfl, opened.cell, entry_entering, if_pos rfl] at hcell
  refine ⟨rfl, ?_, ?_, ?_, kept.entered made, ⟨?_, ?_, ?_, ?_, ?_, ?_, ?_⟩, ?_⟩
  · rw [size_entered, opened.size, size_entering]
  · exact opened.relations
  · exact ((entering_keeps w _).trans opened.keeps).trans (entered_keeps made)
  · exact made.trans_eq size_entered.symm
  · have hvalues : values (next w) w₂.env.host.emissions = _ := opened.values.trans (congrArg _ h.values_next)
    rw [staged.relation, staged.scope, List.append_nil] at hvalues
    rw [hcell]
    exact hvalues ▸ List.suffix_refl _
  · rw [hcell]
    rfl
  · rw [hcell]
  · rw [hcell]
  · exact List.mem_cons_self ..
  · intro hc
    have hold : next w ∈ w.env.host.started := by
      have hs := kept.cancelled _ hc
      rwa [opened.started] at hs
    exact (h.started _ hold).false
  · rw [hcell]

/-- The entries from a number on. -/
abbrev since (n : Nat) : Set (Ref .entry) := {e | n ≤ e.index}

/-- Entries have been started: nothing but them has changed. -/
structure AllEntered (P : Play) (plus : List Value) (es : List (Ref .entry)) (w w' : Scene) : Prop where
  relations : w'.env.cells.relations = w.env.cells.relations
  keeps : Keeps (since w.env.cells.entries.size) w w'
  kept : Kept w'
  nodup : es.Nodup
  fresh : ∀ e ∈ es, w.env.cells.entries.size ≤ e.index
  all : ∀ e, w.env.cells.entries.size ≤ e.index → e.index < w'.env.cells.entries.size → e ∈ es
  runs : ∀ e ∈ es, Runs P e w'
  inputs : es.map (fun e => (w'.env.cells.entry e).input) = plus

theorem startEntries_entered (h : Kept w) (staged : Staged P r w) (hr : ∀ e ∈ present r w, e.index < w.env.cells.entries.size)
    (index : Nat) (plus : List Value) :
    (startEntries (scripted P.script) r index plus).Ends w fun es w' => AllEntered P plus es w w' := by
  induction plus generalizing w index with
  | nil =>
    exact ⟨rfl, .refl _ _, h, List.nodup_nil, nofun, fun e he he' => absurd he' he.not_gt, nofun, rfl⟩
  | cons v vs ih =>
    simp only [startEntries, Run.ends_bind, Run.ends_pure]
    refine (startEntry_entered h staged hr index v).imp fun e w₁ h₁ => ?_
    have hr₁ : ∀ e ∈ present r w₁, e.index < w₁.env.cells.entries.size := fun e he =>
      (hr e (present_congr h₁.relations ▸ he)).trans_le h₁.keeps.size
    refine (ih h₁.kept (staged.congr h₁.relations) hr₁ (index + 1)).imp fun es w₂ h₂ => ?_
    have hindex : e.index = w.env.cells.entries.size := congrArg Ref.index h₁.fresh
    have hsize := h₁.size
    have hout : e ∉ since w₁.env.cells.entries.size := fun hm => by
      have hm : w₁.env.cells.entries.size ≤ e.index := hm
      omega
    have hsince : since w₁.env.cells.entries.size ⊆ since w.env.cells.entries.size := fun e he => h₁.keeps.size.trans he
    refine ⟨h₂.relations.trans h₁.relations, ?_, h₂.kept, ?_, ?_, ?_, ?_, ?_⟩
    · refine (h₁.keeps.mono ?_).trans (h₂.keeps.mono hsince)
      rintro _ rfl
      exact hindex.ge
    · exact List.nodup_cons.2 ⟨fun hm => hout (h₂.fresh e hm), h₂.nodup⟩
    · intro e' he'
      rcases List.mem_cons.1 he' with rfl | he'
      · exact hindex.ge
      · exact h₁.keeps.size.trans (h₂.fresh e' he')
    · intro e' hlow hhigh
      by_cases he' : e' = e
      · exact he' ▸ List.mem_cons_self ..
      · refine List.mem_cons_of_mem _ (h₂.all e' ?_ hhigh)
        have hne : e'.index ≠ e.index := fun hi => he' (Ref.index_inj.1 hi)
        omega
    · intro e' he'
      rcases List.mem_cons.1 he' with rfl | he'
      · exact h₁.runs.keeps h₂.keeps hout
      · exact h₂.runs e' he'
    · rw [List.map_cons, h₂.inputs, h₂.keeps.entry e hout, h₁.input]

/-! ## Entries are cancelled -/

/-- Entries have been cancelled. -/
structure AllCancelled (es : List (Ref .entry)) (w w' : Scene) : Prop where
  size : w'.env.cells.entries.size = w.env.cells.entries.size
  relations : w'.env.cells.relations = w.env.cells.relations
  keeps : Keeps {e | e ∈ es} w w'
  kept : Kept w'
  cancelled : ∀ e ∈ es, e ∈ w'.env.host.cancelled

/-- The handle of an entry is taken down. -/
def dropped (w : Scene) (e : Ref .entry) : Scene :=
  noting (withEntry w e fun c => { c with cancel := .done }) { w.env.host with cancelled := e :: w.env.host.cancelled }

theorem size_dropped : (dropped w e).env.cells.entries.size = w.env.cells.entries.size := Array.size_modify ..

theorem Runs.keeps_dropped (h : Runs P e w) : Keeps {e} w (dropped w e) where
  size := size_dropped.ge
  entry _ he := (entry_withEntry h.made _ _).trans (if_neg he)
  values _ _ := rfl
  started _ _ := Iff.rfl
  cancelled _ he := List.mem_cons.trans (or_iff_right he)

theorem Kept.dropped (h : Kept w) (runs : Runs P e w) : Kept (dropped w e) where
  updates := h.updates
  emitted m hm := size_dropped.symm ▸ h.emitted m hm
  started e he := size_dropped.symm ▸ h.started e he
  cancelled e' he := by
    rcases List.mem_cons.1 he with rfl | he
    · exact runs.noted
    · exact h.cancelled e' he
  once := List.nodup_cons.2 ⟨runs.spared, h.once⟩

theorem cancelEntries_cancelled {es : List (Ref .entry)} (h : Kept w) (hes : es.Nodup) (runs : ∀ e ∈ es, Runs P e w) :
    (cancelEntries (scripted P.script) es).Ends w fun _ w' => AllCancelled es w w' := by
  induction es generalizing w with
  | nil => exact ⟨rfl, rfl, .refl _ _, h, nofun⟩
  | cons e es ih =>
    have runs₀ : Runs P e w := runs e (List.mem_cons_self ..)
    obtain ⟨hout, hes⟩ := List.nodup_cons.1 hes
    have hkeeps : Keeps {e} w (dropped w e) := runs₀.keeps_dropped
    have runs₁ : ∀ e' ∈ es, Runs P e' (dropped w e) := fun e' he' =>
      (runs e' (List.mem_cons_of_mem _ he')).keeps hkeeps fun he => hout (he ▸ he')
    simp only [cancelEntries, takeEntryCancel, Run.ends_bind, ends_envCells, ends_modifyEntry, Run.ends_pure, runs₀.handle]
    change (cancelEntries _ es).Ends (dropped w e) _
    refine (ih (h.dropped runs₀) hes runs₁).imp fun _ w' h' => ?_
    refine ⟨h'.size.trans size_dropped, h'.relations, (hkeeps.mono ?_).trans (h'.keeps.mono ?_), h'.kept, ?_⟩
    · rintro _ rfl
      exact List.mem_cons_self ..
    · exact fun e' he' => List.mem_cons_of_mem _ he'
    · intro e' he'
      rcases List.mem_cons.1 he' with rfl | he'
      · exact (h'.keeps.cancelled e' hout).2 (List.mem_cons_self ..)
      · exact h'.cancelled e' he'

/-! ## Entries are numbered -/

/-- Entries know where they stand, from an index on, and nothing else has changed. -/
structure Numbered (index : Nat) (es : List (Ref .entry)) (w w' : Scene) : Prop where
  relations : w'.env.cells.relations = w.env.cells.relations
  size : w'.env.cells.entries.size = w.env.cells.entries.size
  host : w'.env.host = w.env.host
  index : ∀ i e, es[i]? = some e → (w'.env.cells.entry e).index = index + i
  others : ∀ e ∉ es, w'.env.cells.entry e = w.env.cells.entry e
  cell : ∀ e, w'.env.cells.entry e = { w.env.cells.entry e with index := (w'.env.cells.entry e).index }

theorem number_numbered {es : List (Ref .entry)} (hes : es.Nodup) (made : ∀ e ∈ es, e.index < w.env.cells.entries.size) (index : Nat) :
    (number index es).Ends w fun _ w' => Numbered index es w w' := by
  induction es generalizing w index with
  | nil => exact ⟨rfl, rfl, rfl, nofun, fun _ _ => rfl, fun _ => rfl⟩
  | cons e es ih =>
    obtain ⟨hout, hes⟩ := List.nodup_cons.1 hes
    have made₀ := made e (List.mem_cons_self ..)
    have hcell := entry_withEntry made₀ fun c => { c with index }
    have made₁ : ∀ e' ∈ es, e'.index < (withEntry w e fun c => { c with index }).env.cells.entries.size := fun e' he' =>
      (made e' (List.mem_cons_of_mem _ he')).trans_eq (Array.size_modify ..).symm
    rw [number, Run.ends_bind, ends_modifyEntry]
    refine (ih hes made₁ (index + 1)).imp fun _ w' h' => ?_
    refine ⟨h'.relations, h'.size.trans (Array.size_modify ..), h'.host, ?_, ?_, ?_⟩
    · intro i e' hi
      cases i with
      | zero =>
        obtain rfl : e = e' := by simpa using hi
        rw [h'.others e hout, hcell, if_pos rfl]
        rfl
      | succ i =>
        rw [h'.index i e' hi]
        omega
    · intro e' he'
      rw [List.mem_cons, not_or] at he'
      rw [h'.others e' he'.2, hcell, if_neg he'.1]
    · intro e'
      rw [h'.cell e', hcell]
      split
      · rename_i he
        rw [he]
      · rfl

theorem Runs.numbered {es : List (Ref .entry)} {index : Nat} (h : Runs P e w) (h' : Numbered index es w w') : Runs P e w' where
  made := h'.size.symm ▸ h.made
  ran := by
    rw [h'.cell, h'.host]
    exact h.ran
  output := by rw [h'.cell, h'.host, h.output]
  started := by rw [h'.cell, h.started]
  handle := by rw [h'.cell, h.handle]
  noted := h'.host.symm ▸ h.noted
  spared := h'.host.symm ▸ h.spared

/-! ## A splice -/

/-- Relations at rest follow a list of elements. -/
structure Standing (P : Play) (r : Ref .relations) (items : List Value) (w : Scene) : Prop where
  staged : Staged P r w
  kept : Kept w
  nodup : (present r w).Nodup
  runs : ∀ e ∈ present r w, Runs P e w
  numbered : ∀ i e, (present r w)[i]? = some e → (w.env.cells.entry e).index = i
  inputs : (present r w).map (fun e => (w.env.cells.entry e).input) = items
  all : ∀ e ∈ w.env.host.started, e ∉ w.env.host.cancelled → e ∈ present r w

/-- A run of entries has been taken out of relations, and new entries that have been started are not in them yet: the entries after
the run do not know where they will stand. -/
structure Parted (P : Play) (r : Ref .relations) (before fresh after : List (Ref .entry)) (left plus right : List Value)
    (w : Scene) : Prop where
  staged : Staged P r w
  kept : Kept w
  entries : present r w = before ++ after
  nodup : (before ++ (fresh ++ after)).Nodup
  runs : ∀ e ∈ before ++ (fresh ++ after), Runs P e w
  numbered : ∀ i e, before[i]? = some e → (w.env.cells.entry e).index = i
  left : before.map (fun e => (w.env.cells.entry e).input) = left
  plus : fresh.map (fun e => (w.env.cells.entry e).input) = plus
  right : after.map (fun e => (w.env.cells.entry e).input) = right
  all : ∀ e ∈ w.env.host.started, e ∉ w.env.host.cancelled → e ∈ before ++ (fresh ++ after)

theorem ends_modifyRelations {f : Relations → Relations} {Q : PUnit → Scene → Prop} :
    (modifyRelations r f : Live (Ref .entry) Journal Unit).Ends w Q ↔
      Q ⟨⟩ (w.withCells { w.env.cells with relations := w.env.cells.relations.modify r.index f }) := Iff.rfl

theorem relationsCell_modify {c : Cells (Ref .entry)} (made : r.index < c.relations.size) (f : Relations → Relations) :
    Cells.relationsCell { c with relations := c.relations.modify r.index f } r = f (c.relationsCell r) := by
  simp [Cells.relationsCell, Array.getD_eq_getD_getElem?, Array.getElem?_modify, Array.getElem?_eq_getElem made]

theorem Staged.modify (h : Staged P r w) (es : List (Ref .entry)) : Staged P r (w.withCells { w.env.cells with
    relations := w.env.cells.relations.modify r.index fun c => { c with entries := es } }) where
  made := h.made.trans_eq (Array.size_modify ..).symm
  relation := (congrArg Relations.relation (relationsCell_modify h.made _)).trans h.relation
  scope := (congrArg Relations.scope (relationsCell_modify h.made _)).trans h.scope

/-- A run of entries is taken out and cancelled. -/
theorem Standing.part {before run after : List (Ref .entry)} (h : Standing P r items w)
    (hcut : present r w = before ++ (run ++ after)) :
    (do
      modifyRelations r fun c => { c with entries := before ++ after }
      holdEntries run
      cancelEntries (scripted P.script) run : Live (Ref .entry) Journal Unit).Ends w fun _ w' =>
        Parted P r before [] after (before.map fun e => (w.env.cells.entry e).input) []
          (after.map fun e => (w.env.cells.entry e).input) w' := by
  have hnodup : (before ++ (run ++ after)).Nodup := hcut ▸ h.nodup
  have hsub : (before ++ after).Sublist (before ++ (run ++ after)) :=
    (List.Sublist.refl _).append (List.sublist_append_right ..)
  have hout : ∀ e ∈ before ++ after, e ∉ run := fun e he => by
    simpa using notMem_map_run (f := id) (by simpa using hnodup) he
  have hruns : ∀ e ∈ before ++ (run ++ after), Runs P e w := hcut ▸ h.runs
  simp only [Run.ends_bind, ends_modifyRelations, holdEntries, ends_modifyCells]
  let w₁ := (w.withCells { w.env.cells with
    relations := w.env.cells.relations.modify r.index fun c => { c with entries := before ++ after } })
  let w₂ := w₁.withCells { w₁.env.cells with heldEntries := run ++ w₁.env.cells.heldEntries }
  change (cancelEntries _ run).Ends w₂ _
  have keeps₂ : Keeps {e | e ∈ run} w w₂ := .same rfl rfl
  have kept₂ : Kept w₂ := h.kept.same rfl rfl
  have runs₂ : ∀ e ∈ run, Runs P e w₂ := fun e he =>
    (hruns e (by simp [he])).keeps (.same (S := ∅) rfl rfl) (Set.notMem_empty e)
  have hpresent : present r w₂ = before ++ after := congrArg Relations.entries (relationsCell_modify h.staged.made _)
  refine (cancelEntries_cancelled kept₂ (List.nodup_append.1 (List.nodup_append.1 hnodup).2.1).1 runs₂).imp fun _ w₃ h₃ => ?_
  have keeps₃ : Keeps {e | e ∈ run} w w₃ := keeps₂.trans h₃.keeps
  have hleft := keeps₃.inputs fun e he => hout e (List.mem_append_left after he)
  have hright := keeps₃.inputs fun e he => hout e (List.mem_append_right before he)
  have staged₂ : Staged P r w₂ := (h.staged.modify _).congr rfl
  refine ⟨staged₂.congr h₃.relations, h₃.kept, (present_congr h₃.relations).trans hpresent, hnodup.sublist hsub, ?_, ?_,
    hleft, rfl, hright, ?_⟩
  · exact fun e he => (hruns e (hsub.subset he)).keeps keeps₃ (hout e he)
  · intro i e hi
    have he : e ∈ before ++ after := List.mem_append_left _ (List.mem_of_getElem? hi)
    rw [keeps₃.entry e (hout e he)]
    refine h.numbered i e ?_
    rw [hcut, List.getElem?_append_left (List.getElem?_eq_some_iff.1 hi).1, hi]
  · intro e hs hc
    have hnot : e ∉ run := fun he => hc (h₃.cancelled e he)
    have he := h.all e ((keeps₃.started e hnot).1 hs) fun hc' => hc ((keeps₃.cancelled e hnot).2 hc')
    rw [hcut] at he
    simpa [hnot] using he

/-- New entries are started while the run is out. -/
theorem Parted.enter {before after : List (Ref .entry)} {left right : List Value} (h : Parted P r before [] after left [] right w)
    (index : Nat) (plus : List Value) :
    (startEntries (scripted P.script) r index plus).Ends w fun fresh w' =>
      Parted P r before fresh after left plus right w' := by
  have hr : ∀ e ∈ present r w, e.index < w.env.cells.entries.size := fun e he => (h.runs e (h.entries ▸ he)).made
  refine (startEntries_entered h.kept h.staged hr index plus).imp fun fresh w' h' => ?_
  have hold : ∀ e ∈ before ++ after, e ∉ since w.env.cells.entries.size := fun e he => Nat.not_le.2 (h.runs e he).made
  refine ⟨h.staged.congr h'.relations, h'.kept, (present_congr h'.relations).trans h.entries, ?_, ?_, ?_, ?_, h'.inputs, ?_, ?_⟩
  · have hapart : ∀ e ∈ before ++ after, ∀ e' ∈ fresh, e ≠ e' := by
      rintro e he _ he' rfl
      exact hold e he (h'.fresh e he')
    have hnodup := nodup_map_insert (f := id) (by simpa using h.nodup) (by simpa using h'.nodup) hapart
    simpa using hnodup
  · intro e he
    simp only [List.mem_append] at he hold
    rcases he with he | he | he
    · exact (h.runs e (by simp [he])).keeps h'.keeps (hold e (.inl he))
    · exact h'.runs e he
    · exact (h.runs e (by simp [he])).keeps h'.keeps (hold e (.inr he))
  · intro i e hi
    rw [h'.keeps.entry e (hold e (List.mem_append_left _ (List.mem_of_getElem? hi))), h.numbered i e hi]
  · rw [h'.keeps.inputs fun e he => hold e (List.mem_append_left _ he), h.left]
  · rw [h'.keeps.inputs fun e he => hold e (List.mem_append_right _ he), h.right]
  · intro e hs hc
    -- what was started since is new, and the rest was known before
    by_cases he : e ∈ since w.env.cells.entries.size
    · simp [h'.all e he (h'.kept.started e hs)]
    · have hm := h.all e ((h'.keeps.started e he).1 hs) fun hc' => hc ((h'.keeps.cancelled e he).2 hc')
      simp only [List.nil_append, List.mem_append] at hm
      rcases hm with hm | hm <;> simp [hm]

/-- The new entries take their places. -/
theorem Parted.close {before fresh after : List (Ref .entry)} {left plus right : List Value}
    (h : Parted P r before fresh after left plus right w) :
    (do
      modifyRelations r fun c => { c with entries := before ++ (fresh ++ after) }
      number before.length (fresh ++ after) : Live (Ref .entry) Journal Unit).Ends w fun _ w' =>
        Standing P r (left ++ (plus ++ right)) w' := by
  simp only [Run.ends_bind, ends_modifyRelations]
  let w₁ := (w.withCells { w.env.cells with
    relations := w.env.cells.relations.modify r.index fun c => { c with entries := before ++ (fresh ++ after) } })
  have hpresent : present r w₁ = before ++ (fresh ++ after) := congrArg Relations.entries (relationsCell_modify h.staged.made _)
  have hnodup := List.nodup_append.1 h.nodup
  have hmade : ∀ e ∈ fresh ++ after, e.index < w₁.env.cells.entries.size := fun e he => (h.runs e (List.mem_append_right _ he)).made
  refine (number_numbered hnodup.2.1 hmade before.length).imp fun _ w₂ h₂ => ?_
  have hpresent₂ : present r w₂ = before ++ (fresh ++ after) := (present_congr h₂.relations).trans hpresent
  have hinput (e : Ref .entry) : (w₂.env.cells.entry e).input = (w.env.cells.entry e).input := by
    rw [h₂.cell e]
    rfl
  have staged₁ : Staged P r w₁ := h.staged.modify _
  refine ⟨staged₁.congr h₂.relations, h.kept.same h₂.size h₂.host, hpresent₂ ▸ h.nodup, ?_, ?_, ?_, ?_⟩
  · intro e he
    have runs : Runs P e w₁ := (h.runs e (hpresent₂ ▸ he)).keeps (.same (S := ∅) rfl rfl) (Set.notMem_empty e)
    exact runs.numbered h₂
  · intro i e hi
    rw [hpresent₂] at hi
    by_cases hlt : i < before.length
    · rw [List.getElem?_append_left hlt] at hi
      have hout : e ∉ fresh ++ after := fun hm => hnodup.2.2 e (List.mem_of_getElem? hi) e hm rfl
      rw [h₂.others e hout]
      exact h.numbered i e hi
    · rw [List.getElem?_append_right (Nat.le_of_not_lt hlt)] at hi
      rw [h₂.index _ e hi]
      omega
  · simp only [hpresent₂, hinput, List.map_append, h.left, h.plus, h.right]
  · rw [hpresent₂, h₂.host]
    exact h.all

/-- Holding entries or letting them go changes nothing else. -/
theorem Standing.holding (h : Standing P r items w) (es : List (Ref .entry)) :
    Standing P r items (w.withCells { w.env.cells with heldEntries := es }) where
  staged := h.staged.congr rfl
  kept := h.kept.same rfl rfl
  nodup := h.nodup
  runs e he := (h.runs e he).keeps (.same (S := ∅) rfl rfl) (Set.notMem_empty e)
  numbered := h.numbered
  inputs := h.inputs
  all := h.all

/-- A splice of the elements. -/
theorem Standing.splice (h : Standing P r items w) (index removed : Nat) (plus : List Value) :
    (Relations.splice (scripted P.script) r index removed plus).Ends w fun _ w' =>
      Standing P r (replaceRun items index removed plus) w' ∧ w'.env.cells.heldEntries = w.env.cells.heldEntries := by
  obtain ⟨before, run, after, hcut⟩ := Cut.exists_cut (present r w) index removed
  have hitems : replaceRun items index removed plus = before.map (fun e => (w.env.cells.entry e).input) ++
      (plus ++ after.map fun e => (w.env.cells.entry e).input) := by
    rw [replaceRun, ← h.inputs, ← List.map_take, ← List.map_drop, hcut.take, hcut.drop, List.append_assoc]
  have hpart := h.part hcut.parts
  simp only [Run.ends_bind] at hpart
  have htake : (present r w).take before.length = before := by rw [hcut.parts, List.take_left]
  simp only [Relations.splice, keepingHeldEntries, Run.ends_bind, Run.ends_pure, Run.ends_restoring, ends_envCells, hcut.start,
    hcut.stop, htake, hcut.run_eq, hcut.after_eq]
  refine hpart.imp fun _ w₁ h₁ => h₁.imp fun _ w₂ h₂ => h₂.imp fun _ w₃ parted => ?_
  refine (parted.enter index plus).imp fun fresh w₄ parted => ?_
  have hrest := hcut.rest
  simp only [parted.entries, hrest, List.take_left, List.drop_left, List.append_assoc]
  have hclose := parted.close
  simp only [Run.ends_bind] at hclose
  refine hclose.imp fun _ w₅ h₅ => h₅.imp fun _ w₆ standing => ?_
  exact ⟨hitems ▸ standing.holding _, trivial⟩

/-- Starting over with other elements. -/
theorem Standing.reset (h : Standing P r items w) (next : List Value) :
    (Relations.reset (scripted P.script) r next).Ends w fun _ w' =>
      Standing P r next w' ∧ w'.env.cells.heldEntries = w.env.cells.heldEntries := by
  have hlength : (present r w).length = items.length := by rw [← h.inputs, List.length_map]
  simp only [Relations.reset, Relations.length, Run.ends_bind, Run.ends_pure, ends_envCells]
  refine (h.splice 0 (present r w).length next).imp fun _ w' h' => ?_
  rw [replaceRun, List.take_zero, List.nil_append, Nat.zero_add, hlength, List.drop_length, List.append_nil] at h'
  exact h'

/-! ## A value between calls -/

/-- What becomes of relations that are handed a value: their entries go on running, for the same elements at the same places. -/
theorem Standing.told (h : Standing P r items w) (kept : Kept w') (relations : w'.env.cells.relations = w.env.cells.relations)
    (runs : ∀ e ∈ present r w, Runs P e w')
    (cell : ∀ e, w'.env.cells.entry e = { w.env.cells.entry e with output := (w'.env.cells.entry e).output })
    (started : w'.env.host.started = w.env.host.started) (cancelled : w'.env.host.cancelled = w.env.host.cancelled) :
    Standing P r items w' := by
  have hpresent : present r w' = present r w := present_congr relations
  refine ⟨h.staged.congr relations, kept, hpresent.symm ▸ h.nodup, hpresent.symm ▸ runs, ?_, ?_, ?_⟩
  · intro i e hi
    rw [hpresent] at hi
    rw [cell e, h.numbered i e hi]
  · rw [hpresent, ← h.inputs]
    exact List.map_congr_left fun e _ => by rw [cell e]
  · rw [hpresent, started, cancelled]
    exact h.all

/-- A value of an entry that runs: the update that is due is told. -/
theorem Standing.kept_handed {i : Nat} (h : Standing P r items w) (hi : (present r w)[i]? = some e) (v : Value) :
    Kept (handed w r e v) := by
  have runs := h.runs e (List.mem_of_getElem? hi)
  have hplace : (present r w).idxOf? e = some i := by
    obtain ⟨hlt, hget⟩ := List.getElem?_eq_some_iff.1 hi
    refine List.idxOf?_eq_some_iff.2 ⟨hlt, hget, fun j hj hj' => ?_⟩
    exact hj.ne (h.nodup.getElem_inj_iff.1 (hj'.trans hget.symm))
  have hnoted : w.env.host.started.contains e = true := List.contains_iff_mem.2 runs.noted
  have kept : Kept (withEntry w e fun c => { c with output := v }) := h.kept.same (Array.size_modify ..) rfl
  refine kept.told (runs.made.trans_eq (Array.size_modify ..).symm) ?_
  simp only [World.withCells, emission, due, hplace, hnoted, h.numbered i e hi, runs.output, runs.started, h.kept.updates]

/-- A value of an entry that was removed: nothing is told. -/
theorem Standing.kept_gone (h : Standing P r items w) (noted : e ∈ w.env.host.started) (gone : e ∉ present r w) (v : Value) :
    Kept (noting w { w.env.host with emissions := emission w r e v :: w.env.host.emissions }) := by
  refine h.kept.told (h.kept.started e noted) ?_
  rw [due, emission, List.idxOf?_eq_none_iff.2 gone, h.kept.updates]

/-- A value of an entry that has been started, whether it is still present or not. -/
theorem Standing.emit (h : Standing P r items w) (held : w.env.cells.heldEntries = []) (noted : e ∈ w.env.host.started) (v : Value) :
    (hand r e v).Ends w fun _ w' => Standing P r items w' ∧ w'.env.cells.heldEntries = [] := by
  by_cases he : e ∈ present r w
  · have alive : isAlive w.env.cells r e = true := by
      rw [isAlive, Bool.or_eq_true]
      exact .inl (List.contains_iff_mem.2 he)
    obtain ⟨i, hi⟩ := List.getElem?_of_mem he
    have made := (h.runs e he).made
    rw [ends_hand_alive made alive]
    refine ⟨h.told (h.kept_handed hi v) rfl (fun e' he' => ?_) (fun e' => ?_) rfl rfl, held⟩
    · by_cases heq : e' = e
      · exact heq ▸ (h.runs e he).handed v
      · exact (h.runs e' he').keeps (handed_keeps made v) heq
    · by_cases heq : e' = e
      · rw [heq, entry_handed made]
      · rw [(handed_keeps made v).entry e' heq]
  · -- nothing is in progress that could hold a removed entry
    have gone : isAlive w.env.cells r e = false := by
      simpa [isAlive, held] using he
    rw [ends_hand_gone gone]
    refine ⟨h.told (h.kept_gone noted he v) rfl (fun e' he' => ?_) (fun _ => rfl) rfl rfl, held⟩
    have hne : e ≠ e' := fun heq => he (heq ▸ he')
    have hvalues := values_of_ne (m := emission w r e v) hne w.env.host.emissions
    exact { h.runs e' he' with
      ran := hvalues.symm ▸ (h.runs e' he').ran
      output := (h.runs e' he').output.trans (congrArg (·.headD .undefined) hvalues).symm }

/-! ## Any moves -/

theorem Standing.move (h : Standing P r items w) (held : w.env.cells.heldEntries = []) (m : Move) :
    (m.run (scripted P.script) r).Ends w fun _ w' => Standing P r (m.mirror items) w' ∧ w'.env.cells.heldEntries = [] := by
  cases m with
  | splice index removed plus =>
    rw [Move.run, Run.ends_discard]
    exact (h.splice index removed plus).imp fun _ _ h' => ⟨h'.1, h'.2.trans held⟩
  | reset next =>
    rw [Move.run, Run.ends_discard]
    exact (h.reset next).imp fun _ _ h' => ⟨h'.1, h'.2.trans held⟩
  | emit e v =>
    simp only [Move.run, host, Run.ends_bind, Run.ends_get, Run.ends_pure]
    split
    · rename_i noted
      exact h.emit held noted v
    · exact ⟨h, held⟩

theorem Standing.perform (h : Standing P r items w) (held : w.env.cells.heldEntries = []) (moves : List Move) :
    (Alignment.perform (scripted P.script) r moves).Ends w fun _ w' => Standing P r (moves.foldl Move.mirror items) w' := by
  induction moves generalizing w items with
  | nil => exact h
  | cons m moves ih =>
    rw [Alignment.perform, Run.ends_bind]
    exact (h.move held m).imp fun _ _ h' => ih h'.1 h'.2

theorem Standing.aligned (h : Standing P r items w) : Aligned P r items w where
  inputs := h.inputs
  index := h.numbered
  ran e he := (h.runs e he).ran
  output e he := (h.runs e he).output
  updates := h.kept.updates
  started e he := (h.runs e he).noted
  cancelled e hs he := by
    have hc : e ∈ w.env.host.cancelled := by
      by_contra hc
      exact he (h.all e hs hc)
    exact List.count_eq_one_of_mem h.kept.once hc
  spared e hc := ⟨h.kept.cancelled e hc, fun he => (h.runs e he).spared hc⟩

/-- The world when no call is in progress and nothing has been noted. -/
def quiet (w : Scene) : Scene :=
  { w with env := { cells := { w.env.cells with heldEntries := [] }, host := {} } }

/-- Relations that are made in any world stay aligned with their elements, whatever is asked of them in whatever order and whatever their
relations hand over meanwhile. -/
theorem stay_aligned (w : Scene) (P : Play) (owner : Ref .block) (moves : List Move) :
    (do
      let r ← newRelations P.relation P.scope owner
      perform (scripted P.script) r moves
      return r).Ends (quiet w) fun r w' => Aligned P r (mirrored moves) w' := by
  simp only [newRelations, Run.ends_bind, Run.ends_pure, ends_envCells, ends_modifyCells]
  let cell : Relations := { relation := P.relation, scope := P.scope, owner }
  let w₁ := (quiet w).withCells { (quiet w).env.cells with relations := w.env.cells.relations.push cell }
  have hcell : w₁.env.cells.relationsCell ⟨w.env.cells.relations.size⟩ = cell := by
    simp [w₁, World.withCells, Cells.relationsCell]
  have hpresent : present ⟨w.env.cells.relations.size⟩ w₁ = [] := congrArg Relations.entries hcell
  have staged : Staged P ⟨w.env.cells.relations.size⟩ w₁ :=
    ⟨(Nat.lt_succ_self _).trans_eq (Array.size_push ..).symm, congrArg Relations.relation hcell, congrArg Relations.scope hcell⟩
  have standing : Standing P ⟨w.env.cells.relations.size⟩ [] w₁ := by
    refine ⟨staged, ⟨rfl, nofun, nofun, nofun, List.nodup_nil⟩, ?_, ?_, ?_, ?_, nofun⟩
    · exact hpresent.symm ▸ List.nodup_nil
    · exact hpresent.symm ▸ nofun
    · exact hpresent.symm ▸ nofun
    · exact hpresent.symm ▸ rfl
  exact (standing.perform rfl moves).imp fun _ _ h => h.aligned

/-- A late value of the entry that was removed is dropped; one of the entry after it is told with its new place. -/
example : (do
    let r ← newRelations .value {} ⟨0⟩
    perform (scripted fun _ _ _ => []) r [.reset [.null, .null], .splice 0 1 [], .emit ⟨0⟩ .null, .emit ⟨1⟩ .null] :
      Live (Ref .entry) Journal Unit).Ends { env := { host := {} } } fun _ w =>
        w.env.host.updates = [⟨0, .undefined, .null⟩] := by decide +kernel

end Alignment

end LiveBindings
