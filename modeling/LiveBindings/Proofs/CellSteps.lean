import LiveBindings.Collection.Block
import LiveBindings.Proofs.Storekeeping

/-!
# What steps on cells do to an estate

Most cells do not matter for what leads to what, and changing them is `Quiet`. A slot, an entry or a segment keeps a handle, so
that changing one comes to `Estate.setHolder`; changing the entries of relations comes to `Estate.setRoster`, and changing a
view to `Estate.setView`.
-/

namespace LiveBindings

open Estate

/-! ## Tables -/

section

variable {α β : Type} {xs : Array α} {x : α} {f : α → α} {g : α → β} {i j : Nat}

theorem map_modify (hx : xs[i]? = some x) :
    (xs.modify i f)[j]?.map g = if j = i then some (g (f x)) else xs[j]?.map g := by
  rw [Array.getElem?_modify]
  by_cases h : i = j
  · subst h
    simp [hx]
  · simp [h, Ne.symm h]

theorem map_modify_same (h : ∀ x, xs[i]? = some x → g (f x) = g x) : (xs.modify i f)[j]?.map g = xs[j]?.map g := by
  rw [Array.getElem?_modify]
  split
  · rename_i he
    subst he
    cases hx : xs[i]? with
    | none => rfl
    | some x => exact congrArg some (h x hx)
  · rfl

theorem map_push : (xs.push x)[j]?.map g = if j = xs.size then some (g x) else xs[j]?.map g := by
  rw [Array.getElem?_push]
  split <;> rfl

theorem modify_of_none (h : xs[i]? = none) : xs.modify i f = xs := by
  refine Array.ext_getElem? fun j => ?_
  rw [Array.getElem?_modify]
  split
  · rename_i he
    subst he
    rw [h]
    rfl
  · rfl

end

theorem Ref.index_inj {t : Table} {r r' : Ref t} : r.index = r'.index ↔ r = r' := by
  cases r
  cases r'
  simp

variable {π τ : Type} {w : World (Callback π) (Env π (Ledger π τ))} {P : Set (Ref .block)}

theorem World.estate_withCells (c : Cells π) : (w.withCells c).estate =
    { w.estate with
      holder := c.holder
      roster := c.roster
      view := c.view
      orphans := c.orphans
      heldBlocks := c.heldBlocks } := rfl

/-! ## Cells that do not matter -/

section

variable {c : Cells π} {f : Cells π → Cells π}

/-- Cells that agree in what matters. -/
theorem World.estate_withCells_same (hh : c.holder = w.env.cells.holder) (hr : c.roster = w.env.cells.roster)
    (hv : c.view = w.env.cells.view) (ho : c.orphans = w.env.cells.orphans) (hb : c.heldBlocks = w.env.cells.heldBlocks) :
    (w.withCells c).estate = w.estate := by
  rw [World.estate_withCells, hh, hr, hv, ho, hb]
  rfl

theorem newFlag_quiet : Quiet newFlag w := rfl

theorem newArgs_quiet (count : Nat) : Quiet (newArgs count) w := rfl

theorem newProjector_quiet (what : Projection) (output : ListId) : Quiet (newProjector what output) w := rfl

theorem setFlag_quiet (r : Ref .flag) (b : Bool) : Quiet (setFlag r b) w := rfl

theorem setLast_quiet (r : Ref .last) (v : Value) : Quiet (setLast r v) w := rfl

theorem modifyArgs_quiet (r : Ref .args) (f : ArgsCell → ArgsCell) : Quiet (modifyArgs r f) w := rfl

theorem modifyProjector_quiet (p : Ref .projector) (f : Projector → Projector) : Quiet (modifyProjector p f) w := rfl

theorem holdEntries_quiet (es : List (Ref .entry)) : Quiet (holdEntries es) w := rfl

theorem modifySlot_quiet (s : Ref .slot) {f : Slot π → Slot π}
    (h : ∀ cell, (f cell).current = cell.current ∧ (f cell).closed = cell.closed) : Quiet (modifySlot s f) w := by
  refine World.estate_withCells_same (funext fun a => ?_) rfl rfl rfl rfl
  cases a with
  | slot s' => exact map_modify_same fun cell _ => by rw [(h cell).1, (h cell).2]
  | _ => rfl

theorem modifyEntry_quiet (e : Ref .entry) {f : Entry π → Entry π} (h : ∀ cell, (f cell).cancel = cell.cancel) :
    Quiet (modifyEntry e f) w := by
  refine World.estate_withCells_same (funext fun a => ?_) rfl rfl rfl rfl
  cases a with
  | entry e' => exact map_modify_same fun cell _ => by rw [h cell]
  | _ => rfl

theorem modifySegment_quiet (s : Ref .segment) {f : Segment π → Segment π} (h : ∀ cell, (f cell).cancel = cell.cancel) :
    Quiet (modifySegment s f) w := by
  refine World.estate_withCells_same (funext fun a => ?_) rfl rfl rfl rfl
  cases a with
  | segment s' => exact map_modify_same fun cell _ => by rw [h cell]
  | _ => rfl

/-- A view changes in a way that nobody else sees. -/
theorem modifyBlock_quiet (b : Ref .block) {f : Block π → Block π}
    (h : ∀ cell, w.env.cells.blocks[b.index]? = some cell →
      BlockCell.outline { cell with block := f cell.block } = cell.outline) : Quiet (modifyBlock b f) w :=
  World.estate_withCells_same rfl rfl (funext fun _ => map_modify_same fun cell hc => h cell hc) rfl rfl

end

/-! ## Relations and views -/

theorem World.estate_modifyRelations {r : Ref .relations} {f : Relations → Relations} {cell : Relations}
    (hc : w.env.cells.relations[r.index]? = some cell) :
    (w.withCells { w.env.cells with relations := w.env.cells.relations.modify r.index f }).estate =
      w.estate.setRoster r ⟨(f cell).owner, (f cell).entries⟩ := by
  have : Cells.roster { w.env.cells with relations := w.env.cells.relations.modify r.index f } =
      Function.update w.env.cells.roster r (some ⟨(f cell).owner, (f cell).entries⟩) := by
    funext r'
    refine (map_modify hc).trans ?_
    simp only [Ref.index_inj, Function.update_apply]
    rfl
  rw [World.estate_withCells, this]
  rfl

theorem World.roster_eq {r : Ref .relations} {y : Roster} (h : w.estate.roster r = some y) :
    ∃ cell, w.env.cells.relations[r.index]? = some cell ∧ w.env.cells.relationsCell r = cell ∧
      y = ⟨cell.owner, cell.entries⟩ := by
  obtain ⟨cell, hc, rfl⟩ : ∃ cell, w.env.cells.relations[r.index]? = some cell ∧ Roster.mk cell.owner cell.entries = y := by
    simpa [World.estate, Cells.roster] using h
  exact ⟨cell, hc, by simp [Cells.relationsCell, Array.getD_eq_getD_getElem?, hc], rfl⟩

theorem World.estate_modifyBlocks {b : Ref .block} {f : BlockCell π → BlockCell π} {cell : BlockCell π}
    (hc : w.env.cells.blocks[b.index]? = some cell) :
    (w.withCells { w.env.cells with blocks := w.env.cells.blocks.modify b.index f }).estate =
      w.estate.setView b (f cell).outline := by
  have : Cells.view { w.env.cells with blocks := w.env.cells.blocks.modify b.index f } =
      Function.update w.env.cells.view b (some (f cell).outline) := by
    funext b'
    refine (map_modify hc).trans ?_
    simp only [Ref.index_inj, Function.update_apply]
    rfl
  rw [World.estate_withCells, this]
  rfl

/-! ## Cells that keep handles -/

section

variable {c : Cells π}

theorem Cells.holder_modifySlot {s : Ref .slot} {f : Slot π → Slot π} {cell : Slot π} (hc : c.slots[s.index]? = some cell) :
    Cells.holder { c with slots := c.slots.modify s.index f } =
      Function.update c.holder (.slot s) (some ⟨(f cell).current, (f cell).closed⟩) := by
  funext a
  cases a with
  | slot s' =>
    refine (map_modify hc).trans ?_
    simp only [Ref.index_inj, Function.update_apply, Asset.slot.injEq]
    rfl
  | _ => rfl

theorem Cells.holder_modifyEntry {e : Ref .entry} {f : Entry π → Entry π} {cell : Entry π}
    (hc : c.entries[e.index]? = some cell) : Cells.holder { c with entries := c.entries.modify e.index f } =
      Function.update c.holder (.entry e) (some ⟨(f cell).cancel, true⟩) := by
  funext a
  cases a with
  | entry e' =>
    refine (map_modify hc).trans ?_
    simp only [Ref.index_inj, Function.update_apply, Asset.entry.injEq]
    rfl
  | _ => rfl

theorem Cells.holder_modifySegment {s : Ref .segment} {f : Segment π → Segment π} {cell : Segment π}
    (hc : c.segments[s.index]? = some cell) : Cells.holder { c with segments := c.segments.modify s.index f } =
      Function.update c.holder (.segment s) (some ⟨(f cell).cancel, true⟩) := by
  funext a
  cases a with
  | segment s' =>
    refine (map_modify hc).trans ?_
    simp only [Ref.index_inj, Function.update_apply, Asset.segment.injEq]
    rfl
  | _ => rfl

/-! ### New cells -/

theorem Cells.holder_push_slot (cell : Slot π) : Cells.holder { c with slots := c.slots.push cell } =
    Function.update c.holder (.slot ⟨c.slots.size⟩) (some ⟨cell.current, cell.closed⟩) := by
  funext a
  cases a with
  | slot s =>
    refine map_push.trans ?_
    simp only [Function.update_apply, Asset.slot.injEq, ← Ref.index_inj]
    rfl
  | _ => rfl

theorem Cells.holder_push_entry (cell : Entry π) : Cells.holder { c with entries := c.entries.push cell } =
    Function.update c.holder (.entry ⟨c.entries.size⟩) (some ⟨cell.cancel, true⟩) := by
  funext a
  cases a with
  | entry e =>
    refine map_push.trans ?_
    simp only [Function.update_apply, Asset.entry.injEq, ← Ref.index_inj]
    rfl
  | _ => rfl

theorem Cells.holder_push_segment (cell : Segment π) : Cells.holder { c with segments := c.segments.push cell } =
    Function.update c.holder (.segment ⟨c.segments.size⟩) (some ⟨cell.cancel, true⟩) := by
  funext a
  cases a with
  | segment s =>
    refine map_push.trans ?_
    simp only [Function.update_apply, Asset.segment.injEq, ← Ref.index_inj]
    rfl
  | _ => rfl

/-- A new cell that keeps nothing comes to hand. -/
theorem Yields.make {t : Table} {act : Live π (Ledger π τ) (Ref t)} {a : Ref t → Asset} {r : Ref t} {h : Holder π}
    {w' : World (Callback π) (Env π (Ledger π τ))} (ha : (a r).IsCell) (hact : act w = .ok r w')
    (hw : w.estate.holder (a r) = none) (hh : h.handle = .done) (he : w'.estate = w.estate.setHolder (a r) h) :
    Yields P ∅ act (fun r => {a r}) w := by
  intro R hR
  rw [Set.union_empty] at hR
  have hleads : act.Leads w fun r' w₁ => r' = r ∧ w₁ = w' := by simp [Run.Leads, hact]
  refine hleads.imp ?_
  rintro _ _ ⟨rfl, rfl⟩
  rw [he]
  obtain ⟨h₁, h₂, h₃⟩ := hR.make ha hw hh
  refine ⟨h₁, h₂, ?_⟩
  rintro _ rfl
  exact Or.inr h₃

theorem newSlot_yields : Yields P ∅ newSlot (fun s => {.slot s}) w := by
  refine .make (a := .slot) (h := ⟨.done, false⟩) trivial rfl ?_ rfl ?_
  · simp [World.estate, Cells.holder]
  · exact congrArg (fun holder => ({ w.estate with holder } : Estate π)) (Cells.holder_push_slot {})

theorem newEntry_leads (cell : Entry π) : (newEntry cell).Leads w fun e w' =>
    w'.estate = w.estate.setHolder (.entry e) ⟨cell.cancel, true⟩ ∧ w.estate.holder (.entry e) = none := by
  refine ⟨?_, by simp [World.estate, Cells.holder]⟩
  exact congrArg (fun holder => ({ w.estate with holder } : Estate π)) (Cells.holder_push_entry cell)

theorem newSegment_leads (cell : Segment π) : (newSegment cell).Leads w fun s w' =>
    w'.estate = w.estate.setHolder (.segment s) ⟨cell.cancel, true⟩ ∧ w.estate.holder (.segment s) = none := by
  refine ⟨?_, by simp [World.estate, Cells.holder]⟩
  exact congrArg (fun holder => ({ w.estate with holder } : Estate π)) (Cells.holder_push_segment cell)

/-! ### Handles that are taken out -/

variable {E : Engine π (Ledger π τ)}

/-- What a cell keeps is taken out and taken down. -/
theorem take_cancel_leads (hE : E.Sound) {R : Set Asset} {act : Live π (Ledger π τ) (Cancel π)} {a : Asset} {h : Holder π}
    {w' : World (Callback π) (Env π (Ledger π τ))} (ha : a.IsCell) (hw : w.estate.holder a = some h)
    (hact : act w = .ok h.handle w') (he : w'.estate = w.estate.setHolder a { h with handle := .done })
    (hR : Sound P R w.estate) : (act >>= E.cancel).Leads w fun _ w'' =>
      Sound P R w''.estate ∧ Stays P w.estate w''.estate ∧ (h.closed = true → w''.estate.Spent a) := by
  have hleads : act.Leads w fun handle w₁ => handle = h.handle ∧ w₁ = w' := by simp [Run.Leads, hact]
  rw [Run.leads_bind]
  refine hleads.imp ?_
  rintro _ _ ⟨rfl, rfl⟩
  obtain ⟨h₁, h₂, hP⟩ := hR.take ha hw
  rw [← he] at h₁ h₂
  refine (hE.cancel hP R h₁).imp fun _ w'' h' => ⟨by simpa using h'.1, h₂.trans h'.2.1, fun hc => h'.2.1.spent ?_⟩
  rw [he]
  exact spent_setHolder ha hc rfl

theorem World.estate_modifySlot {s : Ref .slot} {f : Slot π → Slot π} {cell : Slot π}
    (hc : w.env.cells.slots[s.index]? = some cell) :
    (w.withCells { w.env.cells with slots := w.env.cells.slots.modify s.index f }).estate =
      w.estate.setHolder (.slot s) ⟨(f cell).current, (f cell).closed⟩ := by
  rw [World.estate_withCells, Cells.holder_modifySlot hc]
  rfl

theorem World.estate_modifyEntry {e : Ref .entry} {f : Entry π → Entry π} {cell : Entry π}
    (hc : w.env.cells.entries[e.index]? = some cell) :
    (w.withCells { w.env.cells with entries := w.env.cells.entries.modify e.index f }).estate =
      w.estate.setHolder (.entry e) ⟨(f cell).cancel, true⟩ := by
  rw [World.estate_withCells, Cells.holder_modifyEntry hc]
  rfl

theorem World.estate_modifySegment {s : Ref .segment} {f : Segment π → Segment π} {cell : Segment π}
    (hc : w.env.cells.segments[s.index]? = some cell) :
    (w.withCells { w.env.cells with segments := w.env.cells.segments.modify s.index f }).estate =
      w.estate.setHolder (.segment s) ⟨(f cell).cancel, true⟩ := by
  rw [World.estate_withCells, Cells.holder_modifySegment hc]
  rfl

theorem World.holder_slot {s : Ref .slot} {cell : Slot π} (hc : w.env.cells.slots[s.index]? = some cell) :
    w.estate.holder (.slot s) = some ⟨cell.current, cell.closed⟩ := by
  simp [World.estate, Cells.holder, hc]

theorem World.holder_entry {e : Ref .entry} {cell : Entry π} (hc : w.env.cells.entries[e.index]? = some cell) :
    w.estate.holder (.entry e) = some ⟨cell.cancel, true⟩ := by
  simp [World.estate, Cells.holder, hc]

theorem World.holder_segment {s : Ref .segment} {cell : Segment π} (hc : w.env.cells.segments[s.index]? = some cell) :
    w.estate.holder (.segment s) = some ⟨cell.cancel, true⟩ := by
  simp [World.estate, Cells.holder, hc]

theorem Cells.slot_eq {c : Cells π} {s : Ref .slot} {cell : Slot π} (hc : c.slots[s.index]? = some cell) :
    c.slot s = cell := by
  simp [Cells.slot, Array.getD_eq_getD_getElem?, hc]

theorem takeCurrent_eq {s : Ref .slot} {cell : Slot π} (hc : w.env.cells.slots[s.index]? = some cell) :
    takeCurrent s w = .ok cell.current (w.withCells { w.env.cells with
      slots := w.env.cells.slots.modify s.index fun c => { c with current := .done } }) := by
  rw [← Cells.slot_eq hc]
  rfl

/-- There is nothing to take down. -/
theorem cancel_done_keeps (hE : E.Sound) : Keeps P (E.cancel .done) w := by
  have h : Yields P {x | x ∈ (Cancel.done : Cancel π).assets} (E.cancel .done) (fun _ => ∅) w :=
    hE.cancel (by simp [Cancel.assets])
  simp only [Cancel.assets, List.not_mem_nil, Set.ofPred_false] at h
  exact h.keeps

/-- The child of a slot is taken down. -/
theorem takeCurrent_cancel_leads (hE : E.Sound) {R : Set Asset} {s : Ref .slot} {cell : Slot π}
    (hc : w.env.cells.slots[s.index]? = some cell) (hR : Sound P R w.estate) :
    (takeCurrent s >>= E.cancel).Leads w fun _ w' =>
      Sound P R w'.estate ∧ Stays P w.estate w'.estate ∧ (cell.closed = true → w'.estate.Spent (.slot s)) :=
  take_cancel_leads hE (a := .slot s) trivial (World.holder_slot hc) (takeCurrent_eq hc) (World.estate_modifySlot hc) hR

theorem takeCurrent_cancel_keeps (hE : E.Sound) (s : Ref .slot) : Keeps P (takeCurrent s >>= E.cancel) w := by
  cases hs : w.env.cells.slots[s.index]? with
  | some cell =>
    intro R hR
    exact (takeCurrent_cancel_leads hE hs hR).imp fun _ _ h => ⟨h.1, h.2.1⟩
  | none =>
    have hd : w.env.cells.slot s = {} := by simp [Cells.slot, Array.getD_eq_getD_getElem?, hs]
    have ht : takeCurrent s w = .ok .done w := by
      have : takeCurrent s w = .ok (w.env.cells.slot s).current (w.withCells { w.env.cells with
        slots := w.env.cells.slots.modify s.index fun c => { c with current := .done } }) := rfl
      rw [this, hd, modify_of_none hs]
      rfl
    exact .read ht (cancel_done_keeps hE)

end

end LiveBindings
