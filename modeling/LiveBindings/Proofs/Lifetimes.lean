import LiveBindings.Observe.Slot
import LiveBindings.Proofs.CellSteps

/-!
# Slots, and how long views live

A slot hands every child that it starts either to itself or to a teardown (`restart_keeps`), and closing it leaves nothing there
(`closeSlot_yields`). A view is finished at once, or given up while something holds it (`release_yields`) and finished when
that is over (`sweep_settles`): the test that decides which, `isHeld`, is exact (`isHeld_iff`).
-/

namespace LiveBindings

open Estate

variable {π τ : Type} {w w' : World (Callback π) (Env π (Ledger π τ))} {P : Set (Ref .block)} {R : Set Asset}
  {E : Engine π (Ledger π τ)}

/-! ## Entries and segments -/

theorem takeEntryCancel_eq {e : Ref .entry} {cell : Entry π} (hc : w.env.cells.entries[e.index]? = some cell) :
    takeEntryCancel e w = .ok cell.cancel (w.withCells { w.env.cells with
      entries := w.env.cells.entries.modify e.index fun c => { c with cancel := .done } }) := by
  have : w.env.cells.entry e = cell := by simp [Cells.entry, Array.getD_eq_getD_getElem?, hc]
  rw [← this]
  rfl

theorem takeSegmentCancel_eq {s : Ref .segment} {cell : Segment π} (hc : w.env.cells.segments[s.index]? = some cell) :
    takeSegmentCancel s w = .ok cell.cancel (w.withCells { w.env.cells with
      segments := w.env.cells.segments.modify s.index fun c => { c with cancel := .done } }) := by
  have : w.env.cells.segment s = cell := by simp [Cells.segment, Array.getD_eq_getD_getElem?, hc]
  rw [← this]
  rfl

theorem Estate.Sound.entry (h : Sound P R w.estate) {e : Ref .entry} (he : .entry e ∈ R) :
    ∃ cell, w.env.cells.entries[e.index]? = some cell := by
  have : (w.estate.holder (.entry e)).isSome := h.known (.of_mem he)
  simpa [World.estate, Cells.holder, Option.isSome_iff_exists] using this

theorem Estate.Sound.segment (h : Sound P R w.estate) {s : Ref .segment} (hs : .segment s ∈ R) :
    ∃ cell, w.env.cells.segments[s.index]? = some cell := by
  have : (w.estate.holder (.segment s)).isSome := h.known (.of_mem hs)
  simpa [World.estate, Cells.holder, Option.isSome_iff_exists] using this

theorem Estate.Sound.slot (h : Sound P R w.estate) {s : Ref .slot} (hs : .slot s ∈ R) :
    ∃ cell, w.env.cells.slots[s.index]? = some cell := by
  have : (w.estate.holder (.slot s)).isSome := h.known (.of_mem hs)
  simpa [World.estate, Cells.holder, Option.isSome_iff_exists] using this

theorem takeEntry_cancel_yields (hE : E.Sound) (e : Ref .entry) :
    Yields P {.entry e} (takeEntryCancel e >>= E.cancel) (fun _ => ∅) w := by
  intro R hR
  obtain ⟨cell, hc⟩ := hR.entry (Or.inr rfl)
  refine (take_cancel_leads hE (a := .entry e) trivial (World.holder_entry hc) (takeEntryCancel_eq hc)
    (World.estate_modifyEntry hc) hR).imp fun _ w' h => ⟨?_, h.2.1, fun _ hx => hx.elim⟩
  rw [Set.union_empty]
  refine h.1.drop ?_
  rintro _ rfl
  exact h.2.2 rfl

theorem takeSegment_cancel_yields (hE : E.Sound) (s : Ref .segment) :
    Yields P {.segment s} (takeSegmentCancel s >>= E.cancel) (fun _ => ∅) w := by
  intro R hR
  obtain ⟨cell, hc⟩ := hR.segment (Or.inr rfl)
  refine (take_cancel_leads hE (a := .segment s) trivial (World.holder_segment hc) (takeSegmentCancel_eq hc)
    (World.estate_modifySegment hc) hR).imp fun _ w' h => ⟨?_, h.2.1, fun _ hx => hx.elim⟩
  rw [Set.union_empty]
  refine h.1.drop ?_
  rintro _ rfl
  exact h.2.2 rfl

theorem cancelEntries_yields (hE : E.Sound) (es : List (Ref .entry)) :
    Yields P {x | x ∈ es.map Asset.entry} (cancelEntries E es) (fun _ => ∅) w := by
  induction es generalizing w with
  | nil => exact .pure _ (by simp)
  | cons e es ih =>
    have hset : {x | x ∈ (e :: es).map Asset.entry} = {.entry e} ∪ {x | x ∈ es.map Asset.entry} := by
      ext x
      simp
    rw [hset]
    exact .assoc ((takeEntry_cancel_yields hE e).andThen fun _ _ _ => ih)

theorem cancelSegments_yields (hE : E.Sound) (ss : List (Ref .segment)) :
    Yields P {x | x ∈ ss.map Asset.segment} (cancelSegments E ss) (fun _ => ∅) w := by
  induction ss generalizing w with
  | nil => exact .pure _ (by simp)
  | cons s ss ih =>
    have hset : {x | x ∈ (s :: ss).map Asset.segment} = {.segment s} ∪ {x | x ∈ ss.map Asset.segment} := by
      ext x
      simp
    rw [hset]
    exact .assoc ((takeSegment_cancel_yields hE s).andThen fun _ _ _ => ih)

/-! ## Slots -/

theorem closeSlot_yields (hE : E.Sound) (s : Ref .slot) : Yields P {.slot s} (closeSlot E s) (fun _ => ∅) w := by
  intro R hR
  obtain ⟨cell, hc⟩ := hR.slot (Or.inr rfl)
  obtain ⟨h₁, hs₁⟩ := hR.close (a := .slot s) trivial (World.holder_slot hc)
  rw [closeSlot, Run.leads_bind]
  change Run.Leads (takeCurrent s >>= E.cancel) (w.withCells { w.env.cells with
    slots := w.env.cells.slots.modify s.index fun c => { c with closed := true } }) _
  generalize hw₁ : w.withCells { w.env.cells with
    slots := w.env.cells.slots.modify s.index fun c => { c with closed := true } } = w₁
  have he : w₁.estate = w.estate.setHolder (.slot s) ⟨cell.current, true⟩ := hw₁ ▸ World.estate_modifySlot hc
  obtain ⟨cell₁, hc₁, hclosed⟩ : ∃ cell₁, w₁.env.cells.slots[s.index]? = some cell₁ ∧ cell₁.closed = true :=
    ⟨{ cell with closed := true }, by simp [← hw₁, World.withCells, Array.getElem?_modify, hc], rfl⟩
  rw [← he] at h₁ hs₁
  refine (takeCurrent_cancel_leads hE hc₁ h₁).imp fun _ w' h => ⟨?_, hs₁.trans h.2.1, fun _ hx => hx.elim⟩
  rw [Set.union_empty]
  refine h.1.drop ?_
  rintro _ rfl
  exact h.2.2 hclosed

/-- The slot takes the child that was started for it, and what it kept meanwhile is taken down. -/
theorem swapCurrent_cancel_yields (hE : E.Sound) {s : Ref .slot} {next : Cancel π} {e₀ : Estate π} {cell : Slot π}
    (hs : Stays P e₀ w.estate) (hhas : e₀.Has (.slot s)) (hfresh : ∀ x ∈ next.assets, ¬e₀.Has x)
    (hc : w.env.cells.slots[s.index]? = some cell) (hopen : cell.closed = false)
    (hR : Sound P (R ∪ {x | x ∈ next.assets}) w.estate)
    (hP : ∀ b ∈ P, .block b ∉ next.assets) :
    (swapCurrent s next >>= E.cancel).Leads w fun _ w' => Sound P R w'.estate ∧ Stays P e₀ w'.estate := by
  have hcell : (Asset.slot s).IsCell := trivial
  have hneeds : w.estate.Needs (.slot s) := ⟨_, World.holder_slot hc, hopen⟩
  have hreach : w.estate.Reach R (.slot s) := hs.reach hfresh (hR.covered hneeds) hhas
  have hswap : swapCurrent s next w = .ok cell.current (w.withCells { w.env.cells with
      slots := w.env.cells.slots.modify s.index fun c => { c with current := next } }) := by
    rw [← Cells.slot_eq hc]
    rfl
  generalize hw₁ : w.withCells { w.env.cells with
    slots := w.env.cells.slots.modify s.index fun c => { c with current := next } } = w₁ at hswap
  have he : w₁.estate = w.estate.setHolder (.slot s) ⟨next, cell.closed⟩ := hw₁ ▸ World.estate_modifySlot hc
  have h₁ := hR.put hcell (World.holder_slot hc) hreach hP
  have hs₁ := hs.put hcell (World.holder_slot hc) hfresh fun hsp => by
    rcases hs.spent hsp with ⟨-, -, hn⟩ | ⟨b, -, hb⟩
    · exact hn hneeds
    · cases hb
  rw [← he] at h₁ hs₁
  have hleads : (swapCurrent s next).Leads w fun c w' => c = cell.current ∧ w' = w₁ := by simp [Run.Leads, hswap]
  rw [Run.leads_bind]
  refine hleads.imp ?_
  rintro _ _ ⟨rfl, rfl⟩
  have hP₁ : ∀ b ∈ P, .block b ∉ cell.current.assets := by
    intro b hb hm
    have hchild : Asset.block b ∈ w.estate.children (.slot s) := by
      simp only [children, World.holder_slot hc]
      exact hm
    exact (hR.reserved hb).2 (.of_child hchild)
  exact (hE.cancel hP₁ R h₁).imp fun _ w' h => ⟨by simpa using h.1, hs₁.trans h.2.1⟩

/-- What is new is not being set up. -/
theorem Estate.Sound.avoids {e : Estate π} {A : List Asset} (h : Sound P R e) (hA : ∀ x ∈ A, ¬e.Has x) :
    ∀ b ∈ P, .block b ∉ A := fun _ hb hm => hA _ hm (h.reserved hb).1.isSome

/-- Every child that a slot starts is kept there or taken down. -/
theorem restart_keeps (hE : E.Sound) {s : Ref .slot} {start : Live π (Ledger π τ) (Cancel π)} (hs : w.estate.Has (.slot s))
    (hstart : ∀ w', Stays P w.estate w'.estate → Starts P start w') : Keeps P (restart E s start) w := by
  refine .read rfl ?_
  dsimp only
  split
  · exact .pure _
  refine Keeps.bind (modifySlot_quiet s ?_).keeps fun _ w₁ h₁ => .assoc ?_
  · exact fun _ => ⟨rfl, rfl⟩
  refine (takeCurrent_cancel_keeps hE s).bind fun _ w₂ h₂ => ?_
  -- What is started in the meantime may have restarted or closed the slot.
  intro R hR
  rw [Run.leads_bind]
  rw [← Set.union_empty R] at hR
  refine (hstart w₂ (h₁.trans h₂) R hR).imp fun next w₃ h₃ => ?_
  obtain ⟨hR₃, hs₃, hfresh⟩ := h₃
  have hnew : ∀ x ∈ next.assets, ¬w₂.estate.Has x := fun x hx => (hfresh x hx).resolve_left id
  rw [Run.leads_bind]
  change Run.Leads (ite _ _ _) w₃ _
  have hhas₂ := h₂.has (h₁.has hs)
  have hhas₃ : (w₃.estate.holder (.slot s)).isSome := hs₃.has hhas₂
  obtain ⟨cell, hc⟩ : ∃ cell, w₃.env.cells.slots[s.index]? = some cell := by
    simpa [World.estate, Cells.holder, Option.isSome_iff_exists] using hhas₃
  have havoid : ∀ b ∈ P, .block b ∉ next.assets := hR.avoids hnew
  split
  · exact (hE.cancel havoid R hR₃).imp fun _ w' h => ⟨by simpa using h.1, hs₃.trans h.2.1⟩
  · rename_i hkept
    rw [Cells.slot_eq hc, Bool.or_eq_true, not_or] at hkept
    exact swapCurrent_cancel_yields hE hs₃ hhas₂ hnew hc (by simpa using hkept.1) hR₃ havoid

/-! ## What is held -/

/-- A view passes a hold on it on to another one. -/
def Estate.Passes (e : Estate π) (b b' : Ref .block) : Prop :=
  e.Running b' ∧ ∃ v s, e.view b = some v ∧ v.sink = some s ∧ .block b' ∈ s.refs

/-- Something in progress holds a view directly. -/
def Estate.HeldFirst (e : Estate π) (b : Ref .block) : Prop :=
  e.Running b ∧ ((∃ callback ∈ e.held, .block b ∈ callback.refs) ∨ b ∈ e.heldBlocks)

theorem Estate.held_iff {e : Estate π} {b : Ref .block} :
    e.Held b ↔ ∃ b₀, e.HeldFirst b₀ ∧ Relation.ReflTransGen e.Passes b₀ b := by
  constructor
  · intro h
    induction h with
    | callback hm hb hr => exact ⟨_, ⟨hr, Or.inl ⟨_, hm, hb⟩⟩, .refl⟩
    | block hm hr => exact ⟨_, ⟨hr, Or.inr hm⟩, .refl⟩
    | through _ hv hs hb hr ih =>
      obtain ⟨b₀, h₀, hp⟩ := ih
      exact ⟨b₀, h₀, hp.tail ⟨hr, _, _, hv, hs, hb⟩⟩
  · rintro ⟨b₀, ⟨hr, hf⟩, hp⟩
    induction hp with
    | refl =>
      rcases hf with ⟨callback, hm, hb⟩ | hm
      · exact .callback hm hb hr
      · exact .block hm hr
    | tail _ hp ih =>
      obtain ⟨hr', v, s, hv, hs, hb⟩ := hp
      exact .through ih hv hs hb hr'

theorem Cells.block?_eq_some {c : Cells π} {b : Ref .block} {block : Block π} :
    c.block? b = some block ↔ c.blocks[b.index]? = some { block } := by
  unfold Cells.block?
  cases hb : c.blocks[b.index]? with
  | none => simp
  | some cell =>
    obtain ⟨block', finished⟩ := cell
    cases finished <;> simp

theorem World.view_of_block? {b : Ref .block} {block : Block π} (h : w.env.cells.block? b = some block) :
    w.estate.view b = some (BlockCell.outline { block }) := by
  simp [World.estate, Cells.view, Cells.block?_eq_some.1 h]

theorem World.running_iff {b : Ref .block} : w.estate.Running b ↔ ∃ block, w.env.cells.block? b = some block := by
  constructor
  · rintro ⟨v, hv, hf⟩
    obtain ⟨⟨block, finished⟩, hc, rfl⟩ : ∃ cell, w.env.cells.blocks[b.index]? = some cell ∧ cell.outline = v := by
      simpa [World.estate, Cells.view] using hv
    obtain rfl : finished = false := hf
    exact ⟨block, Cells.block?_eq_some.2 hc⟩
  · rintro ⟨block, h⟩
    exact ⟨_, World.view_of_block? h, rfl⟩

/-- The search for a view through the sinks of others finds no false way. -/
theorem World.blockHolds_sound {target b : Ref .block} {depth : Nat}
    (h : w.env.cells.blockHolds target depth b = true) :
    w.estate.Running b ∧ Relation.ReflTransGen w.estate.Passes b target := by
  induction depth generalizing b with
  | zero => simp [Cells.blockHolds] at h
  | succ depth ih =>
    rw [Cells.blockHolds] at h
    cases hb : w.env.cells.block? b with
    | none => simp [hb] at h
    | some block =>
      refine ⟨World.running_iff.2 ⟨block, hb⟩, ?_⟩
      simp only [hb, Bool.or_eq_true, beq_iff_eq, Option.any_eq_true] at h
      rcases h with rfl | ⟨s, hs, h⟩
      · exact .refl
      · rw [Sink.holds_eq, List.any_eq_true] at h
        obtain ⟨a, ha, hv⟩ := h
        cases a with
        | block b' =>
          obtain ⟨hr, hp⟩ := ih hv
          exact hp.head ⟨hr, _, s, World.view_of_block? hb, hs, ha⟩
        | _ => cases hv

/-- It finds every way, since each leads to views that were made before. -/
theorem World.blockHolds_complete (hR : Sound P R w.estate) {target b : Ref .block} {depth : Nat}
    (hp : Relation.ReflTransGen w.estate.Passes b target) (hr : w.estate.Running b) (hd : b.index < depth) :
    w.env.cells.blockHolds target depth b = true := by
  induction depth generalizing b with
  | zero => omega
  | succ depth ih =>
    obtain ⟨block, hb⟩ := World.running_iff.1 hr
    rw [Cells.blockHolds]
    simp only [hb, Bool.or_eq_true, beq_iff_eq, Option.any_eq_true]
    rcases Relation.ReflTransGen.cases_head hp with rfl | ⟨b', ⟨hr', v, s, hv, hs, hm⟩, hp'⟩
    · exact Or.inl rfl
    · refine Or.inr ⟨s, ?_, ?_⟩
      · rw [World.view_of_block? hb] at hv
        cases hv
        exact hs
      · rw [Sink.holds_eq, List.any_eq_true]
        have hlt := (hR.sinks hv hs _ hm).2 b' rfl
        exact ⟨.block b', hm, ih hp' hr' (by omega)⟩

/-- The test whether something in progress holds a view is exact. -/
theorem World.isHeld_iff (hR : Sound P R w.estate) {b : Ref .block} : isHeld w b = true ↔ w.estate.Held b := by
  simp only [isHeld, Bool.or_eq_true, List.any_eq_true, Callback.holds_eq, held_iff, HeldFirst]
  constructor
  · rintro (⟨callback, hm, a, ha, hv⟩ | ⟨b₀, hm, hv⟩)
    · cases a with
      | block b₀ =>
        obtain ⟨hr, hp⟩ := World.blockHolds_sound hv
        exact ⟨b₀, ⟨hr, Or.inl ⟨callback, hm, ha⟩⟩, hp⟩
      | _ => cases hv
    · obtain ⟨hr, hp⟩ := World.blockHolds_sound hv
      exact ⟨b₀, ⟨hr, Or.inr hm⟩, hp⟩
  · rintro ⟨b₀, ⟨hr, hf⟩, hp⟩
    have hlt : b₀.index < w.env.cells.blocks.size + 1 := by
      obtain ⟨block, hb⟩ := World.running_iff.1 hr
      have := (Array.getElem?_eq_some_iff.1 (Cells.block?_eq_some.1 hb)).1
      omega
    have hfound := World.blockHolds_complete hR hp hr hlt
    rcases hf with ⟨callback, hm, ha⟩ | hm
    · exact Or.inl ⟨callback, hm, .block b₀, ha, hfound⟩
    · exact Or.inr ⟨b₀, hm, hfound⟩

/-! ## The end of a view -/

theorem Block.segments?_eq_none {block : Block π} (h : ∀ output segments, block ≠ .flatten output segments) :
    block.segments? = none := by
  cases block with
  | flatten output segments => exact absurd rfl (h output segments)
  | _ => rfl

theorem Estate.children_of_finished {e : Estate π} {b : Ref .block} {v : Outline π} (hv : e.view b = some v)
    (hf : v.finished = true) : e.children (.block b) = [] := by
  simp [children, hv, hf]

theorem Estate.retire_of_finished {e : Estate π} {b : Ref .block} {v : Outline π} (hv : e.view b = some v)
    (hf : v.finished = true) : e.retire b v = e := by
  have hsame : { v with finished := true } = v := by rw [← hf]
  rw [retire, hsame]
  exact congrArg (fun view => ({ e with view } : Estate π)) (Function.update_eq_self_iff.2 hv.symm)

/-- What runs for the elements of a view that has been finished is taken down. -/
theorem clearRelations_yields (hE : E.Sound) {b : Ref .block} {v : Outline π} {r : Ref .relations} {y : Roster}
    (hv : w.estate.view b = some v) (hf : v.finished = true) (hr : v.relations = some r) (hy : w.estate.roster r = some y) :
    Yields P {x | x ∈ y.entries.map Asset.entry} (do
      let entries := ((← cells).relationsCell r).entries
      modifyRelations r fun c => { c with entries := [] }
      cancelEntries E entries) (fun _ => ∅) w := by
  intro R hR
  obtain ⟨cell, hcell, hget, rfl⟩ := World.roster_eq hy
  have hchildren : (w.estate.setRoster r ⟨cell.owner, []⟩).children (.block b) = w.estate.children (.block b) :=
    (children_of_finished (e := w.estate.setRoster r ⟨cell.owner, []⟩) hv hf).trans (children_of_finished hv hf).symm
  obtain ⟨h₁, hs₁⟩ := (rewires_setRoster hR hv hr hy []).same hchildren hR
  rw [← World.estate_modifyRelations (f := fun c => { c with entries := [] }) hcell] at h₁ hs₁
  simp only [Run.leads_bind, leads_cells, hget, modifyRelations, leads_modifyCells]
  exact (cancelEntries_yields hE cell.entries R h₁).imp fun _ w' h => ⟨h.1, hs₁.trans h.2.1, fun _ hx => hx.elim⟩

/-- A view that nothing holds is finished, and what runs for its elements is taken down. The view was in hand, or is not given
up any more. -/
theorem finish_leads (hE : E.Sound) {e : Estate π} {b : Ref .block} {os : List (Ref .block)}
    (he : w.estate = e.withOrphans os) (hR : Sound P (R ∪ {.block b}) e) (hP : b ∉ P) (hheld : ¬e.Held b)
    (hos : ∀ b' ∈ os, b' ∈ e.orphans) (hrest : ∀ b' ∈ e.orphans, b' ≠ b → b' ∈ os) :
    (finish E b).Leads w fun _ w' =>
      Sound P R w'.estate ∧ Stays P e w'.estate ∧ ∀ b' ∈ w'.estate.orphans, b' ∈ os ∨ w'.estate.Held b' := by
  obtain ⟨v, hv⟩ := Option.isSome_iff_exists.1 (show (e.view b).isSome from hR.known (.of_mem (Or.inr rfl)))
  obtain ⟨⟨block, finished⟩, hc, rfl⟩ : ∃ cell, w.env.cells.blocks[b.index]? = some cell ∧ cell.outline = v := by
    have hview : w.estate.view b = some v := he ▸ hv
    simpa [World.estate, Cells.view] using hview
  obtain ⟨h₁, hs₁⟩ := hR.finish hv hP hheld hos hrest
  -- What is left to do, once the view is marked as finished, is to take down what it led to.
  have htaken : ∀ {w₁ : World (Callback π) (Env π (Ledger π τ))} {act : Live π (Ledger π τ) Unit},
      w₁.estate = (e.retire b (BlockCell.outline ⟨block, finished⟩)).withOrphans os →
      Yields P {x | x ∈ e.children (.block b)} act (fun _ => ∅) w₁ → act.Leads w₁ fun _ w' =>
        Sound P R w'.estate ∧ Stays P e w'.estate ∧ ∀ b' ∈ w'.estate.orphans, b' ∈ os ∨ w'.estate.Held b' := by
    intro w₁ act he₁ hact
    have ho₁ : w₁.estate.orphans = os := by rw [he₁, withOrphans]
    rw [← he₁] at h₁ hs₁
    exact (hact R h₁).imp fun _ w' h => ⟨by simpa using h.1, hs₁.trans h.2.1, fun b' hb' => ho₁ ▸ h.2.1.orphans hb'⟩
  cases finished with
  | true =>
    have hb : w.env.cells.block? b = none := by simp [Cells.block?, hc]
    simp only [finish, Run.leads_bind, leads_cells, hb]
    refine htaken (by rw [retire_of_finished hv rfl, he]) ?_
    simp only [children_of_finished hv rfl]
    exact .pure _ (by simp)
  | false =>
    have hb : w.env.cells.block? b = some block := Cells.block?_eq_some.2 hc
    simp only [finish, Run.leads_bind, leads_cells, hb, leads_modifyCells]
    generalize hw₁ : w.withCells _ = w₁
    have he₁ : w₁.estate = (e.retire b (BlockCell.outline ⟨block, false⟩)).withOrphans os := by
      rw [← hw₁, World.estate_modifyBlocks hc, he]
      rfl
    refine htaken he₁ ?_
    have hchildren : e.children (.block b) = e.elements (BlockCell.outline ⟨block, false⟩) := by
      simp [children, hv, BlockCell.outline]
    rw [hchildren]
    split
    · exact cancelSegments_yields hE _
    · rename_i hflat
      simp only [elements, BlockCell.outline, Block.segments?_eq_none hflat]
      split
      · rename_i r hr
        obtain ⟨y, hy, -⟩ := hR.owners hv (show (BlockCell.outline ⟨block, false⟩).relations = some r from hr)
        simp only [hr, Option.bind_some, hy, Option.elim_some]
        refine clearRelations_yields hE (b := b) (v := { BlockCell.outline ⟨block, false⟩ with finished := true }) ?_ rfl hr ?_
        · rw [he₁]
          exact setView_self
        · rw [he₁]
          exact hy
      · rename_i hr
        simp only [hr]
        exact .pure _ (by simp)

/-- The owner of a view lets it go. -/
theorem release_yields (hE : E.Sound) {b : Ref .block} (hP : b ∉ P) : Yields P {.block b} (release E b) (fun _ => ∅) w := by
  intro R hR
  simp only [release, Run.leads_bind, Run.leads_get]
  split
  · rename_i hheld
    obtain ⟨h₁, h₂⟩ := hR.giveUp hP ((World.isHeld_iff hR).1 hheld)
    refine ⟨?_, h₂, fun _ hx => hx.elim⟩
    rw [Set.union_empty]
    exact h₁
  · rename_i hheld
    have hsame : w.estate = w.estate.withOrphans w.estate.orphans := rfl
    refine (finish_leads hE hsame hR hP (fun h => hheld ((World.isHeld_iff hR).2 h)) (fun _ h => h) fun _ h _ => h).imp
       fun _ w' h => ⟨by simpa using h.1, h.2.1, fun _ hx => hx.elim⟩

/-! ## Views that were given up -/

/-- The views that were given up and that nothing holds any more are finished, as many of them at most as there are rounds. -/
theorem finishOrphans_settles (hE : E.Sound) {rounds : Nat} {loose : List (Ref .block)} (hl : loose.length ≤ rounds)
    (ho : ∀ b ∈ w.estate.orphans, w.estate.Held b ∨ b ∈ loose) : Settles P (finishOrphans E rounds) w := by
  induction rounds generalizing w loose with
  | zero =>
    intro R hR
    rw [List.eq_nil_of_length_eq_zero (Nat.le_zero.1 hl)] at ho
    exact ⟨hR, .refl P _, fun b hb => (ho b hb).resolve_right List.not_mem_nil⟩
  | succ rounds ih =>
    intro R hR
    simp only [finishOrphans, Run.leads_bind, Run.leads_get]
    split
    · rename_i hnone
      refine ⟨hR, .refl P _, fun b hb => (World.isHeld_iff hR).1 ?_⟩
      simpa using List.find?_eq_none.1 hnone b hb
    · rename_i b hsome
      have hb : b ∈ w.estate.orphans := List.mem_of_find?_eq_some hsome
      have hheld : ¬w.estate.Held b := by
        rw [← World.isHeld_iff hR]
        simpa using List.find?_some hsome
      have hroot : w.estate.Named ∅ (.block b) := Or.inl (Or.inr (Or.inr ⟨b, hb, rfl⟩))
      have hP : b ∉ P := fun hb' => (hR.reserved hb').2 hroot
      have hR' : Sound P (R ∪ {.block b}) w.estate := by
        refine hR.also ?_
        rintro _ rfl
        exact hroot.mono (Set.empty_subset R)
      simp only [Run.leads_bind, leads_modifyCells]
      generalize hw₁ : w.withCells _ = w₁
      have he₁ : w₁.estate = w.estate.withOrphans (w.estate.orphans.filter (· != b)) := by
        rw [← hw₁]
        rfl
      refine (finish_leads hE he₁ hR' hP hheld (fun _ h => (List.mem_filter.1 h).1) fun b' h hne => ?_).imp
        fun _ w₂ h₂ => ?_
      · exact List.mem_filter.2 ⟨h, by simpa using hne⟩
      · obtain ⟨hR₂, hs₂, ho₂⟩ := h₂
        have hlen : (loose.filter (· != b)).length ≤ rounds := by
          have hbl : b ∈ loose := (ho b hb).resolve_left hheld
          have := List.length_filter_lt_length_iff_exists (p := (· != b)).2 ⟨b, hbl, by simp⟩
          omega
        refine (ih hlen (fun b' hb' => ?_) R hR₂).imp fun _ w₃ h₃ => ⟨h₃.1, hs₂.trans h₃.2.1, h₃.2.2⟩
        rcases ho₂ b' hb' with hb' | hb'
        · obtain ⟨hmem, hne⟩ := List.mem_filter.1 hb'
          exact (ho b' hmem).imp hs₂.of_held fun hb' => List.mem_filter.2 ⟨hb', hne⟩
        · exact Or.inl hb'

theorem sweep_settles (hE : E.Sound) : Settles P (sweep E) w :=
  finishOrphans_settles hE le_rfl fun _ hb => Or.inr hb

/-- An update of a view keeps what there is if it does so while the view is held. -/
theorem holdingBlock_keeps (hE : E.Sound) {b : Ref .block} {act : Live π (Ledger π τ) Unit}
    (ha : Keeps P act (w.withCells { w.env.cells with heldBlocks := b :: w.env.cells.heldBlocks })) :
    Keeps P (holdingBlock E b act) w := by
  intro R hR
  simp only [holdingBlock, Run.leads_bind, leads_cells, Run.leads_restoring, leads_modifyCells]
  have hh : w.estate.held ⊆ w.estate.held := List.Subset.refl _
  have hb : w.estate.heldBlocks ⊆ b :: w.estate.heldBlocks := List.subset_cons_self ..
  refine (ha R (hR.hold hh hb)).imp fun _ w₁ h₁ => ?_
  obtain ⟨hs₁, hl₁⟩ := Stays.restore h₁.2 hR h₁.1 hh hb
  have he : World.estate (w₁.withCells { w₁.env.cells with heldBlocks := w.env.cells.heldBlocks }) =
      w₁.estate.holds w.estate.held w.estate.heldBlocks := by
    rw [← show w₁.estate.held = w.estate.held from h₁.2.held]
    rfl
  rw [← he] at hs₁ hl₁
  refine (sweep_settles hE R hs₁).imp fun _ w₃ h₃ => ⟨h₃.1, hl₁.trans h₃.2.1.toLasts, fun hb => Or.inr (h₃.2.2 _ hb)⟩

end LiveBindings
