import LiveBindings.Collection.Block
import LiveBindings.Proofs.Lifetimes

/-!
# The elements of a view

A view that runs and that nothing finishes meanwhile (`Estate.Firm`) leads to what it starts for its elements, and what it drops
of them is taken down (`Relations.splice_keeps`, `spliceFlatten_keeps`).
-/

namespace LiveBindings

open Estate

variable {π τ : Type} {P : Set (Ref .block)} {R R' X : Set Asset} {e e₀ e₁ e' : Estate π} {a : Asset} {b : Ref .block}

/-! ## A view that runs -/

namespace Estate

/-- Nothing finishes a view before what is in progress is over. -/
def Firm (e : Estate π) (P : Set (Ref .block)) (b : Ref .block) : Prop := b ∈ P ∨ e.Held b

theorem Safe.firm (h : e.Safe P (.block b)) (hr : e.Running b) : e.Firm P b := by
  rcases h.2 b rfl with hb | hb | ⟨v, hv, hf⟩
  · exact Or.inl hb
  · exact Or.inr hb
  · obtain ⟨v', hv', hf'⟩ := hr
    obtain rfl : v = v' := Option.some.inj (hv.symm.trans hv')
    rw [hf] at hf'
    cases hf'

theorem Carries.firm (hc : Carries P e e') (h : e.Firm P b) : e'.Firm P b := h.imp_right hc.of_held

/-- A view that runs has entries for its elements. -/
def Relates (e : Estate π) (b : Ref .block) (r : Ref .relations) : Prop :=
  ∃ v, e.view b = some v ∧ v.finished = false ∧ v.relations = some r ∧ v.segments = none

/-- A view that runs has segments for its elements. -/
def Divides (e : Estate π) (b : Ref .block) (ss : List (Ref .segment)) : Prop :=
  ∃ v, e.view b = some v ∧ v.finished = false ∧ v.segments = some ss

theorem Carries.relates {r : Ref .relations} (hc : Carries P e e') (hb : e.Firm P b) (h : e.Relates b r) : e'.Relates b r := by
  obtain ⟨v, hv, hf, hr, hs⟩ := h
  obtain ⟨v', hv', -, hr', hs', -, hf'⟩ := hc.view hv
  refine ⟨v', hv', hf' hb hf, hr'.trans hr, ?_⟩
  rw [hs] at hs'
  simpa using hs'

theorem Carries.divides {ss : List (Ref .segment)} (hc : Carries P e e') (hb : e.Firm P b) (h : e.Divides b ss) :
    ∃ ss', e'.Divides b ss' := by
  obtain ⟨v, hv, hf, hs⟩ := h
  obtain ⟨v', hv', -, -, hs', -, hf'⟩ := hc.view hv
  rw [hs, Option.isSome_some, Option.isSome_iff_exists] at hs'
  obtain ⟨ss', hs'⟩ := hs'
  exact ⟨ss', v', hv', hf' hb hf, hs'⟩

theorem Relates.needs {r : Ref .relations} (h : e.Relates b r) : e.Needs (.block b) := by
  obtain ⟨v, hv, hf, hr, -⟩ := h
  exact ⟨v, hv, hf, Or.inl (by rw [hr]; rfl)⟩

theorem Divides.needs {ss : List (Ref .segment)} (h : e.Divides b ss) : e.Needs (.block b) := by
  obtain ⟨v, hv, hf, hs⟩ := h
  exact ⟨v, hv, hf, Or.inr (by rw [hs]; rfl)⟩

theorem Relates.children {r : Ref .relations} {y : Roster} (h : e.Relates b r) (hy : e.roster r = some y) :
    e.children (.block b) = y.entries.map .entry := by
  obtain ⟨v, hv, hf, hr, hs⟩ := h
  simp [Estate.children, hv, hf, elements, hs, hr, hy]

theorem Sound.rostered {r : Ref .relations} (h : Sound P R e) (hb : e.Relates b r) : ∃ y, e.roster r = some y := by
  obtain ⟨v, hv, -, hr, -⟩ := hb
  obtain ⟨y, hy, -⟩ := h.owners hv hr
  exact ⟨y, hy⟩

theorem Divides.children {ss : List (Ref .segment)} (h : e.Divides b ss) :
    e.children (.block b) = ss.map .segment := by
  obtain ⟨v, hv, hf, hs⟩ := h
  simp [Estate.children, hv, hf, elements, hs]

theorem has_of_needs (h : e.Needs (.block b)) : e.Has (.block b) := by
  obtain ⟨v, hv, -⟩ := h
  exact Option.isSome_iff_exists.2 ⟨v, hv⟩

/-- What a view sends its values to is there, and views among it are not finished before the view is. -/
theorem Sound.sinkSafe {v : Outline π} {s : Sink π} (h : Sound P R e) (hv : e.view b = some v) (hs : v.sink = some s)
    (hb : e.Firm P b) : e.AllSafe P s.refs := by
  intro a ha
  rcases hb with hb | hb
  · exact h.fenced hb hv hs a ha
  · refine ⟨(h.sinks hv hs a ha).1, ?_⟩
    rintro b' rfl
    obtain ⟨v', hv'⟩ := Option.isSome_iff_exists.1 (h.sinks hv hs _ ha).1
    cases hf : v'.finished with
    | true => exact Or.inr (Or.inr ⟨v', hv', hf⟩)
    | false => exact Or.inr (Or.inl (.through hb hv hs ha ⟨v', hv', hf⟩))

/-- An asset that needs an owner is not spent, unless it is a view that was given up. -/
theorem Rewires.spent (hr : Rewires a e e') (hn : e.Needs a) (h : e.Spent a) : e'.Spent a := by
  rcases h with ⟨-, -, hn'⟩ | h
  · exact absurd hn hn'
  · rw [← hr.orphans] at h
    exact Or.inr h

/-- An asset that needs an owner drops the assets `stale` and comes to lead to the assets `fresh`, which were in hand. -/
theorem Rewires.exchange {old new fresh stale : List Asset} (hr : Rewires a e e') (hR : Sound P (R ∪ {x | x ∈ fresh}) e)
    (hs : Stays P e₀ e) (hn : e.Needs a) (hbefore : e.children a = old) (hafter : e'.children a = new)
    (hreach : ∀ x ∈ fresh, e.Reach R a) (hnew : ∀ x ∈ fresh, ¬e₀.Has x) (hP : ∀ b ∈ P, .block b ∉ fresh)
    (hfresh : fresh ⊆ new) (htaken : new ⊆ old ++ fresh) (hstale : stale ⊆ old) (hdropped : old ⊆ new ++ stale) :
    Sound P (R ∪ {x | x ∈ stale}) e' ∧ Stays P e₀ e' := by
  refine ⟨hr.sound hR ?_ ?_ ?_ ?_ hreach hP, hr.stays hs ?_ (hr.spent hn ∘ hs.spent)⟩
  all_goals rw [hbefore] at *
  all_goals rw [hafter] at *
  · exact hfresh
  · exact fun x hx => List.mem_append.1 (htaken hx)
  · exact fun x hx => List.mem_append.1 (hdropped hx)
  · exact hstale
  · exact fun x hx => (List.mem_append.1 (htaken hx)).imp_right fun hx => hnew x hx

/-! ## New cells -/

/-- A new cell takes the handle of what was started for it. -/
theorem Sound.fill {c : Cancel π} {h₀ : Holder π} (ha : a.IsCell) (hs₁ : Stays P e₀ e₁) (hnew : ¬e₀.Has a)
    (hR₁ : Sound P R' e₁) (hsp : e₁.Spent a) (hs : Stays P e₁ e) (hfresh : ∀ x ∈ c.assets, ¬e₁.Has x)
    (hR : Sound P (R ∪ {a} ∪ {x | x ∈ c.assets}) e) (hh : e.holder a = some h₀) :
    Sound P (R ∪ {a}) (e.setHolder a { h₀ with handle := c }) ∧ Stays P e₀ (e.setHolder a { h₀ with handle := c }) := by
  have hnone : h₀.handle.assets = [] := by
    rcases hs.spent hsp with ⟨-, hc, -⟩ | ⟨b, -, rfl⟩
    · rw [← hc]
      cases a <;> first | exact ha.elim | simp [Estate.children, hh]
    · exact ha.elim
  constructor
  · simpa [hnone] using hR.put ha hh (.root (Or.inl (Or.inr rfl))) (hR₁.avoids hfresh)
  · refine (hs₁.trans hs).put ha hh (fun x hx hx' => hfresh x hx (hs₁.has hx')) ?_
    rintro (⟨hh', -⟩ | ⟨b, -, rfl⟩)
    · exact hnew hh'
    · exact ha.elim

end Estate

/-! ## Entries -/

section

variable {α : Type} {l : List α} {start stop : Nat}

/-! A run is cut out of a list, and another one is put in. -/

theorem rest_subset (start stop : Nat) : l.take start ++ l.drop stop ⊆ l :=
  List.append_subset_of_subset_of_subset (List.take_subset ..) (List.drop_subset ..)

theorem stale_subset (start stop : Nat) : (l.take stop).drop start ⊆ l :=
  List.Subset.trans (List.drop_subset ..) (List.take_subset ..)

theorem subset_cut (h : start ≤ stop) : l ⊆ l.take start ++ l.drop stop ++ (l.take stop).drop start := by
  have hcut : (l.take stop).take start ++ (l.take stop).drop start ++ l.drop stop = l := by
    rw [List.take_append_drop, List.take_append_drop]
  rw [List.take_take, Nat.min_eq_left h] at hcut
  intro x hx
  rw [← hcut] at hx
  simp only [List.mem_append] at hx ⊢
  tauto

theorem subset_insert_run (fresh : List α) (start : Nat) : fresh ⊆ l.take start ++ fresh ++ l.drop start :=
  fun _ hx => List.mem_append_left _ (List.mem_append_right _ hx)

theorem insert_run_subset (fresh : List α) (start : Nat) : l.take start ++ fresh ++ l.drop start ⊆ l ++ fresh := by
  intro x hx
  simp only [List.mem_append] at hx ⊢
  exact hx.elim (fun hx => hx.imp_left List.mem_of_mem_take) fun hx => Or.inl (List.mem_of_mem_drop hx)

theorem subset_of_insert_run (fresh : List α) (start : Nat) : l ⊆ l.take start ++ fresh ++ l.drop start := by
  intro x hx
  rw [← List.take_append_drop start l] at hx
  simp only [List.mem_append] at hx ⊢
  exact hx.imp_left Or.inl

end

namespace Relations

variable {E : Engine π (Ledger π τ)} {w : World (Callback π) (Env π (Ledger π τ))} {r : Ref .relations}

/-- The expression that is started for an element is led to by its entry. -/
theorem startEntry_yields (hE : E.Sound) (index : Nat) (input : Value) :
    Yields P ∅ (startEntry E r index input) (fun e => {.entry e}) w := by
  intro R hR
  rw [Set.union_empty] at hR
  simp only [startEntry, Run.leads_bind, leads_cells]
  refine (newEntry_leads _).imp fun entry w₁ h₁ => ?_
  have hcell : (Asset.entry entry).IsCell := trivial
  obtain ⟨hR₁, hs₁, hnew⟩ : Sound P (R ∪ {.entry entry}) w₁.estate ∧ Stays P w.estate w₁.estate ∧
      ¬w.estate.Has (.entry entry) := h₁.1 ▸ hR.make hcell h₁.2 rfl
  have hspent : w₁.estate.Spent (.entry entry) := h₁.1 ▸ spent_setHolder hcell rfl rfl
  refine Run.Leads.imp (holdEntries_quiet _) fun _ w₂ he₂ => ?_
  rw [← he₂] at hR₁ hs₁ hspent
  rw [← Set.union_empty (R ∪ _)] at hR₁
  refine (hE.start _ _ allSafe_nil _ hR₁).imp fun cancel w₃ h₃ => ?_
  obtain ⟨hR₃, hs₃, hfresh⟩ := h₃
  refine Run.Leads.imp (modifyEntry_quiet _ fun _ => rfl) fun _ w₄ he₄ => ?_
  rw [← he₄] at hR₃ hs₃
  have hfresh₁ : ∀ x ∈ cancel.assets, ¬w₂.estate.Has x := fun x hx => (hfresh x hx).resolve_left id
  obtain ⟨cell, hc⟩ : ∃ cell, w₄.env.cells.entries[entry.index]? = some cell := hR₃.entry (Or.inl (Or.inr rfl))
  obtain ⟨h, hs⟩ := Sound.fill hcell hs₁ hnew hR₁ hspent hs₃ hfresh₁ hR₃ (World.holder_entry hc)
  have he := World.estate_modifyEntry (f := fun c => { c with cancel }) hc
  refine ⟨he ▸ h, he ▸ hs, ?_⟩
  rintro _ rfl
  exact Or.inr hnew

theorem startEntries_yields (hE : E.Sound) (index : Nat) (items : List Value) :
    Yields P ∅ (startEntries E r index items) (fun es => {x | x ∈ es.map Asset.entry}) w := by
  induction items generalizing w index with
  | nil => exact .pure _ (by simp)
  | cons v vs ih =>
    refine (startEntry_yields hE index v).also fun e w₁ _ => ?_
    rw [Set.empty_union]
    refine (ih (index + 1)).also fun es w₂ _ => .pure _ ?_
    ext x
    simp

theorem number_quiet (index : Nat) (es : List (Ref .entry)) : Quiet (number (π := π) (σ := Ledger π τ) index es) w := by
  induction es generalizing w index with
  | nil => rfl
  | cons e es ih =>
    refine (Run.leads_bind ..).2 (Run.Leads.imp (modifyEntry_quiet e fun _ => rfl) fun _ w₁ he => ?_)
    exact he ▸ ih (index + 1)

/-- A view that runs drops the entries `stale` and takes the entries `fresh`, which were in hand. -/
theorem setEntries_leads {es fresh stale : List (Ref .entry)} {y : Roster}
    (hR : Sound P (R ∪ {x | x ∈ fresh.map Asset.entry}) w.estate) (hb : w.estate.Relates b r) (hy : w.estate.roster r = some y)
    (hs : Stays P e₀ w.estate) (hreach : ∀ x ∈ fresh.map Asset.entry, w.estate.Reach R (.block b))
    (hnew : ∀ x ∈ fresh.map Asset.entry, ¬e₀.Has x) (hfresh : fresh ⊆ es) (htaken : es ⊆ y.entries ++ fresh)
    (hstale : stale ⊆ y.entries) (hdropped : y.entries ⊆ es ++ stale) :
    (modifyRelations r fun c => { c with entries := es }).Leads w fun _ w' =>
      Sound P (R ∪ {x | x ∈ stale.map Asset.entry}) w'.estate ∧ Stays P e₀ w'.estate ∧ w'.estate.Relates b r := by
  obtain ⟨v, hv, -, hr, -⟩ := id hb
  obtain ⟨cell, hcell, -, rfl⟩ := World.roster_eq hy
  have hb' : (w.estate.setRoster r ⟨cell.owner, es⟩).Relates b r := hb
  have he : (modifyRelations r fun c => { c with entries := es }).Leads w fun _ w' =>
      w'.estate = w.estate.setRoster r ⟨cell.owner, es⟩ := World.estate_modifyRelations hcell
  refine he.imp fun _ w' he => ?_
  rw [he, ← and_assoc]
  refine ⟨(rewires_setRoster hR hv hr hy es).exchange hR hs hb.needs (hb.children hy) (hb'.children (Function.update_self ..))
    hreach hnew (by simp) (List.map_subset _ hfresh) ?_ (List.map_subset _ hstale) ?_, hb'⟩
  · exact List.map_append ▸ List.map_subset _ htaken
  · exact List.map_append ▸ List.map_subset _ hdropped

/-- The entries that a view drops are cancelled, and those for the new elements belong to it. -/
theorem splice_keeps (hE : E.Sound) (hb : w.estate.Relates b r) (hf : w.estate.Firm P b) (index removed : Nat)
    (plus : List Value) : Keeps P (splice E r index removed plus) w := by
  refine .read rfl (.restoring (fun _ => rfl) ?_)
  intro R hR
  obtain ⟨y, hy⟩ := hR.rostered hb
  obtain ⟨cell, -, hget, rfl⟩ := World.roster_eq hy
  simp only [Run.leads_bind, leads_cells, hget]
  generalize hstart : min index cell.entries.length = start
  generalize hstop : min (start + removed) cell.entries.length = stop
  have hR' : Sound P (R ∪ {x | x ∈ ([] : List (Ref .entry)).map Asset.entry}) w.estate := by simpa using hR
  refine (setEntries_leads hR' hb hy (.refl P _) (by simp) (by simp) (List.nil_subset _) ?_
    (stale_subset start stop) (subset_cut (by omega))).imp fun _ w₁ h₁ => ?_
  · exact List.Subset.trans (rest_subset start stop) (List.subset_append_left ..)
  obtain ⟨hR₁, hs₁, hb₁⟩ := h₁
  refine Run.Leads.imp (holdEntries_quiet _) fun _ w₂ he₂ => ?_
  rw [← he₂] at hR₁ hs₁ hb₁
  refine (cancelEntries_yields hE _ R hR₁).imp fun _ w₃ h₃ => ?_
  obtain ⟨hR₃, hs₃, -⟩ := h₃
  have hf₃ := (hs₁.trans hs₃).firm hf
  have hb₃ := (hs₁.trans hs₃).relates hf hb
  refine (startEntries_yields hE index plus R hR₃).imp fun fresh w₄ h₄ => ?_
  obtain ⟨hR₄, hs₄, hnew⟩ := h₄
  have hb₄ := hs₄.relates hf₃ hb₃
  have hfresh : ∀ x ∈ fresh.map Asset.entry, ¬w₃.estate.Has x := fun x hx => (hnew x hx).resolve_left id
  obtain ⟨y₄, hy₄⟩ := hR₄.rostered hb₄
  obtain ⟨cell₄, -, hget₄, rfl⟩ := World.roster_eq hy₄
  simp only [hget₄]
  have hreach := hs₄.reach hfresh (hR₄.covered hb₄.needs) (has_of_needs hb₃.needs)
  have hstale : ([] : List (Ref .entry)) ⊆ cell₄.entries := List.nil_subset _
  refine (setEntries_leads hR₄ hb₄ hy₄ (hs₁.trans (hs₃.trans hs₄)) (fun _ _ => hreach)
    (fun x hx hh => hfresh x hx ((hs₁.trans hs₃).has hh)) ?_ ?_ hstale ?_).imp fun _ w₅ h₅ => ?_
  · exact subset_insert_run _ _
  · exact insert_run_subset _ _
  · exact List.append_nil (α := Ref .entry) _ ▸ subset_of_insert_run _ _
  obtain ⟨hR₅, hs₅, -⟩ := h₅
  refine Run.Leads.imp (number_quiet _ _) fun _ w₆ he₆ => ?_
  rw [← he₆] at hR₅ hs₅
  exact ⟨by simpa using hR₅, hs₅⟩

theorem reset_keeps (hE : E.Sound) (hb : w.estate.Relates b r) (hf : w.estate.Firm P b) (items : List Value) :
    Keeps P (reset E r items) w := .read rfl (splice_keeps hE hb hf _ _ _)

/-- The result for an element keeps what there is if the view does so that is told of it. -/
theorem receive_keeps {update : Nat → Value → Value → Live π (Ledger π τ) Unit}
    (hu : ∀ index old new w, Keeps P (update index old new) w) (entry : Ref .entry) (v : Value) :
    Keeps P (receive update r entry v) w := by
  refine .read rfl ?_
  split
  · refine .read rfl (.restoring (fun _ => rfl) ?_)
    refine (holdEntries_quiet _).keeps.bind fun _ w₁ _ => .read rfl ?_
    dsimp only
    refine (modifyEntry_quiet entry (f := fun c => { c with output := v }) fun _ => rfl).keeps.bind fun _ w₂ _ => ?_
    refine .read rfl ?_
    split
    · exact hu _ _ _ _
    · exact .pure _
  · exact .pure _

end Relations

/-! ## Segments -/

section

variable {E : Engine π (Ledger π τ)} {w : World (Callback π) (Env π (Ledger π τ))}

theorem elementsOf_quiet (value : Value) : Quiet (elementsOf value) w := by
  cases value <;> rfl

/-- The listener of an inner list is led to by its segment. -/
theorem watchSegment_yields (index : Nat) (value : Value) :
    Yields P ∅ (watchSegment (σ := Ledger π τ) b index value) (fun s => {.segment s}) w := by
  intro R hR
  rw [Set.union_empty] at hR
  simp only [watchSegment, Run.leads_bind]
  refine Run.Leads.imp (elementsOf_quiet value) fun items w₀ he₀ => ?_
  rw [← he₀] at hR ⊢
  refine (newSegment_leads _).imp fun segment w₁ h₁ => ?_
  have hcell : (Asset.segment segment).IsCell := trivial
  obtain ⟨hR₁, hs₁, hnew⟩ : Sound P (R ∪ {.segment segment}) w₁.estate ∧ Stays P w₀.estate w₁.estate ∧
      ¬w₀.estate.Has (.segment segment) := h₁.1 ▸ hR.make hcell h₁.2 rfl
  have hspent : w₁.estate.Spent (.segment segment) := h₁.1 ▸ spent_setHolder hcell rfl rfl
  have hfresh : ∀ x ∈ ({.segment segment} : Set Asset), x ∈ (∅ : Set Asset) ∨ ¬w₀.estate.Has x := by
    rintro _ rfl
    exact Or.inr hnew
  split
  · rename_i inner
    rw [← Set.union_empty (R ∪ _)] at hR₁
    simp only [Run.leads_bind]
    refine (ListId.listen_yields inner .content (by simp) (by simp [Callback.refs]) _ hR₁).imp fun id w₂ h₂ => ?_
    obtain ⟨hR₂, hs₂, hfresh₂⟩ := h₂
    have hfresh₁ : ∀ x ∈ (Cancel.unlistenList (π := π) inner .content id).assets, ¬w₁.estate.Has x :=
      fun x hx => (hfresh₂ x (by simpa [Cancel.assets] using hx)).resolve_left not_false
    obtain ⟨cell, hc⟩ : ∃ cell, w₂.env.cells.segments[segment.index]? = some cell := hR₂.segment (Or.inl (Or.inr rfl))
    have he := World.estate_modifySegment (f := fun c => { c with cancel := .unlistenList inner .content id }) hc
    obtain ⟨h, hs⟩ := Sound.fill hcell hs₁ hnew hR₁ hspent hs₂ hfresh₁ (by simpa [Cancel.assets] using hR₂)
      (World.holder_segment hc)
    exact ⟨he ▸ h, he ▸ hs, hfresh⟩
  · exact ⟨hR₁, hs₁, hfresh⟩

theorem watchSegments_yields (index : Nat) (items : List Value) :
    Yields P ∅ (watchSegments (σ := Ledger π τ) b index items) (fun ss => {x | x ∈ ss.map Asset.segment}) w := by
  induction items generalizing w index with
  | nil => exact .pure _ (by simp)
  | cons v vs ih =>
    refine (watchSegment_yields index v).also fun s w₁ _ => ?_
    rw [Set.empty_union]
    refine (ih (index + 1)).also fun ss w₂ _ => .pure _ ?_
    ext x
    simp

theorem numberSegments_quiet (index : Nat) (ss : List (Ref .segment)) :
    Quiet (numberSegments (π := π) (σ := Ledger π τ) index ss) w := by
  induction ss generalizing w index with
  | nil => rfl
  | cons s ss ih =>
    refine (Run.leads_bind ..).2 (Run.Leads.imp (modifySegment_quiet s fun _ => rfl) fun _ w₁ he => ?_)
    exact he ▸ ih (index + 1)

theorem block?_of_divides {ss : List (Ref .segment)} (hb : w.estate.Divides b ss) :
    ∃ output, w.env.cells.blocks[b.index]? = some { block := .flatten output ss } := by
  obtain ⟨v, hv, hf, hseg⟩ := hb
  obtain ⟨⟨block, finished⟩, hc, rfl⟩ : ∃ cell, w.env.cells.blocks[b.index]? = some cell ∧ cell.outline = v := by
    simpa [World.estate, Cells.view] using hv
  obtain rfl : finished = false := hf
  cases block with
  | flatten output segments =>
    obtain rfl : segments = ss := by simpa [BlockCell.outline, Block.segments?] using hseg
    exact ⟨output, hc⟩
  | _ => cases hseg

theorem segmentsOf_eq {ss : List (Ref .segment)} (hb : w.estate.Divides b ss) : segmentsOf b w = .ok ss w := by
  obtain ⟨output, hc⟩ := block?_of_divides hb
  have hcells : (cells : Live π (Ledger π τ) _) w = .ok w.env.cells w := rfl
  simp [segmentsOf, bind, EStateM.bind, hcells, pure, EStateM.pure, Cells.block?_eq_some.2 hc]

/-- A view that runs drops the segments `stale` and takes the segments `fresh`, which were in hand. -/
theorem setSegments_leads {old ss fresh stale : List (Ref .segment)}
    (hR : Sound P (R ∪ {x | x ∈ fresh.map Asset.segment}) w.estate) (hb : w.estate.Divides b old)
    (hs : Stays P e₀ w.estate) (hreach : ∀ x ∈ fresh.map Asset.segment, w.estate.Reach R (.block b))
    (hnew : ∀ x ∈ fresh.map Asset.segment, ¬e₀.Has x) (hfresh : fresh ⊆ ss) (htaken : ss ⊆ old ++ fresh)
    (hstale : stale ⊆ old) (hdropped : old ⊆ ss ++ stale) :
    (setSegments b ss).Leads w fun _ w' =>
      Sound P (R ∪ {x | x ∈ stale.map Asset.segment}) w'.estate ∧ Stays P e₀ w'.estate ∧ w'.estate.Divides b ss := by
  obtain ⟨output, hc⟩ := block?_of_divides hb
  have hv : w.estate.view b = some (BlockCell.outline { block := .flatten output old }) := by
    simp [World.estate, Cells.view, hc]
  have hb' : (w.estate.setView b { BlockCell.outline (π := π) { block := .flatten output old } with
    segments := some ss }).Divides b ss := ⟨_, setView_self, rfl, rfl⟩
  have he : (setSegments b ss).Leads w fun _ w' => w'.estate = w.estate.setView b
      { BlockCell.outline { block := .flatten output old } with segments := some ss } := World.estate_modifyBlocks hc
  refine he.imp fun _ w' he => ?_
  rw [he, ← and_assoc]
  refine ⟨(rewires_setSegments hv rfl ss).exchange hR hs hb.needs hb.children hb'.children hreach hnew (by simp)
    (List.map_subset _ hfresh) ?_ (List.map_subset _ hstale) ?_, hb'⟩
  · exact List.map_append ▸ List.map_subset _ htaken
  · exact List.map_append ▸ List.map_subset _ hdropped

theorem allElements_quiet (items : List Value) : Quiet (allElements items) w := by
  induction items generalizing w with
  | nil => rfl
  | cons v vs ih =>
    simp only [Quiet, allElements, Run.leads_bind]
    refine Run.Leads.imp (elementsOf_quiet v) fun _ w₁ he₁ => Run.Leads.imp ih fun _ w₂ he₂ => he₂.trans he₁

/-- The segments that a view drops are cancelled, and those for the new elements belong to it. -/
theorem spliceFlatten_keeps (hE : E.Sound) {old : List (Ref .segment)} (hb : w.estate.Divides b old) (hf : w.estate.Firm P b)
    (output : ListId) (index removed : Nat) (plus : List Value) :
    Keeps P (spliceFlatten E b output index removed plus) w := by
  intro R hR
  simp only [spliceFlatten, Run.leads_bind]
  rw [Run.leads_ok (segmentsOf_eq hb)]
  simp only [leads_cells]
  generalize hstart : min index old.length = start
  generalize hstop : min (start + removed) old.length = stop
  have hR' : Sound P (R ∪ {x | x ∈ ([] : List (Ref .segment)).map Asset.segment}) w.estate := by simpa using hR
  refine (setSegments_leads hR' hb (.refl P _) (by simp) (by simp) (List.nil_subset _) ?_
    (stale_subset start stop) (subset_cut (by omega))).imp fun _ w₁ h₁ => ?_
  · exact List.Subset.trans (rest_subset start stop) (List.subset_append_left ..)
  obtain ⟨hR₁, hs₁, hb₁⟩ := h₁
  refine (cancelSegments_yields hE _ R hR₁).imp fun _ w₂ h₂ => ?_
  obtain ⟨hR₂, hs₂, -⟩ := h₂
  have hf₂ := (hs₁.trans hs₂).firm hf
  obtain ⟨ss₂, hb₂⟩ := hs₂.divides (hs₁.firm hf) hb₁
  refine (watchSegments_yields index plus R hR₂).imp fun fresh w₃ h₃ => ?_
  obtain ⟨hR₃, hs₃, hnew⟩ := h₃
  obtain ⟨ss₃, hb₃⟩ := hs₃.divides hf₂ hb₂
  have hfresh : ∀ x ∈ fresh.map Asset.segment, ¬w₂.estate.Has x := fun x hx => (hnew x hx).resolve_left id
  have hreach := hs₃.reach hfresh (hR₃.covered hb₃.needs) (has_of_needs hb₂.needs)
  have hs := hs₁.trans (hs₂.trans hs₃)
  rw [Run.leads_ok (segmentsOf_eq hb₃)]
  have hstale : ([] : List (Ref .segment)) ⊆ ss₃ := List.nil_subset _
  refine (setSegments_leads hR₃ hb₃ hs (fun _ _ => hreach)
    (fun x hx hh => hfresh x hx ((hs₁.trans hs₂).has hh)) ?_ ?_ hstale ?_).imp fun _ w₄ h₄ => ?_
  · exact subset_insert_run _ _
  · exact insert_run_subset _ _
  · exact List.append_nil (α := Ref .segment) _ ▸ subset_of_insert_run _ _
  obtain ⟨hR₄, hs₄, -⟩ := h₄
  refine Run.Leads.imp (numberSegments_quiet _ _) fun _ w₅ he₅ => ?_
  refine Run.Leads.imp (allElements_quiet plus) fun items w₆ he₆ => ?_
  rw [← he₅, ← he₆] at hR₄ hs₄
  exact ((ListId.splice_keeps hE _ _ _).discard R (by simpa using hR₄)).imp fun _ w₇ h₇ => ⟨h₇.1, hs₄.trans h₇.2⟩

end

end LiveBindings
