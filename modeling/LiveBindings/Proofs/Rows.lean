import LiveBindings.Observe.Emit
import LiveBindings.Proofs.Splicing

/-!
# The rows of a view

A view that evaluates an expression per element has a row for each: an entry of its own, the element, and the latest result.
`Rows` says that the cells of a view are the given rows in order. Its operations are followed with the rows as what is known:
a splice of the elements is a splice of the rows (`Around.splice_rows`), whose fresh results are the ones that the expression
last handed over when it was started for the new elements (`Neighbours.Evaluated`); a late result becomes the result of its
row (`Around.receive`).
-/

namespace LiveBindings

variable {π σ : Type}

/-- An element of a view: the entry that is its, the element itself, and the latest result. -/
structure Row where
  entry : Ref .entry
  input : Value
  output : Value

/-- What a view of elements is made of: the expression that it evaluates, and the cell of its rows. -/
structure Desk where
  relations : Ref .relations
  relation : Expr
  scope : Scope
  owner : Ref .block

/-- The cell of a view has its expression and scope. -/
structure Desk.Open (D : Desk) (w : World (Callback π) (Env π σ)) : Prop where
  relation : (w.env.cells.relationsCell D.relations).relation = D.relation
  scope : (w.env.cells.relationsCell D.relations).scope = D.scope

namespace Neighbours

variable {N : Neighbours π σ} {E : Engine π σ} {S S' T T' : Set Part} {w w' w₁ w₂ : World (Callback π) (Env π σ)} {p : Part}
  {D : Desk} {light : Set (Cancel π)} {rows : List Row} {x : Row}

/-- The neighbours went on, and from time to time a result for an entry was handed over. -/
inductive Hands (N : Neighbours π σ) (r : Ref .relations) (e : Ref .entry) (w : World (Callback π) (Env π σ)) :
    List Value → World (Callback π) (Env π σ) → Prop
  | start : Hands N r e w [] w
  | idle {vs w₁ w₂} (h : Hands N r e w vs w₁) (h' : N.Changes ∅ ∅ w₁ w₂) : Hands N r e w vs w₂
  | hand {vs w₁ w₂} (h : Hands N r e w vs w₁) (E : Engine π σ) (observer : π → Value → Live π σ Unit) (v : Value)
      (run : Sink.emit E observer (.result r e) v w₁ = .ok () w₂) : Hands N r e w (vs ++ [v]) w₂

/-- The expression of a view, started for one of its entries, hands over results while the neighbours go on. What stops it again is
light: nothing of the view is touched then. -/
structure Evaluates (N : Neighbours π σ) (E : Engine π σ) (D : Desk) (light : Set (Cancel π)) : Prop where
  start : ∀ {w e v}, N.calm w → N.Owns w (.entry e) → e ∈ w.env.cells.heldEntries → (w.env.cells.entry e).started = false →
    (E.start D.relation (.result D.relations e) (D.scope.nest v)).Ends w fun handle w' =>
      handle ∈ light ∧ ∃ vs u, N.Hands D.relations e w (vs ++ [u]) w'
  cancel : ∀ {w handle}, N.calm w → handle ∈ light → (E.cancel handle).Ends w fun _ w' => N.Changes ∅ ∅ w w'

/-- The value was the last one that the expression handed over when it was started for an element. -/
def Evaluated (N : Neighbours π σ) (E : Engine π σ) (D : Desk) (v u : Value) : Prop :=
  ∃ e w handle w' vs, E.start D.relation (.result D.relations e) (D.scope.nest v) w = .ok handle w' ∧
    N.Hands D.relations e w (vs ++ [u]) w'

/-- The entry of a row runs for its element. -/
structure Runs (N : Neighbours π σ) (light : Set (Cancel π)) (x : Row) (w : World (Callback π) (Env π σ)) : Prop where
  owns : N.Owns w (.entry x.entry)
  cell : ∃ c, w.env.cells.entries[x.entry.index]? = some c ∧ c.input = x.input ∧ c.output = x.output ∧ c.started = true ∧
    c.cancel ∈ light

/-- Entries are held meanwhile. -/
def Holds (N : Neighbours π σ) (S T : Set Part) (w w' : World (Callback π) (Env π σ)) : Prop :=
  ∃ es, N.Changes S T (w.during { w.progress with heldEntries := es }) w'

/-- The cells of a view are the rows, in order. -/
structure Rows (N : Neighbours π σ) (D : Desk) (light : Set (Cancel π)) (rows : List Row) (w : World (Callback π) (Env π σ)) :
    Prop where
  owns : N.Owns w (.relations D.relations)
  cell : w.env.cells.relations[D.relations.index]? =
    some { relation := D.relation, scope := D.scope, owner := D.owner, entries := rows.map (·.entry) }
  nodup : (rows.map (·.entry)).Nodup
  runs : ∀ x ∈ rows, N.Runs light x w
  numbered : ∀ i x, rows[i]? = some x → (w.env.cells.entry x.entry).index = i

/-- The parts that the rows of a view are kept in. -/
def rowParts (D : Desk) (rows : List Row) : Set Part := {p | p = .relations D.relations ∨ ∃ x ∈ rows, p = .entry x.entry}

@[simp] theorem list_notMem_rowParts {l : ListId} : .list l ∉ rowParts D rows := by simp [rowParts]

@[simp] theorem object_notMem_rowParts {o : ObjectId} : .object o ∉ rowParts D rows := by simp [rowParts]

@[simp] theorem block_notMem_rowParts {b : Ref .block} : .block b ∉ rowParts D rows := by simp [rowParts]

namespace Runs

theorem entry (h : N.Runs light x w) : (w.env.cells.entry x.entry).input = x.input ∧ (w.env.cells.entry x.entry).output = x.output ∧
    (w.env.cells.entry x.entry).started = true ∧ (w.env.cells.entry x.entry).cancel ∈ light := by
  obtain ⟨c, hc, h⟩ := h.cell
  simpa only [Cells.entry, Array.getD_eq_getD_getElem?, hc, Option.getD_some] using h

/-- The entry still runs after what does not touch it. -/
theorem after (h : N.Runs light x w) (h' : N.Changes S T w w') (hn : .entry x.entry ∉ S) : N.Runs light x w' where
  owns := h'.owns _ h.owns
  cell := by
    have hsame : w'.env.cells.entries[x.entry.index]? = w.env.cells.entries[x.entry.index]? := h'.same _ h.owns hn
    rw [hsame]
    exact h.cell

end Runs

namespace Rows

theorem relationsCell (h : N.Rows D light rows w) : w.env.cells.relationsCell D.relations =
    { relation := D.relation, scope := D.scope, owner := D.owner, entries := rows.map (·.entry) } := by
  simp [Cells.relationsCell, Array.getD_eq_getD_getElem?, h.cell]

/-- The rows are still there after what does not touch them. -/
theorem after (h : N.Rows D light rows w) (h' : N.Changes S T w w') (hS : Disjoint (rowParts D rows) S) :
    N.Rows D light rows w' where
  owns := h'.owns _ h.owns
  cell := by
    have hsame : w'.env.cells.relations[D.relations.index]? = w.env.cells.relations[D.relations.index]? :=
      h'.same _ h.owns (Set.disjoint_left.1 hS (.inl rfl))
    rw [hsame, h.cell]
  nodup := h.nodup
  runs x hx := (h.runs x hx).after h' (Set.disjoint_left.1 hS (.inr ⟨x, hx, rfl⟩))
  numbered i x hi := by
    have hx := List.mem_of_getElem? hi
    have hsame : w'.env.cells.entries[x.entry.index]? = w.env.cells.entries[x.entry.index]? :=
      h'.same _ (h.runs x hx).owns (Set.disjoint_left.1 hS (.inr ⟨x, hx, rfl⟩))
    rw [← h.numbered i x hi]
    simp only [Cells.entry, Array.getD_eq_getD_getElem?, hsame]

theorem during (h : N.Rows D light rows w) (hN : N.Around E) (hw : N.calm w) (q : Progress π) : N.Rows D light rows (w.during q) where
  owns := hN.owns_during hw h.owns q
  cell := h.cell
  nodup := h.nodup
  runs x hx := ⟨hN.owns_during hw (h.runs x hx).owns q, (h.runs x hx).cell⟩
  numbered := h.numbered

/-- The rows when one of them has got another result. -/
theorem setOutput {i : Nat} {v : Value} {c : Entry π} (h : N.Rows D light rows w) (hi : rows[i]? = some x)
    (hc : w.env.cells.entries[x.entry.index]? = some c) (h' : N.Changes {.entry x.entry} ∅ w w')
    (hc' : w'.env.cells.entries[x.entry.index]? = some { c with output := v }) :
    N.Rows D light (rows.set i { x with output := v }) w' := by
  have hx := List.mem_of_getElem? hi
  have hentries : (rows.set i { x with output := v }).map (·.entry) = rows.map (·.entry) := map_set_same hi rfl
  -- a row of the new ones is the changed one or an old one with another entry
  have hrow : ∀ j y, (rows.set i { x with output := v })[j]? = some y →
      (j = i ∧ y = { x with output := v }) ∨ (rows[j]? = some y ∧ y.entry ≠ x.entry) := fun j y => getElem?_set_cases h.nodup hi
  have hsame {y : Row} (hy : N.Owns w (.entry y.entry)) (he : y.entry ≠ x.entry) :
      w'.env.cells.entries[y.entry.index]? = w.env.cells.entries[y.entry.index]? :=
    h'.same _ hy fun hm => he (Part.entry.inj hm)
  obtain ⟨c₀, hc₀, hin, _, hstarted, hlight⟩ := (h.runs x hx).cell
  obtain rfl : c₀ = c := Option.some.inj (hc₀.symm.trans hc)
  refine ⟨h'.owns _ h.owns, ?_, by rw [hentries]; exact h.nodup, fun y hy => ?_, fun j y hj => ?_⟩
  · have hcell : w'.env.cells.relations[D.relations.index]? = w.env.cells.relations[D.relations.index]? :=
      h'.same _ h.owns (by simp)
    rw [hcell, h.cell, hentries]
  · obtain ⟨j, hj⟩ := List.getElem?_of_mem hy
    rcases hrow j y hj with ⟨-, rfl⟩ | ⟨hy, he⟩
    · exact ⟨h'.owns _ (h.runs x hx).owns, _, hc', hin, rfl, hstarted, hlight⟩
    · exact (h.runs y (List.mem_of_getElem? hy)).after h' fun hm => he (Part.entry.inj hm)
  · rcases hrow j y hj with ⟨rfl, rfl⟩ | ⟨hy, he⟩
    · rw [← h.numbered j x hi]
      simp [Cells.entry, Array.getD_eq_getD_getElem?, hc', hc]
    · rw [← h.numbered j y hy]
      simp only [Cells.entry, Array.getD_eq_getD_getElem?, hsame (h.runs y (List.mem_of_getElem? hy)).owns he]

theorem lasting (hN : N.Around E) : N.Lasting (N.Rows D light rows) :=
  fun q hw h' h => (h.during hN hw q).after h' (Set.disjoint_empty _)

end Rows

namespace Holds

variable {E : Engine π σ}

theorem ofChanges (h : N.Changes S T w w') : N.Holds S T w w' := ⟨w.env.cells.heldEntries, h⟩

theorem andThen (h : N.Holds S T w w₁) (h' : N.Changes S T w₁ w₂) : N.Holds S T w w₂ :=
  h.imp fun _ h => h.trans h'

theorem calm (h : N.Holds S T w w') : N.calm w' := h.elim fun _ h => h.calm

theorem made (h : N.Holds S T w w') (hp : w.Made p) : w'.Made p :=
  h.elim fun _ h => h.made p (by cases p <;> exact hp)

theorem mono (h : N.Holds S T w w') (hS : S ⊆ S') (hT : T ⊆ T') : N.Holds S' T' w w' := h.imp fun _ h => h.mono hS hT

theorem owns (h : N.Holds S T w w') (hN : N.Around E) (hw : N.calm w) (hp : N.Owns w p) : N.Owns w' p :=
  h.elim fun _ h => h.owns p (hN.owns_during hw hp _)

theorem same (h : N.Holds S T w w') (hN : N.Around E) (hw : N.calm w) (hp : N.Owns w p) (hn : p ∉ S) : w.HoldsSame w' p := by
  obtain ⟨_, h⟩ := h
  have hsame := h.same p (hN.owns_during hw hp _) hn
  cases p <;> exact hsame

/-- An entry still runs after what does not touch it. -/
theorem runs (h : N.Holds S T w w') (hN : N.Around E) (hw : N.calm w) (hx : N.Runs light x w) (hn : .entry x.entry ∉ S) :
    N.Runs light x w' := by
  obtain ⟨_, h⟩ := h
  exact Runs.after ⟨hN.owns_during hw hx.owns _, hx.cell⟩ h hn

/-- More entries are held. -/
theorem hold (h : N.Holds S T w w₁) (hN : N.Around E) (hw : N.calm w) (es : List (Ref .entry)) :
    N.Holds S T w (w₁.during { w₁.progress with heldEntries := es }) := by
  obtain ⟨es₀, h⟩ := h
  refine ⟨es, ?_⟩
  have hes := hN.changes_during (hN.calm_during hw _) h { w₁.progress with heldEntries := es }
  rw [h.progress] at hes ⊢
  exact hes

theorem trans (h : N.Holds S T w w₁) (hN : N.Around E) (hw : N.calm w) (h' : N.Holds S T w₁ w₂) : N.Holds S T w w₂ := by
  obtain ⟨es, h'⟩ := h'
  exact (h.hold hN hw es).andThen h'

/-- What becomes of parts that were made only meanwhile is no change of the view. -/
theorem fresh (h : N.Holds S T w w') (hS : ∀ p ∈ S, w.Made p → p ∈ S') : N.Holds S' T w w' :=
  h.imp fun _ h => h.fresh (fun p hp hm => hS p hp (by cases p <;> exact hm)) fun _ hp _ => hp

end Holds

/-- Holding entries. -/
theorem ends_holdEntries {es : List (Ref .entry)} {Q : PUnit → World (Callback π) (Env π σ) → Prop} :
    (holdEntries es : Live π σ Unit).Ends w Q ↔
      Q ⟨⟩ (w.during { w.progress with heldEntries := es ++ w.env.cells.heldEntries }) := Iff.rfl

namespace Around

variable (hN : N.Around E)

include hN

/-- A result for an entry that is there becomes its latest one. Only one that differs from the one before is followed up, and
only when the entry has started. -/
theorem receive {e : Ref .entry} {c : Entry π} {r : Ref .relations} {v : Value} {update : Nat → Value → Value → Live π σ Unit}
    {P : World (Callback π) (Env π σ) → Prop} (hw : N.calm w) (he : N.Owns w (.entry e)) (alive : isAlive w.env.cells r e = true)
    (hc : w.env.cells.entries[e.index]? = some c) (hS : .entry e ∈ S) (hP : N.Lasting P)
    (quiet : ∀ {es w'}, N.Changes {.entry e} ∅ (w.during { w.progress with heldEntries := es }) w' →
      w'.env.cells.entries[e.index]? = some { c with output := v } → (c.started && !c.output.same v) = false → P w')
    (told : ∀ {es w'}, N.Changes {.entry e} ∅ (w.during { w.progress with heldEntries := es }) w' →
      w'.env.cells.entries[e.index]? = some { c with output := v } → (c.started && !c.output.same v) = true →
      (update c.index c.output v).Ends w' fun _ w'' => N.Changes S T w' w'' ∧ P w'') :
    (Relations.receive update r e v).Ends w fun _ w' => N.Changes S T w w' ∧ P w' := by
  have entryOf {w : World (Callback π) (Env π σ)} {c : Entry π} (h : w.env.cells.entries[e.index]? = some c) :
      w.env.cells.entry e = c := by simp [Cells.entry, Array.getD_eq_getD_getElem?, h]
  simp only [Relations.receive, Run.ends_bind, ends_envCells, alive, if_true]
  refine hN.keepingHeldEntries hw (fun _ => hP) ?_
  simp only [Run.ends_bind, ends_holdEntries, ends_envCells]
  let q : Progress π := { w.progress with heldEntries := [e] ++ w.env.cells.heldEntries }
  refine (hN.modifyEntry (hN.calm_during hw q) (hN.owns_during hw he q) _).imp fun _ w₁ ended => ?_
  obtain ⟨h₁, hc₁⟩ := ended
  have hc₁ : w₁.env.cells.entries[e.index]? = some { c with output := v } := hc₁.trans (congrArg (Option.map _) hc)
  have hold : (w.during q).env.cells.entry e = c := entryOf hc
  have hsub : ({.entry e} : Set Part) ⊆ S := Set.singleton_subset_iff.2 hS
  rw [entryOf hc₁, hold]
  split
  · rename_i hdiffers
    refine (told h₁ hc₁ hdiffers).imp fun _ w₂ ended => ?_
    obtain ⟨h₂, hP₂⟩ := ended
    exact ⟨⟨_, (h₁.mono hsub (Set.empty_subset _)).trans h₂⟩, hP₂⟩
  · rename_i hsame
    exact ⟨⟨_, h₁.mono hsub (Set.empty_subset _)⟩, quiet h₁ hc₁ (Bool.eq_false_of_not_eq_true hsame)⟩

/-- A value that is handed over for an entry that has not started yet is stored, and nothing else happens. -/
theorem emit_starting (E' : Engine π σ) (observer : π → Value → Live π σ Unit) {e : Ref .entry} {c : Entry π} (hw : N.calm w)
    (he : N.Owns w (.entry e)) (hheld : e ∈ w.env.cells.heldEntries) (hc : w.env.cells.entries[e.index]? = some c)
    (hstarted : c.started = false) (v : Value) :
    (Sink.emit E' observer (.result D.relations e) v).Ends w fun _ w' => N.Changes {.entry e} ∅ w w' ∧
      (N.Owns w' (.entry e) ∧ w'.env.cells.entries[e.index]? = some { c with output := v }) := by
  have halive : isAlive w.env.cells D.relations e = true := by
    simp only [isAlive, Bool.or_eq_true]
    exact Or.inr (by simpa using hheld)
  simp only [Sink.emit, Run.ends_bind, ends_envCells]
  refine hN.receive hw he halive hc rfl ?_ ?_ ?_
  · rintro w w' q hw h ⟨ho, hc⟩
    have hsame : w'.env.cells.entries[e.index]? = w.env.cells.entries[e.index]? :=
      h.same _ (hN.owns_during hw ho q) (Set.notMem_empty _)
    exact ⟨h.owns _ (hN.owns_during hw ho q), hsame.trans hc⟩
  · intro es w' h hc' _
    exact ⟨h.owns _ (hN.owns_during hw he _), hc'⟩
  · intro es w' _ _ hdiffers
    simp [hstarted] at hdiffers

/-- A result that is handed over while the expression starts is the latest result of the entry. -/
theorem hands {e : Ref .entry} {c : Entry π} {vs : List Value} (hw : N.calm w) (he : N.Owns w (.entry e))
    (hheld : e ∈ w.env.cells.heldEntries) (hc : w.env.cells.entries[e.index]? = some c) (hstarted : c.started = false)
    (h : N.Hands D.relations e w vs w') :
    N.Changes {.entry e} ∅ w w' ∧ w'.env.cells.entries[e.index]? = some { c with output := vs.getLast?.getD c.output } := by
  induction h with
  | start => exact ⟨.refl hw _ _, hc⟩
  | @idle vs w₁ w₂ _ h' ih =>
    obtain ⟨h₁, hc₁⟩ := ih
    have hsame : w₂.env.cells.entries[e.index]? = w₁.env.cells.entries[e.index]? :=
      h'.same _ (h₁.owns _ he) (Set.notMem_empty _)
    exact ⟨h₁.trans (h'.mono (Set.empty_subset _) subset_rfl), hsame.trans hc₁⟩
  | @hand vs w₁ w₂ _ E' observer v run ih =>
    obtain ⟨h₁, hc₁⟩ := ih
    have hheld₁ : w₁.env.cells.heldEntries = w.env.cells.heldEntries := congrArg Progress.heldEntries h₁.progress
    have hends := hN.emit_starting (D := D) E' observer h₁.calm (h₁.owns _ he) (hheld₁ ▸ hheld) hc₁ hstarted v
    rw [Run.ends_of_eq run] at hends
    obtain ⟨h₂, _, hc₂⟩ := hends
    exact ⟨h₁.trans h₂, by simpa using hc₂⟩

/-! ## Starting and cancelling -/

/-- Starting the expression for an element: the entry is new, and its result is the last value that was handed over. -/
theorem startEntry (hE : N.Evaluates E D light) (hw : N.calm w)
    (hcell : D.Open w) (index : Nat) (v : Value) :
    (Relations.startEntry E D.relations index v).Ends w fun e w' => N.Holds ∅ ∅ w w' ∧ ¬w.Made (.entry e) ∧
      ∃ u, N.Runs light ⟨e, v, u⟩ w' ∧ N.Evaluated E D v u := by
  simp only [Relations.startEntry, Run.ends_bind, ends_envCells, Run.ends_pure, ends_holdEntries, hcell.relation, hcell.scope]
  refine (hN.newEntry hw _).imp fun e w₁ ended => ?_
  obtain ⟨⟨h₁, ho₁⟩, hn, hc₁⟩ := ended
  let q : Progress π := { w₁.progress with heldEntries := [e] ++ w₁.env.cells.heldEntries }
  have hw₂ : N.calm (w₁.during q) := hN.calm_during h₁.calm q
  have ho₂ : N.Owns (w₁.during q) (.entry e) := hN.owns_during h₁.calm ho₁ q
  have hc₂ : (w₁.during q).env.cells.entries[e.index]? = some { index, input := v } := hc₁
  have hheld : e ∈ (w₁.during q).env.cells.heldEntries := List.mem_cons_self ..
  have hstarted : ((w₁.during q).env.cells.entry e).started = false := by
    simp [Cells.entry, Array.getD_eq_getD_getElem?, hc₂]
  have hstart := hE.start (v := v) hw₂ ho₂ hheld hstarted
  obtain ⟨handle, w₃, hrun, hlight, vs, u, hhands⟩ := Run.ends_iff.1 hstart
  obtain ⟨h₃, hc₃⟩ := hN.hands hw₂ ho₂ hheld hc₂ rfl hhands
  refine Run.ends_iff.2 ⟨handle, w₃, hrun, ?_⟩
  refine (hN.modifyEntry h₃.calm (h₃.owns _ ho₂) _).imp fun _ w₄ ended => ?_
  obtain ⟨h₄, hc₄⟩ := ended
  refine (hN.modifyEntry h₄.calm (h₄.owns _ (h₃.owns _ ho₂)) _).imp fun _ w₅ ended => ?_
  obtain ⟨h₅, hc₅⟩ := ended
  have hheld₅ : N.Holds {.entry e} ∅ w w₅ :=
    (((Holds.ofChanges (h₁.mono (Set.empty_subset _) subset_rfl)).hold hN hw q.heldEntries).andThen h₃).andThen (h₄.trans h₅)
  refine ⟨hheld₅.fresh fun p hp hm => ?_, hn, u, ⟨h₅.owns _ (h₄.owns _ (h₃.owns _ ho₂)), ?_⟩, e, _, handle, w₃, vs, hrun, hhands⟩
  · rw [Set.mem_singleton_iff] at hp
    exact absurd hm (hp ▸ hn)
  · rw [hc₅, hc₄, hc₃]
    exact ⟨_, rfl, rfl, by simp, rfl, hlight⟩

/-- The rows of what was started for new elements. -/
structure Started (N : Neighbours π σ) (E : Engine π σ) (D : Desk) (light : Set (Cancel π)) (plus : List Value) (fresh : List Row)
    (w w' : World (Callback π) (Env π σ)) : Prop where
  inputs : fresh.map (·.input) = plus
  nodup : (fresh.map (·.entry)).Nodup
  made : ∀ x ∈ fresh, ¬w.Made (.entry x.entry)
  runs : ∀ x ∈ fresh, N.Runs light x w'
  evaluated : ∀ x ∈ fresh, N.Evaluated E D x.input x.output

theorem startEntries (hE : N.Evaluates E D light) (hw : N.calm w) (hr : N.Owns w (.relations D.relations)) (hcell : D.Open w)
    (index : Nat) (plus : List Value) :
    (Relations.startEntries E D.relations index plus).Ends w fun es w' => N.Holds ∅ ∅ w w' ∧
      ∃ fresh, es = fresh.map (·.entry) ∧ Started N E D light plus fresh w w' := by
  induction plus generalizing index w with
  | nil => exact ⟨.ofChanges (.refl hw _ _), [], rfl, by constructor <;> simp⟩
  | cons v vs ih =>
    simp only [Relations.startEntries, Run.ends_bind, Run.ends_pure]
    refine (hN.startEntry hE hw hcell index v).imp fun e w₁ ended => ?_
    obtain ⟨h₁, hn, u, hruns, hev⟩ := ended
    have hr₁ := h₁.owns hN hw hr
    have hsame : w₁.env.cells.relations[D.relations.index]? = w.env.cells.relations[D.relations.index]? :=
      h₁.same hN hw hr (Set.notMem_empty _)
    have heq : w₁.env.cells.relationsCell D.relations = w.env.cells.relationsCell D.relations := by
      simp only [Cells.relationsCell, Array.getD_eq_getD_getElem?, hsame]
    have hcell₁ : D.Open w₁ := ⟨by rw [heq, hcell.relation], by rw [heq, hcell.scope]⟩
    refine (ih h₁.calm hr₁ hcell₁ (index + 1)).imp fun es w₂ ended => ?_
    obtain ⟨h₂, fresh, hes, hstarted⟩ := ended
    refine ⟨h₁.trans hN hw h₂, ⟨e, v, u⟩ :: fresh, by rw [hes, List.map_cons], ?_⟩
    have he₁ : w₁.Made (.entry e) := hruns.owns.made
    constructor
    · rw [List.map_cons, hstarted.inputs]
    · rw [List.map_cons, List.nodup_cons]
      refine ⟨fun hmem => ?_, hstarted.nodup⟩
      obtain ⟨x, hx, he⟩ := List.mem_map.1 hmem
      exact hstarted.made x hx (he ▸ he₁)
    · rw [List.forall_mem_cons]
      exact ⟨hn, fun x hx hm => hstarted.made x hx (h₁.made hm)⟩
    · rw [List.forall_mem_cons]
      exact ⟨h₂.runs hN h₁.calm hruns (Set.notMem_empty _), hstarted.runs⟩
    · rw [List.forall_mem_cons]
      exact ⟨hev, hstarted.evaluated⟩

/-- Cancelling entries: what runs for them is taken down, in their order. -/
theorem cancelEntries (hE : N.Evaluates E D light) {stale : List Row} (hw : N.calm w) (hnodup : (stale.map (·.entry)).Nodup)
    (hruns : ∀ x ∈ stale, N.Runs light x w) :
    (LiveBindings.cancelEntries E (stale.map (·.entry))).Ends w fun _ w' =>
      N.Changes {p | ∃ x ∈ stale, p = .entry x.entry} ∅ w w' := by
  induction stale generalizing w with
  | nil => exact .refl hw _ _
  | cons x stale ih =>
    rw [List.map_cons, List.nodup_cons] at hnodup
    rw [List.forall_mem_cons] at hruns
    simp only [List.map_cons, LiveBindings.cancelEntries, takeEntryCancel, Run.ends_bind, ends_envCells, Run.ends_pure]
    refine (hN.modifyEntry hw hruns.1.owns _).imp fun _ w₁ ended => ?_
    obtain ⟨h₁, _⟩ := ended
    refine (hE.cancel h₁.calm hruns.1.entry.2.2.2).imp fun _ w₂ h₂ => ?_
    have h₂ := h₁.trans (h₂.mono (Set.empty_subset _) subset_rfl)
    have hne : ∀ y ∈ stale, .entry y.entry ∉ ({.entry x.entry} : Set Part) := fun y hy he => by
      rw [Set.mem_singleton_iff, Part.entry.injEq] at he
      exact hnodup.1 (List.mem_map.2 ⟨y, hy, he⟩)
    refine (ih h₂.calm hnodup.2 fun y hy => (hruns.2 y hy).after h₂ (hne y hy)).imp fun _ w₃ h₃ => ?_
    refine (h₂.mono ?_ subset_rfl).trans (h₃.mono ?_ subset_rfl)
    · rintro p rfl
      exact ⟨x, List.mem_cons_self .., rfl⟩
    · rintro p ⟨y, hy, rfl⟩
      exact ⟨y, List.mem_cons_of_mem _ hy, rfl⟩

/-- Telling entries where they stand. -/
theorem number {rows : List Row} {index : Nat} (hw : N.calm w) (hnodup : (rows.map (·.entry)).Nodup)
    (hruns : ∀ x ∈ rows, N.Runs light x w) :
    (Relations.number index (rows.map (·.entry)) : Live π σ Unit).Ends w fun _ w' =>
      N.Changes {p | ∃ x ∈ rows, p = .entry x.entry} ∅ w w' ∧ (∀ x ∈ rows, N.Runs light x w') ∧
        ∀ i x, rows[i]? = some x → (w'.env.cells.entry x.entry).index = index + i := by
  induction rows generalizing w index with
  | nil => exact ⟨.refl hw _ _, by simp, by simp⟩
  | cons x rows ih =>
    rw [List.map_cons, List.nodup_cons] at hnodup
    rw [List.forall_mem_cons] at hruns
    simp only [List.map_cons, Relations.number, Run.ends_bind]
    refine (hN.modifyEntry hw hruns.1.owns _).imp fun _ w₁ ended => ?_
    obtain ⟨h₁, hc₁⟩ := ended
    obtain ⟨c, hc, hcell⟩ := hruns.1.cell
    rw [hc, Option.map_some] at hc₁
    have hx₁ : N.Runs light x w₁ := ⟨h₁.owns _ hruns.1.owns, _, hc₁, hcell⟩
    have hne : ∀ y ∈ rows, .entry y.entry ∉ ({.entry x.entry} : Set Part) := fun y hy he => by
      rw [Set.mem_singleton_iff, Part.entry.injEq] at he
      exact hnodup.1 (List.mem_map.2 ⟨y, hy, he⟩)
    refine (ih h₁.calm hnodup.2 fun y hy => (hruns.2 y hy).after h₁ (hne y hy)).imp fun _ w₂ ended => ?_
    obtain ⟨h₂, hruns₂, hindex⟩ := ended
    have hout : .entry x.entry ∉ {p : Part | ∃ y ∈ rows, p = .entry y.entry} := by
      rintro ⟨y, hy, he⟩
      exact hne y hy (by rw [he]; rfl)
    refine ⟨(h₁.mono ?_ subset_rfl).trans (h₂.mono ?_ subset_rfl), ?_, ?_⟩
    · rintro p rfl
      exact ⟨x, List.mem_cons_self .., rfl⟩
    · rintro p ⟨y, hy, rfl⟩
      exact ⟨y, List.mem_cons_of_mem _ hy, rfl⟩
    · rw [List.forall_mem_cons]
      exact ⟨hx₁.after h₂ hout, hruns₂⟩
    · rintro (_ | i) y hy
      · have hsame : w₂.env.cells.entries[x.entry.index]? = w₁.env.cells.entries[x.entry.index]? :=
          h₂.same _ hx₁.owns hout
        cases hy
        simp [Cells.entry, Array.getD_eq_getD_getElem?, hsame, hc₁]
      · rw [hindex i y (by simpa using hy)]
        omega

/-! ## A splice of the elements -/

/-- Between the removal of a run of rows and the insertion of others: the rows after the run do not know yet where they will
stand. -/
structure Gap (N : Neighbours π σ) (D : Desk) (light : Set (Cancel π)) (before after : List Row) (w : World (Callback π) (Env π σ)) :
    Prop where
  owns : N.Owns w (.relations D.relations)
  cell : w.env.cells.relations[D.relations.index]? =
    some { relation := D.relation, scope := D.scope, owner := D.owner, entries := (before ++ after).map (·.entry) }
  nodup : ((before ++ after).map (·.entry)).Nodup
  runs : ∀ x ∈ before ++ after, N.Runs light x w
  numbered : ∀ i x, before[i]? = some x → (w.env.cells.entry x.entry).index = i

theorem openGap (hE : N.Evaluates E D light) {before run after : List Row} (hw : N.calm w)
    (hrows : N.Rows D light (before ++ (run ++ after)) w) :
    (do
      LiveBindings.modifyRelations D.relations fun c => { c with entries := (before ++ after).map (·.entry) }
      holdEntries (run.map (·.entry))
      LiveBindings.cancelEntries E (run.map (·.entry)) : Live π σ Unit).Ends w fun _ w' =>
        N.Holds (rowParts D (before ++ (run ++ after))) ∅ w w' ∧ Gap N D light before after w' := by
  simp only [Run.ends_bind, ends_holdEntries]
  refine (hN.modifyRelations hw hrows.owns _).imp fun _ w₁ ended => ?_
  obtain ⟨h₁, hc₁⟩ := ended
  rw [hrows.cell, Option.map_some] at hc₁
  have runs₁ : ∀ x ∈ before ++ (run ++ after), N.Runs light x w₁ := fun x hx => (hrows.runs x hx).after h₁ (by simp)
  have H₁ : N.Holds (rowParts D (before ++ (run ++ after))) ∅ w w₁ :=
    .ofChanges (h₁.mono (by rintro p rfl; exact .inl rfl) subset_rfl)
  have H₂ := H₁.hold hN hw (run.map (·.entry) ++ w₁.env.cells.heldEntries)
  have runs₂ : ∀ x ∈ before ++ (run ++ after), N.Runs light x (w₁.during _) := fun x hx =>
    ⟨hN.owns_during h₁.calm (runs₁ x hx).owns { w₁.progress with heldEntries := run.map (·.entry) ++ w₁.env.cells.heldEntries },
      (runs₁ x hx).cell⟩
  refine (hN.cancelEntries hE H₂.calm (nodup_map_run hrows.nodup) fun x hx => runs₂ x (by simp [hx])).imp fun _ w₃ h₃ => ?_
  have hout : ∀ x ∈ before ++ after, .entry x.entry ∉ {p : Part | ∃ y ∈ run, p = .entry y.entry} := by
    rintro x hx ⟨y, hy, he⟩
    exact notMem_map_run hrows.nodup hx (List.mem_map.2 ⟨y, hy, (Part.entry.inj he).symm⟩)
  have hmem : ∀ x ∈ before ++ after, x ∈ before ++ (run ++ after) := fun x hx => by
    rcases List.mem_append.1 hx with hx | hx <;> simp [hx]
  refine ⟨H₂.andThen (h₃.mono ?_ subset_rfl), ?_⟩
  · rintro p ⟨y, hy, rfl⟩
    exact .inr ⟨y, by simp [hy], rfl⟩
  have hr₂ : N.Owns (w₁.during { w₁.progress with heldEntries := run.map (·.entry) ++ w₁.env.cells.heldEntries })
      (.relations D.relations) := hN.owns_during h₁.calm (h₁.owns _ hrows.owns) _
  refine ⟨h₃.owns _ hr₂, ?_, ?_, fun x hx => (runs₂ x (hmem x hx)).after h₃ (hout x hx), fun i x hx => ?_⟩
  · have hsame : w₃.env.cells.relations[D.relations.index]? = w₁.env.cells.relations[D.relations.index]? :=
      h₃.same _ hr₂ (by rintro ⟨_, _, he⟩; cases he)
    rw [hsame, hc₁]
  · exact nodup_map_remove hrows.nodup
  · have hx' : x ∈ before ++ after := List.mem_append_left _ (List.mem_of_getElem? hx)
    have hx₀ : (before ++ (run ++ after))[i]? = some x := by
      rw [List.getElem?_append_left (List.getElem?_eq_some_iff.1 hx).1, hx]
    have hsame₁ : w₁.env.cells.entries[x.entry.index]? = w.env.cells.entries[x.entry.index]? :=
      h₁.same _ (hrows.runs x (hmem x hx')).owns (by simp)
    have hsame₃ : w₃.env.cells.entries[x.entry.index]? = w₁.env.cells.entries[x.entry.index]? :=
      h₃.same _ (runs₂ x (hmem x hx')).owns (hout x hx')
    rw [← hrows.numbered i x hx₀]
    simp only [Cells.entry, Array.getD_eq_getD_getElem?, hsame₃, hsame₁]

/-- Starting the expression for new elements leaves the gap open. -/
theorem Gap.startEntries (hE : N.Evaluates E D light) {before after : List Row} (hw : N.calm w) (h : Gap N D light before after w)
    (index : Nat) (plus : List Value) :
    (Relations.startEntries E D.relations index plus).Ends w fun es w' => N.Holds ∅ ∅ w w' ∧ ∃ fresh, es = fresh.map (·.entry) ∧
      Started N E D light plus fresh w w' ∧ Gap N D light before after w' := by
  have hcell : w.env.cells.relationsCell D.relations =
      { relation := D.relation, scope := D.scope, owner := D.owner, entries := (before ++ after).map (·.entry) } := by
    simp [Cells.relationsCell, Array.getD_eq_getD_getElem?, h.cell]
  refine (hN.startEntries hE hw h.owns ⟨by rw [hcell], by rw [hcell]⟩ index plus).imp fun es w' ⟨h', fresh, hes, hs⟩ => ?_
  refine ⟨h', fresh, hes, hs, h'.owns hN hw h.owns, ?_, h.nodup, fun x hx => h'.runs hN hw (h.runs x hx) (Set.notMem_empty _),
    fun i x hi => ?_⟩
  · have hsame : w'.env.cells.relations[D.relations.index]? = w.env.cells.relations[D.relations.index]? :=
      h'.same hN hw h.owns (Set.notMem_empty _)
    rw [hsame, h.cell]
  · have hx : x ∈ before ++ after := List.mem_append_left _ (List.mem_of_getElem? hi)
    have hsame : w'.env.cells.entries[x.entry.index]? = w.env.cells.entries[x.entry.index]? :=
      h'.same hN hw (h.runs x hx).owns (Set.notMem_empty _)
    rw [← h.numbered i x hi]
    simp only [Cells.entry, Array.getD_eq_getD_getElem?, hsame]

/-- The gap is closed by new rows. -/
theorem closeGap {before fresh after : List Row} (hw : N.calm w) (h : Gap N D light before after w)
    (hnodup : ((before ++ (fresh ++ after)).map (·.entry)).Nodup) (hfresh : ∀ x ∈ fresh, N.Runs light x w) :
    (do
      LiveBindings.modifyRelations D.relations fun c => { c with entries := (before ++ (fresh ++ after)).map (·.entry) }
      Relations.number before.length ((fresh ++ after).map (·.entry)) : Live π σ Unit).Ends w fun _ w' =>
        N.Changes (rowParts D (before ++ (fresh ++ after))) ∅ w w' ∧ N.Rows D light (before ++ (fresh ++ after)) w' := by
  have hruns : ∀ x ∈ before ++ (fresh ++ after), N.Runs light x w := fun x hx => by
    rcases List.mem_append.1 hx with hx | hx
    · exact h.runs x (List.mem_append_left _ hx)
    rcases List.mem_append.1 hx with hx | hx
    · exact hfresh x hx
    · exact h.runs x (List.mem_append_right _ hx)
  have hdisjoint := hnodup
  rw [List.map_append, List.nodup_append] at hdisjoint
  simp only [Run.ends_bind]
  refine (hN.modifyRelations hw h.owns _).imp fun _ w₁ ended => ?_
  obtain ⟨h₁, hc₁⟩ := ended
  rw [h.cell, Option.map_some] at hc₁
  have runs₁ : ∀ x ∈ before ++ (fresh ++ after), N.Runs light x w₁ := fun x hx => (hruns x hx).after h₁ (by simp)
  refine (hN.number h₁.calm hdisjoint.2.1 fun x hx => runs₁ x (List.mem_append_right _ hx)).imp fun _ w₂ ended => ?_
  obtain ⟨h₂, runs₂, hindex⟩ := ended
  have hout : ∀ x ∈ before, .entry x.entry ∉ {p : Part | ∃ y ∈ fresh ++ after, p = .entry y.entry} := by
    rintro x hx ⟨y, hy, he⟩
    exact hdisjoint.2.2 _ (List.mem_map_of_mem hx) _ (List.mem_map_of_mem hy) (Part.entry.inj he)
  refine ⟨(h₁.mono ?_ subset_rfl).trans (h₂.mono ?_ subset_rfl), h₂.owns _ (h₁.owns _ h.owns), ?_, hnodup, fun x hx => ?_,
    fun i x hi => ?_⟩
  · rintro p rfl
    exact .inl rfl
  · rintro p ⟨y, hy, rfl⟩
    exact .inr ⟨y, List.mem_append_right _ hy, rfl⟩
  · have hsame : w₂.env.cells.relations[D.relations.index]? = w₁.env.cells.relations[D.relations.index]? :=
      h₂.same _ (h₁.owns _ h.owns) (by rintro ⟨_, _, he⟩; cases he)
    rw [hsame, hc₁]
  · rcases List.mem_append.1 hx with hx | hx
    · exact (runs₁ x (List.mem_append_left _ hx)).after h₂ (hout x hx)
    · exact runs₂ x hx
  · by_cases hlt : i < before.length
    · rw [List.getElem?_append_left hlt] at hi
      have hx := List.mem_of_getElem? hi
      have hsame₁ : w₁.env.cells.entries[x.entry.index]? = w.env.cells.entries[x.entry.index]? :=
        h₁.same _ (hruns x (List.mem_append_left _ hx)).owns (by simp)
      have hsame₂ : w₂.env.cells.entries[x.entry.index]? = w₁.env.cells.entries[x.entry.index]? :=
        h₂.same _ (runs₁ x (List.mem_append_left _ hx)).owns (hout x hx)
      rw [← h.numbered i x hi]
      simp only [Cells.entry, Array.getD_eq_getD_getElem?, hsame₂, hsame₁]
    · rw [List.getElem?_append_right (Nat.le_of_not_lt hlt)] at hi
      rw [hindex _ x hi]
      omega

/-- A splice of the elements is a splice of the rows. -/
theorem splice_rows (hE : N.Evaluates E D light) (hw : N.calm w) (hrows : N.Rows D light rows w) (index removed : Nat)
    (plus : List Value) :
    (Relations.splice E D.relations index removed plus).Ends w fun outs w' => N.Changes (rowParts D rows) ∅ w w' ∧
      ∃ fresh, outs = fresh.map (·.output) ∧ fresh.map (·.input) = plus ∧ (∀ x ∈ fresh, N.Evaluated E D x.input x.output) ∧
        N.Rows D light (rows.take index ++ fresh ++ rows.drop (index + removed)) w' := by
  refine hN.keepingHeldEntries hw (fun outs => ?_) ?_
  · rintro w w' q hw h ⟨fresh, houts, hplus, hev, hrows⟩
    exact ⟨fresh, houts, hplus, hev, Rows.lasting hN q hw h hrows⟩
  obtain ⟨A, M, B, hcut⟩ := Cut.exists_cut rows index removed
  rw [hcut.take, hcut.drop]
  obtain rfl := hcut.parts
  have hopen := hN.openGap hE hw hrows
  simp only [Run.ends_bind, ends_holdEntries] at hopen
  simp only [Run.ends_bind, ends_envCells, ends_holdEntries, Run.ends_pure, hrows.relationsCell, List.length_map, hcut.start,
    hcut.stop, ← List.map_take, ← List.map_drop, ← List.map_append, List.take_left, hcut.run_eq, hcut.after_eq]
  refine hopen.imp fun _ w₁ h => h.imp fun _ w₂ ended => ?_
  obtain ⟨H₂, hgap₂⟩ := ended
  refine (Gap.startEntries hN hE H₂.calm hgap₂ index plus).imp fun es w₃ ended => ?_
  obtain ⟨H₃, fresh, hes, hstarted, hgap⟩ := ended
  have hcell : w₃.env.cells.relationsCell D.relations =
      { relation := D.relation, scope := D.scope, owner := D.owner, entries := (A ++ B).map (·.entry) } := by
    simp [Cells.relationsCell, Array.getD_eq_getD_getElem?, hgap.cell]
  subst hes
  simp only [hcell, List.length_map, hcut.rest, ← List.map_take, ← List.map_drop, ← List.map_append, List.take_left, List.drop_left,
    List.append_assoc]
  -- the new entries are none of those that there were
  have hnodup : ((A ++ (fresh ++ B)).map (·.entry)).Nodup := nodup_map_insert hgap.nodup hstarted.nodup fun x hx y hy he =>
    hstarted.made y hy (he ▸ (hgap₂.runs x hx).owns.made)
  have hclose := hN.closeGap H₃.calm hgap hnodup hstarted.runs
  simp only [Run.ends_bind] at hclose
  refine hclose.imp fun _ w₄ h => h.imp fun _ w₅ ended => ?_
  obtain ⟨h₅, hrows₅⟩ := ended
  refine ⟨?_, fresh, ?_, hstarted.inputs, hstarted.evaluated, hrows₅⟩
  · refine (((H₂.trans hN hw (H₃.mono (Set.empty_subset _) subset_rfl)).mono Set.subset_union_left subset_rfl).andThen
      (h₅.mono Set.subset_union_right subset_rfl)).fresh fun p hp hm => ?_
    rcases hp with hp | rfl | ⟨x, hx, rfl⟩
    · exact hp
    · exact .inl rfl
    · rcases List.mem_append.1 hx with hx | hx
      · exact .inr ⟨x, List.mem_append_left _ hx, rfl⟩
      rcases List.mem_append.1 hx with hx | hx
      · exact absurd (H₂.made hm) (hstarted.made x hx)
      · exact .inr ⟨x, List.mem_append_right _ (List.mem_append_right _ hx), rfl⟩
  · rw [List.map_map]
    exact List.map_congr_left fun x hx => (hstarted.runs x hx).entry.2.1

/-- Starting over with other elements. -/
theorem reset_rows (hE : N.Evaluates E D light) (hw : N.calm w) (hrows : N.Rows D light rows w) (items : List Value) :
    (Relations.reset E D.relations items).Ends w fun outs w' => N.Changes (rowParts D rows) ∅ w w' ∧
      ∃ fresh, outs = fresh.map (·.output) ∧ fresh.map (·.input) = items ∧ (∀ x ∈ fresh, N.Evaluated E D x.input x.output) ∧
        N.Rows D light fresh w' := by
  simp only [Relations.reset, Relations.length, Run.ends_bind, ends_envCells, Run.ends_pure, hrows.relationsCell, List.length_map]
  refine (hN.splice_rows hE hw hrows 0 rows.length items).imp fun outs w' ended => ?_
  obtain ⟨h, fresh, houts, hitems, hev, hrows⟩ := ended
  exact ⟨h, fresh, houts, hitems, hev, by simpa using hrows⟩

/-! ## A late result -/

/-- A value that is handed over for a row becomes its result. Only one that differs from the one before is followed up. -/
theorem emit_result {i : Nat} {v : Value} {P : World (Callback π) (Env π σ) → Prop} {observer : π → Value → Live π σ Unit} (hw : N.calm w)
    (hrows : N.Rows D light rows w) (hi : rows[i]? = some x) (hS : .entry x.entry ∈ S) (hP : N.Lasting P)
    (quiet : ∀ {es w'}, N.Changes {.entry x.entry} ∅ (w.during { w.progress with heldEntries := es }) w' →
      N.Rows D light (rows.set i { x with output := v }) w' → x.output.same v = true → P w')
    (told : ∀ {es w'}, N.Changes {.entry x.entry} ∅ (w.during { w.progress with heldEntries := es }) w' →
      N.Rows D light (rows.set i { x with output := v }) w' → x.output.same v = false →
      (Block.update E D.owner i x.output v).Ends w' fun _ w'' => N.Changes S T w' w'' ∧ P w'') :
    (Sink.emit E observer (.result D.relations x.entry) v).Ends w fun _ w' => N.Changes S T w w' ∧ P w' := by
  have hx := List.mem_of_getElem? hi
  have hxi := (List.getElem?_eq_some_iff.1 hi).1
  obtain ⟨c, hc, hin, hout, hstarted, hlight⟩ := (hrows.runs x hx).cell
  have hindex : c.index = i := by
    rw [← hrows.numbered i x hi]
    simp [Cells.entry, Array.getD_eq_getD_getElem?, hc]
  have halive : isAlive w.env.cells D.relations x.entry = true := by
    simp [isAlive, hrows.relationsCell]
    exact Or.inl ⟨x, hx, rfl⟩
  have hrows' {q : Progress π} {w' : World (Callback π) (Env π σ)} (h : N.Changes {.entry x.entry} ∅ (w.during q) w')
      (hc' : w'.env.cells.entries[x.entry.index]? = some { c with output := v }) :
      N.Rows D light (rows.set i { x with output := v }) w' :=
    (hrows.during hN hw q).setOutput hi hc h hc'
  simp only [Sink.emit, Run.ends_bind, ends_envCells, hrows.relationsCell]
  refine hN.receive hw (hrows.runs x hx).owns halive hc hS hP (fun h hc' hsame => ?_) (fun h hc' hdiffers => ?_)
  · exact quiet h (hrows' h hc') (by simpa [hstarted, hout] using hsame)
  · rw [hindex, hout]
    exact told h (hrows' h hc') (by simpa [hstarted, hout] using hdiffers)

end Around

/-! ## Reading the rows -/

theorem Rows.ends_inputs (h : N.Rows D light rows w) (Q : List Value → World (Callback π) (Env π σ) → Prop) :
    (Relations.inputs D.relations).Ends w Q ↔ Q (rows.map (·.input)) w := by
  simp only [Relations.inputs, Run.ends_bind, ends_envCells, Run.ends_pure, h.relationsCell, List.map_map]
  have hmap := List.map_congr_left fun x hx => (h.runs x hx).entry.1
  exact iff_of_eq (congrArg (Q · w) hmap)

theorem Rows.ends_outputs (h : N.Rows D light rows w) (Q : List Value → World (Callback π) (Env π σ) → Prop) :
    (Relations.outputs D.relations).Ends w Q ↔ Q (rows.map (·.output)) w := by
  simp only [Relations.outputs, Run.ends_bind, ends_envCells, Run.ends_pure, h.relationsCell, List.map_map]
  have hmap := List.map_congr_left fun x hx => (h.runs x hx).entry.2.1
  exact iff_of_eq (congrArg (Q · w) hmap)

end Neighbours

end LiveBindings
