import LiveBindings.Proofs.Order
import LiveBindings.Proofs.Recording

/-!
# Sorting

A view that sorts compares, after whatever it is told, its list with the elements in the order of their latest keys. A key that
cannot be told from the one before is not heard of; where the two stand at different places in the order, as the two zeros do, the
list is not sorted any more. The keys are therefore supposed to be canonical (`World.Keyed`).

`Reaches.shows_sorted` is the result: there is one stable order of the latest keys, and the list shows the elements in it. Whatever
the view is told next, it splices the list at most once, and not at all when the order of the elements stays the same.
-/

namespace LiveBindings

variable {π σ : Type}

/-- The same machine, told only what leads to worlds of which something holds. -/
def Machine.within {Γ Step : Type} (M : Machine π σ Γ Step) (P : World (Callback π) (Env π σ) → Prop) : Machine π σ Γ Step :=
  { M with Valid := fun w γ s => M.Valid w γ s ∧ (M.run s).Ends w fun _ => P }

/-- The latest results are keys among which there is no negative zero and only one NaN. -/
def World.Keyed (nan : Number) (D : Desk) (w : World (Callback π) (Env π σ)) : Prop :=
  ∀ k ∈ w.latest D, k.Canonical nan

/-- A list shows elements, one for each key, in the stable order of the keys. -/
def World.ShowsInOrder (w : World (Callback π) (Env π σ)) (output : ListId) (up keys : List Value) : Prop :=
  up.length = keys.length ∧
    ∃! order, StableOrder keys order ∧ SameItems (w.listCell output).items (order.map (up.getD · .undefined))

theorem World.ShowsInOrder.items {w : World (Callback π) (Env π σ)} {output : ListId} {up keys : List Value}
    (h : w.ShowsInOrder output up keys) : SameItems (w.listCell output).items (sortByKeys up keys) := by
  obtain ⟨hl, order, ⟨ho, hitems⟩, -⟩ := h
  exact sortByKeys_eq ho hl ▸ hitems

namespace Neighbours

variable {N : Neighbours π σ} {E : Engine π σ} {observer : π → Value → Live π σ Unit} {D : Desk} {light : Set (Cancel π)}
  {output : ListId} {nan : Number} {xs ys : List Row} {w w' : World (Callback π) (Env π σ)} {S T : Set Part}

/-- The elements of some rows, in the order of their results. -/
def sortedRows (xs : List Row) : List Value := sortByKeys (xs.map (·.input)) (xs.map (·.output))

/-- A view that sorts has rows and its list, whatever that shows. -/
structure Sorts (N : Neighbours π σ) (D : Desk) (light : Set (Cancel π)) (output : ListId) (xs : List Row)
    (w : World (Callback π) (Env π σ)) : Prop where
  rows : N.Rows D light xs w
  view : N.Keeps D.owner (.sorted output D.relations) w
  owns : N.Owns w (.list output)

/-- A view that sorts is up to date with its rows. -/
structure ShowsSorted (N : Neighbours π σ) (D : Desk) (light : Set (Cancel π)) (output : ListId) (xs : List Row)
    (w : World (Callback π) (Env π σ)) : Prop extends N.Sorts D light output xs w where
  items : SameItems (w.listCell output).items (sortedRows xs)

/-- What a step of a view that sorts does: its list is spliced at most once, and if the results are canonical keys, it is sorted. -/
structure Resorted (N : Neighbours π σ) (E : Engine π σ) (D : Desk) (light : Set (Cancel π)) (output : ListId) (nan : Number)
    (ys : List Row) (w w' : World (Callback π) (Env π σ)) : Prop extends N.Sorts D light output ys w' where
  sparing : N.Sparing E output w w'
  sorted : (∀ y ∈ ys, y.output.Canonical nan) → SameItems (w'.listCell output).items (sortedRows ys)

namespace Sorts

theorem lasting (hN : N.Around E) : N.Lasting (N.Sorts D light output xs) := fun q hw h hv =>
  ⟨Rows.lasting hN q hw h hv.rows, Keeps.lasting hN q hw h hv.view, h.owns _ (hN.owns_during hw hv.owns q)⟩

/-- The elements are sorted anew. -/
theorem resort (hN : N.Around E) (hw : N.calm w) (room : w.Admits) (h : N.Sorts D light output xs w) :
    (LiveBindings.resort E output D.relations).Ends w fun _ w' => N.Changes {.list output} {.list output} w w' ∧
      N.ShowsSorted D light output xs w' ∧ N.Sparing E output w w' := by
  simp only [LiveBindings.resort, Run.ends_bind, h.rows.ends_inputs, h.rows.ends_outputs]
  refine (hN.reconcile_sparing hw h.owns room _).imp fun _ w' ended => ?_
  obtain ⟨h', hitems, hs⟩ := ended
  exact ⟨h', ⟨⟨h.rows.after h' (by simp), h.view.after h' (by simp), h'.owns _ h.owns⟩, hitems⟩, hs⟩

end Sorts

theorem ShowsSorted.lasting (hN : N.Around E) : N.Lasting (N.ShowsSorted D light output xs) := by
  intro w w' q hw h hv
  have hsame : (w'.listCell output).items = (w.listCell output).items := h.same _ (hN.owns_during hw hv.owns q) (Set.notMem_empty _)
  exact ⟨Sorts.lasting hN q hw h hv.toSorts, hsame ▸ hv.items⟩

theorem Resorted.lasting (hN : N.Around E) {w : World (Callback π) (Env π σ)} :
    N.Lasting (N.Resorted E D light output nan ys w) := by
  intro w₁ w₂ q hw h hr
  have hsame : (w₂.listCell output).items = (w₁.listCell output).items :=
    h.same _ (hN.owns_during hw hr.owns q) (Set.notMem_empty _)
  exact ⟨Sorts.lasting hN q hw h hr.toSorts, (hN.lasting_sparing q hw h ⟨hr.owns, hr.sparing⟩).2, fun hk => hsame ▸ hr.sorted hk⟩

namespace ShowsSorted

/-- A view that has just been made shows nothing, and has nothing to show. -/
theorem made (hN : N.Around E) {next : Sink π} (hw : N.calm w)
    (run : PerElement.sorted.make D.relation D.scope next w = .ok (D, some (.list output)) w') :
    N.calm w' ∧ N.ShowsSorted D light output [] w' := by
  obtain ⟨⟨hw', hrows⟩, hk, ho, hi⟩ := hN.make_list (fun _ _ => rfl) hw run
  refine ⟨hw', ⟨hrows, hk, ho⟩, ?_⟩
  simp [hi, sortedRows, sortByKeys]

/-- One step of a view that sorts. -/
theorem step (hN : N.Around E) (hE : N.Evaluates E D light) (hw : N.calm w) (room : w.Admits) (h : N.ShowsSorted D light output xs w)
    (hkeys : ∀ x ∈ xs, x.output.Canonical nan) (s : Feed) (hs : s.Valid (xs.map (·.input))) :
    (s.run E observer D).Ends w fun _ w' => s.Results N E D w w' ∧
      ∃ ys, ys.map (·.input) = s.after w (xs.map (·.input)) ∧ N.calm w' ∧ N.Resorted E D light output nan ys w w' := by
  have before {q : Progress π} {w₁ : World (Callback π) (Env π σ)} (h₁ : N.Changes (rowParts D xs) ∅ (w.during q) w₁) :
      N.Untouched output w w₁ :=
    (hN.untouched_during hw q).trans (h₁.untouched (hN.owns_during hw h.owns q) (by simp) (Set.notMem_empty _))
  have stands {q : Progress π} {w₁ : World (Callback π) (Env π σ)} {zs : List Row}
      (h₁ : N.Changes (rowParts D xs) ∅ (w.during q) w₁) (hrows : N.Rows D light zs w₁) : N.Sorts D light output zs w₁ :=
    ⟨hrows, (h.view.during hN hw q).after h₁ (by simp), h₁.owns _ (hN.owns_during hw h.owns q)⟩
  refine (Redoes.sorted output).step (P := fun ys => N.Resorted E D light output nan ys w) hN hE hw room h.rows h.view
    (fun hr => hr.rows) (fun _ => Resorted.lasting hN) ?_ ?_ s hs
  · intro q w₁ ys room' h₁ hrows
    refine ((stands h₁ hrows).resort hN h₁.calm (h₁.admits room')).imp fun _ w₂ ended => ?_
    obtain ⟨h₂, hv, hsparing⟩ := ended
    exact ⟨h₂.mono (Set.subset_univ _) (Set.subset_univ _), hv.toSorts, .after (before h₁) hsparing, fun _ => hv.items⟩
  · intro q w₁ i x v hi hsame h₁ hrows
    have hx : x ∈ xs := List.mem_of_getElem? hi
    have h₁ : N.Changes (rowParts D xs) ∅ (w.during q) w₁ := h₁.mono (by rintro p rfl; exact .inr ⟨x, hx, rfl⟩) subset_rfl
    have hu := before h₁
    refine ⟨stands h₁ hrows, ⟨.never hu, fun _ => hu⟩, fun hcanonical => ?_⟩
    have hv : x.output = v := (hkeys x hx).eq_of_same
      (hcanonical _ (List.mem_of_getElem? (List.getElem?_set_self (List.getElem?_eq_some_iff.1 hi).1))) hsame
    have hkept : xs.set i { x with output := v } = xs := by
      obtain ⟨_, rfl⟩ := List.getElem?_eq_some_iff.1 hi
      rw [← hv]
      exact List.set_getElem_self _
    rw [hkept, hu.items]
    exact h.items

theorem showsInOrder (h : N.ShowsSorted D light output xs w) : w.ShowsInOrder output (xs.map (·.input)) (w.latest D) := by
  have hl : (xs.map (·.input)).length = (xs.map (·.output)).length := by simp
  rw [h.rows.latest]
  obtain ⟨order, ho, hunique⟩ := existsUnique_stableOrder (xs.map (·.output))
  exact ⟨hl, order, ⟨ho, sortByKeys_eq ho hl ▸ h.items⟩, fun order' ho' => hunique order' ho'.1⟩

end ShowsSorted

/-- Wherever a view that sorts can get to by canonical keys, it is up to date with rows for the elements that it has been told of. -/
theorem Reaches.sorted (hN : N.Around E) (hE : N.Evaluates E D light) {up : List Value}
    (h : N.Reaches ((PerElement.sorted.machine E observer D (some (.list output))).within (·.Keyed nan D)) up w) :
    N.calm w ∧ ∃ xs, xs.map (·.input) = up ∧ N.ShowsSorted D light output xs w ∧ ∀ x ∈ xs, x.output.Canonical nan := by
  refine h.keeps (I := fun up w => ∃ xs, xs.map (·.input) = up ∧ N.ShowsSorted D light output xs w ∧
    ∀ x ∈ xs, x.output.Canonical nan) ?_ ?_ ?_
  · rintro w up w' hw ⟨rfl, next, run⟩
    obtain ⟨hw', hv⟩ := ShowsSorted.made hN hw run
    exact ⟨hw', [], rfl, hv, by simp⟩
  · rintro up w w' q hw h' ⟨xs, hup, hv, hkeys⟩
    exact ⟨xs, hup, hv.lasting hN q hw h', hkeys⟩
  · rintro _ w s hw room ⟨xs, rfl, hv, hkeys⟩ ⟨hs, hkeyed⟩
    refine ((hv.step hN hE hw room hkeys s hs).and hkeyed).imp fun _ w' ended => ?_
    obtain ⟨⟨-, ys, hup, hw', hr⟩, hkeyed'⟩ := ended
    have hkeys' : ∀ y ∈ ys, y.output.Canonical nan := by simpa [World.Keyed, hr.rows.latest] using hkeyed'
    exact ⟨hw', ys, hup, ⟨hr.toSorts, hr.sorted hkeys'⟩, hkeys'⟩

end Neighbours

end LiveBindings
