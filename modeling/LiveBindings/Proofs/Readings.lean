import LiveBindings.Proofs.Answering

/-!
# What a view that passes on one value tells

A view of whether all or some results are true, of the element with the least or greatest result, or of the sum or mean of the elements
passes its value on whenever it changes. Each of the three things that it may be told of leaves it informing (`Informs.step`): it knows
of the new elements and results before it passes anything on, and passing a value on keeps what it knows.

`Neighbours.Reads` are the worlds that it can get to, and `Reads.shows_value` is the result: the last value that was told is the one for
the elements and their latest results, and none was told after one that is the same.
-/

namespace LiveBindings

variable {π σ : Type}

namespace Neighbours

variable {N : Neighbours π σ} {G : Gauge π σ} {light : Set (Cancel π)} {nan : Number} {H : Host π σ} {calls : Nat} {E : Engine π σ}
  {observer : π → Value → Live π σ Unit} {up : List Value} {v : Value} {w w' w₁ w₂ : World (Callback π) (Env π σ)}

/-! ## One step -/

namespace Measures

/-- A view that keeps the elements itself takes note of other ones. -/
theorem keep (hN : N.Surrounds G light nan H calls) (h : N.Measures G light nan up w) (hM : G.measure.evaluates = false)
    (items : List Value) : (modifyBlock G.desk.owner fun _ => G.block items : Live π σ Unit).Ends w fun _ w₁ =>
      N.Measures G light nan items w₁ ∧ G.outlet.state w₁ = G.outlet.state w := by
  have hview : (N.still G.outlet (G.outlet.state w)).Keeps G.desk.owner (G.block up) w := keeps_still.2 h.view
  refine (hview.modify (hN.around _) ⟨h.calm, rfl⟩ _).imp fun _ w₁ ended => ?_
  obtain ⟨h₁, hview₁⟩ := ended
  obtain ⟨h₁, hstate⟩ := changes_still.1 h₁
  exact ⟨⟨h₁.calm, fun h => absurd (hM.symm.trans h) Bool.false_ne_true, keeps_still.1 hview₁⟩, hstate⟩

/-- Some of the elements were replaced: the view knows of the new ones before it passes anything on. -/
theorem content (hN : N.Surrounds G light nan H calls) (h : N.Measures G light nan up w) (index removed : Nat) (plus : List Value)
    (fits : G.Accepts nan (engine H (calls + 1)) w (.content index removed plus)) {Q : Unit → World (Callback π) (Env π σ) → Prop}
    (told : ∀ w₁, N.Measures G light nan (replaceRun up index removed plus) w₁ → G.outlet.state w₁ = G.outlet.state w →
      (G.measure.evaluates = true → (Feed.content index removed plus).Results N (engine H (calls + 1)) G.desk w w₁) →
        (G.publish (engine H (calls + 1)) (replaceRun up index removed plus)).Ends w₁ Q) :
    (Block.splice (engine H (calls + 1)) G.desk.owner index removed plus).Ends w Q := by
  cases hM : G.measure.evaluates with
  | true =>
    obtain ⟨xs, hrows, rfl, -⟩ := h.rows hM
    rw [(G.redoes hM _ _).ends_splice h.view.block?, G.publish_eq hM _ _ (replaceRun (xs.map (·.input)) index removed plus)]
    obtain ⟨_, w₁, run, h₁, fresh, -, hplus, hev, hrows₁⟩ := Run.ends_iff.1
      ((hN.around _).splice_rows (hN.evaluates hM _) ⟨h.calm, rfl⟩ (rows_still.2 hrows) index removed plus)
    rw [Run.ends_of_eq run]
    have hup : (xs.take index ++ fresh ++ xs.drop (index + removed)).map (·.input) =
        replaceRun (xs.map (·.input)) index removed plus := by
      simp [replaceRun, List.map_take, List.map_drop, hplus]
    refine told w₁ (hup ▸ h.rewritten hM h₁ hrows₁ (fits.of_eq run)) (changes_still.1 h₁).2 fun _ => ⟨fresh.map (·.output), ?_, ?_⟩
    · exact hplus ▸ (forall₂_evaluated hev).imp fun _ _ h => h.of_still
    · rw [(rows_still.1 hrows₁).latest, hrows.latest]
      simp [replaceRun, List.map_take, List.map_drop]
  | false =>
    rw [G.ends_splice hM h.view.block?]
    exact (h.keep hN hM _).imp fun _ w₁ ended => told w₁ ended.1 ended.2 fun h =>
      absurd (hM.symm.trans h) Bool.false_ne_true

/-- The collection became another one: the view knows of its elements before it passes anything on. -/
theorem replaced (hN : N.Surrounds G light nan H calls) (h : N.Measures G light nan up w) (collection : Value)
    (fits : G.Accepts nan (engine H (calls + 1)) w (.replaced collection)) {Q : Unit → World (Callback π) (Env π σ) → Prop}
    (told : ∀ w₁, N.Measures G light nan (w.elements collection) w₁ → G.outlet.state w₁ = G.outlet.state w →
      (G.measure.evaluates = true → (Feed.replaced collection).Results N (engine H (calls + 1)) G.desk w w₁) →
        (G.publish (engine H (calls + 1)) (w.elements collection)).Ends w₁ Q) :
    (Block.reset (engine H (calls + 1)) G.desk.owner (w.elements collection)).Ends w Q := by
  cases hM : G.measure.evaluates with
  | true =>
    obtain ⟨xs, hrows, rfl, -⟩ := h.rows hM
    rw [(G.redoes hM _ _).ends_reset h.view.block?, G.publish_eq hM _ _ (w.elements collection)]
    obtain ⟨_, w₁, run, h₁, fresh, -, hitems, hev, hrows₁⟩ := Run.ends_iff.1
      ((hN.around _).reset_rows (hN.evaluates hM _) ⟨h.calm, rfl⟩ (rows_still.2 hrows) (w.elements collection))
    rw [Run.ends_of_eq run]
    refine told w₁ (hitems ▸ h.rewritten hM h₁ hrows₁ (fits.of_eq run)) (changes_still.1 h₁).2 fun _ => ?_
    rw [Feed.Results, (rows_still.1 hrows₁).latest, ← hitems]
    exact (forall₂_evaluated hev).imp fun _ _ h => h.of_still
  | false =>
    rw [G.ends_reset hM h.view.block?]
    exact (h.keep hN hM _).imp fun _ w₁ ended => told w₁ ended.1 ended.2 fun h =>
      absurd (hM.symm.trans h) Bool.false_ne_true

/-- The view publishes: in the end the last value that was told is the one that it has to show. Either nothing happens, or the value
that it has to show now is the first to be told. -/
theorem publish (hN : N.Surrounds G light nan H calls) (h : N.Measures G light nan up w) (hl : G.outlet.Linked w) :
    (G.publish (engine H (calls + 1)) up).Ends w fun _ w' => N.Informs G light nan up w' ∧ G.outlet.tolds w' ≠ [] ∧
      (w' = w ∨ G.outlet.tolds w ++ [G.value up w] <+: G.outlet.tolds w') := by
  rcases h.emitted hN.ignores hl H calls with ⟨hinforms, hne, hiff⟩ | ⟨w₁, hdue, htold, hiff⟩
  · rw [hiff]
    exact ⟨hinforms, hne, .inl rfl⟩
  · rw [hiff]
    refine (hN.passes hdue).imp fun _ w' hpassing => ?_
    obtain ⟨hinforms, hprefix⟩ := hpassing.informs hN.base hN.ignores hdue
    rw [htold] at hprefix
    refine ⟨hinforms, fun hnil => ?_, .inr hprefix⟩
    rw [hnil, List.prefix_nil] at hprefix
    exact List.append_ne_nil_of_right_ne_nil _ (List.cons_ne_nil _ _) hprefix

end Measures

/-- What is told in a step: nothing, and the results are those of the step, or first of all the value for the elements and the results
of the step. -/
def Accounts (N : Neighbours π σ) (G : Gauge π σ) (E : Engine π σ) (s : Feed) (up : List Value)
    (w w' : World (Callback π) (Env π σ)) : Prop :=
  ∃ w₁, (G.measure.evaluates = true → s.Results N E G.desk w w₁) ∧
    ((G.outlet.tolds w' = G.outlet.tolds w ∧ (G.measure.evaluates = true → w'.latest G.desk = w₁.latest G.desk)) ∨
      ∃ v, G.measure.IsOf up (w₁.latest G.desk) v ∧ G.outlet.tolds w ++ [v] <+: G.outlet.tolds w')

/-- What comes of a step: the last value that was told is the one that the view has to show. -/
structure Informed (N : Neighbours π σ) (G : Gauge π σ) (light : Set (Cancel π)) (nan : Number) (E : Engine π σ) (s : Feed)
    (up : List Value) (w w' : World (Callback π) (Env π σ)) : Prop where
  informs : N.Informs G light nan up w'
  told : G.outlet.tolds w' ≠ []
  accounts : N.Accounts G E s up w w'

/-- The view publishes when the results of a step are known. -/
theorem Measures.informed {s : Feed} (hN : N.Surrounds G light nan H calls) (h : N.Measures G light nan up w₁)
    (hl : G.outlet.Linked w) (hstate : G.outlet.state w₁ = G.outlet.state w)
    (hresults : G.measure.evaluates = true → s.Results N (engine H (calls + 1)) G.desk w w₁) :
    (G.publish (engine H (calls + 1)) up).Ends w₁ fun _ w' => N.Informed G light nan (engine H (calls + 1)) s up w w' := by
  have htolds := Outlet.tolds_of_state hstate
  refine (h.publish hN (hl.congr hstate)).imp fun _ w' ended => ?_
  obtain ⟨hinforms, hne, hw'⟩ := ended
  refine ⟨hinforms, hne, w₁, hresults, ?_⟩
  rw [← htolds]
  rcases hw' with rfl | hprefix
  · exact .inl ⟨rfl, fun _ => rfl⟩
  · exact .inr ⟨_, h.isOf, hprefix⟩

/-- Nothing is told after the step. -/
theorem Informed.meanwhile {s : Feed} {E' : Engine π σ} (hN : N.Around E') (h : N.Informed G light nan E s up w w₁) (q : Progress π)
    (h' : (N.still G.outlet (G.outlet.state w₁)).Changes ∅ ∅ (w₁.during q) w₂) : N.Informed G light nan E s up w w₂ := by
  obtain ⟨h₂, hstate⟩ := changes_still.1 h'
  have htolds := Outlet.tolds_of_state hstate
  have hlatest := (h.informs.toMeasures.during hN q).latest_eq h₂
  obtain ⟨w₀, hresults, hw⟩ := h.accounts
  rw [← htolds] at hw
  exact ⟨h.informs.meanwhile hN q h', by rw [htolds]; exact h.told, w₀, hresults,
    hw.imp_left fun ht => ⟨ht.1, fun hM => (hlatest hM).trans (ht.2 hM)⟩⟩

/-- One step of a view that passes on one value. -/
theorem Informs.step (hN : N.Surrounds G light nan H calls) (h : N.Informs G light nan up w) (s : Feed) (hs : s.Valid up)
    (ha : G.Accepts nan (engine H (calls + 1)) w s) (observer : π → Value → Live π σ Unit) :
    (s.run (engine H (calls + 1)) observer G.desk).Ends w fun _ w' =>
      N.Informed G light nan (engine H (calls + 1)) s (s.after w up) w w' := by
  cases s with
  | content index removed plus =>
    exact h.toMeasures.content hN index removed plus ha fun w₁ hm hstate hresults => hm.informed hN h.linked hstate hresults
  | replaced collection =>
    simp only [Feed.run, Run.ends_bind, ends_elementsOf]
    exact h.toMeasures.replaced hN collection ha fun w₁ hm hstate hresults => hm.informed hN h.linked hstate hresults
  | result i v =>
    obtain ⟨w₁, hm, hstate, hresults, hrun⟩ := h.toMeasures.result hN.base hs ha observer
    rcases hrun with ⟨hvalue, hrun⟩ | ⟨q, bs, es, hrun⟩
    · -- there is an element, so that something has been told before
      rw [hrun]
      have htolds := Outlet.tolds_of_state hstate
      have hne : G.outlet.tolds w ≠ [] := fun hnil => by
        rw [h.silent hnil] at hs
        exact absurd hs (Nat.not_lt_zero i)
      exact Informed.mk (h.congr hm hstate hvalue) (by rw [htolds]; exact hne) ⟨w₁, fun _ => hresults, .inl ⟨htolds, fun _ => rfl⟩⟩
    · rw [hrun]
      refine ((hm.during hN.base q).informed (s := .result i v) hN h.linked hstate fun _ => hresults).imp fun _ w₂ hinformed => ?_
      have hw₂ : (N.still G.outlet (G.outlet.state w₂)).calm (w₂.during { w₂.progress with heldBlocks := bs }) :=
        ⟨hN.base.calm_during hinformed.informs.calm _, rfl⟩
      refine ((hN.around _).sweep hw₂).imp fun _ w₃ h₃ => ?_
      have hinformed₃ := hinformed.meanwhile hN.base _ h₃
      have hw₃ : (N.still G.outlet (G.outlet.state w₃)).calm (w₃.during { w₃.progress with heldEntries := es }) :=
        ⟨hN.base.calm_during hinformed₃.informs.calm _, rfl⟩
      exact hinformed₃.meanwhile hN.base _ (.refl hw₃ _ _)

end Neighbours

/-! ## Making the view -/

namespace Measure

/-- The first part of the start of an expression that finds one value: the view is made, and has nothing to tell yet. -/
def make (relation : Expr) (scope : Scope) (next : Sink π) : Measure → Live π σ Desk
  | quantifier all => (·.1) <$> (if all then PerElement.every else .some).make relation scope next
  | extreme greatest => (·.1) <$> (if greatest then PerElement.greatest else .least).make relation scope next
  | reduction what => do
    let b ← newBlock (.reduce what [] (← distinct next))
    return ⟨⟨0⟩, relation, scope, b⟩

/-- The handle of the view. -/
def handle (content : Cancel π) (b : Ref .block) (M : Measure) : Cancel π :=
  if M.evaluates then .join [content, .release b] else content

end Measure

theorem Expr.start_measure (E : Engine π σ) (M : Measure) (collection relation : Expr) (next : Sink π) (scope : Scope) :
    Expr.start E (M.expr collection relation) next scope = do
      let D ← M.make relation scope next
      let content ← watch D.owner (collection.start E · scope)
      return M.handle content D.owner := by
  match M with
  | .reduction _ =>
    simp only [Measure.expr, Expr.start, Measure.make, Measure.handle, Measure.evaluates, Bool.false_eq_true, if_false, bind_assoc,
      pure_bind, bind_pure]
  | .quantifier true | .quantifier false | .extreme false | .extreme true =>
    simp only [Measure.expr, Expr.start_perElement, Measure.make, PerElement.make, PerElement.block, bind_assoc, map_bind, pure_bind]
    rfl

/-- The last value that was told is the one for the elements and their latest results. -/
structure Gauge.Shows (G : Gauge π σ) (up : List Value) (w : World (Callback π) (Env π σ)) : Prop where
  length : G.measure.evaluates = true → up.length = (w.latest G.desk).length
  last : ∃ v u, (G.outlet.tolds w).getLast? = some v ∧ G.measure.IsOf up (w.latest G.desk) u ∧ v.same u = true

namespace Neighbours

variable {N : Neighbours π σ} {G : Gauge π σ} {O : Outlet π σ} {light : Set (Cancel π)} {nan : Number} {H : Host π σ} {calls : Nat}
  {observer : π → Value → Live π σ Unit} {up : List Value} {v : Value} {w w' : World (Callback π) (Env π σ)}

/-- A view that passes values on has been made: it has no rows, and a new cell for the last value. -/
theorem Around.make_sink {E : Engine π σ} (hN : N.Around E) (hO : N.Ignores O) {what : PerElement}
    {shape : Ref .relations → Sink π → Block π}
    (hshape : ∀ r next, what.block r next = (do return (shape r (← distinct next), none) : Live π σ _)) (hw : N.calm w)
    (relation : Expr) (scope : Scope) (next : Sink π) (light : Set (Cancel π)) :
    (what.make relation scope next).Ends w fun made w' => N.calm w' ∧ N.Rows made.1 light [] w' ∧
      N.Keeps made.1.owner (shape made.1.relations (.distinct ⟨w.env.cells.lasts.size⟩ next)) w' ∧
        w'.env.cells.lasts = w.env.cells.lasts.push none ∧ w'.env.host = w.env.host := by
  have hmake : (what.make relation scope next).Ends w fun made w' => N.Changes ∅ ∅ w w' ∧
      (made.1.relation = relation ∧ made.1.scope = scope) ∧ N.Rows made.1 light [] w' ∧
        ∃ block, N.Keeps made.1.owner block w' ∧ True := by
    refine hN.make (Q := fun _ _ _ _ => True) hw (fun {w r} hw => ?_) fun _ _ _ => trivial
    simp only [hshape, distinct, newLast, modifyCells, Run.ends_bind, ends_envCells, Run.ends_modify, Run.ends_pure]
    exact ⟨⟨hO.push hw, trivial⟩, trivial⟩
  have hcells : (what.make relation scope next).Ends w fun made w' =>
      w'.env.cells.blocks[made.1.owner.index]? = some { block := shape made.1.relations (.distinct ⟨w.env.cells.lasts.size⟩ next) } ∧
        w'.env.cells.lasts = w.env.cells.lasts.push none ∧ w'.env.host = w.env.host := by
    simp only [PerElement.make, hshape, distinct, newLast, nextBlock, LiveBindings.newRelations, LiveBindings.newBlock, modifyCells,
      Run.ends_bind, ends_envCells, Run.ends_modify, Run.ends_pure]
    exact ⟨Array.getElem?_push_size, trivial, trivial⟩
  refine (hmake.and hcells).imp fun made w' ended => ?_
  obtain ⟨⟨h, -, hrows, block, hk, -⟩, hblock, hlasts, hhost⟩ := ended
  have hb : block = shape made.1.relations (.distinct ⟨w.env.cells.lasts.size⟩ next) := by
    rw [hk.cell, Option.some.injEq, BlockCell.mk.injEq] at hblock
    exact hblock.1
  exact ⟨h.calm, hrows, hb ▸ hk, hlasts, hhost⟩

/-- The worlds in which the view can be, with the elements that it has been told of. -/
inductive Reads (N : Neighbours π σ) (G : Gauge π σ) (nan : Number) (H : Host π σ) (calls : Nat)
    (observer : π → Value → Live π σ Unit) : List Value → World (Callback π) (Env π σ) → Prop
  | made {w w' : World (Callback π) (Env π σ)} (hw : N.calm w) (hlast : G.outlet.last = ⟨w.env.cells.lasts.size⟩)
      (untold : G.outlet.tolds w = []) (run : G.measure.make G.desk.relation G.desk.scope G.outlet.next w = .ok G.desk w') :
      Reads N G nan H calls observer [] w'
  | meanwhile {up : List Value} {w w' : World (Callback π) (Env π σ)} (h : Reads N G nan H calls observer up w) (q : Progress π)
      (h' : (N.still G.outlet (G.outlet.state w)).Changes ∅ ∅ (w.during q) w') : Reads N G nan H calls observer up w'
  | step {up : List Value} {w w' : World (Callback π) (Env π σ)} (h : Reads N G nan H calls observer up w) (s : Feed) (hs : s.Valid up)
      (ha : G.Accepts nan (engine H (calls + 1)) w s) (run : s.run (engine H (calls + 1)) observer G.desk w = .ok () w') :
      Reads N G nan H calls observer (s.after w up) w'

/-- A view that has just been made has told nothing, and has nothing to tell. -/
theorem Informs.made {E : Engine π σ} (hN : N.Around E) (hO : N.Ignores G.outlet) (hw : N.calm w)
    (hlast : G.outlet.last = ⟨w.env.cells.lasts.size⟩) (untold : G.outlet.tolds w = [])
    (run : G.measure.make G.desk.relation G.desk.scope G.outlet.next w = .ok G.desk w') : N.Informs G light nan [] w' := by
  have hsink : Sink.distinct ⟨w.env.cells.lasts.size⟩ G.outlet.next = G.outlet.sink := by rw [Outlet.sink, hlast]
  have hmake : (G.measure.make G.desk.relation G.desk.scope G.outlet.next).Ends w fun D w' => N.calm w' ∧
      (G.measure.evaluates = true → N.Rows D light [] w') ∧
        N.Keeps D.owner (Gauge.block ⟨G.measure, D, G.outlet⟩ []) w' ∧
          w'.env.cells.lasts = w.env.cells.lasts.push none ∧ w'.env.host = w.env.host := by
    unfold Gauge.block
    match G.measure with
    | .reduction what =>
      simp only [Measure.make, distinct, newLast, modifyCells, Run.ends_bind, ends_envCells, Run.ends_modify, Run.ends_pure]
      let w₁ := w.withCells { w.env.cells with lasts := w.env.cells.lasts.push none }
      have h₁ : N.Changes ∅ ∅ w w₁ := hO.push hw
      have hcells : (LiveBindings.newBlock (.reduce what [] G.outlet.sink) : Live π σ _).Ends w₁ fun _ w' =>
          w'.env.cells.lasts = w.env.cells.lasts.push none ∧ w'.env.host = w.env.host := ⟨rfl, rfl⟩
      rw [hsink]
      refine ((hN.newBlock h₁.calm _).and hcells).imp fun b w' ended => ?_
      obtain ⟨⟨h₂, -, hk⟩, h⟩ := ended
      exact ⟨h₂.calm, fun hM => absurd hM Bool.false_ne_true, hk, h⟩
    | .quantifier true | .quantifier false | .extreme false | .extreme true =>
      simp only [Measure.make, Run.ends_map]
      refine (hN.make_sink hO (fun _ _ => rfl) hw _ _ _ light).imp fun made w' ended => ?_
      obtain ⟨hw', hrows, hk, h⟩ := ended
      exact ⟨hw', fun _ => hrows, hsink ▸ hk, h⟩
  rw [Run.ends_of_eq run] at hmake
  obtain ⟨hw', hrows, hk, hlasts, hhost⟩ := hmake
  have htolds : G.outlet.tolds w' = [] := by rw [Outlet.tolds, hhost]; exact untold
  refine ⟨⟨hw', fun hM => ⟨[], hrows hM, rfl, by simp⟩, hk⟩, ⟨?_, ?_⟩, fun v hv => ?_, fun _ => rfl⟩
  · rw [hlasts, hlast, Array.getElem?_push_size, htolds]
    rfl
  · rw [htolds]
    exact .nil
  · rw [htolds] at hv
    cases hv

theorem Informs.shows (h : N.Informs G light nan up w) (hne : G.outlet.tolds w ≠ []) : G.Shows up w := by
  have hlast := List.getLast?_eq_some_getLast hne
  exact ⟨h.length, _, _, hlast, h.isOf, h.shown _ hlast⟩

/-- Wherever the view can get to, the last value that was told is the one that it has to show. -/
theorem Reads.informs (hN : N.Surrounds G light nan H calls) (h : N.Reads G nan H calls observer up w) :
    N.Informs G light nan up w := by
  induction h with
  | made hw hlast untold run => exact .made hN.base hN.ignores hw hlast untold run
  | meanwhile _ q h' ih => exact ih.meanwhile hN.base q h'
  | step _ s hs ha run ih =>
    have hstep := ih.step hN s hs ha observer
    rw [Run.ends_of_eq run] at hstep
    exact hstep.informs

end Neighbours

end LiveBindings
