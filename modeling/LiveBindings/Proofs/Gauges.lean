import LiveBindings.Proofs.Measures

/-!
# Views that pass on one value

A `Gauge` is a view that finds one value over all elements (`Measure`) and passes it on (`Outlet`). `Neighbours.Measures` says that it
knows of the elements and of their latest results, `Neighbours.Informs` that the last value that was told is the one that it has to
show.

Whoever is told a value may hand over other results for the elements before the rest of the view's work is done, and what this makes
the view pass on may be answered in the same way. `Neighbours.Passing` is what may happen while a value is passed on. The view stores
the last value before it passes it on, and what it passes on it reads from its rows; hence whatever is told in the midst of it, the view
informs when it is over (`Passing.informs`).
-/

namespace LiveBindings

variable {π σ : Type}

/-! ## A late result, step by step -/

/-- The world in which an entry has another result. -/
def World.withResult (w : World (Callback π) (Env π σ)) (e : Ref .entry) (v : Value) : World (Callback π) (Env π σ) :=
  w.withCells { w.env.cells with entries := w.env.cells.entries.modify e.index fun c => { c with output := v } }

/-- A result is stored, and followed up while the entry is held. -/
theorem Relations.ends_receive {w : World (Callback π) (Env π σ)} {r : Ref .relations} {e : Ref .entry} {v : Value}
    {update : Nat → Value → Value → Live π σ Unit} (alive : isAlive w.env.cells r e = true)
    (Q : Unit → World (Callback π) (Env π σ) → Prop) :
    (Relations.receive update r e v).Ends w Q ↔ Run.Ends (do
      let c ← cells
      if (c.entry e).started && !(w.env.cells.entry e).output.same v then update (c.entry e).index (w.env.cells.entry e).output v)
        ((w.withResult e v).during { w.progress with heldEntries := e :: w.env.cells.heldEntries })
        fun _ w' => Q () (w'.during { w'.progress with heldEntries := w.env.cells.heldEntries }) := by
  simp only [Relations.receive, Run.ends_bind, ends_envCells, alive, if_true, keepingHeldEntries, Run.ends_restoring]
  exact Iff.rfl

/-- An update of a view, which holds the view meanwhile. -/
theorem ends_holdingBlock {E : Engine π σ} {w : World (Callback π) (Env π σ)} {b : Ref .block} {act : Live π σ Unit}
    (Q : Unit → World (Callback π) (Env π σ) → Prop) :
    (holdingBlock E b act).Ends w Q ↔ act.Ends (w.during { w.progress with heldBlocks := b :: w.env.cells.heldBlocks })
      fun _ w' => (sweep E).Ends (w'.during { w'.progress with heldBlocks := w.env.cells.heldBlocks }) Q := by
  simp only [holdingBlock, Run.ends_bind, ends_envCells, Run.ends_restoring]
  exact Iff.rfl

namespace Neighbours

section

variable {N : Neighbours π σ} {E : Engine π σ} {w w' : World (Callback π) (Env π σ)} {D : Desk} {light : Set (Cancel π)}
  {xs : List Row} {observer : π → Value → Live π σ Unit} {i : Nat} {x : Row}

/-- A value that is handed over for an element is stored. Unless it is the same as the one before, the view is updated. -/
theorem Rows.ends_result (h : N.Rows D light xs w) (hi : xs[i]? = some x) (v : Value)
    (Q : Unit → World (Callback π) (Env π σ) → Prop) :
    ((Feed.result i v).run E observer D).Ends w Q ↔
      if x.output.same v then Q () (w.withResult x.entry v)
      else (Block.update E D.owner i x.output v).Ends
        ((w.withResult x.entry v).during { w.progress with heldEntries := x.entry :: w.env.cells.heldEntries })
        fun _ w' => Q () (w'.during { w'.progress with heldEntries := w.env.cells.heldEntries }) := by
  have hx := List.mem_of_getElem? hi
  obtain ⟨c, hc, -, hout, hstarted, -⟩ := (h.runs x hx).cell
  have halive : isAlive w.env.cells D.relations x.entry = true := by
    simp [isAlive, h.relationsCell]
    exact Or.inl ⟨x, hx, rfl⟩
  have hentry : w.env.cells.entry x.entry = c := by simp [Cells.entry, Array.getD_eq_getD_getElem?, hc]
  have hindex : c.index = i := hentry ▸ h.numbered i x hi
  have hentry' (q : Progress π) : ((w.withResult x.entry v).during q).env.cells.entry x.entry = { c with output := v } := by
    simp [World.withResult, World.withCells, World.during, Cells.entry, Array.getD_eq_getD_getElem?, Array.getElem?_modify, hc]
  rw [h.run_result hi, Sink.emit]
  simp only [Run.ends_bind, ends_envCells, h.relationsCell, Relations.ends_receive halive, hentry, hentry', hstarted, hindex, hout,
    Bool.true_and]
  cases x.output.same v <;> rfl

/-- The rows when a value has been stored. -/
theorem Rows.withResult (h : N.Rows D light xs w) (hN : N.Around E) (hw : N.calm w) (hi : xs[i]? = some x) (v : Value) :
    N.Changes {.entry x.entry} ∅ w (w.withResult x.entry v) ∧
      N.Rows D light (xs.set i { x with output := v }) (w.withResult x.entry v) := by
  have hruns := h.runs x (List.mem_of_getElem? hi)
  obtain ⟨c, hc, -⟩ := hruns.cell
  have hmodify := hN.modifyEntry hw hruns.owns fun c => { c with output := v }
  simp only [LiveBindings.modifyEntry, modifyCells, Run.ends_modify] at hmodify
  obtain ⟨h', hc'⟩ := hmodify
  rw [hc, Option.map_some] at hc'
  exact ⟨h', h.setOutput hi hc h' hc'⟩

end

end Neighbours

/-! ## The view -/

/-- A view that passes on one value: what it finds, its cells, and where it passes values on. -/
structure Gauge (π σ : Type) where
  measure : Measure
  desk : Desk
  outlet : Outlet π σ

namespace Gauge

variable (G : Gauge π σ)

/-- The cell of the view when it knows of the elements. -/
def block (up : List Value) : Block π :=
  match G.measure with
  | .quantifier all => .quantifier all G.desk.relations G.outlet.sink
  | .extreme greatest => .extreme greatest G.desk.relations G.outlet.sink
  | .reduction what => .reduce what up G.outlet.sink

/-- What the view does when something has changed. -/
def publish (E : Engine π σ) (up : List Value) : Live π σ Unit :=
  match G.measure with
  | .quantifier all => publishQuantifier E all G.desk.relations G.outlet.sink
  | .extreme greatest => publishExtreme E greatest G.desk.relations G.outlet.sink
  | .reduction what => publishReduction E what up G.outlet.sink

/-- The value that the view has to show for the elements. -/
def value (up : List Value) (w : World (Callback π) (Env π σ)) : Value := G.measure.value up (w.latest G.desk)

/-- What the view may be told: a value only where an expression is evaluated per element, and only results that it may have. -/
def Accepts (nan : Number) (E : Engine π σ) (w : World (Callback π) (Env π σ)) : Feed → Prop
  | .content index removed plus => (Relations.splice E G.desk.relations index removed plus).Leads w fun _ w' =>
      ∀ k ∈ w'.latest G.desk, G.measure.Fits nan k
  | .replaced collection => (Relations.reset E G.desk.relations (w.elements collection)).Leads w fun _ w' =>
      ∀ k ∈ w'.latest G.desk, G.measure.Fits nan k
  | .result _ v => G.measure.evaluates = true ∧ G.measure.Fits nan v

theorem block_eq (h : G.measure.evaluates = true) (up up' : List Value) : (G.block up : Block π) = G.block up' := by
  unfold block
  cases hM : G.measure with
  | reduction what => rw [hM] at h; cases h
  | _ => rfl

theorem publish_eq (h : G.measure.evaluates = true) (E : Engine π σ) (up up' : List Value) : G.publish E up = G.publish E up' := by
  unfold publish
  cases hM : G.measure with
  | reduction what => rw [hM] at h; cases h
  | _ => rfl

theorem redoes (h : G.measure.evaluates = true) (E : Engine π σ) (up : List Value) :
    Redoes E G.desk (G.block up) (G.publish E up) := by
  unfold block publish
  cases hM : G.measure with
  | quantifier all => exact .quantifier all G.outlet.sink
  | extreme greatest => exact .extreme greatest G.outlet.sink
  | reduction what => rw [hM] at h; cases h

variable {E : Engine π σ} {w : World (Callback π) (Env π σ)} {up : List Value} {Q : Unit → World (Callback π) (Env π σ) → Prop}

/-- A view that keeps the elements itself takes note of the new ones and publishes. -/
theorem ends_splice (h : G.measure.evaluates = false) (hb : w.env.cells.block? G.desk.owner = some (G.block up)) (index removed : Nat)
    (plus : List Value) : (Block.splice E G.desk.owner index removed plus).Ends w Q ↔
      (modifyBlock G.desk.owner fun _ => G.block (replaceRun up index removed plus) : Live π σ Unit).Ends w fun _ w' =>
        (G.publish E (replaceRun up index removed plus)).Ends w' Q := by
  revert hb
  unfold block publish
  cases hM : G.measure with
  | reduction what =>
    intro hb
    simp only [Block.splice, Run.ends_bind, ends_envCells, hb, replaceCut_eq]
  | _ => simp [hM, Measure.evaluates] at h

theorem ends_reset (h : G.measure.evaluates = false) (hb : w.env.cells.block? G.desk.owner = some (G.block up)) (items : List Value) :
    (Block.reset E G.desk.owner items).Ends w Q ↔
      (modifyBlock G.desk.owner fun _ => G.block items : Live π σ Unit).Ends w fun _ w' => (G.publish E items).Ends w' Q := by
  revert hb
  unfold block publish
  cases hM : G.measure with
  | reduction what =>
    intro hb
    simp only [Block.reset, Run.ends_bind, ends_envCells, hb]
  | _ => simp [hM, Measure.evaluates] at h

end Gauge

namespace Neighbours

variable {N : Neighbours π σ} {G : Gauge π σ} {light : Set (Cancel π)} {nan : Number} {E : Engine π σ}
  {observer : π → Value → Live π σ Unit} {up : List Value} {v : Value} {w w' w₁ w₂ : World (Callback π) (Env π σ)} {S T : Set Part}

/-- The view knows of the elements, whatever it has passed on. -/
structure Measures (N : Neighbours π σ) (G : Gauge π σ) (light : Set (Cancel π)) (nan : Number) (up : List Value)
    (w : World (Callback π) (Env π σ)) : Prop where
  calm : N.calm w
  rows : G.measure.evaluates = true → ∃ xs, N.Rows G.desk light xs w ∧ xs.map (·.input) = up ∧
    ∀ x ∈ xs, G.measure.Fits nan x.output
  view : N.Keeps G.desk.owner (G.block up) w

/-- The value of the view is on its way to be told. -/
structure Due (N : Neighbours π σ) (G : Gauge π σ) (light : Set (Cancel π)) (nan : Number) (up : List Value) (v : Value)
    (w : World (Callback π) (Env π σ)) : Prop extends N.Measures G light nan up w where
  value : G.value up w = v
  awaits : G.outlet.Awaits v w

/-- The last value that was told is the one that the view has to show. Nothing has been told only as long as there are no elements. -/
structure Informs (N : Neighbours π σ) (G : Gauge π σ) (light : Set (Cancel π)) (nan : Number) (up : List Value)
    (w : World (Callback π) (Env π σ)) : Prop extends N.Measures G light nan up w where
  linked : G.outlet.Linked w
  shown : ∀ v, (G.outlet.tolds w).getLast? = some v → v.same (G.value up w) = true
  silent : G.outlet.tolds w = [] → up = []

namespace Measures

theorem length (h : N.Measures G light nan up w) (hM : G.measure.evaluates = true) : up.length = (w.latest G.desk).length := by
  obtain ⟨xs, hrows, hup, -⟩ := h.rows hM
  rw [hrows.latest, ← hup, List.length_map, List.length_map]

theorem isOf (h : N.Measures G light nan up w) : G.measure.IsOf up (w.latest G.desk) (G.value up w) :=
  G.measure.isOf_value h.length

theorem after (h : N.Measures G light nan up w) (h' : N.Changes ∅ ∅ w w') : N.Measures G light nan up w' where
  calm := h'.calm
  rows hM := (h.rows hM).imp fun _ hx => ⟨hx.1.after h' (Set.disjoint_empty _), hx.2⟩
  view := h.view.after h' (Set.notMem_empty _)

theorem during (h : N.Measures G light nan up w) (hN : N.Around E) (q : Progress π) : N.Measures G light nan up (w.during q) where
  calm := hN.calm_during h.calm q
  rows hM := (h.rows hM).imp fun _ hx => ⟨hx.1.during hN h.calm q, hx.2⟩
  view := h.view.during hN h.calm q

theorem latest_eq (h : N.Measures G light nan up w) (h' : N.Changes ∅ ∅ w w') (hM : G.measure.evaluates = true) :
    w'.latest G.desk = w.latest G.desk := by
  obtain ⟨xs, hrows, -⟩ := h.rows hM
  rw [hrows.latest, (hrows.after h' (Set.disjoint_empty _)).latest]

/-- The value stays what it was as long as no row changes. -/
theorem value_eq (h : N.Measures G light nan up w) (h' : N.Changes ∅ ∅ w w') : G.value up w' = G.value up w := by
  unfold Gauge.value
  cases hM : G.measure with
  | reduction what => rfl
  | _ => rw [h.latest_eq h' (by rw [hM]; rfl)]

theorem ends_publish (h : N.Measures G light nan up w) (Q : Unit → World (Callback π) (Env π σ) → Prop) :
    (G.publish E up).Ends w Q ↔ (E.emit G.outlet.sink (G.value up w)).Ends w Q := by
  unfold Gauge.publish Gauge.value
  cases hM : G.measure with
  | reduction what => rfl
  | quantifier all =>
    obtain ⟨xs, hrows, -⟩ := h.rows (by rw [hM]; rfl)
    simp only [publishQuantifier, Run.ends_bind, hrows.ends_outputs, Measure.value, hrows.latest]
  | extreme greatest =>
    obtain ⟨xs, hrows, hup, -⟩ := h.rows (by rw [hM]; rfl)
    simp only [publishExtreme, Run.ends_bind, hrows.ends_inputs, hrows.ends_outputs, Measure.value, hrows.latest, hup]

/-- The rows were changed, by nobody but the view. -/
theorem rewritten {s : Option (Option Value) × List Value} {xs ys : List Row} (h : N.Measures G light nan up w)
    (hM : G.measure.evaluates = true) (h' : (N.still G.outlet s).Changes (rowParts G.desk xs) ∅ w w')
    (hrows : (N.still G.outlet s).Rows G.desk light ys w') (fits : ∀ k ∈ w'.latest G.desk, G.measure.Fits nan k) :
    N.Measures G light nan (ys.map (·.input)) w' where
  calm := (changes_still.1 h').1.calm
  rows _ := by
    have hrows := rows_still.1 hrows
    rw [hrows.latest, List.forall_mem_map] at fits
    exact ⟨ys, hrows, rfl, fits⟩
  view := by
    have hview := h.view.after (changes_still.1 h').1 (by simp)
    rwa [G.block_eq hM up] at hview

/-- The expression handed over a value for an element. If it cannot be told from the one before, nothing more is done than to store
it, and the value of the view stays what it was; otherwise the view publishes while it is held. -/
theorem result {E' : Engine π σ} (hN : N.Around E') (h : N.Measures G light nan up w) {i : Nat} (hi : i < up.length)
    (ha : G.Accepts nan E w (.result i v)) (observer : π → Value → Live π σ Unit) : ∃ w₁, N.Measures G light nan up w₁ ∧ G.outlet.state w₁ = G.outlet.state w ∧
      (Feed.result i v).Results N E G.desk w w₁ ∧
        ((G.value up w₁ = G.value up w ∧ ∀ Q, ((Feed.result i v).run E observer G.desk).Ends w Q ↔ Q () w₁) ∨
          ∃ q bs es, ∀ Q, ((Feed.result i v).run E observer G.desk).Ends w Q ↔ (G.publish E up).Ends (w₁.during q) fun _ w₂ =>
            (sweep E).Ends (w₂.during { w₂.progress with heldBlocks := bs }) fun _ w₃ =>
              Q () (w₃.during { w₃.progress with heldEntries := es })) := by
  obtain ⟨hM, hfits⟩ := ha
  obtain ⟨xs, hrows, rfl, hxs⟩ := h.rows hM
  rw [List.length_map] at hi
  obtain ⟨x, hx⟩ : ∃ x, xs[i]? = some x := ⟨_, List.getElem?_eq_getElem hi⟩
  obtain ⟨h₁, hrows₁⟩ := hrows.withResult hN h.calm hx v
  have hview₁ : N.Keeps G.desk.owner (G.block (xs.map (·.input))) (w.withResult x.entry v) := h.view.after h₁ (by simp)
  have hlatest : (w.withResult x.entry v).latest G.desk = (w.latest G.desk).set i v := by
    rw [hrows₁.latest, hrows.latest, List.map_set]
  have hfits₁ : ∀ y ∈ xs.set i { x with output := v }, G.measure.Fits nan y.output := fun y hy =>
    (List.mem_or_eq_of_mem_set hy).elim (hxs y) fun he => he ▸ hfits
  refine ⟨_, ⟨h₁.calm, fun _ => ⟨_, hrows₁, map_set_same hx rfl, hfits₁⟩, hview₁⟩, rfl, hlatest, ?_⟩
  simp only [hrows.ends_result hx]
  cases hsame : x.output.same v with
  | true =>
    refine .inl ⟨?_, fun _ => by rw [if_pos rfl]⟩
    have hk : (w.latest G.desk)[i]? = some x.output := by rw [hrows.latest, List.getElem?_map, hx, Option.map_some]
    rw [Gauge.value, hlatest, Gauge.value, Measure.value_set hk hsame hM (hxs x (List.mem_of_getElem? hx)) hfits]
  | false =>
    let q : Progress π := { w.progress with heldEntries := x.entry :: w.env.cells.heldEntries }
    have hb := (hview₁.during hN h₁.calm q).block?
    refine .inr ⟨{ q with heldBlocks := G.desk.owner :: w.env.cells.heldBlocks }, w.env.cells.heldBlocks, w.env.cells.heldEntries,
      fun Q => ?_⟩
    rw [if_neg Bool.false_ne_true, (G.redoes hM E _).ends_update hb, ends_holdingBlock]
    exact Iff.rfl

end Measures

/-! ## While a value is passed on -/

/-- What may happen while a value is passed on. At first it is told. From then on the neighbours may go on, and other values may be
handed over for elements; what is passed on then, if it comes to an end, is answered in the same way. -/
inductive Passing (N : Neighbours π σ) (G : Gauge π σ) (light : Set (Cancel π)) (nan : Number) (H : Host π σ) (up : List Value) :
    Value → World (Callback π) (Env π σ) → World (Callback π) (Env π σ) → Prop
  | told {v : Value} {w w' : World (Callback π) (Env π σ)} (q : Progress π) (h : N.Changes ∅ ∅ (w.during q) w')
      (told : G.outlet.state w' = ((G.outlet.state w).1, G.outlet.tolds w ++ [v])) : Passing N G light nan H up v w w'
  | idle {v : Value} {w w₁ w₂ : World (Callback π) (Env π σ)} (h : Passing N G light nan H up v w w₁) (q : Progress π)
      (h' : (N.still G.outlet (G.outlet.state w₁)).Changes ∅ ∅ (w₁.during q) w₂) : Passing N G light nan H up v w w₂
  | result {v : Value} {w w₁ w₂ : World (Callback π) (Env π σ)} (h : Passing N G light nan H up v w w₁) (calls : Nat)
      (observer : π → Value → Live π σ Unit) (i : Nat) (u : Value) (hi : i < up.length)
      (ha : G.Accepts nan (engine H calls) w₁ (.result i u))
      (swept : ∀ a b, N.calm a → sweep (engine H calls) a = .ok () b → (N.still G.outlet (G.outlet.state a)).Changes ∅ ∅ a b)
      (passed : ∀ n x a b, calls = n + 1 → N.Due G light nan up x a → G.outlet.pass H n x a = .ok () b →
        Passing N G light nan H up x a b)
      (run : (Feed.result i u).run (engine H calls) observer G.desk w₁ = .ok () w₂) : Passing N G light nan H up v w w₂

namespace Informs

/-- Nothing has been told, and the view has the same value to show. -/
theorem congr (h : N.Informs G light nan up w) (hm : N.Measures G light nan up w') (hstate : G.outlet.state w' = G.outlet.state w)
    (hvalue : G.value up w' = G.value up w) : N.Informs G light nan up w' := by
  have htolds := Outlet.tolds_of_state hstate
  exact ⟨hm, h.linked.congr hstate, by rw [htolds, hvalue]; exact h.shown, by rw [htolds]; exact h.silent⟩

/-- The view still informs when the neighbours went on and nothing was passed on. -/
theorem meanwhile (hN : N.Around E) (h : N.Informs G light nan up w) (q : Progress π)
    (h' : (N.still G.outlet (G.outlet.state w)).Changes ∅ ∅ (w.during q) w') : N.Informs G light nan up w' := by
  obtain ⟨h', hstate⟩ := changes_still.1 h'
  have hm := h.toMeasures.during hN q
  exact h.congr (hm.after h') hstate (hm.value_eq h')

theorem during (hN : N.Around E) (h : N.Informs G light nan up w) (q : Progress π) : N.Informs G light nan up (w.during q) :=
  ⟨h.toMeasures.during hN q, h.linked.congr rfl, h.shown, h.silent⟩

end Informs

/-- A value that is handed to the sink of the view is the same as the last one that was told, or it is due. -/
theorem Measures.emitted (hO : N.Ignores G.outlet) (h : N.Measures G light nan up w) (hl : G.outlet.Linked w) (H : Host π σ)
    (calls : Nat) :
    (N.Informs G light nan up w ∧ G.outlet.tolds w ≠ [] ∧
      ∀ Q, (G.publish (engine H (calls + 1)) up).Ends w Q ↔ Q () w) ∨
    ∃ w₁, N.Due G light nan up (G.value up w) w₁ ∧ G.outlet.tolds w₁ = G.outlet.tolds w ∧
      ∀ Q, (G.publish (engine H (calls + 1)) up).Ends w Q ↔ (G.outlet.pass H calls (G.value up w)).Ends w₁ Q := by
  simp only [h.ends_publish, Outlet.ends_emit hl]
  cases hv : (G.outlet.tolds w).getLast?.any (·.same (G.value up w)) with
  | true =>
    obtain ⟨u, hu, hsame⟩ := (Option.any_eq_true _ _).1 hv
    have hne : G.outlet.tolds w ≠ [] := fun hnil => by rw [hnil] at hu; cases hu
    refine .inl ⟨⟨h, hl, fun v hv => ?_, fun hnil => absurd hnil hne⟩, hne, fun _ => by rw [if_pos rfl]⟩
    rw [hu] at hv
    exact Option.some.inj hv ▸ hsame
  | false =>
    have hrecall := hO.recall h.calm (G.value up w)
    exact .inr ⟨_, ⟨h.after hrecall, h.value_eq hrecall, hl.awaits hv⟩, rfl, fun _ => by rw [if_neg Bool.false_ne_true]⟩

namespace Informs

variable {H : Host π σ} {calls i : Nat}

/-- A value that is handed over for an element is followed up, if passing values on is. -/
theorem answers (hN : N.Around E) (hO : N.Ignores G.outlet) (h : N.Informs G light nan up w) (hi : i < up.length)
    (ha : G.Accepts nan (engine H calls) w (.result i v))
    (swept : ∀ a b, N.calm a → sweep (engine H calls) a = .ok () b → (N.still G.outlet (G.outlet.state a)).Changes ∅ ∅ a b)
    (passed : ∀ n x a b, calls = n + 1 → N.Due G light nan up x a → G.outlet.pass H n x a = .ok () b →
      N.Informs G light nan up b ∧ G.outlet.tolds a ++ [x] <+: G.outlet.tolds b)
    (run : (Feed.result i v).run (engine H calls) observer G.desk w = .ok () w') :
    N.Informs G light nan up w' ∧ G.outlet.tolds w <+: G.outlet.tolds w' := by
  obtain ⟨w₁, hm₁, hstate, -, hrun⟩ := h.toMeasures.result hN hi ha observer
  have htolds := Outlet.tolds_of_state hstate
  have hends : ((Feed.result i v).run (engine H calls) observer G.desk).Ends w fun _ w₂ => w₂ = w' :=
    (Run.ends_of_eq run).2 rfl
  -- when the value of the view has been passed on, what waited for this is finished, and nothing more is told
  have rest {b : World (Callback π) (Env π σ)} {bs : List (Ref .block)} {es : List (Ref .entry)} (hb : N.Informs G light nan up b)
      (hs : (sweep (engine H calls)).Ends (b.during { b.progress with heldBlocks := bs }) fun _ b' =>
        b'.during { b'.progress with heldEntries := es } = w') :
      N.Informs G light nan up w' ∧ G.outlet.tolds w' = G.outlet.tolds b := by
    obtain ⟨_, b', hrun, rfl⟩ := Run.ends_iff.1 hs
    have hchanges := swept _ _ (hN.calm_during hb.calm _) hrun
    exact ⟨(hb.meanwhile hN _ hchanges).during hN _, Outlet.tolds_of_state (changes_still.1 hchanges).2⟩
  rcases hrun with ⟨hvalue, hrun⟩ | ⟨q, bs, es, hrun⟩
  · rw [hrun] at hends
    subst hends
    exact ⟨h.congr hm₁ hstate hvalue, htolds ▸ List.prefix_refl _⟩
  · rw [hrun] at hends
    have hm := hm₁.during hN q
    obtain _ | n := calls
    · -- nothing can be passed on without a call
      rw [hm.ends_publish] at hends
      exact hends.elim
    rcases hm.emitted hO (h.linked.congr hstate) H n with ⟨hinforms, -, hiff⟩ | ⟨w₀, hdue, hw₀, hiff⟩
    · rw [hiff] at hends
      obtain ⟨hw', htold⟩ := rest hinforms hends
      exact ⟨hw', by rw [htold]; exact htolds ▸ List.prefix_refl _⟩
    · rw [hiff] at hends
      obtain ⟨_, b, hpass, hs⟩ := Run.ends_iff.1 hends
      obtain ⟨hb, hprefix⟩ := passed n _ _ _ rfl hdue hpass
      obtain ⟨hw', htold⟩ := rest hb hs
      refine ⟨hw', ?_⟩
      rw [htold, ← htolds]
      rw [hw₀] at hprefix
      exact (List.prefix_append _ _).trans hprefix

end Informs

/-- When a value that was due has been passed on, whatever happened meanwhile, the last value that was told is the one that the view
has to show. -/
theorem Passing.informs {H : Host π σ} (hN : N.Around E) (hO : N.Ignores G.outlet) (h : N.Passing G light nan H up v w w')
    (hd : N.Due G light nan up v w) : N.Informs G light nan up w' ∧ G.outlet.tolds w ++ [v] <+: G.outlet.tolds w' := by
  induction h with
  | @told v w w' q h told =>
    have hm := hd.toMeasures.during hN q
    have htold : G.outlet.tolds w' = G.outlet.tolds w ++ [v] := congrArg Prod.snd told
    have hvalue : G.value up w' = v := (hm.value_eq h).trans hd.value
    refine ⟨⟨hm.after h, hd.awaits.linked told, fun u hu => ?_, fun hnil => ?_⟩, htold ▸ List.prefix_refl _⟩
    · rw [htold, List.getLast?_concat, Option.some.injEq] at hu
      rw [hvalue, hu]
      exact Value.same_refl u
    · rw [htold] at hnil
      exact absurd hnil (List.append_ne_nil_of_right_ne_nil _ (List.cons_ne_nil _ _))
  | idle _ q h' ih =>
    obtain ⟨hinforms, hprefix⟩ := ih hd
    exact ⟨hinforms.meanwhile hN q h', by rw [Outlet.tolds_of_state (changes_still.1 h').2]; exact hprefix⟩
  | result _ calls observer i u hi ha swept _ run ih ihpassed =>
    obtain ⟨hinforms, hprefix⟩ := ih hd
    obtain ⟨hinforms', hprefix'⟩ := hinforms.answers hN hO hi ha swept
      (fun n x a b hn hdue hpass => ihpassed n x a b hn hdue hpass hdue) run
    exact ⟨hinforms', hprefix.trans hprefix'⟩

/-- What a view that passes on one value and its neighbours rely on. The bargain is kept as long as nothing is passed on, nothing is
passed on while an expression is started or stopped for an element, the last value is the view's own, and passing on a value that is
due comes to an end. -/
structure Surrounds (N : Neighbours π σ) (G : Gauge π σ) (light : Set (Cancel π)) (nan : Number) (H : Host π σ) (calls : Nat) :
    Prop where
  around : ∀ s, (N.still G.outlet s).Around (engine H (calls + 1))
  evaluates : G.measure.evaluates = true → ∀ s, (N.still G.outlet s).Evaluates (engine H (calls + 1)) G.desk light
  ignores : N.Ignores G.outlet
  passes : ∀ {up v w}, N.Due G light nan up v w → (G.outlet.pass H calls v).Ends w fun _ w' => N.Passing G light nan H up v w w'

theorem Surrounds.base {H : Host π σ} {calls : Nat} (hN : N.Surrounds G light nan H calls) : N.Around (engine H (calls + 1)) :=
  .of_still hN.around

end Neighbours

end LiveBindings
