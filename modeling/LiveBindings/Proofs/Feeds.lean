import LiveBindings.Observe.Fire
import LiveBindings.Proofs.Counts
import LiveBindings.Proofs.Rows

/-!
# What a view of elements is told

A view is a machine that is made once and then told of one thing after the other (`Machine`). `Neighbours.Reaches` collects the
worlds in which it can be after any number of them, in any order and with whatever its neighbours did meanwhile, together with what
it should know by then; `Reaches.keeps` is the induction over all of this.

A view that evaluates an expression per element hears of three things (`Feed`): some of the elements were replaced, the whole
collection became another one, or the expression handed over a value for an element. Many views follow all three by doing one and
the same thing over again (`Redoes`); what there is to know about such a view is what this does (`Redoes.step`).
-/

namespace LiveBindings

variable {π σ : Type}

/-- What a computation is known to end with may be known from two sources. -/
theorem Run.Ends.and {κ ε α : Type} {act : Run κ ε α} {w : World κ ε} {Q Q' : α → World κ ε → Prop} (h : act.Ends w Q)
    (h' : act.Ends w Q') : act.Ends w fun a w' => Q a w' ∧ Q' a w' := by
  obtain ⟨a, w', hrun, hQ⟩ := Run.ends_iff.1 h
  rw [Run.ends_of_eq hrun] at h'
  exact Run.ends_iff.2 ⟨a, w', hrun, hQ, h'⟩

/-- A view as a machine: how it is made, what it may be told and does about it, and what it should know afterwards. -/
structure Machine (π σ Γ Step : Type) where
  made : World (Callback π) (Env π σ) → Γ → World (Callback π) (Env π σ) → Prop
  Valid : World (Callback π) (Env π σ) → Γ → Step → Prop
  run : Step → Live π σ Unit
  after : World (Callback π) (Env π σ) → Step → Γ → Γ

namespace Neighbours

variable {Γ Step : Type} {N : Neighbours π σ} {M : Machine π σ Γ Step} {γ : Γ} {w : World (Callback π) (Env π σ)}

/-- The worlds in which a view can be, with what it should know there. -/
inductive Reaches (N : Neighbours π σ) (M : Machine π σ Γ Step) : Γ → World (Callback π) (Env π σ) → Prop
  | made {w γ w'} (hw : N.calm w) (h : M.made w γ w') : Reaches N M γ w'
  | meanwhile {γ w w'} (h : Reaches N M γ w) (h' : N.Changes ∅ ∅ w w') : Reaches N M γ w'
  | step {γ w w'} (h : Reaches N M γ w) (room : w.Admits) (s : Step) (hs : M.Valid w γ s) (run : M.run s w = .ok () w') :
      Reaches N M (M.after w s γ) w'

/-- What holds of a view that has been made, lasts and is kept by every step, holds wherever the view can get to. -/
theorem Reaches.keeps {I : Γ → World (Callback π) (Env π σ) → Prop}
    (made : ∀ {w γ w'}, N.calm w → M.made w γ w' → N.calm w' ∧ I γ w') (lasting : ∀ γ, N.Lasting (I γ))
    (step : ∀ {γ w s}, N.calm w → w.Admits → I γ w → M.Valid w γ s → (M.run s).Ends w fun _ w' => N.calm w' ∧ I (M.after w s γ) w')
    (h : N.Reaches M γ w) : N.calm w ∧ I γ w := by
  induction h with
  | made hw h => exact made hw h
  | meanwhile _ h' ih => exact ⟨h'.calm, Lasting.after (lasting _) ih.1 h' ih.2⟩
  | step _ room s hs run ih =>
    have hstep := step ih.1 room ih.2 hs
    rwa [Run.ends_of_eq run] at hstep

/-- A step that comes to an end leads on. -/
theorem Reaches.next {P : World (Callback π) (Env π σ) → Prop} {γ' : Γ} (h : N.Reaches M γ w) (s : Step) (hs : M.Valid w γ s)
    (hafter : M.after w s γ = γ') (room : w.Admits) (run : (M.run s).Ends w fun _ => P) : ∃ w', N.Reaches M γ' w' ∧ P w' := by
  obtain ⟨_, w', hrun, hP⟩ := Run.ends_iff.1 run
  exact ⟨w', hafter ▸ h.step room s hs hrun, hP⟩

end Neighbours

/-- What a view that evaluates an expression per element is told. -/
inductive Feed
  /-- Some of the elements were replaced. -/
  | content (index removed : Nat) (plus : List Value)
  /-- The collection became another value, whose items are the elements if it is a list. -/
  | replaced (collection : Value)
  /-- The expression handed over a value for the element at an index. -/
  | result (index : Nat) (v : Value)

/-- The items of a value; what is not a list has none. -/
def World.elements (w : World (Callback π) (Env π σ)) : Value → List Value
  | .list l => (w.listCell l).items
  | _ => []

/-- The latest results of the expression, in the order of the elements. -/
def World.latest (w : World (Callback π) (Env π σ)) (D : Desk) : List Value :=
  (w.env.cells.relationsCell D.relations).entries.map fun e => (w.env.cells.entry e).output

namespace Feed

/-- What the view does about it. -/
def run (E : Engine π σ) (observer : π → Value → Live π σ Unit) (D : Desk) : Feed → Live π σ Unit
  | content index removed plus => Block.splice E D.owner index removed plus
  | replaced collection => do Block.reset E D.owner (← elementsOf collection)
  | result index v => do
    match ((← cells).relationsCell D.relations).entries[index]? with
    | some e => Sink.emit E observer (.result D.relations e) v
    | none => return ()

/-- It is about elements that there are. -/
def Valid (up : List Value) : Feed → Prop
  | content index removed _ => index + removed ≤ up.length
  | replaced _ => True
  | result index _ => index < up.length

instance (up : List Value) : (s : Feed) → Decidable (s.Valid up)
  | content .. => inferInstanceAs (Decidable (_ ≤ _))
  | replaced _ => inferInstanceAs (Decidable True)
  | result .. => inferInstanceAs (Decidable (_ < _))

/-- The elements afterwards. -/
def after (w : World (Callback π) (Env π σ)) : Feed → List Value → List Value
  | content index removed plus, up => replaceRun up index removed plus
  | replaced collection, _ => w.elements collection
  | result _ _, up => up

/-- What becomes of the latest results: those of elements that stay are kept, a new element has the one that was last handed
over when the expression was started for it, and a value that is handed over becomes the latest. -/
def Results (N : Neighbours π σ) (E : Engine π σ) (D : Desk) (w w' : World (Callback π) (Env π σ)) : Feed → Prop
  | content index removed plus => ∃ fresh, List.Forall₂ (N.Evaluated E D) plus fresh ∧
      w'.latest D = replaceRun (w.latest D) index removed fresh
  | replaced collection => List.Forall₂ (N.Evaluated E D) (w.elements collection) (w'.latest D)
  | result index v => w'.latest D = (w.latest D).set index v

end Feed

/-- What a listener of a collection has a view do. -/
theorem Callback.fire_content (H : Host π σ) (E : Engine π σ) (observer : π → Value → Live π σ Unit) (D : Desk)
    (added removed : List Value) (index : Nat) : Callback.fire H E (.content D.owner) (.content added removed index) =
      (Feed.content index removed.length added).run E observer D := rfl

/-- What a new collection has a view do, before the view listens to it. -/
theorem Branch.start_content (E : Engine π σ) (observer : π → Value → Live π σ Unit) (D : Desk) (v : Value) :
    Branch.start E (.content D.owner) v = do
      (Feed.replaced v).run E observer D
      match v with
      | .list l => do
        let id ← l.listen .content (.content D.owner)
        return .unlistenList l .content id
      | _ => return .done := by
  cases v <;> rfl

/-! ## Making a view -/

/-- The first part of the start of an expression that evaluates another one per element: the view is made, and shows nothing
yet. -/
def PerElement.make (what : PerElement) (relation : Expr) (scope : Scope) (next : Sink π) : Live π σ (Desk × Option Value) := do
  let b ← nextBlock
  let r ← newRelations relation scope b
  let (block, output) ← what.block r next
  let b ← newBlock block
  return (⟨r, relation, scope, b⟩, output)

theorem Expr.start_perElement (E : Engine π σ) (what : PerElement) (collection relation : Expr) (next : Sink π) (scope : Scope) :
    Expr.start E (.perElement what collection relation) next scope = do
      let (D, output) ← what.make relation scope next
      let content ← watch D.owner (collection.start E · scope)
      if let some output := output then E.emit next output
      return .join [content, .release D.owner] := by
  conv_rhs => simp only [PerElement.make, bind_assoc, pure_bind]
  rfl

/-- A view that evaluates an expression per element, as a machine. What it should know are the elements. -/
def PerElement.machine (what : PerElement) (E : Engine π σ) (observer : π → Value → Live π σ Unit) (D : Desk) (output : Option Value) :
    Machine π σ (List Value) Feed where
  made w up w' := up = [] ∧ ∃ next, what.make D.relation D.scope next w = .ok (D, output) w'
  Valid _ := Feed.Valid
  run := Feed.run E observer D
  after := Feed.after

namespace Neighbours

section

variable {N : Neighbours π σ} {E : Engine π σ} {observer : π → Value → Live π σ Unit} {D : Desk} {light : Set (Cancel π)}
  {rows fresh : List Row} {w w' : World (Callback π) (Env π σ)}

theorem Rows.latest (h : N.Rows D light rows w) : w.latest D = rows.map (·.output) := by
  rw [World.latest, h.relationsCell, List.map_map]
  exact List.map_congr_left fun x hx => (h.runs x hx).entry.2.1

/-- A value that is handed over for an element goes to its row. -/
theorem Rows.run_result (h : N.Rows D light rows w) {i : Nat} {x : Row} (hi : rows[i]? = some x) (v : Value)
    (Q : Unit → World (Callback π) (Env π σ) → Prop) :
    ((Feed.result i v).run E observer D).Ends w Q ↔ (Sink.emit E observer (.result D.relations x.entry) v).Ends w Q := by
  have he : (w.env.cells.relationsCell D.relations).entries[i]? = some x.entry := by
    rw [h.relationsCell, List.getElem?_map, hi, Option.map_some]
  simp only [Feed.run, Run.ends_bind, ends_envCells, he]

theorem ends_elementsOf (v : Value) (Q : List Value → World (Callback π) (Env π σ) → Prop) :
    (elementsOf v : Live π σ _).Ends w Q ↔ Q (w.elements v) w := by
  cases v <;> rfl

/-- What was evaluated for the rows that are new, as a statement about their elements and results. -/
theorem forall₂_evaluated (h : ∀ x ∈ fresh, N.Evaluated E D x.input x.output) :
    List.Forall₂ (N.Evaluated E D) (fresh.map (·.input)) (fresh.map (·.output)) := by
  rw [List.forall₂_map_left_iff, List.forall₂_map_right_iff]
  exact List.forall₂_same.2 h

end

/-- What a view is told, by what it does in each case: the rows that it has afterwards are those of the elements afterwards, with
their latest results. -/
theorem Rows.step {N : Neighbours π σ} {E : Engine π σ} {observer : π → Value → Live π σ Unit} {D : Desk} {light : Set (Cancel π)}
    {xs : List Row} {w : World (Callback π) (Env π σ)} {P : Feed → List Row → World (Callback π) (Env π σ) → Prop}
    (h : N.Rows D light xs w) (hP : ∀ {s ys w'}, P s ys w' → N.Rows D light ys w')
    (hsplice : ∀ index removed plus, (Block.splice E D.owner index removed plus).Ends w fun _ w' =>
      ∃ fresh, fresh.map (·.input) = plus ∧ (∀ x ∈ fresh, N.Evaluated E D x.input x.output) ∧
        P (.content index removed plus) (xs.take index ++ fresh ++ xs.drop (index + removed)) w')
    (hreset : ∀ collection, (Block.reset E D.owner (w.elements collection)).Ends w fun _ w' =>
      ∃ fresh, fresh.map (·.input) = w.elements collection ∧ (∀ x ∈ fresh, N.Evaluated E D x.input x.output) ∧
        P (.replaced collection) fresh w')
    (hresult : ∀ i x v, xs[i]? = some x → (Sink.emit E observer (.result D.relations x.entry) v).Ends w fun _ w' =>
      P (.result i v) (xs.set i { x with output := v }) w')
    (s : Feed) (hs : s.Valid (xs.map (·.input))) :
    (s.run E observer D).Ends w fun _ w' => s.Results N E D w w' ∧
      ∃ ys, ys.map (·.input) = s.after w (xs.map (·.input)) ∧ P s ys w' := by
  cases s with
  | content index removed plus =>
    refine (hsplice index removed plus).imp fun _ w' ⟨fresh, hplus, hev, hp⟩ => ?_
    refine ⟨⟨fresh.map (·.output), hplus ▸ forall₂_evaluated hev, ?_⟩, _, ?_, hp⟩
    · rw [(hP hp).latest, h.latest]
      simp [replaceRun, List.map_take, List.map_drop]
    · simp [Feed.after, replaceRun, List.map_take, List.map_drop, hplus]
  | replaced collection =>
    simp only [Feed.run, Run.ends_bind, ends_elementsOf]
    refine (hreset collection).imp fun _ w' ⟨fresh, hitems, hev, hp⟩ => ⟨?_, _, hitems, hp⟩
    rw [Feed.Results, (hP hp).latest, ← hitems]
    exact forall₂_evaluated hev
  | result i v =>
    obtain ⟨x, hi⟩ : ∃ x, xs[i]? = some x := ⟨_, List.getElem?_eq_getElem (by simpa [Feed.Valid] using hs)⟩
    rw [h.run_result hi]
    refine (hresult i x v hi).imp fun _ w' hp => ⟨?_, _, ?_, hp⟩
    · rw [Feed.Results, (hP hp).latest, h.latest, List.map_set]
    · exact map_set_same hi rfl

/-- The cell of a view that is not finished. -/
structure Keeps (N : Neighbours π σ) (b : Ref .block) (block : Block π) (w : World (Callback π) (Env π σ)) : Prop where
  owns : N.Owns w (.block b)
  cell : w.env.cells.blocks[b.index]? = some { block }

variable {N : Neighbours π σ} {E : Engine π σ} {S T : Set Part} {w w' : World (Callback π) (Env π σ)} {b : Ref .block} {block : Block π}
  {what : PerElement} {D : Desk} {light : Set (Cancel π)}

namespace Keeps

theorem block? (h : N.Keeps b block w) : w.env.cells.block? b = some block := by simp [Cells.block?, h.cell]

theorem after (h : N.Keeps b block w) (h' : N.Changes S T w w') (hn : .block b ∉ S) : N.Keeps b block w' := by
  have hsame : w'.env.cells.blocks[b.index]? = w.env.cells.blocks[b.index]? := h'.same _ h.owns hn
  exact ⟨h'.owns _ h.owns, by rw [hsame, h.cell]⟩

theorem during (h : N.Keeps b block w) (hN : N.Around E) (hw : N.calm w) (q : Progress π) : N.Keeps b block (w.during q) :=
  ⟨hN.owns_during hw h.owns q, h.cell⟩

theorem lasting (hN : N.Around E) : N.Lasting (N.Keeps b block) :=
  fun q hw h' h => (h.during hN hw q).after h' (Set.notMem_empty _)

/-- The view changes what it keeps. -/
theorem modify (h : N.Keeps b block w) (hN : N.Around E) (hw : N.calm w) (f : Block π → Block π) :
    (modifyBlock b f : Live π σ Unit).Ends w fun _ w' => N.Changes {.block b} ∅ w w' ∧ N.Keeps b (f block) w' := by
  refine (hN.modifyBlock hw h.owns f).imp fun _ w' ⟨h', hcell⟩ => ⟨h', h'.owns _ h.owns, ?_⟩
  rw [hcell, h.cell, Option.map_some]

end Keeps

namespace Around

variable (hN : N.Around E)

include hN

theorem newRelations (hw : N.calm w) (relation : Expr) (scope : Scope) (owner : Ref .block) :
    (LiveBindings.newRelations relation scope owner : Live π σ _).Ends w fun r w' =>
      (N.Changes ∅ ∅ w w' ∧ N.Owns w' (.relations r)) ∧
        w'.env.cells.relations[r.index]? = some { relation, scope, owner } ∧ w'.env.cells.blocks = w.env.cells.blocks := by
  simp only [LiveBindings.newRelations, modifyCells, Run.ends_bind, ends_envCells, Run.ends_modify, Run.ends_pure]
  have hfresh : ¬w.Made (.relations ⟨w.env.cells.relations.size⟩) := Nat.lt_irrefl _
  refine ⟨hN.makePart hw hfresh (by simp [World.Made]) (.withCells rfl fun p hp => ?_) (fun p hp => ?_) rfl, by simp, trivial⟩
  · cases p with
    | relations r' => exact Nat.lt_of_lt_of_le hp (by simp [World.withCells])
    | _ => exact hp
  · cases p with
    | relations r' => exact getElem?_push_of_ne (Ref.index_ne fun h => hp (h ▸ rfl))
    | _ => rfl

theorem newBlock (hw : N.calm w) (block : Block π) :
    (LiveBindings.newBlock block : Live π σ _).Ends w fun b w' => N.Changes ∅ ∅ w w' ∧ b = ⟨w.env.cells.blocks.size⟩ ∧
      N.Keeps b block w' := by
  simp only [LiveBindings.newBlock, modifyCells, Run.ends_bind, ends_envCells, Run.ends_modify, Run.ends_pure]
  have hfresh : ¬w.Made (.block ⟨w.env.cells.blocks.size⟩) := Nat.lt_irrefl _
  suffices hmake : N.Changes ∅ ∅ w (w.withCells { w.env.cells with blocks := w.env.cells.blocks.push { block } }) ∧
      N.Owns (w.withCells { w.env.cells with blocks := w.env.cells.blocks.push { block } }) (.block ⟨w.env.cells.blocks.size⟩) from
    ⟨hmake.1, trivial, hmake.2, by simp⟩
  refine hN.makePart hw hfresh (by simp [World.Made, World.withCells]) (.withCells rfl fun p hp => ?_) (fun p hp => ?_) rfl
  · cases p with
    | block b' => exact Nat.lt_of_lt_of_le hp (by simp [World.withCells])
    | _ => exact hp
  · cases p with
    | block b' => exact getElem?_push_of_ne (Ref.index_ne fun h => hp (h ▸ rfl))
    | _ => rfl

/-- A view that has been made has no rows, and keeps the state that it starts with. -/
theorem make {next : Sink π} {relation : Expr} {scope : Scope} {light : Set (Cancel π)}
    {Q : Ref .relations → Block π → Option Value → World (Callback π) (Env π σ) → Prop} (hw : N.calm w)
    (hblock : ∀ {w r}, N.calm w → (what.block r next).Ends w fun made w' =>
      (N.Changes ∅ ∅ w w' ∧ w'.env.cells.blocks = w.env.cells.blocks) ∧ Q r made.1 made.2 w')
    (hQ : ∀ {r block output w w'}, N.calm w → N.Changes ∅ ∅ w w' → Q r block output w → Q r block output w') :
    (what.make relation scope next).Ends w fun made w' => N.Changes ∅ ∅ w w' ∧
      (made.1.relation = relation ∧ made.1.scope = scope) ∧ N.Rows made.1 light [] w' ∧
        ∃ block, N.Keeps made.1.owner block w' ∧ Q made.1.relations block made.2 w' := by
  simp only [PerElement.make, nextBlock, Run.ends_bind, ends_envCells, Run.ends_pure]
  refine (hN.newRelations hw _ _ _).imp fun r w₁ ended => ?_
  obtain ⟨⟨h₁, hr₁⟩, hc₁, hb₁⟩ := ended
  refine (hblock h₁.calm).imp fun made w₂ ended => ?_
  obtain ⟨⟨h₂, hb₂⟩, hQ₂⟩ := ended
  refine (hN.newBlock h₂.calm _).imp fun b w₃ ended => ?_
  obtain ⟨h₃, hb, hk⟩ := ended
  have hr₂ : N.Owns w₂ (.relations r) := h₂.owns _ hr₁
  have hc₂ : w₂.env.cells.relations[r.index]? = w₁.env.cells.relations[r.index]? := h₂.same _ hr₁ (Set.notMem_empty _)
  have hc₃ : w₃.env.cells.relations[r.index]? = w₂.env.cells.relations[r.index]? := h₃.same _ hr₂ (Set.notMem_empty _)
  rw [hb₂, hb₁] at hb
  refine ⟨(h₁.trans h₂).trans h₃, ⟨trivial, trivial⟩, ⟨h₃.owns _ hr₂, ?_, by simp, by simp, by simp⟩, _, hk, hQ h₂.calm h₃ hQ₂⟩
  rw [hc₃, hc₂, hc₁, hb]
  rfl

/-- A view that shows something of its own has been made: it has no rows, and keeps what was made for it. -/
theorem make_shown {α : Type} {act : Live π σ α} {shape : α → Ref .relations → Block π} {shown : α → Value} {v : Value}
    {Q : α → World (Callback π) (Env π σ) → Prop} {next : Sink π}
    (hshape : ∀ r next, what.block r next = do
      let a ← act
      return (shape a r, some (shown a))) (hw : N.calm w)
    (hact : ∀ {w}, N.calm w → act.Ends w fun a w' => (N.Changes ∅ ∅ w w' ∧ w'.env.cells.blocks = w.env.cells.blocks) ∧ Q a w')
    (hQ : ∀ {a w w'}, N.Changes ∅ ∅ w w' → Q a w → Q a w') (run : what.make D.relation D.scope next w = .ok (D, some v) w') :
    (N.calm w' ∧ N.Rows D light [] w') ∧ ∃ a, v = shown a ∧ N.Keeps D.owner (shape a D.relations) w' ∧ Q a w' := by
  have hmake : (what.make D.relation D.scope next).Ends w fun made w' => N.Changes ∅ ∅ w w' ∧
      (made.1.relation = D.relation ∧ made.1.scope = D.scope) ∧ N.Rows made.1 light [] w' ∧
        ∃ block, N.Keeps made.1.owner block w' ∧ ∃ a, block = shape a made.1.relations ∧ made.2 = some (shown a) ∧ Q a w' := by
    refine hN.make (Q := fun r block output w => ∃ a, block = shape a r ∧ output = some (shown a) ∧ Q a w) hw (fun {w r} hw => ?_)
      fun _ h shaped => ?_
    rotate_left
    · obtain ⟨a, hb, ho, hq⟩ := shaped
      exact ⟨a, hb, ho, hQ h hq⟩
    simp only [hshape, Run.ends_bind, Run.ends_pure]
    refine (hact hw).imp fun a w' ended => ?_
    obtain ⟨h, hq⟩ := ended
    exact ⟨h, a, rfl, rfl, hq⟩
  rw [Run.ends_of_eq run] at hmake
  obtain ⟨h, -, hrows, block, hk, a, rfl, hv, hq⟩ := hmake
  exact ⟨⟨h.calm, hrows⟩, a, Option.some.inj hv, hk, hq⟩

/-- A view that shows a list has been made: its list is empty. -/
theorem make_list {shape : ListId → Ref .relations → Block π} {output : ListId} {next : Sink π}
    (hshape : ∀ r next, what.block r next = do
      let l ← (ListId.create [] : Live π σ ListId)
      return (shape l r, some (.list l))) (hw : N.calm w)
    (run : what.make D.relation D.scope next w = .ok (D, some (.list output)) w') :
    (N.calm w' ∧ N.Rows D light [] w') ∧ N.Keeps D.owner (shape output D.relations) w' ∧ N.Owns w' (.list output) ∧
      (w'.listCell output).items = [] := by
  have hact {w : World (Callback π) (Env π σ)} (hw : N.calm w) : (ListId.create [] : Live π σ ListId).Ends w fun l w' =>
      (N.Changes ∅ ∅ w w' ∧ w'.env.cells.blocks = w.env.cells.blocks) ∧ N.Owns w' (.list l) ∧ (w'.listCell l).items = [] := by
    have hblocks : (ListId.create [] : Live π σ ListId).Ends w fun _ w' => w'.env.cells.blocks = w.env.cells.blocks := rfl
    exact ((hN.create hw []).and hblocks).imp fun l w' ⟨⟨⟨h, ho⟩, _, hi⟩, hb⟩ => ⟨⟨h, hb⟩, ho, hi⟩
  obtain ⟨hmade, l, hl, hk, ho, hi⟩ := hN.make_shown hshape hw hact
    (fun h hq => ⟨h.owns _ hq.1, (show _ = _ from h.same _ hq.1 (Set.notMem_empty _)).trans hq.2⟩) run
  cases hl
  exact ⟨hmade, hk, ho, hi⟩

/-- A view that shows an object has been made: its object has no entries. -/
theorem make_object {shape : ObjectId → Ref .relations → Block π} {output : ObjectId} {next : Sink π}
    (hshape : ∀ r next, what.block r next = do
      let o ← (ObjectId.create [] : Live π σ ObjectId)
      return (shape o r, some (.object o))) (hw : N.calm w)
    (run : what.make D.relation D.scope next w = .ok (D, some (.object output)) w') :
    (N.calm w' ∧ N.Rows D light [] w') ∧ N.Keeps D.owner (shape output D.relations) w' ∧ N.Owns w' (.object output) ∧
      (w'.objectCell output).entries = [] := by
  have hact {w : World (Callback π) (Env π σ)} (hw : N.calm w) : (ObjectId.create [] : Live π σ ObjectId).Ends w fun o w' =>
      (N.Changes ∅ ∅ w w' ∧ w'.env.cells.blocks = w.env.cells.blocks) ∧ N.Owns w' (.object o) ∧ (w'.objectCell o).entries = [] := by
    have hblocks : (ObjectId.create [] : Live π σ ObjectId).Ends w fun _ w' => w'.env.cells.blocks = w.env.cells.blocks := rfl
    exact ((hN.createObject hw []).and hblocks).imp fun o w' ⟨⟨⟨h, ho⟩, _, hi⟩, hb⟩ => ⟨⟨h, hb⟩, ho, hi⟩
  obtain ⟨hmade, o, ho, hk, hown, hi⟩ := hN.make_shown hshape hw hact
    (fun h hq => ⟨h.owns _ hq.1, (show _ = _ from h.same _ hq.1 (Set.notMem_empty _)).trans hq.2⟩) run
  cases ho
  exact ⟨hmade, hk, hown, hi⟩

end Around

/-- What holds of a view that has just been made and has no rows, lasts and is kept by every step, holds wherever the view can get to,
with rows for the elements that it has been told of. -/
theorem Reaches.keepsRows {observer : π → Value → Live π σ Unit} {output : Option Value} {up : List Value}
    {I : List Row → World (Callback π) (Env π σ) → Prop}
    (made : ∀ {w w' next}, N.calm w → what.make D.relation D.scope next w = .ok (D, output) w' → N.calm w' ∧ I [] w')
    (lasting : ∀ xs, N.Lasting (I xs))
    (step : ∀ {xs w} {s : Feed}, N.calm w → w.Admits → I xs w → s.Valid (xs.map (·.input)) →
      (s.run E observer D).Ends w fun _ w' => ∃ ys, ys.map (·.input) = s.after w (xs.map (·.input)) ∧ N.calm w' ∧ I ys w')
    (h : N.Reaches (what.machine E observer D output) up w) : N.calm w ∧ ∃ xs, xs.map (·.input) = up ∧ I xs w := by
  refine h.keeps (I := fun up w => ∃ xs, xs.map (·.input) = up ∧ I xs w) ?_ ?_ ?_
  · rintro w up w' hw ⟨rfl, next, run⟩
    obtain ⟨hw', hi⟩ := made hw run
    exact ⟨hw', [], rfl, hi⟩
  · rintro up w w' q hw h' ⟨xs, hup, hi⟩
    exact ⟨xs, hup, lasting xs q hw h' hi⟩
  · rintro _ w s hw room ⟨xs, rfl, hi⟩ hs
    exact (step hw room hi hs).imp fun _ w' ⟨ys, hup, hw', hi'⟩ => ⟨hw', ys, hup, hi'⟩

end Neighbours

/-! ## Views that start over -/

/-- A view that follows whatever happens to its rows by doing one and the same thing over again. -/
inductive Redoes (E : Engine π σ) (D : Desk) : Block π → Live π σ Unit → Prop
  | quantifier (all : Bool) (sink : Sink π) :
    Redoes E D (.quantifier all D.relations sink) (publishQuantifier E all D.relations sink)
  | extreme (greatest : Bool) (sink : Sink π) :
    Redoes E D (.extreme greatest D.relations sink) (publishExtreme E greatest D.relations sink)
  | sorted (output : ListId) : Redoes E D (.sorted output D.relations) (resort E output D.relations)
  | group (output : ListId) (buckets : List Bucket) :
    Redoes E D (.group output D.relations buckets) (regroupList E D.owner output D.relations)
  | groupMap (output : ObjectId) (buckets : List Bucket) (merged : List (String × ListId)) :
    Redoes E D (.groupMap output D.relations buckets merged) (regroupMap E D.owner output D.relations)

namespace Redoes

variable {E : Engine π σ} {w : World (Callback π) (Env π σ)} {D : Desk} {block : Block π} {act : Live π σ Unit}
  {Q : Unit → World (Callback π) (Env π σ) → Prop}

theorem ends_splice (h : Redoes E D block act) (hb : w.env.cells.block? D.owner = some block) (index removed : Nat)
    (plus : List Value) : (Block.splice E D.owner index removed plus).Ends w Q ↔
      (Relations.splice E D.relations index removed plus).Ends w fun _ w' => act.Ends w' Q := by
  cases h <;> simp only [Block.splice, Run.ends_bind, ends_envCells, hb, Run.ends_discard]

theorem ends_reset (h : Redoes E D block act) (hb : w.env.cells.block? D.owner = some block) (items : List Value) :
    (Block.reset E D.owner items).Ends w Q ↔ (Relations.reset E D.relations items).Ends w fun _ w' => act.Ends w' Q := by
  cases h <;> simp only [Block.reset, Run.ends_bind, ends_envCells, hb, Run.ends_discard]

theorem ends_update (h : Redoes E D block act) (hb : w.env.cells.block? D.owner = some block) (index : Nat) (old new : Value) :
    (Block.update E D.owner index old new).Ends w Q ↔ (holdingBlock E D.owner act).Ends w Q := by
  cases h <;> simp only [Block.update, Run.ends_bind, ends_envCells, hb]

/-- One step of such a view, by what it does over again when it has other rows. A result that cannot be told from the one before
changes its rows only. -/
theorem step {N : Neighbours π σ} {observer : π → Value → Live π σ Unit} {light : Set (Cancel π)} {xs : List Row}
    {P : List Row → World (Callback π) (Env π σ) → Prop} (h : Redoes E D block act) (hN : N.Around E) (hE : N.Evaluates E D light)
    (hw : N.calm w) (room : w.Admits) (hrows : N.Rows D light xs w) (hk : N.Keeps D.owner block w)
    (hP : ∀ {ys w'}, P ys w' → N.Rows D light ys w') (lasting : ∀ ys, N.Lasting (P ys))
    (redo : ∀ {q w' ys}, (w.during q).Admits → N.Changes (Neighbours.rowParts D xs) ∅ (w.during q) w' → N.Rows D light ys w' →
      act.Ends w' fun _ w'' => N.Changes Set.univ Set.univ w' w'' ∧ P ys w'')
    (quiet : ∀ {q w' i x v}, xs[i]? = some x → x.output.same v = true → N.Changes {.entry x.entry} ∅ (w.during q) w' →
      N.Rows D light (xs.set i { x with output := v }) w' → P (xs.set i { x with output := v }) w')
    (s : Feed) (hs : s.Valid (xs.map (·.input))) :
    (s.run E observer D).Ends w fun _ w' => s.Results N E D w w' ∧
      ∃ ys, ys.map (·.input) = s.after w (xs.map (·.input)) ∧ N.calm w' ∧ P ys w' := by
  refine hrows.step (P := fun _ ys w' => N.calm w' ∧ P ys w') (fun hp => hP hp.2) ?_ ?_ ?_ s hs
  · intro index removed plus
    rw [h.ends_splice hk.block?]
    refine (hN.splice_rows hE hw hrows index removed plus).imp fun _ w₁ ended => ?_
    obtain ⟨h₁, fresh, _, hplus, hev, hrows₁⟩ := ended
    refine (redo (q := w.progress) room h₁ hrows₁).imp fun _ w₂ ended => ?_
    obtain ⟨h₂, hp⟩ := ended
    exact ⟨fresh, hplus, hev, h₂.calm, hp⟩
  · intro collection
    rw [h.ends_reset hk.block?]
    refine (hN.reset_rows hE hw hrows (w.elements collection)).imp fun _ w₁ ended => ?_
    obtain ⟨h₁, fresh, _, hitems, hev, hrows₁⟩ := ended
    refine (redo (q := w.progress) room h₁ hrows₁).imp fun _ w₂ ended => ?_
    obtain ⟨h₂, hp⟩ := ended
    exact ⟨fresh, hitems, hev, h₂.calm, hp⟩
  · intro i x v hi
    have hx : ({.entry x.entry} : Set Part) ⊆ Neighbours.rowParts D xs := by
      rintro p rfl
      exact .inr ⟨x, List.mem_of_getElem? hi, rfl⟩
    refine Run.Ends.imp (hN.emit_result (T := Set.univ) hw hrows hi (Set.mem_univ _) (lasting _)
      (fun h' hrows' hsame => quiet hi hsame h' hrows') ?_) fun _ w' h => ⟨h.1.calm, h.2⟩
    intro es w' h' hrows' _
    rw [h.ends_update ((hk.during hN hw _).after h' (by simp)).block?]
    refine hN.holdingBlock h'.calm (lasting _) fun held => ?_
    -- the view is held meanwhile, which makes no difference to the room that there is
    have hdepth : w'.depth = w.depth := congrArg Progress.depth h'.progress
    have room' : (w.during { w'.progress with heldBlocks := held }).Admits := by
      simpa [World.Admits, World.during, World.progress, hdepth] using room
    have hheld := hN.changes_during (hN.calm_during hw _) h' { w'.progress with heldBlocks := held }
    exact redo room' (hheld.mono hx subset_rfl) (hrows'.during hN h'.calm _)

end Redoes

end LiveBindings
