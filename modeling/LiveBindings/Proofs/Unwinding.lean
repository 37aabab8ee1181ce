import LiveBindings.Observe.Fire
import LiveBindings.Proofs.Limit
import LiveBindings.Store.Span

/-!
# What an abandoned computation leaves in progress

A computation counts what is in progress while it runs: how many dispatches are in flight, how many of them are content dispatches
of a list, and which guarded sinks are passing a value on. `Run.Recovers` says what is left of these marks. The counts are as they
were, whether the computation ended or was abandoned. A flag that was there is as it was when the computation ended; when it was
abandoned a flag that was set still is (`World.Leaves`, `World.Completes`).

Here are the steps of which all computations are made, and the operations of the store.
-/

namespace LiveBindings

variable {π σ α β : Type}

/-- What every computation leaves: the counts of dispatches are as they were, and flags that were set still are. -/
structure World.Leaves (w w' : World (Callback π) (Env π σ)) : Prop where
  depth : w'.depth = w.depth
  dispatching : ∀ l, (w'.listCell l).dispatching = (w.listCell l).dispatching
  size : w.env.cells.flags.size ≤ w'.env.cells.flags.size
  set : ∀ f, w.env.cells.flag f = true → w'.env.cells.flag f = true

/-- What a computation leaves that ends: all flags that were there are as they were, too. -/
structure World.Completes (w w' : World (Callback π) (Env π σ)) : Prop extends w.Leaves w' where
  flags : ∀ f : Ref .flag, f.index < w.env.cells.flags.size → w'.env.cells.flag f = w.env.cells.flag f

/-- A flag that is set is there. -/
theorem Cells.lt_of_flag {c : Cells π} {f : Ref .flag} (h : c.flag f = true) : f.index < c.flags.size := by
  by_contra hn
  simp [Cells.flag, Array.getD_eq_getD_getElem?, hn] at h

namespace World

variable {w w' w'' : World (Callback π) (Env π σ)}

theorem Leaves.trans (h : w.Leaves w') (h' : w'.Leaves w'') : w.Leaves w'' where
  depth := h'.depth.trans h.depth
  dispatching l := (h'.dispatching l).trans (h.dispatching l)
  size := h.size.trans h'.size
  set f hf := h'.set f (h.set f hf)

theorem Completes.trans (h : w.Completes w') (h' : w'.Completes w'') : w.Completes w'' where
  toLeaves := h.toLeaves.trans h'.toLeaves
  flags f hf := (h'.flags f (hf.trans_le h.size)).trans (h.flags f hf)

theorem Completes.of_flags (depth : w'.depth = w.depth)
    (dispatching : ∀ l, (w'.listCell l).dispatching = (w.listCell l).dispatching)
    (size : w.env.cells.flags.size ≤ w'.env.cells.flags.size)
    (flags : ∀ f : Ref .flag, f.index < w.env.cells.flags.size → w'.env.cells.flag f = w.env.cells.flag f) : w.Completes w' where
  depth := depth
  dispatching := dispatching
  size := size
  set f hf := (flags f (Cells.lt_of_flag hf)).trans hf
  flags := flags

/-- Nothing that is in progress has changed. -/
theorem Completes.of_same (depth : w'.depth = w.depth)
    (dispatching : ∀ l, (w'.listCell l).dispatching = (w.listCell l).dispatching)
    (flags : w'.env.cells.flags = w.env.cells.flags) : w.Completes w' :=
  .of_flags depth dispatching (flags ▸ le_rfl) fun f _ => by rw [Cells.flag, flags, Cells.flag]

theorem Completes.refl (w : World (Callback π) (Env π σ)) : w.Completes w := .of_same rfl (fun _ => rfl) rfl

/-- A list is changed in anything but the count of its dispatches. -/
theorem Completes.modifyList (w : World (Callback π) (Env π σ)) (l : ListId) {f : ListCell (Callback π) → ListCell (Callback π)}
    (hf : ∀ c, (f c).dispatching = c.dispatching) : w.Completes (w.modifyList l f) := by
  refine .of_same rfl (fun l' => ?_) rfl
  rw [listCell_modifyList]
  split
  · rename_i h
    rw [hf, h.1]
  · rfl

theorem Completes.modifyObject (w : World (Callback π) (Env π σ)) (o : ObjectId)
    (f : ObjectCell (Callback π) → ObjectCell (Callback π)) : w.Completes (w.modifyObject o f) :=
  .of_same rfl (fun _ => rfl) rfl

end World

/-! ## Computations -/

/-- Whatever a computation starts from, it leaves in progress what was in progress. -/
def Run.Recovers (act : Live π σ α) : Prop := ∀ w,
  match act w with
  | .ok _ w' => w.Completes w'
  | .error _ w' => w.Leaves w'

namespace Run.Recovers

variable {act : Live π σ α} {f : α → Live π σ β} {w w' : World (Callback π) (Env π σ)}

theorem ok (h : Run.Recovers act) {a : α} (he : act w = .ok a w') : w.Completes w' := by
  have := h w
  rwa [he] at this

theorem error (h : Run.Recovers act) {e : Fault} (he : act w = .error e w') : w.Leaves w' := by
  have := h w
  rwa [he] at this

theorem pure (a : α) : Run.Recovers (Pure.pure a : Live π σ α) := .refl

theorem throw (e : Fault) : Run.Recovers (throw e : Live π σ α) := fun w => (World.Completes.refl w).toLeaves

theorem bind (h : Run.Recovers act) (hf : ∀ a, Run.Recovers (f a)) : Run.Recovers (act >>= f) := by
  intro w
  change match EStateM.bind act f w with | .ok _ w' => _ | .error _ w' => _
  unfold EStateM.bind
  cases he : act w with
  | ok a w₁ =>
    have h₁ := h.ok he
    have h₂ := hf a w₁
    dsimp only
    revert h₂
    cases f a w₁ with
    | ok b w₂ => exact h₁.trans
    | error e w₂ => exact h₁.toLeaves.trans
  | error e w₁ => exact h.error he

/-- What is only read does not matter. -/
theorem read (hact : ∀ w, ∃ a, act w = .ok a w) (hf : ∀ a, Run.Recovers (f a)) : Run.Recovers (act >>= f) := by
  refine bind (fun w => ?_) hf
  obtain ⟨a, ha⟩ := hact w
  rw [ha]
  exact .refl w

theorem map (h : Run.Recovers act) (g : α → β) : Run.Recovers (g <$> act) := by
  intro w
  have := h w
  revert this
  change _ → match EStateM.map g act w with | .ok _ w' => _ | .error _ w' => _
  unfold EStateM.map
  cases act w <;> exact id

theorem discard (h : Run.Recovers act) : Run.Recovers (Functor.discard act) := h.map _

theorem modifies {g : World (Callback π) (Env π σ) → World (Callback π) (Env π σ)}
    (h : ∀ w : World (Callback π) (Env π σ), w.Completes (g w)) : Run.Recovers (modify g : Live π σ PUnit) := h

theorem restoring {g : World (Callback π) (Env π σ) → World (Callback π) (Env π σ)}
    (hg : ∀ w : World (Callback π) (Env π σ), w.Completes (g w)) (h : Run.Recovers act) :
    Run.Recovers (LiveBindings.restoring g act) := by
  intro w
  have := h w
  revert this
  unfold LiveBindings.restoring
  cases act w with
  | ok a w' => exact fun h => h.trans (hg w')
  | error e w' => exact fun h => h.trans (hg w').toLeaves

/-- Cells other than flags are changed. -/
theorem cells {g : Cells π → Cells π} (h : ∀ c, (g c).flags = c.flags) : Run.Recovers (modifyCells g : Live π σ Unit) :=
  modifies fun _ => .of_same rfl (fun _ => rfl) (h _)

/-- A dispatch that is abandoned is no longer counted, like one that ends. -/
theorem nested {container : Kind} {silent : Live π σ α} (hs : Run.Recovers silent) (h : Run.Recovers act) :
    Run.Recovers (LiveBindings.nested container silent act) := by
  intro w
  by_cases limit : w.config.maxDispatchDepth ≤ w.depth
  · cases policy : w.config.onDepthExceeded with
    | skip =>
      rw [nested_silent limit policy]
      exact hs w
    | panic =>
      rw [nested_refused limit policy]
      exact (World.Completes.refl w).toLeaves
  · have hrun : LiveBindings.nested container silent act w =
        LiveBindings.restoring (fun w => { w with depth := w.depth - 1 }) act { w with depth := w.depth + 1 } := by
      change (if _ then _ else _ : Live π σ α) w = _
      rw [if_neg limit]
      rfl
    rw [hrun, LiveBindings.restoring]
    have hact := h { w with depth := w.depth + 1 }
    revert hact
    cases act { w with depth := w.depth + 1 } with
    | ok a w' => exact fun h => .of_flags (Nat.sub_eq_of_eq_add h.depth) h.dispatching h.size h.flags
    | error e w' => exact fun h => ⟨Nat.sub_eq_of_eq_add h.depth, h.dispatching, h.size, h.set⟩

theorem dispatching_absent {w : World (Callback π) (Env π σ)} {l : ListId} (h : ¬l.index < w.lists.size) :
    (w.listCell l).dispatching = 0 := by
  simp [World.listCell, Array.getD_eq_getD_getElem?, h]

/-- A count that was raised and is lowered is what it was: a list that was there still is. -/
theorem dispatching_lowered {w w' : World (Callback π) (Env π σ)} {l : ListId}
    (h : ∀ l', (w'.listCell l').dispatching =
      ((w.modifyList l fun c => { c with dispatching := c.dispatching + 1 }).listCell l').dispatching) (l' : ListId) :
    ((w'.modifyList l fun c => { c with dispatching := c.dispatching - 1 }).listCell l').dispatching =
      (w.listCell l').dispatching := by
  have hraised := h l'
  rw [World.listCell_modifyList] at hraised ⊢
  by_cases he : l' = l
  · subst he
    by_cases hw : l'.index < w.lists.size
    · rw [if_pos ⟨rfl, hw⟩] at hraised
      have hw' : l'.index < w'.lists.size := by
        by_contra hn
        exact absurd (hraised.symm.trans (dispatching_absent hn)) (Nat.succ_ne_zero _)
      rw [if_pos ⟨rfl, hw'⟩]
      exact Nat.sub_eq_of_eq_add hraised
    · rw [if_neg fun hn => hw hn.2, dispatching_absent hw] at hraised
      rw [dispatching_absent hw]
      split
      · exact congrArg (· - 1) hraised
      · exact hraised
  · rw [if_neg fun hn => he hn.1] at hraised ⊢
    exact hraised

/-- Nor is a content dispatch of a list. -/
theorem dispatching (l : ListId) (h : Run.Recovers act) : Run.Recovers (l.dispatching act) := by
  intro w
  have hrun : l.dispatching act w = LiveBindings.restoring (World.modifyList l fun c => { c with dispatching := c.dispatching - 1 }) act
      (w.modifyList l fun c => { c with dispatching := c.dispatching + 1 }) := rfl
  rw [hrun, LiveBindings.restoring]
  have hact := h (w.modifyList l fun c => { c with dispatching := c.dispatching + 1 })
  revert hact
  cases act (w.modifyList l fun c => { c with dispatching := c.dispatching + 1 }) with
  | ok a w' => exact fun h => .of_flags h.depth (dispatching_lowered h.dispatching) h.size h.flags
  | error e w' => exact fun h => ⟨h.depth, dispatching_lowered h.dispatching, h.size, h.set⟩

theorem withHeld {callbacks : List (Callback π)} (h : Run.Recovers act) : Run.Recovers (LiveBindings.withHeld callbacks act) :=
  read (fun w => ⟨w, rfl⟩) fun _ => restoring (fun _ => .of_same rfl (fun _ => rfl) rfl)
    (bind (modifies fun _ => .of_same rfl (fun _ => rfl) rfl) fun _ => h)

end Run.Recovers

/-! ## The store -/

/-- Callbacks leave in progress what was in progress. -/
structure Reactions.Recovers (R : Reactions (Callback π) (Env π σ)) : Prop where
  fire : ∀ callback e, Run.Recovers (R.fire callback e)
  letGo : Run.Recovers R.letGo

section

variable {R : Reactions (Callback π) (Env π σ)} (hR : R.Recovers)
include hR

namespace Reactions.Recovers

variable {τ : Type} {registered : World (Callback π) (Env π σ) → ListenerId → Bool} {e : Event}

theorem holding {callbacks : List (Callback π)} {act : Live π σ α} (h : act.Recovers) :
    Run.Recovers (LiveBindings.holding R callbacks act) :=
  .bind (.withHeld h) fun _ => .bind hR.letGo fun _ => .pure _

theorem tell (x : Listener τ (Callback π)) : Run.Recovers (LiveBindings.tell R registered e x) :=
  .read (fun w => ⟨w, rfl⟩) fun _ => by
    split
    · exact hR.fire _ _
    · exact .pure _

theorem tellAll (xs : List (Listener τ (Callback π))) : Run.Recovers (LiveBindings.tellAll R registered e xs) := by
  induction xs with
  | nil => exact .pure _
  | cons x xs ih => exact .bind (hR.tell x) fun _ => ih

theorem tellInTurn (xs : List (Listener τ (Callback π))) : Run.Recovers (LiveBindings.tellInTurn R registered e xs) := by
  induction xs with
  | nil => exact .pure _
  | cons x xs ih => exact .bind (.withHeld (hR.holding (hR.tell x))) fun _ => ih

end Reactions.Recovers

namespace ListId

variable (l : ListId)

theorem tellLength_recovers (topic : ListTopic) (length : Nat) : Run.Recovers (l.tellLength R topic length) :=
  .read (fun _ => ⟨_, rfl⟩) fun _ => hR.holding (hR.tellAll _)

theorem tellContent_recovers (topic : ListTopic) (report : ListReport) : Run.Recovers (l.tellContent R topic report) :=
  .read (fun _ => ⟨_, rfl⟩) fun _ => hR.tellInTurn _

theorem tellItems_recovers (ls : List (Listener ListTopic (Callback π))) (count index : Nat) :
    Run.Recovers (l.tellItems R ls count index) := by
  induction count generalizing index with
  | zero => exact .pure _
  | succ count ih => exact .read (fun _ => ⟨_, rfl⟩) fun _ => .bind (hR.tellAll _) fun _ => ih _

theorem tellSpan_recovers (topic : ListTopic) (change : ListChange) : Run.Recovers (l.tellSpan R topic change) :=
  .read (fun _ => ⟨_, rfl⟩) fun _ => by
    split
    · exact .pure _
    · exact hR.holding (l.tellItems_recovers hR _ _ _)

theorem apply_recovers (change : ListChange) (before : ListReport) {mutate : Live π σ ListReport} (hm : mutate.Recovers) :
    Run.Recovers (l.apply R change before mutate) := by
  have content : Run.Recovers (l.dispatching do
      l.tellContent R .beforeContent before
      l.tellSpan R .beforeEach change
      let after ← mutate
      l.tellSpan R .each change
      l.tellContent R .content after
      return after) :=
    .dispatching l <| .bind (l.tellContent_recovers hR _ _) fun _ => .bind (l.tellSpan_recovers hR _ _) fun _ => .bind hm fun _ =>
      .bind (l.tellSpan_recovers hR _ _) fun _ => .bind (l.tellContent_recovers hR _ _) fun _ => .pure _
  refine .nested hm ?_
  dsimp only
  split
  · exact .bind (l.tellLength_recovers hR _ _) fun _ => .bind content fun _ =>
      .read (fun _ => ⟨_, rfl⟩) fun _ => .bind (l.tellLength_recovers hR _ _) fun _ => .pure _
  · exact .bind content fun _ => .pure _

theorem splice_recovers (index remove : Nat) (plus : List Value) : Run.Recovers (l.splice R index remove plus) :=
  .read (fun _ => ⟨_, rfl⟩) fun _ => by
    dsimp only
    split
    · exact .pure _
    · refine .bind (l.apply_recovers hR _ _ ?_) fun _ => .pure _
      exact .read (fun _ => ⟨_, rfl⟩) fun _ => .bind (.modifies fun w => .modifyList w l fun _ => rfl) fun _ => .pure _

theorem push_recovers (values : List Value) : Run.Recovers (l.push R values) :=
  .read (fun _ => ⟨_, rfl⟩) fun _ => (l.splice_recovers hR _ _ _).discard

theorem pop_recovers : Run.Recovers (l.pop R) :=
  .read (fun _ => ⟨_, rfl⟩) fun _ => by
    split
    · exact .pure _
    · exact .bind (l.splice_recovers hR _ _ _) fun _ => .pure _

theorem shift_recovers : Run.Recovers (l.shift R) :=
  .read (fun _ => ⟨_, rfl⟩) fun _ => by
    split
    · exact .pure _
    · exact .bind (l.splice_recovers hR _ _ _) fun _ => .pure _

theorem assign_recovers (index : Nat) (value : Value) : Run.Recovers (l.assign R index value) :=
  .read (fun _ => ⟨_, rfl⟩) fun _ => by
    split
    · refine .read (fun _ => ⟨_, rfl⟩) fun _ => ?_
      split
      · exact .pure _
      · exact (l.splice_recovers hR _ _ _).discard
    · exact (l.splice_recovers hR _ _ _).discard

theorem delete_recovers (value : Value) : Run.Recovers (l.delete R value) :=
  .read (fun _ => ⟨_, rfl⟩) fun _ => by
    split
    · exact .bind (l.splice_recovers hR _ _ _).discard fun _ => .pure _
    · exact .pure _

theorem reorder_recovers (order : World (Callback π) (Env π σ) → List Value → List Value) : Run.Recovers (l.reorder R order) :=
  .read (fun _ => ⟨_, rfl⟩) fun _ => by
    dsimp only
    split
    · exact .pure _
    · refine (l.apply_recovers hR _ _ ?_).discard
      exact .read (fun _ => ⟨_, rfl⟩) fun _ => .bind (.modifies fun w => .modifyList w l fun _ => rfl) fun _ => .pure _

theorem reconcile_recovers (next : List Value) : Run.Recovers (l.reconcile R next) :=
  .read (fun _ => ⟨_, rfl⟩) fun _ => .read (fun _ => ⟨_, rfl⟩) fun _ => (l.splice_recovers hR _ _ _).discard

end ListId

namespace ObjectId

variable (o : ObjectId)

theorem tellEntry_recovers (key : String) (value : Value) : Run.Recovers (o.tellEntry R key value) :=
  .read (fun _ => ⟨_, rfl⟩) fun _ => hR.holding (hR.tellAll _)

omit hR in
theorem modifyEntries_recovers (f : List (String × Value) → List (String × Value)) :
    Run.Recovers (o.modifyEntries f : Live π σ Unit) := .modifies fun w => .modifyObject w o _

theorem change_recovers (key : String) (old new : Value) (f : List (String × Value) → List (String × Value)) :
    Run.Recovers (o.change R key old new f) :=
  .nested (o.modifyEntries_recovers f) <| .read (fun _ => ⟨_, rfl⟩) fun _ => .read (fun _ => ⟨_, rfl⟩) fun _ =>
    hR.holding <| .bind (hR.tellAll _) fun _ => .bind (o.modifyEntries_recovers f) fun _ => .bind (hR.tellAll _) fun _ =>
      o.tellEntry_recovers hR _ _

theorem assign_recovers (key : String) (value : Value) : Run.Recovers (o.assign R key value) :=
  .read (fun _ => ⟨_, rfl⟩) fun _ => by
    split
    · split
      · exact .pure _
      · exact o.change_recovers hR _ _ _ _
    · split
      · exact .bind (o.modifyEntries_recovers _) fun _ => .nested (.pure _) (o.tellEntry_recovers hR _ _)
      · exact o.change_recovers hR _ _ _ _

theorem delete_recovers (key : String) : Run.Recovers (o.delete R key) :=
  .read (fun _ => ⟨_, rfl⟩) fun _ => by
    split
    · exact .bind (o.change_recovers hR _ _ _ _) fun _ => .pure _
    · exact .pure _

end ObjectId

end

/-! ## Containers and listeners -/

theorem ListId.create_recovers (items : List Value) : Run.Recovers (ListId.create items : Live π σ ListId) := fun w =>
  .of_same rfl (fun l => by
    change (Array.getD (w.lists.push { items }) l.index _).dispatching = (Array.getD w.lists l.index _).dispatching
    rw [Array.getD_eq_getD_getElem?, Array.getD_eq_getD_getElem?, Array.getElem?_push]
    split
    · rename_i h
      rw [h, Array.getElem?_size]
      rfl
    · rfl) rfl

theorem ObjectId.create_recovers (entries : List (String × Value)) : Run.Recovers (ObjectId.create entries : Live π σ ObjectId) :=
  fun _ => .of_same rfl (fun _ => rfl) rfl

theorem ListId.listen_recovers (l : ListId) (topic : ListTopic) (callback : Callback π) :
    Run.Recovers (l.listen topic callback : Live π σ ListenerId) := fun w => by
  have registered : w.Completes { w with nextListener := w.nextListener + 1 } := .of_same rfl (fun _ => rfl) rfl
  exact registered.trans (.modifyList _ l fun _ => rfl)

theorem ObjectId.listen_recovers (o : ObjectId) (topic : ObjectTopic) (callback : Callback π) :
    Run.Recovers (o.listen topic callback : Live π σ ListenerId) := fun _ => .of_same rfl (fun _ => rfl) rfl

theorem ListId.unlisten_recovers (l : ListId) (topic : ListTopic) (id : ListenerId) :
    Run.Recovers (l.unlisten topic id : Live π σ Unit) := .modifies fun w => .modifyList w l fun _ => rfl

theorem ObjectId.unlisten_recovers (o : ObjectId) (topic : ObjectTopic) (id : ListenerId) :
    Run.Recovers (o.unlisten topic id : Live π σ Unit) := .modifies fun w => .modifyObject w o _

end LiveBindings
