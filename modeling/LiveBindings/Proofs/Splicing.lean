import LiveBindings.Proofs.Neighbours
import LiveBindings.Proofs.Spans

/-!
# What a view does to its containers

The changes of a list or an object that a view keeps, when it is among its neighbours: the change is made to what the container
held before the dispatch, whatever the listeners do, and nothing else of the view changes. At the limit of nested dispatches
the outcome is the same.

A list is `Spliced` at most once between two worlds if one splice of it accounts for all that became of its items and all that
was heard of it. Replacing a span by what differs (`Around.replaceSpan`, `Around.reconcile`) is such a splice.
-/

namespace LiveBindings

variable {π σ : Type}

/-- A list that shows what it should is not spliced. -/
theorem ListId.ends_reconcile_of_same {κ ε : Type} {R : Reactions κ ε} {l : ListId} {next : List Value} {w : World κ ε}
    {Q : Unit → World κ ε → Prop} (h : SameItems (w.listCell l).items next) : (l.reconcile R next).Ends w Q ↔ Q () w := by
  have hitems : w.contents.items l = (w.listCell l).items := rfl
  simp only [ListId.reconcile, ListId.replaceSpan, ListId.slice, ListId.splice, Run.ends_bind, ListId.ends_length, ListId.ends_items,
    Run.ends_pure, Run.ends_discard, hitems]
  simp [spanEdit_of_same h, Run.ends_pure]

namespace Neighbours

variable {N : Neighbours π σ} {E : Engine π σ} {S T : Set Part} {w w' w'' : World (Callback π) (Env π σ)} {l : ListId} {o : ObjectId}

/-- The listeners of a topic are the neighbours', and of the lists of the view they hear only those among `T`. -/
def Told (N : Neighbours π σ) (T : Set Part) (topic : ListTopic) (l : ListId) (w : World (Callback π) (Env π σ)) : Prop :=
  ∀ x ∈ Listeners.on topic (w.listCell l).listeners, x.callback ∈ N.callbacks ∧ N.ears x.callback ⊆ T

/-- The list was left alone: it holds the same, and nothing was heard of it. -/
structure Untouched (N : Neighbours π σ) (l : ListId) (w w' : World (Callback π) (Env π σ)) : Prop where
  items : (w'.listCell l).items = (w.listCell l).items
  heard : N.heard w' l = N.heard w l

/-- The items of a list of the view went through a function, and nothing else of the view changed. -/
structure Sets (N : Neighbours π σ) (l : ListId) (f : List Value → List Value) (w w' : World (Callback π) (Env π σ)) : Prop where
  changes : N.Changes {.list l} {.list l} w w'
  items : (w'.listCell l).items = f (w.listCell l).items

/-- The entries of an object of the view went through a function, and nothing else of the view changed. -/
structure Enters (N : Neighbours π σ) (o : ObjectId) (f : List (String × Value) → List (String × Value))
    (w w' : World (Callback π) (Env π σ)) : Prop where
  changes : N.Changes {.object o} ∅ w w'
  entries : (w'.objectCell o).entries = f (w.objectCell o).entries

/-- The list was spliced at most once: apart from one splice of it, it was left alone. -/
inductive Spliced (N : Neighbours π σ) (E : Engine π σ) (l : ListId) (w w' : World (Callback π) (Env π σ)) : Prop
  | never (h : N.Untouched l w w')
  | once {w₁ w₂ : World (Callback π) (Env π σ)} {index remove : Nat} {plus minus : List Value} (before : N.Untouched l w w₁)
      (run : l.splice E.reactions index remove plus w₁ = .ok minus w₂) (after : N.Untouched l w₂ w')

/-- At most one splice of a list, and none when its items are the same afterwards. -/
structure Sparing (N : Neighbours π σ) (E : Engine π σ) (l : ListId) (w w' : World (Callback π) (Env π σ)) : Prop where
  spliced : N.Spliced E l w w'
  quiet : SameItems (w.listCell l).items (w'.listCell l).items → N.Untouched l w w'

namespace Untouched

theorem trans (h : N.Untouched l w w') (h' : N.Untouched l w' w'') : N.Untouched l w w'' :=
  ⟨h'.items.trans h.items, h'.heard.trans h.heard⟩

end Untouched

theorem Changes.untouched (h : N.Changes S T w w') (hl : N.Owns w (.list l)) (hS : .list l ∉ S) (hT : .list l ∉ T) :
    N.Untouched l w w' :=
  ⟨h.same _ hl hS, h.heard l hl hT⟩

namespace Sets

variable {f g : List Value → List Value}

theorem comp (h : N.Sets l f w w') (h' : N.Sets l g w' w'') : N.Sets l (g ∘ f) w w'' :=
  ⟨h.changes.trans h'.changes, h'.items.trans (congrArg g h.items)⟩

/-- Listeners of the list were told something. -/
theorem ofTold (h : N.Changes ∅ {.list l} w w') (hl : N.Owns w (.list l)) : N.Sets l id w w' :=
  ⟨h.mono (Set.empty_subset _) subset_rfl, h.same _ hl (Set.notMem_empty _)⟩

theorem owns (h : N.Sets l f w w') (hl : N.Owns w (.list l)) : N.Owns w' (.list l) := h.changes.owns _ hl

end Sets

namespace Enters

variable {f g : List (String × Value) → List (String × Value)}

theorem comp (h : N.Enters o f w w') (h' : N.Enters o g w' w'') : N.Enters o (g ∘ f) w w'' :=
  ⟨h.changes.trans h'.changes, h'.entries.trans (congrArg g h.entries)⟩

/-- Neighbours did something. -/
theorem ofTold (h : N.Changes ∅ ∅ w w') (ho : N.Owns w (.object o)) : N.Enters o id w w' :=
  ⟨h.mono (Set.empty_subset _) subset_rfl, h.same _ ho (Set.notMem_empty _)⟩

theorem owns (h : N.Enters o f w w') (ho : N.Owns w (.object o)) : N.Owns w' (.object o) := h.changes.owns _ ho

end Enters

namespace Spliced

theorem after (h : N.Untouched l w w') (h' : N.Spliced E l w' w'') : N.Spliced E l w w'' := by
  cases h' with
  | never h' => exact .never (h.trans h')
  | once before run after => exact .once (h.trans before) run after

theorem andThen (h : N.Spliced E l w w') (h' : N.Untouched l w' w'') : N.Spliced E l w w'' := by
  cases h with
  | never h => exact .never (h.trans h')
  | once before run after => exact .once before run (after.trans h')

end Spliced

namespace Sparing

theorem after (h : N.Untouched l w w') (h' : N.Sparing E l w' w'') : N.Sparing E l w w'' :=
  ⟨.after h h'.spliced, fun hsame => h.trans (h'.quiet (h.items ▸ hsame))⟩

theorem andThen (h : N.Sparing E l w w') (h' : N.Untouched l w' w'') : N.Sparing E l w w'' :=
  ⟨h.spliced.andThen h', fun hsame => (h.quiet (h'.items ▸ hsame)).trans h'⟩

end Sparing

namespace Around

variable (hN : N.Around E)

include hN

/-- Nothing happened to a list while something else came to be in progress. -/
theorem untouched_during (hw : N.calm w) (q : Progress π) : N.Untouched l w (w.during q) :=
  ⟨rfl, by rw [(hN.ours hw (.during q)).2.2.1]⟩

theorem lasting_untouched {w : World (Callback π) (Env π σ)} :
    N.Lasting fun w' => N.Owns w' (.list l) ∧ N.Untouched l w w' := by
  rintro w₁ w₂ q hw h ⟨hl, hu⟩
  have hl' := hN.owns_during hw hl q
  exact ⟨h.owns _ hl', (hu.trans (hN.untouched_during hw q)).trans (h.untouched hl' (Set.notMem_empty _) (Set.notMem_empty _))⟩

theorem lasting_spliced {w : World (Callback π) (Env π σ)} :
    N.Lasting fun w' => N.Owns w' (.list l) ∧ N.Spliced E l w w' := by
  rintro w₁ w₂ q hw h ⟨hl, hs⟩
  have hl' := hN.owns_during hw hl q
  exact ⟨h.owns _ hl', (hs.andThen (hN.untouched_during hw q)).andThen
    (h.untouched hl' (Set.notMem_empty _) (Set.notMem_empty _))⟩

theorem lasting_sparing {w : World (Callback π) (Env π σ)} :
    N.Lasting fun w' => N.Owns w' (.list l) ∧ N.Sparing E l w w' := by
  rintro w₁ w₂ q hw h ⟨hl, hs⟩
  have hl' := hN.owns_during hw hl q
  exact ⟨h.owns _ hl', (hs.andThen (hN.untouched_during hw q)).andThen
    (h.untouched hl' (Set.notMem_empty _) (Set.notMem_empty _))⟩

/-! ## Announcing a change of a list -/

section

theorem told (hw : N.calm w) (hl : N.Owns w (.list l)) (topic : ListTopic) : N.Told {.list l} topic l w :=
  fun x hx => hN.listTold hw hl x (List.mem_of_mem_filter hx)

theorem tellLength {topic : ListTopic} (hw : N.calm w) (hls : N.Told T topic l w) (n : Nat) :
    (l.tellLength E.reactions topic n).Ends w fun _ w' => N.Changes ∅ T w w' := by
  simp only [ListId.tellLength, Run.ends_bind, ListId.ends_listeners]
  exact hN.holding hw fun _ => hN.tellAll hls (hN.calm_during hw _)

theorem tellContent {topic : ListTopic} (hw : N.calm w) (hls : N.Told T topic l w) (report : ListReport) :
    (l.tellContent E.reactions topic report).Ends w fun _ w' => N.Changes ∅ T w w' := by
  simp only [ListId.tellContent, Run.ends_bind, ListId.ends_listeners]
  exact hN.tellInTurn hls hw

theorem tellItems {ls : List (Listener ListTopic (Callback π))}
    (hls : ∀ x ∈ ls, x.callback ∈ N.callbacks ∧ N.ears x.callback ⊆ T) (count index : Nat) (hw : N.calm w) :
    (l.tellItems E.reactions ls count index).Ends w fun _ w' => N.Changes ∅ T w w' := by
  induction count generalizing index w with
  | zero => exact .refl hw _ _
  | succ count ih =>
    simp only [ListId.tellItems, Run.ends_bind, ListId.ends_get]
    refine (hN.tellAll hls hw).imp fun _ w₁ h₁ => ?_
    exact (ih (index + 1) h₁.calm).imp fun _ w₂ h₂ => h₁.trans h₂

theorem tellSpan {topic : ListTopic} (hw : N.calm w) (hls : N.Told T topic l w) (change : ListChange) :
    (l.tellSpan E.reactions topic change).Ends w fun _ w' => N.Changes ∅ T w w' := by
  simp only [ListId.tellSpan, Run.ends_bind, ListId.ends_listeners]
  split
  · exact .refl hw _ _
  · exact hN.holding hw fun _ => hN.tellItems hls _ _ (hN.calm_during hw _)

/-- What a content dispatch of the list does besides counting itself. -/
theorem dispatching {α : Type} {act : Live π σ α} {f : List Value → List Value} (hw : N.calm w) (hl : N.Owns w (.list l))
    (ha : ∀ {w}, N.calm w → N.Owns w (.list l) → act.Ends w fun _ w' => N.Sets l f w w') :
    (l.dispatching act).Ends w fun _ w' => N.Sets l f w w' := by
  have counted {g : Nat → Nat} {w : World (Callback π) (Env π σ)} (hw : N.calm w) (hl : N.Owns w (.list l)) :
      N.Sets l id w (w.modifyList l fun c => { c with dispatching := g c.dispatching }) :=
    .ofTold ((hN.countDispatches hw).mono subset_rfl (Set.empty_subset _)) hl
  simp only [ListId.dispatching, Run.ends_restoring, Run.ends_bind, Run.ends_modify]
  have h₀ := counted (g := (· + 1)) hw hl
  refine (ha h₀.changes.calm (h₀.owns hl)).imp fun _ w₁ h₁ => ?_
  have h₂ := counted (g := (· - 1)) h₁.changes.calm (h₁.owns (h₀.owns hl))
  exact (h₀.comp h₁).comp h₂

end

/-- A change of a list of the view, with all its announcements. -/
theorem apply {change : ListChange} {before : ListReport} {mutate : Live π σ ListReport} {f : List Value → List Value}
    (hw : N.calm w) (hl : N.Owns w (.list l)) (room : w.Admits)
    (hm : ∀ {w}, N.calm w → N.Owns w (.list l) → mutate.Ends w fun _ w' => N.Sets l f w w') :
    (l.apply E.reactions change before mutate).Ends w fun _ w' => N.Sets l f w w' := by
  have content {w : World (Callback π) (Env π σ)} (hw : N.calm w) (hl : N.Owns w (.list l)) :
      (l.dispatching do
        l.tellContent E.reactions .beforeContent before
        l.tellSpan E.reactions .beforeEach change
        let after ← mutate
        l.tellSpan E.reactions .each change
        l.tellContent E.reactions .content after
        return after).Ends w fun _ w' => N.Sets l f w w' := by
    refine hN.dispatching hw hl fun {w} hw hl => ?_
    simp only [Run.ends_bind, Run.ends_pure]
    refine (hN.tellContent hw (hN.told hw hl _) _).imp fun _ w₁ h => ?_
    have h₁ := Sets.ofTold h hl
    refine (hN.tellSpan h₁.changes.calm (hN.told h₁.changes.calm (h₁.owns hl) _) _).imp fun _ w₂ h => ?_
    have h₂ := h₁.comp (.ofTold h (h₁.owns hl))
    refine (hm h₂.changes.calm (h₂.owns hl)).imp fun after w₃ h => ?_
    have h₃ := h₂.comp h
    refine (hN.tellSpan h₃.changes.calm (hN.told h₃.changes.calm (h₃.owns hl) _) _).imp fun _ w₄ h => ?_
    have h₄ := h₃.comp (.ofTold h (h₃.owns hl))
    refine (hN.tellContent h₄.changes.calm (hN.told h₄.changes.calm (h₄.owns hl) _) _).imp fun _ w₅ h => ?_
    exact h₄.comp (.ofTold h (h₄.owns hl))
  -- the dispatch is one level deeper, which the list does not show
  let deeper := w.during { w.progress with depth := w.depth + 1 }
  have surface {w' : World (Callback π) (Env π σ)} (h : N.Sets l f deeper w') : N.Sets l f w { w' with depth := w'.depth - 1 } := by
    rw [World.during_of_depth (q := w.progress) h.changes.progress]
    exact ⟨hN.through hw h.changes, h.items⟩
  refine nested room (hm hw hl) ?_
  have hw₀ : N.calm deeper := hN.calm_during hw _
  have hl₀ : N.Owns deeper (.list l) := hN.owns_during hw hl _
  dsimp only
  split
  · simp only [Run.ends_bind, ListId.ends_length, Run.ends_pure]
    refine (hN.tellLength hw₀ (hN.told hw₀ hl₀ _) _).imp fun _ w₁ h => ?_
    have h₁ := Sets.ofTold h hl₀
    refine (content h₁.changes.calm (h₁.owns hl₀)).imp fun after w₂ h => ?_
    have h₂ := h₁.comp h
    refine (hN.tellLength h₂.changes.calm (hN.told h₂.changes.calm (h₂.owns hl₀) _) _).imp fun _ w₃ h => ?_
    exact surface (h₂.comp (.ofTold h (h₂.owns hl₀)))
  · simp only [Run.ends_bind, Run.ends_pure]
    exact (content hw₀ hl₀).imp fun _ _ h => surface h

/-! ## Changing a list -/

/-- The change itself. -/
theorem replaceItems (hw : N.calm w) (hl : N.Owns w (.list l)) (index remove : Nat) (plus : List Value) :
    (l.replaceItems index remove plus).Ends w fun _ w' => N.Sets l (replaceRun · index remove plus) w w' := by
  have hs : l.index < w.lists.size := hl.made
  simp only [ListId.replaceItems, Run.ends_bind, ListId.ends_items, Run.ends_modify, Run.ends_pure]
  have hcut : replaceRun (w.contents.items l) (min index (w.contents.items l).length)
      (min (index + remove) (w.contents.items l).length - min index (w.contents.items l).length) plus =
        replaceRun (w.contents.items l) index remove plus := replaceRun_congr (by omega) (by omega)
  rw [hcut]
  have h := hN.modifyList (f := fun c => { c with items := replaceRun (w.contents.items l) index remove plus }) hw hl.ours fun _ => rfl
  exact ⟨h.mono subset_rfl (Set.empty_subset _), by simp [World.listCell_modifyList, hs, World.contents]⟩

/-- A splice of a list of the view replaces a run, cut off at the length. -/
theorem splice (hw : N.calm w) (hl : N.Owns w (.list l)) (room : w.Admits) (index remove : Nat) (plus : List Value) :
    (l.splice E.reactions index remove plus).Ends w fun _ w' => N.Sets l (replaceRun · index remove plus) w w' := by
  have he : w.contents.items l = (w.listCell l).items := rfl
  simp only [ListId.splice, Run.ends_bind, ListId.ends_items, he]
  have hrun : replaceRun (w.listCell l).items (min index (w.listCell l).items.length)
      (((w.listCell l).items.drop (min index (w.listCell l).items.length)).take remove).length plus =
      replaceRun (w.listCell l).items index remove plus := by
    rw [List.length_take, List.length_drop]
    exact replaceRun_congr (by omega) (by omega)
  split
  · rename_i hnone
    simp only [Bool.and_eq_true, List.isEmpty_iff] at hnone
    refine ⟨.refl hw _ _, ?_⟩
    rw [← hrun, hnone.1, hnone.2]
    simp [replaceRun]
  · simp only [Run.ends_bind, Run.ends_pure]
    refine (hN.apply hw hl room fun {w} hw hl => hN.replaceItems hw hl _ _ _).imp fun _ w' h => ⟨h.changes, ?_⟩
    rw [h.items, hrun]

/-- A splice is at most one splice. -/
theorem splice_spliced (hw : N.calm w) (hl : N.Owns w (.list l)) (room : w.Admits) (index remove : Nat) (plus : List Value) :
    (l.splice E.reactions index remove plus).Ends w fun _ w' =>
      N.Sets l (replaceRun · index remove plus) w w' ∧ N.Spliced E l w w' := by
  obtain ⟨minus, w', hrun, h⟩ := Run.ends_iff.1 (hN.splice hw hl room index remove plus)
  exact Run.ends_iff.2 ⟨minus, w', hrun, h, .once ⟨rfl, rfl⟩ hrun ⟨rfl, rfl⟩⟩

/-- An item of a list of the view is set in at most one splice. -/
theorem assignItem (hw : N.calm w) (hl : N.Owns w (.list l)) (room : w.Admits) {index : Nat} (hi : index < (w.listCell l).items.length)
    (v : Value) : (l.assign E.reactions index v).Ends w fun _ w' => N.Changes {.list l} {.list l} w w' ∧
      SameItems (w'.listCell l).items ((w.listCell l).items.set index v) ∧ N.Spliced E l w w' := by
  have he : w.contents.items l = (w.listCell l).items := rfl
  simp only [ListId.assign, Run.ends_bind, ListId.ends_length, ListId.ends_get, he, if_pos hi]
  split
  · rename_i hsame
    rw [List.getD_eq_getElem?_getD, List.getElem?_eq_getElem hi] at hsame
    exact ⟨.refl hw _ _, .set (List.getElem?_eq_getElem hi) hsame, .never ⟨rfl, rfl⟩⟩
  · rw [Run.ends_discard]
    refine (hN.splice_spliced hw hl room index 1 [v]).imp fun _ w' ended => ?_
    obtain ⟨h, hs⟩ := ended
    refine ⟨h.changes, ?_, hs⟩
    rw [h.items, replaceRun, List.set_eq_take_append_cons_drop, if_pos hi, List.append_assoc]
    exact .refl _

/-- The items of a span are brought up to date in at most one splice. -/
theorem replaceSpan (hw : N.calm w) (hl : N.Owns w (.list l)) (room : w.Admits) (start length : Nat) (next : List Value) :
    (l.replaceSpan E.reactions start length next).Ends w fun _ w' => N.Changes {.list l} {.list l} w w' ∧
      SameItems (w'.listCell l).items (replaceRun (w.listCell l).items start length next) ∧ N.Spliced E l w w' := by
  simp only [ListId.replaceSpan, ListId.slice, Run.ends_bind, ListId.ends_items, Run.ends_pure, Run.ends_discard]
  refine (hN.splice_spliced hw hl room _ _ _).imp fun _ w' ended => ?_
  obtain ⟨h, hs⟩ := ended
  refine ⟨h.changes, ?_, hs⟩
  rw [h.items]
  exact replaceRun_span _ next start length

/-- A list of the view is brought up to date in at most one splice. -/
theorem reconcile (hw : N.calm w) (hl : N.Owns w (.list l)) (room : w.Admits) (next : List Value) :
    (l.reconcile E.reactions next).Ends w fun _ w' => N.Changes {.list l} {.list l} w w' ∧
      SameItems (w'.listCell l).items next ∧ N.Spliced E l w w' := by
  simp only [ListId.reconcile, Run.ends_bind, ListId.ends_length]
  refine (hN.replaceSpan hw hl room 0 _ next).imp fun _ w' h => ⟨h.1, ?_, h.2.2⟩
  rw [← replaceRun_whole le_rfl next]
  exact h.2.1

/-- A list of the view is brought up to date in at most one splice, and in none when it is. -/
theorem reconcile_sparing (hw : N.calm w) (hl : N.Owns w (.list l)) (room : w.Admits) (next : List Value) :
    (l.reconcile E.reactions next).Ends w fun _ w' => N.Changes {.list l} {.list l} w w' ∧
      SameItems (w'.listCell l).items next ∧ N.Sparing E l w w' := by
  by_cases hsame : SameItems (w.listCell l).items next
  · rw [ListId.ends_reconcile_of_same hsame]
    exact ⟨.refl hw _ _, hsame, .never ⟨rfl, rfl⟩, fun _ => ⟨rfl, rfl⟩⟩
  · refine (hN.reconcile hw hl room next).imp fun _ w' ended => ?_
    obtain ⟨h, hitems, hs⟩ := ended
    exact ⟨h, hitems, hs, fun hkept => absurd (hkept.trans hitems) hsame⟩

/-- A new list is the view's. -/
theorem create (hw : N.calm w) (items : List Value) :
    (ListId.create items : Live π σ ListId).Ends w fun l w' =>
      (N.Changes ∅ ∅ w w' ∧ N.Owns w' (.list l)) ∧ ¬w.Made (.list l) ∧ (w'.listCell l).items = items := by
  simp only [ListId.create, Run.ends_bind, Run.ends_get, Run.ends_set, Run.ends_pure]
  have cell (l' : ListId) (h : l'.index ≠ w.lists.size) :
      World.listCell { w with lists := w.lists.push { items } } l' = w.listCell l' := by
    simp only [World.listCell, Array.getD_eq_getD_getElem?, getElem?_push_of_ne h]
  have listeners (l' : ListId) :
      (World.listCell { w with lists := w.lists.push { items } } l').listeners = (w.listCell l').listeners := by
    by_cases h : l'.index = w.lists.size
    · simp [World.listCell, Array.getD_eq_getD_getElem?, h]
    · rw [cell l' h]
  have hinert : w.Inert { w with lists := w.lists.push { items } } := by
    refine .ofListeners (fun p hp => ?_) listeners (fun _ => rfl) rfl rfl rfl rfl
    cases p with
    | list l' => exact Nat.lt_of_lt_of_le hp (by simp)
    | _ => exact hp
  have hfresh : ¬w.Made (.list ⟨w.lists.size⟩) := Nat.lt_irrefl _
  refine ⟨hN.makePart hw hfresh (by simp [World.Made]) hinert (fun p hp => ?_) rfl, hfresh, ?_⟩
  · cases p with
    | list l' =>
      have hne : l'.index ≠ w.lists.size := fun h => hp (by cases l'; cases h; rfl)
      simp only [World.HoldsSame, cell l' hne]
    | watch l' b => simp only [World.HoldsSame, World.watch, listeners]
    | _ => rfl
  · simp [World.listCell, Array.getD_eq_getD_getElem?]

/-! ## Changing an object -/

/-- A new object is the view's. -/
theorem createObject (hw : N.calm w) (entries : List (String × Value)) :
    (ObjectId.create entries : Live π σ ObjectId).Ends w fun o w' =>
      (N.Changes ∅ ∅ w w' ∧ N.Owns w' (.object o)) ∧ ¬w.Made (.object o) ∧ (w'.objectCell o).entries = entries := by
  simp only [ObjectId.create, Run.ends_bind, Run.ends_set, Run.ends_pure]
  have cell (o' : ObjectId) (h : o'.index ≠ w.objects.size) :
      World.objectCell { w with objects := w.objects.push { entries } } o' = w.objectCell o' := by
    simp only [World.objectCell, Array.getD_eq_getD_getElem?, getElem?_push_of_ne h]
  have hinert : w.Inert { w with objects := w.objects.push { entries } } := by
    refine .ofListeners (fun p hp => ?_) (fun _ => rfl) (fun o' => ?_) rfl rfl rfl rfl
    · cases p with
      | object o' => exact Nat.lt_of_lt_of_le hp (by simp)
      | _ => exact hp
    · by_cases h : o'.index = w.objects.size
      · simp [World.objectCell, Array.getD_eq_getD_getElem?, h]
      · rw [cell o' h]
  have hfresh : ¬w.Made (.object ⟨w.objects.size⟩) := Nat.lt_irrefl _
  refine ⟨hN.makePart hw hfresh (by simp [World.Made]) hinert (fun p hp => ?_) rfl, hfresh, ?_⟩
  · cases p with
    | object o' =>
      have hne : o'.index ≠ w.objects.size := fun h => hp (by cases o'; cases h; rfl)
      simp only [World.HoldsSame, cell o' hne]
    | _ => rfl
  · simp [World.objectCell, Array.getD_eq_getD_getElem?]

theorem entryListeners (hw : N.calm w) (ho : N.Owns w (.object o)) (topic : ObjectTopic) :
    ∀ x ∈ Listeners.on topic (w.objectCell o).listeners, x.callback ∈ N.callbacks ∧ N.ears x.callback ⊆ ∅ :=
  fun x hx => hN.objectTold hw ho x (List.mem_of_mem_filter hx)

theorem modifyEntries (hw : N.calm w) (ho : N.Owns w (.object o)) (f : List (String × Value) → List (String × Value)) :
    (o.modifyEntries f : Live π σ Unit).Ends w fun _ w' => N.Enters o f w w' := by
  have hs : o.index < w.objects.size := ho.made
  simp only [ObjectId.modifyEntries, Run.ends_modify]
  exact ⟨hN.modifyObject hw ho fun _ => rfl, by simp [World.objectCell_modifyObject, hs]⟩

theorem tellEntry (hw : N.calm w) (ho : N.Owns w (.object o)) (key : String) (value : Value) :
    (o.tellEntry E.reactions key value).Ends w fun _ w' => N.Changes ∅ ∅ w w' := by
  simp only [ObjectId.tellEntry, Run.ends_bind, ObjectId.ends_listeners]
  exact hN.holding hw fun _ => hN.tellAll (hN.entryListeners hw ho _) (hN.calm_during hw _)

/-- A change of an object of the view, with all its announcements. -/
theorem change (hw : N.calm w) (ho : N.Owns w (.object o)) (room : w.Admits) (key : String) (old new : Value)
    (f : List (String × Value) → List (String × Value)) :
    (o.change E.reactions key old new f).Ends w fun _ w' => N.Enters o f w w' := by
  refine nested room (hN.modifyEntries hw ho f) ?_
  simp only [Run.ends_bind, ObjectId.ends_listeners, Run.ends_holding]
  -- the listeners of the key have been captured by now
  generalize hcaptured : List.map _ _ ++ w.held = held
  let deeper := w.during { w.progress with depth := w.depth + 1 }
  have hdeep : N.calm deeper := hN.calm_during hw _
  have hw₀ : N.calm (deeper.during { deeper.progress with held }) := hN.calm_during hdeep _
  have ho₀ : N.Owns (deeper.during { deeper.progress with held }) (.object o) :=
    hN.owns_during hdeep (hN.owns_during hw ho _) _
  have captured (topic : ObjectTopic) := hN.entryListeners hw ho topic
  refine (hN.tellAll (captured _) hw₀).imp fun _ w₁ h => ?_
  have h₁ := Enters.ofTold h ho₀
  refine (hN.modifyEntries h₁.changes.calm (h₁.owns ho₀) f).imp fun _ w₂ h => ?_
  have h₂ := h₁.comp h
  refine (hN.tellAll (captured _) h₂.changes.calm).imp fun _ w₃ h => ?_
  have h₃ := h₂.comp (.ofTold h (h₂.owns ho₀))
  refine (hN.tellEntry h₃.changes.calm (h₃.owns ho₀) _ _).imp fun _ w₄ h => ?_
  have h₄ := h₃.comp (.ofTold h (h₃.owns ho₀))
  -- they are let go, and the dispatch is over
  change Run.Ends _ { w₄ with held := deeper.progress.held } _
  rw [World.during_of_held h₄.changes.progress]
  have h₅ : N.Enters o f deeper (w₄.during deeper.progress) := ⟨hN.through hdeep h₄.changes, h₄.entries⟩
  refine (hN.letGo h₅.changes.calm).imp fun _ w₆ h => ?_
  have h₆ := h₅.comp (.ofTold h (h₅.owns (hN.owns_during hw ho _)))
  rw [World.during_of_depth (q := w.progress) h₆.changes.progress]
  exact ⟨hN.through hw h₆.changes, h₆.entries⟩

/-- Assigning an entry of an object of the view. -/
theorem assign (hw : N.calm w) (ho : N.Owns w (.object o)) (room : w.Admits) (key : String) (value : Value) :
    (o.assign E.reactions key value).Ends w fun _ w' =>
      N.Enters o (fun es => if (Fields.get? key es).any (·.same value) then es else Fields.put key value es) w w' := by
  have he : w.contents.entries o = (w.objectCell o).entries := rfl
  simp only [ObjectId.assign, Run.ends_bind, ObjectId.ends_entries, he]
  split
  · rename_i old hold
    split
    · rename_i hsame
      exact ⟨.refl hw _ _, by simp [hold, hsame]⟩
    · rename_i hsame
      exact (hN.change hw ho room ..).imp fun _ w' h => ⟨h.changes, by rw [h.entries]; simp [hold, hsame]⟩
  · rename_i hold
    split
    · rename_i hundefined
      rw [Value.isUndefined, beq_iff_eq] at hundefined
      subst hundefined
      simp only [Run.ends_bind]
      refine (hN.modifyEntries hw ho _).imp fun _ w₁ h₁ => ?_
      have hput : N.Enters o (fun es => if (Fields.get? key es).any (·.same .undefined) then es else
          Fields.put key .undefined es) w w₁ := ⟨h₁.changes, by rw [h₁.entries]; simp [hold]⟩
      refine nested (h₁.changes.admits room) hput ?_
      let deeper := w₁.during { w₁.progress with depth := w₁.depth + 1 }
      have ho₁ : N.Owns deeper (.object o) := hN.owns_during h₁.changes.calm (h₁.owns ho) _
      refine (hN.tellEntry (hN.calm_during h₁.changes.calm _) ho₁ _ _).imp fun _ w₂ h => ?_
      rw [World.during_of_depth (q := w₁.progress) h.progress]
      exact hput.comp (.ofTold (hN.through h₁.changes.calm h) (h₁.owns ho))
    · exact (hN.change hw ho room ..).imp fun _ w' h => ⟨h.changes, by rw [h.entries]; simp [hold]⟩

/-- Deleting an entry of an object of the view. -/
theorem delete (hw : N.calm w) (ho : N.Owns w (.object o)) (room : w.Admits) (key : String) :
    (o.delete E.reactions key).Ends w fun _ w' => N.Enters o (Fields.erase key) w w' := by
  have he : w.contents.entries o = (w.objectCell o).entries := rfl
  simp only [ObjectId.delete, Run.ends_bind, ObjectId.ends_entries, he]
  split
  · simp only [Run.ends_bind, Run.ends_pure]
    exact hN.change hw ho room ..
  · rename_i hnone
    exact ⟨.refl hw _ _, (Fields.erase_of_get?_none hnone).symm⟩

end Around

end Neighbours

end LiveBindings
