import LiveBindings.Proofs.Recording
import LiveBindings.Proofs.Turns

/-!
# Mapping

A view that maps keeps the latest result of every element in its list, at the place of the element. A result goes to the place at
which its row stands, and a replacement of elements replaces the same run of the list, so that the list never has to be compared
with the results.

`Reaches.shows_mapped` is the result: whatever the view is told and whatever its neighbours do meanwhile, its list has one item for
every element, the latest result for it, and each step splices the list at most once. It is essential that the view is told of one
thing after the other: the rows are numbered anew before the list is spliced, so that a result which a reader of the list causes
between the two goes to the wrong place (`mapped_misplaced`).
-/

namespace LiveBindings

variable {π σ : Type}

/-- An expression that maps hands its list over once. Nothing else that its start does, and nothing that the view does afterwards,
looks at where the list goes. -/
theorem Expr.start_map (E : Engine π σ) (collection relation : Expr) (next : Sink π) (scope : Scope) :
    Expr.start E (.perElement .map collection relation) next scope = do
      let b ← nextBlock
      let r ← newRelations relation scope b
      let output ← ListId.create []
      let b ← newBlock (.map output r)
      let content ← watch b (collection.start E · scope)
      E.emit next (.list output)
      return .join [content, .release b] := by
  simp only [Expr.start, PerElement.block, bind_assoc, pure_bind]

namespace Neighbours

variable {N : Neighbours π σ} {E : Engine π σ} {observer : π → Value → Live π σ Unit} {D : Desk} {light : Set (Cancel π)}
  {output : ListId} {xs : List Row} {w w' : World (Callback π) (Env π σ)} {S T : Set Part}

/-- A view that maps is up to date with its rows. -/
structure Maps (N : Neighbours π σ) (D : Desk) (light : Set (Cancel π)) (output : ListId) (xs : List Row)
    (w : World (Callback π) (Env π σ)) : Prop where
  rows : N.Rows D light xs w
  view : N.Keeps D.owner (.map output D.relations) w
  owns : N.Owns w (.list output)
  items : SameItems (w.listCell output).items (xs.map (·.output))

/-- The parts that a view that maps changes. -/
def mapParts (D : Desk) (output : ListId) : Set Part :=
  {p | p = .list output ∨ p = .relations D.relations ∨ ∃ e, p = .entry e}

theorem rowParts_subset_mapParts (xs : List Row) : rowParts D xs ⊆ mapParts D output := by
  rintro p (rfl | ⟨x, -, rfl⟩)
  · exact .inr (.inl rfl)
  · exact .inr (.inr ⟨x.entry, rfl⟩)

theorem output_subset_mapParts : {.list output} ⊆ mapParts D output := by
  rintro p rfl
  exact .inl rfl

/-- What a step of a view that maps changes: only its own parts, and of its list at most one splice is heard. -/
structure Remapped (N : Neighbours π σ) (E : Engine π σ) (D : Desk) (output : ListId) (w w' : World (Callback π) (Env π σ)) :
    Prop where
  changes : N.Changes (mapParts D output) {.list output} w w'
  spliced : N.Spliced E output w w'

namespace Maps

theorem after (h : N.Maps D light output xs w) (h' : N.Changes S T w w') (hrows : Disjoint (rowParts D xs) S)
    (hb : .block D.owner ∉ S) (hl : .list output ∉ S) : N.Maps D light output xs w' := by
  have hsame : (w'.listCell output).items = (w.listCell output).items := h'.same _ h.owns hl
  exact ⟨h.rows.after h' hrows, h.view.after h' hb, h'.owns _ h.owns, by rw [hsame]; exact h.items⟩

theorem during (h : N.Maps D light output xs w) (hN : N.Around E) (hw : N.calm w) (q : Progress π) :
    N.Maps D light output xs (w.during q) :=
  ⟨h.rows.during hN hw q, h.view.during hN hw q, hN.owns_during hw h.owns q, h.items⟩

theorem lasting (hN : N.Around E) : N.Lasting (N.Maps D light output xs) := fun q hw h hm =>
  (hm.during hN hw q).after h (Set.disjoint_empty _) (Set.notMem_empty _) (Set.notMem_empty _)

/-- Some of the elements were replaced: the results for those that are new take the places of the results for the others. -/
theorem splice (hN : N.Around E) (hE : N.Evaluates E D light) (hw : N.calm w) (room : w.Admits) (h : N.Maps D light output xs w)
    (index removed : Nat) (plus : List Value) :
    (Block.splice E D.owner index removed plus).Ends w fun _ w' => N.Remapped E D output w w' ∧
      ∃ fresh, fresh.map (·.input) = plus ∧ (∀ x ∈ fresh, N.Evaluated E D x.input x.output) ∧
        N.Maps D light output (xs.take index ++ fresh ++ xs.drop (index + removed)) w' := by
  simp only [Block.splice, Run.ends_bind, ends_envCells, h.view.block?, Run.ends_discard]
  refine (hN.splice_rows hE hw h.rows index removed plus).imp fun outs w₁ ended => ?_
  obtain ⟨h₁, fresh, houts, hplus, hev, hrows⟩ := ended
  have hl₁ := h₁.owns _ h.owns
  have hu₁ : N.Untouched output w w₁ := h₁.untouched h.owns (by simp) (Set.notMem_empty _)
  refine (hN.splice_spliced h₁.calm hl₁ (h₁.admits room) index removed outs).imp fun _ w₂ ended => ?_
  obtain ⟨h₂, hs₂⟩ := ended
  refine ⟨⟨?_, .after hu₁ hs₂⟩, fresh, hplus, hev, ?_⟩
  · exact (h₁.mono (rowParts_subset_mapParts xs) (Set.empty_subset _)).trans (h₂.changes.mono output_subset_mapParts subset_rfl)
  · refine ⟨hrows.after h₂.changes (by simp), (h.view.after h₁ (by simp)).after h₂.changes (by simp), h₂.owns hl₁, ?_⟩
    have hrun := h.items.replaceRun index removed (.refl (fresh.map (·.output)))
    rw [h₂.items, hu₁.items, houts]
    simpa [LiveBindings.replaceRun, List.map_take, List.map_drop] using hrun

/-- The collection became another one. -/
theorem reset (hN : N.Around E) (hE : N.Evaluates E D light) (hw : N.calm w) (room : w.Admits) (h : N.Maps D light output xs w)
    (items : List Value) :
    (Block.reset E D.owner items).Ends w fun _ w' => N.Remapped E D output w w' ∧
      ∃ fresh, fresh.map (·.input) = items ∧ (∀ x ∈ fresh, N.Evaluated E D x.input x.output) ∧ N.Maps D light output fresh w' := by
  simp only [Block.reset, Run.ends_bind, ends_envCells, h.view.block?]
  refine (hN.reset_rows hE hw h.rows items).imp fun outs w₁ ended => ?_
  obtain ⟨h₁, fresh, houts, hitems, hev, hrows⟩ := ended
  have hl₁ := h₁.owns _ h.owns
  have hu₁ : N.Untouched output w w₁ := h₁.untouched h.owns (by simp) (Set.notMem_empty _)
  refine (hN.reconcile h₁.calm hl₁ (h₁.admits room) outs).imp fun _ w₂ ended => ?_
  obtain ⟨h₂, hitems₂, hs₂⟩ := ended
  refine ⟨⟨?_, .after hu₁ hs₂⟩, fresh, hitems, hev, ?_⟩
  · exact (h₁.mono (rowParts_subset_mapParts xs) (Set.empty_subset _)).trans (h₂.mono output_subset_mapParts subset_rfl)
  · exact ⟨hrows.after h₂ (by simp), (h.view.after h₁ (by simp)).after h₂ (by simp), h₂.owns _ hl₁, houts ▸ hitems₂⟩

/-- The expression handed over a value for an element: it goes to the place of the element. -/
theorem result (hN : N.Around E) (hw : N.calm w) (room : w.Admits) (h : N.Maps D light output xs w) {i : Nat} {x : Row}
    (hi : xs[i]? = some x) (v : Value) :
    (Sink.emit E observer (.result D.relations x.entry) v).Ends w fun _ w' => N.Remapped E D output w w' ∧
      N.Maps D light output (xs.set i { x with output := v }) w' := by
  have hlasting : N.Lasting fun w' => N.Maps D light output (xs.set i { x with output := v }) w' ∧ N.Spliced E output w w' :=
    fun q hw h hm => ⟨lasting hN q hw h hm.1, (hN.lasting_spliced q hw h ⟨hm.1.owns, hm.2⟩).2⟩
  have hentry : ({.entry x.entry} : Set Part) ⊆ mapParts D output := by
    rintro p rfl
    exact .inr (.inr ⟨x.entry, rfl⟩)
  have hset : (xs.set i { x with output := v }).map (·.output) = (xs.map (·.output)).set i v := List.map_set ..
  -- what there is besides the rows, when the result has been stored
  have stored {q : Progress π} {w' : World (Callback π) (Env π σ)} (h' : N.Changes {.entry x.entry} ∅ (w.during q) w') :
      N.Owns w' (.list output) ∧ N.Untouched output w w' ∧ N.Keeps D.owner (.map output D.relations) w' := by
    have hl := hN.owns_during hw h.owns q
    exact ⟨h'.owns _ hl, (hN.untouched_during hw q).trans (h'.untouched hl (by simp) (Set.notMem_empty _)),
      (h.view.during hN hw q).after h' (by simp)⟩
  refine (hN.emit_result (S := mapParts D output) (T := {.list output}) hw h.rows hi (hentry rfl) hlasting (fun h' hrows hsame => ?_)
    (fun {es w'} h' hrows hdiffers => ?_)).imp fun _ w' h => ⟨⟨h.1, h.2.2⟩, h.2.1⟩
  · obtain ⟨hl', hu', hk'⟩ := stored h'
    refine ⟨⟨hrows, hk', hl', ?_⟩, .never hu'⟩
    rw [hu'.items, hset]
    exact h.items.trans (.set (by rw [List.getElem?_map, hi, Option.map_some]) hsame)
  · obtain ⟨hl', hu', hk'⟩ := stored h'
    simp only [Block.update, Run.ends_bind, ends_envCells, hk'.block?]
    refine hN.holdingBlock h'.calm hlasting fun bs => ?_
    have room' : (w'.during { w'.progress with heldBlocks := bs }).Admits := h'.admits room
    have hu₁ := hu'.trans (hN.untouched_during h'.calm { w'.progress with heldBlocks := bs })
    have hl₁ := hN.owns_during h'.calm hl' { w'.progress with heldBlocks := bs }
    have hlength : i < ((w'.during { w'.progress with heldBlocks := bs }).listCell output).items.length := by
      rw [hu₁.items, h.items.length_eq, List.length_map]
      exact (List.getElem?_eq_some_iff.1 hi).1
    refine (hN.assignItem (hN.calm_during h'.calm _) hl₁ room' hlength v).imp fun _ w₂ ended => ?_
    obtain ⟨h₂, hitems₂, hs₂⟩ := ended
    refine ⟨h₂.mono output_subset_mapParts subset_rfl, ⟨(hrows.during hN h'.calm _).after h₂ (by simp),
      (hk'.during hN h'.calm _).after h₂ (by simp), h₂.owns _ hl₁, ?_⟩, .after hu₁ hs₂⟩
    rw [hset]
    rw [hu₁.items] at hitems₂
    exact hitems₂.trans (h.items.set_congr i v)

/-- A view that has just been made shows nothing, and has nothing to show. -/
theorem made (hN : N.Around E) {next : Sink π} (hw : N.calm w)
    (run : PerElement.make .map D.relation D.scope next w = .ok (D, some (.list output)) w') :
    N.calm w' ∧ N.Maps D light output [] w' := by
  obtain ⟨⟨hw', hrows⟩, hk, ho, hi⟩ := hN.make_list (fun _ _ => rfl) hw run
  exact ⟨hw', hrows, hk, ho, by rw [hi]; exact .nil⟩

/-- One step of a view that maps. -/
theorem step (hN : N.Around E) (hE : N.Evaluates E D light) (hw : N.calm w) (room : w.Admits) (h : N.Maps D light output xs w)
    (s : Feed) (hs : s.Valid (xs.map (·.input))) :
    (s.run E observer D).Ends w fun _ w' => s.Results N E D w w' ∧ ∃ xs', xs'.map (·.input) = s.after w (xs.map (·.input)) ∧
      N.Remapped E D output w w' ∧ N.Maps D light output xs' w' := by
  refine h.rows.step (P := fun _ ys w' => N.Remapped E D output w w' ∧ N.Maps D light output ys w') (fun hp => hp.2.rows) ?_ ?_ ?_ s hs
  · intro index removed plus
    refine (h.splice hN hE hw room index removed plus).imp fun _ w' ended => ?_
    obtain ⟨hr, fresh, hplus, hev, hm⟩ := ended
    exact ⟨fresh, hplus, hev, hr, hm⟩
  · intro collection
    refine (h.reset hN hE hw room _).imp fun _ w' ended => ?_
    obtain ⟨hr, fresh, hitems, hev, hm⟩ := ended
    exact ⟨fresh, hitems, hev, hr, hm⟩
  · intro i x v hi
    exact h.result hN hw room hi v

/-- The list of the view, by the latest results. -/
theorem shows (h : N.Maps D light output xs w) :
    (w.latest D).length = xs.length ∧ SameItems (w.listCell output).items (w.latest D) := by
  rw [h.rows.latest]
  exact ⟨List.length_map _, h.items⟩

end Maps

/-- Wherever a view that maps can get to, it is up to date with rows for the elements that it has been told of. -/
theorem Reaches.maps (hN : N.Around E) (hE : N.Evaluates E D light) {up : List Value}
    (h : N.Reaches (PerElement.map.machine E observer D (some (.list output))) up w) :
    N.calm w ∧ ∃ xs, xs.map (·.input) = up ∧ N.Maps D light output xs w := by
  refine h.keepsRows (fun hw run => Maps.made hN hw run) (fun xs => Maps.lasting hN) ?_
  intro xs w s hw room hm hs
  refine (hm.step hN hE hw room s hs).imp fun _ w' ended => ?_
  obtain ⟨-, ys, hup, hr, hm'⟩ := ended
  exact ⟨ys, hup, hr.changes.calm, hm'⟩

/-- A view that maps is exact. In every world that it can get to, its list has one item for every element, the latest result for it.
Whatever it is told next, it comes to an end, the same holds again, and it has spliced the list at most once. -/
theorem Reaches.shows_mapped (hN : N.Around E) (hE : N.Evaluates E D light) {up : List Value}
    (h : N.Reaches (PerElement.map.machine E observer D (some (.list output))) up w) :
    ((w.latest D).length = up.length ∧ SameItems (w.listCell output).items (w.latest D)) ∧
      ∀ s : Feed, s.Valid up → w.Admits → (s.run E observer D).Ends w fun _ w' =>
        s.Results N E D w w' ∧ ((w'.latest D).length = (s.after w up).length ∧ SameItems (w'.listCell output).items (w'.latest D)) ∧
          N.Spliced E output w w' := by
  obtain ⟨hw, xs, rfl, hm⟩ := h.maps hN hE
  rw [List.length_map]
  refine ⟨hm.shows, fun s hs room => (hm.step hN hE hw room s hs).imp fun _ w' ended => ?_⟩
  obtain ⟨hresults, ys, hup, hr, hm'⟩ := ended
  rw [← hup, List.length_map]
  exact ⟨hresults, hm'.shows, hr.spliced⟩

/-- A view of true, false and null, which are their own results, shows them. When the first two are replaced by one element, that
takes their places, and a later result for the other one, which has moved, goes to its place. -/
theorem Reaches.shows_mapped_moved : ∃ w,
    (recording ⟨0⟩ ∅).Reaches (PerElement.map.machine .recording (Host.recording.observer .recording) .plain (some (.list ⟨1⟩)))
        [.bool true, .null] w ∧
      SameItems (w.listCell ⟨1⟩).items [.bool true, .null] ∧
        ((Feed.result 1 (.bool false)).run .recording (Host.recording.observer .recording) .plain).Ends w fun _ w' =>
          SameItems (w'.listCell ⟨1⟩).items [.bool true, .bool false] ∧ (recording ⟨0⟩ ∅).Spliced .recording ⟨1⟩ w w' := by
  have hN := recording_around ⟨0⟩ ∅ 7
  have hE : (recording ⟨0⟩ ∅).Evaluates .recording .plain {.done} := .ofConstant hN fun _ _ _ => rfl
  obtain ⟨w₁, h₁, room₁, hruns⟩ := Reaches.recording_shown .map (some (.list ⟨1⟩)) [.bool true, .bool false, .null]
    (P := fun w => w.Admits ∧ ((Feed.content 0 2 [.bool true]).run .recording (Host.recording.observer .recording) .plain).Ends w
      fun _ w => w.Admits ∧ w.latest .plain = [.bool true, .null]) rfl (by decide +kernel)
  have fits : (Feed.content 0 2 [.bool true]).Valid [.bool true, .bool false, .null] := by decide
  obtain ⟨w, h, room, hlatest⟩ : ∃ w, (recording ⟨0⟩ ∅).Reaches
      (PerElement.map.machine .recording (Host.recording.observer .recording) .plain (some (.list ⟨1⟩))) [.bool true, .null] w ∧
        w.Admits ∧ w.latest .plain = [.bool true, .null] := h₁.next (.content 0 2 [.bool true]) fits rfl room₁ hruns
  obtain ⟨⟨-, hitems⟩, hstep⟩ := Reaches.shows_mapped hN hE h
  rw [hlatest] at hitems
  refine ⟨w, h, hitems, (hstep (.result 1 (.bool false)) (by decide) room).imp fun _ w' ended => ?_⟩
  obtain ⟨hresults, ⟨-, hitems'⟩, hspliced⟩ := ended
  rw [Feed.Results, hlatest] at hresults
  rw [hresults] at hitems'
  exact ⟨hitems', hspliced⟩

end Neighbours

/-- A list of three keys, and an object with these keys. -/
def World.threeKeys : World (Callback Unit) (Env Unit Unit) where
  lists := #[{ items := [.text "x", .text "y", .text "z"] }]
  objects := #[{ entries := [("x", .bool false), ("y", .null), ("z", .null)] }]
  env := { host := () }

/-- A view shows the values of an object under the keys in a list, and a reader of its list, when it hears what is going to happen to
the list, sets the last key. The first key goes: by then the last one is numbered as the second, but the list has not been spliced
yet, so that its new value is put in the place of the other one's, which goes with the splice. -/
theorem mapped_misplaced : (do
      discard ((engine (.setting "z") 12).start (.perElement .map (.literal (.list ⟨0⟩)) (.property .parameters .value)) (.user ())
        { parameters := .object ⟨0⟩ })
      discard ((⟨1⟩ : ListId).listen .beforeContent (.user ()))
      discard ((⟨0⟩ : ListId).shift (engine (.setting "z") 12).reactions) : Live Unit Unit Unit).Ends .threeKeys fun _ w' =>
    ((w'.listCell ⟨0⟩).items = [.text "y", .text "z"] ∧
      (w'.objectCell ⟨0⟩).entries = [("x", .bool false), ("y", .null), ("z", .bool true)]) ∧
      w'.latest ⟨⟨0⟩, .property .parameters .value, { parameters := .object ⟨0⟩ }, ⟨0⟩⟩ = [.null, .bool true] ∧
        (w'.listCell ⟨1⟩).items = [.bool true, .null] := by
  decide +kernel

end LiveBindings
