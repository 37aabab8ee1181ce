import LiveBindings.Proofs.Recording

/-!
# Windows

A view of a window shows the elements from a start on, as many as its length allows. A change behind the window is ignored, one that
begins in the window and moves nothing is made in place, and after any other the whole window is compared with what it shows.

`Reaches.shows_window` is the result: whichever of the three ways is taken, the list of the view is the window of the elements, and
it has been spliced at most once.
-/

namespace LiveBindings

variable {π σ : Type}

/-- The elements from a start on, as many as a length allows. -/
def window (up : List Value) (start length : Nat) : List Value := (up.drop start).take length

theorem windowOf_eq (items : List Value) (start length : Nat) : windowOf items start length = window items start length := by
  rw [windowOf, window, List.drop_take, Nat.add_sub_cancel_left]

/-- A change behind a window does not show in it. -/
theorem window_behind {items plus : List Value} {start length index removed : Nat} (hbehind : start + length ≤ index)
    (hin : index ≤ items.length) : window (replaceRun items index removed plus) start length = window items start length := by
  have htake : (replaceRun items index removed plus).take (start + length) = items.take (start + length) := by
    rw [replaceRun, List.append_assoc, List.take_append_of_le_length (by rw [List.length_take]; omega), List.take_take,
      Nat.min_eq_left hbehind]
  rw [← windowOf_eq, ← windowOf_eq, windowOf, windowOf, htake]

/-- A change that begins in a window and moves nothing shows in place, as far as the window goes. -/
theorem window_in_place {items plus : List Value} {start length index : Nat} (hstart : start ≤ index) (hend : index < start + length)
    (hin : index + plus.length ≤ items.length) :
    window (replaceRun items index plus.length plus) start length =
      replaceRun (window items start length) (index - start) (min plus.length (length - (index - start)))
        (plus.take (min plus.length (length - (index - start)))) := by
  obtain ⟨A, M, B, rfl, hA, hM⟩ : ∃ A M B, items = A ++ (M ++ B) ∧ A.length = index ∧ M.length = plus.length :=
    ⟨items.take index, (items.drop index).take plus.length, (items.drop index).drop plus.length,
      by rw [List.take_append_drop, List.take_append_drop], by rw [List.length_take]; omega,
      by rw [List.length_take, List.length_drop]; omega⟩
  subst hA
  have hdrop (C : List Value) : (A ++ C).drop start = A.drop start ++ C := List.drop_append_of_le_length hstart
  have hlen : (A.drop start).length = A.length - start := List.length_drop
  have htake (C : List Value) : (A.drop start ++ C).take length = A.drop start ++ C.take (length - (A.length - start)) := by
    rw [List.take_append, List.take_of_length_le (by omega), hlen]
  have hrun : replaceRun (A ++ (M ++ B)) A.length plus.length plus = A ++ (plus ++ B) := by
    rw [replaceRun, List.take_left, List.drop_append, hM.symm]
    simp
  rw [window, window, hrun, hdrop, hdrop, htake, htake]
  rw [← hlen]
  generalize A.drop start = shown, length - (A.drop start).length = room
  rw [replaceRun, List.take_left, List.drop_append, List.drop_of_length_le (Nat.le_add_right ..), List.append_assoc,
    Nat.add_sub_cancel_left, List.nil_append]
  congr 1
  rcases Nat.le_total plus.length room with h | h
  · have hfits (C : List Value) (hC : C.length ≤ room) : (C ++ B).take room = C ++ B.take (room - C.length) := by
      rw [List.take_append, List.take_of_length_le hC]
    rw [Nat.min_eq_left h, List.take_length, hfits plus h, hfits M (hM ▸ h), ← hM, List.drop_left]
  · rw [Nat.min_eq_right h, List.take_append_of_le_length h, List.take_append_of_le_length (hM ▸ h),
      List.drop_of_length_le (by rw [List.length_take]; exact Nat.min_le_left ..), List.append_nil]

/-- A view of a window. -/
structure Pane where
  block : Ref .block
  output : ListId
deriving DecidableEq

/-- What a view of a window should know: the elements, and which of them it shows. -/
structure Sight where
  up : List Value := []
  start : Nat := 0
  length : Nat := 0

/-- What a view of a window is told. -/
inductive Shift
  /-- Some of the elements were replaced. -/
  | content (index removed : Nat) (plus : List Value)
  /-- The collection became another value, whose items are the elements if it is a list. -/
  | replaced (collection : Value)
  /-- The start and the length became other values; what is not an index counts as zero. -/
  | bounds (start length : Value)

namespace Shift

/-- What the view does about it. -/
def run (E : Engine π σ) (observer : π → Value → Live π σ Unit) (V : Pane) : Shift → Live π σ Unit
  | content index removed plus => Block.splice E V.block index removed plus
  | replaced collection => do Block.reset E V.block (← elementsOf collection)
  | bounds start length => ArgsAction.react E observer (.bounds V.block) [start, length]

/-- It is about elements that there are. -/
def Valid (γ : Sight) : Shift → Prop
  | content index removed _ => index + removed ≤ γ.up.length
  | _ => True

instance (γ : Sight) : (s : Shift) → Decidable (s.Valid γ)
  | content .. => inferInstanceAs (Decidable (_ ≤ _))
  | replaced _ | bounds .. => inferInstanceAs (Decidable True)

/-- The elements afterwards, and which of them are to be shown. -/
def after (w : World (Callback π) (Env π σ)) : Shift → Sight → Sight
  | content index removed plus, γ => { γ with up := replaceRun γ.up index removed plus }
  | replaced collection, γ => { γ with up := w.elements collection }
  | bounds start length, γ => { γ with start := start.asIndex.getD 0, length := length.asIndex.getD 0 }

end Shift

/-- The first part of the start of an expression that shows a window: the view is made, and its window is empty. -/
def Pane.make : Live π σ Pane := do
  let output ← ListId.create []
  let b ← newBlock (.window output [] 0 0)
  return ⟨b, output⟩

theorem Expr.start_window (E : Engine π σ) (collection first length : Expr) (next : Sink π) (scope : Scope) :
    Expr.start E (.window collection first length) next scope = do
      let V ← Pane.make
      let bounds ← startTwo E (.bounds V.block) (first.start E · scope) (length.start E · scope)
      let content ← watch V.block (collection.start E · scope)
      E.emit next (.list V.output)
      return .join [content, bounds] := by
  simp only [Expr.start, Pane.make, bind_assoc, pure_bind]

/-- A view of a window, as a machine. -/
def Pane.machine (E : Engine π σ) (observer : π → Value → Live π σ Unit) (V : Pane) : Machine π σ Sight Shift where
  made w γ w' := γ = {} ∧ Pane.make w = .ok V w'
  Valid _ := Shift.Valid
  run := Shift.run E observer V
  after := Shift.after

namespace Neighbours

variable {N : Neighbours π σ} {E : Engine π σ} {observer : π → Value → Live π σ Unit} {V : Pane} {γ : Sight}
  {w w' : World (Callback π) (Env π σ)}

/-- A view of a window is up to date. -/
structure ShowsWindow (N : Neighbours π σ) (V : Pane) (γ : Sight) (w : World (Callback π) (Env π σ)) : Prop where
  view : N.Keeps V.block (.window V.output γ.up γ.start γ.length) w
  owns : N.Owns w (.list V.output)
  items : SameItems (w.listCell V.output).items (window γ.up γ.start γ.length)

namespace ShowsWindow

theorem lasting (hN : N.Around E) : N.Lasting (N.ShowsWindow V γ) := by
  intro w w' q hw h hv
  have hl := hN.owns_during hw hv.owns q
  have hsame : (w'.listCell V.output).items = (w.listCell V.output).items := h.same _ hl (Set.notMem_empty _)
  exact ⟨Keeps.lasting hN q hw h hv.view, h.owns _ hl, by rw [hsame]; exact hv.items⟩

/-- The whole window is compared with what the view shows. -/
theorem refresh (hN : N.Around E) (hw : N.calm w) (room : w.Admits)
    (hv : N.Keeps V.block (.window V.output γ.up γ.start γ.length) w) (hl : N.Owns w (.list V.output)) :
    (refreshWindow E V.block).Ends w fun _ w' => N.calm w' ∧ N.Spliced E V.output w w' ∧ N.ShowsWindow V γ w' := by
  simp only [refreshWindow, Run.ends_bind, ends_envCells, hv.block?]
  refine (hN.reconcile hw hl room _).imp fun _ w' ended => ?_
  obtain ⟨h, hitems, hs⟩ := ended
  rw [windowOf_eq] at hitems
  exact ⟨h.calm, hs, hv.after h (by simp), h.owns _ hl, hitems⟩

/-- Some of the elements were replaced. -/
theorem splice (hN : N.Around E) (hw : N.calm w) (room : w.Admits) (h : N.ShowsWindow V γ w) {index removed : Nat}
    (hin : index + removed ≤ γ.up.length) (plus : List Value) :
    (Block.splice E V.block index removed plus).Ends w fun _ w' => N.calm w' ∧ N.Spliced E V.output w w' ∧
      N.ShowsWindow V { γ with up := replaceRun γ.up index removed plus } w' := by
  simp only [Block.splice, Run.ends_bind, ends_envCells, h.view.block?, spliceWindow, replaceCut_eq]
  refine (h.view.modify hN hw _).imp fun _ w₁ ended => ?_
  obtain ⟨h₁, hv₁⟩ := ended
  have hl₁ := h₁.owns _ h.owns
  have hu₁ : N.Untouched V.output w w₁ := h₁.untouched h.owns (by simp) (Set.notMem_empty _)
  have room₁ := h₁.admits room
  split
  · rename_i hbehind
    refine ⟨h₁.calm, .never hu₁, hv₁, hl₁, ?_⟩
    rw [hu₁.items, window_behind hbehind (by omega)]
    exact h.items
  split
  · rename_i hfront hplace
    simp only [Bool.and_eq_true, decide_eq_true_eq] at hplace
    obtain ⟨rfl, hstart⟩ := hplace
    refine (hN.replaceSpan h₁.calm hl₁ room₁ _ _ _).imp fun _ w₂ ended => ?_
    obtain ⟨h₂, hitems, hs⟩ := ended
    refine ⟨h₂.calm, .after hu₁ hs, hv₁.after h₂ (by simp), h₂.owns _ hl₁, hitems.trans ?_⟩
    rw [hu₁.items, window_in_place hstart (Nat.lt_of_not_le hfront) hin]
    exact h.items.replaceRun _ _ (.refl _)
  · refine (refresh (γ := { γ with up := replaceRun γ.up index removed plus }) hN h₁.calm room₁ hv₁ hl₁).imp
      fun _ w₂ ended => ?_
    obtain ⟨hw₂, hs, hv₂⟩ := ended
    exact ⟨hw₂, .after hu₁ hs, hv₂⟩

/-- A view that has just been made shows nothing, and has nothing to show. -/
theorem made (hN : N.Around E) (hw : N.calm w) (run : Pane.make w = .ok V w') : N.calm w' ∧ N.ShowsWindow V {} w' := by
  suffices hmake : (Pane.make : Live π σ Pane).Ends w fun V w' => N.calm w' ∧ N.ShowsWindow V {} w' by
    rwa [Run.ends_of_eq run] at hmake
  simp only [Pane.make, Run.ends_bind, Run.ends_pure]
  refine (hN.create hw []).imp fun l w₁ ended => ?_
  obtain ⟨⟨h₁, hl₁⟩, _, hi₁⟩ := ended
  refine (hN.newBlock h₁.calm _).imp fun b w₂ ended => ?_
  obtain ⟨h₂, _, hv₂⟩ := ended
  have hsame : (w₂.listCell l).items = (w₁.listCell l).items := h₂.same _ hl₁ (Set.notMem_empty _)
  exact ⟨h₂.calm, hv₂, h₂.owns _ hl₁, by rw [hsame, hi₁]; exact .nil⟩

/-- One step of a view of a window. -/
theorem step (hN : N.Around E) (hw : N.calm w) (room : w.Admits) (h : N.ShowsWindow V γ w) (s : Shift) (hs : s.Valid γ) :
    (s.run E observer V).Ends w fun _ w' => N.calm w' ∧ N.Spliced E V.output w w' ∧ N.ShowsWindow V (s.after w γ) w' := by
  cases s with
  | content index removed plus => exact h.splice hN hw room hs plus
  | replaced collection =>
    simp only [Shift.run, Run.ends_bind, ends_elementsOf, Block.reset, ends_envCells, h.view.block?]
    refine (h.view.modify hN hw _).imp fun _ w₁ ended => ?_
    obtain ⟨h₁, hv₁⟩ := ended
    have hu₁ : N.Untouched V.output w w₁ := h₁.untouched h.owns (by simp) (Set.notMem_empty _)
    refine (refresh (γ := { γ with up := w.elements collection }) hN h₁.calm (h₁.admits room) hv₁ (h₁.owns _ h.owns)).imp
      fun _ w₂ ended => ?_
    obtain ⟨hw₂, hs₂, hv₂⟩ := ended
    exact ⟨hw₂, .after hu₁ hs₂, hv₂⟩
  | bounds start length =>
    simp only [Shift.run, ArgsAction.react, setBounds, Run.ends_bind]
    refine (h.view.modify hN hw _).imp fun _ w₁ ended => ?_
    obtain ⟨h₁, hv₁⟩ := ended
    have hu₁ : N.Untouched V.output w w₁ := h₁.untouched h.owns (by simp) (Set.notMem_empty _)
    refine (refresh (γ := { γ with start := start.asIndex.getD 0, length := length.asIndex.getD 0 }) hN h₁.calm (h₁.admits room) hv₁
      (h₁.owns _ h.owns)).imp fun _ w₂ ended => ?_
    obtain ⟨hw₂, hs₂, hv₂⟩ := ended
    exact ⟨hw₂, .after hu₁ hs₂, hv₂⟩

end ShowsWindow

/-- A view of a window is exact. In every world that it can get to, its list is the window of the elements. Whatever it is told next,
it comes to an end, its list is the window of the elements that there are then, and it has spliced the list at most once. -/
theorem Reaches.shows_window (hN : N.Around E) (h : N.Reaches (V.machine E observer) γ w) :
    SameItems (w.listCell V.output).items (window γ.up γ.start γ.length) ∧
      ∀ s : Shift, s.Valid γ → w.Admits → (s.run E observer V).Ends w fun _ w' =>
        SameItems (w'.listCell V.output).items (window (s.after w γ).up (s.after w γ).start (s.after w γ).length) ∧
          N.Spliced E V.output w w' := by
  obtain ⟨hw, hv⟩ := h.keeps (I := N.ShowsWindow V) (fun hw h => h.1 ▸ ShowsWindow.made hN hw h.2) (fun γ => ShowsWindow.lasting hN)
    fun hw room h hs => (h.step hN hw room _ hs).imp fun _ _ h => ⟨h.1, h.2.2⟩
  exact ⟨hv.items, fun s hs room => (hv.step hN hw room s hs).imp fun _ _ h => ⟨h.2.2.items, h.2.1⟩⟩

/-- Two of the items from the second on are shown, and when the second becomes another one, the list shows it. -/
theorem Reaches.shows_window_two : ∃ w,
    (recording ⟨0⟩ ∅).Reaches (Pane.machine .recording (Host.recording.observer .recording) ⟨⟨0⟩, ⟨1⟩⟩)
        { up := [.bool true, .bool false, .bool true], start := 1, length := 2 } w ∧
      SameItems (w.listCell ⟨1⟩).items [.bool false, .bool true] ∧
        ((Shift.content 1 1 [.null]).run .recording (Host.recording.observer .recording) ⟨⟨0⟩, ⟨1⟩⟩).Ends w fun _ w' =>
          SameItems (w'.listCell ⟨1⟩).items [.null, .bool true] ∧ (recording ⟨0⟩ ∅).Spliced .recording ⟨1⟩ w w' := by
  have hruns : (Pane.make : Live ListId (List ListId) Pane).Ends (World.listing [[.bool true, .bool false, .bool true]] []) fun V w₁ =>
      (V = ⟨⟨0⟩, ⟨1⟩⟩ ∧ w₁.Admits) ∧ ((Shift.bounds (.text "1") (.text "2")).run .recording (Host.recording.observer .recording) V).Ends w₁
        fun _ w₂ => (w₂.Admits ∧ w₂.elements (.list ⟨0⟩) = [.bool true, .bool false, .bool true]) ∧
          ((Shift.replaced (.list ⟨0⟩)).run .recording (Host.recording.observer .recording) V).Ends w₂ fun _ w₃ => w₃.Admits := by
    decide +kernel
  obtain ⟨_, w₁, hmake, ⟨rfl, room₁⟩, hruns⟩ := Run.ends_iff.1 hruns
  have h₁ : (recording ⟨0⟩ ∅).Reaches (Pane.machine .recording (Host.recording.observer .recording) ⟨⟨0⟩, ⟨1⟩⟩) {} w₁ :=
    .made (World.recorded_listing _ _ nofun) ⟨rfl, hmake⟩
  obtain ⟨w₂, h₂, ⟨room₂, hup⟩, hruns⟩ := h₁.next (Shift.bounds (.text "1") (.text "2")) trivial rfl room₁ hruns
  obtain ⟨w₃, h₃, room₃⟩ := h₂.next (Shift.replaced (.list ⟨0⟩)) trivial (congrArg (Sight.mk · 1 2) hup) room₂ hruns
  obtain ⟨hitems, hstep⟩ := Reaches.shows_window (recording_around ⟨0⟩ ∅ 7) h₃
  exact ⟨w₃, h₃, hitems, hstep (.content 1 1 [.null]) (by decide) room₃⟩

end Neighbours

end LiveBindings
