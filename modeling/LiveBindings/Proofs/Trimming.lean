import LiveBindings.Proofs.Membership
import LiveBindings.Proofs.Spans

/-!
# The trimmed edit of a span

The edit that is found for a span leaves a common start in place and, of the rest, a common end. `Trim` says what that means: what is
left of both lists begins and ends differently, so that nothing is left exactly if the two cannot be told apart
(`Trim.nothing_iff`). The start is cut off both lists before the ends are looked at, so the two never overlap, also where the items
repeat (`exists_trim`).

`ListId.replaceSpan_trims` says of every list that replacing a span of it does nothing, or is one splice of what the trim leaves
(`ListId.Spliced`: how that goes by who listens and by the limit of nested dispatches), with the items before and after the span kept.
-/

namespace LiveBindings

variable {κ ε : Type}

/-! ## What is left between a common start and a common end -/

/-- A list in three parts, of which the outer two are common with another list: its middle part `out` and that of the other list,
`plus`, begin and end differently. -/
structure Trim (current next front out back plus : List Value) : Prop where
  parts : current = front ++ (out ++ back)
  common : ∃ front' back', next = front' ++ (plus ++ back') ∧ SameItems front front' ∧ SameItems back back'
  first : ∀ a ∈ out.head?, ∀ b ∈ plus.head?, a.same b = false
  last : ∀ a ∈ out.getLast?, ∀ b ∈ plus.getLast?, a.same b = false

namespace Trim

variable {current next front out back plus : List Value}

/-- With the middle part replaced, the list cannot be told from the other one. -/
theorem reaches (h : Trim current next front out back plus) : SameItems (front ++ (plus ++ back)) next := by
  obtain ⟨front', back', rfl, hfront, hback⟩ := h.common
  exact hfront.append ((SameItems.refl plus).append hback)

/-- Both common parts are found in both lists, one beside the other. -/
theorem fits (h : Trim current next front out back plus) :
    front.length + back.length ≤ current.length ∧ front.length + back.length ≤ next.length := by
  have hnext := h.reaches.length_eq
  rw [h.parts]
  simp only [List.length_append] at hnext ⊢
  omega

/-- Nothing is left of either list exactly if the two cannot be told apart. -/
theorem nothing_iff (h : Trim current next front out back plus) : out = [] ∧ plus = [] ↔ SameItems current next := by
  constructor
  · rintro ⟨rfl, rfl⟩
    rw [h.parts]
    exact h.reaches
  · intro hsame
    have hmiddle : SameItems (front ++ (out ++ back)) (front ++ (plus ++ back)) := (h.parts ▸ hsame).trans h.reaches.symm
    have hlength : out.length = plus.length := by
      have := hmiddle.length_eq
      simp only [List.length_append] at this
      omega
    have hrest : SameItems (out ++ back) (plus ++ back) := by
      have := hmiddle.drop front.length
      rwa [List.drop_left, List.drop_left] at this
    cases out with
    | nil => exact ⟨rfl, List.length_eq_zero_iff.1 hlength.symm⟩
    | cons a out =>
      cases plus with
      | nil => cases hlength
      | cons b plus =>
        -- What both begin with would be the same.
        cases hrest with
        | cons hab _ =>
          have hne := h.first a rfl b rfl
          rw [hab] at hne
          cases hne

end Trim

/-- Behind a common start the two lists begin differently. -/
theorem commonStart_stops (as bs : List Value) :
    ∀ a ∈ (as.drop (commonStart as bs)).head?, ∀ b ∈ (bs.drop (commonStart as bs)).head?, a.same b = false := by
  induction as generalizing bs with
  | nil =>
    intro a ha
    rw [List.drop_nil] at ha
    cases ha
  | cons a as ih =>
    cases bs with
    | nil =>
      intro _ _ b hb
      rw [List.drop_nil] at hb
      cases hb
    | cons b bs =>
      unfold commonStart
      split
      · exact ih bs
      · rename_i hne
        intro a' ha b' hb
        cases ha
        cases hb
        exact Bool.not_eq_true _ ▸ hne

/-- Before a common end the two lists end differently. -/
theorem commonEnd_stops (as bs : List Value) :
    ∀ a ∈ (as.take (as.length - commonStart as.reverse bs.reverse)).getLast?,
      ∀ b ∈ (bs.take (bs.length - commonStart as.reverse bs.reverse)).getLast?, a.same b = false := by
  have h := commonStart_stops as.reverse bs.reverse
  rwa [List.drop_reverse, List.drop_reverse, List.head?_reverse, List.head?_reverse] at h

/-- The edit that is found for two lists is a trim of them: the lengths of the common start and of the common end are those that
were counted, and there is room for both in both lists. -/
theorem exists_trim (current next : List Value) : ∃ front out back plus, Trim current next front out back plus ∧
    commonStart current next = front.length ∧
    commonStart (current.drop front.length).reverse (next.drop front.length).reverse = back.length ∧
    spanEdit current next = ⟨front.length, out.length, plus⟩ := by
  obtain ⟨hc, hn, hfront⟩ := commonStart_spec current next
  obtain ⟨hbc, hbn, hback⟩ := commonEnd_spec (current.drop (commonStart current next)) (next.drop (commonStart current next))
  have hfirst := commonStart_stops current next
  have hlast := commonEnd_stops (current.drop (commonStart current next)) (next.drop (commonStart current next))
  unfold spanEdit
  dsimp only
  generalize commonStart current next = n at *
  generalize hm : commonStart (current.drop n).reverse (next.drop n).reverse = m at *
  have hrest : ∀ as : List Value, (as.drop n).take ((as.drop n).length - m) ++ (as.drop n).drop ((as.drop n).length - m) = as.drop n :=
    fun as => List.take_append_drop _ _
  have hlength : (current.take n).length = n := by
    rw [List.length_take, Nat.min_eq_left hc]
  -- Cutting the end off leaves what the middle part begins with, unless nothing is left of it.
  have hhead : ∀ (as : List Value) (k : Nat), ∀ a ∈ (as.take k).head?, a ∈ as.head? := by
    intro as k a ha
    cases as with
    | nil =>
      rw [List.take_nil] at ha
      exact ha
    | cons x as =>
      cases k with
      | zero => cases ha
      | succ k => exact ha
  refine ⟨current.take n, (current.drop n).take ((current.drop n).length - m), (current.drop n).drop ((current.drop n).length - m),
    (next.drop n).take ((next.drop n).length - m), ⟨?_, ⟨next.take n, (next.drop n).drop ((next.drop n).length - m), ?_, hfront, hback⟩,
    ?_, hlast⟩, hlength.symm, ?_, ?_⟩
  · rw [hrest, List.take_append_drop]
  · rw [hrest, List.take_append_drop]
  · intro a ha b hb
    exact hfirst a (hhead _ _ a ha) b (hhead _ _ b hb)
  · rw [hlength, hm, List.length_drop]
    omega
  · have hout : current.length - n - m = ((current.drop n).take ((current.drop n).length - m)).length := by
      rw [List.length_take, List.length_drop]
      omega
    have hplus : (next.take (next.length - m)).drop n = (next.drop n).take ((next.drop n).length - m) := by
      rw [List.drop_take, List.length_drop, Nat.sub_right_comm]
    rw [hlength, hout, hplus]

/-! ## One splice -/

theorem Run.discard_of_ok {α : Type} {act : Run κ ε α} {a : α} {w w' : World κ ε} (h : act w = .ok a w') :
    (discard act) w = .ok ⟨⟩ w' := by
  simp only [discard, Functor.discard, Functor.mapConst, Function.comp, EStateM.map, h]

/-- What one splice comes to that puts `plus` in place of `out`, which is found at `index`. Whatever the listeners do, it goes by
its course; if they leave the list alone, what they are told is exactly what this one replacement is told by; at the limit of
nested dispatches it is made without telling anyone, or refused. -/
structure ListId.Spliced (R : Reactions κ ε) (l : ListId) (w : World κ ε) (index : Nat) (out plus result : List Value)
    (act : Run κ ε Unit) : Prop where
  course : R.Keeps l.Exists →
    Course R l w (fun _ : Unit => False)
      (fun s => s.Splices l plus ∧ (s.old l = (w.listCell l).items → s.new l = result)) (fun _ _ => True) (act.outcome w)
  told : ∀ {σ : Type} {view : ε → σ} {hear : κ → Event → σ → σ}, R.Watches l view hear → w.depth < w.config.maxDispatchDepth →
    act.Ends w fun _ => l.Through view (fun c => { c with items := result })
      (Notice.heard hear (w.listCell l).listeners
        (Edit.notices (w.listCell l).items ⟨⟨index, plus, out⟩, ⟨index, plus, out⟩, result⟩)) w
  silent : w.config.maxDispatchDepth ≤ w.depth → w.config.onDepthExceeded = .skip →
    act w = .ok ⟨⟩ (w.modifyList l fun c => { c with items := result })
  refused : w.config.maxDispatchDepth ≤ w.depth → w.config.onDepthExceeded = .panic →
    act w = .error (.depthLimit .list w.depth) w

/-- Where a run of some items begins is not cut off, and the run is what stands there. -/
theorem run_at {items before out after : List Value} (h : items = before ++ (out ++ after)) :
    min before.length items.length = before.length ∧ (items.drop before.length).take out.length = out := by
  subst h
  rw [List.length_append, Nat.min_eq_left (Nat.le_add_right _ _), List.drop_left, List.take_left]
  exact ⟨rfl, rfl⟩

theorem not_both_empty {out plus : List Value} (h : ¬(out = [] ∧ plus = [])) : (plus.isEmpty && out.isEmpty) = false := by
  rw [Bool.eq_false_iff]
  intro hboth
  rw [Bool.and_eq_true, List.isEmpty_iff, List.isEmpty_iff] at hboth
  exact h ⟨hboth.2, hboth.1⟩

/-- Nothing is put in place of nothing. -/
theorem ListId.splice_nothing (R : Reactions κ ε) (l : ListId) {w : World κ ε} (index : Nat) :
    l.splice R index 0 [] w = .ok [] w := by
  unfold ListId.splice
  simp only [ListId.items_bind, List.take_zero, List.isEmpty_nil, Bool.and_self, if_true]
  rfl

/-- A splice of some items, by others or by none, is a change of the list. -/
theorem ListId.splice_eq (R : Reactions κ ε) {l : ListId} {w : World κ ε} {before out after plus : List Value}
    (hitems : (w.listCell l).items = before ++ (out ++ after)) (hsome : ¬(out = [] ∧ plus = [])) :
    ∃ change, l.splice R before.length out.length plus w =
      ((·.removed) <$> l.apply R change ⟨before.length, plus, out⟩ (l.replaceItems before.length out.length plus)) w := by
  obtain ⟨hstart, hout⟩ := run_at hitems
  have hempty := not_both_empty hsome
  unfold ListId.splice
  simp only [ListId.items_bind, hstart, hout, hempty, Bool.false_eq_true, if_false]
  exact ⟨_, rfl⟩

/-- The step of a splice. -/
theorem ListId.replaceItems_eq {l : ListId} {w : World κ ε} {before out after plus : List Value}
    (hitems : (w.listCell l).items = before ++ (out ++ after)) :
    l.replaceItems before.length out.length plus w =
      .ok ⟨before.length, plus, out⟩ (w.modifyList l fun c => { c with items := before ++ (plus ++ after) }) := by
  obtain ⟨hstart, -⟩ := run_at hitems
  have hstop : min (before.length + out.length) (w.listCell l).items.length = before.length + out.length := by
    rw [hitems, ← List.append_assoc, List.length_append, ← List.length_append, Nat.min_eq_left (Nat.le_add_right _ _)]
  have hout : ((w.listCell l).items.take (before.length + out.length)).drop before.length = out := by
    rw [hitems, ← List.append_assoc, ← List.length_append, List.take_left, List.drop_left]
  have hresult : replaceRun (w.listCell l).items before.length out.length plus = before ++ (plus ++ after) := by
    rw [hitems, replaceRun_parts]
  unfold ListId.replaceItems
  simp only [ListId.items_bind, hstart, hstop, hout, Nat.add_sub_cancel_left, hresult]
  rfl

/-- A splice of some items, by others or by none. -/
theorem ListId.splice_spliced (R : Reactions κ ε) {l : ListId} {w : World κ ε} (h : l.Exists w) {before out after plus : List Value}
    (hitems : (w.listCell l).items = before ++ (out ++ after)) (hsome : ¬(out = [] ∧ plus = [])) :
    l.Spliced R w before.length out plus (before ++ (plus ++ after)) (discard (l.splice R before.length out.length plus)) := by
  obtain ⟨hstart, hout⟩ := run_at hitems
  have hresult : replaceRun (w.listCell l).items before.length out.length plus = before ++ (plus ++ after) := by
    rw [hitems, replaceRun_parts]
  have hempty := not_both_empty hsome
  refine ⟨?_, ?_, ?_, ?_⟩
  · intro hR
    rw [Run.outcome_discard]
    refine (ListId.splice_course hR h before.length out.length plus).map (fun _ : List Value => ()) ?_ ?_ fun _ _ _ => trivial
    · rintro removed ⟨-, hplus, hminus⟩
      rw [hstart, hout] at hminus
      exact hsome ⟨hminus, hplus⟩
    · rintro s ⟨hs, hnew⟩
      refine ⟨hs, fun hold => ?_⟩
      rw [hnew hold, hold, hstart, hresult]
  · intro σ view hear hR hd
    rw [Run.ends_discard]
    have hedit : ∀ w₁ : World κ ε, (ListOperation.splice before.length out.length plus).edit? w₁ (w.listCell l).items =
        some ⟨⟨before.length, plus, out⟩, ⟨before.length, plus, out⟩, before ++ (plus ++ after)⟩ := by
      intro w₁
      unfold ListOperation.edit?
      simp only [hstart, hout]
      rw [Edit.replacing?, Bool.and_comm, if_neg (by rw [hempty]; exact Bool.false_ne_true), hresult]
    refine (ListOperation.run_notices hR h rfl rfl hd (.splice before.length out.length plus)).imp ?_
    rintro _ w' ⟨w₁, -, through⟩
    rw [ListOperation.result, ListOperation.notices, hedit] at through
    exact through
  · intro limit skip
    obtain ⟨change, hsplice⟩ := ListId.splice_eq R hitems hsome
    have hmade : l.apply R change ⟨before.length, plus, out⟩ (l.replaceItems before.length out.length plus) w = _ :=
      (nested_silent limit skip).trans (ListId.replaceItems_eq hitems)
    exact Run.discard_of_ok (hsplice.trans (by simp only [Functor.map, EStateM.map, hmade]; rfl))
  · intro limit panic
    refine Run.discard_of_error (ListId.splice_refused_of (World.refuses_iff.2 ⟨limit, panic⟩) ?_)
    by_cases hplus : plus = []
    · right
      intro hnone
      change ((w.listCell l).items.drop (min before.length (w.listCell l).items.length)).take out.length = [] at hnone
      rw [hstart, hout] at hnone
      exact hsome ⟨hnone, hplus⟩
    · exact .inl hplus

/-! ## Replacing a span -/

/-- The items of a span. -/
theorem exists_span {items : List Value} {start length : Nat} (h : start + length ≤ items.length) :
    ∃ before span after, items = before ++ (span ++ after) ∧ before.length = start ∧ span.length = length := by
  refine ⟨items.take start, (items.drop start).take length, items.drop (start + length), ?_, ?_, ?_⟩
  · rw [← List.drop_drop, List.take_append_drop, List.take_append_drop]
  · rw [List.length_take]
    omega
  · rw [List.length_take, List.length_drop]
    omega

/-- Whatever span of a list is replaced, by whatever is next: the span and the next items are trimmed by what they have in common
at the start and then at the end, with room for both in both. If the two cannot be told apart nothing happens. Otherwise one splice
is made of what is left, and when it is made the list holds what it held before and after the span, and between them what cannot be
told from the next items. -/
theorem ListId.replaceSpan_trims {l : ListId} {w : World κ ε} (h : l.Exists w) {start length : Nat}
    (hfit : start + length ≤ (w.listCell l).items.length) (next : List Value) :
    ∃ before span after front out back plus,
      (w.listCell l).items = before ++ (span ++ after) ∧ before.length = start ∧ span.length = length ∧
      Trim span next front out back plus ∧
      (front.length + back.length ≤ span.length ∧ front.length + back.length ≤ next.length) ∧
      (commonStart span next = front.length ∧
        commonStart (span.drop front.length).reverse (next.drop front.length).reverse = back.length) ∧
      SameItems (front ++ (plus ++ back)) next ∧
      ∀ R : Reactions κ ε,
        (SameItems span next → l.replaceSpan R start length next w = .ok ⟨⟩ w) ∧
        (¬SameItems span next →
          l.replaceSpan R start length next w = (discard (l.splice R (start + front.length) out.length plus)) w ∧
          l.Spliced R w (start + front.length) out plus (before ++ ((front ++ (plus ++ back)) ++ after))
            (discard (l.splice R (start + front.length) out.length plus))) := by
  obtain ⟨before, span, after, hitems, hbefore, hspan⟩ := exists_span hfit
  obtain ⟨front, out, back, plus, htrim, hstart, hend, hedit⟩ := exists_trim span next
  refine ⟨before, span, after, front, out, back, plus, hitems, hbefore, hspan, htrim, htrim.fits, ⟨hstart, hend⟩, htrim.reaches, ?_⟩
  intro R
  have hslice : ((w.listCell l).items.take (start + length)).drop (min start (start + length)) = span := by
    rw [Nat.min_eq_left (Nat.le_add_right _ _), hitems, ← hbefore, ← hspan, ← List.append_assoc, ← List.length_append,
      List.take_left, List.drop_left]
  have hrun : l.replaceSpan R start length next w = (discard (l.splice R (start + front.length) out.length plus)) w := by
    have hread : l.replaceSpan R start length next w =
        (discard (l.splice R (start + (spanEdit span next).start) (spanEdit span next).remove (spanEdit span next).plus)) w := by
      rw [← hslice]
      rfl
    rw [hread, hedit]
  have hparts : (w.listCell l).items = (before ++ front) ++ (out ++ (back ++ after)) := by
    rw [hitems, htrim.parts]
    simp only [List.append_assoc]
  have hat : start + front.length = (before ++ front).length := by
    rw [List.length_append, hbefore]
  constructor
  · intro hsame
    obtain ⟨rfl, rfl⟩ := htrim.nothing_iff.2 hsame
    rw [hrun]
    exact Run.discard_of_ok (ListId.splice_nothing R l _)
  · intro hsome
    refine ⟨hrun, ?_⟩
    rw [hat]
    have hspliced := ListId.splice_spliced R h hparts fun hnone => hsome (htrim.nothing_iff.1 hnone)
    have hresult : before ++ ((front ++ (plus ++ back)) ++ after) = (before ++ front) ++ (plus ++ (back ++ after)) := by
      simp only [List.append_assoc]
    rw [hresult]
    exact hspliced

/-- A list with a listener for its content, in which one value repeats between two others. -/
def World.repeating : World Unit (List (Unit × Event)) where
  lists := #[{ items := [.null, .undefined, .undefined, .undefined, .bool true], listeners := [⟨⟨0⟩, .content, ()⟩] }]
  env := []

/-- One of three values that are the same goes: the common start and the common end do not take the same ones. -/
theorem ListId.replaceSpan_trims_repeating :
    (⟨0⟩ : ListId).Exists World.repeating ∧ 1 + 3 ≤ (World.repeating.listCell ⟨0⟩).items.length ∧
      ∃ middle w', (⟨0⟩ : ListId).replaceSpan .logging 1 3 [.undefined, .undefined] World.repeating = .ok ⟨⟩ w' ∧
        (w'.listCell ⟨0⟩).items = .null :: (middle ++ [.bool true]) ∧ SameItems middle [.undefined, .undefined] := by
  have made : (⟨0⟩ : ListId).Exists World.repeating := Nat.one_pos
  have fit : 1 + 3 ≤ (World.repeating.listCell ⟨0⟩).items.length := by decide
  refine ⟨made, fit, ?_⟩
  obtain ⟨before, span, after, front, out, back, plus, hitems, hbefore, hspan, -, -, -, hsame, hrun⟩ :=
    replaceSpan_trims made fit [.undefined, .undefined]
  obtain ⟨hreplace, hspliced⟩ := (hrun .logging).2 fun hsame => by
    have := hsame.length_eq
    rw [hspan] at this
    cases this
  obtain ⟨⟨⟩, w', hend, hthrough⟩ := Run.ends_iff.1 (hspliced.told (Reactions.logging_watches ⟨0⟩) (by decide))
  refine ⟨front ++ (plus ++ back), w', hreplace.trans hend, ?_, hsame⟩
  have hparts : [Value.null] ++ ([.undefined, .undefined, .undefined] ++ [.bool true]) = before ++ (span ++ after) := hitems
  obtain ⟨rfl, hrest⟩ := List.append_inj hparts (by rw [hbefore]; rfl)
  obtain ⟨-, rfl⟩ := List.append_inj hrest (by rw [hspan]; rfl)
  exact congrArg ListCell.items hthrough.cell

end LiveBindings
