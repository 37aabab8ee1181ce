import LiveBindings.Proofs.Report

/-!
# What the listeners of a length are told last

Whether a change is announced as one of the length is settled when the operation is called; the length that is told after the
change is the one that the list has by then. So after an operation that was called to change the length, its listeners have been
told the length that the list has, whatever the others did to the list in between (`ListOperation.length_current`). An operation
that was not called to change the length tells none; when a listener has changed the list before its step, the step may change
the length all the same, and then nobody hears of it (`ListOperation.length_untold`).
-/

namespace LiveBindings

variable {κ ε : Type}

/-- Every listener of the length of a list knows the length: `noted` is what each was told last. -/
def ListId.LengthKnown (l : ListId) (noted : ε → κ → Value) (w : World κ ε) : Prop :=
  ∀ x ∈ Listeners.on .length (w.listCell l).listeners, noted w.env x.callback = Value.ofNat (w.listCell l).items.length

section

variable [DecidableEq κ] {R : Reactions κ ε} {l : ListId} {noted : ε → κ → Value} {P : κ → Prop} {I : World κ ε → Prop}
  {w : World κ ε}

/-- Some callbacks leave a list alone when they are told a value, and note it. -/
structure Reactions.Notes (R : Reactions κ ε) (l : ListId) (noted : ε → κ → Value) (P : κ → Prop) : Prop where
  fire : ∀ p, P p → ∀ v w, (R.fire p (.value v)).Leads w fun _ w' =>
    w'.listCell l = w.listCell l ∧ noted w'.env = Function.update (noted w.env) p v
  letGo : ∀ w, R.letGo.Leads w fun _ w' => w'.listCell l = w.listCell l ∧ noted w'.env = noted w.env

/-- All listeners of a pass note the value; what one has noted already stays. -/
theorem Reactions.Notes.tellAll (hP : R.Notes l noted P) {v : Value} {xs : List (Listener ListTopic κ)}
    (hx : ∀ x ∈ xs, x ∈ (w.listCell l).listeners ∧ P x.callback) :
    (LiveBindings.tellAll R l.registered (.value v) xs).Leads w fun _ w' => w'.listCell l = w.listCell l ∧
      (∀ x ∈ xs, noted w'.env x.callback = v) ∧ ∀ p, noted w.env p = v → noted w'.env p = v := by
  induction xs generalizing w with
  | nil => exact ⟨rfl, fun _ hx => absurd hx List.not_mem_nil, fun _ => id⟩
  | cons x xs ih =>
    obtain ⟨hreg, hp⟩ := hx x List.mem_cons_self
    have hr : l.registered w x.id = true := List.any_eq_true.2 ⟨x, hreg, by simp⟩
    rw [LiveBindings.tellAll, Run.leads_bind, LiveBindings.tell, Run.leads_bind, Run.leads_get, if_pos hr]
    refine (hP.fire _ hp v w).imp fun _ w₁ h₁ => ?_
    obtain ⟨hc₁, hn₁⟩ := h₁
    have hnext : ∀ y ∈ xs, y ∈ (w₁.listCell l).listeners ∧ P y.callback := fun y hy =>
      hc₁ ▸ hx y (List.mem_cons_of_mem _ hy)
    refine (ih hnext).imp fun _ w₂ h₂ => ?_
    obtain ⟨hc₂, hall, hstays⟩ := h₂
    refine ⟨hc₂.trans hc₁, ?_, fun p hv => hstays p ?_⟩
    · intro y hy
      rcases List.mem_cons.1 hy with rfl | hy
      · exact hstays _ (by rw [hn₁, Function.update_self])
      · exact hall y hy
    · rw [hn₁]
      by_cases he : p = x.callback
      · rw [he, Function.update_self]
      · rw [Function.update_of_ne he, hv]

/-- Once the listeners of the length have been told the length, they know it. -/
theorem ListId.tellLength_known (hP : R.Notes l noted P)
    (hl : ∀ x ∈ Listeners.on .length (w.listCell l).listeners, P x.callback) :
    (l.tellLength R .length (w.listCell l).items.length).Leads w fun _ => l.LengthKnown noted := by
  simp only [ListId.tellLength, ListId.listeners, Run.leads_bind, Run.leads_stateGet, Run.leads_pure, Run.leads_holding]
  have hx : ∀ x ∈ Listeners.on .length (w.listCell l).listeners, x ∈ (w.listCell l).listeners ∧ P x.callback :=
    fun x hx => ⟨(List.mem_filter.1 hx).1, hl x hx⟩
  have htold := fun held => hP.tellAll (v := Value.ofNat (w.listCell l).items.length) (w := { w with held }) hx
  refine (htold _).imp fun _ w₁ h₁ => ?_
  obtain ⟨hc₁, hall, -⟩ := h₁
  refine (hP.letGo _).imp fun _ w₂ h₂ x hx => ?_
  obtain ⟨hc₂, hn₂⟩ := h₂
  have hc : w₂.listCell l = w.listCell l := hc₂.trans hc₁
  rw [hc] at hx ⊢
  rw [hn₂]
  exact hall x hx

section

variable (hI : World.Steady I) (hR : R.Keeps I) (hP : R.Notes l noted P)
  (hl : ∀ w, I w → ∀ x ∈ Listeners.on .length (w.listCell l).listeners, P x.callback)

include hI hR hP hl

/-- What follows a change that was announced as one of the length ends with the length that the list has by then. -/
theorem ListId.closing_known {change : ListChange} (hchange : change.oldLength ≠ change.newLength) (report : ListReport)
    (h : I w) : (l.closing R change report).Leads w fun _ => l.LengthKnown noted := by
  unfold ListId.closing
  rw [Run.leads_bind]
  refine (ListId.tellSpan_leads ((hR.upholds hI).on l) trivial _ h).imp fun _ w₁ h₁ => ?_
  rw [Run.leads_bind]
  refine (ListId.tellContent_leads ((hR.upholds hI).on l) trivial _ h₁).imp fun _ w₂ h₂ => ?_
  have h₃ := hI.list w₂ l (fun c => { c with dispatching := c.dispatching - 1 }) (fun _ => rfl) h₂
  rw [Run.leads_bind, Run.leads_modify, if_pos (bne_iff_ne.2 hchange)]
  simp only [ListId.length, ListId.items, Run.leads_bind, Run.leads_get, Run.leads_pure]
  exact ListId.tellLength_known hP (hl _ h₃)

theorem ListId.apply_known {change : ListChange} (hchange : change.oldLength ≠ change.newLength) {before : ListReport}
    {mutate : Run κ ε ListReport} (hm : ∀ w, I w → mutate.Leads w fun _ => I) (h : I w)
    (hd : w.depth < w.config.maxDispatchDepth) :
    (l.apply R change before mutate).Leads w fun _ => l.LengthKnown noted := by
  rw [ListId.apply_leads_iff hd]
  refine (ListId.opening_leads ((hR.upholds hI).on l) (fun _ _ => trivial) change before (hI.depth w _ h)).imp fun _ w₁ h₁ => ?_
  refine (hm w₁ h₁).imp fun report w₂ h₂ => ?_
  exact ListId.closing_known hI hR hP hl hchange report h₂

theorem ListId.splice_known (h : I w) (hd : w.depth < w.config.maxDispatchDepth) {index remove : Nat} {plus : List Value}
    (hchange : (replaceRun (w.listCell l).items (min index (w.listCell l).items.length) remove plus).length ≠
      (w.listCell l).items.length) :
    (l.splice R index remove plus).Leads w fun _ => l.LengthKnown noted := by
  simp only [ListId.splice, ListId.items, Run.leads_bind, Run.leads_get, Run.leads_pure]
  split
  · rename_i hnone
    rw [Bool.and_eq_true, List.isEmpty_iff, List.isEmpty_iff] at hnone
    rw [hnone.1, replaceRun_nothing hnone.2] at hchange
    exact absurd rfl hchange
  · rw [Run.leads_bind]
    refine (ListId.apply_known hI hR hP hl (fun he => hchange ?_)
      (fun w' h' => ListId.replaceItems_leads hI h' _ _ _) h hd).imp fun _ _ hk => hk
    simp only [List.length_take, List.length_drop] at he
    simp only [replaceRun, List.length_append, List.length_take, List.length_drop]
    omega

/-- After an operation that was called to change the length of a list, the listeners of the length know it. In between, the
listeners of all other topics may do to the list what they like, as long as nobody listens to the length who does more than note
it. -/
theorem ListOperation.length_current (op : ListOperation κ ε) (h : I w) (hd : w.depth < w.config.maxDispatchDepth)
    (hchange : (op.effect w (w.listCell l).items).length ≠ (w.listCell l).items.length) :
    (op.run R l).Leads w fun _ => l.LengthKnown noted := by
  refine Run.leads_iff_outcome.2 fun a w' ho => ?_
  cases @form κ ε R l w op with
  | idle a' run nothing same => exact absurd same.length_eq hchange
  | splice kind index remove plus answer run effect nothing returns =>
    rw [run] at ho
    obtain ⟨_, hp, -⟩ := Run.of_outcome_map ho
    rw [effect] at hchange
    exact (ListId.splice_known hI hR hP hl h hd hchange).of_outcome hp
  | reorder kind answer run perm nothing returns => exact absurd (perm w _).length_eq hchange

end

end

/-- One listener removes the last item, once, when it is told of a change of the list, and another notes the length. What
follows the removal is told to `inner`. -/
def Reactions.popping (inner : Reactions Bool (Bool × Value)) : Reactions Bool (Bool × Value) where
  fire callback e := match callback, e with
    | true, .content _ _ _ => do
      if (← get).env.1 then return ()
      modify fun w => { w with env := (true, w.env.2) }
      discard <| ListOperation.pop.run inner ⟨0⟩
    | false, .value v => modify fun w => { w with env := (w.env.1, v) }
    | _, _ => pure ()

/-- The listeners as they are called for a change and for the removal within it. -/
def Reactions.poppingOnce : Reactions Bool (Bool × Value) := popping (popping { fire := fun _ _ => pure () })

/-- What each listener noted last; only the one notes anything. -/
def lastNoted (env : Bool × Value) (p : Bool) : Value := if p then .undefined else env.2

theorem Reactions.popping_keeps {inner : Reactions Bool (Bool × Value)} {I : World Bool (Bool × Value) → Prop}
    (hI : World.Steady I) (henv : ∀ w env, I w → I { w with env }) (hinner : inner.Keeps I) : (popping inner).Keeps I := by
  refine ⟨fun callback e w h => ?_, fun _ h => h⟩
  cases callback with
  | false =>
    cases e with
    | value v => exact henv w _ h
    | _ => exact h
  | true =>
    cases e with
    | content added removed index =>
      simp only [popping, Run.leads_bind, Run.leads_get]
      split
      · exact h
      · simp only [Run.leads_bind, Run.leads_modify, Run.leads_discard]
        exact ListOperation.run_leads hI hinner (henv w _ h) .pop
    | _ => exact h

theorem Reactions.popping_notes (inner : Reactions Bool (Bool × Value)) (l : ListId) :
    (popping inner).Notes l lastNoted (· = false) where
  fire p hp v w := by
    subst hp
    refine ⟨rfl, funext fun p => ?_⟩
    cases p <;> rfl
  letGo w := ⟨rfl, rfl⟩

/-- A list of one item with these listeners. -/
def World.oneItem : World Bool (Bool × Value) where
  lists := #[{ items := [.bool true], listeners := [⟨⟨0⟩, .beforeContent, true⟩, ⟨⟨1⟩, .length, false⟩] }]
  env := (false, Value.ofNat 1)

/-- The listeners of the list are still these. -/
def World.Attended (w : World Bool (Bool × Value)) : Prop :=
  (w.listCell ⟨0⟩).listeners = (World.oneItem.listCell ⟨0⟩).listeners

theorem World.attended_steady : World.Steady World.Attended where
  held _ _ h := h
  depth _ _ h := h
  list w l f hf h := by
    rw [World.Attended, World.listCell_modifyList]
    split
    · rename_i hl
      rw [hf, ← hl.1]
      exact h
    · exact h

/-- Two items are appended, and the one that was there is removed in between; the length told last is that of the two. -/
theorem ListOperation.length_current_popping :
    World.oneItem.Attended ∧ World.oneItem.depth < World.oneItem.config.maxDispatchDepth ∧
      ((push [.null, .null]).run Reactions.poppingOnce ⟨0⟩).Ends World.oneItem fun _ w' =>
        (w'.listCell ⟨0⟩).items = [.null, .null] ∧ (⟨0⟩ : ListId).LengthKnown lastNoted w' := by
  have hstart : World.oneItem.Attended := rfl
  have hbelow : World.oneItem.depth < World.oneItem.config.maxDispatchDepth := by decide
  have hkeeps : Reactions.poppingOnce.Keeps World.Attended :=
    Reactions.popping_keeps World.attended_steady (fun _ _ h => h)
      (Reactions.popping_keeps World.attended_steady (fun _ _ h => h) ⟨fun _ _ _ h => h, fun _ h => h⟩)
  have hlisteners : ∀ w, World.Attended w → ∀ x ∈ Listeners.on .length (w.listCell ⟨0⟩).listeners, x.callback = false := by
    intro w hw
    rw [hw]
    decide
  have hchange : ((push [.null, .null]).effect World.oneItem (World.oneItem.listCell ⟨0⟩).items).length ≠
      (World.oneItem.listCell ⟨0⟩).items.length := by
    decide
  have hruns : ∃ a w', (push [.null, .null]).run Reactions.poppingOnce ⟨0⟩ World.oneItem = .ok a w' ∧
      (w'.listCell ⟨0⟩).items = [.null, .null] :=
    Run.ends_iff.1 (by decide +kernel)
  refine ⟨hstart, hbelow, ?_⟩
  generalize World.oneItem = w at hstart hbelow hchange hruns ⊢
  have hknown := ListOperation.length_current World.attended_steady hkeeps (Reactions.popping_notes _ ⟨0⟩) hlisteners
    (push [.null, .null]) hstart hbelow hchange
  obtain ⟨a, w', hrun, hitems⟩ := hruns
  exact Run.ends_iff.2 ⟨a, w', hrun, hitems, hknown.of_eq hrun⟩

/-- An assignment is not called to change the length. Here it does, since the item is gone by the time of its step, and the
length told last is that of the removal. -/
theorem ListOperation.length_untold :
    ((set 0 .null).run Reactions.poppingOnce ⟨0⟩).Ends World.oneItem fun _ w' =>
      (w'.listCell ⟨0⟩).items = [.null] ∧ lastNoted w'.env false = Value.ofNat 0 := by
  decide +kernel

end LiveBindings
