import LiveBindings.Proofs.Course

/-!
# What a mutation of a list reports

The operations that change a list, each of which comes down to nothing, to one splice or to one reordering of the list
(`ListOperation.Form`), and so goes by the course of that (`ListOperation.run_course`).

Listeners answer to what they hear by scripts of further operations (`Script`), to any depth. A mutation made by a listener
is a run of the same operations, so that the main statement, `Plan.reports_own_step`, holds of each of them.
-/

namespace LiveBindings

variable {κ ε : Type}

/-! ## The operations of a list -/

/-- An operation that changes a list. A comparison may look at the world. -/
inductive ListOperation (κ ε : Type)
  | splice (index remove : Nat) (plus : List Value)
  | push (values : List Value)
  | pop
  | shift
  | unshift (values : List Value)
  | set (index : Nat) (value : Value)
  | delete (value : Value)
  | wipe
  | replaceAll (values : List Value)
  | reverse
  | sort
  | sortBy (compare : World κ ε → Value → Value → Ordering)

namespace ListOperation

/-- What an operation returns. -/
def Answer : ListOperation κ ε → Type
  | splice _ _ _ => List Value
  | pop | shift => Option Value
  | delete _ => Bool
  | _ => PUnit

def run (R : Reactions κ ε) (l : ListId) : (op : ListOperation κ ε) → Run κ ε op.Answer
  | splice index remove plus => l.splice R index remove plus
  | push values => l.push R values
  | pop => l.pop R
  | shift => l.shift R
  | unshift values => l.unshift R values
  | set index value => l.assign R index value
  | delete value => l.delete R value
  | wipe => l.wipe R
  | replaceAll values => l.replaceAll R values
  | reverse => l.reverse R
  | sort => l.sort R
  | sortBy compare => l.sortBy R compare

/-- What becomes of the items of a list when nobody else changes it. -/
def effect (w : World κ ε) : ListOperation κ ε → List Value → List Value
  | splice index remove plus, items => replaceRun items (min index items.length) remove plus
  | push values, items => items ++ values
  | pop, items => items.dropLast
  | shift, items => items.tail
  | unshift values, items => values ++ items
  | set index value, items =>
    if index < items.length then items.set index value
    else items ++ (List.replicate (index - items.length) .undefined ++ [value])
  | delete value, items => items.eraseP (·.same value)
  | wipe, _ => []
  | replaceAll values, _ => values
  | reverse, items => items.reverse
  | sort, items => items.mergeSort fun a b => a.compare b != .gt
  | sortBy compare, items => items.mergeSort fun a b => compare w a b != .gt

/-- What an operation returns when it finds nothing to change. -/
def Nothing : (op : ListOperation κ ε) → op.Answer → Prop
  | splice _ _ _, (removed : List Value) => removed = []
  | pop, (last : Option Value) => last = none
  | shift, (first : Option Value) => first = none
  | delete _, (found : Bool) => found = false
  | _, _ => True

/-- What an operation returns that has made its step. -/
def Returns : (op : ListOperation κ ε) → ListReport → op.Answer → Prop
  | splice _ _ _, report, (removed : List Value) => removed = report.removed
  | pop, report, (last : Option Value) => last = report.removed.getLast?
  | shift, report, (first : Option Value) => first = report.removed.getLast?
  | delete _, _, (found : Bool) => found = true
  | _, _, _ => True

/-- Whether an operation puts the items in another order. -/
def IsReordering : ListOperation κ ε → Prop
  | reverse | sort | sortBy _ => True
  | _ => False

/-- The steps that an operation may make when it was called in a world. A listener may have changed the list before the
step; otherwise the step has the effect that the operation is called for. -/
structure Makes (op : ListOperation κ ε) (l : ListId) (w : World κ ε) (s : OwnStep κ ε) : Prop where
  splices : ¬op.IsReordering → s.Splices l s.report.added
  reorders : op.IsReordering → s.Reorders l
  effect : s.old l = (w.listCell l).items → s.new l = op.effect s.before (s.old l)

/-- There is nothing to change: the items would stay the same. -/
def Idle (op : ListOperation κ ε) (l : ListId) (w : World κ ε) (a : op.Answer) : Prop :=
  op.Nothing a ∧ List.Forall₂ (fun v v' => v.same v' = true) (op.effect w (w.listCell l).items) (w.listCell l).items

end ListOperation

section

variable {R : Reactions κ ε} {l : ListId} {w : World κ ε}

theorem Value.sameAll_refl (items : List Value) : List.Forall₂ (fun v v' : Value => v.same v' = true) items items :=
  List.forall₂_same.2 fun v _ => Value.same_refl v

/-- Replacing nothing by nothing. -/
theorem replaceRun_nothing {items : List Value} {index remove : Nat} (h : (items.drop index).take remove = []) :
    replaceRun items index remove [] = items := by
  have hdrop : items.drop (index + remove) = items.drop index := by
    rw [← List.drop_drop]
    conv_rhs => rw [← List.take_append_drop remove (items.drop index), h, List.nil_append]
  rw [replaceRun, hdrop, List.append_nil, List.take_append_drop]

/-- An item may be set to the same value. -/
theorem set_sameAll {items : List Value} {index : Nat} {value : Value} (hi : index < items.length)
    (hv : (items.getD index .undefined).same value = true) :
    List.Forall₂ (fun v v' : Value => v.same v' = true) (items.set index value) items := by
  refine List.forall₂_iff_get.2 ⟨List.length_set, fun i h₁ h₂ => ?_⟩
  rw [List.get_eq_getElem, List.get_eq_getElem, List.getElem_set]
  split
  · rename_i he
    subst he
    rw [List.getD_eq_getElem?_getD, List.getElem?_eq_getElem hi, Option.getD_some] at hv
    exact Value.same_symm hv
  · exact Value.same_refl _

namespace ListOperation

/-- What an operation comes down to: nothing, one splice or one reordering. -/
inductive Form (R : Reactions κ ε) (l : ListId) (w : World κ ε) (op : ListOperation κ ε) : Prop
  | idle (a : op.Answer) (run : (op.run R l).outcome w = pure (a, w)) (nothing : op.Nothing a)
      (same : List.Forall₂ (fun v v' => v.same v' = true) (op.effect w (w.listCell l).items) (w.listCell l).items)
  | splice (kind : ¬op.IsReordering) (index remove : Nat) (plus : List Value) (answer : List Value → op.Answer)
      (run : (op.run R l).outcome w = ((l.splice R index remove plus).outcome w).map fun p => (answer p.1, p.2))
      (effect : ∀ w', op.effect w' (w.listCell l).items =
        replaceRun (w.listCell l).items (min index (w.listCell l).items.length) remove plus)
      (nothing : ((w.listCell l).items.drop (min index (w.listCell l).items.length)).take remove = [] → plus = [] →
        op.Nothing (answer []))
      (returns : ∀ report, op.Returns report (answer report.removed))
  | reorder (kind : op.IsReordering) (answer : PUnit → op.Answer)
      (run : (op.run R l).outcome w = ((l.reorder R op.effect).outcome w).map fun p => (answer p.1, p.2))
      (perm : ∀ w' items, (op.effect w' items).Perm items) (nothing : op.Nothing (answer ⟨⟩))
      (returns : ∀ report, op.Returns report (answer ⟨⟩))

theorem pop_form : pop.Form R l w := by
  by_cases hn : (w.listCell l).items.length = 0
  · refine .idle none ?_ rfl ?_
    · change (l.pop R).outcome w = _
      simp [ListId.pop, hn]
      rfl
    · rw [List.length_eq_zero_iff.1 hn]
      exact List.Forall₂.nil
  · refine .splice id ((w.listCell l).items.length - 1) 1 [] List.getLast? ?_ (fun _ => ?_) (fun _ _ => rfl) fun _ => rfl
    · change (l.pop R).outcome w = _
      simp only [ListId.pop, Run.outcome_bind, ListId.outcome_length, pure_bind, if_neg hn, Run.outcome_pure]
      rfl
    · rw [Nat.min_eq_left (Nat.sub_le _ _), replaceRun, List.append_nil, Nat.sub_add_cancel (Nat.pos_of_ne_zero hn),
        List.drop_length, List.append_nil]
      exact List.dropLast_eq_take

theorem shift_form : shift.Form R l w := by
  by_cases hn : (w.listCell l).items.length = 0
  · refine .idle none ?_ rfl ?_
    · change (l.shift R).outcome w = _
      simp [ListId.shift, hn]
      rfl
    · rw [List.length_eq_zero_iff.1 hn]
      exact List.Forall₂.nil
  · refine .splice id 0 1 [] List.getLast? ?_ (fun _ => ?_) (fun _ _ => rfl) fun _ => rfl
    · change (l.shift R).outcome w = _
      simp only [ListId.shift, Run.outcome_bind, ListId.outcome_length, pure_bind, if_neg hn, Run.outcome_pure]
      rfl
    · rw [Nat.zero_min, replaceRun, List.take_zero, List.append_nil, List.nil_append, Nat.zero_add, List.drop_one]
      rfl

theorem set_form (index : Nat) (value : Value) : (set index value).Form R l w := by
  by_cases hi : index < (w.listCell l).items.length
  · by_cases hv : ((w.listCell l).items.getD index .undefined).same value = true
    · refine .idle PUnit.unit ?_ trivial ?_
      · change (l.assign R index value).outcome w = _
        simp only [ListId.assign, Run.outcome_bind, ListId.outcome_length, ListId.outcome_get, pure_bind, if_pos hi,
          if_pos hv, Run.outcome_pure]
        rfl
      · rw [effect, if_pos hi]
        exact set_sameAll hi hv
    · refine .splice id index 1 [value] (fun _ => PUnit.unit) ?_ (fun _ => ?_) (fun _ _ => trivial) fun _ => trivial
      · change (l.assign R index value).outcome w = _
        simp only [ListId.assign, Run.outcome_bind, ListId.outcome_length, ListId.outcome_get, pure_bind, if_pos hi,
          if_neg hv, Run.outcome_discard]
        rfl
      · rw [Nat.min_eq_left hi.le, replaceRun, effect, if_pos hi, List.set_eq_take_append_cons_drop, if_pos hi,
          List.append_assoc, List.singleton_append]
  · refine .splice id (w.listCell l).items.length 0
      (List.replicate (index - (w.listCell l).items.length) .undefined ++ [value]) (fun _ => PUnit.unit) ?_ (fun _ => ?_)
      (fun _ _ => trivial) fun _ => trivial
    · change (l.assign R index value).outcome w = _
      simp only [ListId.assign, Run.outcome_bind, ListId.outcome_length, pure_bind, if_neg hi, Run.outcome_discard]
      rfl
    · rw [Nat.min_self, replaceRun, effect, if_neg hi]
      simp

theorem delete_form (value : Value) : (delete value).Form R l w := by
  cases hi : (w.listCell l).items.findIdx? (·.same value) with
  | none =>
    refine .idle false ?_ rfl ?_
    · change (l.delete R value).outcome w = _
      simp [ListId.delete, ListId.indexOf, hi]
      rfl
    · rw [effect, List.eraseP_eq_eraseIdx, hi]
      exact Value.sameAll_refl _
  | some index =>
    have hlt : index < (w.listCell l).items.length := (List.findIdx?_eq_some_iff_getElem.1 hi).1
    refine .splice id index 1 [] (fun _ => true) ?_ (fun _ => ?_) (fun hnone _ => ?_) fun _ => rfl
    · change (l.delete R value).outcome w = _
      simp only [ListId.delete, ListId.indexOf, Run.outcome_bind, ListId.outcome_items, Run.outcome_pure, pure_bind, hi,
        Run.outcome_discard]
      cases (l.splice R index 1 []).outcome w <;> rfl
    · rw [Nat.min_eq_left hlt.le, effect, List.eraseP_eq_eraseIdx, hi, replaceRun, List.append_nil]
      exact List.eraseIdx_eq_take_drop_succ _ _
    · rw [Nat.min_eq_left hlt.le, List.take_eq_nil_iff, List.drop_eq_nil_iff] at hnone
      omega

/-- Every operation comes down to nothing, to one splice or to one reordering. -/
theorem form (op : ListOperation κ ε) : op.Form R l w := by
  cases op with
  | splice index remove plus =>
    exact .splice id index remove plus id (Run.outcome_same _) (fun _ => rfl) (fun _ _ => rfl) fun _ => rfl
  | push values =>
    refine .splice id (w.listCell l).items.length 0 values (fun _ => PUnit.unit) ?_ (fun _ => ?_) (fun _ _ => trivial)
      fun _ => trivial
    · change (l.push R values).outcome w = _
      simp only [ListId.push, Run.outcome_bind, ListId.outcome_length, pure_bind, Run.outcome_discard]
      rfl
    · simp [effect, replaceRun]
  | pop => exact pop_form
  | shift => exact shift_form
  | unshift values =>
    refine .splice id 0 0 values (fun _ => PUnit.unit) (Run.outcome_discard _ w) (fun _ => ?_) (fun _ _ => trivial)
      fun _ => trivial
    simp [effect, replaceRun]
  | set index value => exact set_form index value
  | delete value => exact delete_form value
  | wipe =>
    refine .splice id 0 (w.listCell l).items.length [] (fun _ => PUnit.unit) ?_ (fun _ => ?_) (fun _ _ => trivial)
      fun _ => trivial
    · change (l.wipe R).outcome w = _
      simp only [ListId.wipe, Run.outcome_bind, ListId.outcome_length, pure_bind, Run.outcome_discard]
      rfl
    · exact (replaceRun_whole Nat.le.refl []).symm
  | replaceAll values =>
    refine .splice id 0 (w.listCell l).items.length values (fun _ => PUnit.unit) ?_ (fun _ => ?_) (fun _ _ => trivial)
      fun _ => trivial
    · change (l.replaceAll R values).outcome w = _
      simp only [ListId.replaceAll, Run.outcome_bind, ListId.outcome_length, pure_bind, Run.outcome_discard]
      rfl
    · exact (replaceRun_whole Nat.le.refl values).symm
  | reverse =>
    exact .reorder trivial id (Run.outcome_same _) (fun _ items => List.reverse_perm items) trivial fun _ => trivial
  | sort =>
    exact .reorder trivial id (Run.outcome_same _) (fun _ items => List.mergeSort_perm items _) trivial fun _ => trivial
  | sortBy compare =>
    exact .reorder trivial id (Run.outcome_same _) (fun _ items => List.mergeSort_perm items _) trivial fun _ => trivial

/-- Every operation on a list goes by its course. -/
theorem run_course (hR : R.Keeps l.Exists) (h : l.Exists w) (op : ListOperation κ ε) :
    Course R l w (op.Idle l w) (op.Makes l w) op.Returns ((op.run R l).outcome w) := by
  cases op.form with
  | idle a run nothing same =>
    rw [run]
    exact .idle ⟨nothing, same⟩
  | splice kind index remove plus answer run effect nothing returns =>
    rw [run]
    refine (ListId.splice_course hR h index remove plus).map answer ?_ ?_ ?_
    · rintro _ ⟨rfl, rfl, hnone⟩
      refine ⟨nothing hnone rfl, ?_⟩
      rw [effect, replaceRun_nothing hnone]
      exact Value.sameAll_refl _
    · rintro s ⟨hs, he⟩
      refine ⟨fun _ => by rw [hs.entered]; exact hs, fun hr => absurd hr kind, fun hold => ?_⟩
      rw [he hold, hold, effect]
    · rintro report _ rfl
      exact returns report
  | reorder kind answer run perm nothing returns =>
    rw [run]
    refine (ListId.reorder_course hR h perm).map answer ?_ ?_ ?_
    · intro _ hnone
      refine ⟨nothing, ?_⟩
      rw [hnone, (perm w []).eq_nil]
      exact List.Forall₂.nil
    · rintro s ⟨hs, he⟩
      exact ⟨fun hr => absurd kind hr, fun _ => hs, fun _ => he⟩
    · intro report _ _
      exact returns report

/-- Every operation keeps what the callbacks keep. -/
theorem run_leads {I : World κ ε → Prop} (hI : World.Steady I) (hR : R.Keeps I) (h : I w) (op : ListOperation κ ε) :
    (op.run R l).Leads w fun _ => I := by
  refine Run.leads_iff_outcome.2 fun a w' ho => ?_
  cases @form κ ε R l w op with
  | idle a' run nothing same =>
    rw [run] at ho
    cases ho
    exact h
  | splice kind index remove plus answer run effect nothing returns =>
    rw [run] at ho
    obtain ⟨_, hp, -⟩ := Run.of_outcome_map ho
    exact (ListId.splice_leads hI hR h index remove plus).of_outcome hp
  | reorder kind answer run perm nothing returns =>
    rw [run] at ho
    obtain ⟨_, hp, -⟩ := Run.of_outcome_map ho
    exact (ListId.reorder_leads hI hR h op.effect).of_outcome hp

end ListOperation

end

/-! ## Listeners that answer by operations -/

/-- What a listener does when it hears an event: it changes lists, registers and removes listeners, and may give up. How
it goes on may depend on what it was answered and on the world as it is by then. -/
inductive Script (κ ε : Type)
  | done
  | giveUp (e : Fault)
  | mutate (l : ListId) (op : ListOperation κ ε) (next : op.Answer → World κ ε → Script κ ε)
  | listen (l : ListId) (topic : ListTopic) (callback : κ) (next : ListenerId → Script κ ε)
  | unlisten (l : ListId) (topic : ListTopic) (id : ListenerId) (next : Script κ ε)

def Script.run (R : Reactions κ ε) : Script κ ε → Run κ ε Unit
  | done => pure ()
  | giveUp e => throw e
  | mutate l op next => do
    let a ← op.run R l
    Script.run R (next a (← get))
  | listen l topic callback next => do
    let id ← l.listen topic callback
    Script.run R (next id)
  | unlisten l topic id next => do
    l.unlisten topic id
    Script.run R next

/-- What every callback does on every event, in the world that it finds. -/
abbrev Plan (κ ε : Type) := κ → Event → World κ ε → Script κ ε

/-- The listeners follow a plan, and at most `nesting` of them are called inside each other. -/
def Plan.reactions (plan : Plan κ ε) (nesting : Nat) : Reactions κ ε where
  fire callback e := match nesting with
    | 0 => throw .exhausted
    | nesting + 1 => do (plan callback e (← get)).run (plan.reactions nesting)

theorem Script.run_leads {R : Reactions κ ε} {I : World κ ε → Prop} (hI : World.Lasting I) (hR : R.Keeps I)
    (script : Script κ ε) {w : World κ ε} (h : I w) : (script.run R).Leads w fun _ => I := by
  induction script generalizing w with
  | done => exact h
  | giveUp e => exact Run.leads_throw e
  | mutate l op next ih =>
    simp only [Script.run, Run.leads_bind, Run.leads_get]
    exact (ListOperation.run_leads hI.steady hR h op).imp fun a w₁ h₁ => ih a w₁ h₁
  | listen l topic callback next ih =>
    simp only [Script.run, Run.leads_bind, ListId.listen, Run.leads_modifyGet]
    exact ih _ (hI.list _ _ _ (hI.nextListener _ _ h))
  | unlisten l topic id next ih =>
    simp only [Script.run, Run.leads_bind, ListId.unlisten, Run.leads_modify]
    exact ih (hI.list _ _ _ h)

/-- A run in which the listeners follow a plan never loses a list. -/
theorem Plan.reactions_keep (plan : Plan κ ε) {I : World κ ε → Prop} (hI : World.Lasting I) (nesting : Nat) :
    (plan.reactions nesting).Keeps I := by
  induction nesting with
  | zero => exact ⟨fun _ _ _ _ => by unfold Plan.reactions; exact Run.leads_throw _, fun _ h => h⟩
  | succ nesting ih =>
    refine ⟨fun callback e w h => ?_, fun _ h => h⟩
    unfold Plan.reactions
    exact Script.run_leads hI ih _ h

/-- Whatever listeners of any phase do to the same list in between, to any depth, every mutation of a list reports exactly
what its own step did. -/
theorem Plan.reports_own_step (plan : Plan κ ε) (nesting : Nat) {l : ListId} {w : World κ ε} (h : l.Exists w)
    (op : ListOperation κ ε) :
    Course (plan.reactions nesting) l w (op.Idle l w) (op.Makes l w) op.Returns
      ((op.run (plan.reactions nesting) l).outcome w) :=
  ListOperation.run_course (plan.reactions_keep l.exists_lasting nesting) h op

/-- A listener that removes the last item of a list when it hears that two are to be removed. -/
def Plan.shrinking : Plan Unit Unit := fun _ e _ =>
  match e with
  | .content _ [_, _] _ => .mutate ⟨0⟩ .pop fun _ _ => .done
  | _ => .done

/-- A list of three items with that listener. -/
def World.threeItems : World Unit Unit where
  lists := #[{ items := [.bool true, .bool false, .null], listeners := [⟨⟨0⟩, .beforeContent, ()⟩] }]
  env := ()

/-- A splice of two items returns, and reports, the one that it still finds when its step comes. -/
theorem Plan.reports_own_step_shrinking :
    (⟨0⟩ : ListId).Exists World.threeItems ∧
      (((⟨0⟩ : ListId).splice (Plan.shrinking.reactions 5) 1 2 [.undefined]).outcome World.threeItems).toOption.map
        (fun p => (p.1, (p.2.listCell ⟨0⟩).items)) = some ([.bool false], [.bool true, .undefined]) ∧
      Course (Plan.shrinking.reactions 5) ⟨0⟩ World.threeItems
        ((ListOperation.splice 1 2 [.undefined]).Idle ⟨0⟩ World.threeItems)
        ((ListOperation.splice 1 2 [.undefined]).Makes ⟨0⟩ World.threeItems)
        (ListOperation.splice 1 2 [.undefined]).Returns
        (((⟨0⟩ : ListId).splice (Plan.shrinking.reactions 5) 1 2 [.undefined]).outcome World.threeItems) :=
  ⟨Nat.one_pos, by decide +kernel,
    Plan.shrinking.reports_own_step 5 (w := World.threeItems) Nat.one_pos (.splice 1 2 [.undefined])⟩

end LiveBindings
