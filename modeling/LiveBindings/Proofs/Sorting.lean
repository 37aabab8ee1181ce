import LiveBindings.Proofs.Membership
import LiveBindings.Proofs.Precedence

/-!
# Sorting a list

What becomes of a list that is sorted by a comparison (`ListId.SortsStably`). Its listeners may change it meanwhile: the step puts
the items that it finds in order, as the course of every mutation has it. While they leave the list alone it ends in the stable sort
of what it held, also where the limit of nested dispatches keeps the change from being told. Nothing becomes of an empty list, and
the limit may refuse to sort another one.

This takes of the comparison only that it is a total preorder (`ListId.sortBy_stably`). `Value.relations_lawful` says so of the order
of values, with what it puts before what, and that sameness is an equivalence.
-/

namespace LiveBindings

variable {κ ε : Type}

/-! ## Reordering -/

section

variable {R : Reactions κ ε} {l : ListId} {w : World κ ε}

/-- There is nothing to reorder in an empty list. -/
theorem ListId.reorder_nothing (h : (w.listCell l).items = []) (order : World κ ε → List Value → List Value) :
    l.reorder R order w = .ok ⟨⟩ w := by
  unfold ListId.reorder
  rw [ListId.items_bind, h]
  rfl

theorem ListId.reorder_refused_of (hw : w.refuses = true) (h : (w.listCell l).items ≠ [])
    (order : World κ ε → List Value → List Value) : l.reorder R order w = .error (.depthLimit .list w.depth) w := by
  obtain ⟨limit, panic⟩ := World.refuses_iff.1 hw
  unfold ListId.reorder
  rw [ListId.items_bind]
  dsimp only
  rw [if_neg (mt List.length_eq_zero_iff.1 h)]
  exact Run.discard_of_error (nested_refused limit panic)

/-- A list that is left alone is reordered as it was when the change was called for. -/
theorem ListId.Undisturbed.reorder {d : Nat} {c : Config} {C : κ → Prop} {I : World κ ε → Prop} (hl : l.Undisturbed R (d + 1) c C I)
    (h : I w) (hd : w.AtLevel d c) (hw : ¬w.refuses) {order : List Value → List Value} (hnil : order [] = []) :
    (l.reorder R fun _ => order).Ends w fun _ w' =>
      (I w' ∧ w'.contents.items l = order (w.contents.items l)) ∧ w'.AtLevel d c := by
  by_cases hnone : (w.listCell l).items = []
  · have hsame : w.contents.items l = order (w.contents.items l) := by
      rw [show w.contents.items l = [] from hnone, hnil]
    rw [Run.Ends, ListId.reorder_nothing hnone]
    exact ⟨⟨h, hsame⟩, hd⟩
  simp only [ListId.reorder, ListId.items, Run.ends_bind, Run.ends_get, Run.ends_pure]
  rw [if_neg (mt List.length_eq_zero_iff.1 hnone), Run.ends_discard]
  refine hl.apply h hd hw fun w₁ hnow => ?_
  simp only [Run.ends_bind, Run.ends_stateGet, Run.ends_modify, Run.ends_pure, hnow]

/-! ## Sorting -/

/-- What it comes to that a list is put in order by a comparison. Whatever the listeners do, it goes by its course, and the step
sorts the items that it finds; if they leave the list alone, it ends, and what the list held is sorted; an empty list is left as it
is, and another one when the change is refused. -/
structure ListId.SortsStably (cmp : Value → Value → Ordering) (R : Reactions κ ε) (l : ListId) (w : World κ ε) (act : Run κ ε PUnit) :
    Prop where
  course : R.Keeps l.Exists → l.Exists w →
    Course R l w (fun _ => w.contents.items l = []) (fun s => s.Reorders l ∧ StableSort cmp (s.old l) (s.new l)) (fun _ _ => True)
      (act.outcome w)
  made : ∀ {C : κ → Prop} {I : World κ ε → Prop}, l.Undisturbed R (w.depth + 1) w.config C I → I w → ¬w.refuses →
    act.Ends w fun _ w' =>
      (I w' ∧ StableSort cmp (w.contents.items l) (w'.contents.items l)) ∧ w'.AtLevel w.depth w.config
  idle : w.contents.items l = [] → act w = .ok ⟨⟩ w
  refused : w.contents.items l ≠ [] → w.refuses → act w = .error (.depthLimit .list w.depth) w

theorem ListId.sortBy_stably (cmp : Value → Value → Ordering) [Std.TransCmp cmp] (R : Reactions κ ε) (l : ListId) (w : World κ ε) :
    l.SortsStably cmp R w (l.sortBy R fun _ => cmp) where
  course hR h := by
    have hperm : ∀ (_ : World κ ε) (items : List Value), (items.mergeSort fun a b => cmp a b != .gt).Perm items :=
      fun _ items => List.mergeSort_perm items _
    rw [Run.outcome_same ((l.sortBy R fun _ => cmp).outcome w)]
    refine (ListId.reorder_course hR h hperm).map id (fun _ => id) ?_ fun _ _ _ => trivial
    rintro s ⟨hs, hnew⟩
    exact ⟨hs, hnew ▸ stableSort_mergeSort (s.old l)⟩
  made hl hI hw := by
    have hnil : ([] : List Value).mergeSort (fun a b => cmp a b != .gt) = [] := List.mergeSort_nil
    refine (hl.reorder hI ⟨rfl, rfl⟩ hw hnil).imp ?_
    rintro _ w' ⟨⟨hI', hitems⟩, hd⟩
    exact ⟨⟨hI', hitems ▸ stableSort_mergeSort _⟩, hd⟩
  idle h := ListId.reorder_nothing h _
  refused h hw := ListId.reorder_refused_of hw h _

end

/-- The relations between values are lawful. Sameness is an equivalence, by which only equal values, zeros and NaNs are the same. The
order is a total preorder, in which only equal values and containers of one kind are level; so of every list there is one stable
sort, and sorting it comes to that. -/
theorem Value.relations_lawful :
    (Equivalence fun a b : Value => a.same b = true) ∧
    (∀ a b : Value, a.same b = true ↔ a.Alike b) ∧
    (∀ a b : Value, a.compare b = (b.compare a).swap) ∧
    (∀ a b c : Value, (a.compare b).isLE = true → (b.compare c).isLE = true → (a.compare c).isLE = true) ∧
    (∀ a b c : Value, a.compare b = .eq → b.compare c = .eq → a.compare c = .eq) ∧
    (∀ a b : Value, (a.compare b = .lt ↔ a.Below b) ∧ (a.compare b = .eq ↔ a.Level b)) ∧
    (∀ items : List Value, ∃! result, StableSort Value.compare items result) ∧
    ∀ {κ ε : Type} (R : Reactions κ ε) (l : ListId) (w : World κ ε), l.SortsStably Value.compare R w (l.sort R) := by
  refine ⟨⟨same_refl, same_symm, same_trans⟩, fun _ _ => same_iff_alike, compare_swap, ?_, ?_, ?_, existsUnique_stableSort, ?_⟩
  · intro a b c hab hbc
    exact Std.TransCmp.isLE_trans hab hbc
  · intro a b c hab hbc
    exact Std.TransCmp.eq_trans hab hbc
  · intro a b
    exact ⟨compare_eq_lt_iff, compare_eq_eq_iff⟩
  · intro κ ε R l w
    exact l.sortBy_stably Value.compare R w

/-- A list with values of all kinds; the program hears of its content. -/
def World.motley : World (Callback Unit) (Env Unit Nat) where
  lists := #[{
    items := [.object ⟨0⟩, .number .nan, .list ⟨1⟩, .text "b", .number .zero, .number .invalid, .bool true, .list ⟨0⟩,
      .number .negZero, .null, .number (.infinity true), .number ⟨0x7FF0000000000001⟩, .text "", .undefined, .number .one, .bool false]
    listeners := [⟨⟨0⟩, .content, .user ()⟩] }, {}]
  objects := #[{}]
  nextListener := 1
  env := { host := 0 }

/-- The zeros are apart, NaN stands at both ends of the numbers by its sign and bits, and the two lists stand as they stood. -/
theorem Value.relations_lawful_motley :
    ∃ w', (⟨0⟩ : ListId).sort (engine Host.counter 4).reactions World.motley = .ok ⟨⟩ w' ∧
      w'.contents.items ⟨0⟩ = [.undefined, .null, .bool false, .bool true, .number .invalid, .number (.infinity true),
        .number .negZero, .number .zero, .number .one, .number ⟨0x7FF0000000000001⟩, .number .nan, .text "", .text "b",
        .list ⟨1⟩, .list ⟨0⟩, .object ⟨0⟩] := by
  obtain ⟨-, -, -, -, -, -, -, sorts⟩ := relations_lawful
  have heard : ListId.Public ⟨0⟩ World.motley :=
    ⟨Nat.two_pos, rfl, fun x hx => ⟨(), congrArg Listener.callback (List.mem_singleton.1 hx)⟩⟩
  obtain ⟨w', hsort, ⟨-, hstable⟩, -⟩ := Run.ends_unit.1
    ((sorts (engine Host.counter 4).reactions ⟨0⟩ World.motley).made (Host.counter_quiet.undisturbed_list ⟨0⟩ 3 1 _) heard (by decide))
  have order : StableOrder (World.motley.contents.items ⟨0⟩) [13, 9, 15, 6, 5, 10, 8, 4, 14, 11, 1, 12, 3, 2, 7, 0] := by
    decide +kernel
  exact ⟨w', hsort, hstable.unique order.stableSort⟩

end LiveBindings
