import LiveBindings.Proofs.Same
import Mathlib.Data.Finset.Card
import Mathlib.Logic.Relation

/-!
# Containers inside each other

The JSON form of a value is taken through as many containers inside each other as there are, and one more. That is enough exactly for
values whose containers do not contain themselves: on the way to a part of such a value no container is met twice
(`Contents.Grounded.nests`, `World.nests`).
-/

namespace LiveBindings

variable {κ ε : Type}

namespace Contents

variable {c : Contents} {u v : Value} {n : Nat}

/-- The values that a container holds. -/
def parts (c : Contents) : Value → List Value
  | .list l => c.items l
  | .object o => (c.entries o).map (·.2)
  | _ => []

/-- One value is held by another. -/
def Holds (c : Contents) (v u : Value) : Prop := u ∈ c.parts v

/-- No container in the value, however deep, contains itself. -/
def Grounded (c : Contents) (v : Value) : Prop := ∀ u, Relation.ReflTransGen c.Holds v u → ¬Relation.TransGen c.Holds u u

/-- The value has at most `n` containers inside each other; containers that hold nothing need not be counted. -/
def Nests (c : Contents) : Nat → Value → Prop
  | 0, v => v.isScalar = true
  | n + 1, v => ∀ u ∈ c.parts v, c.Nests n u

theorem parts_of_isScalar (h : v.isScalar = true) : c.parts v = [] := by
  cases v with
  | list l => cases h
  | object o => cases h
  | _ => rfl

theorem Nests.succ (h : c.Nests n v) : c.Nests (n + 1) v := by
  induction n generalizing v with
  | zero =>
    intro u hu
    rw [parts_of_isScalar h] at hu
    cases hu
  | succ n ih =>
    intro u hu
    exact ih (h u hu)

theorem Nests.mono {m : Nat} (h : c.Nests n v) (hm : n ≤ m) : c.Nests m v := by
  induction hm with
  | refl => exact h
  | step _ ih => exact ih.succ

theorem Grounded.part (h : c.Grounded v) (hu : c.Holds v u) : c.Grounded u := by
  intro x hx
  exact h x (hx.head hu)

/-- No container contains itself if each is ranked above what it holds. -/
theorem Grounded.of_rank (rank : Value → Nat) (h : ∀ v u, c.Holds v u → rank u < rank v) (v : Value) : c.Grounded v := by
  have hbelow : ∀ x y, Relation.TransGen c.Holds x y → rank y < rank x := by
    intro x y hxy
    induction hxy with
    | single hstep => exact h _ _ hstep
    | tail _ hstep ih => exact (h _ _ hstep).trans ih
  intro u _ hcycle
  exact Nat.lt_irrefl _ (hbelow u u hcycle)

/-- A value in which no container contains itself has at most as many of them inside each other as there are containers that hold
anything, and one more. -/
theorem Grounded.nests (h : c.Grounded v) {S : Finset Value} (hS : ∀ u, Relation.ReflTransGen c.Holds v u → c.parts u ≠ [] → u ∈ S) :
    c.Nests (S.card + 1) v := by
  induction hn : S.card generalizing S v with
  | zero =>
    intro u hu
    have hv : v ∈ S := hS v .refl (List.ne_nil_of_mem hu)
    rw [Finset.card_eq_zero.1 hn] at hv
    exact absurd hv (Finset.notMem_empty v)
  | succ n ih =>
    intro u hu
    have hv : v ∈ S := hS v .refl (List.ne_nil_of_mem hu)
    -- What is in a part is not the value that the part is in.
    refine ih (S := S.erase v) (h.part hu) (fun x hx hparts => Finset.mem_erase.2 ⟨?_, hS x (hx.head hu) hparts⟩) ?_
    · rintro rfl
      exact h x .refl (.head' hu hx)
    · rw [Finset.card_erase_of_mem hv, hn, Nat.add_sub_cancel]

end Contents

/-! ## The containers of a world -/

/-- A container that was made by now. -/
def World.Contains (w : World κ ε) : Value → Prop
  | .list l => l.index < w.lists.size
  | .object o => o.index < w.objects.size
  | _ => False

/-- All containers that were made by now. -/
def World.containers (w : World κ ε) : Finset Value :=
  (Finset.range w.lists.size).image (fun i => .list ⟨i⟩) ∪ (Finset.range w.objects.size).image fun i => .object ⟨i⟩

namespace World

variable {w : World κ ε} {u v : Value}

theorem mem_containers : u ∈ w.containers ↔ w.Contains u := by
  unfold containers
  rw [Finset.mem_union, Finset.mem_image, Finset.mem_image]
  constructor
  · rintro (⟨i, hi, rfl⟩ | ⟨i, hi, rfl⟩)
    · exact Finset.mem_range.1 hi
    · exact Finset.mem_range.1 hi
  · intro h
    cases u with
    | list l => exact .inl ⟨l.index, Finset.mem_range.2 h, rfl⟩
    | object o => exact .inr ⟨o.index, Finset.mem_range.2 h, rfl⟩
    | _ => exact h.elim

theorem card_containers (w : World κ ε) : w.containers.card ≤ w.contents.count := by
  refine (Finset.card_union_le _ _).trans (Nat.add_le_add ?_ ?_)
  · exact Finset.card_image_le.trans (Finset.card_range _).le
  · exact Finset.card_image_le.trans (Finset.card_range _).le

/-- Only what was made holds anything. -/
theorem contains_of_parts (h : w.contents.parts u ≠ []) : w.Contains u := by
  by_contra hnot
  apply h
  cases u with
  | list l =>
    have hnone : w.lists[l.index]? = none := Array.getElem?_eq_none (Nat.not_lt.1 hnot)
    simp [Contents.parts, contents, listCell, Array.getD_eq_getD_getElem?, hnone]
  | object o =>
    have hnone : w.objects[o.index]? = none := Array.getElem?_eq_none (Nat.not_lt.1 hnot)
    simp [Contents.parts, contents, objectCell, Array.getD_eq_getD_getElem?, hnone]
  | _ => rfl

/-- As many containers inside each other as there are, and one more, are enough for a value in which none contains itself. -/
theorem nests (h : w.contents.Grounded v) : w.contents.Nests (w.contents.count + 1) v := by
  have hnests := h.nests (S := w.containers) fun u _ hu => mem_containers.2 (contains_of_parts hu)
  exact hnests.mono (Nat.succ_le_succ w.card_containers)

end World

end LiveBindings
