import LiveBindings.Proofs.Documents
import LiveBindings.Proofs.Nearest

/-!
# Members in ascending order

The members of a JSON object are kept in ascending order of their keys, one per key (`Json.Ascending`). Entries of an object, which
have different keys in any order, come out as the same members in that order (`Json.exists_ofMembers`). `Json.WellFormed` says what
JSON there is, and `Json.rounded` is a JSON value with every number as the double that it is read as.
-/

namespace LiveBindings

namespace Json

/-- Ascending, one member a key. -/
abbrev Ascending {α : Type} (ms : List (String × α)) : Prop := (ms.map (·.1)).Pairwise fun j k => Ord.compare j k = .lt

theorem Ascending.nodup {α : Type} {ms : List (String × α)} (h : Ascending ms) : (ms.map (·.1)).Nodup := by
  refine h.imp ?_
  rintro j k hlt rfl
  rw [Std.compare_self] at hlt
  cases hlt

theorem mem_insertMember {ms : List (String × Json)} (h : Ascending ms) (k : String) (v : Json) (m : String × Json) :
    m ∈ insertMember k v ms ↔ m = (k, v) ∨ (m ∈ ms ∧ m.1 ≠ k) := by
  induction ms with
  | nil => simp [insertMember]
  | cons e ms ih =>
    obtain ⟨j, u⟩ := e
    unfold Ascending at h
    rw [List.map_cons, List.pairwise_cons] at h
    have hrest : ∀ m ∈ ms, Ord.compare k j ≠ .gt → m.1 ≠ k := by
      rintro m hm hle rfl
      exact hle (Std.OrientedCmp.gt_of_lt (h.1 m.1 (List.mem_map_of_mem hm)))
    unfold insertMember
    cases hc : Ord.compare k j with
    | lt =>
      have hne : j ≠ k := by
        rintro rfl
        rw [Std.compare_self] at hc
        cases hc
      simp only [List.mem_cons]
      constructor
      · rintro (h | rfl | hm)
        · exact .inl h
        · exact .inr ⟨.inl rfl, hne⟩
        · exact .inr ⟨.inr hm, hrest m hm (by rw [hc]; exact Ordering.noConfusion)⟩
      · rintro (h | ⟨h, -⟩)
        · exact .inl h
        · exact .inr h
    | eq =>
      have heq : k = j := Std.LawfulEqOrd.eq_of_compare hc
      subst heq
      simp only [List.mem_cons]
      constructor
      · rintro (h | hm)
        · exact .inl h
        · exact .inr ⟨.inr hm, hrest m hm (by rw [hc]; exact Ordering.noConfusion)⟩
      · rintro (h | ⟨rfl | hm, hne⟩)
        · exact .inl h
        · exact absurd rfl hne
        · exact .inr hm
    | gt =>
      have hne : j ≠ k := by
        rintro rfl
        rw [Std.compare_self] at hc
        cases hc
      simp only [List.mem_cons, ih h.2]
      constructor
      · rintro (rfl | h | ⟨hm, hne'⟩)
        · exact .inr ⟨.inl rfl, hne⟩
        · exact .inl h
        · exact .inr ⟨.inr hm, hne'⟩
      · rintro (h | ⟨h | hm, hne'⟩)
        · exact .inr (.inl h)
        · exact .inl h
        · exact .inr (.inr ⟨hm, hne'⟩)

theorem ascending_insertMember {ms : List (String × Json)} (h : Ascending ms) (k : String) (v : Json) :
    Ascending (insertMember k v ms) := by
  induction ms with
  | nil => simp [insertMember, Ascending]
  | cons e ms ih =>
    obtain ⟨j, u⟩ := e
    have hcons := h
    unfold Ascending at h
    rw [List.map_cons, List.pairwise_cons] at h
    unfold insertMember
    cases hc : Ord.compare k j with
    | lt =>
      refine List.pairwise_cons.2 ⟨?_, hcons⟩
      intro i hi
      rcases List.mem_cons.1 hi with rfl | hi
      · exact hc
      · exact Std.TransCmp.lt_trans hc (h.1 i hi)
    | eq =>
      have heq : k = j := Std.LawfulEqOrd.eq_of_compare hc
      subst heq
      exact hcons
    | gt =>
      refine List.pairwise_cons.2 ⟨?_, ih h.2⟩
      intro i hi
      obtain ⟨m, hm, rfl⟩ := List.mem_map.1 hi
      rcases (mem_insertMember h.2 k v m).1 hm with rfl | ⟨hm, -⟩
      · exact Std.OrientedCmp.lt_of_gt hc
      · exact h.1 m.1 (List.mem_map_of_mem hm)

theorem foldl_insertMember_mem {es acc : List (String × Json)} (hacc : Ascending acc) (hes : (es.map (·.1)).Nodup) :
    Ascending (es.foldl (fun acc m => insertMember m.1 m.2 acc) acc) ∧
      ∀ m, m ∈ es.foldl (fun acc m => insertMember m.1 m.2 acc) acc ↔ m ∈ es ∨ (m ∈ acc ∧ m.1 ∉ es.map (·.1)) := by
  induction es generalizing acc with
  | nil =>
    refine ⟨hacc, fun m => ?_⟩
    simp
  | cons e es ih =>
    rw [List.map_cons, List.nodup_cons] at hes
    obtain ⟨hascending, hmem⟩ := ih (ascending_insertMember hacc e.1 e.2) hes.2
    refine ⟨hascending, fun m => ?_⟩
    rw [List.foldl_cons, hmem, mem_insertMember hacc]
    simp only [List.map_cons, List.mem_cons, not_or]
    constructor
    · rintro (hm | ⟨rfl | ⟨hm, hne⟩, hnot⟩)
      · exact .inl (.inr hm)
      · exact .inl (.inl rfl)
      · exact .inr ⟨hm, hne, hnot⟩
    · rintro ((rfl | hm) | ⟨hm, hne, hnot⟩)
      · exact .inr ⟨.inl rfl, hes.1⟩
      · exact .inl hm
      · exact .inr ⟨.inr ⟨hm, hne⟩, hnot⟩

/-- Members of which no two have one key are put in ascending order. -/
theorem exists_ofMembers {es : List (String × Json)} (h : (es.map (·.1)).Nodup) :
    ∃ ms, ofMembers es = object ms ∧ Ascending ms ∧ ∀ m, m ∈ ms ↔ m ∈ es := by
  have hnone : Ascending ([] : List (String × Json)) := List.Pairwise.nil
  obtain ⟨hascending, hmem⟩ := foldl_insertMember_mem hnone h
  refine ⟨_, rfl, hascending, fun m => ?_⟩
  rw [hmem]
  simp

/-! ## JSON that there is, and its numbers as doubles -/

mutual

/-- The numbers are in range, and the members of every object are in ascending order, one per key. -/
def WellFormed : Json → Prop
  | number n => n.InRange
  | array js => WellFormedItems js
  | object ms => Ascending ms ∧ WellFormedMembers ms
  | _ => True

def WellFormedItems : List Json → Prop
  | [] => True
  | j :: js => j.WellFormed ∧ WellFormedItems js

def WellFormedMembers : List (String × Json) → Prop
  | [] => True
  | (_, j) :: ms => j.WellFormed ∧ WellFormedMembers ms

end

mutual

/-- Every number is replaced by the double that it is read as. -/
def rounded : Json → Json
  | number n => number (.float n.toNumber)
  | array js => array (roundedItems js)
  | object ms => object (roundedMembers ms)
  | j => j

def roundedItems : List Json → List Json
  | [] => []
  | j :: js => j.rounded :: roundedItems js

def roundedMembers : List (String × Json) → List (String × Json)
  | [] => []
  | (k, j) :: ms => (k, j.rounded) :: roundedMembers ms

end

theorem keys_roundedMembers (ms : List (String × Json)) : (roundedMembers ms).map (·.1) = ms.map (·.1) := by
  induction ms with
  | nil => rfl
  | cons m ms ih =>
    obtain ⟨k, j⟩ := m
    rw [roundedMembers, List.map_cons, List.map_cons, ih]

end Json

end LiveBindings
