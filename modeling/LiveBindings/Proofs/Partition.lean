import LiveBindings.Proofs.Spans
import Mathlib.Data.List.Induction

/-!
# Partitioning by key

What grouping elements by their keys should come to: the keys in the order in which they first occur (`firsts`), each with the
elements that have it (`membersOf`). Keys are compared by `same`. `partitionByKey_eq` says that the partition that views compute
element by element is that one.
-/

namespace LiveBindings

/-- The values that are not the same as an earlier one. -/
def firsts : List Value → List Value
  | [] => []
  | k :: ks => k :: (firsts ks).filter fun k' => !k.same k'

/-- The elements with a key. -/
def membersOf (up latest : List Value) (k : Value) : List Value := ((up.zip latest).filter fun p => k.same p.2).map (·.1)

/-- The keys, each with the elements that have it. -/
def groupsBy (up latest : List Value) : List (Value × List Value) := (firsts latest).map fun k => (k, membersOf up latest k)

variable {keys latest latest' up : List Value} {k k' a : Value}

/-- A value at the end is a first one if it is not the same as any before it. -/
theorem firsts_concat (keys : List Value) (k : Value) :
    firsts (keys ++ [k]) = firsts keys ++ if (firsts keys).any (·.same k) then [] else [k] := by
  induction keys with
  | nil => simp [firsts]
  | cons a keys ih =>
    rw [List.cons_append, firsts, ih, List.filter_append, firsts, List.cons_append]
    congr 2
    by_cases hak : a.same k = true
    · rw [List.any_cons, hak, Bool.true_or, if_pos rfl]
      split <;> simp [hak]
    · have hkeep : ((firsts keys).filter fun k' => !a.same k').any (·.same k) = (firsts keys).any (·.same k) := by
        rw [List.any_filter, Bool.eq_iff_iff, List.any_eq_true, List.any_eq_true]
        refine exists_congr fun x => and_congr_right fun _ => ?_
        rw [Bool.and_eq_true, and_iff_right_iff_imp, Bool.not_eq_true']
        exact fun hx => Bool.eq_false_of_not_eq_true fun hax => hak (Value.same_trans hax hx)
      rw [List.any_cons, Bool.eq_false_of_not_eq_true hak, Bool.false_or, hkeep]
      split <;> simp [hak]

theorem mem_of_mem_firsts (h : a ∈ firsts keys) : a ∈ keys := by
  induction keys with
  | nil => exact h
  | cons k keys ih =>
    rw [firsts, List.mem_cons] at h
    exact h.elim (fun h => h ▸ List.mem_cons_self ..) fun h => List.mem_cons_of_mem _ (ih (List.mem_of_mem_filter h))

/-- No two of the first ones are the same. -/
theorem pairwise_firsts (keys : List Value) : (firsts keys).Pairwise fun a b => a.same b = false := by
  induction keys with
  | nil => exact .nil
  | cons k keys ih =>
    rw [firsts, List.pairwise_cons]
    exact ⟨fun b hb => by simpa using (List.mem_filter.1 hb).2, ih.filter _⟩

/-- Every value is the same as one of the first ones. -/
theorem exists_first (h : k ∈ keys) : ∃ a ∈ firsts keys, a.same k = true := by
  induction keys with
  | nil => cases h
  | cons b keys ih =>
    rw [firsts]
    rcases List.mem_cons.1 h with rfl | h
    · exact ⟨k, List.mem_cons_self .., Value.same_refl k⟩
    obtain ⟨a, ha, hak⟩ := ih h
    by_cases hba : b.same a = true
    · exact ⟨b, List.mem_cons_self .., Value.same_trans hba hak⟩
    · exact ⟨a, List.mem_cons_of_mem _ (List.mem_filter.2 ⟨ha, by simpa using hba⟩), hak⟩

/-- Two first ones that are the same are one. -/
theorem firsts_inj {i j : Nat} (hi : (firsts keys)[i]? = some a) (hj : (firsts keys)[j]? = some k) (h : a.same k = true) : i = j := by
  obtain ⟨hi', rfl⟩ := List.getElem?_eq_some_iff.1 hi
  obtain ⟨hj', rfl⟩ := List.getElem?_eq_some_iff.1 hj
  have hpair := List.pairwise_iff_getElem.1 (pairwise_firsts keys)
  rcases Nat.lt_trichotomy i j with hlt | heq | hgt
  · rw [hpair i j hi' hj' hlt] at h
    cases h
  · exact heq
  · rw [Value.same_comm, hpair j i hj' hi' hgt] at h
    cases h

/-- Exactly one of the first ones is the same as a value that there is. -/
theorem existsUnique_first (h : k ∈ keys) : ∃! i : Nat, ∃ a, (firsts keys)[i]? = some a ∧ a.same k = true := by
  obtain ⟨a, ha, hak⟩ := exists_first h
  obtain ⟨i, hi⟩ := List.getElem?_of_mem ha
  refine ⟨i, ⟨a, hi, hak⟩, fun j ⟨b, hj, hbk⟩ => ?_⟩
  exact firsts_inj hj hi (Value.same_trans hbk (Value.same_symm hak))

/-! ## Keys that cannot be told apart -/

theorem firsts_same (h : SameItems latest latest') : SameItems (firsts latest) (firsts latest') := by
  induction h with
  | nil => exact .nil
  | cons hab _ ih =>
    refine .cons hab (List.rel_filter (fun x y hxy => ?_) ih)
    change (!_) = true ↔ (!_) = true
    rw [Value.same_congr hab hxy]

theorem membersOf_same (hk : k.same k' = true) (h : SameItems latest latest') : membersOf up latest k = membersOf up latest' k' := by
  induction h generalizing up with
  | nil => simp [membersOf]
  | cons hab _ ih =>
    cases up with
    | nil => simp [membersOf]
    | cons v up =>
      have hsame := Value.same_congr hk hab
      have htail := @ih up
      simp only [membersOf, List.zip_cons_cons, List.filter_cons, hsame] at htail ⊢
      split <;> simp [htail]

theorem groupsBy_same (h : SameItems latest latest') :
    List.Forall₂ (fun g g' => g.1.same g'.1 = true ∧ g.2 = g'.2) (groupsBy up latest) (groupsBy up latest') := by
  rw [groupsBy, groupsBy, List.forall₂_map_left_iff, List.forall₂_map_right_iff]
  exact (firsts_same h).imp fun k k' hk => ⟨hk, membersOf_same hk h⟩

/-! ## The partition -/

theorem membersOf_concat (h : up.length = latest.length) (v u : Value) :
    membersOf (up ++ [v]) (latest ++ [u]) k = membersOf up latest k ++ if k.same u then [v] else [] := by
  rw [membersOf, membersOf, List.zip_append h, List.filter_append, List.map_append]
  by_cases hk : k.same u = true <;> simp [hk]

/-- Adding an element to groups of which no two have the same key: it joins the group of its key, or starts a new one. -/
theorem add_map (members : Value → List Value) (v u : Value) (keys : List Value) (h : keys.Pairwise fun a b => a.same b = false) :
    partitionByKey.add (keys.map fun k => (k, members k)) (v, u) =
      (keys.map fun k => (k, members k ++ if k.same u then [v] else [])) ++ if keys.any (·.same u) then [] else [(u, [v])] := by
  induction keys with
  | nil => simp [partitionByKey.add]
  | cons k keys ih =>
    rw [List.pairwise_cons] at h
    rw [List.map_cons, partitionByKey.add]
    by_cases hk : k.same u = true
    · have hrest : (keys.map fun k => (k, members k ++ if k.same u then [v] else [])) = keys.map fun k => (k, members k) := by
        refine List.map_congr_left fun a ha => ?_
        have hau : a.same u = false := Bool.eq_false_of_not_eq_true fun hau => by
          have := h.1 a ha
          rw [Value.same_trans hk (Value.same_symm hau)] at this
          cases this
        simp [hau]
      rw [if_pos hk, List.map_cons, hrest, List.any_cons, hk]
      simp
    · rw [if_neg hk, ih h.2, List.map_cons, List.any_cons, Bool.eq_false_of_not_eq_true hk, Bool.false_or]
      simp

/-- The partition has the first keys, each with the elements that have it. -/
theorem partitionByKey_eq (h : up.length = latest.length) : partitionByKey (up.zip latest) = groupsBy up latest := by
  induction latest using List.reverseRecOn generalizing up with
  | nil => simp [partitionByKey, groupsBy, firsts]
  | append_singleton latest u ih =>
    rcases List.eq_nil_or_concat up with rfl | ⟨up, v, rfl⟩
    · simp at h
    have hlen : up.length = latest.length := by simpa using h
    rw [List.concat_eq_append, List.zip_append hlen, partitionByKey, List.foldl_append]
    have hgroups : (up.zip latest).foldl partitionByKey.add [] = groupsBy up latest := ih hlen
    rw [hgroups, List.zip_cons_cons, List.zip_nil_right, List.foldl_cons, List.foldl_nil, groupsBy, groupsBy,
      add_map _ v u _ (pairwise_firsts latest), firsts_concat, List.map_append]
    congr 1
    · exact List.map_congr_left fun k _ => by rw [membersOf_concat hlen]
    · split
      · rfl
      · rename_i hnew
        have hnone : membersOf up latest u = [] := by
          simp only [membersOf, List.map_eq_nil_iff, List.filter_eq_nil_iff]
          rintro ⟨x, y⟩ hxy hu
          obtain ⟨a, ha, hay⟩ := exists_first (List.of_mem_zip hxy).2
          exact hnew (List.any_eq_true.2 ⟨a, ha, Value.same_trans hay (Value.same_symm hu)⟩)
        simp [membersOf_concat hlen, hnone]

end LiveBindings
