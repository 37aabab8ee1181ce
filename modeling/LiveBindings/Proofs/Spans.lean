import LiveBindings.Collection.Block
import LiveBindings.Proofs.Report

/-!
# Replacing a span by what differs

The edit found between the items of a span and the next ones (`spanEdit`) leaves a common start and a common end of them in
place. `spanEdit_same` says that what comes out cannot be told from the next items, and `replaceRun_span` that the same holds
where the span is a part of a longer list.
-/

namespace LiveBindings

/-! ## Items that cannot be told apart -/

/-- As many items, each the same as the other one at its place. -/
abbrev SameItems : List Value → List Value → Prop := List.Forall₂ fun v v' => v.same v' = true

namespace SameItems

variable {as as' bs bs' cs : List Value}

theorem refl (as : List Value) : SameItems as as := Value.sameAll_refl as

theorem symm (h : SameItems as bs) : SameItems bs as := h.flip.imp fun _ _ => Value.same_symm

theorem trans (h : SameItems as bs) (h' : SameItems bs cs) : SameItems as cs := by
  induction h generalizing cs with
  | nil => exact h'
  | cons hab _ ih =>
    cases h' with
    | cons hbc hrest => exact .cons (Value.same_trans hab hbc) (ih hrest)

theorem append (h : SameItems as bs) (h' : SameItems as' bs') : SameItems (as ++ as') (bs ++ bs') := List.rel_append h h'

theorem take (n : Nat) (h : SameItems as bs) : SameItems (as.take n) (bs.take n) := List.forall₂_take n h

theorem drop (n : Nat) (h : SameItems as bs) : SameItems (as.drop n) (bs.drop n) := List.forall₂_drop n h

theorem reverse (h : SameItems as bs) : SameItems as.reverse bs.reverse := List.rel_reverse h

/-- Lists can be told apart from everything else. -/
theorem eq_lists {α : Type} {f : α → ListId} {xs : List α} (h : SameItems as (xs.map (Value.list <| f ·))) :
    as = xs.map (Value.list <| f ·) := by
  induction xs generalizing as with
  | nil =>
    cases h
    rfl
  | cons x xs ih =>
    cases h with
    | cons ha hrest => rw [List.map_cons, Value.eq_of_same_list (Value.same_symm ha), ih hrest]

/-- One item gives way to one that cannot be told from it. -/
theorem set {i : Nat} {v v' : Value} (hi : as[i]? = some v) (h : v.same v' = true) : SameItems as (as.set i v') := by
  induction as generalizing i with
  | nil => cases hi
  | cons a as ih =>
    cases i with
    | zero =>
      cases hi
      exact .cons h (SameItems.refl as)
    | succ i => exact .cons (Value.same_refl a) (ih hi)

theorem set_congr (h : SameItems as bs) (i : Nat) (v : Value) : SameItems (as.set i v) (bs.set i v) := by
  induction h generalizing i with
  | nil => exact .nil
  | cons hab hrest ih =>
    cases i with
    | zero => exact .cons (Value.same_refl v) hrest
    | succ i => exact .cons hab (ih i)

theorem replaceRun (h : SameItems as bs) (index remove : Nat) (h' : SameItems as' bs') :
    SameItems (replaceRun as index remove as') (replaceRun bs index remove bs') :=
  ((h.take _).append h').append (h.drop _)

end SameItems

/-! ## One item in place of another -/

section

variable {α β : Type} {f : α → β} {xs : List α} {i j : Nat} {x y z : α}

/-- A function that does not tell an item from the one in its place does not tell the lists apart. -/
theorem map_set_same (hi : xs[i]? = some x) (hf : f y = f x) : (xs.set i y).map f = xs.map f := by
  have hat : (xs.map f)[i]? = some (f y) := by rw [List.getElem?_map, hi, Option.map_some, hf]
  obtain ⟨hlt, hget⟩ := List.getElem?_eq_some_iff.1 hat
  rw [List.map_set, ← hget, List.set_getElem_self]

/-- After an item has given way to another, what is found is the other one in its place, or an item that is known apart from it. -/
theorem getElem?_set_cases (hnodup : (xs.map f).Nodup) (hi : xs[i]? = some x) (hj : (xs.set i y)[j]? = some z) :
    (j = i ∧ z = y) ∨ (xs[j]? = some z ∧ f z ≠ f x) := by
  rw [List.getElem?_set] at hj
  split at hj
  · rename_i hij
    split at hj
    · exact .inl ⟨hij.symm, (Option.some.inj hj).symm⟩
    · cases hj
  · rename_i hij
    refine .inr ⟨hj, fun he => hij ?_⟩
    have hj' : (xs.map f)[j]? = some (f x) := by rw [List.getElem?_map, hj, Option.map_some, he]
    have hi' : (xs.map f)[i]? = some (f x) := by rw [List.getElem?_map, hi, Option.map_some]
    exact (List.getElem?_inj (List.getElem?_eq_some_iff.1 hi').1 hnodup).1 (hi'.trans hj'.symm)

end

/-! ## Items in and out -/

section

variable {α β : Type} {f : α → β} {before run after fresh : List α} {x : α}

theorem nodup_map_remove (h : ((before ++ (run ++ after)).map f).Nodup) : ((before ++ after).map f).Nodup :=
  h.sublist (((List.sublist_append_right run after).append_left before).map f)

theorem nodup_map_run (h : ((before ++ (run ++ after)).map f).Nodup) : (run.map f).Nodup :=
  h.sublist (((List.sublist_append_left run after).trans (List.sublist_append_right before _)).map f)

/-- What stays when a run is taken out is known apart from what goes. -/
theorem notMem_map_run (h : ((before ++ (run ++ after)).map f).Nodup) (hx : x ∈ before ++ after) : f x ∉ run.map f := by
  intro hrun
  simp only [List.map_append, List.nodup_append] at h
  rcases List.mem_append.1 hx with hx | hx
  · exact h.2.2 _ (List.mem_map_of_mem hx) _ (List.mem_append_left _ hrun) rfl
  · exact h.2.1.2.2 _ hrun _ (List.mem_map_of_mem hx) rfl

/-- Items that are known apart from each other and from all that there are may be put in. -/
theorem nodup_map_insert (h : ((before ++ after).map f).Nodup) (hfresh : (fresh.map f).Nodup)
    (hne : ∀ x ∈ before ++ after, ∀ y ∈ fresh, f x ≠ f y) : ((before ++ (fresh ++ after)).map f).Nodup := by
  have hapart : ∀ a ∈ (before ++ after).map f, ∀ b ∈ fresh.map f, a ≠ b := by
    rintro _ ha _ hb rfl
    obtain ⟨x, hx, hxa⟩ := List.mem_map.1 ha
    obtain ⟨y, hy, hya⟩ := List.mem_map.1 hb
    exact hne x hx y hy (hxa.trans hya.symm)
  simp only [List.map_append, List.nodup_append, List.mem_append] at h hapart ⊢
  refine ⟨h.1, ⟨hfresh, h.2.1, fun a ha b hb he => hapart b (.inr hb) a ha he.symm⟩, fun a ha b hb => ?_⟩
  exact hb.elim (hapart a (.inl ha) b) (h.2.2 a ha b)

end

/-! ## Runs -/

/-- A run of a list, cut off at the length: what is before it, in it and after it. -/
structure Cut {α : Type} (xs : List α) (index removed : Nat) (before run after : List α) : Prop where
  parts : xs = before ++ (run ++ after)
  start : min index xs.length = before.length
  stop : min (before.length + removed) xs.length = (before ++ run).length

namespace Cut

variable {α : Type} {xs before run after : List α} {index removed : Nat}

theorem exists_cut (xs : List α) (index removed : Nat) : ∃ before run after, Cut xs index removed before run after := by
  refine ⟨xs.take (min index xs.length), (xs.drop (min index xs.length)).take removed, xs.drop (min index xs.length + removed),
    ?_, ?_, ?_⟩
  · rw [← List.drop_drop, List.take_append_drop, List.take_append_drop]
  · simp
  · simp only [List.length_append, List.length_take, List.length_drop]
    omega

theorem take (h : Cut xs index removed before run after) : xs.take index = before := by
  rw [List.take_eq_take_min, h.start, h.parts, List.take_left]

theorem drop (h : Cut xs index removed before run after) : xs.drop (index + removed) = after := by
  have hstop : min (index + removed) xs.length = min (before ++ run).length xs.length := by
    have hstart := h.start
    have hstop := h.stop
    omega
  rw [List.drop_eq_drop_iff.2 hstop, h.parts, ← List.append_assoc, List.drop_left]

theorem run_eq (h : Cut xs index removed before run after) : (xs.take (before ++ run).length).drop before.length = run := by
  rw [h.parts, ← List.append_assoc, List.take_left, List.drop_left]

theorem after_eq (h : Cut xs index removed before run after) : xs.drop (before ++ run).length = after := by
  rw [h.parts, ← List.append_assoc, List.drop_left]

/-- What was cut out leaves its place where it was. -/
theorem rest (h : Cut xs index removed before run after) : min index (before ++ after).length = before.length := by
  have hstart := h.start
  have hstop := h.stop
  simp only [h.parts, List.length_append] at hstart hstop ⊢
  omega

end Cut

variable {items plus : List Value} {index index' remove remove' : Nat}

/-- A replacement depends on where its run begins and ends only as far as that is within the items. -/
theorem replaceRun_congr (hi : min index items.length = min index' items.length)
    (hs : min (index + remove) items.length = min (index' + remove') items.length) :
    replaceRun items index remove plus = replaceRun items index' remove' plus := by
  rw [replaceRun, replaceRun, List.take_eq_take_iff.2 hi, List.drop_eq_drop_iff.2 hs]

theorem replaceCut_eq (items : List Value) (index removed : Nat) (plus : List Value) :
    replaceCut items index removed plus = replaceRun items index removed plus := by
  unfold replaceCut
  exact replaceRun_congr (by omega) (by omega)

/-- A run within the middle part of some items. -/
theorem replaceRun_middle {before middle after : List Value} (h : index + remove ≤ middle.length) :
    replaceRun (before ++ middle ++ after) (before.length + index) remove plus =
      before ++ replaceRun middle index remove plus ++ after := by
  simp only [replaceRun, List.append_assoc, Nat.add_assoc, List.take_length_add_append, List.drop_length_add_append]
  rw [List.take_append_of_le_length (by omega), List.drop_append_of_le_length h]

/-- Of three parts the middle one is replaced. -/
theorem replaceRun_parts (before middle after plus : List Value) :
    replaceRun (before ++ (middle ++ after)) before.length middle.length plus = before ++ (plus ++ after) := by
  rw [replaceRun, List.take_left, ← List.length_append, ← List.append_assoc, List.drop_left, List.append_assoc]

/-! ## The edit of a span -/

/-- The common start is the same in both lists. -/
theorem commonStart_spec (as bs : List Value) :
    commonStart as bs ≤ as.length ∧ commonStart as bs ≤ bs.length ∧
      SameItems (as.take (commonStart as bs)) (bs.take (commonStart as bs)) := by
  induction as generalizing bs with
  | nil => simp [commonStart]
  | cons a as ih =>
    cases bs with
    | nil => simp [commonStart]
    | cons b bs =>
      rw [commonStart]
      split
      · rename_i hab
        obtain ⟨has, hbs, h⟩ := ih bs
        exact ⟨Nat.succ_le_succ has, Nat.succ_le_succ hbs, .cons hab h⟩
      · simp

/-- The common end, found as the common start of the reversed lists, is the same in both. -/
theorem commonEnd_spec (as bs : List Value) :
    commonStart as.reverse bs.reverse ≤ as.length ∧ commonStart as.reverse bs.reverse ≤ bs.length ∧
      SameItems (as.drop (as.length - commonStart as.reverse bs.reverse))
        (bs.drop (bs.length - commonStart as.reverse bs.reverse)) := by
  obtain ⟨has, hbs, h⟩ := commonStart_spec as.reverse bs.reverse
  rw [List.length_reverse] at has hbs
  refine ⟨has, hbs, ?_⟩
  have h := h.reverse
  rwa [List.reverse_take, List.reverse_take, List.reverse_reverse, List.reverse_reverse, List.length_reverse,
    List.length_reverse] at h

/-- What is replaced lies within the current items. -/
theorem spanEdit_within (current next : List Value) :
    (spanEdit current next).start + (spanEdit current next).remove ≤ current.length := by
  have hfront := (commonStart_spec current next).1
  simp only [spanEdit]
  omega

/-- The edit turns the current items into ones that cannot be told from the next. -/
theorem spanEdit_same (current next : List Value) :
    SameItems (replaceRun current (spanEdit current next).start (spanEdit current next).remove (spanEdit current next).plus)
      next := by
  obtain ⟨hc, hn, hfront⟩ := commonStart_spec current next
  obtain ⟨hbc, hbn, hback⟩ := commonEnd_spec (current.drop (commonStart current next)) (next.drop (commonStart current next))
  simp only [spanEdit, replaceRun]
  generalize commonStart current next = front at *
  generalize commonStart (current.drop front).reverse (next.drop front).reverse = back at *
  rw [List.length_drop] at hbc hbn
  have hparts : next.take front ++ (next.take (next.length - back)).drop front ++ next.drop (next.length - back) = next := by
    have : next.take front = (next.take (next.length - back)).take front := by
      rw [List.take_take, Nat.min_eq_left (by omega)]
    rw [this, List.take_append_drop, List.take_append_drop]
  conv_rhs => rw [← hparts]
  refine (hfront.append (.refl _)).append ?_
  simp only [List.drop_drop, List.length_drop] at hback
  rwa [show front + (next.length - front - back) = next.length - back by omega] at hback

theorem commonStart_of_same {as bs : List Value} (h : SameItems as bs) : commonStart as bs = as.length := by
  induction h with
  | nil => rfl
  | cons hab _ ih => rw [commonStart, if_pos hab, ih, List.length_cons]

/-- Where nothing differs there is nothing to edit. -/
theorem spanEdit_of_same {current next : List Value} (h : SameItems current next) :
    spanEdit current next = ⟨current.length, 0, []⟩ := by
  simp [spanEdit, commonStart_of_same h, h.length_eq]

/-- The edit of a span, made in the items that the span is a part of. -/
theorem replaceRun_span (items next : List Value) (start length : Nat) :
    let edit := spanEdit ((items.take (start + length)).drop (min start (start + length))) next
    SameItems (replaceRun items (start + edit.start) edit.remove edit.plus) (replaceRun items start length next) := by
  intro edit
  have hmin : min start (start + length) = start := Nat.min_eq_left (Nat.le_add_right ..)
  have hwithin := spanEdit_within ((items.take (start + length)).drop (min start (start + length))) next
  have hsame := spanEdit_same ((items.take (start + length)).drop (min start (start + length))) next
  change edit.start + edit.remove ≤ _ at hwithin
  change SameItems (replaceRun _ edit.start edit.remove edit.plus) next at hsame
  rw [hmin] at hwithin hsame
  generalize hcurrent : (items.take (start + length)).drop start = current at hwithin hsame
  have hparts : items = items.take start ++ current ++ items.drop (start + length) := by
    have : items.take start = (items.take (start + length)).take start := by rw [List.take_take, hmin]
    rw [← hcurrent, this, List.take_append_drop, List.take_append_drop]
  have hlength : current.length = min (start + length) items.length - start := by
    rw [← hcurrent, List.length_drop, List.length_take]
  have hrun : replaceRun items (start + edit.start) edit.remove edit.plus =
      items.take start ++ replaceRun current edit.start edit.remove edit.plus ++ items.drop (start + length) := by
    rw [← replaceRun_middle hwithin, ← hparts, List.length_take]
    exact replaceRun_congr (by omega) (by omega)
  rw [hrun]
  exact ((SameItems.refl _).append hsame).append (.refl _)

end LiveBindings
