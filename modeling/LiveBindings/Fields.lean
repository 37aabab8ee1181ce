/-!
# Named fields in insertion order

A list of pairs in which every name occurs once. A new name goes to the end; a known one keeps its place.
-/

namespace LiveBindings.Fields

variable {α : Type}

/-- The content of a field. -/
def get? (name : String) : List (String × α) → Option α
  | [] => none
  | (n, v) :: rest => if n = name then some v else get? name rest

/-- Whether there is a field of that name. -/
def has (name : String) (fs : List (String × α)) : Bool := (get? name fs).isSome

/-- Sets the content of a field. -/
def put (name : String) (value : α) : List (String × α) → List (String × α)
  | [] => [(name, value)]
  | (n, v) :: rest => if n = name then (n, value) :: rest else (n, v) :: put name value rest

/-- Removes a field; the others keep their order. -/
def erase (name : String) (fs : List (String × α)) : List (String × α) := fs.filter (·.1 != name)

/-- The fields of a list of assignments in order: a name stands where it first occurs and holds what it was last given. -/
def ofList (pairs : List (String × α)) : List (String × α) := pairs.foldl (fun fs p => put p.1 p.2 fs) []

@[simp] theorem get?_put_self (name : String) (value : α) (fs : List (String × α)) :
    get? name (put name value fs) = some value := by
  induction fs with
  | nil => simp [put, get?]
  | cons f rest ih =>
    obtain ⟨n, v⟩ := f
    by_cases h : n = name <;> simp [put, get?, h, ih]

@[simp] theorem get?_put_of_ne {name other : String} (h : other ≠ name) (value : α) (fs : List (String × α)) :
    get? other (put name value fs) = get? other fs := by
  induction fs with
  | nil => simp [put, get?, Ne.symm h]
  | cons f rest ih =>
    obtain ⟨n, v⟩ := f
    by_cases hn : n = name
    · subst hn
      simp [put, get?, Ne.symm h]
    · simp only [put, hn, if_false, get?, ih]

@[simp] theorem get?_erase_self (name : String) (fs : List (String × α)) : get? name (erase name fs) = none := by
  induction fs with
  | nil => rfl
  | cons f rest ih =>
    obtain ⟨n, v⟩ := f
    by_cases h : n = name
    · subst h
      simpa [erase] using ih
    · simpa [erase, h, get?] using ih

@[simp] theorem get?_erase_of_ne {name other : String} (h : other ≠ name) (fs : List (String × α)) :
    get? other (erase name fs) = get? other fs := by
  induction fs with
  | nil => rfl
  | cons f rest ih =>
    obtain ⟨n, v⟩ := f
    by_cases hn : n = name
    · subst hn
      simpa [erase, get?, Ne.symm h] using ih
    · simp only [erase, get?] at ih ⊢
      simp [hn, get?, ih]

variable {name : String} {fs : List (String × α)}

theorem get?_eq_none_iff : get? name fs = none ↔ name ∉ fs.map (·.1) := by
  induction fs with
  | nil => simp [get?]
  | cons f fs ih =>
    obtain ⟨n, v⟩ := f
    by_cases h : n = name
    · simp [get?, h]
    · simp [get?, h, Ne.symm h, ih]

/-- A name that no field has is erased already. -/
theorem erase_of_get?_none (h : get? name fs = none) : erase name fs = fs := by
  refine List.filter_eq_self.2 fun f hf => ?_
  have hne : f.1 ≠ name := fun he => get?_eq_none_iff.1 h (he ▸ List.mem_map_of_mem hf)
  simpa using hne

/-- The names after a field has been set. -/
theorem names_put (name : String) (value : α) (fs : List (String × α)) :
    (put name value fs).map (·.1) = if name ∈ fs.map (·.1) then fs.map (·.1) else fs.map (·.1) ++ [name] := by
  induction fs with
  | nil => simp [put]
  | cons f fs ih =>
    obtain ⟨n, v⟩ := f
    by_cases h : n = name
    · simp [put, h]
    · rw [put, if_neg h, List.map_cons, ih, List.map_cons]
      by_cases hm : name ∈ fs.map (·.1)
      · rw [if_pos hm, if_pos (List.mem_cons_of_mem _ hm)]
      · rw [if_neg hm, if_neg (by simpa [Ne.symm h] using hm), List.cons_append]

theorem nodup_put (h : (fs.map (·.1)).Nodup) (name : String) (value : α) : ((put name value fs).map (·.1)).Nodup := by
  rw [names_put]
  split
  · exact h
  · rename_i hn
    exact List.nodup_append.2 ⟨h, by simp, fun a ha b hb => by
      rintro rfl
      exact hn (List.mem_singleton.1 hb ▸ ha)⟩

/-- Fields chosen by their names. -/
theorem get?_filter (p : String → Bool) (name : String) (fs : List (String × α)) :
    get? name (fs.filter fun f => p f.1) = if p name then get? name fs else none := by
  induction fs with
  | nil => simp [get?]
  | cons f fs ih =>
    obtain ⟨n, v⟩ := f
    by_cases hn : n = name
    · subst hn
      by_cases hp : p n = true <;> simp [get?, hp, ih]
    · by_cases hp : p n = true <;> simp [get?, hp, hn, ih]

theorem mem_of_get? {value : α} (h : get? name fs = some value) : (name, value) ∈ fs := by
  induction fs with
  | nil => cases h
  | cons f fs ih =>
    obtain ⟨n, v⟩ := f
    by_cases hn : n = name
    · rw [get?, if_pos hn, Option.some.injEq] at h
      exact hn ▸ h ▸ List.mem_cons_self ..
    · rw [get?, if_neg hn] at h
      exact List.mem_cons_of_mem _ (ih h)

/-- A field of a list in which every name occurs once. -/
theorem get?_of_mem {value : α} (h : (fs.map (·.1)).Nodup) (hm : (name, value) ∈ fs) : get? name fs = some value := by
  induction fs with
  | nil => cases hm
  | cons f fs ih =>
    obtain ⟨n, v⟩ := f
    rw [List.map_cons, List.nodup_cons] at h
    rcases List.mem_cons.1 hm with hm | hm
    · cases hm
      simp [get?]
    · have hne : n ≠ name := fun he => h.1 (he ▸ List.mem_map_of_mem (f := (·.1)) hm)
      rw [get?, if_neg hne, ih h.2 hm]

end LiveBindings.Fields
