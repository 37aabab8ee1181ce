import LiveBindings.Proofs.Limit
import LiveBindings.Proofs.Nesting
import LiveBindings.Proofs.Wire

/-!
# Containers that are made

A world grows (`World.Grows`) when containers are made in it and nothing else happens. What was made in one part of a run is there in
the next, so that the containers of all parts are different (`World.Fresh.append`).

An object may be made with its entries or be given them one by one. While nobody listens to it, and where changes are not refused, the
one comes to the same as the other (`ObjectId.create_filled`).
-/

namespace LiveBindings

variable {κ ε : Type}

/-! ## Worlds that grow -/

namespace Contents

/-- A container holds in `c'` what it holds in `c`. -/
def Agree (c c' : Contents) : Value → Prop
  | .list l => c'.items l = c.items l
  | .object o => c'.entries o = c.entries o
  | _ => True

end Contents

/-- Nothing happened but that containers were made. -/
structure World.Grows (w w' : World κ ε) : Prop where
  lists : w.lists.size ≤ w'.lists.size
  objects : w.objects.size ≤ w'.objects.size
  listCell : ∀ l : ListId, l.index < w.lists.size → w'.listCell l = w.listCell l
  objectCell : ∀ o : ObjectId, o.index < w.objects.size → w'.objectCell o = w.objectCell o
  nextListener : w'.nextListener = w.nextListener
  depth : w'.depth = w.depth
  config : w'.config = w.config
  held : w'.held = w.held
  env : w'.env = w.env

/-- Different containers were made, and nothing else happened. -/
structure World.Fresh (w w' : World κ ε) (cs : List Value) : Prop where
  grows : w.Grows w'
  nodup : cs.Nodup
  fresh : ∀ u ∈ cs, ¬w.Contains u ∧ w'.Contains u

namespace World

variable {w w' w'' : World κ ε} {cs cs' : List Value} {u : Value}

namespace Grows

theorem refl (w : World κ ε) : w.Grows w :=
  ⟨Nat.le_refl _, Nat.le_refl _, fun _ _ => rfl, fun _ _ => rfl, rfl, rfl, rfl, rfl, rfl⟩

theorem trans (h : w.Grows w') (h' : w'.Grows w'') : w.Grows w'' where
  lists := Nat.le_trans h.lists h'.lists
  objects := Nat.le_trans h.objects h'.objects
  listCell l hl := (h'.listCell l (Nat.lt_of_lt_of_le hl h.lists)).trans (h.listCell l hl)
  objectCell o ho := (h'.objectCell o (Nat.lt_of_lt_of_le ho h.objects)).trans (h.objectCell o ho)
  nextListener := h'.nextListener.trans h.nextListener
  depth := h'.depth.trans h.depth
  config := h'.config.trans h.config
  held := h'.held.trans h.held
  env := h'.env.trans h.env

theorem contains (h : w.Grows w') (hu : w.Contains u) : w'.Contains u := by
  cases u with
  | list l => exact Nat.lt_of_lt_of_le hu h.lists
  | object o => exact Nat.lt_of_lt_of_le hu h.objects
  | _ => exact hu

theorem agree (h : w.Grows w') (hu : w.Contains u) : w.contents.Agree w'.contents u := by
  cases u with
  | list l => exact congrArg ListCell.items (h.listCell l hu)
  | object o => exact congrArg ObjectCell.entries (h.objectCell o hu)
  | _ => trivial

theorem refuses (h : w.Grows w') : w'.refuses = w.refuses := by
  rw [World.refuses, World.refuses, h.depth, h.config]

/-- One more list. -/
theorem pushList (w : World κ ε) (cell : ListCell κ) : w.Grows { w with lists := w.lists.push cell } where
  lists := by
    rw [Array.size_push]
    exact Nat.le_succ _
  objects := Nat.le_refl _
  listCell l hl := by
    simp only [World.listCell, Array.getD_eq_getD_getElem?, Array.getElem?_push, if_neg (Nat.ne_of_lt hl)]
  objectCell _ _ := rfl
  nextListener := rfl
  depth := rfl
  config := rfl
  held := rfl
  env := rfl

/-- One more object. -/
theorem pushObject (w : World κ ε) (cell : ObjectCell κ) : w.Grows { w with objects := w.objects.push cell } where
  lists := Nat.le_refl _
  objects := by
    rw [Array.size_push]
    exact Nat.le_succ _
  listCell _ _ := rfl
  objectCell o ho := by
    simp only [World.objectCell, Array.getD_eq_getD_getElem?, Array.getElem?_push, if_neg (Nat.ne_of_lt ho)]
  nextListener := rfl
  depth := rfl
  config := rfl
  held := rfl
  env := rfl

end Grows

namespace Fresh

theorem nil (w : World κ ε) : w.Fresh w [] := ⟨.refl w, List.nodup_nil, fun _ hu => absurd hu List.not_mem_nil⟩

/-- What is made first is there when the rest is made. -/
theorem append (h : w.Fresh w' cs) (h' : w'.Fresh w'' cs') : w.Fresh w'' (cs ++ cs') := by
  refine ⟨h.grows.trans h'.grows, List.nodup_append.2 ⟨h.nodup, h'.nodup, ?_⟩, ?_⟩
  · rintro u hu _ hu' rfl
    exact (h'.fresh u hu').1 (h.fresh u hu).2
  · intro u hu
    rcases List.mem_append.1 hu with hu | hu
    · exact ⟨(h.fresh u hu).1, h'.grows.contains (h.fresh u hu).2⟩
    · exact ⟨fun hold => (h'.fresh u hu).1 (h.grows.contains hold), (h'.fresh u hu).2⟩

/-- A container that is made last. -/
theorem container (h : w.Fresh w' cs) (grows : w'.Grows w'') (hnew : ¬w'.Contains u) (hmade : w''.Contains u) : w.Fresh w'' (u :: cs) := by
  refine ⟨h.grows.trans grows, List.nodup_cons.2 ⟨fun hu => hnew (h.fresh u hu).2, h.nodup⟩, ?_⟩
  intro x hx
  rcases List.mem_cons.1 hx with rfl | hx
  · exact ⟨fun hold => hnew (h.grows.contains hold), hmade⟩
  · exact ⟨(h.fresh x hx).1, grows.contains (h.fresh x hx).2⟩

/-- A list that is made last. -/
theorem list (h : w.Fresh w' cs) (items : List Value) :
    w.Fresh { w' with lists := w'.lists.push { items } } (.list ⟨w'.lists.size⟩ :: cs) ∧
      ({ w' with lists := w'.lists.push { items } } : World κ ε).contents.items ⟨w'.lists.size⟩ = items := by
  refine ⟨h.container (Grows.pushList w' _) (Nat.lt_irrefl _) ?_, ?_⟩
  · change w'.lists.size < (w'.lists.push { items }).size
    rw [Array.size_push]
    exact Nat.lt_succ_self _
  · simp [contents, listCell, Array.getD_eq_getD_getElem?]

/-- An object that is made last. -/
theorem object (h : w.Fresh w' cs) (entries : List (String × Value)) :
    w.Fresh { w' with objects := w'.objects.push { entries } } (.object ⟨w'.objects.size⟩ :: cs) ∧
      ({ w' with objects := w'.objects.push { entries } } : World κ ε).contents.entries ⟨w'.objects.size⟩ = entries := by
  refine ⟨h.container (Grows.pushObject w' _) (Nat.lt_irrefl _) ?_, ?_⟩
  · change w'.objects.size < (w'.objects.push { entries }).size
    rw [Array.size_push]
    exact Nat.lt_succ_self _
  · simp [contents, objectCell, Array.getD_eq_getD_getElem?]

/-- There are not more of them than containers. -/
theorem length_le (h : w.Fresh w' cs) : cs.length ≤ w'.contents.count := by
  have hsub : cs.toFinset ⊆ w'.containers := fun u hu => mem_containers.2 (h.fresh u (List.mem_toFinset.1 hu)).2
  rw [← List.toFinset_card_of_nodup h.nodup]
  exact (Finset.card_le_card hsub).trans w'.card_containers

end Fresh

end World

/-- Where changes are not refused they are made in silence at the limit of nested dispatches. -/
theorem World.skips {w : World κ ε} (hw : ¬w.refuses) (limit : w.config.maxDispatchDepth ≤ w.depth) :
    w.config.onDepthExceeded = .skip := by
  cases policy : w.config.onDepthExceeded with
  | skip => rfl
  | panic => exact absurd (by simp [refuses, limit, policy]) hw

/-- A dispatch in which nothing is done. -/
theorem nested_idle {w : World κ ε} (hw : ¬w.refuses) (container : Kind) :
    nested container (pure ()) (pure ()) w = .ok () w := by
  by_cases limit : w.config.maxDispatchDepth ≤ w.depth
  · exact nested_silent limit (World.skips hw limit)
  · unfold nested
    change (if _ then _ else _ : Run κ ε Unit) w = _
    rw [if_neg limit]
    rfl

/-! ## Objects that are filled entry by entry -/

/-- Assigns entries one by one. -/
def ObjectId.fill (R : Reactions κ ε) (o : ObjectId) : List (String × Value) → Run κ ε Unit
  | [] => return ()
  | (key, value) :: entries => do
    o.assign R key value
    o.fill R entries

section

variable {R : Reactions κ ε} {o : ObjectId} {w : World κ ε}

/-- Where changes are not refused, one of an object that nobody listens to is no more than the change. -/
theorem ObjectId.change_alone (hR : R.letGo = pure ()) (hw : ¬w.refuses) (hls : (w.objectCell o).listeners = []) (key : String)
    (old new : Value) (f : List (String × Value) → List (String × Value)) :
    o.change R key old new f w = .ok () (w.modifyObject o fun c => { c with entries := f c.entries }) := by
  by_cases limit : w.config.maxDispatchDepth ≤ w.depth
  · exact nested_silent limit (World.skips hw limit)
  · obtain ⟨⟨⟩, w', hrun, hset⟩ := Run.ends_iff.1 (ObjectId.change_unheard hR hls (Nat.not_le.1 limit) key old new f)
    rw [hrun, hset]

/-- A new key of an object that nobody listens to. -/
theorem ObjectId.assign_new (hR : R.letGo = pure ()) (hw : ¬w.refuses) (hls : (w.objectCell o).listeners = []) {key : String}
    {value : Value} (hkey : key ∉ (w.objectCell o).entries.map (·.1)) (hvalue : value ≠ .undefined) :
    o.assign R key value w = .ok () (w.modifyObject o fun c => { c with entries := Fields.put key value c.entries }) := by
  have hnone : Fields.get? key (w.objectCell o).entries = none := Fields.get?_eq_none_iff.2 hkey
  have hdefined : value.isUndefined = false := by
    cases value with
    | undefined => exact absurd rfl hvalue
    | _ => rfl
  have hread : ∀ f : List (String × Value) → Run κ ε Unit, (o.entries >>= f) w = f (w.objectCell o).entries w := fun _ => rfl
  unfold ObjectId.assign
  rw [hread]
  simp only [hnone, hdefined, Bool.false_eq_true, if_false]
  exact ObjectId.change_alone hR hw hls key _ value _

theorem World.modifyObject_modifyObject (w : World κ ε) (o : ObjectId) (f g : ObjectCell κ → ObjectCell κ) :
    (w.modifyObject o f).modifyObject o g = w.modifyObject o fun c => g (f c) := by
  have hcells : (w.objects.modify o.index f).modify o.index g = w.objects.modify o.index fun c => g (f c) := by
    apply Array.ext_getElem?
    intro i
    simp only [Array.getElem?_modify]
    split
    · rw [Option.map_map]
      rfl
    · rfl
  unfold World.modifyObject
  rw [hcells]

/-- Entries of different keys, assigned one by one to an object that nobody listens to, are put one after the other. -/
theorem ObjectId.fill_eq (hR : R.letGo = pure ()) (hw : ¬w.refuses) (ho : o.index < w.objects.size)
    (hls : (w.objectCell o).listeners = []) {entries : List (String × Value)}
    (hkeys : (((w.objectCell o).entries ++ entries).map (·.1)).Nodup) (hvalues : ∀ e ∈ entries, e.2 ≠ .undefined) :
    o.fill R entries w =
      .ok () (w.modifyObject o fun c => { c with entries := entries.foldl (fun fs e => Fields.put e.1 e.2 fs) c.entries }) := by
  induction entries generalizing w with
  | nil =>
    have hsame : w.objects.modify o.index (fun c => { c with entries := c.entries }) = w.objects := by
      apply Array.ext_getElem?
      intro i
      rw [Array.getElem?_modify]
      split
      · exact Option.map_id'
      · rfl
    unfold World.modifyObject
    simp only [List.foldl_nil, hsame]
    rfl
  | cons e entries ih =>
    obtain ⟨key, value⟩ := e
    have hkey : key ∉ (w.objectCell o).entries.map (·.1) := by
      rw [List.map_append, List.nodup_append] at hkeys
      intro hmem
      exact hkeys.2.2 key hmem key List.mem_cons_self rfl
    have hassign := ObjectId.assign_new hR hw hls hkey (hvalues _ List.mem_cons_self)
    have hcell := World.objectCell_modifyObject w o o fun c => { c with entries := Fields.put key value c.entries }
    rw [if_pos ⟨rfl, ho⟩] at hcell
    have hfill := ih (w := w.modifyObject o fun c => { c with entries := Fields.put key value c.entries }) hw
      (by rw [World.objects_size_modifyObject]; exact ho) (by rw [hcell]; exact hls)
      (by rw [hcell, Fields.put_of_notMem hkey, List.append_assoc]; exact hkeys)
      fun e he => hvalues e (List.mem_cons_of_mem _ he)
    unfold ObjectId.fill
    change EStateM.bind _ _ w = _
    rw [EStateM.bind, hassign]
    simp only [hfill, World.modifyObject_modifyObject]
    rfl

/-- An object that is made without entries and given them one by one comes out as one that is made with them. -/
theorem ObjectId.create_filled (hR : R.letGo = pure ()) (hw : ¬w.refuses) {entries : List (String × Value)}
    (hkeys : (entries.map (·.1)).Nodup) (hvalues : ∀ e ∈ entries, e.2 ≠ .undefined) :
    (do let o ← ObjectId.create []; o.fill R entries; return o) w = ObjectId.create entries w := by
  let w₁ : World κ ε := { w with objects := w.objects.push { entries := [] } }
  have hcell : w₁.objectCell ⟨w.objects.size⟩ = { entries := [] } := by
    simp [w₁, World.objectCell, Array.getD_eq_getD_getElem?]
  have hfill := ObjectId.fill_eq (R := R) (o := ⟨w.objects.size⟩) (w := w₁) hR hw
    (by simp only [w₁, Array.size_push]; exact Nat.lt_succ_self _) (by rw [hcell]) (by rw [hcell]; exact hkeys) hvalues
  have hlast : w₁.objects.modify w.objects.size (fun c => { c with entries := entries.foldl (fun fs e => Fields.put e.1 e.2 fs) c.entries }) =
      w.objects.push { entries := entries } := by
    have hentries : entries.foldl (fun fs e => Fields.put e.1 e.2 fs) [] = entries := Fields.ofList_nodup hkeys
    apply Array.ext_getElem?
    intro i
    simp only [w₁, Array.getElem?_modify, Array.getElem?_push]
    by_cases hi : w.objects.size = i
    · subst hi
      simp [hentries]
    · simp [hi, Ne.symm hi]
  change EStateM.bind _ _ w = _
  have hmade : (ObjectId.create [] : Run κ ε ObjectId) w = .ok ⟨w.objects.size⟩ w₁ := rfl
  rw [EStateM.bind, hmade]
  change EStateM.bind _ _ w₁ = _
  rw [EStateM.bind, hfill]
  unfold World.modifyObject
  rw [hlast]
  rfl

end

end LiveBindings
