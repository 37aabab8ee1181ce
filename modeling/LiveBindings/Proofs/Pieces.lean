import LiveBindings.Proofs.Layout
import LiveBindings.Proofs.Leads

/-!
# What the basic operations do to pieces

One lemma for every operation on cells and listeners: which pieces it works on, and what becomes of them. Each has the form
of a step in a longer computation: what comes next may be shown for any world of which the description holds.
-/

namespace LiveBindings

theorem replaceRun_length {items : List Value} {index remove : Nat} (h : index + remove ≤ items.length)
    (plus : List Value) : (replaceRun items index remove plus).length = items.length - remove + plus.length := by
  simp only [replaceRun, List.length_append, List.length_take, List.length_drop]
  omega

section

variable {κ ε : Type}

namespace World

theorem listCell_modifyList (w : World κ ε) (l l' : ListId) (f : ListCell κ → ListCell κ) :
    (w.modifyList l f).listCell l' = if l' = l ∧ l.index < w.lists.size then f (w.listCell l) else w.listCell l' := by
  obtain ⟨i⟩ := l
  obtain ⟨j⟩ := l'
  simp only [listCell, modifyList, Array.getD_eq_getD_getElem?, Array.getElem?_modify, ListId.mk.injEq]
  by_cases h : j = i
  · subst h
    by_cases hs : j < w.lists.size
    · simp [hs]
    · simp [hs]
  · simp [h, Ne.symm h]

theorem objectCell_modifyObject (w : World κ ε) (o o' : ObjectId) (f : ObjectCell κ → ObjectCell κ) :
    (w.modifyObject o f).objectCell o' =
      if o' = o ∧ o.index < w.objects.size then f (w.objectCell o) else w.objectCell o' := by
  obtain ⟨i⟩ := o
  obtain ⟨j⟩ := o'
  simp only [objectCell, modifyObject, Array.getD_eq_getD_getElem?, Array.getElem?_modify, ObjectId.mk.injEq]
  by_cases h : j = i
  · subst h
    by_cases hs : j < w.objects.size
    · simp [hs]
    · simp [hs]
  · simp [h, Ne.symm h]

@[simp] theorem listCell_modifyObject (w : World κ ε) (o : ObjectId) (f : ObjectCell κ → ObjectCell κ) (l : ListId) :
    (w.modifyObject o f).listCell l = w.listCell l := rfl

@[simp] theorem objectCell_modifyList (w : World κ ε) (l : ListId) (f : ListCell κ → ListCell κ) (o : ObjectId) :
    (w.modifyList l f).objectCell o = w.objectCell o := rfl

@[simp] theorem lists_size_modifyList (w : World κ ε) (l : ListId) (f : ListCell κ → ListCell κ) :
    (w.modifyList l f).lists.size = w.lists.size := by simp [modifyList]

@[simp] theorem objects_size_modifyObject (w : World κ ε) (o : ObjectId) (f : ObjectCell κ → ObjectCell κ) :
    (w.modifyObject o f).objects.size = w.objects.size := by simp [modifyObject]

/-- A change of a list that leaves its items leaves the contents. -/
theorem contents_modifyList {w : World κ ε} {l : ListId} {f : ListCell κ → ListCell κ} (h : ∀ c, (f c).items = c.items) :
    (w.modifyList l f).contents = w.contents := by
  have hi : ∀ l', ((w.modifyList l f).listCell l').items = (w.listCell l').items := by
    intro l'
    rw [listCell_modifyList]
    split
    · rename_i hl
      rw [h, hl.1]
    · rfl
  simp [World.contents, hi]
  rfl

/-- A change of an object that leaves its entries leaves the contents. -/
theorem contents_modifyObject {w : World κ ε} {o : ObjectId} {f : ObjectCell κ → ObjectCell κ}
    (h : ∀ c, (f c).entries = c.entries) : (w.modifyObject o f).contents = w.contents := by
  have hi : ∀ o', ((w.modifyObject o f).objectCell o').entries = (w.objectCell o').entries := by
    intro o'
    rw [objectCell_modifyObject]
    split
    · rename_i ho
      rw [h, ho.1]
    · rfl
  simp [World.contents, hi]
  rfl

end World

/-! ## Reading containers -/

section

variable {w : World κ ε}

@[simp] theorem ends_contents (Q : Contents → World κ ε → Prop) :
    (contents : Run κ ε Contents).Ends w Q ↔ Q w.contents w := Iff.rfl

@[simp] theorem ObjectId.ends_entries (o : ObjectId) (Q : List (String × Value) → World κ ε → Prop) :
    (o.entries : Run κ ε _).Ends w Q ↔ Q (w.contents.entries o) w := Iff.rfl

@[simp] theorem ObjectId.ends_get (o : ObjectId) (name : String) (Q : Value → World κ ε → Prop) :
    (o.get name : Run κ ε _).Ends w Q ↔ Q ((Fields.get? name (w.contents.entries o)).getD .undefined) w := Iff.rfl

@[simp] theorem ObjectId.ends_has (o : ObjectId) (name : String) (Q : Bool → World κ ε → Prop) :
    (o.has name : Run κ ε _).Ends w Q ↔ Q (Fields.has name (w.contents.entries o)) w := Iff.rfl

@[simp] theorem ListId.ends_items (l : ListId) (Q : List Value → World κ ε → Prop) :
    (l.items : Run κ ε _).Ends w Q ↔ Q (w.contents.items l) w := Iff.rfl

@[simp] theorem ListId.ends_get (l : ListId) (index : Nat) (Q : Value → World κ ε → Prop) :
    (l.get index : Run κ ε _).Ends w Q ↔ Q ((w.contents.items l).getD index .undefined) w := Iff.rfl

@[simp] theorem ListId.ends_length (l : ListId) (Q : Nat → World κ ε → Prop) :
    (l.length : Run κ ε _).Ends w Q ↔ Q (w.contents.items l).length w := Iff.rfl

@[simp] theorem ListId.ends_contains (l : ListId) (v : Value) (Q : Bool → World κ ε → Prop) :
    (l.contains v : Run κ ε _).Ends w Q ↔ Q (v.memberOf (w.contents.items l)) w := Iff.rfl

@[simp] theorem ListId.ends_listeners (l : ListId) (topic : ListTopic)
    (Q : List (Listener ListTopic κ) → World κ ε → Prop) :
    (l.listeners topic : Run κ ε _).Ends w Q ↔ Q (Listeners.on topic (w.listCell l).listeners) w := Iff.rfl

@[simp] theorem ObjectId.ends_listeners (o : ObjectId) (topic : ObjectTopic)
    (Q : List (Listener ObjectTopic κ) → World κ ε → Prop) :
    (o.listeners topic : Run κ ε _).Ends w Q ↔ Q (Listeners.on topic (w.objectCell o).listeners) w := Iff.rfl

end

end

variable {π σ : Type} {N : Post π → Prop} {w : World (Callback π) (Env π σ)}

@[simp] theorem ends_cells (Q : Cells π → World (Callback π) (Env π σ) → Prop) :
    (cells : Live π σ (Cells π)).Ends w Q ↔ Q w.layout.cells w := Iff.rfl

/-- The world with other cells. -/
def World.withCells (w : World (Callback π) (Env π σ)) (c : Cells π) : World (Callback π) (Env π σ) :=
  { w with env := { w.env with cells := c } }

@[simp] theorem leads_cells {Q : Cells π → World (Callback π) (Env π σ) → Prop} :
    (cells : Live π σ _).Leads w Q ↔ Q w.env.cells w := Iff.rfl

@[simp] theorem leads_modifyCells {f : Cells π → Cells π} {Q : PUnit → World (Callback π) (Env π σ) → Prop} :
    (modifyCells f : Live π σ _).Leads w Q ↔ Q ⟨⟩ (w.withCells (f w.env.cells)) := Iff.rfl

/-! ## Cells -/

namespace Layout

/-- The state of a slot. -/
def slotIs (K : Layout π) (s : Ref .slot) (c : Slot π) : Prop := K.cells.slots[s.index]? = some c

/-- The state of a row of arguments. -/
def rowIs (K : Layout π) (r : Ref .args) (c : ArgsCell) : Prop := K.cells.args[r.index]? = some c

/-- The last value passed on. -/
def lastIs (K : Layout π) (r : Ref .last) (v : Option Value) : Prop := K.cells.lasts[r.index]? = some v

/-- The state of a flag. -/
def flagIs (K : Layout π) (r : Ref .flag) (b : Bool) : Prop := K.cells.flags[r.index]? = some b

variable {K K' : Layout π}

theorem slotIs.eq {s : Ref .slot} {c : Slot π} (h : K.slotIs s c) : K.cells.slot s = c := by
  unfold slotIs at h
  simp [Cells.slot, Array.getD_eq_getD_getElem?, h]

theorem rowIs.eq {r : Ref .args} {c : ArgsCell} (h : K.rowIs r c) : K.cells.argsCell r = c := by
  unfold rowIs at h
  simp [Cells.argsCell, Array.getD_eq_getD_getElem?, h]

theorem lastIs.eq {r : Ref .last} {v : Option Value} (h : K.lastIs r v) : K.cells.lastValue r = v := by
  unfold lastIs at h
  simp [Cells.lastValue, Array.getD_eq_getD_getElem?, h]

theorem flagIs.eq {r : Ref .flag} {b : Bool} (h : K.flagIs r b) : K.cells.flag r = b := by
  unfold flagIs at h
  simp [Cells.flag, Array.getD_eq_getD_getElem?, h]

theorem slotIs.same {s : Ref .slot} {c : Slot π} (h : K.slotIs s c) (hs : K.Same K' (.slot s)) : K'.slotIs s c :=
  Eq.trans hs h

theorem rowIs.same {r : Ref .args} {c : ArgsCell} (h : K.rowIs r c) (hs : K.Same K' (.row r)) : K'.rowIs r c :=
  Eq.trans hs h

theorem lastIs.same {r : Ref .last} {v : Option Value} (h : K.lastIs r v) (hs : K.Same K' (.last r)) : K'.lastIs r v :=
  Eq.trans hs h

theorem flagIs.same {r : Ref .flag} {b : Bool} (h : K.flagIs r b) (hs : K.Same K' (.flag r)) : K'.flagIs r b :=
  Eq.trans hs h

end Layout

/-- The layout with other cells. -/
def Layout.setCells (K : Layout π) (c : Cells π) : Layout π := { K with cells := c }

/-- A change of one cell. -/
theorem Reshapes.ofModify {K : Layout π} {c : Cells π} {p : Piece} (ho : c.orphans = K.cells.orphans)
    (hh : ∀ q, K.Has q → (K.setCells c).Has q) (hs : ∀ q, q ≠ p → K.Same (K.setCells c) q) :
    Reshapes {p} {p} K (K.setCells c) where
  lists := rfl
  objects := rfl
  orphans := ho
  grows := hh
  same q _ hq := hs q fun h => hq (Multiset.mem_singleton.2 h)
  fresh _ hq := Or.inl hq
  has hG q hq := hh q (hG q hq)
  nodup h := h
  tidy h := ⟨h.below, h.unique, h.listOnce, h.objectOnce⟩
  kept h _ := h
  posted h hn := ⟨h, hn⟩

/-- A new cell. -/
theorem Reshapes.ofNew {K : Layout π} {c : Cells π} {p : Piece} (ho : c.orphans = K.cells.orphans)
    (hn : ¬K.Has p) (hN : (K.setCells c).Has p) (hh : ∀ q, K.Has q → (K.setCells c).Has q)
    (hs : ∀ q, K.Has q → K.Same (K.setCells c) q) : Reshapes 0 {p} K (K.setCells c) where
  lists := rfl
  objects := rfl
  orphans := ho
  grows := hh
  same q hq _ := hs q hq
  fresh q hq := by
    rw [Multiset.mem_singleton.1 hq]
    exact Or.inr hn
  has _ q hq := by
    rw [Multiset.mem_singleton.1 hq]
    exact hN
  nodup _ := Multiset.nodup_singleton p
  tidy h := ⟨h.below, h.unique, h.listOnce, h.objectOnce⟩
  kept h _ := h
  posted h _ := ⟨h, Multiset.notMem_zero _⟩

section

variable {Q : PUnit → World (Callback π) (Env π σ) → Prop}

/-- A step that changes only cells. -/
theorem modifyCells_ends {G G' : Multiset Piece} {f : Cells π → Cells π}
    (hr : Reshapes G G' w.layout (w.layout.setCells (f w.layout.cells)))
    (h : ∀ w', Touches N G G' w w' → w'.layout.cells = f w.layout.cells → Q ⟨⟩ w') : (modifyCells f).Ends w Q :=
  h _ ⟨hr, rfl, rfl, rfl, rfl, Or.inl⟩ rfl

theorem modifySlot_ends {s : Ref .slot} {f : Slot π → Slot π} {c : Slot π} (hc : w.layout.slotIs s c)
    (h : ∀ w', Touches N {.slot s} {.slot s} w w' → w'.layout.slotIs s (f c) → Q ⟨⟩ w') : (modifySlot s f).Ends w Q := by
  refine modifyCells_ends (Reshapes.ofModify (p := .slot s) rfl ?_ ?_) fun w' t hw => h w' t ?_
  · intro q hq
    cases q <;> simpa [Layout.Has, Layout.setCells] using hq
  · intro q hq
    cases q with
    | slot r =>
      have hr : ¬s.index = r.index := fun hi => hq (by cases r; cases s; simp_all)
      simp [Layout.Same, Layout.setCells, Array.getElem?_modify, hr]
    | _ => simp [Layout.Same, Layout.setCells, Layout.Posted]
  · unfold Layout.slotIs at hc ⊢
    simp [hw, Array.getElem?_modify, hc]

theorem modifyArgs_ends {r : Ref .args} {f : ArgsCell → ArgsCell} {c : ArgsCell} (hc : w.layout.rowIs r c)
    (h : ∀ w', Touches N {.row r} {.row r} w w' → w'.layout.rowIs r (f c) → Q ⟨⟩ w') : (modifyArgs r f).Ends w Q := by
  refine modifyCells_ends (Reshapes.ofModify (p := .row r) rfl ?_ ?_) fun w' t hw => h w' t ?_
  · intro q hq
    cases q <;> simpa [Layout.Has, Layout.setCells] using hq
  · intro q hq
    cases q with
    | row r' =>
      have hr : ¬r.index = r'.index := fun hi => hq (by cases r; cases r'; simp_all)
      simp [Layout.Same, Layout.setCells, Array.getElem?_modify, hr]
    | _ => simp [Layout.Same, Layout.setCells, Layout.Posted]
  · unfold Layout.rowIs at hc ⊢
    simp [hw, Array.getElem?_modify, hc]

theorem setLast_ends {r : Ref .last} {v : Value} {u : Option Value} (hc : w.layout.lastIs r u)
    (h : ∀ w', Touches N {.last r} {.last r} w w' → w'.layout.lastIs r (some v) → Q ⟨⟩ w') : (setLast r v).Ends w Q := by
  refine modifyCells_ends (Reshapes.ofModify (p := .last r) rfl ?_ ?_) fun w' t hw => h w' t ?_
  · intro q hq
    cases q <;> simpa [Layout.Has, Layout.setCells] using hq
  · intro q hq
    cases q with
    | last r' =>
      have hr : ¬r.index = r'.index := fun hi => hq (by cases r; cases r'; simp_all)
      simp [Layout.Same, Layout.setCells, Array.getElem?_modify, hr]
    | _ => simp [Layout.Same, Layout.setCells, Layout.Posted]
  · unfold Layout.lastIs at hc ⊢
    simp [hw, Array.getElem?_modify, hc]

theorem setFlag_ends {r : Ref .flag} {b b' : Bool} (hc : w.layout.flagIs r b')
    (h : ∀ w', Touches N {.flag r} {.flag r} w w' → w'.layout.flagIs r b → Q ⟨⟩ w') : (setFlag r b).Ends w Q := by
  refine modifyCells_ends (Reshapes.ofModify (p := .flag r) rfl ?_ ?_) fun w' t hw => h w' t ?_
  · intro q hq
    cases q <;> simpa [Layout.Has, Layout.setCells] using hq
  · intro q hq
    cases q with
    | flag r' =>
      have hr : ¬r.index = r'.index := fun hi => hq (by cases r; cases r'; simp_all)
      simp [Layout.Same, Layout.setCells, Array.getElem?_modify, hr]
    | _ => simp [Layout.Same, Layout.setCells, Layout.Posted]
  · unfold Layout.flagIs at hc ⊢
    simp [hw, Array.getElem?_modify, hc]

end

/-- A new cell of a table leaves all pieces that had been made. -/
theorem newSlot_ends {Q : Ref .slot → World (Callback π) (Env π σ) → Prop}
    (h : ∀ s w', ¬w.layout.Has (.slot s) → Touches N 0 {.slot s} w w' → w'.layout.slotIs s {} → Q s w') :
    newSlot.Ends w Q := by
  simp only [newSlot, Run.ends_bind, ends_cells, Run.ends_pure]
  refine modifyCells_ends (Reshapes.ofNew (p := .slot ⟨w.layout.cells.slots.size⟩) rfl ?_ ?_ ?_ ?_)
    fun w' t hw => h _ w' ?_ t ?_
  · simp [Layout.Has]
  · simp [Layout.Has, Layout.setCells]
  · intro q hq
    cases q <;> simp_all [Layout.Has, Layout.setCells]
    omega
  · intro q hq
    cases q <;> simp_all [Layout.Has, Layout.Same, Layout.setCells, Layout.Posted, Array.getElem?_push_lt]
  · simp [Layout.Has]
  · simp [Layout.slotIs, hw]

theorem newLast_ends {Q : Ref .last → World (Callback π) (Env π σ) → Prop}
    (h : ∀ r w', ¬w.layout.Has (.last r) → Touches N 0 {.last r} w w' → w'.layout.lastIs r none → Q r w') :
    newLast.Ends w Q := by
  simp only [newLast, Run.ends_bind, ends_cells, Run.ends_pure]
  refine modifyCells_ends (Reshapes.ofNew (p := .last ⟨w.layout.cells.lasts.size⟩) rfl ?_ ?_ ?_ ?_)
    fun w' t hw => h _ w' ?_ t ?_
  · simp [Layout.Has]
  · simp [Layout.Has, Layout.setCells]
  · intro q hq
    cases q <;> simp_all [Layout.Has, Layout.setCells]
    omega
  · intro q hq
    cases q <;> simp_all [Layout.Has, Layout.Same, Layout.setCells, Layout.Posted, Array.getElem?_push_lt]
  · simp [Layout.Has]
  · simp [Layout.lastIs, hw]

theorem newFlag_ends {Q : Ref .flag → World (Callback π) (Env π σ) → Prop}
    (h : ∀ r w', ¬w.layout.Has (.flag r) → Touches N 0 {.flag r} w w' → w'.layout.flagIs r false → Q r w') :
    newFlag.Ends w Q := by
  simp only [newFlag, Run.ends_bind, ends_cells, Run.ends_pure]
  refine modifyCells_ends (Reshapes.ofNew (p := .flag ⟨w.layout.cells.flags.size⟩) rfl ?_ ?_ ?_ ?_)
    fun w' t hw => h _ w' ?_ t ?_
  · simp [Layout.Has]
  · simp [Layout.Has, Layout.setCells]
  · intro q hq
    cases q <;> simp_all [Layout.Has, Layout.setCells]
    omega
  · intro q hq
    cases q <;> simp_all [Layout.Has, Layout.Same, Layout.setCells, Layout.Posted, Array.getElem?_push_lt]
  · simp [Layout.Has]
  · simp [Layout.flagIs, hw]

theorem newArgs_ends {count : Nat} {Q : Ref .args → World (Callback π) (Env π σ) → Prop}
    (h : ∀ r w', ¬w.layout.Has (.row r) → Touches N 0 {.row r} w w' →
      w'.layout.rowIs r { values := List.replicate count .undefined } → Q r w') : (newArgs count).Ends w Q := by
  simp only [newArgs, Run.ends_bind, ends_cells, Run.ends_pure]
  refine modifyCells_ends (Reshapes.ofNew (p := .row ⟨w.layout.cells.args.size⟩) rfl ?_ ?_ ?_ ?_)
    fun w' t hw => h _ w' ?_ t ?_
  · simp [Layout.Has]
  · simp [Layout.Has, Layout.setCells]
  · intro q hq
    cases q <;> simp_all [Layout.Has, Layout.setCells]
    omega
  · intro q hq
    cases q <;> simp_all [Layout.Has, Layout.Same, Layout.setCells, Layout.Posted, Array.getElem?_push_lt]
  · simp [Layout.Has]
  · simp [Layout.rowIs, hw]

/-! ## Listeners -/

/-- The container of a post exists. -/
def Layout.Knows (K : Layout π) : Post π → Prop
  | .list l _ _ => l.index < K.lists
  | .object o _ _ => o.index < K.objects

/-- The post, and nothing else, is registered under the id; in a container that does not exist nothing is. -/
structure Layout.Holds (K : Layout π) (id : ListenerId) (q : Post π) : Prop where
  posted : K.Knows q → K.Posted id q
  only : ∀ q', K.Posted id q' → q' = q

theorem Layout.Knows.congr {K K' : Layout π} {q : Post π} (hl : K'.lists = K.lists) (ho : K'.objects = K.objects) :
    K'.Knows q ↔ K.Knows q := by
  cases q <;> simp [Layout.Knows, hl, ho]

theorem Layout.Holds.same {K K' : Layout π} {id : ListenerId} {q : Post π} (h : K.Holds id q)
    (hs : K.Same K' (.listener id)) (hk : K'.Knows q → K.Knows q) : K'.Holds id q :=
  ⟨fun hq => (hs q).2 (h.posted (hk hq)), fun q' hq' => h.only q' ((hs q').1 hq')⟩

theorem World.listListeners_modifyList (w : World (Callback π) (Env π σ)) (l l' : ListId)
    (f : ListCell (Callback π) → ListCell (Callback π)) :
    (w.modifyList l f).layout.listListeners l' =
      if l' = l ∧ l.index < w.layout.lists then (f (w.listCell l)).listeners else w.layout.listListeners l' := by
  by_cases h : l' = l ∧ l.index < w.lists.size <;> simp [World.layout, World.listCell_modifyList, h]

theorem World.objectListeners_modifyObject (w : World (Callback π) (Env π σ)) (o o' : ObjectId)
    (f : ObjectCell (Callback π) → ObjectCell (Callback π)) :
    (w.modifyObject o f).layout.objectListeners o' =
      if o' = o ∧ o.index < w.layout.objects then (f (w.objectCell o)).listeners else w.layout.objectListeners o' := by
  by_cases h : o' = o ∧ o.index < w.objects.size <;> simp [World.layout, World.objectCell_modifyObject, h]

/-- A layout in which one more listener was registered, or none since there is nothing to listen to. -/
theorem Reshapes.ofListen {K K' : Layout π} {q : Post π} (hc : K'.cells = K.cells)
    (hn : K'.nextListener = K.nextListener + 1) (hl : K'.lists = K.lists) (ho : K'.objects = K.objects)
    (hp : ∀ id q', K'.Posted id q' → K.Posted id q' ∨ (id = ⟨K.nextListener⟩ ∧ q' = q))
    (hk : ∀ id q', K.Posted id q' → K'.Posted id q')
    (hlo : ∀ l, (K'.listListeners l).map (·.id) = (K.listListeners l).map (·.id) ∨
      (K'.listListeners l).map (·.id) = (K.listListeners l).map (·.id) ++ [⟨K.nextListener⟩])
    (hoo : ∀ o, (K'.objectListeners o).map (·.id) = (K.objectListeners o).map (·.id) ∨
      (K'.objectListeners o).map (·.id) = (K.objectListeners o).map (·.id) ++ [⟨K.nextListener⟩]) :
    Reshapes 0 {.listener ⟨K.nextListener⟩} K K' where
  lists := hl
  objects := ho
  orphans := by rw [hc]
  grows p h := by
    cases p <;> simp_all [Layout.Has]
    omega
  same p h _ := by
    cases p with
    | listener id =>
      refine fun q' => ⟨fun h' => (hp id q' h').resolve_right fun h' => ?_, hk id q'⟩
      simp [Layout.Has, h'.1] at h
    | _ => simp [Layout.Same, hc]
  fresh p hp := by
    rw [Multiset.mem_singleton.1 hp]
    exact Or.inr (by simp [Layout.Has])
  has _ p hp := by
    rw [Multiset.mem_singleton.1 hp]
    simp [Layout.Has, hn]
  nodup _ := Multiset.nodup_singleton _
  tidy h := by
    have below : ∀ {id q'}, K'.Posted id q' → id.index < K'.nextListener := by
      intro id q' h'
      rcases hp id q' h' with h' | ⟨rfl, -⟩
      · have := h.below h'
        omega
      · simp [hn]
    refine ⟨below, ?_, fun l => ?_, fun o => ?_⟩
    · intro id q' q'' h' h''
      rcases hp id q' h' with h₁ | ⟨rfl, rfl⟩
      · rcases hp id q'' h'' with h₂ | ⟨rfl, -⟩
        · exact h.unique h₁ h₂
        · simpa using h.below h₁
      · rcases hp _ q'' h'' with h₂ | ⟨-, rfl⟩
        · simpa using h.below h₂
        · rfl
    · rcases hlo l with h' | h' <;> rw [h']
      · exact h.listOnce l
      · refine List.nodup_append.2 ⟨h.listOnce l, List.nodup_singleton _, ?_⟩
        intro a ha b hb he
        obtain ⟨x, hx, rfl⟩ := List.mem_map.1 ha
        have := h.below (q := .list l x.topic x.callback) hx
        simp [he, List.mem_singleton.1 hb] at this
    · rcases hoo o with h' | h' <;> rw [h']
      · exact h.objectOnce o
      · refine List.nodup_append.2 ⟨h.objectOnce o, List.nodup_singleton _, ?_⟩
        intro a ha b hb he
        obtain ⟨x, hx, rfl⟩ := List.mem_map.1 ha
        have := h.below (q := .object o x.topic x.callback) hx
        simp [he, List.mem_singleton.1 hb] at this
  kept {id q'} h' h := by
    refine (hp id q' h').resolve_right fun h' => ?_
    simp [Layout.Has, h'.1] at h
  posted {id q'} h' h := by
    refine ⟨(hp id q' h').resolve_right fun h' => ?_, Multiset.notMem_zero _⟩
    simp [h'.1] at h

/-- A layout from which one listener was removed. -/
theorem Reshapes.ofUnlisten {K K' : Layout π} {id : ListenerId} (hc : K'.cells = K.cells)
    (hn : K'.nextListener = K.nextListener) (hl : K'.lists = K.lists) (ho : K'.objects = K.objects)
    (hp : ∀ id' q, K'.Posted id' q ↔ K.Posted id' q ∧ id' ≠ id)
    (hlo : ∀ l, (K'.listListeners l).Sublist (K.listListeners l))
    (hoo : ∀ o, (K'.objectListeners o).Sublist (K.objectListeners o)) : Reshapes {.listener id} 0 K K' where
  lists := hl
  objects := ho
  orphans := by rw [hc]
  grows p h := by cases p <;> simp_all [Layout.Has]
  same p _ h := by
    cases p with
    | listener id' =>
      have hne : id' ≠ id := fun he => h (by simp [he])
      exact fun q => by simp [hp, hne]
    | _ => simp [Layout.Same, hc]
  fresh p hp := absurd hp (Multiset.notMem_zero p)
  has _ p hp := absurd hp (Multiset.notMem_zero p)
  nodup _ := Multiset.nodup_zero
  tidy h := by
    refine ⟨fun h' => ?_, fun h₁ h₂ => h.unique ((hp _ _).1 h₁).1 ((hp _ _).1 h₂).1, fun l => ?_, fun o => ?_⟩
    · rw [hn]
      exact h.below ((hp _ _).1 h').1
    · exact ((hlo l).map _).nodup (h.listOnce l)
    · exact ((hoo o).map _).nodup (h.objectOnce o)
  kept h' _ := ((hp _ _).1 h').1
  posted h' _ := ⟨((hp _ _).1 h').1, fun hm => ((hp _ _).1 h').2 (by simpa using hm)⟩

/-- What a newly registered listener is registered for. -/
theorem Layout.Holds.ofListen {K K' : Layout π} {q : Post π} (ht : K.Tidy)
    (hp : ∀ id q', K'.Posted id q' → K.Posted id q' ∨ (id = ⟨K.nextListener⟩ ∧ q' = q))
    (hq : K'.Knows q → K'.Posted ⟨K.nextListener⟩ q) : K'.Holds ⟨K.nextListener⟩ q := by
  refine ⟨hq, fun q' h' => ?_⟩
  rcases hp _ q' h' with h | ⟨-, rfl⟩
  · simpa using ht.below h
  · rfl

theorem ObjectId.listen_ends {o : ObjectId} {topic : ObjectTopic} {callback : Callback π}
    {Q : ListenerId → World (Callback π) (Env π σ) → Prop} (ht : w.layout.Tidy) (hN : N (.object o topic callback))
    (h : ∀ id w', ¬w.layout.Has (.listener id) → Touches N 0 {.listener id} w w' →
      w'.layout.Holds id (.object o topic callback) → Q id w') : (o.listen topic callback).Ends w Q := by
  let register (c : ObjectCell (Callback π)) : ObjectCell (Callback π) :=
    { c with listeners := c.listeners ++ [⟨⟨w.nextListener⟩, topic, callback⟩] }
  change Q ⟨w.nextListener⟩ (World.modifyObject o register { w with nextListener := w.nextListener + 1 })
  generalize hw : World.modifyObject o register { w with nextListener := w.nextListener + 1 } = w'
  have hL : ∀ o', w'.layout.objectListeners o' =
      if o' = o ∧ o.index < w.layout.objects then
        w.layout.objectListeners o ++ [⟨⟨w.layout.nextListener⟩, topic, callback⟩]
      else w.layout.objectListeners o' := by
    intro o'
    rw [← hw, World.objectListeners_modifyObject]
    rfl
  have hl : ∀ l, w'.layout.listListeners l = w.layout.listListeners l := fun l => by rw [← hw]; rfl
  have ho : w'.layout.objects = w.layout.objects := by
    rw [← hw]
    exact World.objects_size_modifyObject _ _ _
  have hp : ∀ id q, w'.layout.Posted id q ↔ w.layout.Posted id q ∨
      (id = ⟨w.layout.nextListener⟩ ∧ q = .object o topic callback ∧ o.index < w.layout.objects) := by
    intro id q
    cases q with
    | list l' topic' callback' => simp [Layout.Posted, hl]
    | object o' topic' callback' =>
      by_cases hc : o' = o ∧ o.index < w.layout.objects
      · obtain ⟨rfl, hi⟩ := hc
        simp [Layout.Posted, hL, hi]
      · simp only [Layout.Posted, hL, hc, if_false]
        exact ⟨Or.inl, fun h' => h'.resolve_right fun h' => hc ⟨(Post.object.inj h'.2.1).1, h'.2.2⟩⟩
  have hp' : ∀ id q, w'.layout.Posted id q → w.layout.Posted id q ∨
      (id = ⟨w.layout.nextListener⟩ ∧ q = .object o topic callback) :=
    fun id q h' => ((hp id q).1 h').imp_right fun h' => ⟨h'.1, h'.2.1⟩
  refine h _ w' (by simp [Layout.Has, World.layout]) ⟨?_, ?_, ?_, ?_, ?_, fun hq => ?_⟩
    (Layout.Holds.ofListen ht hp' fun hi => ?_)
  · refine Reshapes.ofListen (q := .object o topic callback) (by rw [← hw]; rfl) (by rw [← hw]; rfl)
      (by rw [← hw]; rfl) ho hp' (fun id q h' => (hp id q).2 (Or.inl h')) (fun l => Or.inl (by rw [hl])) fun o' => ?_
    by_cases hc : o' = o ∧ o.index < w.layout.objects
    · obtain ⟨rfl, hi⟩ := hc
      simp [hL, hi]
    · simp [hL, hc]
  · rw [← hw]
    exact World.contents_modifyObject fun _ => rfl
  · rw [← hw]
    rfl
  · rw [← hw]
    rfl
  · rw [← hw]
    rfl
  · rcases hp' _ _ hq with h' | ⟨-, rfl⟩
    · exact Or.inl h'
    · exact Or.inr hN
  · exact (hp _ _).2 (Or.inr ⟨rfl, rfl, ho ▸ hi⟩)

theorem ListId.listen_ends {l : ListId} {topic : ListTopic} {callback : Callback π}
    {Q : ListenerId → World (Callback π) (Env π σ) → Prop} (ht : w.layout.Tidy) (hN : N (.list l topic callback))
    (h : ∀ id w', ¬w.layout.Has (.listener id) → Touches N 0 {.listener id} w w' →
      w'.layout.Holds id (.list l topic callback) → Q id w') : (l.listen topic callback).Ends w Q := by
  let register (c : ListCell (Callback π)) : ListCell (Callback π) :=
    { c with listeners := c.listeners ++ [⟨⟨w.nextListener⟩, topic, callback⟩] }
  change Q ⟨w.nextListener⟩ (World.modifyList l register { w with nextListener := w.nextListener + 1 })
  generalize hw : World.modifyList l register { w with nextListener := w.nextListener + 1 } = w'
  have hL : ∀ l', w'.layout.listListeners l' =
      if l' = l ∧ l.index < w.layout.lists then
        w.layout.listListeners l ++ [⟨⟨w.layout.nextListener⟩, topic, callback⟩]
      else w.layout.listListeners l' := by
    intro l'
    rw [← hw, World.listListeners_modifyList]
    rfl
  have ho : ∀ o, w'.layout.objectListeners o = w.layout.objectListeners o := fun o => by rw [← hw]; rfl
  have hl : w'.layout.lists = w.layout.lists := by
    rw [← hw]
    exact World.lists_size_modifyList _ _ _
  have hp : ∀ id q, w'.layout.Posted id q ↔ w.layout.Posted id q ∨
      (id = ⟨w.layout.nextListener⟩ ∧ q = .list l topic callback ∧ l.index < w.layout.lists) := by
    intro id q
    cases q with
    | object o' topic' callback' => simp [Layout.Posted, ho]
    | list l' topic' callback' =>
      by_cases hc : l' = l ∧ l.index < w.layout.lists
      · obtain ⟨rfl, hi⟩ := hc
        simp [Layout.Posted, hL, hi]
      · simp only [Layout.Posted, hL, hc, if_false]
        exact ⟨Or.inl, fun h' => h'.resolve_right fun h' => hc ⟨(Post.list.inj h'.2.1).1, h'.2.2⟩⟩
  have hp' : ∀ id q, w'.layout.Posted id q → w.layout.Posted id q ∨
      (id = ⟨w.layout.nextListener⟩ ∧ q = .list l topic callback) :=
    fun id q h' => ((hp id q).1 h').imp_right fun h' => ⟨h'.1, h'.2.1⟩
  refine h _ w' (by simp [Layout.Has, World.layout]) ⟨?_, ?_, ?_, ?_, ?_, fun hq => ?_⟩
    (Layout.Holds.ofListen ht hp' fun hi => ?_)
  · refine Reshapes.ofListen (q := .list l topic callback) (by rw [← hw]; rfl) (by rw [← hw]; rfl) hl
      (by rw [← hw]; rfl) hp' (fun id q h' => (hp id q).2 (Or.inl h')) (fun l' => ?_) fun o => Or.inl (by rw [ho])
    by_cases hc : l' = l ∧ l.index < w.layout.lists
    · obtain ⟨rfl, hi⟩ := hc
      simp [hL, hi]
    · simp [hL, hc]
  · rw [← hw]
    exact World.contents_modifyList fun _ => rfl
  · rw [← hw]
    rfl
  · rw [← hw]
    rfl
  · rw [← hw]
    rfl
  · rcases hp' _ _ hq with h' | ⟨-, rfl⟩
    · exact Or.inl h'
    · exact Or.inr hN
  · exact (hp _ _).2 (Or.inr ⟨rfl, rfl, hl ▸ hi⟩)

/-- Removing a listener that is registered under its topic, if at all. -/
theorem ObjectId.unlisten_ends {o : ObjectId} {topic : ObjectTopic} {id : ListenerId} {callback : Callback π}
    {Q : PUnit → World (Callback π) (Env π σ) → Prop} (hq : w.layout.Holds id (.object o topic callback))
    (h : ∀ w', Touches N {.listener id} 0 w w' → Q ⟨⟩ w') : (o.unlisten topic id).Ends w Q := by
  let remove (c : ObjectCell (Callback π)) : ObjectCell (Callback π) :=
    { c with listeners := Listeners.remove topic id c.listeners }
  change Q ⟨⟩ (World.modifyObject o remove w)
  generalize hw : World.modifyObject o remove w = w'
  have hL : ∀ o', w'.layout.objectListeners o' =
      if o' = o ∧ o.index < w.layout.objects then Listeners.remove topic id (w.layout.objectListeners o)
      else w.layout.objectListeners o' := by
    intro o'
    rw [← hw, World.objectListeners_modifyObject]
    rfl
  have hs : ∀ o', (w'.layout.objectListeners o').Sublist (w.layout.objectListeners o') := by
    intro o'
    rw [hL]
    split
    · rename_i hc
      rw [hc.1]
      exact List.filter_sublist
    · exact List.Sublist.refl _
  have hr : Reshapes {.listener id} 0 w.layout w'.layout := by
    refine Reshapes.ofUnlisten (by rw [← hw]; rfl) (by rw [← hw]; rfl) (by rw [← hw]; rfl) ?_ ?_ ?_ hs
    · rw [← hw]
      exact World.objects_size_modifyObject _ _ _
    · intro id' q
      cases q with
      | list l' topic' callback' =>
        have hl : w'.layout.listListeners l' = w.layout.listListeners l' := by rw [← hw]; rfl
        simp only [Layout.Posted, hl]
        refine ⟨fun h' => ⟨h', fun he => ?_⟩, fun h' => h'.1⟩
        exact nomatch hq.only (.list l' topic' callback') (he ▸ h')
      | object o' topic' callback' =>
        constructor
        · intro h'
          refine ⟨(hs o').subset h', fun he => ?_⟩
          subst he
          obtain ⟨rfl, rfl, rfl⟩ := Post.object.inj (hq.only (.object o' topic' callback') ((hs o').subset h'))
          simp only [Layout.Posted, hL, true_and] at h'
          split at h'
          · simp [Listeners.remove] at h'
          · rename_i hc
            simp [World.layout, World.objectCell, Array.getD_eq_getD_getElem?] at hc h'
            simp [hc] at h'
        · rintro ⟨h', hne⟩
          simp only [Layout.Posted, hL]
          split
          · rename_i hc
            have h'' : (⟨id', topic', callback'⟩ : Listener ObjectTopic (Callback π)) ∈ w.layout.objectListeners o' := h'
            rw [hc.1] at h''
            simp [Listeners.remove, h'', hne]
          · exact h'
    · intro l'
      rw [← hw]
      exact List.Sublist.refl _
  refine h w' ⟨hr, ?_, ?_, ?_, ?_, fun hq => Or.inl (hr.posted hq (Multiset.notMem_zero _)).1⟩
  · rw [← hw]
    exact World.contents_modifyObject fun _ => rfl
  · rw [← hw]
    rfl
  · rw [← hw]
    rfl
  · rw [← hw]
    rfl

theorem ListId.unlisten_ends {l : ListId} {topic : ListTopic} {id : ListenerId} {callback : Callback π}
    {Q : PUnit → World (Callback π) (Env π σ) → Prop} (hq : w.layout.Holds id (.list l topic callback))
    (h : ∀ w', Touches N {.listener id} 0 w w' → Q ⟨⟩ w') : (l.unlisten topic id).Ends w Q := by
  let remove (c : ListCell (Callback π)) : ListCell (Callback π) :=
    { c with listeners := Listeners.remove topic id c.listeners }
  change Q ⟨⟩ (World.modifyList l remove w)
  generalize hw : World.modifyList l remove w = w'
  have hL : ∀ l', w'.layout.listListeners l' =
      if l' = l ∧ l.index < w.layout.lists then Listeners.remove topic id (w.layout.listListeners l)
      else w.layout.listListeners l' := by
    intro l'
    rw [← hw, World.listListeners_modifyList]
    rfl
  have hs : ∀ l', (w'.layout.listListeners l').Sublist (w.layout.listListeners l') := by
    intro l'
    rw [hL]
    split
    · rename_i hc
      rw [hc.1]
      exact List.filter_sublist
    · exact List.Sublist.refl _
  have hr : Reshapes {.listener id} 0 w.layout w'.layout := by
    refine Reshapes.ofUnlisten (by rw [← hw]; rfl) (by rw [← hw]; rfl) ?_ (by rw [← hw]; rfl) ?_ hs ?_
    · rw [← hw]
      exact World.lists_size_modifyList _ _ _
    · intro id' q
      cases q with
      | object o' topic' callback' =>
        have ho : w'.layout.objectListeners o' = w.layout.objectListeners o' := by rw [← hw]; rfl
        simp only [Layout.Posted, ho]
        refine ⟨fun h' => ⟨h', fun he => ?_⟩, fun h' => h'.1⟩
        exact nomatch hq.only (.object o' topic' callback') (he ▸ h')
      | list l' topic' callback' =>
        constructor
        · intro h'
          refine ⟨(hs l').subset h', fun he => ?_⟩
          subst he
          obtain ⟨rfl, rfl, rfl⟩ := Post.list.inj (hq.only (.list l' topic' callback') ((hs l').subset h'))
          simp only [Layout.Posted, hL, true_and] at h'
          split at h'
          · simp [Listeners.remove] at h'
          · rename_i hc
            simp [World.layout, World.listCell, Array.getD_eq_getD_getElem?] at hc h'
            simp [hc] at h'
        · rintro ⟨h', hne⟩
          simp only [Layout.Posted, hL]
          split
          · rename_i hc
            have h'' : (⟨id', topic', callback'⟩ : Listener ListTopic (Callback π)) ∈ w.layout.listListeners l' := h'
            rw [hc.1] at h''
            simp [Listeners.remove, h'', hne]
          · exact h'
    · intro o'
      rw [← hw]
      exact List.Sublist.refl _
  refine h w' ⟨hr, ?_, ?_, ?_, ?_, fun hq => Or.inl (hr.posted hq (Multiset.notMem_zero _)).1⟩
  · rw [← hw]
    exact World.contents_modifyList fun _ => rfl
  · rw [← hw]
    rfl
  · rw [← hw]
    rfl
  · rw [← hw]
    rfl

end LiveBindings
