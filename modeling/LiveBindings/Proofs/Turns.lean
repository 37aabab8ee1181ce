import LiveBindings.Proofs.WriteBack

/-!
# What happens to a view of an object's entries

A view of entries is made, given one object after the other, and follows what becomes of each of them (`EntryView.Turn`). When a
turn is over the output lists the entries in insertion order, and the pair of a key that nobody deletes is the one it was
(`EntryView.Reaches.shows_entries`), also when the readers of the output answer by changing the object.

Two things are not among the turns, since the view does not stand them. A view is refreshed before it is registered with a new
object, so that a reader that changes this object then is not heard (`EntryView.replace_unheard`). And while the pairs are being
set the view cannot be refreshed, so that a reader of a pair must not change the object (`EntryView.write_refused`).
-/

namespace LiveBindings

variable {π σ : Type}

namespace EntryView

variable {v : EntryView} {link : Option Link} {shown : Option ObjectId} {K : Set String} {B : Prop} {E : Engine π σ} {H : Host π σ}
  {P : ObjectId → ObjectOperation → Prop} {d : Nat} {c : Config} {o : ObjectId} {w w' w'' : World (Callback π) (Env π σ)}

/-! ## Another object -/

/-- The object that a value is. -/
def objectOf : Value → Option ObjectId
  | .object o => some o
  | _ => none

/-- Between two worlds a view came to hear of other objects, and nothing of what it lists changed. -/
structure Rewired (w w' : World (Callback π) (Env π σ)) : Prop where
  lists : w'.lists = w.lists
  entries : ∀ o, (w'.objectCell o).entries = (w.objectCell o).entries
  made : w'.objects.size = w.objects.size
  projectors : w'.env.cells.projectors = w.env.cells.projectors
  orphans : w'.env.cells.orphans = w.env.cells.orphans
  depth : w'.depth = w.depth
  config : w'.config = w.config

namespace Rewired

theorem trans (h : Rewired w w') (h' : Rewired w' w'') : Rewired w w'' where
  lists := h'.lists.trans h.lists
  entries o := (h'.entries o).trans (h.entries o)
  made := h'.made.trans h.made
  projectors := h'.projectors.trans h.projectors
  orphans := h'.orphans.trans h.orphans
  depth := h'.depth.trans h.depth
  config := h'.config.trans h.config

theorem pairs (h : Rewired w w') : v.pairs w' = v.pairs w := by
  simp only [EntryView.pairs, Cells.projector, h.projectors]

theorem entriesOf (h : Rewired w w') (o : Option ObjectId) : w'.entriesOf o = w.entriesOf o := by
  cases o with
  | none => rfl
  | some o => exact h.entries o

theorem listCell (h : Rewired w w') (l : ListId) : w'.listCell l = w.listCell l := by simp only [World.listCell, h.lists]

theorem shows (h : Rewired w w') (hs : v.Shows shown w) : v.Shows shown w' := by
  unfold Shows at hs ⊢
  rw [h.entriesOf, h.listCell]
  exact hs.imp fun _ _ => lists_of h.pairs fun p _ => by rw [h.listCell]

theorem linked {link' : Option Link} (h : Rewired w w') (hl : v.Linked link w)
    (slot : ∃ generation, w'.env.cells.slots[v.slot.index]? = some ⟨handle link', generation, false⟩)
    (watched : ∀ k, link' = some k → v.listener k ∈ (w'.objectCell k.object).listeners)
    (told : ∀ o, ∀ x ∈ (w'.objectCell o).listeners, x.callback.IsUser ∨ ∃ k, link' = some k ∧ o = k.object ∧ x = v.listener k) :
    v.Linked link' w' where
  cell := by rw [h.projectors, h.pairs, hl.cell]
  slot := slot
  output := h.lists ▸ hl.output
  paired := by
    rw [h.pairs]
    exact hl.paired.of_items (by rw [h.lists]) (fun p _ => by rw [h.listCell]) fun l => by rw [h.listCell]
  watched := watched
  told := told
  readers x hx := hl.readers x (h.listCell _ ▸ hx)
  named o := by
    rw [h.entries]
    exact hl.named o
  orphans := h.orphans.trans hl.orphans

end Rewired

/-- A change of the cell of the slot. -/
theorem settles_modifySlot {G : Fault → Prop} {cell : Slot π} (f : Slot π → Slot π) (s : Ref .slot)
    (hcell : w.env.cells.slots[s.index]? = some cell) {Q : PUnit → World (Callback π) (Env π σ) → Prop}
    (h : ∀ {w'}, Rewired w w' → w'.objects = w.objects → w'.env.cells.slots[s.index]? = some (f cell) → Q ⟨⟩ w') :
    (modifySlot s f : Live π σ Unit).Settles G w Q :=
  h ⟨rfl, fun _ => rfl, rfl, rfl, rfl, rfl, rfl⟩ rfl (by simp [Array.getElem?_modify, hcell])

theorem slot_of_cell {cell : Slot π} {s : Ref .slot} (h : w.env.cells.slots[s.index]? = some cell) : w.env.cells.slot s = cell := by
  rw [Cells.slot, Array.getD_eq_getD_getElem?, h, Option.getD_some]

/-- Only who listens to one object changed. -/
theorem Rewired.ofListeners (o : ObjectId) (f : List (Listener ObjectTopic (Callback π)) → List (Listener ObjectTopic (Callback π)))
    (nextListener : Nat) (hw' : { w with nextListener }.modifyObject o (fun c => { c with listeners := f c.listeners }) = w') :
    Rewired w w' ∧ w'.env = w.env ∧ ∀ o', (w'.objectCell o').listeners =
      if o' = o ∧ o.index < w.objects.size then f (w.objectCell o).listeners else (w.objectCell o').listeners := by
  subst hw'
  refine ⟨⟨rfl, fun o' => ?_, by rw [World.objects_size_modifyObject], rfl, rfl, rfl, rfl⟩, rfl, fun o' => ?_⟩
  · rw [World.objectCell_modifyObject]
    split
    · rename_i he
      rw [he.1]
      rfl
    · rfl
  · rw [World.objectCell_modifyObject]
    split <;> rfl

/-- A listener of an object is removed. -/
theorem settles_unlisten {G : Fault → Prop} (o : ObjectId) (topic : ObjectTopic) (id : ListenerId)
    {Q : PUnit → World (Callback π) (Env π σ) → Prop}
    (h : ∀ {w'}, Rewired w w' → w'.env = w.env → (∀ o', (w'.objectCell o').listeners =
      if o' = o ∧ o.index < w.objects.size then Listeners.remove topic id (w.objectCell o).listeners
      else (w.objectCell o').listeners) → Q ⟨⟩ w') : (o.unlisten topic id : Live π σ Unit).Settles G w Q := by
  obtain ⟨hrewired, henv, hls⟩ := Rewired.ofListeners (w := w) o (Listeners.remove topic id) w.nextListener rfl
  exact h hrewired henv hls

/-- A listener of an object is registered, after those that it has. -/
theorem settles_listen {G : Fault → Prop} (o : ObjectId) (topic : ObjectTopic) (callback : Callback π)
    {Q : ListenerId → World (Callback π) (Env π σ) → Prop}
    (h : ∀ {w'}, Rewired w w' → w'.env = w.env → (∀ o', (w'.objectCell o').listeners =
      if o' = o ∧ o.index < w.objects.size then (w.objectCell o).listeners ++ [⟨⟨w.nextListener⟩, topic, callback⟩]
      else (w.objectCell o').listeners) → Q ⟨w.nextListener⟩ w') : (o.listen topic callback : Live π σ ListenerId).Settles G w Q := by
  obtain ⟨hrewired, henv, hls⟩ :=
    Rewired.ofListeners (w := w) o (fun ls => ls ++ [⟨⟨w.nextListener⟩, topic, callback⟩]) (w.nextListener + 1) rfl
  exact h hrewired henv hls

/-- What the view heard of is given up. -/
theorem cancel_settles {G : Fault → Prop} {n : Nat} (hn : 0 < n)
    (told : ∀ o, ∀ x ∈ (w.objectCell o).listeners, x.callback.IsUser ∨ ∃ k, link = some k ∧ o = k.object ∧ x = v.listener k) :
    ((engine H n).cancel (handle link)).Settles G w fun _ w' =>
      (Rewired w w' ∧ w'.env = w.env) ∧ ∀ o, ∀ x ∈ (w'.objectCell o).listeners, x.callback.IsUser := by
  obtain ⟨n, rfl⟩ : ∃ m, n = m + 1 := ⟨n - 1, by omega⟩
  cases link with
  | none =>
    refine ⟨⟨⟨rfl, fun _ => rfl, rfl, rfl, rfl, rfl, rfl⟩, rfl⟩, fun o x hx => (told o x hx).resolve_right ?_⟩
    rintro ⟨k, hk, -⟩
    cases hk
  | some k =>
    refine settles_unlisten k.object _ _ fun {w'} h henv hls => ⟨⟨h, henv⟩, fun o x hx => ?_⟩
    rw [hls] at hx
    split at hx
    · obtain ⟨hx, hne⟩ := List.mem_filter.1 hx
      refine (told _ x hx).resolve_right ?_
      rintro ⟨k', hk, -, rfl⟩
      cases hk
      simp [EntryView.listener] at hne
    · rename_i hne
      refine (told o x hx).resolve_right ?_
      rintro ⟨k', hk, rfl, rfl⟩
      cases hk
      have hempty : (w.objectCell k.object).listeners = [] := by
        have hout : ¬k.object.index < w.objects.size := fun hlt => hne ⟨rfl, hlt⟩
        simp [World.objectCell, Array.getD_eq_getD_getElem?, hout]
      simp [hempty] at hx

/-- A view that hears of nothing is brought up to date with a value and registered with it. -/
theorem start_settles {C : Callback π → Prop} {value : Value} (h : v.Linked none w) (letGo : d < c.maxDispatchDepth → LetsGo E)
    (serves : ∀ {w' : World (Callback π) (Env π σ)}, v.Linked none w' → d < c.maxDispatchDepth →
      E.reactions.Serves (Fault.IsRefusal c) (d + 1) c C (v.Within none (objectOf value) K True w'))
    (readers : ∀ x ∈ (w.listCell v.output).listeners, C x.callback)
    (hmade : ∀ o, objectOf value = some o → o.index < w.objects.size) (hd : w.AtLevel d c) :
    ((Branch.entries v.projector).start E value).Settles (Fault.IsRefusal c) w fun next w' =>
      ∃ w₁ link', (next = handle link' ∧ link'.map Link.object = objectOf value) ∧
        (v.Carries none (objectOf value) K w w₁ ∧ v.Shows (objectOf value) w₁) ∧ (Rewired w₁ w' ∧ w'.env = w₁.env) ∧
        (∀ k, link' = some k → v.listener k ∈ (w'.objectCell k.object).listeners) ∧
        (∀ o, ∀ x ∈ (w'.objectCell o).listeners, x.callback.IsUser ∨ ∃ k, link' = some k ∧ o = k.object ∧ x = v.listener k) ∧
        w'.AtLevel d c := by
  have refreshed := refresh_carries h letGo serves readers hd
  have users {w₁ : World (Callback π) (Env π σ)} (h₁ : v.Linked none w₁) (o : ObjectId) :
      ∀ x ∈ (w₁.objectCell o).listeners, x.callback.IsUser := by
    intro x hx
    refine (h₁.told o x hx).resolve_right ?_
    rintro ⟨k, hk, -⟩
    cases hk
  cases hvalue : objectOf value with
  | none =>
    have hstart : (Branch.entries v.projector).start E value = do
        refreshEntries E v.projector none
        return .done := by
      cases value with
      | object => cases hvalue
      | _ => rfl
    rw [hvalue] at refreshed
    rw [hstart, Run.settles_bind]
    refine refreshed.imp fun _ w₁ h₁ => ?_
    refine ⟨w₁, none, ⟨rfl, rfl⟩, h₁.1, ⟨⟨rfl, fun _ => rfl, rfl, rfl, rfl, rfl, rfl⟩, rfl⟩, ?_, ?_, h₁.2⟩
    · intro k hk
      cases hk
    · exact fun o x hx => .inl (users h₁.1.1.linked o x hx)
  | some o =>
    have hstart : (Branch.entries v.projector).start E value = do
        refreshEntries E v.projector (some o)
        let id ← o.listen .entries (.entries v.projector o)
        return .unlistenObject o .entries id := by
      cases value with
      | object =>
        cases hvalue
        rfl
      | _ => cases hvalue
    rw [hvalue] at refreshed
    rw [hstart, Run.settles_bind]
    refine refreshed.imp fun _ w₁ h₁ => ?_
    have hsize : o.index < w₁.objects.size := h₁.1.1.made ▸ hmade o hvalue
    rw [Run.settles_bind]
    refine settles_listen o _ _ fun {w'} hrewired henv hls => ?_
    refine ⟨w₁, some ⟨o, ⟨w₁.nextListener⟩⟩, ⟨rfl, rfl⟩, h₁.1, ⟨hrewired, henv⟩, ?_, fun o' x hx => ?_,
      hrewired.depth.trans h₁.2.1, hrewired.config.trans h₁.2.2⟩
    · rintro k hk
      cases hk
      rw [hls, if_pos ⟨rfl, hsize⟩]
      exact List.mem_append_right _ (List.mem_singleton_self _)
    · rw [hls] at hx
      split at hx
      · rename_i he
        rcases List.mem_append.1 hx with hx | hx
        · exact .inl (users h₁.1.1.linked o x hx)
        · exact .inr ⟨_, rfl, he.1, List.mem_singleton.1 hx⟩
      · exact .inl (users h₁.1.1.linked o' x hx)

/-- The view is given another value. A key that the view has listed, and that is one of the new object's, keeps its pair. -/
theorem replace_settles {C : Callback π → Prop} {value : Value} {n : Nat} (hn : 0 < n) (h : v.Linked link w)
    (letGo : d < c.maxDispatchDepth → LetsGo (engine H n))
    (serves : ∀ {w' : World (Callback π) (Env π σ)}, v.Linked none w' → d < c.maxDispatchDepth →
      (engine H n).reactions.Serves (Fault.IsRefusal c) (d + 1) c C (v.Within none (objectOf value) K True w'))
    (readers : ∀ x ∈ (w.listCell v.output).listeners, C x.callback)
    (hmade : ∀ o, objectOf value = some o → o.index < w.objects.size) (hd : w.AtLevel d c) :
    ((engine H (n + 1)).emit (.switch v.slot (.entries v.projector)) value).Settles (Fault.IsRefusal c) w fun _ w' =>
      (∃ link', link'.map Link.object = objectOf value ∧ v.Linked link' w' ∧ v.Shows (objectOf value) w') ∧
      (∀ key ∈ K, key ∈ (w.entriesOf (objectOf value)).map (·.1) → key ∈ (w'.entriesOf (objectOf value)).map (·.1) ∧
        ∀ pair, Fields.get? key (v.pairs w) = some pair → Fields.get? key (v.pairs w') = some pair) ∧ w'.AtLevel d c := by
  obtain ⟨generation, hslot⟩ := h.slot
  change (restart (engine H n) v.slot ((Branch.entries v.projector).start (engine H n) value)).Settles _ w _
  have hcells {w : World (Callback π) (Env π σ)} (Q : Cells π → World (Callback π) (Env π σ) → Prop) :
      (cells : Live π σ (Cells π)).Settles (Fault.IsRefusal c) w Q ↔ Q w.env.cells w := Iff.rfl
  simp only [restart, takeCurrent, swapCurrent, Run.settles_bind, hcells, slot_of_cell hslot, Bool.false_eq_true, if_false]
  refine settles_modifySlot _ _ hslot fun {w₁} h₁ hobjects₁ hslot₁ => ?_
  rw [slot_of_cell hslot₁]
  refine settles_modifySlot _ _ hslot₁ fun {w₂} h₂ hobjects₂ hslot₂ => ?_
  rw [Run.settles_pure]
  have told₂ : ∀ o, ∀ x ∈ (w₂.objectCell o).listeners,
      x.callback.IsUser ∨ ∃ k, link = some k ∧ o = k.object ∧ x = v.listener k := by
    intro o x hx
    refine h.told o x ?_
    simpa only [World.objectCell, hobjects₂, hobjects₁] using hx
  refine (cancel_settles hn told₂).imp fun _ w₃ ended => ?_
  obtain ⟨⟨h₃, henv₃⟩, users⟩ := ended
  have hdone := (h₁.trans h₂).trans h₃
  have hslot₃ : w₃.env.cells.slots[v.slot.index]? = some ⟨handle none, generation + 1, false⟩ := by rw [henv₃, hslot₂]; rfl
  have hnone : v.Linked none w₃ := hdone.linked h ⟨_, hslot₃⟩ (fun k hk => by cases hk) fun o x hx => .inl (users o x hx)
  refine (start_settles hnone letGo serves (fun x hx => readers x (hdone.listCell _ ▸ hx)) (fun o ho => hdone.made ▸ hmade o ho)
    ⟨hdone.depth.trans hd.1, hdone.config.trans hd.2⟩).imp fun next w₅ ended => ?_
  obtain ⟨w₄, link', ⟨rfl, hobject⟩, ⟨hcarries, hshows⟩, ⟨h₅, henv₅⟩, hwatched, htold, hd₅⟩ := ended
  have hslot₅ : w₅.env.cells.slots[v.slot.index]? = some ⟨handle none, generation + 1, false⟩ := by
    rw [henv₅, hcarries.slots, hslot₃]
  simp only [Run.settles_bind, hcells, slot_of_cell hslot₅, Bool.false_or, bne_self_eq_false, Bool.false_eq_true, if_false]
  refine settles_modifySlot _ _ hslot₅ fun {w₆} h₆ hobjects₆ hslot₆ => ?_
  rw [Run.settles_pure]
  obtain ⟨n, rfl⟩ : ∃ m, n = m + 1 := ⟨n - 1, by omega⟩
  -- what was in the slot is nothing
  change _ ∧ _ ∧ _
  have hlater := h₅.trans h₆
  refine ⟨⟨link', hobject, hlater.linked hcarries.linked ⟨_, hslot₆⟩ (fun k hk => ?_) (fun o x hx => htold o x ?_),
    hlater.shows hshows⟩, fun key hK hkey => ?_, h₆.depth.trans hd₅.1, h₆.config.trans hd₅.2⟩
  · simpa only [World.objectCell, hobjects₆] using hwatched k hk
  · simpa only [World.objectCell, hobjects₆] using hx
  · rw [hlater.entriesOf, hlater.pairs, ← hdone.pairs]
    exact hcarries.kept key hK (by rwa [hdone.entriesOf])

/-! ## What happens to a view -/

/-- A view that lists nothing yet. -/
def make (what : Projection) : Live π σ EntryView := do
  let output ← ListId.create []
  let projector ← newProjector what output
  let slot ← newSlot
  return { what, output, projector, slot }

/-- Starting an expression for the entries of an object makes a view, which follows what the object expression gives, and hands out
its output. -/
theorem start_project (E : Engine π σ) (what : Projection) (object : Expr) (next : Sink π) (scope : Scope) :
    (Expr.project what object).start E next scope = do
      let v ← make what
      let outer ← object.start E (.switch v.slot (.entries v.projector)) scope
      E.emit next (.list v.output)
      return forEach v.slot outer := rfl

/-- Something that happens to a view and its object. -/
inductive Turn (π : Type)
  /-- A key of an object is set or deleted. -/
  | write (o : ObjectId) (op : ObjectOperation)
  /-- The view is given another value. -/
  | replace (value : Value)
  /-- The program listens to the output. -/
  | listen (topic : ListTopic) (reader : π)
  /-- The program listens to an object. -/
  | watch (o : ObjectId) (topic : ObjectTopic) (reader : π)

namespace Turn

def run (E : Engine π σ) (v : EntryView) : Turn π → Live π σ Unit
  | write o op => discard (op.run E.reactions o)
  | replace value => E.emit (.switch v.slot (.entries v.projector)) value
  | listen topic reader => discard (v.output.listen topic (.user reader))
  | watch o topic reader => discard (o.listen topic (.user reader))

/-- The object to show after the turn. -/
def object (shown : Option ObjectId) : Turn π → Option ObjectId
  | replace value => objectOf value
  | _ => shown

/-- The program listens to the output only for what was changed. An object that the view is given has been made, and nobody who
hears of it writes to that object before the view is registered with it: the output has no readers yet, or none of them may. -/
def Fair (P : ObjectId → ObjectOperation → Prop) (v : EntryView) (w : World (Callback π) (Env π σ)) : Turn π → Prop
  | replace value => ∀ o, objectOf value = some o →
    o.index < w.objects.size ∧ ((w.listCell v.output).listeners = [] ∨ ∀ op, ¬P o op)
  | listen topic _ => ¬topic.IsBefore
  | _ => True

/-- Nobody deletes a key of the object to show, neither the turn itself nor one of the program's listeners. -/
def Leaves (P : ObjectId → ObjectOperation → Prop) (shown : Option ObjectId) (key : String) (t : Turn π) : Prop :=
  ∀ o, t.object shown = some o → ¬P o (.delete key) ∧ ∀ op, t = .write o op → op ≠ .delete key

end Turn

/-- The item that the output lists for a key. -/
def ItemOf (v : EntryView) (shown : Option ObjectId) (w : World (Callback π) (Env π σ)) (key : String) (item : Value) : Prop :=
  ∃ (i : Nat) (value : Value), (w.entriesOf shown)[i]? = some (key, value) ∧ (w.listCell v.output).items[i]? = some item

/-- What the program finds when nothing is in progress. -/
structure Rests (v : EntryView) (c : Config) (shown : Option ObjectId) (w : World (Callback π) (Env π σ)) : Prop where
  linked : ∃ link, link.map Link.object = shown ∧ v.Linked link w
  shows : v.Shows shown w
  level : w.AtLevel 0 c

/-- The pairs of a view before and after a turn. -/
def KeepsPairs (P : ObjectId → ObjectOperation → Prop) (v : EntryView) (shown : Option ObjectId) (t : Turn π)
    (w w' : World (Callback π) (Env π σ)) : Prop :=
  ∀ key, t.Leaves P shown key → key ∈ (w.entriesOf (t.object shown)).map (·.1) →
    key ∈ (w'.entriesOf (t.object shown)).map (·.1) ∧
      ∀ pair, Fields.get? key (v.pairs w) = some pair → Fields.get? key (v.pairs w') = some pair

/-- A listener of a list is registered, after those that it has. -/
theorem settles_listenList {G : Fault → Prop} {l : ListId} (hl : l.index < w.lists.size) (topic : ListTopic) (callback : Callback π)
    {Q : ListenerId → World (Callback π) (Env π σ) → Prop}
    (h : ∀ {w'}, (∀ l', w'.listCell l' = if l' = l then
      { w.listCell l with listeners := (w.listCell l).listeners ++ [⟨⟨w.nextListener⟩, topic, callback⟩] } else w.listCell l') →
      w'.lists.size = w.lists.size → w'.objects = w.objects → w'.env = w.env → w'.depth = w.depth → w'.config = w.config →
        Q ⟨w.nextListener⟩ w') : (l.listen topic callback : Live π σ ListenerId).Settles G w Q := by
  refine h (fun l' => ?_) (World.lists_size_modifyList ..) rfl rfl rfl rfl
  rw [World.listCell_modifyList]
  by_cases he : l' = l
  · rw [if_pos ⟨he, hl⟩, if_pos he]
    rfl
  · rw [if_neg fun hm => he hm.1, if_neg he]
    rfl

/-- The program comes to listen to the output. -/
theorem listen_settles {G : Fault → Prop} {topic : ListTopic} (shown : Option ObjectId) (p : π) (ht : ¬topic.IsBefore) (h : v.Linked link w) :
    (v.output.listen topic (.user p) : Live π σ ListenerId).Settles G w fun _ w' =>
      (v.Linked link w' ∧ (v.Shows shown w → v.Shows shown w')) ∧ v.pairs w' = v.pairs w ∧ w'.entriesOf shown = w.entriesOf shown ∧
        w'.depth = w.depth ∧ w'.config = w.config := by
  refine settles_listenList h.output topic (.user p) fun {w'} hcell hsize hobjects henv hdepth hconfig => ?_
  have hitems (l : ListId) : (w'.listCell l).items = (w.listCell l).items := by
    rw [hcell]
    split
    · rename_i hl
      rw [hl]
    · rfl
  have hcells : w'.env.cells = w.env.cells := congrArg Env.cells henv
  have hobject (o : ObjectId) : w'.objectCell o = w.objectCell o := by simp only [World.objectCell, hobjects]
  have hpairs : v.pairs w' = v.pairs w := pairs_of_cells hcells
  have hentries : w'.entriesOf shown = w.entriesOf shown := entriesOf_of_objects hobjects shown
  refine ⟨⟨?_, fun hs => ?_⟩, hpairs, hentries, hdepth, hconfig⟩
  · refine ⟨by rw [hcells, hpairs, h.cell], by rw [hcells]; exact h.slot, hsize ▸ h.output, ?_, fun k hk => hobject _ ▸ h.watched k hk,
      fun o y hy => h.told o y (hobject o ▸ hy), fun y hy => ?_, fun o => by rw [hobject]; exact h.named o, by rw [hcells, h.orphans]⟩
    · rw [hpairs]
      refine ⟨h.paired.names, h.paired.apart, h.paired.output, fun q hq => hsize ▸ h.paired.made q hq, fun q hq => ?_, fun q hq => ?_⟩
      · rw [hcell, if_neg (h.paired.ne_output hq)]
        exact h.paired.unheard q hq
      · rw [hitems]
        exact h.paired.items q hq
    · rw [hcell, if_pos rfl] at hy
      rcases List.mem_append.1 hy with hy | hy
      · exact h.readers y hy
      · rw [List.mem_singleton.1 hy]
        exact ⟨ht, p, rfl⟩
  · unfold Shows at hs ⊢
    rw [hentries, hitems]
    exact hs.imp fun _ _ => lists_of hpairs fun q _ => hitems q.2

/-- The program comes to listen to an object. -/
theorem watch_settles {G : Fault → Prop} (topic : ObjectTopic) (p : π) (h : v.Linked link w) :
    (o.listen topic (.user p) : Live π σ ListenerId).Settles G w fun _ w' => Rewired w w' ∧ v.Linked link w' := by
  refine settles_listen o topic (.user p) fun {w'} hrewired henv hls => ⟨hrewired, hrewired.linked h ?_ (fun k hk => ?_) fun o' x hx => ?_⟩
  · rw [henv]
    exact h.slot
  · rw [hls]
    split
    · rename_i he
      exact List.mem_append_left _ (he.1 ▸ h.watched k hk)
    · exact h.watched k hk
  · rw [hls] at hx
    split at hx
    · rename_i he
      rcases List.mem_append.1 hx with hx | hx
      · exact h.told o' x (he.1 ▸ hx)
      · rw [List.mem_singleton.1 hx]
        exact .inl ⟨p, rfl⟩
    · exact h.told o' x hx

/-! ## Turns -/

variable {n : Nat}

/-- A turn ends with the view showing what it should, or is refused at the limit of nested dispatches. -/
theorem Turn.settles (hH : H.WritesBack P) (hc : 0 < c.maxDispatchDepth) (hn : c.maxDispatchDepth < n) (h : v.Rests c shown w)
    (t : Turn π) (fair : t.Fair P v w) : (t.run (engine H n) v).Settles (Fault.IsRefusal c) w fun _ w' =>
      v.Rests c (t.object shown) w' ∧ v.KeepsPairs P shown t w w' := by
  obtain ⟨link, rfl, hlinked⟩ := h.linked
  have attends (o : ObjectId) : Attends link (link.map Link.object) o := by
    intro ho
    obtain ⟨k, rfl, rfl⟩ := Option.map_eq_some_iff.1 ho
    exact ⟨k.id, rfl⟩
  have registered (k : Link) (hk : link = some k) : link.map Link.object = some k.object := by rw [hk]; rfl
  cases t with
  | write o op =>
    have admits (o' : ObjectId) (op' : ObjectOperation) (hop : P o' op') : Admits link (link.map Link.object)
        {key | (Turn.write o op : Turn π).Leaves P (link.map Link.object) key} o' op' := by
      refine ⟨attends o', fun hshown key hkey he => (hkey o' hshown).1 (he ▸ hop)⟩
    have hE (_ : 0 < c.maxDispatchDepth) := engine_serving (d := 1) (c := c) (v := v) hH admits registered n hc (by omega)
    change (discard (op.run (engine H n).reactions o)).Settles _ w _
    rw [Run.settles_discard]
    refine (write_follows hE (fun _ => hc) (attends o) (fun hshown key hkey => (hkey o hshown).2 op rfl) hlinked h.level).imp
      fun _ w' ended => ?_
    obtain ⟨hw', hd⟩ := ended
    exact ⟨⟨⟨link, rfl, hw'.linked⟩, hw'.shows h.shows, hd⟩, fun key hkey => hw'.kept key hkey⟩
  | replace value =>
    obtain ⟨n, rfl⟩ : ∃ m, n = m + 1 := ⟨n - 1, by omega⟩
    have hpos : 0 < n := by omega
    have finish {C : Callback π → Prop} (letGo : 0 < c.maxDispatchDepth → LetsGo (engine H n))
        (serves : ∀ {w' : World (Callback π) (Env π σ)}, v.Linked none w' → 0 < c.maxDispatchDepth →
          (engine H n).reactions.Serves (Fault.IsRefusal c) 1 c C (v.Within none (objectOf value) Set.univ True w'))
        (readers : ∀ x ∈ (w.listCell v.output).listeners, C x.callback) :
        ((Turn.replace value).run (engine H (n + 1)) v).Settles (Fault.IsRefusal c) w fun _ w' =>
          v.Rests c (objectOf value) w' ∧ v.KeepsPairs P (link.map Link.object) (.replace value) w w' := by
      refine (replace_settles hpos hlinked letGo serves readers (fun o ho => (fair o ho).1) h.level).imp fun _ w' ended => ?_
      obtain ⟨⟨link', hobject, hlinked', hshows⟩, hkept, hd⟩ := ended
      exact ⟨⟨⟨link', hobject, hlinked'⟩, hshows, hd⟩, fun key _ => hkept key (Set.mem_univ key)⟩
    by_cases quiet : ∀ o, objectOf value = some o → ∀ op, ¬P o op
    · -- nobody writes to the new object
      have admits (o' : ObjectId) (op' : ObjectOperation) (hop : P o' op') : Admits none (objectOf value) Set.univ o' op' :=
        ⟨fun ho => absurd hop (quiet o' ho op'), fun ho => absurd hop (quiet o' ho op')⟩
      have hE := engine_serving (d := 1) (c := c) (v := v) hH admits (fun k hk => by cases hk) n hc (by omega)
      exact finish (fun _ => hE.letGo) (fun _ _ => hE.serves True _) fun x hx => .inl (hlinked.readers x hx).2
    · -- nobody hears of the output
      have hnone : (w.listCell v.output).listeners = [] := by
        push Not at quiet
        obtain ⟨o, ho, op, hop⟩ := quiet
        exact (fair o ho).2.resolve_right fun hno => hno op hop
      have letGo : LetsGo (engine H n) := engine_letsGo hpos
      exact finish (fun _ => letGo) (fun _ _ => .nobody (Within.calm _) fun hI => letGo hI.1.linked.orphans) (by simp [hnone])
  | listen topic p =>
    change (discard (v.output.listen topic (.user p))).Settles _ w _
    rw [Run.settles_discard]
    refine (listen_settles (link.map Link.object) p fair hlinked).imp fun _ w' ended => ?_
    obtain ⟨⟨hlinked', hshows⟩, hpairs, hentries, hdepth, hconfig⟩ := ended
    refine ⟨⟨⟨link, rfl, hlinked'⟩, hshows h.shows, hdepth.trans h.level.1, hconfig.trans h.level.2⟩, fun key _ hkey => ?_⟩
    exact ⟨hentries.symm ▸ hkey, fun pair => by rw [hpairs]; exact id⟩
  | watch o topic p =>
    change (discard (o.listen topic (.user p))).Settles _ w _
    rw [Run.settles_discard]
    refine (watch_settles topic p hlinked).imp fun _ w' ended => ?_
    obtain ⟨hw', hlinked'⟩ := ended
    refine ⟨⟨⟨link, rfl, hlinked'⟩, hw'.shows h.shows, hw'.depth.trans h.level.1, hw'.config.trans h.level.2⟩, fun key _ hkey => ?_⟩
    exact ⟨(hw'.entriesOf _).symm ▸ hkey, fun pair => by rw [hw'.pairs]; exact id⟩

/-- The output has an item for every entry, at its place. -/
theorem Shows.at {i : Nat} {entry : String × Value} (h : v.Shows shown w) (he : (w.entriesOf shown)[i]? = some entry) :
    ∃ item, (w.listCell v.output).items[i]? = some item ∧ v.Lists w entry item := by
  obtain ⟨hlength, hall⟩ := List.forall₂_iff_get.1 h
  obtain ⟨hi, rfl⟩ := List.getElem?_eq_some_iff.1 he
  exact ⟨_, List.getElem?_eq_getElem (hlength ▸ hi), hall i hi (hlength ▸ hi)⟩

/-- A key that stays listed keeps its pair in the output. -/
theorem KeepsPairs.item {t : Turn π} (h : v.KeepsPairs P shown t w w') (hs : v.Shows shown w) (hs' : v.Shows (t.object shown) w')
    (hwhat : v.what = .items) {key : String} {item : Value} (hkey : t.Leaves P shown key)
    (hstays : key ∈ (w.entriesOf (t.object shown)).map (·.1)) (hi : v.ItemOf shown w key item) :
    v.ItemOf (t.object shown) w' key item := by
  obtain ⟨i, value, he, hitem⟩ := hi
  obtain ⟨hstays, hpairs⟩ := h key hkey hstays
  obtain ⟨⟨key, value'⟩, hmem, rfl⟩ := List.mem_map.1 hstays
  obtain ⟨j, hj⟩ := List.mem_iff_getElem?.1 hmem
  obtain ⟨item₁, hitem₁, hlists⟩ := hs.at he
  obtain ⟨item₂, hitem₂, hlists'⟩ := hs'.at hj
  rw [hitem, Option.some.injEq] at hitem₁
  simp only [Lists, hwhat] at hlists hlists'
  obtain ⟨pair, -, hpair, hget, -⟩ := hlists
  obtain ⟨pair', -, hpair', hget', -⟩ := hlists'
  rw [hpairs pair hget, Option.some.injEq] at hget'
  exact ⟨j, value', hj, by rw [hitem₂, hpair', hitem₁, hpair, hget']⟩

/-- A world in which no view of entries is at work: only the program listens to objects, and no view has been given up. -/
structure Plain (c : Config) (w : World (Callback π) (Env π σ)) : Prop where
  users : ∀ o, ∀ x ∈ (w.objectCell o).listeners, x.callback.IsUser
  named : ∀ o, ((w.objectCell o).entries.map (·.1)).Nodup
  orphans : w.env.cells.orphans = []
  level : w.AtLevel 0 c

theorem make_rests (what : Projection) (h : Plain c w) {w' : World (Callback π) (Env π σ)}
    (run : (make what : Live π σ EntryView) w = .ok v w') : v.what = what ∧ v.Rests c none w' := by
  have hmade : (make what : Live π σ EntryView).Settles (fun _ => True) w fun v w' => v.what = what ∧ v.Rests c none w' := by
    simp only [make, Run.settles_bind]
    refine settles_create [] fun {w₁} h₁ henv hconfig hdepth hsize hitems => ?_
    refine ⟨rfl, ⟨⟨none, rfl, ?_⟩, ?_, hdepth.trans h.level.1, hconfig.trans h.level.2⟩⟩
    · have object (o : ObjectId) : w₁.objectCell o = w.objectCell o := by simp only [World.objectCell, h₁.objects]
      have hfresh : (w₁.listCell ⟨w.lists.size⟩).listeners = [] :=
        (h₁.listeners _).trans (by simp [World.listCell, Array.getD_eq_getD_getElem?])
      refine ⟨?_, ⟨0, ?_⟩, hsize, ?_, fun k hk => (by cases hk), fun o x hx => .inl (h.users o x (object o ▸ hx)), fun x hx => ?_,
        fun o => ?_, ?_⟩
      · simp [EntryView.pairs, Cells.projector, Array.getD_eq_getD_getElem?]
      · simp [handle]
      · simp only [EntryView.pairs, Cells.projector, Array.getD_eq_getD_getElem?, Array.getElem?_push_size, Option.getD_some]
        exact ⟨.nil, .nil, by simp, by simp, by simp, by simp⟩
      · change x ∈ (w₁.listCell ⟨w.lists.size⟩).listeners at hx
        rw [hfresh] at hx
        cases hx
      · change ((w₁.objectCell o).entries.map (·.1)).Nodup
        rw [object]
        exact h.named o
      · change w₁.env.cells.orphans = []
        rw [henv, h.orphans]
    · change List.Forall₂ _ [] (w₁.listCell ⟨w.lists.size⟩).items
      rw [hitems]
      exact .nil
  exact hmade.of_eq run

/-- The worlds in which a view that was made in a plain world finds itself, with the object that it is to show. -/
inductive Reaches (H : Host π σ) (P : ObjectId → ObjectOperation → Prop) (n : Nat) (c : Config) (v : EntryView) :
    Option ObjectId → World (Callback π) (Env π σ) → Prop
  | start {w w' : World (Callback π) (Env π σ)} (plain : Plain c w) (run : (make v.what : Live π σ EntryView) w = .ok v w') : Reaches H P n c v none w'
  | turn {shown : Option ObjectId} {w w' : World (Callback π) (Env π σ)} (t : Turn π) (h : Reaches H P n c v shown w) (fair : t.Fair P v w)
      (run : t.run (engine H n) v w = .ok ⟨⟩ w') : Reaches H P n c v (t.object shown) w'

theorem Reaches.rests (hH : H.WritesBack P) (hc : 0 < c.maxDispatchDepth) (hn : c.maxDispatchDepth < n)
    (h : Reaches H P n c v shown w) : v.Rests c shown w := by
  induction h with
  | start plain run => exact (make_rests _ plain run).2
  | turn t _ fair run ih => exact ((Turn.settles hH hc hn ih t fair).of_eq run).1

/-- A view of an object's entries follows what happens to it, also when its readers write back: every turn is refused at the limit
of nested dispatches or ends with the entries in the output, in insertion order. A key that nobody deletes keeps its pair. -/
theorem Reaches.shows_entries (hH : H.WritesBack P) (hc : 0 < c.maxDispatchDepth) (hn : c.maxDispatchDepth < n)
    (h : Reaches H P n c v shown w) (t : Turn π) (fair : t.Fair P v w) :
    (t.run (engine H n) v).Settles (Fault.IsRefusal c) w fun _ w' => v.Shows (t.object shown) w' ∧
      ∀ key item, v.what = .items → t.Leaves P shown key → key ∈ (w.entriesOf (t.object shown)).map (·.1) →
        v.ItemOf shown w key item → v.ItemOf (t.object shown) w' key item := by
  have hrests := h.rests hH hc hn
  refine (Turn.settles hH hc hn hrests t fair).imp fun _ w' ended => ?_
  obtain ⟨hrests', hkeeps⟩ := ended
  exact ⟨hrests'.shows, fun key item hwhat hkey hstays => hkeeps.item hrests.shows hrests'.shows hwhat hkey hstays⟩

end EntryView

/-! ## An object that its readers write to -/

/-- A key is set, unless the limit of nested dispatches would have that done without a dispatch. -/
def Response.setting (key : String) (w : World (Callback π) (Env π σ)) : Response (Callback π) (Env π σ) :=
  if w.config.onDepthExceeded = .skip ∧ w.config.maxDispatchDepth ≤ w.depth then .done
  else .change (.object ⟨0⟩ (.set key (.bool true))) fun _ _ => .done

/-- A program that sets a key of the first object whenever it hears something. -/
def Host.setting (key : String) : Host Unit Unit where
  listener E _ _ w := (Response.setting key w).run E.reactions w
  observer _ _ _ := pure ()
  teardown _ _ := pure ()

/-- An object with one key. -/
def World.oneKey : World (Callback Unit) (Env Unit Unit) where
  objects := #[{ entries := [("a", .bool true)] }]
  config := { maxDispatchDepth := 8, onDepthExceeded := .panic }
  env := { host := () }

namespace EntryView

/-- The program sets one key of the first object. -/
theorem setting_writesBack (key : String) :
    (Host.setting key).WritesBack fun o op => o = ⟨0⟩ ∧ op = .set key (.bool true) := by
  intro p e w
  refine ⟨.setting key w, ?_, fun _ => rfl, fun skip limit => if_pos ⟨skip, limit⟩⟩
  unfold Response.setting
  split
  · trivial
  · exact ⟨⟨rfl, rfl⟩, fun _ _ => trivial⟩

/-- A reader sets a key whenever it hears of a change of the output; the output lists that key as well. -/
theorem Reaches.shows_entries_setting :
    let P : ObjectId → ObjectOperation → Prop := fun o op => o = ⟨0⟩ ∧ op = .set "b" (.bool true)
    let v : EntryView := ⟨.items, ⟨0⟩, ⟨0⟩, ⟨0⟩⟩
    let t : Turn Unit := .write ⟨0⟩ (.set "c" .null)
    (Host.setting "b").WritesBack P ∧ 0 < World.oneKey.config.maxDispatchDepth ∧ World.oneKey.config.maxDispatchDepth < 9 ∧
      ∃ w, Reaches (.setting "b") P 9 World.oneKey.config v (some ⟨0⟩) w ∧ t.Fair P v w ∧
        (t.run (engine (.setting "b") 9) v).Settles (Fault.IsRefusal World.oneKey.config) w fun _ w' => v.Shows (some ⟨0⟩) w' ∧
          ∀ key item, v.what = .items → t.Leaves P (some ⟨0⟩) key → key ∈ (w.entriesOf (some ⟨0⟩)).map (·.1) →
            v.ItemOf (some ⟨0⟩) w key item → v.ItemOf (some ⟨0⟩) w' key item := by
  intro P v t
  have hH : (Host.setting "b").WritesBack P := setting_writesBack "b"
  have hruns : (make .items : Live Unit Unit EntryView).Ends World.oneKey fun v' w₁ =>
      (v' = v ∧ 0 < w₁.objects.size ∧ (w₁.listCell v.output).listeners.isEmpty = true) ∧
        ((Turn.replace (.object ⟨0⟩)).run (engine (.setting "b") 9) v).Ends w₁ fun _ w₂ =>
          ((Turn.listen .content ()).run (engine (.setting "b") 9) v).Ends w₂ fun _ _ => True := by
    decide +kernel
  have hplain : Plain World.oneKey.config World.oneKey := by
    have object (o : ObjectId) : World.oneKey.objectCell o = { entries := [("a", .bool true)] } ∨ World.oneKey.objectCell o = {} := by
      obtain ⟨i⟩ := o
      cases i with
      | zero => exact .inl rfl
      | succ i => exact .inr (by simp [World.objectCell, World.oneKey])
    refine ⟨fun o x hx => ?_, fun o => ?_, rfl, rfl, rfl⟩
    · rcases object o with ho | ho <;> simp [ho] at hx
    · rcases object o with ho | ho <;> simp [ho]
  obtain ⟨_, w₁, run₁, ⟨rfl, hsize, hnone⟩, hruns⟩ := Run.ends_iff.1 hruns
  obtain ⟨_, w₂, run₂, hruns⟩ := Run.ends_iff.1 hruns
  obtain ⟨_, w₃, run₃, -⟩ := Run.ends_iff.1 hruns
  have h₁ : Reaches (.setting "b") P 9 World.oneKey.config v none w₁ := .start hplain run₁
  have h₂ := h₁.turn (.replace (.object ⟨0⟩)) (fun o ho => by cases ho; exact ⟨hsize, .inl (List.isEmpty_iff.1 hnone)⟩) run₂
  have h₃ := h₂.turn (.listen .content ()) id run₃
  exact ⟨hH, by decide, by decide, w₃, h₃, trivial, h₃.shows_entries hH (by decide) (by decide) t trivial⟩

/-- When the output has readers already, they are told of a new object before the view is registered with it: the key that one of
them sets then is not listed. -/
theorem replace_unheard : (do
      let v ← make .keys
      (Turn.listen .content ()).run (engine (.setting "b") 9) v
      (Turn.replace (.object ⟨0⟩)).run (engine (.setting "b") 9) v : Live Unit Unit Unit).Ends .oneKey fun _ w' =>
    (w'.listCell ⟨0⟩).items = [.text "a"] ∧ (w'.objectCell ⟨0⟩).entries.map (·.1) = ["a", "b"] := by
  decide +kernel

/-- A reader of a pair is told of its new value while the pairs are being set: when it sets a key then, the view would have to be
refreshed once more, and the change is abandoned. -/
theorem write_refused : (do
      let v ← make .items
      (Turn.replace (.object ⟨0⟩)).run (engine (.setting "b") 9) v
      discard ((⟨1⟩ : ListId).listen .content (.user ()))
      (Turn.write ⟨0⟩ (.set "a" .null)).run (engine (.setting "b") 9) v : Live Unit Unit Unit).Settles (· = .tuplesBusy) .oneKey
        fun _ _ => False := by
  decide +kernel

end EntryView

end LiveBindings
