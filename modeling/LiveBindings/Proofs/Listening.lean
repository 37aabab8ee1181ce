import LiveBindings.Proofs.Feeds

/-!
# What a view listens to

A view may listen to lists that it only looks at. Its listeners are known one by one (`Tap`): `Tapped` says that those that lead to
the view are the given ones and no others. Registering a listener adds one (`Around.listen`), and the handle that came of it takes
exactly that one away (`Around.unlisten`), because a number is never given out twice.
-/

namespace LiveBindings

variable {π σ : Type}

/-- In a list of listeners with different numbers, removing one takes away what has its number, which is only the listener itself. -/
theorem Listeners.remove_filter {τ κ : Type} [DecidableEq τ] {ls : List (Listener τ κ)} {x : Listener τ κ} {q : Listener τ κ → Bool}
    (hnodup : (ls.map (·.id)).Nodup) (hx : x ∈ ls) (hq : q x = false) :
    (Listeners.remove x.topic x.id ls).filter q = ls.filter q := by
  rw [remove, List.filter_filter]
  refine List.filter_congr fun y hy => ?_
  by_cases hid : y.id = x.id
  · obtain rfl := List.inj_on_of_nodup_map hnodup hy hx hid
    simp [hq]
  · simp [hid]

theorem Listeners.mem_remove {τ κ : Type} [DecidableEq τ] {ls : List (Listener τ κ)} {x y : Listener τ κ}
    (hnodup : (ls.map (·.id)).Nodup) (hx : x ∈ ls) :
    y ∈ Listeners.remove x.topic x.id ls ↔ y ∈ ls ∧ y.id ≠ x.id := by
  rw [remove, List.mem_filter]
  refine and_congr_right fun hy => ?_
  by_cases hid : y.id = x.id
  · obtain rfl := List.inj_on_of_nodup_map hnodup hy hx hid
    simp
  · simp [hid]

theorem Callback.eq_of_watches {b b' : Ref .block} {c : Callback π} (h : c.watches b = true) (h' : c.watches b' = true) : b = b' := by
  cases c with
  | content b'' => exact (of_decide_eq_true h).symm.trans (of_decide_eq_true h')
  | segment b'' => exact (of_decide_eq_true h).symm.trans (of_decide_eq_true h')
  | _ => cases h

namespace World

variable {w : World (Callback π) (Env π σ)} {l : ListId} {b : Ref .block} {x : Listener ListTopic (Callback π)}

theorem mem_watch : x ∈ w.watch l b ↔ x ∈ (w.listCell l).listeners ∧ x.callback.watches b = true := List.mem_filter

/-- A listener with the number of one that there was is that one. -/
theorem Registers.mem_of_id {κ ε : Type} {w w' : World κ ε} (h : w.Registers w') (hw : w.Numbered) {l : ListId}
    {x : Listener ListTopic κ} (hx : x ∈ (w.listCell l).listeners) (hid : l.registered w' x.id = true) :
    x ∈ (w'.listCell l).listeners := by
  obtain ⟨y, hy, hyid⟩ := List.any_eq_true.1 hid
  rw [decide_eq_true_eq] at hyid
  rcases h.fresh l y hy with hold | hnew
  · rwa [← List.inj_on_of_nodup_map (hw l).1 hold hx hyid]
  · have hlt := (hw l).2 x hx
    rw [← hyid] at hlt
    omega

/-! ## Registering and removing a listener -/

/-- The world after a listener for the content of a list has been registered. -/
def register (w : World (Callback π) (Env π σ)) (l : ListId) (c : Callback π) : World (Callback π) (Env π σ) :=
  World.modifyList l (fun cell => { cell with listeners := cell.listeners ++ [⟨⟨w.nextListener⟩, .content, c⟩] })
    { w with nextListener := w.nextListener + 1 }

/-- The world after what has a number has been taken from the listeners for the content of a list. -/
def unregister (w : World (Callback π) (Env π σ)) (l : ListId) (id : ListenerId) : World (Callback π) (Env π σ) :=
  World.modifyList l (fun cell => { cell with listeners := Listeners.remove .content id cell.listeners }) w

section

variable {c : Callback π} (hl : l.index < w.lists.size)

include hl

theorem listCell_register (l' : ListId) : (w.register l c).listCell l' =
    if l' = l then { w.listCell l with listeners := (w.listCell l).listeners ++ [⟨⟨w.nextListener⟩, .content, c⟩] }
    else w.listCell l' := by
  rw [register, World.listCell_modifyList]
  simp [hl, World.listCell]

theorem items_register (l' : ListId) : ((w.register l c).listCell l').items = (w.listCell l').items := by
  rw [listCell_register hl]
  split
  · rename_i he
    rw [he]
  · rfl

theorem listeners_register (l' : ListId) : ((w.register l c).listCell l').listeners =
    (w.listCell l').listeners ++ if l' = l then [⟨⟨w.nextListener⟩, .content, c⟩] else [] := by
  rw [listCell_register hl]
  split
  · rename_i he
    rw [he]
  · rw [List.append_nil]

theorem watch_register (l' : ListId) (b' : Ref .block) : (w.register l c).watch l' b' =
    w.watch l' b' ++ if l' = l ∧ c.watches b' = true then [⟨⟨w.nextListener⟩, .content, c⟩] else [] := by
  rw [watch, listeners_register hl, List.filter_append, watch]
  congr 1
  by_cases he : l' = l <;> by_cases hc : c.watches b' = true <;> simp [he, hc]

/-- The new listener has a number that no other has. -/
theorem numbered_register (hn : w.Numbered) : (w.register l c).Numbered := by
  intro l'
  obtain ⟨hnodup, hlt⟩ := hn l'
  have hnext : (w.register l c).nextListener = w.nextListener + 1 := rfl
  rw [listeners_register hl, hnext]
  split
  · rw [List.map_append, List.nodup_append]
    refine ⟨⟨hnodup, by simp, ?_⟩, fun y hy => ?_⟩
    · simp only [List.map_cons, List.map_nil, List.mem_singleton, forall_eq]
      intro id hid he
      obtain ⟨y, hy, rfl⟩ := List.mem_map.1 hid
      exact (hlt y hy).ne (by rw [he])
    · rcases List.mem_append.1 hy with hy | hy
      · exact (hlt y hy).trans (Nat.lt_succ_self _)
      · rw [List.mem_singleton.1 hy]
        exact Nat.lt_succ_self _
  · rw [List.append_nil]
    exact ⟨hnodup, fun y hy => (hlt y hy).trans (Nat.lt_succ_self _)⟩

/-- To everything but the view, registering a listener that leads to it is nothing. -/
theorem inert_register (hc : c.watches b = true) : w.Inert (w.register l c) := by
  refine ⟨fun p hp => ?_, fun l' => ?_, fun _ => rfl, ⟨Nat.le_succ _, fun l' y hy => ?_⟩, numbered_register hl, rfl, rfl, rfl⟩
  · cases p with
    | list l' => simpa [World.Made, register, World.modifyList] using hp
    | _ => exact hp
  · rw [listeners_register hl, List.filter_append]
    split <;> simp [Callback.isWatching_of_watches hc]
  · rw [listeners_register hl] at hy
    rcases List.mem_append.1 hy with hy | hy
    · exact .inl hy
    · split at hy
      · rw [List.mem_singleton.1 hy]
        exact .inr le_rfl
      · cases hy

theorem listCell_unregister (id : ListenerId) (l' : ListId) : (w.unregister l id).listCell l' =
    if l' = l then { w.listCell l with listeners := Listeners.remove .content id (w.listCell l).listeners } else w.listCell l' := by
  rw [unregister, World.listCell_modifyList]
  simp [hl]

theorem items_unregister (id : ListenerId) (l' : ListId) : ((w.unregister l id).listCell l').items = (w.listCell l').items := by
  rw [listCell_unregister hl]
  split
  · rename_i he
    rw [he]
  · rfl

variable (hn : w.Numbered) (hx : x ∈ (w.listCell l).listeners) (htopic : x.topic = .content)

include hn hx htopic

/-- Of any listeners but the one that is removed, all are still there. -/
theorem filter_unregister {q : Listener ListTopic (Callback π) → Bool} (l' : ListId) (hq : l' ≠ l ∨ q x = false) :
    ((w.unregister l x.id).listCell l').listeners.filter q = (w.listCell l').listeners.filter q := by
  rw [listCell_unregister hl]
  split
  · rename_i he
    subst he
    rw [← htopic]
    exact Listeners.remove_filter (hn l').1 hx (hq.resolve_left (· rfl))
  · rfl

theorem mem_unregister {y : Listener ListTopic (Callback π)} (l' : ListId) : y ∈ ((w.unregister l x.id).listCell l').listeners ↔
    y ∈ (w.listCell l').listeners ∧ (l' = l → y.id ≠ x.id) := by
  rw [listCell_unregister hl]
  split
  · rename_i he
    subst he
    rw [← htopic]
    exact (Listeners.mem_remove (hn l').1 hx).trans (by simp)
  · rename_i he
    simp [he]

/-- To everything but the view, removing a listener that leads to it is nothing. -/
theorem inert_unregister (hc : x.callback.watches b = true) : w.Inert (w.unregister l x.id) := by
  have hmem := fun y l' => mem_unregister hl hn hx htopic (y := y) l'
  refine ⟨fun p hp => ?_, fun l' => filter_unregister hl hn hx htopic l' (.inr ?_), fun _ => rfl,
    ⟨le_rfl, fun l' y hy => .inl ((hmem y l').1 hy).1⟩, fun _ l' => ⟨?_, fun y hy => (hn l').2 y ((hmem y l').1 hy).1⟩, rfl, rfl, rfl⟩
  · cases p with
    | list l' => simpa [World.Made, unregister, World.modifyList] using hp
    | _ => exact hp
  · simp [Callback.isWatching_of_watches hc]
  · rw [listCell_unregister hl]
    split
    · exact (hn l).1.sublist (List.Sublist.map _ List.filter_sublist)
    · exact (hn l').1

end

end World

/-- A listener of a view: the list that it listens to, its number, and what it does when it hears of the content. -/
structure Tap (π : Type) where
  list : ListId
  id : ListenerId
  callback : Callback π

namespace Tap

/-- The listener as the list has it. -/
def listener (t : Tap π) : Listener ListTopic (Callback π) := ⟨t.id, .content, t.callback⟩

/-- What takes the listener down. -/
def handle (t : Tap π) : Cancel π := .unlistenList t.list .content t.id

/-- What tells it apart from other listeners. -/
def key (t : Tap π) : ListId × ListenerId := (t.list, t.id)

end Tap

namespace Neighbours

variable {N : Neighbours π σ} {E : Engine π σ} {S T : Set Part} {w w' : World (Callback π) (Env π σ)} {l : ListId} {b : Ref .block}
  {t : Tap π} {taps taps' : List (Tap π)}

/-- What a view relies on that listens to the lists it looks at: the numbers of listeners are in order, before the view is made nothing
leads to it, from then on it is free to listen to the lists, and whatever else listens to them is a neighbour. -/
structure Attentive (N : Neighbours π σ) (b : Ref .block) : Prop where
  numbered : ∀ {w}, N.calm w → w.Numbered
  lists : ∀ {w p}, N.calm w → p ∈ N.sources w → ∃ l, p = .list l
  free : ∀ {w l}, N.calm w → w.Made (.block b) → N.Sees w (.list l) → .list l ∉ N.theirs w ∧ .watch l b ∉ N.theirs w
  told : ∀ {w l}, N.calm w → N.Sees w (.list l) → ∀ x ∈ (w.listCell l).listeners,
    x.callback.watches b = true ∨ (x.callback ∈ N.callbacks ∧ N.ears x.callback ⊆ {.list l})
  unwatched : ∀ {w l}, N.calm w → ¬w.Made (.block b) → w.watch l b = []

/-- The listeners that lead to a view are the given ones. -/
structure Tapped (N : Neighbours π σ) (b : Ref .block) (taps : List (Tap π)) (w : World (Callback π) (Env π σ)) : Prop where
  sees : ∀ t ∈ taps, N.Sees w (.list t.list)
  nodup : (taps.map Tap.key).Nodup
  watch : ∀ l x, x ∈ w.watch l b ↔ ∃ t ∈ taps, t.list = l ∧ t.listener = x

/-- The parts that change when the view changes what it listens to. -/
def watchParts (b : Ref .block) : Set Part := {p | ∃ l, p = .watch l b}

@[simp] theorem list_notMem_watchParts {l : ListId} : .list l ∉ watchParts b := nofun

@[simp] theorem block_notMem_watchParts {b' : Ref .block} : .block b' ∉ watchParts b := nofun

@[simp] theorem segment_notMem_watchParts {s : Ref .segment} : .segment s ∉ watchParts b := nofun

@[simp] theorem slot_notMem_watchParts {s : Ref .slot} : .slot s ∉ watchParts b := nofun

namespace Tapped

theorem mem (h : N.Tapped b taps w) (ht : t ∈ taps) : t.listener ∈ (w.listCell t.list).listeners :=
  (World.mem_watch.1 ((h.watch _ _).2 ⟨t, ht, rfl, rfl⟩)).1

theorem watches (h : N.Tapped b taps w) (ht : t ∈ taps) : t.callback.watches b = true :=
  (World.mem_watch.1 ((h.watch _ t.listener).2 ⟨t, ht, rfl, rfl⟩)).2

theorem after (h : N.Tapped b taps w) (h' : N.Changes S T w w') (hb : N.Owns w (.block b)) (hS : ∀ l, .watch l b ∉ S) :
    N.Tapped b taps w' where
  sees t ht := h'.sees _ (h.sees t ht)
  nodup := h.nodup
  watch l x := by rw [h'.watch l b hb (hS l), h.watch l x]

theorem during (h : N.Tapped b taps w) (hN : N.Around E) (hw : N.calm w) (q : Progress π) : N.Tapped b taps (w.during q) :=
  ⟨fun t ht => hN.sees_during hw (h.sees t ht) q, h.nodup, h.watch⟩

/-- In which order the listeners are known does not matter. -/
theorem perm (h : N.Tapped b taps w) (hp : taps.Perm taps') : N.Tapped b taps' w where
  sees t ht := h.sees t (hp.mem_iff.2 ht)
  nodup := (hp.map _).nodup_iff.1 h.nodup
  watch l x := by
    rw [h.watch l x]
    exact exists_congr fun t => and_congr_left fun _ => hp.mem_iff

end Tapped

/-- Nobody but neighbours hears of anything but the content of a list that the view listens to. -/
theorem Tapped.told (h : N.Tapped b taps w) (hA : N.Attentive b) (hw : N.calm w) (hl : N.Sees w (.list l)) {topic : ListTopic}
    (ht : topic ≠ .content) : N.Told {.list l} topic l w := by
  intro x hx
  obtain ⟨hx, htopic⟩ := List.mem_filter.1 hx
  rw [decide_eq_true_eq] at htopic
  refine (hA.told hw hl x hx).resolve_left fun hwatches => ?_
  obtain ⟨t, -, -, rfl⟩ := (h.watch l x).1 (World.mem_watch.2 ⟨hx, hwatches⟩)
  exact ht htopic.symm

/-- The items of a list that the view looks at are the same after what does not change it. -/
theorem Changes.elements {v : Value} (h : N.Changes S T w w') (hv : ∀ l, v = .list l → N.Sees w (.list l))
    (hS : ∀ l, N.Sees w (.list l) → .list l ∉ S) : w'.elements v = w.elements v := by
  cases v with
  | list l => exact h.kept _ (hv l rfl) (hS l (hv l rfl))
  | _ => rfl

namespace Around

variable (hN : N.Around E)

include hN

/-- The view changes what it listens to of a list that it looks at. -/
theorem changeListeners (hA : N.Attentive b) (hw : N.calm w) (hb : N.Owns w (.block b)) (hl : N.Sees w (.list l)) (h : w.Inert w')
    (hitems : ∀ l', (w'.listCell l').items = (w.listCell l').items)
    (hwatch : ∀ l' b', l' ≠ l ∨ b' ≠ b → w'.watch l' b' = w.watch l' b') (hobjects : w'.objects = w.objects)
    (hcells : w'.env.cells = w.env.cells) (progress : w'.progress = w.progress) : N.Changes (watchParts b) ∅ w w' := by
  refine (hN.changePart hw (hA.free hw hb.made hl).2 h (fun p hp => ?_) progress).mono (fun p hp => ⟨l, hp⟩) subset_rfl
  cases p with
  | list l' => exact hitems l'
  | object o => simp only [World.HoldsSame, World.objectCell, hobjects]
  | watch l' b' => exact hwatch l' b' (not_and_or.1 fun he => hp (by rw [he.1, he.2]))
  | _ => simp only [World.HoldsSame, hcells]

/-- The view registers a listener with a list that it looks at. -/
theorem listen {c : Callback π} (hA : N.Attentive b) (hw : N.calm w) (hb : N.Owns w (.block b)) (h : N.Tapped b taps w)
    (hl : N.Sees w (.list l)) (hc : c.watches b = true) :
    (l.listen .content c : Live π σ ListenerId).Ends w fun id w' => N.Changes (watchParts b) ∅ w w' ∧
      N.Tapped b (⟨l, id, c⟩ :: taps) w' := by
  have hsize : l.index < w.lists.size := hl.made
  have hchanges : N.Changes (watchParts b) ∅ w (w.register l c) := by
    refine hN.changeListeners hA hw hb hl (World.inert_register hsize hc) (World.items_register hsize) (fun l' b' hne => ?_) rfl rfl rfl
    rw [World.watch_register hsize, if_neg, List.append_nil]
    rintro ⟨hl', hc'⟩
    exact hne.elim (· hl') (· (Callback.eq_of_watches hc' hc))
  change N.Changes (watchParts b) ∅ w (w.register l c) ∧ N.Tapped b (⟨l, ⟨w.nextListener⟩, c⟩ :: taps) (w.register l c)
  refine ⟨hchanges, ?_, ?_, fun l' y => ?_⟩
  · rw [List.forall_mem_cons]
    exact ⟨hchanges.sees _ hl, fun t ht => hchanges.sees _ (h.sees t ht)⟩
  · rw [List.map_cons, List.nodup_cons]
    refine ⟨fun hmem => ?_, h.nodup⟩
    obtain ⟨t, ht, hkey⟩ := List.mem_map.1 hmem
    have hlt : t.id.index < w.nextListener := (hA.numbered hw t.list).2 t.listener (h.mem ht)
    rw [show t.id = ⟨w.nextListener⟩ from congrArg Prod.snd hkey] at hlt
    exact lt_irrefl _ hlt
  · rw [World.watch_register hsize, List.mem_append, h.watch, List.exists_mem_cons_iff, or_comm]
    refine or_congr ?_ Iff.rfl
    by_cases hl' : l' = l
    · simp [hl', hc, Tap.listener, eq_comm]
    · simp [hl', Ne.symm hl']

/-- The view takes one of its listeners down. -/
theorem unlisten (hA : N.Attentive b) (hw : N.calm w) (hb : N.Owns w (.block b)) (h : N.Tapped b (t :: taps) w) :
    (t.list.unlisten .content t.id : Live π σ Unit).Ends w fun _ w' => N.Changes (watchParts b) ∅ w w' ∧ N.Tapped b taps w' := by
  have hl : N.Sees w (.list t.list) := h.sees t (List.mem_cons_self ..)
  have hsize : t.list.index < w.lists.size := hl.made
  have hn := hA.numbered hw
  have hx := h.mem (List.mem_cons_self ..)
  have hc := h.watches (List.mem_cons_self ..)
  have hchanges : N.Changes (watchParts b) ∅ w (w.unregister t.list t.id) := by
    refine hN.changeListeners hA hw hb hl (World.inert_unregister hsize hn hx rfl hc) (World.items_unregister hsize _) ?_ rfl rfl rfl
    intro l' b' hne
    refine World.filter_unregister hsize hn hx rfl l' (hne.imp_right fun hb => ?_)
    exact Bool.eq_false_iff.2 fun hc' => hb (Callback.eq_of_watches hc' hc)
  change N.Changes (watchParts b) ∅ w (w.unregister t.list t.id) ∧ N.Tapped b taps (w.unregister t.list t.id)
  have hother := List.nodup_cons.1 h.nodup
  refine ⟨hchanges, fun t' ht' => hchanges.sees _ (h.sees t' (List.mem_cons_of_mem _ ht')), hother.2, fun l' y => ?_⟩
  have hmem : y ∈ ((w.unregister t.list t.id).listCell l').listeners ↔ y ∈ (w.listCell l').listeners ∧ (l' = t.list → y.id ≠ t.id) :=
    World.mem_unregister hsize hn hx rfl l'
  rw [World.mem_watch, hmem, and_right_comm, ← World.mem_watch, h.watch]
  constructor
  · rintro ⟨⟨t', ht', rfl, rfl⟩, hne⟩
    rcases List.mem_cons.1 ht' with rfl | ht'
    · exact absurd rfl (hne rfl)
    · exact ⟨t', ht', rfl, rfl⟩
  · rintro ⟨t', ht', rfl, rfl⟩
    refine ⟨⟨t', List.mem_cons_of_mem _ ht', rfl, rfl⟩, fun hlist hid => hother.1 ?_⟩
    have hkey : t'.key = t.key := Prod.ext hlist hid
    exact hkey ▸ List.mem_map_of_mem ht'

/-- What is announced of a list that the view looks at before it changes concerns none but neighbours. -/
theorem opening {change : ListChange} {before : ListReport} (hA : N.Attentive b) (hw : N.calm w) (hb : N.Owns w (.block b))
    (h : N.Tapped b taps w) (hl : N.Sees w (.list l)) :
    (l.opening E.reactions change before).Ends w fun _ w' => N.Changes ∅ {.list l} w w' := by
  have told {w₁ : World (Callback π) (Env π σ)} (h₁ : N.Changes ∅ {.list l} w w₁) {topic : ListTopic} (ht : topic ≠ .content) :
      N.Told {.list l} topic l w₁ := (h.after h₁ hb (by simp)).told hA h₁.calm (h₁.sees _ hl) ht
  have content {w₁ : World (Callback π) (Env π σ)} (h₁ : N.Changes ∅ {.list l} w w₁) : (do
      modify (World.modifyList l fun c => { c with dispatching := c.dispatching + 1 })
      l.tellContent E.reactions .beforeContent before
      l.tellSpan E.reactions .beforeEach change : Live π σ Unit).Ends w₁ fun _ w' => N.Changes ∅ {.list l} w w' := by
    simp only [Run.ends_bind, Run.ends_modify]
    have h₂ := h₁.trans ((hN.countDispatches (l := l) (g := (· + 1)) h₁.calm).mono subset_rfl (Set.empty_subset _))
    refine (hN.tellContent h₂.calm (told h₂ (by simp)) _).imp fun _ w₃ h₃ => ?_
    have h₃ := h₂.trans h₃
    exact (hN.tellSpan h₃.calm (told h₃ (by simp)) _).imp fun _ w₄ h₄ => h₃.trans h₄
  have h₀ : N.Changes ∅ {.list l} w w := .refl hw _ _
  unfold ListId.opening
  split
  · rw [Run.ends_bind]
    exact (hN.tellLength hw (told h₀ (by simp)) _).imp fun _ w₁ h₁ => content h₁
  · exact content h₀

end Around

end Neighbours

end LiveBindings
