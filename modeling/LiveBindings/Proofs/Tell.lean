import LiveBindings.Proofs.Start

/-!
# Telling a listener of an observer

A listener of a running observer that is told about a change hands on the value that is now at its place. The observer then runs
on, perhaps with other listeners: that one is up to date, and no listener became out of date (`Runs.tell`). The handle of the
observer stays what it was.
-/

namespace LiveBindings

variable {π σ : Type} {H : Host π σ} {D : Place → Prop} {F : Multiset Piece} {w : World (Callback π) (Env π σ)}

/-- The listeners other than one. -/
def others (l : Leaf π) (ls : List (Leaf π)) : List (Leaf π) := ls.filter (·.id ≠ l.id)

@[simp] theorem mem_others {l l' : Leaf π} {ls : List (Leaf π)} : l' ∈ others l ls ↔ l' ∈ ls ∧ l'.id ≠ l.id := by
  simp [others]

/-- Listeners with different owners are different. -/
theorem World.Fits.id_ne {G G' : Multiset Piece} (hw : w.Fits (G + G')) {l l' : Leaf π} (hl : .listener l.id ∈ G)
    (hl' : .listener l'.id ∈ G') : l'.id ≠ l.id :=
  fun h => hw.notMem hl (h ▸ hl')

/-- What telling a listener of an observer leaves behind. -/
def Behind.Told (J : Behind π σ Value) (D : Place → Prop) (Shape : Layout π → Running π → Prop) (R : Running π) (l : Leaf π)
    (F : Multiset Piece) (L : List (Leaf π)) (w w' : World (Callback π) (Env π σ)) : Prop :=
  ∃ R' F' L', R'.handle = R.handle ∧ Shape w'.layout R' ∧ J F' L' (some R'.value) w' ∧
    Moves D (R.owned + F) (R'.owned + F') w w' ∧
    Renews w.contents w'.contents (others l R.leaves ++ L) (R'.leaves ++ L')

section

variable {need n : Nat} {next : Sink π} {V : Value → Prop} {J : Behind π σ Value} {L : List (Leaf π)} {R : Running π}
  {l : Leaf π}

theorem Watches.tell {spot : Spot} (hR : Watches D w.layout next spot R) (h : Accepts H D need next V J)
    (hV : V (l.place.read w.contents)) (hn : need ≤ n) (hJ : J F L (some R.value) w) (hw : w.Fits (R.owned + F))
    (hl : l ∈ R.leaves) :
    (l.sink.emit (engine H n) (H.observer (engine H n)) (l.place.read w.contents)).Ends w fun _ w' =>
      J.Told D (fun K R => Watches D K next spot R) R l F L w w' := by
  cases hR with
  | constant v => simp at hl
  | @place p id v hD hK =>
    obtain rfl := List.mem_singleton.1 hl
    refine (h.run hn hV hJ hw.right).imp ?_
    rintro _ w' ⟨F', L', hJ', hm, hr⟩
    have hK' := hK.same (hm.same hw (Multiset.mem_singleton_self _))
      (Layout.Knows.congr hm.layout.lists hm.layout.objects).1
    refine ⟨{ handle := p.handle id, value := p.read w.contents, owned := {.listener id},
              leaves := [⟨p, id, next, p.read w.contents⟩] }, F', L', rfl, .place hD hK', hJ', hm.frame hw, ?_⟩
    intro l' hl'
    rcases List.mem_append.1 hl' with hl' | hl'
    · rw [List.mem_singleton.1 hl', Leaf.Current]
      simp only [hm.reads p hD]
      exact Or.inl (Value.same_refl _)
    · refine (hr l' hl').imp_right ?_
      rintro ⟨hm, hr⟩
      exact ⟨List.mem_append_right _ hm, hr⟩

/-- A row of which one element is another. -/
theorem forall₂_split {α β : Type} {r : α → β → Prop} {as : List α} {bs₁ bs₂ : List β} {b : β}
    (h : List.Forall₂ r as (bs₁ ++ b :: bs₂)) :
    ∃ as₁ a as₂, as = as₁ ++ a :: as₂ ∧ List.Forall₂ r as₁ bs₁ ∧ r a b ∧ List.Forall₂ r as₂ bs₂ := by
  obtain ⟨a, as₂, hab, h₂, hd⟩ := List.forall₂_cons_right_iff.1 (List.forall₂_drop_append _ _ _ h)
  refine ⟨as.take bs₁.length, a, as₂, ?_, List.forall₂_take_append _ _ _ h, hab, h₂⟩
  rw [← hd, List.take_append_drop]

theorem mem_of_getElem?_ne {α : Type} {as bs : List α} {a b : α} {i : Nat} (h : (as ++ a :: bs)[i]? = some b)
    (hi : i ≠ as.length) : b ∈ as ++ bs := by
  rcases Nat.lt_or_gt_of_ne hi with hi | hi
  · rw [List.getElem?_append_left hi] at h
    exact List.mem_append_left _ (List.mem_of_getElem? h)
  · obtain ⟨k, rfl⟩ : ∃ k, i = as.length + (k + 1) := ⟨i - as.length - 1, by omega⟩
    rw [List.getElem?_append_right (by omega), Nat.add_sub_cancel_left, List.getElem?_cons_succ] at h
    exact List.mem_append_right _ (List.mem_of_getElem? h)

/-- Listeners that are owned by others than the one that was told were not told. -/
theorem ids_ne {G G' : Multiset Piece} {M : List (Leaf π)} {K : Layout π} (hw : w.Fits (G + G')) (hl : .listener l.id ∈ G)
    (hM : ∀ l' ∈ M, l'.Placed D K G') : ∀ l' ∈ M, l'.id ≠ l.id :=
  fun l' hl' => hw.id_ne hl (hM l' hl').owned

/-- Of all listeners of an observer, those of one part `A` were told or replaced, those of another part `M` stayed, and those
of a third `C` were behind the sink of the first. -/
theorem Renews.beside {c c' : Contents} {A A' M C E B B' L' : List (Leaf π)}
    (hr : Renews c c' (others l A ++ (C ++ L)) (A' ++ (E ++ L'))) (hM : ∀ l' ∈ M, l'.place.read c' = l'.place.read c)
    (hne : ∀ l' ∈ M, l'.id ≠ l.id) (hne' : ∀ l' ∈ C, l'.id ≠ l.id) (hB : ∀ l', l' ∈ A ∨ l' ∈ M ∨ l' ∈ C → l' ∈ B)
    (hB' : ∀ l', l' ∈ B' → l' ∈ A' ∨ l' ∈ M ∨ l' ∈ E) : Renews c c' (others l B ++ L) (B' ++ L') := by
  refine (hr.prepend hM).mono (fun l' hl' => ?_) fun l' hl' => ?_
  · simp only [List.mem_append, mem_others] at hl' ⊢
    rcases hl' with hl' | hl' | hl' | hl'
    · exact Or.inl ⟨hB _ (Or.inr (Or.inl hl')), hne _ hl'⟩
    · exact Or.inl ⟨hB _ (Or.inl hl'.1), hl'.2⟩
    · exact Or.inl ⟨hB _ (Or.inr (Or.inr hl')), hne' _ hl'⟩
    · exact Or.inr hl'
  · simp only [List.mem_append] at hl' ⊢
    rcases hl' with hl' | hl'
    · rcases hB' l' hl' with h | h | h
      · exact Or.inr (Or.inl h)
      · exact Or.inl h
      · exact Or.inr (Or.inr (Or.inl h))
    · exact Or.inr (Or.inr (Or.inr hl'))

/-- The computation tells the listener `l` of an expression that runs, as long as `n` nested calls are enough. -/
def Expr.Tells (H : Host π σ) (D : Place → Prop) (n : Nat) (w : World (Callback π) (Env π σ)) (l : Leaf π)
    (act : Live π σ Unit) (x : Expr) (s : Scope) (next : Sink π) (R : Running π) : Prop :=
  ∀ ⦃V : Value → Prop⦄ ⦃J : Behind π σ Value⦄ ⦃need F L⦄, Accepts H D need next V J → (∀ v, x.Emits s v → V v) →
    need + 2 * x.size ≤ n → J F L (some R.value) w → w.Fits (R.owned + F) →
      act.Ends w fun _ w' => J.Told D (fun K R => Runs D K x s next R) R l F L w w'

variable {act : Live π σ Unit}

/-- A listener of one of the arguments of a row is told. -/
theorem argument_told (ws : List Value) {action : ArgsAction π} {Vr : List Value → Prop} {JR : Behind π σ (List Value)} {x : Expr} {s : Scope}
    {row : Ref .args} {i : Nat} {u : Value} {G : Multiset Piece}
    (ih : x.Tells H D n w l act s (.argument row i action) R)
    (h : Reacts H D need action Vr JR) (hi : ws[i]? = some u) (hV : ∀ v, x.Emits s v → Vr (ws.set i v))
    (hrow : w.layout.rowIs row { values := ws, ready := true }) (hu : u.same R.value = true) (hJ : JR G L (some ws) w)
    (hw : w.Fits (R.owned + ({.row row} + G))) (hn : need + 2 * x.size ≤ n) :
    act.Ends w fun _ w' => ∃ R' u' G' L', R'.handle = R.handle ∧ Runs D w'.layout x s (.argument row i action) R' ∧
      u'.same R'.value = true ∧ w'.layout.rowIs row { values := ws.set i u', ready := true } ∧
      JR G' L' (some (ws.set i u')) w' ∧ Moves D (R.owned + ({.row row} + G)) (R'.owned + ({.row row} + G')) w w' ∧
      Renews w.contents w'.contents (others l R.leaves ++ L) (R'.leaves ++ L') := by
  obtain ⟨hlt, hget⟩ := List.getElem?_eq_some_iff.1 hi
  have hset : ws.set i u = ws := by rw [← hget, List.set_getElem_self]
  have hacc := h.argument (x.Emits s) row i ws true hlt fun _ => hV
  have hJ' : JR.argument row i ws true ({.row row} + G) L (some R.value) w :=
    ⟨G, u, _, rfl, by rwa [hset], fun _ h => Option.some.inj h ▸ hu, fun _ => rfl, by rwa [hset]⟩
  refine (ih hacc (fun _ hv => hv) hn hJ' hw).imp fun _ w' h' => ?_
  obtain ⟨R', -, L', hh, hR', ⟨G', u', o', rfl, hrow', hu', ho', hJ'⟩, hm, hr⟩ := h'
  obtain rfl := ho' rfl
  exact ⟨R', u', G', L', hh, hR', hu' _ rfl, hrow', hJ', hm, hr⟩

section

variable {what : Followed} {a b : Expr} {s : Scope} {row : Ref .args} {slot : Ref .slot} {last : Ref .last} {c : Contents}
  {g : Nat} {x y v : Value} {Ra Rb Rc : Running π}

/-- The record of something that is followed. -/
abbrev followingRunning (row : Ref .args) (slot : Ref .slot) (last : Ref .last) (v : Value) (Ra Rb Rc : Running π) :
    Running π where
  handle := forEach slot (.join [Ra.handle, Rb.handle])
  value := v
  owned := Ra.owned + (Rb.owned + ({.slot slot} + Rc.owned + ({.row row} + {.last last})))
  leaves := Ra.leaves ++ (Rb.leaves ++ Rc.leaves)

/-- The listener of what is followed is told. -/
theorem followed_told (hRa : Runs D w.layout a s (.argument row 0 (what.action slot last next)) Ra)
    (hRb : Runs D w.layout b s (.argument row 1 (what.action slot last next)) Rb)
    (hRc : Watches D w.layout (.distinct last next) (what.spot c x y) Rc)
    (hrow : w.layout.rowIs row { values := [x, y], ready := true })
    (hslot : w.layout.slotIs slot { current := Rc.handle, generation := g }) (hlast : w.layout.lastIs last (some v))
    (hx : x.same Ra.value = true) (hy : y.same Rb.value = true) (hv : v.same Rc.value = true)
    (h : Accepts H D need next V J) (hV : V (l.place.read w.contents)) (hn : need ≤ n) (hJ : J F L (some v) w)
    (hw : w.Fits ((followingRunning row slot last v Ra Rb Rc).owned + F)) (hl : l ∈ Rc.leaves) :
    (l.sink.emit (engine H n) (H.observer (engine H n)) (l.place.read w.contents)).Ends w fun _ w' =>
      J.Told D (fun K R => Runs D K (what.expr a b) s next R) (followingRunning row slot last v Ra Rb Rc) l F L w w' := by
  have hJd : (J.distinct last) ({.last last} + F) L (some Rc.value) w := ⟨F, v, rfl, hlast, hv, hJ⟩
  have hwc : w.Fits (Ra.owned + Rb.owned + ({.row row} + {.slot slot}) + (Rc.owned + ({.last last} + F))) :=
    hw.of_le (le_of_eq (by simp only; abel))
  have hlc := (hRc.placed l hl).owned
  refine (hRc.tell (h.distinct last) hV hn hJd hwc.right hl).imp fun _ w' h' => ?_
  obtain ⟨Rc', -, L', hh, hRc', ⟨F', v', rfl, hlast', hv', hJ'⟩, hm, hr⟩ := h'
  have hsame : ∀ p ∈ Ra.owned + Rb.owned + ({.row row} + {.slot slot}), w.layout.Same w'.layout p :=
    fun p hp => hm.same hwc hp
  have hwa : w.Fits (Ra.owned + (Rc.owned + ({.last last} + F))) :=
    hwc.part (F := Rb.owned + ({.row row} + {.slot slot})) (by abel)
  have hwb : w.Fits (Rb.owned + (Rc.owned + ({.last last} + F))) :=
    hwc.part (F := Ra.owned + ({.row row} + {.slot slot})) (by abel)
  refine ⟨followingRunning row slot last v' Ra Rb Rc', F', L', rfl,
    .following (hRa.after hm hwa) (hRb.after hm hwb) hRc' (hrow.same (hsame _ (by simp)))
      (hh ▸ hslot.same (hsame _ (by simp))) hlast' hx hy hv', hJ',
    (hm.frame hwc).cast (by simp only; abel) (by simp only; abel), ?_⟩
  have hM : ∀ l' ∈ Ra.leaves ++ Rb.leaves, l'.place.read w'.contents = l'.place.read w.contents := fun l' hl' =>
    (List.mem_append.1 hl').elim (hRa.unread hm l') (hRb.unread hm l')
  refine Renews.beside (C := []) (E := []) hr hM ?_ (by simp) (fun l' => by simp [or_assoc, or_comm])
    fun l' => by simp [or_assoc, or_comm]
  intro l' hl'
  rcases List.mem_append.1 hl' with hl' | hl'
  · exact ids_ne (hwa.part (add_assoc _ _ _).symm).comm hlc hRa.placed l' hl'
  · exact ids_ne (hwb.part (add_assoc _ _ _).symm).comm hlc hRb.placed l' hl'

/-- A listener of what is followed, or of its container or key, is told. -/
theorem following_tells (hRa : Runs D w.layout a s (.argument row 0 (what.action slot last next)) Ra)
    (hRb : Runs D w.layout b s (.argument row 1 (what.action slot last next)) Rb)
    (hRc : Watches D w.layout (.distinct last next) (what.spot c x y) Rc)
    (hrow : w.layout.rowIs row { values := [x, y], ready := true })
    (hslot : w.layout.slotIs slot { current := Rc.handle, generation := g }) (hlast : w.layout.lastIs last (some v))
    (hx : x.same Ra.value = true) (hy : y.same Rb.value = true) (hv : v.same Rc.value = true)
    (hD : ∀ c x y p, a.Emits s x → b.Emits s y → what.spot c x y = .place p → D p)
    (iha : l ∈ Ra.leaves → a.Tells H D n w l act s (.argument row 0 (what.action slot last next)) Ra)
    (ihb : l ∈ Rb.leaves → b.Tells H D n w l act s (.argument row 1 (what.action slot last next)) Rb)
    (hact : act = l.sink.emit (engine H n) (H.observer (engine H n)) (l.place.read w.contents))
    (hl : l ∈ Ra.leaves ++ (Rb.leaves ++ Rc.leaves)) :
    (what.expr a b).Tells H D n w l act s next (followingRunning row slot last v Ra Rb Rc) := by
  intro V J need F L h hV hn hJ hw
  replace hn : need + 2 * (a.size + b.size + 1) ≤ n := by cases what <;> exact hn
  replace hV : ∀ v, V v := by cases what <;> exact fun v => hV v trivial
  have hxa : a.Emits s x := hRa.emits.congr (Value.same_symm hx)
  have hyb : b.Emits s y := hRb.emits.congr (Value.same_symm hy)
  -- What is behind the row.
  have hd := h.distinct last
  have hf := hd.follow slot what
  have hfinds : ∀ x y, a.Emits s x → b.Emits s y → what.Finds D (J.distinct last) V x y :=
    fun x y hx hy => ⟨fun c p => hD c x y p hx hy, fun _ _ _ _ _ _ => hV _⟩
  have hJd : (J.distinct last) ({.last last} + F) L (some Rc.value) w := ⟨F, v, rfl, hlast, hv, hJ⟩
  have hJf : (J.distinct last).follow D (.distinct last next) slot what ({.slot slot} + Rc.owned + ({.last last} + F))
      (Rc.leaves ++ L) (some [x, y]) w := ⟨_, _, Rc, g, rfl, rfl, hslot, ⟨c, hRc⟩, hJd⟩
  have hcp : ∀ l' ∈ Rc.leaves, l'.Placed D w.layout ({.row row} + ({.slot slot} + Rc.owned + ({.last last} + F))) :=
    fun l' hl' => (hRc.placed l' hl').mono fun p hp => by simp [hp]
  simp only [List.mem_append] at hl
  rcases hl with hl | hl | hl
  · have hwa : w.Fits (Rb.owned + (Ra.owned + ({.row row} + ({.slot slot} + Rc.owned + ({.last last} + F))))) :=
      hw.of_le (le_of_eq (by simp only; abel))
    have hla := (hRa.placed l hl).owned
    refine (argument_told [x, y] (iha hl) hf rfl (fun _ hv => hfinds _ y hv hyb) hrow hx hJf hwa.right
      (by omega)).imp fun _ w' h' => ?_
    obtain ⟨Ra', x', -, -, hh, hRa', hx', hrow', ⟨-, L', Rc', g', rfl, rfl, hslot', ⟨c', hRc'⟩,
      ⟨F', v', rfl, hlast', hv', hJ'⟩⟩, hm, hr⟩ := h'
    refine ⟨followingRunning row slot last v' Ra' Rb Rc', F', L', by simp only [hh],
      .following hRa' (hRb.after hm hwa) hRc' hrow' hslot' hlast' hx' hy hv', hJ',
      (hm.frame hwa).cast (by simp only; abel) (by simp only; abel), ?_⟩
    exact hr.beside (hRb.unread hm) (ids_ne (hwa.part (add_assoc _ _ _).symm).comm hla hRb.placed) (ids_ne hwa.right hla hcp)
      (fun l' => by simp) fun l' => by simp
  · have hwb : w.Fits (Ra.owned + (Rb.owned + ({.row row} + ({.slot slot} + Rc.owned + ({.last last} + F))))) :=
      hw.of_le (le_of_eq (by simp only; abel))
    have hlb := (hRb.placed l hl).owned
    refine (argument_told [x, y] (ihb hl) hf rfl (fun _ hv => hfinds x _ hxa hv) hrow hy hJf hwb.right
      (by omega)).imp fun _ w' h' => ?_
    obtain ⟨Rb', y', -, -, hh, hRb', hy', hrow', ⟨-, L', Rc', g', rfl, rfl, hslot', ⟨c', hRc'⟩,
      ⟨F', v', rfl, hlast', hv', hJ'⟩⟩, hm, hr⟩ := h'
    refine ⟨followingRunning row slot last v' Ra Rb' Rc', F', L', by simp only [hh],
      .following (hRa.after hm hwb) hRb' hRc' hrow' hslot' hlast' hx hy' hv', hJ',
      (hm.frame hwb).cast (by simp only; abel) (by simp only; abel), ?_⟩
    exact hr.beside (hRa.unread hm) (ids_ne (hwb.part (add_assoc _ _ _).symm).comm hlb hRa.placed) (ids_ne hwb.right hlb hcp)
      (fun l' => by simp [or_left_comm])
      fun l' => by simp [or_left_comm]
  · rw [hact]
    exact followed_told hRa hRb hRc hrow hslot hlast hx hy hv h (hV _) (by omega) hJ hw hl

/-- A listener of a context, or of what runs with its value in scope, is told. -/
theorem within_tells (hRa : Runs D w.layout a s (.switch slot (.body b s next)) Ra)
    (hRb : Runs D w.layout b (s.nest Ra.value) next Rb)
    (hslot : w.layout.slotIs slot { current := Rb.handle, generation := g })
    (hb : ∀ v, a.Emits s v → b.Starts H D (s.nest v))
    (iha : l ∈ Ra.leaves → a.Tells H D n w l act s (.switch slot (.body b s next)) Ra)
    (ihb : l ∈ Rb.leaves → b.Tells H D n w l act (s.nest Ra.value) next Rb) (hl : l ∈ Ra.leaves ++ Rb.leaves) :
    (Expr.within a b).Tells H D n w l act s next
      { handle := forEach slot Ra.handle, value := Rb.value, owned := Ra.owned + ({.slot slot} + Rb.owned)
        leaves := Ra.leaves ++ Rb.leaves } := by
  intro V J need F L h hV hn hJ hw
  simp only [Expr.size] at hn
  replace hV : ∀ v, V v := fun v => hV v trivial
  rcases List.mem_append.1 hl with hl | hl
  · have hacc := Accepts.body (a.Emits s) h hV hb slot
    have hJs : (J.slot slot fun v K R => Runs D K b (s.nest v) next R) ({.slot slot} + Rb.owned + F) (Rb.leaves ++ L)
        (some Ra.value) w := ⟨F, L, Rb, g, rfl, rfl, hslot, hRb, hJ⟩
    have hwa : w.Fits (Ra.owned + ({.slot slot} + Rb.owned + F)) := hw.of_le (le_of_eq (by simp only [add_assoc]))
    refine (iha hl hacc (fun _ hv => hv) (by omega) hJs hwa).imp fun _ w' h' => ?_
    obtain ⟨Ra', -, -, hh, hRa', ⟨F', L', Rb', g', rfl, rfl, hslot', hRb', hJ'⟩, hm, hr⟩ := h'
    refine ⟨_, F', L', by simp only [hh], .within hRa' hRb' hslot', hJ',
      hm.cast (by simp only [add_assoc]) (by simp only [add_assoc]), ?_⟩
    have hbp : ∀ l' ∈ Rb.leaves, l'.Placed D w.layout ({.slot slot} + Rb.owned + F) :=
      fun l' hl' => (hRb.placed l' hl').mono fun p hp => by simp [hp]
    exact Renews.beside (M := []) hr (by simp) (by simp) (ids_ne hwa (hRa.placed l hl).owned hbp)
      (fun l' => by simp) fun l' => by simp
  · have hwb : w.Fits (Ra.owned + {.slot slot} + (Rb.owned + F)) := hw.of_le (le_of_eq (by simp only [add_assoc]))
    have hwa : w.Fits (Ra.owned + (Rb.owned + F)) := hwb.part (F := {.slot slot}) (by abel)
    refine (ihb hl h (fun v _ => hV v) (by omega) hJ hwb.right).imp fun _ w' h' => ?_
    obtain ⟨Rb', F', L', hh, hRb', hJ', hm, hr⟩ := h'
    refine ⟨_, F', L', by rfl, .within (hRa.after hm hwa) hRb' (hh ▸ hslot.same (hm.same hwb (by simp))), hJ',
      (hm.frame hwb).cast (by simp only [add_assoc]) (by simp only [add_assoc]), ?_⟩
    refine Renews.beside (C := []) (E := []) hr (hRa.unread hm) ?_ (by simp) (fun l' => by simp [or_comm])
      fun l' => by simp [or_comm]
    exact ids_ne (hwa.part (add_assoc _ _ _).symm).comm (hRb.placed l hl).owned hRa.placed

/-- A listener of a condition, or of the branch that it chose, is told. -/
theorem choice_tells {p : Expr} {Rp : Running π} (hRp : Runs D w.layout p s (conditionSink a b s slot last next) Rp)
    (hRb : Runs D w.layout (if Rp.value.truthy then a else b) s next Rb)
    (hslot : w.layout.slotIs slot { current := Rb.handle, generation := g })
    (hlast : w.layout.lastIs last (some (.bool Rp.value.truthy))) (ha : a.Starts H D s) (hb : b.Starts H D s)
    (ihp : l ∈ Rp.leaves → p.Tells H D n w l act s (conditionSink a b s slot last next) Rp)
    (ihb : l ∈ Rb.leaves → (if Rp.value.truthy then a else b).Tells H D n w l act s next Rb)
    (hl : l ∈ Rp.leaves ++ Rb.leaves) :
    (Expr.choice p a b).Tells H D n w l act s next
      { handle := forEach slot Rp.handle, value := Rb.value
        owned := Rp.owned + ({.slot slot} + Rb.owned + {.last last}), leaves := Rp.leaves ++ Rb.leaves } := by
  intro V J need F L h hV hn hJ hw
  simp only [Expr.size] at hn
  replace hV : ∀ v, V v := fun v => hV v trivial
  rcases List.mem_append.1 hl with hl | hl
  · have hacc := Accepts.either h hV ha hb slot
    have hJs : (J.slot slot fun (v : Value) K R => Runs D K (if v.truthy then a else b) s next R)
        ({.slot slot} + Rb.owned + F) (Rb.leaves ++ L) (some (.bool Rp.value.truthy)) w :=
      ⟨F, L, Rb, g, rfl, rfl, hslot, hRb, hJ⟩
    have hJp : (Behind.distinct _ last).truth _ _ (some Rp.value) w := ⟨_, _, rfl, hlast, Value.same_refl _, hJs⟩
    have hwp : w.Fits (Rp.owned + ({.last last} + ({.slot slot} + Rb.owned + F))) :=
      hw.of_le (le_of_eq (by simp only; abel))
    refine (ihp hl ((hacc.distinct last).truth fun _ => trivial) (fun _ _ => trivial) (by omega) hJp hwp).imp
      fun _ w' h' => ?_
    obtain ⟨Rp', -, -, hh, hRp', ⟨-, u, rfl, hlast', hu, ⟨F', L', Rb', g', rfl, rfl, hslot', hRb', hJ'⟩⟩, hm, hr⟩ := h'
    obtain rfl := Value.eq_of_same_bool hu
    refine ⟨_, F', L', by simp only [hh], .choice hRp' hRb' hslot' hlast', hJ',
      hm.cast (by simp only; abel) (by simp only; abel), ?_⟩
    have hbp : ∀ l' ∈ Rb.leaves, l'.Placed D w.layout ({.last last} + ({.slot slot} + Rb.owned + F)) :=
      fun l' hl' => (hRb.placed l' hl').mono fun p hp => by simp [hp]
    exact Renews.beside (M := []) hr (by simp) (by simp) (ids_ne hwp (hRp.placed l hl).owned hbp)
      (fun l' => by simp) fun l' => by simp
  · have hwb : w.Fits (Rp.owned + ({.slot slot} + {.last last}) + (Rb.owned + F)) :=
      hw.of_le (le_of_eq (by simp only; abel))
    have hwp : w.Fits (Rp.owned + (Rb.owned + F)) := hwb.part (F := {.slot slot} + {.last last}) (by abel)
    have hsize : (if Rp.value.truthy then a else b).size ≤ a.size + b.size := by split <;> omega
    refine (ihb hl h (fun v _ => hV v) (by omega) hJ hwb.right).imp fun _ w' h' => ?_
    obtain ⟨Rb', F', L', hh, hRb', hJ', hm, hr⟩ := h'
    refine ⟨_, F', L', by rfl, .choice (hRp.after hm hwp) hRb' (hh ▸ hslot.same (hm.same hwb (by simp)))
      (hlast.same (hm.same hwb (by simp))), hJ', (hm.frame hwb).cast (by simp only; abel) (by simp only; abel), ?_⟩
    refine Renews.beside (C := []) (E := []) hr (hRp.unread hm) ?_ (by simp) (fun l' => by simp [or_comm])
      fun l' => by simp [or_comm]
    exact ids_ne (hwp.part (add_assoc _ _ _).symm).comm (hRb.placed l hl).owned hRp.placed

end

/-- A listener of an operand is told. -/
theorem operator_tells {f : OperatorFunction} {xs : List Expr} {s : Scope} {row : Ref .args} {last : Ref .last}
    {c : Contents} {vs₁ vs₂ : List Value} {u v : Value} {Rs₁ Rs₂ : List (Running π)}
    (hlen : (Rs₁ ++ R :: Rs₂).length = xs.length)
    (hRs : ∀ (i : Nat) (x : Expr) (R₀ : Running π), xs[i]? = some x → (Rs₁ ++ R :: Rs₂)[i]? = some R₀ →
      Runs D w.layout x s (.argument row i (.compute f (.distinct last next))) R₀)
    (hvs₁ : List.Forall₂ (fun v R => v.same R.value = true) vs₁ Rs₁) (hu : u.same R.value = true)
    (hvs₂ : List.Forall₂ (fun v R => v.same R.value = true) vs₂ Rs₂)
    (hrow : w.layout.rowIs row { values := vs₁ ++ u :: vs₂, ready := true }) (hlast : w.layout.lastIs last (some v))
    (hv : v.same (f c (vs₁ ++ u :: vs₂)) = true)
    (ih : ∀ x, xs[Rs₁.length]? = some x →
      x.Tells H D n w l act s (.argument row Rs₁.length (.compute f (.distinct last next))) R) (hl : l ∈ R.leaves) :
    (Expr.operator f xs).Tells H D n w l act s next
      { handle := .join ((Rs₁ ++ R :: Rs₂).map (·.handle)), value := v
        owned := ((Rs₁ ++ R :: Rs₂).map (·.owned)).sum + ({.row row} + {.last last})
        leaves := ((Rs₁ ++ R :: Rs₂).map (·.leaves)).flatten } := by
  intro V J need F L h hV hn hJ hw
  simp only [Expr.size] at hn
  have hlt : Rs₁.length < xs.length := by simp [← hlen]
  have hx := List.getElem?_eq_getElem hlt
  have hget : (vs₁ ++ u :: vs₂)[Rs₁.length]? = some u := by simp [← hvs₁.length_eq]
  have hset : ∀ z, (vs₁ ++ u :: vs₂).set Rs₁.length z = vs₁ ++ z :: vs₂ := by
    intro z
    rw [← hvs₁.length_eq]
    simp
  have hRx := hRs _ _ R hx (by simp)
  have hsize := Expr.size_le_sizeAll (List.getElem_mem hlt)
  -- What is behind the row.
  have hacc := (h.distinct last).compute f fun v => hV v trivial
  have hJc : (J.distinct last).compute f ({.last last} + F) L (some (vs₁ ++ u :: vs₂)) w :=
    ⟨some (f c (vs₁ ++ u :: vs₂)), ⟨F, v, rfl, hlast, hv, hJ⟩, fun vs h => ⟨c, by rw [Option.some.inj h]⟩⟩
  simp only [List.map_append, List.map_cons, List.sum_append, List.sum_cons] at hw
  have hwx : w.Fits ((Rs₁.map (·.owned)).sum + (Rs₂.map (·.owned)).sum + (R.owned + ({.row row} + ({.last last} + F)))) :=
    hw.of_le (le_of_eq (by abel))
  -- The other operands run on.
  have hbeside : ∀ R₀ ∈ Rs₁ ++ Rs₂, ∃ x₀ next₀, Runs D w.layout x₀ s next₀ R₀ := by
    intro R₀ hR₀
    have hR₀ : R₀ ∈ Rs₁ ++ R :: Rs₂ := by
      rcases List.mem_append.1 hR₀ with h | h <;> simp [h]
    obtain ⟨i, hi⟩ := List.mem_iff_getElem?.1 hR₀
    exact ⟨_, _, hRs i _ R₀ (List.getElem?_eq_getElem (hlen ▸ (List.getElem?_eq_some_iff.1 hi).1)) hi⟩
  have hwo : ∀ R₀ ∈ Rs₁ ++ Rs₂, w.Fits (R₀.owned + (R.owned + ({.row row} + ({.last last} + F)))) := by
    intro R₀ hR₀
    have := owned_le_sum hR₀
    simp only [List.map_append, List.sum_append] at this
    exact hwx.of_le (add_le_add_left this _)
  refine (argument_told _ (ih _ hx) hacc hget (fun _ _ => trivial) hrow hu hJc hwx.right (by omega)).imp fun _ w' h' => ?_
  obtain ⟨R', u', G', L', hh, hR', hu', hrow', ⟨o', hJ', ho'⟩, hm, hr⟩ := h'
  obtain ⟨c', rfl⟩ := ho' _ rfl
  obtain ⟨F', v', rfl, hlast', hv', hJ'⟩ := hJ'
  rw [hset] at hrow' hv'
  have hRs' : ∀ (i : Nat) (x : Expr) (R₀ : Running π), xs[i]? = some x → (Rs₁ ++ R' :: Rs₂)[i]? = some R₀ →
      Runs D w'.layout x s (.argument row i (.compute f (.distinct last next))) R₀ := by
    intro i x₀ R₀ hx₀ hR₀
    by_cases hi : i = Rs₁.length
    · subst hi
      obtain rfl : R' = R₀ := by simpa using hR₀
      obtain rfl : xs[Rs₁.length] = x₀ := Option.some.inj (hx.symm.trans hx₀)
      exact hR'
    · have hset' : Rs₁ ++ R' :: Rs₂ = (Rs₁ ++ R :: Rs₂).set Rs₁.length R' := by simp
      rw [hset', List.getElem?_set_ne (Ne.symm hi)] at hR₀
      exact (hRs i x₀ R₀ hx₀ hR₀).after hm (hwo R₀ (mem_of_getElem?_ne hR₀ hi))
  have hlen' : (Rs₁ ++ R' :: Rs₂).length = xs.length := by simpa using hlen
  refine ⟨_, F', L', by simp only [List.map_append, List.map_cons, hh], .operator hlen' hRs' (List.rel_append hvs₁ (.cons hu' hvs₂)) hrow' hlast' hv', hJ',
    (hm.frame hwx).cast ?_ ?_, ?_⟩
  · simp only [List.map_append, List.map_cons, List.sum_append, List.sum_cons]
    abel
  · simp only [List.map_append, List.map_cons, List.sum_append, List.sum_cons]
    abel
  · refine Renews.beside (M := ((Rs₁ ++ Rs₂).map (·.leaves)).flatten) (C := []) (E := []) hr (fun l' hl' => ?_)
      (fun l' hl' => ?_) (by simp) (fun l' hl' => ?_) fun l' hl' => ?_
    · obtain ⟨R₀, hR₀, hl'⟩ := mem_flatten_leaves.1 hl'
      obtain ⟨_, _, h₀⟩ := hbeside R₀ hR₀
      exact h₀.unread hm l' hl'
    · obtain ⟨R₀, hR₀, hl'⟩ := mem_flatten_leaves.1 hl'
      obtain ⟨_, _, h₀⟩ := hbeside R₀ hR₀
      exact ids_ne ((hwo R₀ hR₀).part (add_assoc _ _ _).symm).comm (hRx.placed l hl).owned h₀.placed l' hl'
    · simpa [or_and_right, exists_or, or_left_comm] using hl'
    · simpa [or_and_right, exists_or, or_left_comm] using hl'

/-- A listener of an expression that runs is told. -/
theorem Runs.tell {x : Expr} {s : Scope} (hR : Runs D w.layout x s next R) (hs : x.Scalar) (hc : x.Covered D s)
    (hact : act = l.sink.emit (engine H n) (H.observer (engine H n)) (l.place.read w.contents)) (hl : l ∈ R.leaves) :
    x.Tells H D n w l act s next R := by
  induction hR with
  | literal | value | parameters => simp at hl
  | element hR =>
    intro V J need F L h hV hn hJ hw
    rw [hact]
    refine (hR.tell h (hV _ trivial) (by omega) hJ hw hl).imp fun _ w' => ?_
    exact fun ⟨R', F', L', hh, hR', h⟩ => ⟨R', F', L', hh, .element hR', h⟩
  | component hR =>
    intro V J need F L h hV hn hJ hw
    rw [hact]
    refine (hR.tell h (hV _ trivial) (by omega) hJ hw hl).imp fun _ w' => ?_
    exact fun ⟨R', F', L', hh, hR', h⟩ => ⟨R', F', L', hh, .component hR', h⟩
  | @following what a b s next row slot last c g x y v Ra Rb Rc hRa hRb hRc hrow hslot hlast hx hy hv iha ihb =>
    have hab : (a.Scalar ∧ a.Covered D s) ∧ (b.Scalar ∧ b.Covered D s) ∧
        ∀ c x y p, a.Emits s x → b.Emits s y → what.spot c x y = .place p → D p := by
      cases what <;> (obtain ⟨hca, hcb, hD⟩ := hc; cases hs; exact ⟨⟨‹_›, hca⟩, ⟨‹_›, hcb⟩, hD⟩)
    obtain ⟨⟨hsa, hca⟩, ⟨hsb, hcb⟩, hD⟩ := hab
    exact following_tells hRa hRb hRc hrow hslot hlast hx hy hv hD (iha hsa hca) (ihb hsb hcb) hact hl
  | within hRa hRb hslot iha ihb =>
    obtain ⟨hca, hcb⟩ := hc
    cases hs with
    | within hsa hsb =>
      exact within_tells hRa hRb hslot (fun v hv => hsb.starts (hcb v hv)) (iha hsa hca) (ihb hsb (hcb _ hRa.emits)) hl
  | @choice p a b s next slot last g Rp Rb hRp hRb hslot hlast ihp ihb =>
    obtain ⟨hcp, hca, hcb⟩ := hc
    cases hs with
    | choice hsp hsa hsb =>
      refine choice_tells hRp hRb hslot hlast (hsa.starts hca) (hsb.starts hcb) (ihp hsp hcp) (ihb ?_ ?_) hl
      · split <;> assumption
      · split <;> assumption
  | @operator f xs s next row last c vs v Rs hlen hRs hvs hrow hlast hv ih =>
    cases hs with
    | operator _ hxs =>
    -- The operand whose listener is told, and those beside it.
    obtain ⟨R, hR, hlR⟩ := mem_flatten_leaves.1 hl
    obtain ⟨Rs₁, Rs₂, rfl⟩ := List.append_of_mem hR
    obtain ⟨vs₁, u, vs₂, rfl, hvs₁, hu, hvs₂⟩ := forall₂_split hvs
    refine operator_tells hlen hRs hvs₁ hu hvs₂ hrow hlast hv (fun x hx => ?_) hlR
    have hmem := List.mem_of_getElem? hx
    exact ih _ x R hx (by simp) (hxs x hmem) ((Expr.coveredAll_iff D xs s).1 hc x hmem) hlR

end

end LiveBindings
