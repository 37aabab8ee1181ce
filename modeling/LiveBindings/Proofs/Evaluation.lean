import LiveBindings.Proofs.Serving

/-!
# Down to the value that is handed over

An expression that looks up and computes, started in front of a sink, comes down to handing the sink exactly what it denotes
(`Expr.Computed.comes`): before that only cells of its own are made and listeners are registered, and what is done afterwards
ends as long as nobody touched those cells (`ComesTo`). So what becomes of the start is read off what becomes of one value, be
it that the start ends (`ComesTo.ends`) or that something holds of its end if there is one (`ComesTo.leads`).
-/

namespace LiveBindings

variable {π σ α β : Type}

/-! ## Steps beside what is there -/

/-- The piece is a cell. -/
def Piece.IsCell : Piece → Prop
  | .listener _ => False
  | _ => True

theorem Layout.Same.has {K K' : Layout π} {p : Piece} (h : K.Same K' p) (hc : p.IsCell) (hp : K.Has p) : K'.Has p := by
  cases p with
  | listener => exact hc.elim
  | _ =>
    by_contra hn
    have hnone := h.symm.trans (Array.getElem?_eq_none (Nat.le_of_not_lt hn))
    exact absurd hp (Nat.not_lt.2 (Array.getElem?_eq_none_iff.1 hnone))

theorem Layout.slotIs.has {K : Layout π} {s : Ref .slot} {c : Slot π} (h : K.slotIs s c) : K.Has (.slot s) :=
  (Array.getElem?_eq_some_iff.1 h).1

theorem Layout.rowIs.has {K : Layout π} {r : Ref .args} {c : ArgsCell} (h : K.rowIs r c) : K.Has (.row r) :=
  (Array.getElem?_eq_some_iff.1 h).1

theorem Layout.lastIs.has {K : Layout π} {r : Ref .last} {v : Option Value} (h : K.lastIs r v) : K.Has (.last r) :=
  (Array.getElem?_eq_some_iff.1 h).1

/-- Nothing changed but cells of `T`, besides new cells and listeners. -/
structure Beside (T : Set Piece) (w w' : World (Callback π) (Env π σ)) : Prop where
  contents : w'.contents = w.contents
  host : w'.env.host = w.env.host
  grows : ∀ p, w.layout.Has p → w'.layout.Has p
  same : ∀ p, p.IsCell → w.layout.Has p → p ∉ T → w.layout.Same w'.layout p

namespace Beside

variable {T T' : Set Piece} {w w' w'' : World (Callback π) (Env π σ)}

theorem refl (T : Set Piece) (w : World (Callback π) (Env π σ)) : Beside T w w :=
  ⟨rfl, rfl, fun _ h => h, fun p _ _ _ => Layout.Same.refl _ p⟩

theorem mono (h : Beside T w w') (hT : ∀ p, w.layout.Has p → p ∈ T → p ∈ T') : Beside T' w w' :=
  ⟨h.contents, h.host, h.grows, fun p hc hp hn => h.same p hc hp fun ht => hn (hT p hp ht)⟩

theorem trans (h : Beside T w w') (h' : Beside T w' w'') : Beside T w w'' where
  contents := h'.contents.trans h.contents
  host := h'.host.trans h.host
  grows p hp := h'.grows p (h.grows p hp)
  same p hc hp hn := (h.same p hc hp hn).trans (h'.same p hc (h.grows p hp) hn)

end Beside

theorem Touches.beside {N : Post π → Prop} {G G' : Multiset Piece} {T : Set Piece} {w w' : World (Callback π) (Env π σ)}
    (h : Touches N G G' w w') (hT : ∀ p ∈ G, p ∈ T) : Beside T w w' :=
  ⟨h.contents, h.host, h.layout.grows, fun p _ hp hn => h.layout.same p hp fun hG => hn (hT p hG)⟩

section

variable {T : Set Piece} {w : World (Callback π) (Env π σ)}

theorem Beside.listenList (l : ListId) (topic : ListTopic) (callback : Callback π) :
    (l.listen topic callback : Live π σ _).Ends w fun _ w' => Beside T w w' := by
  refine ⟨World.contents_modifyList fun _ => rfl, rfl, fun p hp => ?_, fun p hc _ _ => ?_⟩
  · cases p with
    | listener => exact Nat.lt_succ_of_lt hp
    | _ => exact hp
  · cases p with
    | listener => exact hc.elim
    | _ => rfl

theorem Beside.listenObject (o : ObjectId) (topic : ObjectTopic) (callback : Callback π) :
    (o.listen topic callback : Live π σ _).Ends w fun _ w' => Beside T w w' := by
  refine ⟨World.contents_modifyObject fun _ => rfl, rfl, fun p hp => ?_, fun p hc _ _ => ?_⟩
  · cases p with
    | listener => exact Nat.lt_succ_of_lt hp
    | _ => exact hp
  · cases p with
    | listener => exact hc.elim
    | _ => rfl

end

/-! ## Coming to something -/

/-- What is done after the core of a computation ends well if the cells of its own are as they were, and registers nothing that makes
more than the stroke. -/
structure Finishes (k : Stroke) (b : Extent) (T : Set Piece) (good : α → Prop) (w w₁ : World (Callback π) (Env π σ))
    (after : Live π σ α) : Prop where
  ends : ∀ w₂, (∀ p, p.IsCell → w₁.layout.Has p → (w.layout.Has p → p ∈ T) → w₁.layout.Same w₂.layout p) →
    after.Ends w₂ fun _ w₃ => Beside {p | w.layout.Has p → p ∈ T} w₂ w₃
  leads : ∀ {G w₂}, k.Spares G → w₂.Serves k b G → after.Leads w₂ fun a w₃ => good a ∧ w₃.Serves k b G

/-- The computation comes to its core, for which at least `n` calls may still be nested, in a world in which only cells of `T` have changed
besides new cells and listeners, and to something that finishes. -/
def ComesTo (k : Stroke) (b : Extent) (n : Nat) (T : Set Piece) (good : α → Prop) (act : Live π σ α)
    (core : Nat → Live π σ Unit) (w : World (Callback π) (Env π σ)) : Prop :=
  ∃ m w₁ after, n ≤ m ∧ act w = (core m >>= fun _ => after) w₁ ∧ Beside T w w₁ ∧ w₁.layout.Serves k b ∧
    Finishes k b T good w w₁ after

namespace Run

variable {κ ε : Type} {w w' : World κ ε}

theorem bind_of_ok {act : Run κ ε α} {f : α → Run κ ε β} {a : α} (h : act w = .ok a w') : (act >>= f) w = f a w' := by
  simp only [bind, EStateM.bind, h]

theorem bind_congr {act act' : Run κ ε α} {f : α → Run κ ε β} (h : act w = act' w') : (act >>= f) w = (act' >>= f) w' := by
  simp only [bind, EStateM.bind, h]

theorem Ends.and_leads {act : Run κ ε α} {Q Q' : α → World κ ε → Prop} (h : act.Ends w Q) (h' : act.Leads w Q') :
    act.Ends w fun a w' => Q a w' ∧ Q' a w' := by
  obtain ⟨a, w', hr, hQ⟩ := ends_iff.1 h
  exact (ends_of_eq hr).2 ⟨hQ, h'.of_eq hr⟩

end Run

namespace ComesTo

variable {k : Stroke} {b : Extent} {n n' : Nat} {T T' U : Set Piece} {good : α → Prop} {good' : β → Prop} {act : Live π σ α}
  {core core' : Nat → Live π σ Unit} {w : World (Callback π) (Env π σ)}

/-- The core comes first. -/
theorem here {m : Nat} {after : Live π σ α} (hn : n ≤ m) (hact : act w = (core m >>= fun _ => after) w)
    (hw : w.layout.Serves k b) (hafter : Finishes k b T good w w after) : ComesTo k b n T good act core w :=
  ⟨m, w, after, hn, hact, .refl T w, hw, hafter⟩

theorem congr {act' : Live π σ α} (hact : act w = act' w) (h : ComesTo k b n T good act' core w) :
    ComesTo k b n T good act core w := by
  obtain ⟨m, w₁, after, hm, hact', rest⟩ := h
  exact ⟨m, w₁, after, hm, hact.trans hact', rest⟩

theorem mono (h : ComesTo k b n T good act core w) (hT : ∀ p, w.layout.Has p → p ∈ T → p ∈ T') :
    ComesTo k b n T' good act core w := by
  obtain ⟨m, w₁, after, hm, hact, hside, hw₁, hafter⟩ := h
  refine ⟨m, w₁, after, hm, hact, hside.mono hT, hw₁, fun w₂ hsame => ?_, hafter.leads⟩
  refine (hafter.ends w₂ fun p hc hp h => hsame p hc hp fun hp' => hT p hp' (h hp')).imp fun _ w₃ h₃ => ?_
  exact h₃.mono fun p _ h hp => hT p hp (h hp)

/-- Something is done before, with cells of `T` and new cells. -/
theorem before {pre : Live π σ β} {f : β → Live π σ α}
    (h : pre.Ends w fun x w₁ => Beside T w w₁ ∧ ComesTo k b n {p | w.layout.Has p → p ∈ T} good (f x) core w₁) :
    ComesTo k b n T good (pre >>= f) core w := by
  obtain ⟨x, w₁, hpre, hside, m, w₂, after, hn, hact, hside', hw₂, hafter⟩ := Run.ends_iff.1 h
  refine ⟨m, w₂, after, hn, (Run.bind_of_ok hpre).trans hact, ?_, hw₂, fun w₃ hsame => ?_, hafter.leads⟩
  · refine ⟨hside'.contents.trans hside.contents, hside'.host.trans hside.host, fun p hp => hside'.grows p (hside.grows p hp), ?_⟩
    intro p hc hp hn
    exact (hside.same p hc hp hn).trans (hside'.same p hc (hside.grows p hp) fun hT => hn (hT hp))
  · refine (hafter.ends w₃ fun p hc hp hT => hsame p hc hp fun hp' => hT (hside.grows p hp') hp').imp fun _ w₄ h => ?_
    exact h.mono fun p _ hT hp => hT (hside.grows p hp) hp

/-- The core comes to something in turn, with other cells that had been there. -/
theorem onward (h : ComesTo k b n T good act core w) (hU : ∀ p ∈ U, w.layout.Has p ∧ p ∉ T)
    (hcore : ∀ m w₁, n ≤ m → Beside T w w₁ → w₁.layout.Serves k b → ComesTo k b n' U (fun _ => True) (core m) core' w₁) :
    ComesTo k b n' (T ∪ U) good act core' w := by
  obtain ⟨m, w₁, after, hm, hact, hside, hw₁, hafter⟩ := h
  obtain ⟨m', w₂, after', hn', hcore', hside', hw₂, hafter'⟩ := hcore m w₁ hm hside hw₁
  refine ⟨m', w₂, after' >>= fun _ => after, hn', ?_, ?_, hw₂, fun w₃ hsame => ?_, fun hs hw => ?_⟩
  · rw [hact, Run.bind_congr hcore', bind_assoc]
  · exact (hside.mono fun _ _ h => Or.inl h).trans (hside'.mono fun _ _ h => Or.inr h)
  · rw [Run.ends_bind]
    have rest : ∀ p, p.IsCell → w₂.layout.Has p → (w₁.layout.Has p → p ∈ U) → w₂.layout.Same w₃.layout p :=
      fun p hc hp hT => hsame p hc hp fun hold => Or.inr (hT (hside.grows p hold))
    refine (hafter'.ends w₃ rest).imp fun _ w₄ h₄ => ?_
    -- The cells on which the rest of the computation relies are none of `U`.
    have own : ∀ p, p.IsCell → w₁.layout.Has p → (w.layout.Has p → p ∈ T) → w₁.layout.Same w₄.layout p := by
      intro p hc hp hnew
      have hn : p ∉ U := fun hpT => (hU p hpT).2 (hnew (hU p hpT).1)
      have h₂ := hside'.same p hc hp hn
      have h₃ := h₂.trans (hsame p hc (hside'.grows p hp) fun hold => Or.inl (hnew hold))
      exact h₃.trans (h₄.same p hc (h₃.has hc hp) fun h => hn (h hp))
    refine (hafter.ends w₄ own).imp fun _ w₅ h₅ => ?_
    exact Beside.trans (h₄.mono fun p _ h hp => Or.inr (h (hside.grows p hp))) (h₅.mono fun p _ h hp => Or.inl (h hp))
  · rw [Run.leads_bind]
    exact (hafter'.leads hs hw).imp fun _ _ h => hafter.leads hs h.2

theorem through (h : ComesTo k b n ∅ good act core w) (hT : ∀ p ∈ T, w.layout.Has p)
    (hcore : ∀ m w₁, n ≤ m → Beside ∅ w w₁ → w₁.layout.Serves k b → ComesTo k b n' T (fun _ => True) (core m) core' w₁) :
    ComesTo k b n' T good act core' w :=
  (h.onward (fun p hp => ⟨hT p hp, Set.notMem_empty p⟩) hcore).mono fun _ _ hp => hp.resolve_left (Set.notMem_empty _)

theorem map (h : ComesTo k b n T good act core w) {f : α → β} (hf : ∀ a, good a → good' (f a)) :
    ComesTo k b n T good' (act >>= fun a => pure (f a)) core w := by
  obtain ⟨m, w₁, after, hm, hact, hside, hw₁, hafter⟩ := h
  refine ⟨m, w₁, after >>= fun a => pure (f a), hm, ?_, hside, hw₁, fun w₂ hsame => ?_, fun hs hw => ?_⟩
  · rw [Run.bind_congr hact, bind_assoc]
  · simpa only [Run.ends_bind, Run.ends_pure] using hafter.ends w₂ hsame
  · simpa only [Run.leads_bind, Run.leads_pure] using (hafter.leads hs hw).imp fun _ _ h => ⟨hf _ h.1, h.2⟩

/-- What comes of a computation, when its core works on cells that had been there. -/
protected theorem ends {R : World (Callback π) (Env π σ) → Prop} (h : ComesTo k b n ∅ good act core w)
    (hU : ∀ p ∈ U, w.layout.Has p)
    (hcore : ∀ m w₁, n ≤ m → Beside ∅ w w₁ → (core m).Ends w₁ fun _ w₂ => Beside U w₁ w₂ ∧ R w₂)
    (hR : ∀ w₂ w₃, R w₂ → Beside {p | ¬w.layout.Has p} w₂ w₃ → R w₃) :
    act.Ends w fun _ w' => Beside U w w' ∧ R w' := by
  obtain ⟨m, w₁, after, hm, hact, hside, -, hafter⟩ := h
  obtain ⟨_, w₂, hrun, hside', hR₂⟩ := Run.ends_iff.1 (hcore m w₁ hm hside)
  have hact' : act w = after w₂ := hact.trans (Run.bind_of_ok hrun)
  rw [Run.Ends, hact']
  refine (hafter.ends w₂ fun p hc hp hnew => hside'.same p hc hp fun hpU => hnew (hU p hpU)).imp fun _ w₃ h₃ => ?_
  refine ⟨⟨?_, ?_, fun p hp => ?_, fun p hc hp hn => ?_⟩, hR w₂ w₃ hR₂ (h₃.mono fun _ _ h => h)⟩
  · exact h₃.contents.trans (hside'.contents.trans hside.contents)
  · exact h₃.host.trans (hside'.host.trans hside.host)
  · exact h₃.grows p (hside'.grows p (hside.grows p hp))
  · have h₁ := hside.same p hc hp (Set.notMem_empty p)
    have h₂ := hside'.same p hc (hside.grows p hp) hn
    exact (h₁.trans h₂).trans (h₃.same p hc (hside'.grows p (hside.grows p hp)) fun h => h hp)

/-- What holds of containers after a computation, if its core leads to it. -/
protected theorem leads {G : Contents → Prop} (h : ComesTo k b n T good act core w) (hs : k.Spares G)
    (hcore : ∀ m w₁, n ≤ m → Beside T w w₁ → w₁.layout.Serves k b → (core m).Leads w₁ fun _ => World.Serves k b G) :
    act.Leads w fun a w' => good a ∧ w'.Serves k b G := by
  obtain ⟨m, w₁, after, hm, hact, hside, hw₁, hafter⟩ := h
  have hrun := (hcore m w₁ hm hside hw₁).imp fun _ w₂ h₂ => hafter.leads hs h₂
  rw [← Run.leads_bind] at hrun
  rwa [Run.Leads, hact]

end ComesTo

/-! ## Handing over -/

/-- A sink is handed a value, and at most so many calls are nested meanwhile. -/
def handing (H : Host π σ) (next : Sink π) (v : Value) (calls : Nat) : Live π σ Unit :=
  next.emit (engine H calls) (H.observer (engine H calls)) v

section

variable {H : Host π σ} {k : Stroke} {b : Extent} {m n : Nat} {T : Set Piece} {w w₁ : World (Callback π) (Env π σ)}
  {next : Sink π}

theorem Finishes.pure {good : α → Prop} {a : α} (h : good a) : Finishes k b T good w w₁ (pure a : Live π σ α) where
  ends w₂ _ := Beside.refl _ w₂
  leads _ hw := ⟨h, hw⟩

theorem constant_comes (hn : n ≤ m) (v : Value) (hw : w.layout.Serves k b) :
    ComesTo k b n T (Cancel.Plain b) (constant (engine H (m + 1)) v next) (handing H next v) w :=
  .here hn rfl hw (.pure trivial)

/-- What is done after the value at a place has been handed over. -/
theorem ListId.listen_finishes (l : ListId) (topic : ListTopic) {callback : Callback π}
    (hq : (Post.list l topic callback).Serves k b) : Finishes k b T (Cancel.Plain b) w w₁
      (l.listen topic callback >>= fun id => pure (.unlistenList l topic id) : Live π σ (Cancel π)) where
  ends w₂ _ := by
    simp only [Run.ends_bind, Run.ends_pure]
    exact Beside.listenList l topic callback
  leads _ hw := by
    simp only [Run.leads_bind, Run.leads_pure]
    exact (l.listen_serves topic hq hw).imp fun _ _ h => ⟨trivial, h⟩

theorem ObjectId.listen_finishes (o : ObjectId) (topic : ObjectTopic) {callback : Callback π}
    (hq : (Post.object o topic callback).Serves k b) : Finishes k b T (Cancel.Plain b) w w₁
      (o.listen topic callback >>= fun id => pure (.unlistenObject o topic id) : Live π σ (Cancel π)) where
  ends w₂ _ := by
    simp only [Run.ends_bind, Run.ends_pure]
    exact Beside.listenObject o topic callback
  leads _ hw := by
    simp only [Run.leads_bind, Run.leads_pure]
    exact (o.listen_serves topic hq hw).imp fun _ _ h => ⟨trivial, h⟩

theorem Place.watch_comes (hn : n ≤ m) (p : Place) (hnext : next.Serves k b) (hw : w.layout.Serves k b) :
    ComesTo k b n T (Cancel.Plain b) (p.watch (engine H (m + 1)) next) (handing H next (p.read w.contents)) w := by
  cases p with
  | entry o name => exact .here hn rfl hw (o.listen_finishes (.after name) ⟨hnext, Or.inl ⟨name, rfl⟩⟩)
  | key o name => exact .here hn rfl hw (o.listen_finishes .entries ⟨hnext, Or.inr (Or.inl rfl)⟩)
  | length l => exact .here hn rfl hw (l.listen_finishes .length ⟨hnext, Or.inr (Or.inl rfl)⟩)
  | item l index => exact .here hn rfl hw (l.listen_finishes .content ⟨hnext, Or.inl rfl⟩)
  | element l value => exact .here hn rfl hw (l.listen_finishes .content ⟨hnext, Or.inl rfl⟩)

theorem Spot.follow_comes (hn : n ≤ m) (spot : Spot) (hnext : next.Serves k b) (hw : w.layout.Serves k b) :
    ComesTo k b n T (Cancel.Plain b) (spot.follow (engine H (m + 1)) next) (handing H next (spot.read w.contents)) w := by
  cases spot with
  | place p => exact p.watch_comes hn hnext hw
  | constant v => exact constant_comes hn v hw

/-- A spot reads as what is followed, on the contents on which it was found. -/
theorem Followed.spot_read_self (what : Followed) (c : Contents) (container key : Value) :
    (what.spot c container key).read c = what.value c container key := by
  cases what
  · cases container <;> simp only [spot, value, Contents.property, Spot.read, Place.read]
    case list l =>
      by_cases hl : asksLength key = true
      · simp only [hl, if_true]
      · cases key.asIndex <;> simp [hl]
  · cases container <;> rfl

theorem follow_comes (hn : n ≤ m) (what : Followed) (container key : Value) (hnext : next.Serves k b)
    (hw : w.layout.Serves k b) : ComesTo k b n T (Cancel.Plain b) (follow (engine H (m + 1)) what container key next)
      (handing H next (what.value w.contents container key)) w := by
  obtain ⟨m', w₁, after, hm, hact, rest⟩ := Spot.follow_comes (H := H) (T := T) hn (what.spot w.contents container key) hnext hw
  rw [Followed.spot_read_self] at hact
  exact ⟨m', w₁, after, hm, (follow_eq ..).trans hact, rest⟩

variable {s : Ref .slot}

/-- What is kept in a slot that is still as it was when the start began. -/
theorem keepIn_ends {handle : Cancel π} (hs : w.layout.slotIs s { generation := 1 }) :
    (keepIn (engine H (m + 1)) s 1 handle).Ends w fun _ w' => Beside {.slot s} w w' := by
  simp only [keepIn, Run.ends_bind, ends_cells, hs.eq, Bool.false_or, bne_self_eq_false, Bool.false_eq_true, if_false, swapCurrent]
  refine modifySlot_ends (N := fun _ => True) hs fun w' t _ => ?_
  exact t.beside fun p hp => Multiset.mem_singleton.1 hp

variable {start : Live π σ (Cancel π)} {core : Nat → Live π σ Unit}

theorem ComesTo.kept (hH : H.Idle) (hs : w.layout.slotIs s { generation := 1 }) (hb : b.slots ≤ s.index) (hT : .slot s ∉ T)
    (h : ComesTo k b n T (Cancel.Plain b) start core w) :
    ComesTo k b n (insert (.slot s) T) (fun _ => True) (start >>= keepIn (engine H (m + 1)) s 1) core w := by
  have hhas : w.layout.Has (.slot s) := hs.has
  obtain ⟨m', w₁, after, hm, hact, hside, hw₁, hafter⟩ := h
  refine ⟨m', w₁, after >>= keepIn (engine H (m + 1)) s 1, hm, (Run.bind_congr hact).trans (by rw [bind_assoc]),
    hside.mono fun _ _ h => Or.inr h, hw₁, fun w₂ hsame => ?_, fun hG hw₂ => ?_⟩
  · rw [Run.ends_bind]
    refine (hafter.ends w₂ fun p hc hp h => hsame p hc hp fun hp => Or.inr (h hp)).imp fun handle w₃ h₃ => ?_
    have hs₁ := hs.same (hside.same _ trivial hhas hT)
    have hs₂ := hs₁.same (hsame _ trivial (hside.grows _ hhas) fun _ => Or.inl rfl)
    have hs₃ := hs₂.same (h₃.same _ trivial hs₂.has fun h => hT (h hhas))
    refine (keepIn_ends hs₃).imp fun _ w₄ h₄ => ?_
    exact Beside.trans (h₃.mono fun p _ h hp => Or.inr (h hp)) (h₄.mono fun p _ h _ => Or.inl h)
  · rw [Run.leads_bind]
    refine (hafter.leads hG hw₂).imp fun handle w₃ h₃ => ?_
    exact (keepIn_serves (engine_serves hH hG _) 1 hb h₃.1 h₃.2).imp fun _ _ h => ⟨trivial, h⟩

/-- Something that is started in a new slot comes to what the start comes to. -/
theorem restart_comes (hH : H.Idle) (hs : w.layout.slotIs s {}) (hb : b.slots ≤ s.index) (hT : .slot s ∉ T)
    (hw : w.layout.Serves k b)
    (hstart : ∀ w₁, Beside {.slot s} w w₁ → w₁.layout.Serves k b → ComesTo k b n T (Cancel.Plain b) start core w₁) :
    ComesTo k b n (insert (.slot s) T) (fun _ => True) (restart (engine H (m + 1)) s start) core w := by
  have hE : (engine H (m + 1)).Serves k b fun _ => True := engine_serves hH (fun _ _ _ _ => trivial) _
  have hclear : (clear (engine H (m + 1)) s 1).Ends w fun _ w₁ =>
      Beside {.slot s} w w₁ ∧ w₁.layout.slotIs s { generation := 1 } := by
    simp only [clear, takeCurrent, Run.ends_bind, ends_cells, Run.ends_pure]
    refine modifySlot_ends (N := fun _ => True) hs fun w₁ t₁ hs₁ => ?_
    refine modifySlot_ends (N := fun _ => True) hs₁ fun w₂ t₂ hs₂ => ?_
    rw [hs₁.eq]
    exact ⟨(t₁.trans t₂).beside fun p hp => Multiset.mem_singleton.1 hp, hs₂⟩
  refine .congr (restart_eq _ s start hs.eq) (.before ?_)
  refine (hclear.and_leads (clear_serves hE 1 hb ⟨hw, trivial⟩)).imp fun _ w₁ h₁ => ?_
  obtain ⟨⟨hside, hs₁⟩, hw₁⟩ := h₁
  refine ⟨hside.mono fun p _ h => Or.inl h, ?_⟩
  exact ((hstart w₁ hside hw₁.1).kept hH hs₁ hb hT).mono fun p _ hp _ => hp

theorem ComesTo.self {core : Nat → Live π σ Unit} (hn : n ≤ m) (hw : w.layout.Serves k b) :
    ComesTo k b n T (fun _ => True) (core m) core w :=
  .here hn (congrFun (bind_pure_unit (x := core m)).symm w) hw (.pure trivial)

/-- The first value that comes to a sink that drops what is the same as before. -/
theorem distinct_comes {last : Ref .last} (next : Sink π) (v : Value) (hl : w.layout.lastIs last none) (hn : n ≤ m)
    (hw : w.layout.Serves k b) :
    ComesTo k b n {.last last} (fun _ => True) (handing H (.distinct last next) v m) (handing H next v) w := by
  have hrun : handing H (.distinct last next) v m w = (setLast last v >>= fun _ => handing H next v m) w := by
    have h : handing H (.distinct last next) v m w =
      (if (w.layout.cells.lastValue last).any (fun u : Value => u.same v) then pure () else do
        setLast last v
        handing H next v m) w := by
      simp only [handing, Sink.emit]
      rfl
    rw [h, hl.eq]
    rfl
  have hleads : (setLast last v : Live π σ Unit).Leads w fun _ w₁ => w₁.Serves k b fun _ => True :=
    World.Serves.cells ⟨hw, trivial⟩ rfl rfl
  have hends : (setLast last v : Live π σ Unit).Ends w fun _ w₁ => Beside {.last last} w w₁ :=
    setLast_ends (N := fun _ => True) hl fun w₁ t₁ _ => t₁.beside fun p hp => Multiset.mem_singleton.1 hp
  refine .congr hrun (.before ((hends.and_leads hleads).imp fun _ w₁ h₁ => ⟨h₁.1, .self hn h₁.2.1⟩))

/-! ## Rows of arguments -/

/-- What an expression comes to when it is started in a scope. -/
def Expr.Comes (H : Host π σ) (k : Stroke) (b : Extent) (x : Expr) (s : Scope) : Prop :=
  ∀ {next : Sink π} {n m : Nat} {w}, next.Serves k b → w.layout.Serves k b → n + 2 * x.size ≤ m →
    ComesTo k b n ∅ (Cancel.Plain b) (x.start (engine H m) next s) (handing H next (x.denote w.contents s)) w

theorem Value.eq_undefined_of_same {v : Value} (h : undefined.same v = true) : v = undefined := by
  cases v <;> simp_all [same]

/-- The value that an argument has from the start. -/
theorem Expr.Comes.argument_ends (hH : H.Idle) {x : Expr} {scope : Scope} (hx : x.Comes H k b scope) {row : Ref .args}
    {vs : List Value} {i : Nat} {action : ArgsAction π} (ha : action.Serves k b) (hn : 2 * x.size ≤ m)
    (hrow : w.layout.rowIs row { values := vs }) (hi : vs[i]? = some .undefined) (hw : w.layout.Serves k b) :
    (x.start (engine H m) (.argument row i action) scope).Ends w fun handle w' =>
      (Beside {.row row} w w' ∧ w'.layout.rowIs row { values := vs.set i (x.denote w.contents scope) }) ∧
        handle.Plain b ∧ w'.layout.Serves k b := by
  have hhas : w.layout.Has (.row row) := hrow.has
  have hsink : (Sink.argument row i action).Serves k b := ha
  have hcomes := hx (n := 0) (m := m) hsink hw (by omega)
  refine Run.Ends.and_leads (hcomes.ends (U := {.row row}) (fun p hp => ?_) (fun m' w₁ _ hside => ?_) fun w₂ w₃ hrow₂ hside => ?_) ?_
  · rw [Set.mem_singleton_iff.1 hp]
    exact hhas
  · -- The row is not ready, so that the value is stored.
    have hrow₁ := hrow.same (hside.same _ trivial hhas (Set.notMem_empty _))
    simp only [handing, Sink.emit, Run.ends_bind, ends_cells, hrow₁.eq]
    split
    · rename_i hsame
      rw [List.getD_eq_getElem?_getD, hi] at hsame
      rw [Value.eq_undefined_of_same hsame]
      obtain ⟨hlt, hget⟩ := List.getElem?_eq_some_iff.1 hi
      rw [← hget, List.set_getElem_self hlt]
      exact ⟨.refl _ _, hrow₁⟩
    · rw [Run.ends_bind]
      refine modifyArgs_ends (N := fun _ => True) hrow₁ fun w₂ t₂ hrow₂ => ?_
      exact ⟨t₂.beside fun p hp => Multiset.mem_singleton.1 hp, hrow₂⟩
  · exact hrow₂.same (hside.same _ trivial hrow₂.has fun hn => hn hhas)
  · refine (hcomes.leads (G := fun _ => True) (fun _ _ _ _ => trivial) fun m' w₁ _ _ hw₁ => ?_).imp fun _ _ h => ⟨h.1, h.2.1⟩
    have hE := engine_serves (k := k) (b := b) (G := fun _ => True) hH (fun _ _ _ _ => trivial) m'
    exact Sink.emit_serves hE (fun p v _ h => hH.observer_serves p v h) hsink _ ⟨hw₁, trivial⟩

/-- A row whose arguments have all been started. -/
theorem settle_comes {row : Ref .args} {vs : List Value} {action : ArgsAction π} {good : α → Prop} {a : α} (hgood : good a)
    (hrow : w.layout.rowIs row { values := vs }) (hn : n ≤ m) (hw : w.layout.Serves k b) :
    ComesTo k b n {.row row} good (settle (engine H (m + 1)) row action >>= fun _ => pure a)
      (fun m => action.react (engine H m) (H.observer (engine H m)) vs) w := by
  have hends : (modifyArgs row fun c => { c with ready := true } : Live π σ Unit).Ends w fun _ w₁ =>
      Beside {.row row} w w₁ ∧ w₁.layout.rowIs row { values := vs, ready := true } :=
    modifyArgs_ends (N := fun _ => True) hrow fun w₁ t₁ hrow₁ => ⟨t₁.beside fun p hp => Multiset.mem_singleton.1 hp, hrow₁⟩
  have hleads : (modifyArgs row fun c => { c with ready := true } : Live π σ Unit).Leads w fun _ w₁ =>
      w₁.Serves k b fun _ => True := World.Serves.cells ⟨hw, trivial⟩ rfl rfl
  unfold settle
  rw [bind_assoc]
  refine .before ((hends.and_leads hleads).imp fun _ w₁ h₁ => ⟨h₁.1.1, ?_⟩)
  refine .here (m := m) hn ?_ h₁.2.1 (.pure hgood)
  have hrun : ((do (engine H (m + 1)).react action ((← cells).argsCell row).values) >>= fun _ => pure a) w₁ =
    ((engine H (m + 1)).react action (w₁.layout.cells.argsCell row).values >>= fun _ => pure a) w₁ := rfl
  rw [hrun, h₁.1.2.eq]
  rfl

/-- A new cell is one of those with which a computation may work. -/
theorem ComesTo.fresh {pre : Live π σ β} {p : β → Piece} {good : α → Prop} {f : β → Live π σ α} {core : Nat → Live π σ Unit}
    (hpre : pre.Ends w fun x w₁ => ¬w.layout.Has (p x) ∧ Beside T w w₁ ∧ ComesTo k b n (insert (p x) T) good (f x) core w₁) :
    ComesTo k b n T good (pre >>= f) core w := by
  refine .before (hpre.imp fun x w₁ h => ⟨h.2.1, h.2.2.mono fun q _ hq hold => ?_⟩)
  exact hq.resolve_left fun hp => h.1 (hp ▸ hold)

theorem newArgs_comes {count : Nat} {good : α → Prop} {f : Ref .args → Live π σ α} {core : Nat → Live π σ Unit}
    (hw : w.layout.Serves k b) (h : ∀ row w₁, Beside ∅ w w₁ → w₁.layout.Serves k b →
      w₁.layout.rowIs row { values := List.replicate count .undefined } →
        ComesTo k b n (insert (.row row) T) good (f row) core w₁) : ComesTo k b n T good (newArgs count >>= f) core w := by
  have hends : (newArgs count : Live π σ _).Ends w fun row w₁ => ¬w.layout.Has (.row row) ∧ Beside ∅ w w₁ ∧
      w₁.layout.rowIs row { values := List.replicate count .undefined } :=
    newArgs_ends (N := fun _ => True) fun row w₁ hnew t₁ hrow => ⟨hnew, t₁.beside fun p hp => (Multiset.notMem_zero p hp).elim, hrow⟩
  refine .fresh (p := .row) ((hends.and_leads (newArgs_serves count ⟨hw, trivial⟩ (G := fun _ => True))).imp fun row w₁ h₁ => ?_)
  exact ⟨h₁.1.1, h₁.1.2.1.mono fun _ _ h => h.elim, h row w₁ h₁.1.2.1 h₁.2.1 h₁.1.2.2⟩

theorem newSlot_comes {good : α → Prop} {f : Ref .slot → Live π σ α} {core : Nat → Live π σ Unit}
    (hw : w.layout.Serves k b) (h : ∀ s w₁, ¬w.layout.Has (.slot s) → Beside ∅ w w₁ → w₁.layout.Serves k b →
      b.slots ≤ s.index → w₁.layout.slotIs s {} →
        ComesTo k b n (insert (.slot s) T) good (f s) core w₁) : ComesTo k b n T good (newSlot >>= f) core w := by
  have hends : (newSlot : Live π σ _).Ends w fun s w₁ => ¬w.layout.Has (.slot s) ∧ Beside ∅ w w₁ ∧ w₁.layout.slotIs s {} :=
    newSlot_ends (N := fun _ => True) fun s w₁ hnew t₁ hs => ⟨hnew, t₁.beside fun p hp => (Multiset.notMem_zero p hp).elim, hs⟩
  refine .fresh (p := .slot) ((hends.and_leads (newSlot_serves ⟨hw, trivial⟩ (G := fun _ => True))).imp fun s w₁ h₁ => ?_)
  exact ⟨h₁.1.1, h₁.1.2.1.mono fun _ _ h => h.elim, h s w₁ h₁.1.1 h₁.1.2.1 h₁.2.2.1 h₁.2.1 h₁.1.2.2⟩

theorem newLast_comes {good : α → Prop} {f : Ref .last → Live π σ α} {core : Nat → Live π σ Unit}
    (hw : w.layout.Serves k b) (h : ∀ last w₁, Beside ∅ w w₁ → w₁.layout.Serves k b → w₁.layout.lastIs last none →
      ComesTo k b n (insert (.last last) T) good (f last) core w₁) : ComesTo k b n T good (newLast >>= f) core w := by
  have hends : (newLast : Live π σ _).Ends w fun last w₁ => ¬w.layout.Has (.last last) ∧ Beside ∅ w w₁ ∧
      w₁.layout.lastIs last none :=
    newLast_ends (N := fun _ => True) fun last w₁ hnew t₁ hl => ⟨hnew, t₁.beside fun p hp => (Multiset.notMem_zero p hp).elim, hl⟩
  refine .fresh (p := .last) ((hends.and_leads (newLast_serves ⟨hw, trivial⟩ (G := fun _ => True))).imp fun last w₁ h₁ => ?_)
  exact ⟨h₁.1.1, h₁.1.2.1.mono fun _ _ h => h.elim, h last w₁ h₁.1.2.1 h₁.2.1 h₁.1.2.2⟩

/-- A row of two. -/
theorem startTwo_comes (hH : H.Idle) {x y : Expr} {scope : Scope} (hx : x.Comes H k b scope) (hy : y.Comes H k b scope)
    {action : ArgsAction π} (ha : action.Serves k b) (hn : n ≤ m) (hnx : 2 * x.size ≤ m + 1) (hny : 2 * y.size ≤ m + 1)
    (hw : w.layout.Serves k b) :
    ComesTo k b n ∅ (Cancel.Plain b)
      (startTwo (engine H (m + 1)) action (x.start (engine H (m + 1)) · scope) (y.start (engine H (m + 1)) · scope))
      (fun m => action.react (engine H m) (H.observer (engine H m)) [x.denote w.contents scope, y.denote w.contents scope]) w := by
  refine newArgs_comes hw fun row w₁ hside₁ hw₁ hrow₁ => ?_
  refine .before ((hx.argument_ends hH ha hnx hrow₁ rfl hw₁).imp fun handle w₂ h₂ => ?_)
  obtain ⟨⟨hside₂, hrow₂⟩, hplain₂, hw₂⟩ := h₂
  refine ⟨hside₂.mono fun p _ h => Or.inl h, ?_⟩
  refine .before ((hy.argument_ends hH ha hny hrow₂ rfl hw₂).imp fun handle' w₃ h₃ => ?_)
  obtain ⟨⟨hside₃, hrow₃⟩, hplain₃, hw₃⟩ := h₃
  refine ⟨hside₃.mono fun p _ h _ => Or.inl h, ?_⟩
  rw [hside₂.contents, hside₁.contents] at hrow₃
  exact ComesTo.mono (settle_comes (Cancel.plain_pair.2 ⟨hplain₂, hplain₃⟩) hrow₃ hn hw₃) fun p _ h _ _ => Or.inl h

/-- Following a container under a key. -/
theorem startFollowing_comes (hH : H.Idle) {x y : Expr} {scope : Scope} (hx : x.Comes H k b scope) (hy : y.Comes H k b scope)
    (what : Followed) (hnext : next.Serves k b) (hn : n + 2 * (x.size + y.size + 1) ≤ m) (hw : w.layout.Serves k b) :
    ComesTo k b n ∅ (Cancel.Plain b)
      (startFollowing (engine H m) what (x.start (engine H m) · scope) (y.start (engine H m) · scope) next)
      (handing H next (what.value w.contents (x.denote w.contents scope) (y.denote w.contents scope))) w := by
  obtain ⟨m, rfl⟩ : ∃ m', m = m' + 1 := ⟨m - 1, by omega⟩
  unfold startFollowing distinct
  rw [bind_assoc]
  refine newLast_comes hw fun last w₁ hside₁ hw₁ hlast => ?_
  rw [pure_bind]
  refine newSlot_comes hw₁ fun s w₂ hnew hside₂ hw₂ hb hs => ?_
  have hlast₂ := hlast.same (hside₂.same _ trivial hlast.has (Set.notMem_empty _))
  have ha : (ArgsAction.follow s what (.distinct last next)).Serves k b := ⟨hb, hnext⟩
  refine ComesTo.map ?_ fun outer h => plain_forEach hb h
  have htwo := startTwo_comes (n := n + 1) (m := m) hH hx hy ha (by omega) (by omega) (by omega) hw₂
  rw [hside₂.contents, hside₁.contents] at htwo
  have hhas : ∀ p ∈ ({.slot s, .last last} : Set Piece), w₂.layout.Has p := by
    rintro p (rfl | rfl)
    · exact hs.has
    · exact hlast₂.has
  refine (htwo.through hhas fun l w₃ hl hside₃ hw₃ => ?_).mono fun p _ hp => ?_
  · -- The place is followed in the new slot, and its value is the first one.
    obtain ⟨l, rfl⟩ : ∃ l', l = l' + 1 := ⟨l - 1, by omega⟩
    have hs₃ := hs.same (hside₃.same _ trivial hs.has (Set.notMem_empty _))
    have hlast₃ := hlast₂.same (hside₃.same _ trivial hlast₂.has (Set.notMem_empty _))
    refine restart_comes hH hs₃ hb (by simp) hw₃ fun w₄ hside₄ hw₄ => ?_
    have hlast₄ := hlast₃.same (hside₄.same _ trivial hlast₃.has (by simp))
    have hsink : (Sink.distinct last next).Serves k b := hnext
    have hfollow := follow_comes (n := n) (m := l) (H := H) (T := ∅) (by omega) what (x.denote w.contents scope)
      (y.denote w.contents scope) hsink hw₄
    rw [hside₄.contents, hside₃.contents, hside₂.contents, hside₁.contents] at hfollow
    refine hfollow.through ?_ fun l' w₅ hl' hside₅ hw₅ => ?_
    · rintro p rfl
      exact hlast₄.has
    · exact distinct_comes _ _ (hlast₄.same (hside₅.same _ trivial hlast₄.has (Set.notMem_empty _))) hl' hw₅
  · simpa using hp

/-- What is started in a new slot for the value of an expression. -/
theorem forEach_comes (hH : H.Idle) {x : Expr} {scope : Scope} (hx : x.Comes H k b scope) {branch : Branch π}
    (hbranch : branch.Serves k b) {core : Nat → Live π σ Unit} {l : Nat} (hn : l + 1 + 2 * x.size ≤ m) (hw : w.layout.Serves k b)
    (hstart : ∀ {m w₁}, l ≤ m → w₁.contents = w.contents → w₁.layout.Serves k b →
      ComesTo k b n ∅ (Cancel.Plain b) (branch.start (engine H (m + 1)) (x.denote w.contents scope)) core w₁) :
    ComesTo k b n ∅ (Cancel.Plain b) (do
      let s ← newSlot
      let outer ← x.start (engine H m) (.switch s branch) scope
      return forEach s outer) core w := by
  refine newSlot_comes hw fun s w₁ _ hside₁ hw₁ hb hs => ?_
  refine ComesTo.map ?_ fun outer h => plain_forEach hb h
  have hsink : (Sink.switch s branch).Serves k b := ⟨hb, hbranch⟩
  have hcomes := hx (n := l + 1) hsink hw₁ hn
  rw [hside₁.contents] at hcomes
  refine hcomes.through (fun p hp => ?_) fun m' w₂ hm' hside₂ hw₂ => ?_
  · rw [hp.resolve_right (Set.notMem_empty p)]
    exact hs.has
  · obtain ⟨m', rfl⟩ : ∃ m'', m' = m'' + 1 := ⟨m' - 1, by omega⟩
    have hs₂ := hs.same (hside₂.same _ trivial hs.has (Set.notMem_empty _))
    refine restart_comes hH hs₂ hb (Set.notMem_empty _) hw₂ fun w₃ hside₃ hw₃ => ?_
    exact hstart (by omega) (hside₃.contents.trans (hside₂.contents.trans hside₁.contents)) hw₃

/-- The arguments of a row from an index on, those before being there. -/
theorem startArgs_denoted (hH : H.Idle) {scope : Scope} {row : Ref .args} {action : ArgsAction π} (ha : action.Serves k b)
    (before : List Value) {xs : List Expr} (hxs : ∀ x ∈ xs, x.Comes H k b scope) (hn : 2 * Expr.sizeAll xs ≤ m)
    (hrow : w.layout.rowIs row { values := before ++ List.replicate xs.length .undefined }) (hw : w.layout.Serves k b) :
    (Expr.startArgs (engine H m) row action scope before.length xs).Ends w fun handles w' =>
      (Beside {.row row} w w' ∧ w'.layout.rowIs row { values := before ++ Expr.denoteAll w.contents xs scope }) ∧
        Cancel.PlainAll b handles ∧ w'.layout.Serves k b := by
  induction xs generalizing before w with
  | nil => exact ⟨⟨.refl _ _, hrow⟩, trivial, hw⟩
  | cons x xs ih =>
    simp only [Expr.sizeAll] at hn
    simp only [Expr.startArgs, Run.ends_bind, Run.ends_pure]
    rw [List.length_cons] at hrow
    have hi : (before ++ List.replicate (xs.length + 1) Value.undefined)[before.length]? = some .undefined := by simp
    refine (Expr.Comes.argument_ends hH (hxs x (by simp)) ha (by omega) hrow hi hw).imp fun handle w₁ h₁ => ?_
    obtain ⟨⟨hside₁, hrow₁⟩, hplain, hw₁⟩ := h₁
    have hset : (before ++ List.replicate (xs.length + 1) Value.undefined).set before.length (x.denote w.contents scope) =
        (before ++ [x.denote w.contents scope]) ++ List.replicate xs.length .undefined := by
      simp [List.replicate_succ]
    rw [hset] at hrow₁
    have rest := ih (before ++ [x.denote w.contents scope]) (fun y hy => hxs y (by simp [hy])) (by omega) hrow₁ hw₁
    rw [List.length_append, List.length_singleton, hside₁.contents] at rest
    refine rest.imp fun handles w₂ h₂ => ?_
    obtain ⟨⟨hside₂, hrow₂⟩, hplains, hw₂⟩ := h₂
    refine ⟨⟨hside₁.trans hside₂, ?_⟩, ⟨hplain, hplains⟩, hw₂⟩
    rwa [List.append_assoc] at hrow₂

/-- An expression that looks up and computes hands over what it denotes. -/
theorem Expr.Computed.comes (hH : H.Idle) {x : Expr} (hx : x.Computed) (s : Scope) : x.Comes H k b s := by
  induction hx generalizing s with
  | literal | value | parameters =>
    intro next n m w hnext hw hn
    simp only [Expr.size] at hn
    obtain ⟨m, rfl⟩ : ∃ m', m = m' + 1 := ⟨m - 1, by omega⟩
    exact constant_comes (by omega) _ hw
  | element id =>
    intro next n m w hnext hw hn
    simp only [Expr.size] at hn
    obtain ⟨m, rfl⟩ : ∃ m', m = m' + 1 := ⟨m - 1, by omega⟩
    have hspot := Spot.follow_comes (H := H) (T := ∅) (n := n) (m := m) (by omega) (registrySpot s.elements id) hnext hw
    rw [registrySpot_read] at hspot
    refine .congr ?_ hspot
    simp only [Expr.start, registrySpot]
    cases s.elements <;> rfl
  | component label =>
    intro next n m w hnext hw hn
    simp only [Expr.size] at hn
    obtain ⟨m, rfl⟩ : ∃ m', m = m' + 1 := ⟨m - 1, by omega⟩
    have hspot := Spot.follow_comes (H := H) (T := ∅) (n := n) (m := m) (by omega) (registrySpot s.components label) hnext hw
    rw [registrySpot_read] at hspot
    refine .congr ?_ hspot
    simp only [Expr.start, registrySpot]
    cases s.components <;> rfl
  | property _ _ iha ihb => exact fun hnext hw hn => startFollowing_comes hH (iha s) (ihb s) .property hnext hn hw
  | membership _ _ iha ihb => exact fun hnext hw hn => startFollowing_comes hH (iha s) (ihb s) .membership hnext hn hw
  | @within a c _ hc iha ihc =>
    intro next n m w hnext hw hn
    simp only [Expr.size] at hn
    have hbranch : (Branch.body c s next).Serves k b := ⟨hc, hnext⟩
    refine forEach_comes (l := n + 2 * c.size) hH (iha s) hbranch (by omega) hw fun {m' w₁} hm' hcontents hw₁ => ?_
    have hbody := ihc (s.nest (a.denote w.contents s)) (n := n) (m := m') hnext hw₁ hm'
    rwa [hcontents] at hbody
  | @choice p a c _ ha hc ihp iha ihc =>
    intro next n m w hnext hw hn
    simp only [Expr.size] at hn
    refine newSlot_comes hw fun slot w₁ _ hside₁ hw₁ hb hs => ?_
    unfold distinct
    rw [bind_assoc]
    refine newLast_comes hw₁ fun last w₂ hside₂ hw₂ hlast => ?_
    rw [pure_bind]
    have hs₂ := hs.same (hside₂.same _ trivial hs.has (Set.notMem_empty _))
    refine ComesTo.map ?_ fun outer h => plain_forEach hb h
    have hsink : (Sink.truth (.distinct last (.switch slot (.either a c s next)))).Serves k b := ⟨hb, ha, hc, hnext⟩
    have hcond := ihp s (n := n + 2 * (a.size + c.size) + 1) (m := m) hsink hw₂ (by omega)
    rw [hside₂.contents, hside₁.contents] at hcond
    have hhas : ∀ q ∈ ({.last last, .slot slot} : Set Piece), w₂.layout.Has q := by
      rintro q (rfl | rfl)
      · exact hlast.has
      · exact hs₂.has
    refine (hcond.through hhas fun l w₃ hl hside₃ hw₃ => ?_).mono fun q _ hq => ?_
    · -- The first truth is passed on, and starts one of the branches.
      have hlast₃ := hlast.same (hside₃.same _ trivial hlast.has (Set.notMem_empty _))
      have hs₃ := hs₂.same (hside₃.same _ trivial hs₂.has (Set.notMem_empty _))
      have hfirst := distinct_comes (H := H) (.switch slot (.either a c s next))
        (.bool (p.denote w.contents s).truthy) hlast₃ hl hw₃
      refine hfirst.onward (U := {.slot slot}) ?_ fun l' w₄ hl' hside₄ hw₄ => ?_
      · rintro q rfl
        exact ⟨hs₃.has, by simp⟩
      · obtain ⟨l', rfl⟩ : ∃ l'', l' = l'' + 1 := ⟨l' - 1, by omega⟩
        have hs₄ := hs₃.same (hside₄.same _ trivial hs₃.has (by simp))
        refine ComesTo.mono (restart_comes (T := ∅) hH hs₄ hb (Set.notMem_empty _) hw₄ fun w₅ hside₅ hw₅ => ?_) fun q _ hq => by simpa using hq
        have hcontents : w₅.contents = w.contents :=
          hside₅.contents.trans (hside₄.contents.trans (hside₃.contents.trans (hside₂.contents.trans hside₁.contents)))
        simp only [Branch.start, Expr.denote, engine]
        cases ht : (p.denote w.contents s).truthy with
        | true =>
          have hbranch := iha s (n := n) (m := l') hnext hw₅ (by omega)
          rwa [hcontents] at hbranch
        | false =>
          have hbranch := ihc s (n := n) (m := l') hnext hw₅ (by omega)
          rwa [hcontents] at hbranch
    · simpa [or_comm] using hq
  | @operator xs f _ ih =>
    intro next n m w hnext hw hn
    simp only [Expr.size] at hn
    obtain ⟨m, rfl⟩ : ∃ m', m = m' + 1 := ⟨m - 1, by omega⟩
    unfold Expr.start distinct
    simp only [bind_assoc, pure_bind]
    refine newLast_comes hw fun last w₁ hside₁ hw₁ hlast => ?_
    refine newArgs_comes hw₁ fun row w₂ hside₂ hw₂ hrow => ?_
    have ha : (ArgsAction.compute f (.distinct last next)).Serves k b := hnext
    have hargs := startArgs_denoted (m := m + 1) hH ha [] (fun x hx => ih x hx s) (by omega) hrow hw₂
    rw [hside₂.contents, hside₁.contents] at hargs
    refine .before (hargs.imp fun handles w₃ h₃ => ?_)
    obtain ⟨⟨hside₃, hrow₃⟩, hplain, hw₃⟩ := h₃
    refine ⟨hside₃.mono fun q _ h => Or.inl h, ?_⟩
    have hlast₃ := (hlast.same (hside₂.same _ trivial hlast.has (Set.notMem_empty _))).same
      (hside₃.same _ trivial (hside₂.grows _ hlast.has) (by simp))
    have hjoin : (Cancel.join handles).Plain b := hplain
    refine ComesTo.mono (ComesTo.onward (U := {.last last}) (settle_comes (n := n) hjoin hrow₃ (by omega) hw₃) ?_
      fun l w₄ hl hside₄ hw₄ => ?_) fun q _ hq => ?_
    · rintro q rfl
      exact ⟨hlast₃.has, by simp⟩
    · have hfirst := distinct_comes (H := H) next (f w₄.contents (Expr.denoteAll w.contents xs s))
        (hlast₃.same (hside₄.same _ trivial hlast₃.has (by simp))) hl hw₄
      have hcontents : w₄.contents = w.contents :=
        hside₄.contents.trans (hside₃.contents.trans (hside₂.contents.trans hside₁.contents))
      rw [hcontents] at hfirst
      refine .congr ?_ hfirst
      rw [← hcontents]
      rfl
    · rcases hq with hq | hq
      · exact fun _ => Or.inl hq
      · exact fun _ => Or.inr (Or.inl hq)

end

end LiveBindings
