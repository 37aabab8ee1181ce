import LiveBindings.Proofs.Accept

/-!
# Stopping an observer

The handle of an observer takes down all listeners that the observer owns and touches nothing else (`Runs.stops`). The cells of
the observer are left behind; nothing refers to them any more.
-/

namespace LiveBindings

variable {π σ : Type} {H : Host π σ} {N : Post π → Prop}

/-- Pieces that are no listeners may be given up. -/
theorem Touches.drop {G : Multiset Piece} (hG : ∀ id, .listener id ∉ G) (w : World (Callback π) (Env π σ)) :
    Touches N G 0 w w where
  layout :=
    { Reshapes.refl 0 w.layout with
      same := fun p _ _ => Layout.Same.refl _ p
      fresh := fun _ h => absurd h (Multiset.notMem_zero _)
      has := fun _ _ h => absurd h (Multiset.notMem_zero _)
      nodup := fun _ => Multiset.nodup_zero
      posted := fun h _ => ⟨h, hG _⟩ }
  contents := rfl
  host := rfl
  depth := rfl
  config := rfl
  posts := Or.inl

/-- Taking down pieces one after the other. -/
theorem Touches.andThen {G G' : Multiset Piece} {w w' w'' : World (Callback π) (Env π σ)} (h : Touches N G 0 w w')
    (h' : Touches N G' 0 w' w'') (hw : w.Fits (G + G')) : Touches N (G + G') 0 w w'' :=
  ((h.frame hw.comm).cast (add_comm _ _) (add_zero _)).trans h'

namespace Cancel

variable {E : Engine π σ} {w : World (Callback π) (Env π σ)} {Q : PUnit → World (Callback π) (Env π σ) → Prop}

@[simp] theorem runAll_nil_ends : (runAll H E []).Ends w Q ↔ Q ⟨⟩ w := Iff.rfl

theorem runAll_cons_ends {handle : Cancel π} {handles : List (Cancel π)}
    (h : (handle.run H E).Ends w fun _ w' => (runAll H E handles).Ends w' Q) :
    (runAll H E (handle :: handles)).Ends w Q := by
  obtain ⟨_, w', hw, h⟩ := Run.ends_iff.1 h
  obtain ⟨_, w'', hw', h⟩ := Run.ends_iff.1 h
  refine Run.ends_iff.2 ⟨_, w'', ?_, h⟩
  simp only [runAll, hw, hw']

end Cancel

/-- In every world that agrees with `K` on the pieces of an observer, its handle takes the observer down. -/
def Running.Stops (H : Host π σ) (K : Layout π) (cost : Nat) (R : Running π) : Prop :=
  ∀ {N n} {w : World (Callback π) (Env π σ)}, cost ≤ n → (∀ p ∈ R.owned, K.Same w.layout p) →
    K.Sees w.layout R.leaves → w.Fits R.owned → (R.handle.run H (engine H n)).Ends w fun _ w' => Touches N R.owned 0 w w'

section

variable {D : Place → Prop} {K : Layout π} {x : Expr} {s : Scope} {next : Sink π} {R : Running π}

theorem Watches.stops {spot : Spot} (h : Watches D K next spot R) : R.Stops H K 0 := by
  intro N n w _ hs hk _
  cases h with
  | constant v => simpa [Cancel.run] using Touches.refl 0 w
  | place _ hK =>
    have hK' := hK.same (hs _ (Multiset.mem_singleton_self _)) (hk _ (List.mem_singleton_self _))
    exact Place.unwatch_ends hK' fun w' ht => ht

/-- Closing a slot stops what runs in it. -/
theorem closeSlot_ends {slot : Ref .slot} {g cost n : Nat} {w : World (Callback π) (Env π σ)} (hR : R.Stops H K cost)
    (hn : cost < n) (hslot : K.slotIs slot { current := R.handle, generation := g })
    (hs : ∀ p ∈ ({.slot slot} + R.owned : Multiset Piece), K.Same w.layout p) (hk : K.Sees w.layout R.leaves)
    (hw : w.Fits ({.slot slot} + R.owned)) :
    (closeSlot (engine H n) slot).Ends w fun _ w' => Touches N ({.slot slot} + R.owned) 0 w w' := by
  obtain ⟨m, rfl⟩ : ∃ m, n = m + 1 := ⟨n - 1, by omega⟩
  simp only [closeSlot, takeCurrent, Run.ends_bind, ends_cells]
  refine modifySlot_ends (N := N) (hslot.same (hs _ (by simp))) fun w₁ t₁ hs₁ => ?_
  refine modifySlot_ends (N := N) hs₁ fun w₂ t₂ _ => ?_
  simp only [hs₁.eq, Run.ends_pure, engine]
  have t : Touches N ({.slot slot} + R.owned) ({.slot slot} + R.owned) w w₂ :=
    ((t₁.trans t₂).frame hw.comm).cast (add_comm _ _) (add_comm _ _)
  have hsame : ∀ p ∈ R.owned, w.layout.Same w₂.layout p := fun p hp => (t₁.trans t₂).same hw.comm hp
  refine (hR (N := N) (by omega) (fun p hp => (hs p (by simp [hp])).trans (hsame p hp)) ?_ (hw.touch t).right).imp
    fun _ w₃ t₃ => ?_
  · exact fun l hl hq => hk l hl ((Layout.Knows.congr t.layout.lists t.layout.objects).1 hq)
  · exact t.trans (((t₃.frame (hw.touch t)).cast rfl (add_zero _)).trans (Touches.drop (by simp) w₃))

/-- Handles in a row are taken down one after the other. -/
theorem runAll_ends {cost n : Nat} {Rs : List (Running π)} {w : World (Callback π) (Env π σ)}
    (hR : ∀ R ∈ Rs, R.Stops H K cost) (hn : cost ≤ n) (hs : ∀ p ∈ (Rs.map (·.owned)).sum, K.Same w.layout p)
    (hk : K.Sees w.layout (Rs.map (·.leaves)).flatten) (hw : w.Fits (Rs.map (·.owned)).sum) :
    (Cancel.runAll H (engine H n) (Rs.map (·.handle))).Ends w fun _ w' => Touches N (Rs.map (·.owned)).sum 0 w w' := by
  induction Rs generalizing w with
  | nil => simpa using Touches.refl 0 w
  | cons R Rs ih =>
    simp only [List.map_cons, List.sum_cons] at hs hw ⊢
    simp only [List.map_cons, List.flatten_cons] at hk
    refine Cancel.runAll_cons_ends ?_
    refine (hR R (by simp) (N := N) hn (fun p hp => hs p (by simp [hp])) (fun l hl => hk l (by simp [hl])) hw.left).imp
      fun _ w₁ t₁ => ?_
    have hw₁ : w₁.Fits (Rs.map (·.owned)).sum := (hw.comm.touch (t₁.frame hw.comm)).left
    refine (ih (fun R hR' => hR R (by simp [hR'])) (fun p hp => ?_) (fun l hl hq => ?_) hw₁).imp fun _ w₂ t₂ => ?_
    · exact (hs p (Multiset.mem_add.2 (Or.inr hp))).trans (t₁.same hw.comm hp)
    · exact hk l (by simp [hl]) ((Layout.Knows.congr t₁.layout.lists t₁.layout.objects).1 hq)
    · exact t₁.andThen t₂ hw

/-- Two handles in a row. -/
theorem Running.Stops.two {cost cost' n : Nat} {R' : Running π} {w : World (Callback π) (Env π σ)} (hR : R.Stops H K cost)
    (hR' : R'.Stops H K cost') (hn : cost ≤ n) (hn' : cost' ≤ n)
    (hs : ∀ p ∈ R.owned + R'.owned, K.Same w.layout p) (hk : K.Sees w.layout (R.leaves ++ R'.leaves))
    (hw : w.Fits (R.owned + R'.owned)) :
    ((Cancel.join [R.handle, R'.handle]).run H (engine H n)).Ends w fun _ w' =>
      Touches N (R.owned + R'.owned) 0 w w' := by
  have both : ∀ R'' ∈ [R, R'], R''.Stops H K n := by
    intro R'' h N m w hm
    rcases List.mem_pair.1 h with rfl | rfl
    · exact hR (Nat.le_trans hn hm)
    · exact hR' (Nat.le_trans hn' hm)
  have := runAll_ends (N := N) (w := w) both (Nat.le_refl n) (by simpa using hs) (by simpa using hk) (by simpa using hw)
  simpa [Cancel.run] using this

/-- Stopping what feeds a slot, then what runs in it. -/
theorem forEach_ends {slot : Ref .slot} {g cost n : Nat} {outer : Cancel π} {G : Multiset Piece}
    {w : World (Callback π) (Env π σ)} (hR : R.Stops H K cost)
    (hn : cost < n) (hslot : K.slotIs slot { current := R.handle, generation := g })
    (hs : ∀ p ∈ ({.slot slot} + R.owned : Multiset Piece), K.Same w.layout p) (hk : K.Sees w.layout R.leaves)
    (hw : w.Fits (G + ({.slot slot} + R.owned)))
    (ho : (outer.run H (engine H n)).Ends w fun _ w' => Touches N G 0 w w') :
    ((forEach slot outer).run H (engine H n)).Ends w fun _ w' => Touches N (G + ({.slot slot} + R.owned)) 0 w w' := by
  simp only [forEach, Cancel.run]
  refine Cancel.runAll_cons_ends (ho.imp fun _ w₁ t₁ => ?_)
  have hw₁ : w₁.Fits ({.slot slot} + R.owned) := (hw.comm.touch (t₁.frame hw.comm)).left
  refine Cancel.runAll_cons_ends ?_
  refine (closeSlot_ends (N := N) hR hn hslot (fun p hp => (hs p hp).trans (t₁.same hw.comm hp)) (fun l hl hq => ?_)
    hw₁).imp fun _ w₂ t₂ => ?_
  · exact hk l hl ((Layout.Knows.congr t₁.layout.lists t₁.layout.objects).1 hq)
  · exact t₁.andThen t₂ hw

/-- The handle of an expression that runs takes it down. -/
theorem Runs.stopsIn (h : Runs D K x s next R) : R.Stops H K x.size := by
  induction h with
  | literal | value | parameters =>
    intro N n w _ _ _ _
    simpa [Cancel.run] using Touches.refl 0 w
  | element h | component h => exact fun hn => h.stops (Nat.zero_le _)
  | @following what a b s next row slot last c g x y v Ra Rb Rc _ _ hc _ hslot _ _ _ _ iha ihb =>
    intro N n w hn hs hk hw
    have hn' : a.size + b.size + 1 ≤ n := by cases what <;> exact hn
    simp only [Multiset.mem_add] at hs
    have hw' : w.Fits (Ra.owned + Rb.owned + ({.slot slot} + Rc.owned) + ({.row row} + {.last last})) :=
      hw.of_le (le_of_eq (by simp only [add_assoc]))
    refine (forEach_ends (N := N) (G := Ra.owned + Rb.owned) hc.stops (by omega) hslot (fun p hp => hs p ?_)
      (fun l hl => hk l (by simp [hl])) hw'.left ?_).imp fun _ w₁ t₁ => ?_
    · rcases Multiset.mem_add.1 hp with hp | hp <;> simp [hp]
    · refine iha.two ihb (by omega) (by omega) (fun p hp => hs p ?_) (fun l hl => hk l ?_) hw'.left.left
      · rcases Multiset.mem_add.1 hp with hp | hp <;> simp [hp]
      · rcases List.mem_append.1 hl with hl | hl <;> simp [hl]
    · exact (t₁.andThen (Touches.drop (by simp) w₁) hw').cast (by simp only [add_assoc]) rfl
  | @within a b s next slot g Ra Rb _ _ hslot iha ihb =>
    intro N n w hn hs hk hw
    simp only [Expr.size] at hn
    refine forEach_ends ihb (by omega) hslot (fun p hp => hs p (Multiset.mem_add.2 (Or.inr hp)))
      (fun l hl => hk l (by simp [hl])) hw ?_
    exact iha (by omega) (fun p hp => hs p (by simp [hp])) (fun l hl => hk l (by simp [hl])) hw.left
  | @choice p a b s next slot last g Rp Rb _ _ hslot _ ihp ihb =>
    intro N n w hn hs hk hw
    simp only [Expr.size] at hn
    simp only [Multiset.mem_add] at hs
    have hw' : w.Fits (Rp.owned + ({.slot slot} + Rb.owned) + {.last last}) := by rwa [add_assoc]
    refine (forEach_ends (N := N) (G := Rp.owned) ihb ?_ hslot (fun p hp => hs p ?_) (fun l hl => hk l (by simp [hl]))
      hw'.left ?_).imp fun _ w₁ t₁ => ?_
    · split <;> omega
    · rcases Multiset.mem_add.1 hp with hp | hp <;> simp [hp]
    · exact ihp (by omega) (fun p hp => hs p (by simp [hp])) (fun l hl => hk l (by simp [hl])) hw.left
    · exact (t₁.andThen (Touches.drop (by simp) w₁) hw').cast (by simp only [add_assoc]) rfl
  | @operator f xs s next row last c vs v Rs hlen _ _ _ _ _ ih =>
    intro N n w hn hs hk hw
    simp only [Expr.size] at hn
    have hR : ∀ R ∈ Rs, R.Stops H K (Expr.sizeAll xs) := by
      intro R hR N n w hn
      obtain ⟨i, hi⟩ := List.mem_iff_getElem?.1 hR
      have hx : i < xs.length := hlen ▸ (List.getElem?_eq_some_iff.1 hi).1
      exact ih i _ R (List.getElem?_eq_getElem hx) hi (Nat.le_trans (Expr.size_le_sizeAll (List.getElem_mem hx)) hn)
    simp only [Cancel.run]
    refine (runAll_ends (N := N) hR (by omega) (fun p hp => hs p (Multiset.mem_add.2 (Or.inl hp))) hk hw.left).imp
      fun _ w₁ t₁ => ?_
    exact t₁.andThen (Touches.drop (by simp) w₁) hw

theorem Watches.stopping (next : Sink π) (spot : Spot) : LiveBindings.Stops H 0 fun K R => Watches D K next spot R where
  same h hs hk := h.same hs hk
  stop hn h hw := h.stops hn (fun p _ => Layout.Same.refl _ p) (fun _ _ => id) hw

/-- Stopping an expression that runs. -/
theorem Runs.stopping (x : Expr) (s : Scope) (next : Sink π) :
    LiveBindings.Stops H x.size fun K R => Runs D K x s next R where
  same h hs hk := h.same hs hk
  stop hn h hw := h.stopsIn hn (fun p _ => Layout.Same.refl _ p) (fun _ _ => id) hw

end

end LiveBindings
