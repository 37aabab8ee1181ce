import LiveBindings.Proofs.Place

/-!
# Observers that run

The state of a running observer in the cells and listeners of a world. `Runs D K x s next R` says that in the layout `K` the
expression `x` runs in the scope `s` and hands its values to `next`; the record `R` has what others need of it: the handle that
stops it, the value handed on last, the pieces that it owns and its listeners. The relation looks only at the pieces owned
(`Runs.same`). When every listener is up to date the value handed on last is what the expression denotes (`Runs.denote`).
-/

namespace LiveBindings

variable {π σ : Type}

/-- A listener of an observer: what it watches, where it hands the value there, and the value it handed on last. -/
structure Leaf (π : Type) where
  place : Place
  id : ListenerId
  sink : Sink π
  value : Value

/-- The value handed on last is the one at the place. -/
def Leaf.Current (c : Contents) (l : Leaf π) : Prop := l.value.same (l.place.read c) = true

/-- What others need of an observer that runs. -/
structure Running (π : Type) where
  handle : Cancel π := .done
  /-- The value handed on last. -/
  value : Value
  owned : Multiset Piece := 0
  leaves : List (Leaf π) := []

/-- A spot is followed and its value handed to a sink; `D` are the places that may be watched. -/
inductive Watches (D : Place → Prop) (K : Layout π) (next : Sink π) : Spot → Running π → Prop
  | constant (v : Value) : Watches D K next (.constant v) { value := v }
  | place {p : Place} {id : ListenerId} {v : Value} : D p → K.Holds id (p.post next) →
      Watches D K next (.place p)
        { handle := p.handle id, value := v, owned := {.listener id}, leaves := [⟨p, id, next, v⟩] }

/-- The expression by which something is followed. -/
def Followed.expr : Followed → Expr → Expr → Expr
  | .property => .property
  | .membership => .membership

/-- What is done with a container and a key that are followed. -/
abbrev Followed.action (what : Followed) (slot : Ref .slot) (last : Ref .last) (next : Sink π) : ArgsAction π :=
  .follow slot what (.distinct last next)

/-- Where a condition hands its values. -/
abbrev conditionSink (a b : Expr) (s : Scope) (slot : Ref .slot) (last : Ref .last) (next : Sink π) : Sink π :=
  .truth (.distinct last (.switch slot (.either a b s next)))

/-- An expression runs in a scope and hands its values to a sink; `D` are the places that it may watch. -/
inductive Runs (D : Place → Prop) (K : Layout π) : Expr → Scope → Sink π → Running π → Prop
  | literal {v : Value} {s : Scope} {next : Sink π} : Runs D K (.literal v) s next { value := v }
  | value {s : Scope} {next : Sink π} : Runs D K .value s next { value := s.value }
  | parameters {s : Scope} {next : Sink π} : Runs D K .parameters s next { value := s.parameters }
  | element {name : String} {s : Scope} {next : Sink π} {R : Running π} :
      Watches D K next (registrySpot s.elements name) R → Runs D K (.element name) s next R
  | component {name : String} {s : Scope} {next : Sink π} {R : Running π} :
      Watches D K next (registrySpot s.components name) R → Runs D K (.component name) s next R
  /-- The row holds what the spot was found by; `v` is the value that last got through. -/
  | following {what : Followed} {a b : Expr} {s : Scope} {next : Sink π} {row : Ref .args} {slot : Ref .slot}
      {last : Ref .last} {c : Contents} {g : Nat} {x y v : Value} {Ra Rb Rc : Running π} :
      Runs D K a s (.argument row 0 (what.action slot last next)) Ra →
      Runs D K b s (.argument row 1 (what.action slot last next)) Rb →
      Watches D K (.distinct last next) (what.spot c x y) Rc →
      K.rowIs row { values := [x, y], ready := true } → K.slotIs slot { current := Rc.handle, generation := g } →
      K.lastIs last (some v) →
      x.same Ra.value = true → y.same Rb.value = true → v.same Rc.value = true →
      Runs D K (what.expr a b) s next
        { handle := forEach slot (.join [Ra.handle, Rb.handle])
          value := v
          owned := Ra.owned + (Rb.owned + ({.slot slot} + Rc.owned + ({.row row} + {.last last})))
          leaves := Ra.leaves ++ (Rb.leaves ++ Rc.leaves) }
  | within {a b : Expr} {s : Scope} {next : Sink π} {slot : Ref .slot} {g : Nat} {Ra Rb : Running π} :
      Runs D K a s (.switch slot (.body b s next)) Ra → Runs D K b (s.nest Ra.value) next Rb →
      K.slotIs slot { current := Rb.handle, generation := g } →
      Runs D K (.within a b) s next
        { handle := forEach slot Ra.handle
          value := Rb.value
          owned := Ra.owned + ({.slot slot} + Rb.owned)
          leaves := Ra.leaves ++ Rb.leaves }
  | choice {p a b : Expr} {s : Scope} {next : Sink π} {slot : Ref .slot} {last : Ref .last} {g : Nat} {Rp Rb : Running π} :
      Runs D K p s (conditionSink a b s slot last next) Rp → Runs D K (if Rp.value.truthy then a else b) s next Rb →
      K.slotIs slot { current := Rb.handle, generation := g } → K.lastIs last (some (.bool Rp.value.truthy)) →
      Runs D K (.choice p a b) s next
        { handle := forEach slot Rp.handle
          value := Rb.value
          owned := Rp.owned + ({.slot slot} + Rb.owned + {.last last})
          leaves := Rp.leaves ++ Rb.leaves }
  | operator {f : OperatorFunction} {xs : List Expr} {s : Scope} {next : Sink π} {row : Ref .args} {last : Ref .last}
      {c : Contents} {vs : List Value} {v : Value} {Rs : List (Running π)} :
      Rs.length = xs.length →
      (∀ (i : Nat) (x : Expr) (R : Running π), xs[i]? = some x → Rs[i]? = some R →
        Runs D K x s (.argument row i (.compute f (.distinct last next))) R) →
      List.Forall₂ (fun v R => v.same R.value = true) vs Rs → K.rowIs row { values := vs, ready := true } →
      K.lastIs last (some v) → v.same (f c vs) = true →
      Runs D K (.operator f xs) s next
        { handle := .join (Rs.map (·.handle))
          value := v
          owned := (Rs.map (·.owned)).sum + ({.row row} + {.last last})
          leaves := (Rs.map (·.leaves)).flatten }

/-! ## The listeners of an observer -/

section

variable {D : Place → Prop} {K K' : Layout π} {x : Expr} {s : Scope} {next : Sink π} {R : Running π}

/-- What a listener is registered for. -/
def Leaf.post (l : Leaf π) : Post π := l.place.post l.sink

theorem mem_sum_owned {Rs : List (Running π)} {p : Piece} :
    p ∈ (Rs.map (·.owned)).sum ↔ ∃ R ∈ Rs, p ∈ R.owned := by
  induction Rs with
  | nil => simp
  | cons R Rs ih => simp [ih]

theorem owned_le_sum {Rs : List (Running π)} {R : Running π} (h : R ∈ Rs) : R.owned ≤ (Rs.map (·.owned)).sum := by
  induction Rs with
  | nil => cases h
  | cons R' Rs ih =>
    simp only [List.map_cons, List.sum_cons]
    rcases List.mem_cons.1 h with rfl | h
    · exact Multiset.le_add_right _ _
    · exact (ih h).trans (Multiset.le_add_left _ _)

theorem mem_flatten_leaves {Rs : List (Running π)} {l : Leaf π} :
    l ∈ (Rs.map (·.leaves)).flatten ↔ ∃ R ∈ Rs, l ∈ R.leaves := by
  simp only [List.mem_flatten, List.mem_map]
  exact ⟨fun ⟨_, ⟨R, hR, he⟩, hl⟩ => ⟨R, hR, he ▸ hl⟩, fun ⟨R, hR, hl⟩ => ⟨_, ⟨R, hR, rfl⟩, hl⟩⟩

/-- A listener watches a place that may be watched, is registered for it, and is owned. -/
structure Leaf.Placed (D : Place → Prop) (K : Layout π) (G : Multiset Piece) (l : Leaf π) : Prop where
  place : D l.place
  holds : K.Holds l.id l.post
  owned : .listener l.id ∈ G

theorem Leaf.Placed.mono {G G' : Multiset Piece} {l : Leaf π} (h : l.Placed D K G) (hG : ∀ p ∈ G, p ∈ G') :
    l.Placed D K G' :=
  ⟨h.place, h.holds, hG _ h.owned⟩

theorem Watches.placed {spot : Spot} (h : Watches D K next spot R) : ∀ l ∈ R.leaves, l.Placed D K R.owned := by
  cases h with
  | constant v => simp
  | place hD hK =>
    intro l hl
    rw [List.mem_singleton.1 hl]
    exact ⟨hD, hK, Multiset.mem_singleton_self _⟩

theorem Runs.placed (h : Runs D K x s next R) : ∀ l ∈ R.leaves, l.Placed D K R.owned := by
  induction h with
  | literal | value | parameters => simp
  | element h | component h => exact h.placed
  | following _ _ hc _ _ _ _ _ _ iha ihb =>
    intro l hl
    simp only [List.mem_append] at hl
    rcases hl with hl | hl | hl
    · exact (iha l hl).mono fun p hp => by simp [hp]
    · exact (ihb l hl).mono fun p hp => by simp [hp]
    · exact (hc.placed l hl).mono fun p hp => by simp [hp]
  | within _ _ _ iha ihb | choice _ _ _ _ iha ihb =>
    intro l hl
    simp only [List.mem_append] at hl
    rcases hl with hl | hl
    · exact (iha l hl).mono fun p hp => by simp [hp]
    · exact (ihb l hl).mono fun p hp => by simp [hp]
  | @operator f xs s next row last c vs v Rs hlen _ _ _ _ _ ih =>
    intro l hl
    obtain ⟨R, hR, hl⟩ := mem_flatten_leaves.1 hl
    obtain ⟨i, hi⟩ := List.mem_iff_getElem?.1 hR
    have hx : i < xs.length := hlen ▸ (List.getElem?_eq_some_iff.1 hi).1
    refine (ih i _ R (List.getElem?_eq_getElem hx) hi l hl).mono fun p hp => ?_
    exact Multiset.mem_add.2 (Or.inl (mem_sum_owned.2 ⟨R, hR, hp⟩))

theorem Watches.leaf_of_owned {spot : Spot} (h : Watches D K next spot R) {id : ListenerId}
    (hid : .listener id ∈ R.owned) : ∃ l ∈ R.leaves, l.id = id := by
  cases h with
  | constant v => simp at hid
  | @place p id' v =>
    have he : id = id' := by simpa using hid
    exact ⟨_, List.mem_singleton_self _, he.symm⟩

/-- Every listener that an observer owns is one of its listeners. -/
theorem Runs.leaf_of_owned (h : Runs D K x s next R) {id : ListenerId} (hid : .listener id ∈ R.owned) :
    ∃ l ∈ R.leaves, l.id = id := by
  induction h with
  | literal | value | parameters => simp at hid
  | element h | component h => exact h.leaf_of_owned hid
  | following _ _ hc _ _ _ _ _ _ iha ihb =>
    simp only [Multiset.mem_add, Multiset.mem_singleton, reduceCtorEq, or_false, false_or] at hid
    rcases hid with hid | hid | hid
    · obtain ⟨l, hl, he⟩ := iha hid
      exact ⟨l, by simp [hl], he⟩
    · obtain ⟨l, hl, he⟩ := ihb hid
      exact ⟨l, by simp [hl], he⟩
    · obtain ⟨l, hl, he⟩ := hc.leaf_of_owned hid
      exact ⟨l, by simp [hl], he⟩
  | within _ _ _ iha ihb | choice _ _ _ _ iha ihb =>
    simp only [Multiset.mem_add, Multiset.mem_singleton, reduceCtorEq, or_false, false_or] at hid
    rcases hid with hid | hid
    · obtain ⟨l, hl, he⟩ := iha hid
      exact ⟨l, by simp [hl], he⟩
    · obtain ⟨l, hl, he⟩ := ihb hid
      exact ⟨l, by simp [hl], he⟩
  | @operator f xs s next row last c vs v Rs hlen _ _ _ _ _ ih =>
    simp only [Multiset.mem_add, Multiset.mem_singleton, reduceCtorEq, or_false] at hid
    obtain ⟨R, hR, hid⟩ := mem_sum_owned.1 hid
    obtain ⟨i, hi⟩ := List.mem_iff_getElem?.1 hR
    have hx : i < xs.length := hlen ▸ (List.getElem?_eq_some_iff.1 hi).1
    obtain ⟨l, hl, he⟩ := ih i _ R (List.getElem?_eq_getElem hx) hi hid
    exact ⟨l, mem_flatten_leaves.2 ⟨R, hR, hl⟩, he⟩

/-! ## Worlds in which an observer runs on -/

/-- The listeners of an observer that are registered in the layout are so in the other, if their containers exist there. -/
def Layout.Sees (K K' : Layout π) (ls : List (Leaf π)) : Prop := ∀ l ∈ ls, K'.Knows l.post → K.Knows l.post

theorem Layout.Sees.of_eq (hl : K'.lists = K.lists) (ho : K'.objects = K.objects) (ls : List (Leaf π)) : K.Sees K' ls :=
  fun _ _ => (Layout.Knows.congr hl ho).1

theorem Watches.same {spot : Spot} (h : Watches D K next spot R) (hs : ∀ p ∈ R.owned, K.Same K' p)
    (hk : K.Sees K' R.leaves) : Watches D K' next spot R := by
  cases h with
  | constant v => exact .constant v
  | place hD hK => exact .place hD (hK.same (hs _ (Multiset.mem_singleton_self _)) (hk _ (List.mem_singleton_self _)))

/-- An observer runs on when its pieces stay as they are. -/
theorem Runs.same (h : Runs D K x s next R) (hs : ∀ p ∈ R.owned, K.Same K' p) (hk : K.Sees K' R.leaves) :
    Runs D K' x s next R := by
  induction h with
  | literal => exact .literal
  | value => exact .value
  | parameters => exact .parameters
  | element h => exact .element (h.same hs hk)
  | component h => exact .component (h.same hs hk)
  | following _ _ hc hrow hslot hlast hx hy hv iha ihb =>
    refine .following (iha (fun p hp => hs p ?_) fun l hl => hk l ?_) (ihb (fun p hp => hs p ?_) fun l hl => hk l ?_)
      (hc.same (fun p hp => hs p ?_) fun l hl => hk l ?_) (hrow.same (hs _ ?_)) (hslot.same (hs _ ?_))
      (hlast.same (hs _ ?_)) hx hy hv
    all_goals simp [*]
  | within _ _ hslot iha ihb =>
    refine .within (iha (fun p hp => hs p ?_) fun l hl => hk l ?_) (ihb (fun p hp => hs p ?_) fun l hl => hk l ?_)
      (hslot.same (hs _ ?_))
    all_goals simp [*]
  | choice _ _ hslot hlast iha ihb =>
    refine .choice (iha (fun p hp => hs p ?_) fun l hl => hk l ?_) (ihb (fun p hp => hs p ?_) fun l hl => hk l ?_)
      (hslot.same (hs _ ?_)) (hlast.same (hs _ ?_))
    all_goals simp [*]
  | operator hlen _ hvs hrow hlast hv ih =>
    refine .operator hlen (fun i x R hx hR => ih i x R hx hR (fun p hp => hs p ?_) fun l hl => hk l ?_) hvs
      (hrow.same (hs _ ?_)) (hlast.same (hs _ ?_)) hv
    · exact Multiset.mem_add.2 (Or.inl (mem_sum_owned.2 ⟨R, List.mem_of_getElem? hR, hp⟩))
    · exact mem_flatten_leaves.2 ⟨R, List.mem_of_getElem? hR, hl⟩
    · simp
    · simp

/-! ## The value of an observer that is up to date -/

theorem Watches.value_same {c : Contents} {spot : Spot} (h : Watches D K next spot R)
    (hl : ∀ l ∈ R.leaves, l.Current c) : R.value.same (spot.read c) = true := by
  cases h with
  | constant v => exact Value.same_refl v
  | place _ _ => exact hl _ (List.mem_singleton_self _)

/-- An observer whose listeners are up to date has handed on what its expression denotes. -/
theorem Runs.denote (h : Runs D K x s next R) (hx : x.Scalar) {c : Contents} (hk : x.ScalarKeys c s)
    (hl : ∀ l ∈ R.leaves, l.Current c) : R.value.same (x.denote c s) = true := by
  induction h with
  | literal | value | parameters => simp [Expr.denote]
  | element h | component h =>
    have := h.value_same hl
    rwa [registrySpot_read] at this
  | @following what a b s next row slot last c₀ g x y v Ra Rb Rc ha hb hc _ _ _ hxa hyb hv iha ihb =>
    have hab : a.Scalar ∧ b.Scalar := by
      cases what <;> cases hx <;> constructor <;> assumption
    have hkab : a.ScalarKeys c s ∧ b.ScalarKeys c s ∧ ∀ o, a.denote c s = .object o → (b.denote c s).isScalar = true := by
      cases what <;> exact hk
    have hden : (what.expr a b).denote c s = what.value c (a.denote c s) (b.denote c s) := by
      cases what <;> rfl
    have hxa' := Value.same_trans hxa (iha hab.1 hkab.1 fun l h => hl l (by simp [h]))
    have hyb' := Value.same_trans hyb (ihb hab.2 hkab.2.1 fun l h => hl l (by simp [h]))
    have hscalar : ∀ o, x = .object o → y.isScalar = true := by
      intro o ho
      subst ho
      rw [Value.isScalar_eq_of_same hyb']
      exact hkab.2.2 o (Value.eq_of_same_object hxa')
    rw [hden, ← what.value_congr c hxa' hyb', ← what.spot_read c₀ c hscalar]
    exact Value.same_trans hv (hc.value_same fun l h => hl l (by simp [h]))
  | @within a b s next slot g Ra Rb ha hb _ iha ihb =>
    obtain ⟨hka, hkb⟩ := hk
    cases hx with
    | within hxa hxb =>
      have hva := iha hxa hka fun l h => hl l (by simp [h])
      have hvb := ihb hxb (hxb.scalarKeys_congr (Value.same_symm hva) hkb) fun l h => hl l (by simp [h])
      exact Value.same_trans hvb (Expr.denote_same hxb c s hva)
  | @choice p a b s next slot last g Rp Rb hp hb _ _ ihp ihb =>
    obtain ⟨hkp, hkb⟩ := hk
    cases hx with
    | choice hxp hxa hxb =>
      have hvp := Value.truthy_eq_of_same (ihp hxp hkp fun l h => hl l (by simp [h]))
      have hlb : ∀ l ∈ Rb.leaves, l.Current c := fun l h => hl l (by simp [h])
      simp only [Expr.denote, ← hvp] at hkb ⊢
      split at hkb
      · rename_i ht
        simp only [ht, if_true] at ihb ⊢
        exact ihb hxa hkb hlb
      · rename_i ht
        simp only [ht] at ihb ⊢
        exact ihb hxb hkb hlb
  | @operator f xs s next row last c₀ vs v Rs hlen _ hvs _ _ hv ih =>
    simp only [Expr.ScalarKeys, Expr.scalarKeysAll_iff] at hk
    cases hx with
    | operator hf hxs =>
      refine Value.same_trans hv (hf _ _ _ _ ?_)
      rw [Expr.denoteAll_eq_map]
      refine List.forall₂_iff_get.2 ⟨by simp [hvs.length_eq, hlen], fun i h₁ h₂ => ?_⟩
      have hR : i < Rs.length := hvs.length_eq ▸ h₁
      have hx' : i < xs.length := hlen ▸ hR
      have := ih i xs[i] Rs[i] (List.getElem?_eq_getElem hx') (List.getElem?_eq_getElem hR) (hxs _ (List.getElem_mem hx'))
        (hk _ (List.getElem_mem hx')) fun l h => hl l (mem_flatten_leaves.2 ⟨_, List.getElem_mem hR, h⟩)
      simp only [List.get_eq_getElem, List.getElem_map]
      exact Value.same_trans ((List.forall₂_iff_get.1 hvs).2 i h₁ hR) this

end

end LiveBindings
