import LiveBindings.Observe.Fire
import LiveBindings.Proofs.Running

/-!
# What sinks promise

A sink that is handed a value may set anything in motion: it may start and stop other observers, and it may change what
containers hold. What an observer relies on is a contract (`Handles`). `J F L o w` describes what is behind the sink when `o`
was handed to it last: the pieces `F` that it owns and the listeners `L` behind it. Handing over a value turns this into the
same for that value, leaves the places `D` that the observer watches as they are, and leaves no listener behind the sink that
is newly out of date (`Renews`).
-/

namespace LiveBindings

variable {π σ : Type}

/-- A listener for a place among `D`. -/
def Place.posts (D : Place → Prop) (q : Post π) : Prop := ∃ p next, D p ∧ q = p.post next

/-- The pieces `G` became `G'`, while the values at the places `D` stayed as they were. -/
structure Moves (D : Place → Prop) (G G' : Multiset Piece) (w w' : World (Callback π) (Env π σ)) : Prop where
  layout : Reshapes G G' w.layout w'.layout
  reads : ∀ p, D p → p.read w'.contents = p.read w.contents
  depth : w'.depth = w.depth
  config : w'.config = w.config

/-- Every listener now is up to date, or was there before and its place was not changed. -/
def Renews (c c' : Contents) (L L' : List (Leaf π)) : Prop :=
  ∀ l ∈ L', l.Current c' ∨ (l ∈ L ∧ l.place.read c' = l.place.read c)

section

variable {N : Post π → Prop} {D : Place → Prop} {F G G' G'' : Multiset Piece} {w w' w'' : World (Callback π) (Env π σ)}

theorem World.Fits.of_le (h : w.Fits G) (hF : F ≤ G) : w.Fits F :=
  ⟨fun p hp => h.has p (Multiset.mem_of_le hF hp), Multiset.nodup_of_le hF h.nodup, h.tidy⟩

theorem World.Fits.part (h : w.Fits G) (hG : G = G' + F) : w.Fits G' :=
  (hG ▸ h).left

theorem World.Fits.comm (h : w.Fits (F + G)) : w.Fits (G + F) := by
  rwa [add_comm]

theorem Touches.moves (h : Touches N G G' w w') : Moves D G G' w w' :=
  ⟨h.layout, fun p _ => by rw [h.contents], h.depth, h.config⟩

/-- The same with the pieces written in another way. -/
theorem Touches.cast {G₁ G₁' : Multiset Piece} (h : Touches N G G' w w') (hG : G = G₁) (hG' : G' = G₁') :
    Touches N G₁ G₁' w w' :=
  hG ▸ hG' ▸ h

theorem Touches.same (h : Touches N G G' w w') (hw : w.Fits (F + G)) {p : Piece} (hp : p ∈ F) :
    w.layout.Same w'.layout p :=
  h.layout.same p (hw.has p (Multiset.mem_add.2 (Or.inl hp))) (hw.notMem hp)

namespace Moves

theorem refl (G : Multiset Piece) (w : World (Callback π) (Env π σ)) : Moves D G G w w :=
  ⟨Reshapes.refl G _, fun _ _ => rfl, rfl, rfl⟩

theorem trans (h : Moves D G G' w w') (h' : Moves D G' G'' w' w'') : Moves D G G'' w w'' where
  layout := h.layout.trans h'.layout
  reads p hp := (h'.reads p hp).trans (h.reads p hp)
  depth := h'.depth.trans h.depth
  config := h'.config.trans h.config

theorem frame (h : Moves D G G' w w') (hw : w.Fits (F + G)) : Moves D (F + G) (F + G') w w' where
  layout := h.layout.frame (fun p hp => hw.has p (Multiset.mem_add.2 (Or.inl hp))) hw.nodup
  reads := h.reads
  depth := h.depth
  config := h.config

/-- The same with the pieces written in another way. -/
theorem cast {G₁ G₁' : Multiset Piece} (h : Moves D G G' w w') (hG : G = G₁) (hG' : G' = G₁') : Moves D G₁ G₁' w w' :=
  hG ▸ hG' ▸ h

theorem same (h : Moves D G G' w w') (hw : w.Fits (F + G)) {p : Piece} (hp : p ∈ F) : w.layout.Same w'.layout p :=
  h.layout.same p (hw.has p (Multiset.mem_add.2 (Or.inl hp))) (hw.notMem hp)

theorem fits (h : Moves D G G' w w') (hw : w.Fits G) : w'.Fits G' :=
  ⟨h.layout.has hw.has, h.layout.nodup hw.nodup, h.layout.tidy hw.tidy⟩

end Moves

end

namespace Renews

variable {c c' c'' : Contents} {L L' L'' : List (Leaf π)}

theorem refl (c : Contents) (L : List (Leaf π)) : Renews c c L L := fun _ hl => Or.inr ⟨hl, rfl⟩

theorem trans (h : Renews c c' L L') (h' : Renews c' c'' L' L'') : Renews c c'' L L'' := by
  intro l hl
  rcases h' l hl with hc | ⟨hl', hr⟩
  · exact Or.inl hc
  · rcases h l hl' with hc | ⟨hl, hr'⟩
    · exact Or.inl (by rwa [Leaf.Current, hr])
    · exact Or.inr ⟨hl, hr.trans hr'⟩

theorem mono {M M' : List (Leaf π)} (h : Renews c c' L L') (hL : ∀ l ∈ L, l ∈ M) (hL' : ∀ l ∈ M', l ∈ L') :
    Renews c c' M M' :=
  fun l hl => (h l (hL' l hl)).imp_right fun ⟨hm, hr⟩ => ⟨hL l hm, hr⟩

/-- Listeners on places that were not changed may be added. -/
theorem prepend {M : List (Leaf π)} (h : Renews c c' L L') (hM : ∀ l ∈ M, l.place.read c' = l.place.read c) :
    Renews c c' (M ++ L) (M ++ L') := by
  intro l hl
  rcases List.mem_append.1 hl with hl | hl
  · exact Or.inr ⟨List.mem_append_left _ hl, hM l hl⟩
  · refine (h l hl).imp_right ?_
    rintro ⟨hm, hr⟩
    exact ⟨List.mem_append_right _ hm, hr⟩

/-- Listeners that all were up to date all are. -/
theorem current (h : Renews c c' L L') (hL : ∀ l ∈ L, l.Current c) : ∀ l ∈ L', l.Current c' := by
  intro l hl
  rcases h l hl with hc | ⟨hm, hr⟩
  · exact hc
  · rw [Leaf.Current, hr]
    exact hL l hm

end Renews

/-! ## Contracts -/

/-- What is behind something that takes values of the type `α`, by the value that it took last. -/
abbrev Behind (π σ α : Type) := Multiset Piece → List (Leaf π) → Option α → World (Callback π) (Env π σ) → Prop

/-- `J` survives whatever an observer that watches places among `D` does to its own pieces. -/
def Behind.Stable {α : Type} (J : Behind π σ α) (D : Place → Prop) : Prop :=
  ∀ ⦃F L o w G G' w'⦄, J F L o w → w.Fits (F + G) → Touches (Place.posts D) G G' w w' → J F L o w'

/-- What taking a value leaves behind. -/
def Behind.Took {α : Type} (J : Behind π σ α) (D : Place → Prop) (F : Multiset Piece) (L : List (Leaf π)) (a : α)
    (w w' : World (Callback π) (Env π σ)) : Prop :=
  ∃ F' L', J F' L' (some a) w' ∧ Moves D F F' w w' ∧ Renews w.contents w'.contents L L'

/-- With a bound of at least `need` on nested calls, `act` takes every value among `V`. -/
structure Handles {α : Type} (D : Place → Prop) (need : Nat) (act : Nat → α → Live π σ Unit) (V : α → Prop)
    (J : Behind π σ α) : Prop where
  stable : J.Stable D
  run : ∀ {n F L o w a}, need ≤ n → V a → J F L o w → w.Fits F → (act n a).Ends w fun _ w' => J.Took D F L a w w'

/-- A sink takes every value among `V`. -/
abbrev Accepts (H : Host π σ) (D : Place → Prop) (need : Nat) (next : Sink π) (V : Value → Prop) (J : Behind π σ Value) :
    Prop :=
  Handles D need (fun n v => next.emit (engine H n) (H.observer (engine H n)) v) V J

/-- An action takes every row of arguments among `V`. -/
abbrev Reacts (H : Host π σ) (D : Place → Prop) (need : Nat) (action : ArgsAction π) (V : List Value → Prop)
    (J : Behind π σ (List Value)) : Prop :=
  Handles D need (fun n vs => action.react (engine H n) (H.observer (engine H n)) vs) V J

namespace Handles

variable {α : Type} {D : Place → Prop} {need : Nat} {act : Nat → α → Live π σ Unit} {V : α → Prop} {J : Behind π σ α}

theorem mono {need' : Nat} {V' : α → Prop} (h : Handles D need act V J) (hn : need ≤ need') (hV : ∀ a, V' a → V a) :
    Handles D need' act V' J :=
  ⟨h.stable, fun hle ha hJ hw => h.run (Nat.le_trans hn hle) (hV _ ha) hJ hw⟩

end Handles

/-! ## Filters -/

section

variable {H : Host π σ} {D : Place → Prop} {need : Nat} {next : Sink π} {V : Value → Prop} {J : Behind π σ Value}

/-- What is behind a filter: `o₀` is whatever was handed on before the filter was there. -/
def Behind.distinct (J : Behind π σ Value) (last : Ref .last) : Behind π σ Value
  | F, L, none, w => ∃ F₀ o₀, F = {.last last} + F₀ ∧ w.layout.lastIs last none ∧ J F₀ L o₀ w
  | F, L, some v, w =>
    ∃ F₀ u, F = {.last last} + F₀ ∧ w.layout.lastIs last (some u) ∧ u.same v = true ∧ J F₀ L (some u) w

theorem Behind.Stable.distinct (h : J.Stable D) (last : Ref .last) : (J.distinct last).Stable D := by
  intro F L o w G G' w' hJ hw ht
  have split : ∀ {F₀}, F = {.last last} + F₀ →
      w.Fits (F₀ + G) ∧ w.layout.Same w'.layout (.last last) := by
    rintro F₀ rfl
    rw [add_assoc] at hw
    refine ⟨hw.right, ht.same (F := {.last last}) (hw.of_le ?_) (Multiset.mem_singleton_self _)⟩
    exact add_le_add_right (Multiset.le_add_left _ _) _
  cases o with
  | none =>
    obtain ⟨F₀, o₀, hF, hl, hJ⟩ := hJ
    obtain ⟨hw', hs⟩ := split hF
    exact ⟨F₀, o₀, hF, hl.same hs, h hJ hw' ht⟩
  | some v =>
    obtain ⟨F₀, u, hF, hl, hu, hJ⟩ := hJ
    obtain ⟨hw', hs⟩ := split hF
    exact ⟨F₀, u, hF, hl.same hs, hu, h hJ hw' ht⟩

theorem Accepts.distinct (h : Accepts H D need next V J) (last : Ref .last) :
    Accepts H D need (.distinct last next) V (J.distinct last) := by
  refine ⟨h.stable.distinct last, fun {n F L o w v} hn hv hJ hw => ?_⟩
  -- A value that gets through, whatever was handed on before.
  have through : ∀ {F₀ u o₀}, F = {.last last} + F₀ → w.layout.lastIs last u → J F₀ L o₀ w →
      (do setLast last v; next.emit (engine H n) (H.observer (engine H n)) v : Live π σ Unit).Ends w
        fun _ w' => (J.distinct last).Took D F L v w w' := by
    rintro F₀ u o₀ rfl hl hJ
    rw [Run.ends_bind]
    refine setLast_ends (N := Place.posts D) hl fun w₁ t₁ hl₁ => ?_
    have hw₁ : w₁.Fits ({.last last} + F₀) := hw.comm.touch (t₁.frame hw.comm) |>.comm
    refine (h.run hn hv (h.stable hJ hw.comm t₁) hw₁.right).imp ?_
    rintro _ w₂ ⟨F', L', hJ', hm, hr⟩
    refine ⟨{.last last} + F', L', ⟨F', v, rfl, hl₁.same (hm.same hw₁ (Multiset.mem_singleton_self _)), ?_, hJ'⟩, ?_, ?_⟩
    · exact Value.same_refl v
    · exact ((t₁.frame hw.comm).moves.cast (add_comm _ _) (add_comm _ _)).trans (hm.frame hw₁)
    · rw [← t₁.contents]
      exact hr
  simp only [Sink.emit, Run.ends_bind, ends_cells]
  cases o with
  | none =>
    obtain ⟨F₀, o₀, hF, hl, hJ⟩ := hJ
    simpa [hl.eq] using through hF hl hJ
  | some v' =>
    obtain ⟨F₀, u, hF, hl, hu, hJ⟩ := hJ
    by_cases huv : u.same v = true
    · simp only [hl.eq, Option.any_some, huv, if_true, Run.ends_pure]
      exact ⟨F, L, ⟨F₀, u, hF, hl, huv, hJ⟩, Moves.refl _ _, Renews.refl _ _⟩
    · simpa [hl.eq, huv] using through hF hl hJ

/-- What is behind something that hands on truth values. -/
def Behind.truth (J : Behind π σ Value) : Behind π σ Value := fun F L o w => J F L (o.map fun v => .bool v.truthy) w

theorem Accepts.truth (h : Accepts H D need next V J) (hV : ∀ b, V (.bool b)) :
    Accepts H D need (.truth next) (fun _ => True) J.truth :=
  ⟨fun _ _ _ _ _ _ _ hJ hw ht => h.stable hJ hw ht, fun hn _ hJ hw => h.run hn (hV _) hJ hw⟩

end

/-! ## Rows of arguments -/

section

variable {H : Host π σ} {D : Place → Prop} {need : Nat} {action : ArgsAction π} {V : List Value → Prop}
  {J : Behind π σ (List Value)}

/-- What is behind one argument of a row; the other arguments are those of `ws`. Nothing is reacted to before the row is
ready. -/
def Behind.argument (J : Behind π σ (List Value)) (row : Ref .args) (i : Nat) (ws : List Value) (ready : Bool) :
    Behind π σ Value := fun F L o w =>
  ∃ F₀ x o', F = {.row row} + F₀ ∧ w.layout.rowIs row { values := ws.set i x, ready } ∧
    (∀ v, o = some v → x.same v = true) ∧ (ready = true → o' = some (ws.set i x)) ∧ J F₀ L o' w

theorem Behind.Stable.argument (h : J.Stable D) (row : Ref .args) (i : Nat) (ws : List Value) (ready : Bool) :
    (J.argument row i ws ready).Stable D := by
  rintro F L o w G G' w' ⟨F₀, x, o', rfl, hrow, hx, ho, hJ⟩ hw ht
  rw [add_assoc] at hw
  refine ⟨F₀, x, o', rfl, hrow.same (ht.same (F := {.row row}) (hw.of_le ?_) (Multiset.mem_singleton_self _)), hx, ho,
    h hJ hw.right ht⟩
  exact add_le_add_right (Multiset.le_add_left _ _) _

theorem Reacts.argument (h : Reacts H D need action V J) (V' : Value → Prop) (row : Ref .args) (i : Nat) (ws : List Value)
    (ready : Bool) (hi : i < ws.length) (hV : ready = true → ∀ v, V' v → V (ws.set i v)) :
    Accepts H D need (.argument row i action) V' (J.argument row i ws ready) := by
  refine ⟨h.stable.argument row i ws ready, ?_⟩
  rintro n F L o w v hn hv ⟨F₀, x, o', rfl, hrow, hx, ho, hJ⟩ hw
  have hget : (ws.set i x).getD i .undefined = x := by simp [List.getD_eq_getElem?_getD, hi]
  simp only [Sink.emit, Run.ends_bind, ends_cells, hrow.eq, hget, List.set_set]
  by_cases hxv : x.same v = true
  · simp only [hxv, if_true, Run.ends_pure]
    exact ⟨_, L, ⟨F₀, x, o', rfl, hrow, fun _ h => by rwa [← Option.some.inj h], ho, hJ⟩, Moves.refl _ _, Renews.refl _ _⟩
  · simp only [hxv, Bool.false_eq_true, if_false, Run.ends_bind]
    refine modifyArgs_ends (N := Place.posts D) hrow fun w₁ t₁ hrow₁ => ?_
    simp only [List.set_set] at hrow₁
    have hw₁ : w₁.Fits ({.row row} + F₀) := hw.comm.touch (t₁.frame hw.comm) |>.comm
    have hm₁ : Moves D ({.row row} + F₀) ({.row row} + F₀) w w₁ :=
      (t₁.frame hw.comm).moves.cast (add_comm _ _) (add_comm _ _)
    have hJ₁ := h.stable hJ hw.comm t₁
    cases ready with
    | false =>
      refine ⟨_, L, ⟨F₀, v, o', rfl, hrow₁, fun _ h => ?_, by simp, hJ₁⟩, hm₁, ?_⟩
      · rw [← Option.some.inj h]
        exact Value.same_refl v
      · rw [t₁.contents]
        exact Renews.refl _ _
    | true =>
      refine (h.run hn (hV rfl v hv) hJ₁ hw₁.right).imp ?_
      rintro _ w₂ ⟨F', L', hJ', hm, hr⟩
      refine ⟨_, L', ⟨F', v, _, rfl, hrow₁.same (hm.same hw₁ (Multiset.mem_singleton_self _)), fun _ h => ?_,
        fun _ => rfl, hJ'⟩, hm₁.trans (hm.frame hw₁), ?_⟩
      · rw [← Option.some.inj h]
        exact Value.same_refl v
      · rw [← t₁.contents]
        exact hr

/-- What is behind a function of arguments; its results may have been computed on earlier contents. -/
def Behind.compute (J : Behind π σ Value) (f : OperatorFunction) : Behind π σ (List Value) := fun F L o w =>
  ∃ u, J F L u w ∧ ∀ vs, o = some vs → ∃ c, u = some (f c vs)

theorem Accepts.compute {next : Sink π} {V : Value → Prop} {J : Behind π σ Value} (h : Accepts H D need next V J)
    (f : OperatorFunction) (hV : ∀ v, V v) :
    Reacts H D need (.compute f next) (fun _ => True) (J.compute f) := by
  refine ⟨fun F L o w G G' w' ⟨u, hJ, hu⟩ hw ht => ⟨u, h.stable hJ hw ht, hu⟩, ?_⟩
  rintro n F L o w vs hn - ⟨u, hJ, -⟩ hw
  simp only [ArgsAction.react, Run.ends_bind, ends_contents]
  refine (h.run hn (hV _) hJ hw).imp ?_
  rintro _ w' ⟨F', L', hJ', hm, hr⟩
  refine ⟨F', L', ⟨_, hJ', fun vs' h' => ?_⟩, hm, hr⟩
  exact ⟨w.contents, by rw [Option.some.inj h']⟩

end

/-! ## Slots -/

section

variable {H : Host π σ} {D : Place → Prop}

/-- What an observer of a certain shape looks at is owned by it, and stopping it takes that down. -/
structure Stops (H : Host π σ) (cost : Nat) (Shape : Layout π → Running π → Prop) : Prop where
  same : ∀ {K K' R}, Shape K R → (∀ p ∈ R.owned, K.Same K' p) → K.Sees K' R.leaves → Shape K' R
  stop : ∀ {N n R} {w : World (Callback π) (Env π σ)}, cost ≤ n → Shape w.layout R → w.Fits R.owned →
    (R.handle.run H (engine H n)).Ends w fun _ w' => Touches N R.owned 0 w w'

/-- What starting an observer leaves behind: it has handed a value to the sink in front of `J`. -/
def Behind.Started (J : Behind π σ Value) (D : Place → Prop) (Shape : Layout π → Running π → Prop) (F : Multiset Piece)
    (L : List (Leaf π)) (w : World (Callback π) (Env π σ)) (handle : Cancel π) (w' : World (Callback π) (Env π σ)) : Prop :=
  ∃ R F' L', handle = R.handle ∧ Shape w'.layout R ∧ J F' L' (some R.value) w' ∧ Moves D F (R.owned + F') w w' ∧
    Renews w.contents w'.contents L (R.leaves ++ L')

/-- What is behind a slot in which an observer of a shape that depends on the value taken hands its values to a sink. -/
def Behind.slot {α : Type} (J : Behind π σ Value) (s : Ref .slot) (Shape : α → Layout π → Running π → Prop) :
    Behind π σ α
  | F, L, none, w => ∃ F₀ o₀, F = {.slot s} + F₀ ∧ w.layout.slotIs s {} ∧ J F₀ L o₀ w
  | F, L, some a, w =>
    ∃ F₀ L₀ R g, F = {.slot s} + R.owned + F₀ ∧ L = R.leaves ++ L₀ ∧
      w.layout.slotIs s { current := R.handle, generation := g } ∧ Shape a w.layout R ∧ J F₀ L₀ (some R.value) w

variable {α : Type} {J : Behind π σ Value} {s : Ref .slot} {Shape : α → Layout π → Running π → Prop} {cost need : Nat}

theorem Behind.Stable.slot (h : J.Stable D) (hS : ∀ a, Stops H cost (Shape a)) : (J.slot s Shape).Stable D := by
  intro F L o w G G' w' hJ hw ht
  cases o with
  | none =>
    obtain ⟨F₀, o₀, rfl, hs, hJ⟩ := hJ
    rw [add_assoc] at hw
    refine ⟨F₀, o₀, rfl, hs.same (ht.same (F := {.slot s}) (hw.of_le ?_) (Multiset.mem_singleton_self _)),
      h hJ hw.right ht⟩
    exact add_le_add_right (Multiset.le_add_left _ _) _
  | some a =>
    obtain ⟨F₀, L₀, R, g, rfl, rfl, hs, hR, hJ⟩ := hJ
    rw [add_assoc] at hw
    have hsame : ∀ p ∈ ({.slot s} + R.owned : Multiset Piece), w.layout.Same w'.layout p := fun p hp =>
      ht.same (hw.of_le (add_le_add_right (Multiset.le_add_left _ _) _)) hp
    refine ⟨F₀, L₀, R, g, rfl, rfl, hs.same (hsame _ (by simp)), (hS a).same hR (fun p hp => hsame p (by simp [hp])) ?_,
      h hJ hw.right ht⟩
    exact Layout.Sees.of_eq ht.layout.lists ht.layout.objects _

/-- Restarting a slot, whatever runs in it. -/
theorem restart_took (R₀ : Running π) {n : Nat} {start : Live π σ (Cancel π)} {F₀ : Multiset Piece} {L₀ : List (Leaf π)}
    {g : Nat} {w : World (Callback π) (Env π σ)} {a : α} {o₀ : Option Value} (hJ : J.Stable D) (hS : Stops H cost (Shape a))
    (hs : w.layout.slotIs s { current := R₀.handle, generation := g }) (hw : w.Fits ({.slot s} + R₀.owned + F₀))
    (stop : ∀ {w₁}, Touches (Place.posts D) {.slot s} {.slot s} w w₁ →
      ((engine H n).cancel R₀.handle).Ends w₁ fun _ w₂ => Touches (Place.posts D) R₀.owned 0 w₁ w₂)
    (hn : 0 < n) (h₀ : J F₀ L₀ o₀ w)
    (hst : ∀ {w₁}, J F₀ L₀ o₀ w₁ → w₁.Fits F₀ → start.Ends w₁ (J.Started D (Shape a) F₀ L₀ w₁)) :
    (restart (engine H n) s start).Ends w fun _ w' =>
      (J.slot s Shape).Took D ({.slot s} + R₀.owned + F₀) L₀ a w w' := by
  have hsA : w.Fits ({.slot s} + R₀.owned) := hw.left
  have hF₀ : w.Fits (F₀ + ({.slot s} + R₀.owned)) := hw.comm
  simp only [restart, takeCurrent, swapCurrent, Run.ends_bind, ends_cells, hs.eq, Bool.false_eq_true, if_false]
  refine modifySlot_ends (N := Place.posts D) hs fun w₁ t₁ hs₁ => ?_
  refine modifySlot_ends (N := Place.posts D) hs₁ fun w₂ t₂ hs₂ => ?_
  simp only [hs₁.eq, Run.ends_pure]
  replace t₂ := t₁.trans t₂
  have hw₂ : w₂.Fits ({.slot s} + R₀.owned) := (hsA.comm.touch (t₂.frame hsA.comm)).comm
  refine (stop t₂).imp fun _ w₃ t₃ => ?_
  have T : Touches (Place.posts D) ({.slot s} + R₀.owned) {.slot s} w w₃ :=
    ((t₂.frame hsA.comm).cast (add_comm _ _) (add_comm _ _)).trans ((t₃.frame hw₂).cast rfl (add_zero _))
  have hw₃ : w₃.Fits ({.slot s} + F₀) := (hF₀.touch (T.frame hF₀)).comm
  have hs₃ := hs₂.same (t₃.same hw₂ (Multiset.mem_singleton_self _))
  refine (hst (hJ h₀ hF₀ T) hw₃.right).imp ?_
  rintro c w₄ ⟨R, F', L', hc, hR, hJ', hm, hr⟩
  have hs₄ := hs₃.same (hm.same hw₃ (Multiset.mem_singleton_self _))
  have hw₄ : w₄.Fits (R.owned + F' + {.slot s}) := ((hm.frame hw₃).fits hw₃).comm
  simp only [hs₄.eq, Bool.false_or, bne_self_eq_false, Bool.false_eq_true, if_false, Run.ends_bind, ends_cells]
  refine modifySlot_ends (N := Place.posts D) hs₄ fun w₅ t₅ hs₅ => ?_
  obtain ⟨m, rfl⟩ : ∃ m, n = m + 1 := ⟨n - 1, by omega⟩
  simp only [Run.ends_pure, engine, Cancel.run]
  refine ⟨{.slot s} + R.owned + F', R.leaves ++ L', ⟨F', L', R, g + 1, rfl, rfl, ?_, ?_, ?_⟩, ?_, ?_⟩
  · rw [← hc]
    exact hs₅
  · refine hS.same hR (fun p hp => t₅.same hw₄ (by simp [hp])) ?_
    exact Layout.Sees.of_eq t₅.layout.lists t₅.layout.objects _
  · exact hJ hJ' (hw₄.of_le (add_le_add_left (Multiset.le_add_left _ _) _)) t₅
  · have h₁ : Moves D ({.slot s} + R₀.owned + F₀) ({.slot s} + F₀) w w₃ :=
      (T.frame hF₀).moves.cast (add_comm _ _) (add_comm _ _)
    have h₂ : Moves D (R.owned + F' + {.slot s}) ({.slot s} + R.owned + F') w₄ w₅ :=
      (t₅.frame hw₄).moves.cast rfl (by abel)
    exact (h₁.trans ((hm.frame hw₃).cast rfl (add_comm _ _))).trans h₂
  · rw [T.contents] at hr
    rw [t₅.contents]
    exact hr

/-- A slot takes every value for which it can start something. -/
theorem Handles.restart (cost : Nat) {V : α → Prop} {start : Nat → α → Live π σ (Cancel π)} (hJ : J.Stable D)
    (hS : ∀ a, Stops H cost (Shape a)) (hc : cost < need)
    (hst : ∀ {n F L o w a}, need ≤ n → V a → J F L o w → w.Fits F →
      (start n a).Ends w (J.Started D (Shape a) F L w)) :
    Handles D need (fun n a => LiveBindings.restart (engine H n) s (start n a)) V (J.slot s Shape) := by
  refine ⟨hJ.slot hS, fun {n F L o w a} hn ha h hw => ?_⟩
  obtain ⟨m, rfl⟩ : ∃ m, n = m + 1 := ⟨n - 1, by omega⟩
  cases o with
  | none =>
    obtain ⟨F₀, o₀, rfl, hs, h₀⟩ := h
    have key := restart_took { value := .undefined } (n := m + 1) hJ (hS a) hs (by simpa using hw)
      (fun _ => by simpa [engine, Cancel.run] using Touches.refl 0 _) (Nat.succ_pos m) h₀ fun h₁ hw₁ => hst hn ha h₁ hw₁
    simpa using key
  | some a₀ =>
    obtain ⟨F₀, L₀, R₀, g, rfl, rfl, hs, hR₀, h₀⟩ := h
    have key := restart_took R₀ (n := m + 1) hJ (hS a) hs hw (fun {w₁} t₁ => ?_) (Nat.succ_pos m) h₀ fun h₁ hw₁ => hst hn ha h₁ hw₁
    · refine key.imp ?_
      rintro _ w' ⟨F', L', h', hm, hr⟩
      refine ⟨F', L', h', hm, hr.mono (fun l hl => ?_) fun l hl => hl⟩
      exact List.mem_append_right _ hl
    · have hw₁ : w.Fits (R₀.owned + {.slot s}) := hw.left.comm
      refine (hS a₀).stop (by omega) ((hS a₀).same hR₀ (fun p hp => t₁.same hw₁ hp) ?_) (hw₁.touch (t₁.frame hw₁)).left
      exact Layout.Sees.of_eq t₁.layout.lists t₁.layout.objects _

end

end LiveBindings
