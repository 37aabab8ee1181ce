import LiveBindings.Proofs.Stop

/-!
# Starting an observer

An expression that is started in front of a sink hands it a value before the start is over, and from then on runs there
(`Expr.Scalar.starts`). What is behind the sink has taken that value, and nothing that the new observer watches is out of date.
-/

namespace LiveBindings

variable {π σ : Type}

namespace Expr

/-- What an expression may hand on: the value of a constant is known. -/
def Emits : Expr → Scope → Value → Prop
  | .literal u, _, v => u.same v = true
  | .value, s, v => s.value.same v = true
  | .parameters, s, v => s.parameters.same v = true
  | _, _, _ => True

theorem Emits.congr {x : Expr} {s : Scope} {u v : Value} (h : x.Emits s u) (huv : u.same v = true) : x.Emits s v := by
  cases x <;> first | exact Value.same_trans h huv | trivial

mutual

/-- Everything that an expression may watch is among `D`. -/
def Covered (D : Place → Prop) : Expr → Scope → Prop
  | .element name, s => ∀ p, registrySpot s.elements name = .place p → D p
  | .component name, s => ∀ p, registrySpot s.components name = .place p → D p
  | .property a b, s =>
    a.Covered D s ∧ b.Covered D s ∧
      ∀ c x y p, a.Emits s x → b.Emits s y → Followed.property.spot c x y = .place p → D p
  | .membership a b, s =>
    a.Covered D s ∧ b.Covered D s ∧
      ∀ c x y p, a.Emits s x → b.Emits s y → Followed.membership.spot c x y = .place p → D p
  | .within a b, s => a.Covered D s ∧ ∀ v, a.Emits s v → b.Covered D (s.nest v)
  | .choice p a b, s => p.Covered D s ∧ a.Covered D s ∧ b.Covered D s
  | .operator _ xs, s => CoveredAll D xs s
  | _, _ => True

def CoveredAll (D : Place → Prop) : List Expr → Scope → Prop
  | [], _ => True
  | x :: xs, s => x.Covered D s ∧ CoveredAll D xs s

end

theorem coveredAll_iff (D : Place → Prop) (xs : List Expr) (s : Scope) :
    CoveredAll D xs s ↔ ∀ x ∈ xs, x.Covered D s := by
  induction xs with
  | nil => simp [CoveredAll]
  | cons x xs ih => simp [CoveredAll, ih]

/-- Whatever an expression watches is among all places. -/
theorem Scalar.covered {x : Expr} (hx : x.Scalar) (s : Scope) : x.Covered (fun _ => True) s := by
  induction hx generalizing s with
  | literal | value | parameters => trivial
  | element | component => exact fun _ _ => trivial
  | property _ _ iha ihb | membership _ _ iha ihb => exact ⟨iha s, ihb s, fun _ _ _ _ _ _ _ => trivial⟩
  | within _ _ iha ihb => exact ⟨iha s, fun v _ => ihb _⟩
  | choice _ _ _ ihp iha ihb => exact ⟨ihp s, iha s, ihb s⟩
  | operator _ _ ih => exact (coveredAll_iff _ _ _).2 fun x hx => ih x hx s

end Expr

section

variable {H : Host π σ} {D : Place → Prop} {F G G' : Multiset Piece} {w w' : World (Callback π) (Env π σ)}

/-- What an expression that runs has handed on is something that it may hand on. -/
theorem Runs.emits {K : Layout π} {x : Expr} {s : Scope} {next : Sink π} {R : Running π} (h : Runs D K x s next R) :
    x.Emits s R.value := by
  cases h with
  | literal | value | parameters => exact Value.same_refl _
  | @following what => cases what <;> trivial
  | _ => trivial

/-- What happens elsewhere does not change the places that an observer watches. -/
theorem Runs.unread {K : Layout π} {x : Expr} {s : Scope} {next : Sink π} {R : Running π} (h : Runs D K x s next R)
    (hm : Moves D G G' w w') : ∀ l ∈ R.leaves, l.place.read w'.contents = l.place.read w.contents :=
  fun l hl => hm.reads _ (h.placed l hl).place

/-- An observer runs on beside what is going on elsewhere. -/
theorem Runs.after {x : Expr} {s : Scope} {next : Sink π} {R : Running π} (h : Runs D w.layout x s next R)
    (hm : Moves D G G' w w') (hw : w.Fits (R.owned + G)) : Runs D w'.layout x s next R :=
  h.same (fun _ hp => hm.same hw hp) (Layout.Sees.of_eq hm.layout.lists hm.layout.objects _)

/-- New pieces beside others. -/
theorem Touches.more {N : Post π → Prop} (t : Touches N 0 G w w') (hw : w.Fits F) : Touches N F (G + F) w w' :=
  (t.frame (F := F) (by simpa using hw)).cast (add_zero _) (add_comm _ _)

theorem Behind.Stable.more {α : Type} {J : Behind π σ α} {L : List (Leaf π)} {o : Option α} (h : J.Stable D)
    (hJ : J F L o w) (hw : w.Fits F) (t : Touches (Place.posts D) 0 G w w') : J F L o w' :=
  h hJ (by simpa using hw) t

variable {need n : Nat} {next : Sink π} {V : Value → Prop} {J : Behind π σ Value} {L : List (Leaf π)} {o : Option Value}

/-- Handing on a constant. -/
theorem constant_started (Shape : Layout π → Running π → Prop) {v : Value} (h : Accepts H D need next V J) (hn : need < n)
    (hv : V v) (hJ : J F L o w) (hw : w.Fits F) (hS : ∀ K, Shape K { value := v }) :
    (constant (engine H n) v next).Ends w (J.Started D Shape F L w) := by
  obtain ⟨m, rfl⟩ : ∃ m, n = m + 1 := ⟨n - 1, by omega⟩
  simp only [constant, Run.ends_bind, Run.ends_pure, engine]
  refine (h.run (by omega) hv hJ hw).imp ?_
  rintro _ w' ⟨F', L', hJ', hm, hr⟩
  exact ⟨{ value := v }, F', L', rfl, hS _, hJ', hm.cast rfl (zero_add _).symm, hr⟩

/-- Following a spot. -/
theorem Spot.follow_started {spot : Spot} (h : Accepts H D need next V J) (hn : need < n)
    (hD : ∀ p, spot = .place p → D p) (hV : V (spot.read w.contents)) (hJ : J F L o w) (hw : w.Fits F) :
    (spot.follow (engine H n) next).Ends w (J.Started D (fun K R => Watches D K next spot R) F L w) := by
  cases spot with
  | constant v => exact constant_started _ h hn hV hJ hw fun _ => .constant v
  | place p =>
    have hp := hD p rfl
    obtain ⟨m, rfl⟩ : ∃ m, n = m + 1 := ⟨n - 1, by omega⟩
    refine Place.watch_ends (N := Place.posts D) ⟨p, next, hp, rfl⟩ ?_
    refine (h.run (by omega) hV hJ hw).imp ?_
    rintro _ w₁ ⟨F', L', hJ', hm, hr⟩
    have hw₁ := hm.fits hw
    refine ⟨hw₁.tidy, fun id w₂ _ t hK => ?_⟩
    refine ⟨_, F', L', rfl, .place (v := p.read w.contents) hp hK, h.stable.more hJ' hw₁ t, hm.trans (t.more hw₁).moves, ?_⟩
    rw [t.contents]
    intro l hl
    rcases List.mem_append.1 hl with hl | hl
    · rw [List.mem_singleton.1 hl, Leaf.Current]
      simp only [hm.reads p hp]
      exact Or.inl (Value.same_refl _)
    · exact hr l hl

theorem Watches.stopping_found {what : Followed} {x y : Value} :
    LiveBindings.Stops H 0 fun K R => ∃ c, Watches D K next (what.spot c x y) R where
  same := fun ⟨c, h⟩ hs hk => ⟨c, h.same hs hk⟩
  stop hn := fun ⟨_, h⟩ hw => (Watches.stopping next _).stop hn h hw

/-- What is behind a container and a key that are followed in a slot. -/
def Behind.follow (J : Behind π σ Value) (D : Place → Prop) (next : Sink π) (slot : Ref .slot) (what : Followed) :
    Behind π σ (List Value) :=
  J.slot slot fun vs K R => ∃ c, Watches D K next (what.spot c (vs.getD 0 .undefined) (vs.getD 1 .undefined)) R

/-- By what is given, only places among `D` are found, and what is found there is taken. -/
def Followed.Finds (what : Followed) (D : Place → Prop) (J : Behind π σ Value) (V : Value → Prop) (x y : Value) : Prop :=
  (∀ c p, what.spot c x y = .place p → D p) ∧
    ∀ (c : Contents) F L o (w : World (Callback π) (Env π σ)), J F L o w → V ((what.spot c x y).read w.contents)

theorem Followed.Finds.distinct {what : Followed} {x y : Value} (h : what.Finds D J V x y) (last : Ref .last) :
    what.Finds D (J.distinct last) V x y := by
  refine ⟨h.1, fun c F L o w hJ => ?_⟩
  cases o with
  | none =>
    obtain ⟨F₀, o₀, -, -, hJ⟩ := hJ
    exact h.2 c F₀ L o₀ w hJ
  | some v =>
    obtain ⟨F₀, u, -, -, -, hJ⟩ := hJ
    exact h.2 c F₀ L (some u) w hJ

/-- What follows a container under a key, in a slot, takes every row by which it finds a place among `D`. -/
theorem Accepts.follow (h : Accepts H D need next V J) (slot : Ref .slot) (what : Followed) :
    Reacts H D (need + 1) (.follow slot what next)
      (fun vs => what.Finds D J V (vs.getD 0 .undefined) (vs.getD 1 .undefined)) (J.follow D next slot what) := by
  refine Handles.restart 0 h.stable (fun _ => Watches.stopping_found) (by omega) ?_
  intro n F L o w vs hn hD hJ hw
  refine follow_ends.2 ((Spot.follow_started h (by omega) (hD.1 _) (hD.2 _ F L o w hJ) hJ hw).imp fun c' w' => ?_)
  exact fun ⟨R, F', L', hc, hR, hJ', hm, hr⟩ => ⟨R, F', L', hc, ⟨_, hR⟩, hJ', hm, hr⟩

/-- An expression can be started in front of every sink that takes what it may hand on. -/
def Expr.Starts (H : Host π σ) (D : Place → Prop) (x : Expr) (s : Scope) : Prop :=
  ∀ {next : Sink π} {V : Value → Prop} {J : Behind π σ Value} {need n F L o w}, Accepts H D need next V J →
    (∀ v, x.Emits s v → V v) → need + 2 * x.size ≤ n → J F L o w → w.Fits F →
      (x.start (engine H n) next s).Ends w (J.Started D (fun K R => Runs D K x s next R) F L w)

/-- Following a container under a key. -/
theorem startFollowing_started (what : Followed) {a b : Expr} {s : Scope} (ha : a.Starts H D s) (hb : b.Starts H D s)
    (hfinds : ∀ x y, a.Emits s x → b.Emits s y → what.Finds D J V x y) (h : Accepts H D need next V J)
    (hn : need + 2 * (a.size + b.size + 1) ≤ n) (hJ : J F L o w) (hw : w.Fits F) :
    (startFollowing (engine H n) what (a.start (engine H n) · s) (b.start (engine H n) · s) next).Ends w
      (J.Started D (fun K R => Runs D K (what.expr a b) s next R) F L w) := by
  obtain ⟨m, rfl⟩ : ∃ m, n = m + 1 := ⟨n - 1, by omega⟩
  simp only [startFollowing, distinct, startTwo, settle, Run.ends_bind, Run.ends_pure]
  -- The cells, and what is behind each.
  refine newLast_ends (N := Place.posts D) fun last w₁ _ t₁ hlast => ?_
  have hw₁ := hw.touch (t₁.more hw)
  have hJ₁ : (J.distinct last) ({.last last} + F) L none w₁ := ⟨F, o, rfl, hlast, h.stable.more hJ hw t₁⟩
  have hd := h.distinct last
  refine newSlot_ends (N := Place.posts D) fun slot w₂ _ t₂ hslot => ?_
  have hw₂ := hw₁.touch (t₂.more hw₁)
  have hf := hd.follow slot what
  have hJ₂ : (J.distinct last).follow D (.distinct last next) slot what _ L none w₂ := ⟨_, none, rfl, hslot, hd.stable.more hJ₁ hw₁ t₂⟩
  refine newArgs_ends (N := Place.posts D) fun row w₃ _ t₃ hrow => ?_
  have hw₃ := hw₂.touch (t₃.more hw₂)
  have hm₃ : Moves D F _ w w₃ := ((t₁.more hw).trans ((t₂.more hw₁).trans (t₃.more hw₂))).moves
  have hJ₃ : Behind.argument _ row 0 [.undefined, .undefined] false _ L none w₃ :=
    ⟨_, .undefined, none, rfl, hrow, by simp, by simp, hf.stable.more hJ₂ hw₂ t₃⟩
  -- The container and the key.
  have haccA := hf.argument (a.Emits s) row 0 [.undefined, .undefined] false (by simp) (by simp)
  refine (ha haccA (fun v hv => hv) (by omega) hJ₃ hw₃).imp fun _ w₄ h₄ => ?_
  obtain ⟨Ra, -, L₄, rfl, hRa, ⟨F₀, x, oa, rfl, hrow₄, hx, -, hJ₄⟩, hm₄, hr₄⟩ := h₄
  have hw₄ := hm₄.fits hw₃
  have haccB := hf.argument (b.Emits s) row 1 [x, .undefined] false (by simp) (by simp)
  have hJ₄' : Behind.argument _ row 1 [x, .undefined] false _ L₄ none w₄ :=
    ⟨F₀, .undefined, oa, rfl, hrow₄, by simp, by simp, hJ₄⟩
  refine (hb haccB (fun v hv => hv) (by omega) hJ₄' hw₄.right).imp fun _ w₅ h₅ => ?_
  obtain ⟨Rb, -, L₅, rfl, hRb, ⟨F₁, y, ob, rfl, hrow₅, hy, -, hJ₅⟩, hm₅, hr₅⟩ := h₅
  have hw₅ := (hm₅.frame hw₄).fits hw₄
  -- Both are there, and the place is followed.
  refine modifyArgs_ends (N := Place.posts D) hrow₅ fun w₆ t₆ hrow₆ => ?_
  have hF₁ : w₅.Fits (F₁ + {.row row}) := hw₅.right.right.comm
  have hw₆ := hF₁.touch (t₆.frame hF₁)
  simp only [ends_cells, hrow₆.eq]
  have hxa : a.Emits s x := hRa.emits.congr (Value.same_symm (hx _ rfl))
  have hyb : b.Emits s y := hRb.emits.congr (Value.same_symm (hy _ rfl))
  refine (hf.run (a := [x, y]) (by omega) ((hfinds x y hxa hyb).distinct last) (hf.stable hJ₅ hF₁ t₆) hw₆.left).imp fun _ w₇ h₇ => ?_
  obtain ⟨-, -, ⟨-, L₇, Rc, g, rfl, rfl, hslot₇, ⟨c, hRc⟩, ⟨F₂, u, rfl, hlast₇, hu, hJ₇⟩⟩, hm₇, hr₇⟩ := h₇
  have hm₆₇ := (t₆.frame hF₁).moves.trans ((hm₇.frame hw₆.comm).cast (add_comm _ _) rfl)
  have hm₅₇ := hm₆₇.cast (add_comm _ _) rfl
  have hm₄₇ := hm₅.trans (hm₅₇.frame hw₅.right)
  refine ⟨_, F₂, L₇, rfl, .following (hRa.after hm₄₇ hw₄) (hRb.after hm₅₇ hw₅.right) hRc
    (hrow₆.same (hm₇.same hw₆.comm (Multiset.mem_singleton_self _))) hslot₇ hlast₇ (hx _ rfl) (hy _ rfl) hu, hJ₇, ?_, ?_⟩
  · exact (hm₃.trans (hm₄.trans (hm₄₇.frame hw₄))).cast rfl (by simp only; abel)
  · have hc₃ : w₃.contents = w.contents := t₃.contents.trans (t₂.contents.trans t₁.contents)
    have hr₄₅ := hr₅.prepend (hRa.unread hm₅)
    have hr₅₇ : Renews w₅.contents w₇.contents (Ra.leaves ++ (Rb.leaves ++ L₅))
        (Ra.leaves ++ (Rb.leaves ++ (Rc.leaves ++ L₇))) :=
      ((t₆.contents ▸ hr₇).prepend (hRb.unread hm₅₇)).prepend (hRa.unread hm₅₇)
    rw [hc₃] at hr₄
    exact (hr₄.trans (hr₄₅.trans hr₅₇)).mono (fun l hl => hl) fun l hl => by simpa [or_assoc] using hl

/-- What starts an expression with a value in scope, in a slot, takes every value for which it can be started. -/
theorem Accepts.body (V' : Value → Prop) {b : Expr} {s : Scope} (h : Accepts H D need next V J) (hV : ∀ v, V v)
    (hb : ∀ v, V' v → b.Starts H D (s.nest v)) (slot : Ref .slot) :
    Accepts H D (need + 2 * b.size + 1) (.switch slot (.body b s next)) V'
      (J.slot slot fun v K R => Runs D K b (s.nest v) next R) := by
  refine Handles.restart b.size h.stable (fun v => Runs.stopping b (s.nest v) next) (by omega) ?_
  intro n F L o w v hn hv hJ hw
  obtain ⟨m, rfl⟩ : ∃ m, n = m + 1 := ⟨n - 1, by omega⟩
  exact hb v hv h (fun u _ => hV u) (by omega) hJ hw

/-- What starts one of two branches, in a slot, takes every value. -/
theorem Accepts.either {a b : Expr} {s : Scope} (h : Accepts H D need next V J) (hV : ∀ v, V v) (ha : a.Starts H D s)
    (hb : b.Starts H D s) (slot : Ref .slot) :
    Accepts H D (need + 2 * (a.size + b.size) + 1) (.switch slot (.either a b s next)) (fun _ => True)
      (J.slot slot fun v K R => Runs D K (if v.truthy then a else b) s next R) := by
  refine Handles.restart (a.size + b.size) h.stable (fun v => ?_) (by omega) ?_
  · have hS := Runs.stopping (H := H) (D := D) (if v.truthy then a else b) s next
    refine ⟨hS.same, fun hn => hS.stop (Nat.le_trans ?_ hn)⟩
    split <;> omega
  · intro n F L o w v hn _ hJ hw
    obtain ⟨m, rfl⟩ : ∃ m, n = m + 1 := ⟨n - 1, by omega⟩
    simp only [Branch.start, engine]
    by_cases hv : v.truthy = true
    · simp only [hv, if_true]
      exact ha h (fun u _ => hV u) (by omega) hJ hw
    · simp only [hv]
      exact hb h (fun u _ => hV u) (by omega) hJ hw

/-- A value that is the same as a truth value is that truth value. -/
theorem Value.eq_of_same_bool {b : Bool} {u : Value} (h : u.same (.bool b) = true) : u = .bool b := by
  cases u <;> simp_all [Value.same]

/-- Starting the arguments of a row that is not ready yet, those before them being there. -/
theorem startArgs_ends (before : List Value) {action : ArgsAction π} {Vr : List Value → Prop} {JR : Behind π σ (List Value)} {xs : List Expr}
    {s : Scope} {row : Ref .args} (h : Reacts H D need action Vr JR) (hxs : ∀ x ∈ xs, x.Starts H D s)
    (hn : need + 2 * Expr.sizeAll xs ≤ n) {o : Option (List Value)}
    (hrow : w.layout.rowIs row { values := before ++ List.replicate xs.length .undefined })
    (hJ : JR F L o w) (hw : w.Fits ({.row row} + F)) :
    (Expr.startArgs (engine H n) row action s before.length xs).Ends w fun handles w' =>
      ∃ Rs vs F' L' o', handles = Rs.map (·.handle) ∧ Rs.length = xs.length ∧
        (∀ (i : Nat) (x : Expr) (R : Running π), xs[i]? = some x → Rs[i]? = some R →
          Runs D w'.layout x s (.argument row (before.length + i) action) R) ∧
        List.Forall₂ (fun v R => v.same R.value = true) vs Rs ∧
        w'.layout.rowIs row { values := before ++ vs } ∧ JR F' L' o' w' ∧
        Moves D ({.row row} + F) ((Rs.map (·.owned)).sum + ({.row row} + F')) w w' ∧
        Renews w.contents w'.contents L ((Rs.map (·.leaves)).flatten ++ L') := by
  induction xs generalizing before F L o w with
  | nil =>
    exact ⟨[], [], F, L, o, rfl, rfl, by simp, .nil, hrow, hJ, by simpa using Moves.refl _ _, Renews.refl _ _⟩
  | cons x xs ih =>
    simp only [Expr.sizeAll] at hn
    simp only [Expr.startArgs, Run.ends_bind, Run.ends_pure]
    have hacc := h.argument (x.Emits s) row before.length (before ++ List.replicate (xs.length + 1) .undefined) false (by simp) (by simp)
    have hset : ∀ v, (before ++ List.replicate (xs.length + 1) Value.undefined).set before.length v =
        before ++ [v] ++ List.replicate xs.length .undefined := by
      intro v
      simp [List.replicate_succ]
    have hJ₁ : Behind.argument _ row before.length (before ++ List.replicate (xs.length + 1) .undefined) false _ L none w :=
      ⟨F, .undefined, o, rfl, by simpa [hset, List.replicate_succ] using hrow, by simp, by simp, hJ⟩
    refine (hxs x (by simp) hacc (fun v hv => hv) (by omega) hJ₁ hw).imp fun _ w₁ h₁ => ?_
    obtain ⟨R, -, L₁, rfl, hR, ⟨F₁, v, o₁, rfl, hrow₁, hv, -, hJ₁⟩, hm₁, hr₁⟩ := h₁
    rw [hset] at hrow₁
    have hw₁ := hm₁.fits hw
    have key := ih _ (fun x hx => hxs x (by simp [hx])) (by omega) hrow₁ hJ₁ hw₁.right
    simp only [List.length_append, List.length_singleton] at key
    refine key.imp fun _ w₂ h₂ => ?_
    obtain ⟨Rs, vs, F₂, L₂, o₂, rfl, hlen, hRs, hvs, hrow₂, hJ₂, hm₂, hr₂⟩ := h₂
    refine ⟨R :: Rs, v :: vs, F₂, L₂, o₂, rfl, by simp [hlen], ?_, .cons (hv _ rfl) hvs, by simpa using hrow₂, hJ₂, ?_, ?_⟩
    · intro i x' R' hx' hR'
      cases i with
      | zero =>
        simp only [List.getElem?_cons_zero, Option.some.injEq] at hx' hR'
        subst hx' hR'
        exact hR.after hm₂ hw₁
      | succ i =>
        have := hRs i x' R' (by simpa using hx') (by simpa using hR')
        rwa [Nat.add_assoc, Nat.add_comm 1] at this
    · exact (hm₁.trans (hm₂.frame hw₁)).cast rfl (by simp [add_assoc])
    · exact (hr₁.trans (hr₂.prepend (hR.unread hm₂))).mono (fun l hl => hl) fun l hl => by simpa using hl

/-- Every scalar expression can be started. -/
theorem Expr.Scalar.starts {x : Expr} (hx : x.Scalar) {s : Scope} (hc : x.Covered D s) : x.Starts H D s := by
  induction hx generalizing s with
  | literal v =>
    intro next V J need n F L o w h hV hn hJ hw
    simp only [Expr.size] at hn
    exact constant_started _ h (by omega) (hV v (Value.same_refl v)) hJ hw fun _ => .literal
  | value =>
    intro next V J need n F L o w h hV hn hJ hw
    simp only [Expr.size] at hn
    exact constant_started _ h (by omega) (hV _ (Value.same_refl _)) hJ hw fun _ => .value
  | parameters =>
    intro next V J need n F L o w h hV hn hJ hw
    simp only [Expr.size] at hn
    exact constant_started _ h (by omega) (hV _ (Value.same_refl _)) hJ hw fun _ => .parameters
  | element name =>
    intro next V J need n F L o w h hV hn hJ hw
    simp only [Expr.size] at hn
    have hlt : need < n := by omega
    have key := Spot.follow_started h hlt hc (hV _ trivial) hJ hw
    have heq : Expr.start (engine H n) (.element name) next s = (registrySpot s.elements name).follow (engine H n) next := by
      unfold Expr.start registrySpot
      cases s.elements <;> rfl
    rw [heq]
    refine key.imp ?_
    rintro _ w' ⟨R, F', L', hc, hR, hJ', hm, hr⟩
    exact ⟨R, F', L', hc, .element hR, hJ', hm, hr⟩
  | component name =>
    intro next V J need n F L o w h hV hn hJ hw
    simp only [Expr.size] at hn
    have hlt : need < n := by omega
    have key := Spot.follow_started h hlt hc (hV _ trivial) hJ hw
    have heq : Expr.start (engine H n) (.component name) next s =
        (registrySpot s.components name).follow (engine H n) next := by
      unfold Expr.start registrySpot
      cases s.components <;> rfl
    rw [heq]
    refine key.imp ?_
    rintro _ w' ⟨R, F', L', hc, hR, hJ', hm, hr⟩
    exact ⟨R, F', L', hc, .component hR, hJ', hm, hr⟩
  | property _ _ iha ihb =>
    intro next V J need n F L o w h hV hn hJ hw
    obtain ⟨hca, hcb, hD⟩ := hc
    simp only [Expr.size] at hn
    exact startFollowing_started .property (iha hca) (ihb hcb)
      (fun x y hx hy => ⟨fun c p => hD c x y p hx hy, fun _ _ _ _ _ _ => hV _ trivial⟩) h hn hJ hw
  | membership _ _ iha ihb =>
    intro next V J need n F L o w h hV hn hJ hw
    obtain ⟨hca, hcb, hD⟩ := hc
    simp only [Expr.size] at hn
    exact startFollowing_started .membership (iha hca) (ihb hcb)
      (fun x y hx hy => ⟨fun c p => hD c x y p hx hy, fun _ _ _ _ _ _ => hV _ trivial⟩) h hn hJ hw
  | @within a b _ _ iha ihb =>
    intro next V J need n F L o w h hV hn hJ hw
    obtain ⟨hca, hcb⟩ := hc
    simp only [Expr.size] at hn
    simp only [Expr.start, Run.ends_bind, Run.ends_pure]
    refine newSlot_ends (N := Place.posts D) fun slot w₁ _ t₁ hslot => ?_
    have hw₁ := hw.touch (t₁.more hw)
    have hacc := Accepts.body (a.Emits s) h (fun v => hV v trivial) (fun v hv => ihb (hcb v hv)) slot
    have hJ₁ : (J.slot slot fun v K R => Runs D K b (s.nest v) next R) _ L none w₁ :=
      ⟨F, o, rfl, hslot, h.stable.more hJ hw t₁⟩
    refine (iha hca hacc (fun v hv => hv) (by omega) hJ₁ hw₁).imp fun _ w₂ h₂ => ?_
    obtain ⟨Ra, -, -, rfl, hRa, ⟨F₂, L₂, Rb, g, rfl, rfl, hslot₂, hRb, hJ₂⟩, hm₂, hr₂⟩ := h₂
    refine ⟨_, F₂, L₂, rfl, .within hRa hRb hslot₂, hJ₂, ?_, ?_⟩
    · exact ((t₁.more hw).moves.trans hm₂).cast rfl (by simp only [add_assoc])
    · rw [← t₁.contents]
      simpa using hr₂
  | @choice p a b _ _ _ ihp iha ihb =>
    intro next V J need n F L o w h hV hn hJ hw
    obtain ⟨hcp, hca, hcb⟩ := hc
    simp only [Expr.size] at hn
    simp only [Expr.start, distinct, Run.ends_bind, Run.ends_pure]
    refine newSlot_ends (N := Place.posts D) fun slot w₁ _ t₁ hslot => ?_
    have hw₁ := hw.touch (t₁.more hw)
    have hacc := Accepts.either h (fun v => hV v trivial) (iha hca) (ihb hcb) slot
    have hJ₁ : (J.slot slot fun (v : Value) K R => Runs D K (if v.truthy then a else b) s next R) _ L none w₁ :=
      ⟨F, o, rfl, hslot, h.stable.more hJ hw t₁⟩
    refine newLast_ends (N := Place.posts D) fun last w₂ _ t₂ hlast => ?_
    have hw₂ := hw₁.touch (t₂.more hw₁)
    have hacc₂ := (hacc.distinct last).truth fun _ => trivial
    have hJ₂ : (Behind.distinct _ last).truth _ L none w₂ := ⟨_, none, rfl, hlast, hacc.stable.more hJ₁ hw₁ t₂⟩
    refine (ihp hcp hacc₂ (fun _ _ => trivial) (by omega) hJ₂ hw₂).imp fun _ w₃ h₃ => ?_
    obtain ⟨Rp, -, -, rfl, hRp, ⟨-, u, rfl, hlast₃, hu, ⟨F₃, L₃, Rb, g, rfl, rfl, hslot₃, hRb, hJ₃⟩⟩, hm₃, hr₃⟩ := h₃
    obtain rfl := Value.eq_of_same_bool hu
    refine ⟨_, F₃, L₃, rfl, .choice hRp hRb hslot₃ hlast₃, hJ₃, ?_, ?_⟩
    · refine (((t₁.more hw).trans (t₂.more hw₁)).moves.trans hm₃).cast rfl ?_
      simp only
      abel
    · rw [← t₁.contents, ← t₂.contents]
      simpa using hr₃
  | @operator f xs _ _ ih =>
    intro next V J need n F L o w h hV hn hJ hw
    simp only [Expr.size] at hn
    obtain ⟨m, rfl⟩ : ∃ m, n = m + 1 := ⟨n - 1, by omega⟩
    simp only [Expr.start, distinct, settle, Run.ends_bind, Run.ends_pure]
    refine newLast_ends (N := Place.posts D) fun last w₁ _ t₁ hlast => ?_
    have hw₁ := hw.touch (t₁.more hw)
    have hacc := (h.distinct last).compute f fun v => hV v trivial
    have hJ₁ : (J.distinct last).compute f _ L none w₁ := ⟨none, ⟨F, o, rfl, hlast, h.stable.more hJ hw t₁⟩, by simp⟩
    refine newArgs_ends (N := Place.posts D) fun row w₂ _ t₂ hrow => ?_
    have hw₂ := hw₁.touch (t₂.more hw₁)
    have hxs : ∀ x ∈ xs, x.Starts H D s := fun x hx => ih x hx ((Expr.coveredAll_iff D xs s).1 hc x hx)
    have hargs := startArgs_ends (n := m + 1) [] hacc hxs (by omega) hrow (hacc.stable.more hJ₁ hw₁ t₂) hw₂
    refine hargs.imp fun _ w₃ h₃ => ?_
    obtain ⟨Rs, vs, F₃, L₃, o₃, rfl, hlen, hRs, hvs, hrow₃, hJ₃, hm₃, hr₃⟩ := h₃
    have hw₃ := hm₃.fits hw₂
    refine modifyArgs_ends (N := Place.posts D) hrow₃ fun w₄ t₄ hrow₄ => ?_
    have hF₃ := hw₃.right.comm
    have hw₄ := hF₃.touch (t₄.frame hF₃)
    simp only [List.nil_append] at hrow₄
    simp only [ends_cells, hrow₄.eq]
    refine (hacc.run (by omega) trivial (hacc.stable hJ₃ hF₃ t₄) hw₄.left).imp fun _ w₅ h₅ => ?_
    obtain ⟨F₅, L₅, ⟨u, hJ₅, hu⟩, hm₅, hr₅⟩ := h₅
    obtain ⟨c, rfl⟩ := hu vs rfl
    obtain ⟨F₆, v, rfl, hlast₅, hv, hJ₆⟩ := hJ₅
    have hm₃₅ := ((t₄.frame hF₃).moves.trans ((hm₅.frame hw₄.comm).cast (add_comm _ _) rfl)).cast (add_comm _ _) rfl
    refine ⟨_, F₆, L₅, rfl, .operator hlen (fun i x R hx hR => ?_) hvs
      (hrow₄.same (hm₅.same hw₄.comm (Multiset.mem_singleton_self _))) hlast₅ hv, hJ₆, ?_, ?_⟩
    · have := hRs i x R hx hR
      simp only [List.length_nil, Nat.zero_add] at this
      exact this.after hm₃₅ (hw₃.of_le (add_le_add_left (owned_le_sum (List.mem_of_getElem? hR)) _))
    · refine (((t₁.more hw).trans (t₂.more hw₁)).moves.trans (hm₃.trans (hm₃₅.frame hw₃))).cast rfl ?_
      simp only
      abel
    · rw [t₂.contents, t₁.contents] at hr₃
      refine hr₃.trans ((t₄.contents ▸ hr₅).prepend fun l hl => ?_)
      obtain ⟨R, hR, hl⟩ := mem_flatten_leaves.1 hl
      obtain ⟨i, hi⟩ := List.mem_iff_getElem?.1 hR
      have hx' : i < xs.length := hlen ▸ (List.getElem?_eq_some_iff.1 hi).1
      exact (hRs i _ R (List.getElem?_eq_getElem hx') hi).unread hm₃₅ l hl

end

end LiveBindings
