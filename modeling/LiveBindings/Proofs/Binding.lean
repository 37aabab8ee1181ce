import LiveBindings.Proofs.Sources

/-!
# Bindings of a key

A binding whose target is a single key of an object starts its source in front of the sink that writes there
(`bindPlace_started`): the container and the key are constants, so that the place is found once and for all. Compiling such a
target makes nothing (`compileTarget_ends`).
-/

namespace LiveBindings

variable {π σ : Type}

section

variable {H : Host π σ} {D : Place → Prop} {F : Multiset Piece} {L : List (Leaf π)} {o : Option Value}
  {w : World (Callback π) (Env π σ)} {J : Behind π σ Value} {need cost n : Nat}

/-- The sink that writes a key of an object. -/
abbrev keySink (target : ObjectId) (key : String) : Sink π := .write .assign (.object target) (.text key)

/-- A source can be started for a key of an object. -/
structure Source.Feeds (H : Host π σ) (D : Place → Prop) (source : Source) (target : ObjectId) (key : String)
    (J : Behind π σ Value) (need cost : Nat) (Shape : Layout π → Running π → Prop) : Prop where
  stable : J.Stable D
  stops : Stops H cost Shape
  start : ∀ {n F L o w}, need ≤ n → J F L o w → w.Fits F →
    (source.start (engine H n) (keySink target key)).Ends w (J.Started D Shape F L w)

/-- Cells that nobody needs to know about. -/
theorem Moves.forget {G G' G'' : Multiset Piece} {w' : World (Callback π) (Env π σ)} (h : Moves D G (G'' + G') w w')
    (hw : w.Fits G) (hG : ∀ id, .listener id ∉ G'') : Moves D G G' w w' := by
  have hw' := (h.fits hw).comm
  exact h.trans (((Touches.drop (N := fun _ => True) hG w').frame hw').moves.cast (add_comm _ _) (add_zero _))

/-- A binding of a place has started its source when its definition is over: the container is followed, the key is a constant,
and the source runs in a slot for the two. -/
theorem bindPlace_ends {how : Writing} {container key : Expr} {source : Source} {s : Scope} {y : Value} {V : List Value → Prop}
    {C : Running π → Prop} {Shape : List Value → Layout π → Running π → Prop}
    (hf : ∀ slot, Reacts H D need (.writeTo slot how source) V (J.slot slot Shape)) (hstable : J.Stable D)
    (hcontainer : ∀ {slot : Ref .slot} {row : Ref .args} {F L w},
      (J.slot slot Shape).argument row 0 [.undefined, .undefined] false F L none w → w.Fits F →
        (container.start (engine H n) (.argument row 0 (.writeTo slot how source)) s).Ends w
          (((J.slot slot Shape).argument row 0 [.undefined, .undefined] false).Started D
            (fun K R => Runs D K container s (.argument row 0 (.writeTo slot how source)) R ∧ C R) F L w))
    (hkey : ∀ (E : Engine π σ) next, key.start E next s = constant E y next)
    (hV : ∀ {R x y'}, C R → x.same R.value = true → y'.same y = true → V [x, y']) (hn : need + 1 ≤ n) (hJ : J F L o w) (hw : w.Fits F) :
    (bindPlace (engine H n) how container key source s).Ends w fun _ w' =>
      ∃ row slot g x y' Ra R F' L', Runs D w'.layout container s (.argument row 0 (.writeTo slot how source)) Ra ∧
        C Ra ∧ x.same Ra.value = true ∧ y'.same y = true ∧ w'.layout.rowIs row { values := [x, y'], ready := true } ∧
        w'.layout.slotIs slot { current := R.handle, generation := g } ∧ Shape [x, y'] w'.layout R ∧ J F' L' (some R.value) w' ∧
        Moves D F (Ra.owned + ({.row row} + ({.slot slot} + R.owned + F'))) w w' ∧
        Renews w.contents w'.contents L (Ra.leaves ++ (R.leaves ++ L')) := by
  obtain ⟨m, rfl⟩ : ∃ m, n = m + 1 := ⟨n - 1, by omega⟩
  simp only [bindPlace, startTwo, settle, Run.ends_bind, Run.ends_pure, hkey]
  refine newSlot_ends (N := Place.posts D) fun slot w₁ _ t₁ hslot => ?_
  have hw₁ := hw.touch (t₁.more hw)
  have hf := hf slot
  have hJ₁ : (J.slot slot Shape) ({.slot slot} + F) L none w₁ := ⟨F, o, rfl, hslot, hstable.more hJ hw t₁⟩
  refine newArgs_ends (N := Place.posts D) fun row w₂ _ t₂ hrow => ?_
  have hw₂ := hw₁.touch (t₂.more hw₁)
  -- The container.
  have hJ₂ : (J.slot slot Shape).argument row 0 [.undefined, .undefined] false _ L none w₂ :=
    ⟨_, .undefined, none, rfl, hrow, by simp, by simp, hf.stable.more hJ₁ hw₁ t₂⟩
  refine (hcontainer hJ₂ hw₂).imp fun _ w₃ h₃ => ?_
  obtain ⟨Ra, -, L₃, -, ⟨hRa, hC⟩, ⟨F₀, x, o₃, rfl, hrow₃, hx, -, hJ₃⟩, hm₃, hr₃⟩ := h₃
  have hw₃ := hm₃.fits hw₂
  -- The key.
  have hJ₃' : (J.slot slot Shape).argument row 1 [x, .undefined] false _ L₃ none w₃ :=
    ⟨F₀, .undefined, o₃, rfl, hrow₃, by simp, by simp, hJ₃⟩
  have hsecond := hf.argument (fun _ => True) row 1 [x, .undefined] false (by simp) (by simp)
  refine (constant_started (fun _ R => R = { value := y }) hsecond (by omega) trivial hJ₃' hw₃.right fun _ => rfl).imp fun _ w₄ h₄ => ?_
  obtain ⟨-, -, L₄, -, rfl, ⟨F₁, y', o₄, rfl, hrow₄, hy, -, hJ₄⟩, hm₄, hr₄⟩ := h₄
  simp only [Multiset.zero_add] at hm₄
  have hw₄ := (hm₄.frame hw₃).fits hw₃
  -- Both are there, and the source is started.
  refine modifyArgs_ends (N := Place.posts D) hrow₄ fun w₅ t₅ hrow₅ => ?_
  have hF₁ := hw₄.right.comm
  have hw₅ := hF₁.touch (t₅.frame hF₁)
  simp only [ends_cells, hrow₅.eq]
  refine (hf.run (a := [x, y']) (by omega) (hV hC (hx _ rfl) (hy _ rfl)) (hf.stable hJ₄ hF₁ t₅) hw₅.left).imp fun _ w₆ h₆ => ?_
  obtain ⟨-, -, ⟨F₂, L₂, R, g, rfl, rfl, hslot₆, hR, hJ₆⟩, hm₆, hr₆⟩ := h₆
  have hm₅₆ := ((t₅.frame hF₁).moves.trans ((hm₆.frame hw₅.comm).cast (add_comm _ _) rfl)).cast (add_comm _ _) rfl
  have hm₃₆ := hm₄.trans hm₅₆
  have hm₁₂ : Moves D F ({.row row} + ({.slot slot} + F)) w w₂ := ((t₁.more hw).trans (t₂.more hw₁)).moves
  refine ⟨row, slot, g, x, y', Ra, R, F₂, L₂, hRa.after hm₃₆ hw₃, hC, hx _ rfl, hy _ rfl,
    hrow₅.same (hm₆.same hw₅.comm (Multiset.mem_singleton_self _)), hslot₆, hR, hJ₆,
    hm₁₂.trans (hm₃.trans (hm₃₆.frame hw₃)), ?_⟩
  rw [t₂.contents, t₁.contents] at hr₃
  rw [t₅.contents] at hr₆
  exact hr₃.trans ((hr₄.trans hr₆).prepend (hRa.unread hm₃₆))

/-- A binding of a key has started its source when its definition is over. -/
theorem bindPlace_started {source : Source} {target : ObjectId} {key : String} {s : Scope}
    {Shape : Layout π → Running π → Prop} (h : source.Feeds H D target key J need cost Shape) (hs : s.value = .object target)
    (hc : cost < need) (hn : need + 1 ≤ n) (hJ : J F L o w) (hw : w.Fits F) :
    (bindPlace (engine H n) .assign .value (.literal (.text key)) source s).Ends w fun _ w' =>
      ∃ R F' L', Shape w'.layout R ∧ J F' L' (some R.value) w' ∧ Moves D F (R.owned + F') w w' ∧
        Renews w.contents w'.contents L (R.leaves ++ L') := by
  have hf : ∀ slot, Reacts H D need (.writeTo slot .assign source) (fun vs => vs = [.object target, .text key])
      (J.slot slot fun _ => Shape) := by
    intro slot
    change Handles D need (fun n (vs : List Value) => restart (engine H n) slot
      (source.start (engine H n) (.write .assign (vs.getD 0 .undefined) (vs.getD 1 .undefined)))) _ _
    refine Handles.restart cost h.stable (fun _ => h.stops) hc ?_
    rintro n F L o w vs hn rfl hJ hw
    exact h.start hn hJ hw
  refine (bindPlace_ends (C := fun R => R = { value := .object target }) hf h.stable (fun {slot row F L w} hJ hw => ?_) (fun _ _ => rfl) ?_ hn hJ hw).imp
    fun _ w' h' => ?_
  · have hfirst := (hf slot).argument (fun _ => True) row 0 [.undefined, .undefined] false (by simp) (by simp)
    exact constant_started _ hfirst (by omega) trivial hJ hw fun _ => ⟨.value, by rw [hs]⟩
  · rintro _ x y' rfl hx hy
    rw [Value.eq_of_same_object (Value.same_symm hx), Value.eq_of_same_text (Value.same_symm hy)]
  · obtain ⟨row, slot, g, x, y', _, R, F', L', -, rfl, -, -, -, -, hR, hJ', hm, hr⟩ := h'
    have hall : Moves D F ({.row row} + {.slot slot} + (R.owned + F')) w w' := hm.cast rfl (by simp only; abel)
    exact ⟨R, F', L', hR, hJ', hall.forget hw (by simp), hr⟩

end

/-! ## Compiling the two sides -/

section

variable {w : World (Callback π) (Env π σ)} {t : OperatorTable} {n : Node} {key : String}

@[simp] theorem ends_observed {α : Type} (c : Compiling (Callback π) (Env π σ) α)
    (Q : Except BindError α → World (Callback π) (Env π σ) → Prop) :
    (observed c).run.Ends w Q ↔ c.run.Ends w fun r => Q (r.mapError .compile) := by
  change Run.Ends (Except.mapError BindError.compile <$> c.run) w Q ↔ _
  rw [Run.ends_map]

/-- A tree that reads one key compiles, as a target, to the place under that key. -/
theorem Node.Reads.compileTarget_ends {Q : Except BindError Target → World (Callback π) (Env π σ) → Prop} (h : n.Reads key) :
    (compileTarget t n).run.Ends w Q ↔ Q (.ok (.property .value (.literal (.text key)))) w := by
  obtain ⟨h, a, b, rfl, hk, ha, hb, hv⟩ := h
  have hform : t.writeForm h.kind = .property := by rcases hk with hk | hk <;> rw [hk] <;> rfl
  simp [compileTarget, hform, compile_value ha, compile_literal hb, hv, fromJson, Except.mapError, Except.map]

end

end LiveBindings
