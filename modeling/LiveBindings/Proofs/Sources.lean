import LiveBindings.Proofs.Compiling

/-!
# Trees that read single keys

The sources of bindings among the keys of one object: trees of literals, single keys of the value in scope, choices and
operators (`Node.Source`). They always compile (`Node.Source.compile_ends`), watch nothing but keys that they name, and their
value depends only on what is under those (`Expr.Reading`).
-/

namespace LiveBindings

variable {π σ : Type}

/-- A tree that reads one key of the value in scope. -/
def Node.Reads (n : Node) (key : String) : Prop :=
  ∃ h a b, n = .call h [a, b] ∧ (h.kind = "property" ∨ h.kind = "get") ∧ a.kind = "value" ∧ b.kind = "literal" ∧
    b.head.value = some (.text key)

/-- A path of one segment. -/
def Node.IsPlain (path : String) : Prop := Node.segments path = [path]

instance (path : String) : Decidable (Node.IsPlain path) := inferInstanceAs (Decidable (_ = _))

theorem Node.IsPlain.reads {path : String} (h : Node.IsPlain path) : (Node.path path).Reads path := by
  rw [Node.path, show Node.segments path = [path] from h]
  exact ⟨_, _, _, rfl, Or.inl rfl, rfl, rfl, rfl⟩

/-- A tree of literals, keys of the value in scope that are among `P`, choices and operators. -/
inductive Node.Source (t : OperatorTable) (P : String → Prop) : Node → Prop
  | literal {n : Node} : n.kind = "literal" → Source t P n
  | read {n : Node} {key : String} : n.Reads key → P key → Source t P n
  | choice {h : Head} {p a b : Node} :
      t.meaning h.kind = .construct .choice → Source t P p → Source t P a → Source t P b → Source t P (.call h [p, a, b])
  | operator {h : Head} {ns : List Node} {op : Operator} :
      t.meaning h.kind = .operator op → op.apply.RespectsSame → (∀ n ∈ ns, Source t P n) → Source t P (.call h ns)

theorem Node.Source.mono {t : OperatorTable} {P P' : String → Prop} {n : Node} (h : n.Source t P)
    (hP : ∀ key, P key → P' key) : n.Source t P' := by
  induction h with
  | literal hk => exact .literal hk
  | read hr hk => exact .read hr (hP _ hk)
  | choice hm _ _ _ ihp iha ihb => exact .choice hm ihp iha ihb
  | operator hm hop _ ih => exact .operator hm hop ih

namespace Expr

/-- An expression of constants, keys of the value in scope that are among `P`, choices and operators. -/
inductive Reading (P : String → Prop) : Expr → Prop
  | literal (v : Value) : Reading P (.literal v)
  | read {key : String} : P key → Reading P (.property .value (.literal (.text key)))
  | choice {p a b : Expr} : Reading P p → Reading P a → Reading P b → Reading P (.choice p a b)
  | operator {f : OperatorFunction} {xs : List Expr} :
      f.RespectsSame → (∀ x ∈ xs, Reading P x) → Reading P (.operator f xs)

namespace Reading

variable {P P' : String → Prop} {x : Expr} {s : Scope} {o : ObjectId} {c c' : Contents}

theorem mono (h : x.Reading P) (hP : ∀ key, P key → P' key) : x.Reading P' := by
  induction h with
  | literal v => exact .literal v
  | read hk => exact .read (hP _ hk)
  | choice _ _ _ ihp iha ihb => exact .choice ihp iha ihb
  | operator hf _ ih => exact .operator hf ih

theorem scalar (h : x.Reading P) : x.Scalar := by
  induction h with
  | literal v => exact .literal v
  | read _ => exact .property .value (.literal _)
  | choice _ _ _ ihp iha ihb => exact .choice ihp iha ihb
  | operator hf _ ih => exact .operator hf ih

/-- What it watches are the keys of the object in scope. -/
theorem covered (h : x.Reading P) (hs : s.value = .object o) {D : Place → Prop} (hD : ∀ key, P key → D (.entry o key)) :
    x.Covered D s := by
  induction h with
  | literal v => trivial
  | @read key hk =>
    refine ⟨trivial, trivial, fun c u v p hu hv hp => ?_⟩
    obtain rfl : u = .object o := Value.eq_of_same_object (by rw [← hs]; exact hu)
    obtain rfl : v = .text key := Value.eq_of_same_text hv
    simp only [Followed.spot, Contents.key_text, Spot.place.injEq] at hp
    exact hp ▸ hD key hk
  | choice _ _ _ ihp iha ihb => exact ⟨ihp, iha, ihb⟩
  | operator _ _ ih => exact (coveredAll_iff _ _ _).2 ih

theorem scalarKeys (h : x.Reading P) : x.ScalarKeys c s := by
  induction h with
  | literal v => trivial
  | read _ => exact ⟨trivial, trivial, fun _ _ => rfl⟩
  | choice _ _ _ ihp iha ihb =>
    refine ⟨ihp, ?_⟩
    split
    · exact iha
    · exact ihb
  | operator _ _ ih => exact (scalarKeysAll_iff _ _ _).2 ih

/-- Contents that agree on the keys give values that agree. -/
theorem denote_same (h : x.Reading P) (hs : s.value = .object o)
    (hc : ∀ key, P key → ((Place.entry o key).read c).same ((Place.entry o key).read c') = true) :
    (x.denote c s).same (x.denote c' s) = true := by
  induction h with
  | literal v => exact Value.same_refl _
  | @read key hk =>
    simp only [denote, hs, Contents.property, Contents.key_text]
    exact hc key hk
  | choice _ _ _ ihp iha ihb =>
    simp only [denote, Value.truthy_eq_of_same ihp]
    split
    · exact iha
    · exact ihb
  | @operator f xs hf _ ih =>
    simp only [denote, denoteAll_eq_map]
    refine hf _ _ _ _ ?_
    rw [List.forall₂_map_left_iff, List.forall₂_map_right_iff, List.forall₂_same]
    exact ih

end Reading

end Expr

/-! ## Compiling -/

section

variable {w : World (Callback π) (Env π σ)} {t : OperatorTable} {n : Node} {P : String → Prop}

theorem compile_eq (t : OperatorTable) (n : Node) : ∃ fields : Option (Compiling (Callback π) (Env π σ) _),
    compile t n = assemble t n (compileAll t n.positional) fields := by
  cases n with
  | leaf h => exact ⟨none, rfl⟩
  | call h ns => exact ⟨none, rfl⟩
  | fields h fs => exact ⟨some (compileFields t fs), rfl⟩

theorem compile_value {Q : Except CompileError Expr → World (Callback π) (Env π σ) → Prop} (h : n.kind = "value") :
    (compile t n).run.Ends w Q ↔ Q (.ok .value) w := by
  obtain ⟨fields, he⟩ := compile_eq (π := π) (σ := σ) t n
  have hm : t.meaning n.kind = .primitive .value := by rw [h]; rfl
  simp only [he, assemble, hm, ends_exceptPure]

theorem compile_literal {Q : Except CompileError Expr → World (Callback π) (Env π σ) → Prop} (h : n.kind = "literal") :
    (compile t n).run.Ends w Q ↔ match n.head.value with
      | some j => (fromJson j).Ends w fun v => Q (.ok (.literal v))
      | none => Q (.ok (.literal .undefined)) w := by
  obtain ⟨fields, he⟩ := compile_eq (π := π) (σ := σ) t n
  have hm : t.meaning n.kind = .primitive .literal := by rw [h]; rfl
  simp only [he, assemble, hm]
  cases n.head.value with
  | none => rfl
  | some j => simp only [ends_exceptBind, ends_exceptLift, ends_exceptPure]

theorem meaning_property {kind : String} (h : kind = "property" ∨ kind = "get") :
    t.meaning kind = .construct .property ∨ t.meaning kind = .construct .get := by
  rcases h with rfl | rfl
  · exact Or.inl rfl
  · exact Or.inr rfl

/-- A tree that reads one key compiles to the property under that key. -/
theorem Node.Reads.compile {key : String} {Q : Except CompileError Expr → World (Callback π) (Env π σ) → Prop}
    (h : n.Reads key) :
    (LiveBindings.compile t n).run.Ends w Q ↔ Q (.ok (.property .value (.literal (.text key)))) w := by
  obtain ⟨h, a, b, rfl, hk, ha, hb, hv⟩ := h
  have hargs : ∀ Q : Except CompileError (List Expr) → World (Callback π) (Env π σ) → Prop,
      (compileAll t [a, b]).run.Ends w Q ↔ Q (.ok [.value, .literal (.text key)]) w := fun Q => by
    simp [compileAll, compile_value ha, compile_literal hb, hv, fromJson, Except.map]
  simp only [LiveBindings.compile, assemble]
  rcases (meaning_property hk : t.meaning (Node.call h [a, b]).kind = _ ∨ _) with hm | hm <;>
    simp [hm, Construct.arity, Construct.build, Node.positional, hargs, Except.map]

theorem Node.Reads.means {key : String} (h : n.Reads key) : n.Means t (.property .value (.literal (.text key))) := by
  obtain ⟨h, a, b, rfl, hk, ha, hb, hv⟩ := h
  refine .property (meaning_property hk) rfl (.value ?_) (.literal ?_ ?_)
  · rw [ha]
    rfl
  · rw [hb]
    rfl
  · rw [hv]
    rfl

/-- What compiling a source leaves behind. -/
def World.Read (w : World (Callback π) (Env π σ)) (t : OperatorTable) (P : String → Prop) (n : Node)
    (r : Except CompileError Expr) (w' : World (Callback π) (Env π σ)) : Prop :=
  w.Adds w' ∧ ∃ x, r = .ok x ∧ n.Means t x ∧ x.Reading P

/-- Sources in a row compile. -/
theorem compileAll_reads (ns : List Node) (hd : w.depth < w.config.maxDispatchDepth)
    (h : ∀ n ∈ ns, ∀ {w : World (Callback π) (Env π σ)}, w.depth < w.config.maxDispatchDepth →
      (compile t n).run.Ends w (w.Read t P n)) :
    (compileAll t ns).run.Ends w fun r w' =>
      w.Adds w' ∧ ∃ xs, r = .ok xs ∧ Node.MeansAll t ns xs ∧ ∀ x ∈ xs, x.Reading P := by
  induction ns generalizing w with
  | nil => exact ⟨.refl w, [], rfl, ⟨rfl, nofun⟩, nofun⟩
  | cons n ns ih =>
    simp only [compileAll, ends_exceptBind]
    refine (h n (by simp) hd).imp ?_
    rintro r w₁ ⟨hw₁, x, hr, hx, hP⟩
    subst hr
    have hd₁ : w₁.depth < w₁.config.maxDispatchDepth := by rwa [hw₁.depth, hw₁.config]
    refine (ih hd₁ fun n hn => h n (by simp [hn])).imp ?_
    rintro r w₂ ⟨hw₂, xs, hr, ⟨hlen, hxs⟩, hPs⟩
    subst hr
    refine ⟨hw₁.trans hw₂, x :: xs, rfl, ⟨by simp [hlen], fun i a y ha hy => ?_⟩, by simpa using ⟨hP, hPs⟩⟩
    cases i with
    | zero =>
      obtain rfl : n = a := by simpa using ha
      obtain rfl : x = y := by simpa using hy
      exact hx
    | succ i => exact hxs i a y (by simpa using ha) (by simpa using hy)

/-- Every source compiles. -/
theorem Node.Source.compile_ends (hn : n.Source t P) (hd : w.depth < w.config.maxDispatchDepth) :
    (compile t n).run.Ends w (w.Read t P n) := by
  induction hn generalizing w with
  | @literal n hk =>
    have hm : t.meaning n.kind = .primitive .literal := by rw [hk]; rfl
    rw [compile_literal hk]
    cases hv : n.head.value with
    | none => exact ⟨.refl w, _, rfl, .literal hm (by rw [hv]; rfl), .literal _⟩
    | some j => exact (fromJson_ends hd j).imp fun v w' ⟨ha, hlit⟩ => ⟨ha, _, rfl, .literal hm (hv ▸ hlit), .literal v⟩
  | read hr hk => exact hr.compile.2 ⟨.refl w, _, rfl, hr.means, .read hk⟩
  | @choice h p a b hm _ _ _ ihp iha ihb =>
    have hargs := compileAll_reads (P := P) (t := t) [p, a, b] hd fun n hn => by
      simp only [List.mem_cons, List.not_mem_nil, or_false] at hn
      rcases hn with rfl | rfl | rfl
      · exact ihp
      · exact iha
      · exact ihb
    have hm' : t.meaning (Node.call h [p, a, b]).kind = .construct .choice := hm
    simp only [compile, assemble, hm', Construct.arity, Node.positional, List.length_cons, List.length_nil, ne_eq, not_true_eq_false, if_false,
      ends_exceptBind]
    refine hargs.imp ?_
    rintro r w' ⟨ha, xs, hr, hxs, hPs⟩
    subst hr
    obtain ⟨q, x, y, rfl⟩ := List.length_eq_three.1 hxs.1
    refine ⟨ha, _, rfl, Node.means_build hm' (by simp) rfl rfl hxs, ?_⟩
    exact .choice (hPs q (by simp)) (hPs x (by simp)) (hPs y (by simp))
  | @operator h ns op hm hop _ ih =>
    have hargs := compileAll_reads (P := P) (t := t) ns hd fun n hn _ hd => ih n hn hd
    have hm' : t.meaning (Node.call h ns).kind = .operator op := hm
    simp only [compile, assemble, hm', ends_exceptBind]
    refine hargs.imp ?_
    rintro r w' ⟨ha, xs, hr, hxs, hPs⟩
    subst hr
    exact ⟨ha, _, rfl, .operator hm' hxs.1 hxs.2, .operator hop hPs⟩

end

/-! ## Trees without containers -/

namespace Node

/-- No literal in the tree makes a container. -/
inductive Plain : Node → Prop
  | mk {n : Node} : (n.kind = "literal" → (∀ js, n.head.value ≠ some (.array js)) ∧ ∀ ms, n.head.value ≠ some (.object ms)) →
      (∀ a ∈ n.positional, Plain a) → Plain n

variable {t : OperatorTable} {P : String → Prop} {n : Node} {x y : Expr}

theorem Plain.literal (h : n.Plain) (hk : n.kind = "literal") {v v' : Value} (hv : v.OfLiteral n.head.value)
    (hv' : v'.OfLiteral n.head.value) : v = v' := by
  cases h with
  | mk hl _ =>
    obtain ⟨ha, ho⟩ := hl hk
    cases hj : n.head.value with
    | none =>
      rw [hj] at hv hv'
      exact hv.trans hv'.symm
    | some j =>
      rw [hj] at hv hv'
      cases j with
      | array js => exact absurd hj (ha js)
      | object ms => exact absurd hj (ho ms)
      | _ => exact hv.trans hv'.symm

theorem Plain.positional (h : n.Plain) : ∀ a ∈ n.positional, a.Plain := by
  cases h
  assumption

theorem Means.of_literal (hm : t.meaning n.kind = .primitive .literal) (h : n.Means t x) :
    ∃ v, x = .literal v ∧ v.OfLiteral n.head.value := by
  cases h <;> simp_all

theorem Means.of_value (hm : t.meaning n.kind = .primitive .value) (h : n.Means t x) : x = .value := by
  cases h <;> simp_all

theorem Means.of_property {a b : Node} (hm : t.meaning n.kind = .construct .property ∨ t.meaning n.kind = .construct .get)
    (hp : n.positional = [a, b]) (h : n.Means t x) : ∃ u v, x = .property u v ∧ a.Means t u ∧ b.Means t v := by
  cases h with
  | property _ hp' ha hb =>
    obtain ⟨rfl, rfl⟩ : _ = a ∧ _ = b := by simpa [hp] using hp'.symm
    exact ⟨_, _, rfl, ha, hb⟩
  | _ => rcases hm with hm | hm <;> simp_all

theorem Means.of_choice {p a b : Node} (hm : t.meaning n.kind = .construct .choice) (hp : n.positional = [p, a, b])
    (h : n.Means t x) : ∃ q u v, x = .choice q u v ∧ p.Means t q ∧ a.Means t u ∧ b.Means t v := by
  cases h with
  | choice _ hp' hq ha hb =>
    obtain ⟨rfl, rfl, rfl⟩ : _ = p ∧ _ = a ∧ _ = b := by simpa [hp] using hp'.symm
    exact ⟨_, _, _, rfl, hq, ha, hb⟩
  | _ => simp_all

/-- Rows of expressions for the same trees are the same when each is determined. -/
theorem MeansAll.unique {ns : List Node} {xs ys : List Expr} (hx : MeansAll t ns xs) (hy : MeansAll t ns ys)
    (h : ∀ n ∈ ns, ∀ x y, n.Means t x → n.Means t y → x = y) : xs = ys := by
  refine List.ext_getElem (hx.1.trans hy.1.symm) fun i hi hi' => ?_
  have hn : i < ns.length := hx.1 ▸ hi
  exact h _ (List.getElem_mem hn) _ _ (hx.2 i _ _ (List.getElem?_eq_getElem hn) (List.getElem?_eq_getElem hi))
    (hy.2 i _ _ (List.getElem?_eq_getElem hn) (List.getElem?_eq_getElem hi'))

/-- A source without containers stands for one expression. -/
theorem Source.unique (hn : n.Source t P) (hp : n.Plain) (hx : n.Means t x) (hy : n.Means t y) : x = y := by
  induction hn generalizing x y with
  | @literal n hk =>
    have hm : t.meaning n.kind = .primitive .literal := by rw [hk]; rfl
    obtain ⟨v, rfl, hv⟩ := hx.of_literal hm
    obtain ⟨v', rfl, hv'⟩ := hy.of_literal hm
    rw [hp.literal hk hv hv']
  | read hr _ =>
    obtain ⟨h, a, b, rfl, hk, ha, hb, hv⟩ := hr
    have hma : t.meaning a.kind = .primitive .value := by rw [ha]; rfl
    have hmb : t.meaning b.kind = .primitive .literal := by rw [hb]; rfl
    have inverted : ∀ {z}, (Node.call h [a, b]).Means t z → ∃ v, z = .property .value (.literal v) ∧ v.OfLiteral b.head.value := by
      intro z hz
      obtain ⟨u, v, rfl, hu, hv⟩ := hz.of_property (meaning_property hk : t.meaning h.kind = _ ∨ _) rfl
      obtain ⟨v', rfl, hlit⟩ := hv.of_literal hmb
      exact ⟨v', by rw [hu.of_value hma], hlit⟩
    obtain ⟨v, rfl, hv₁⟩ := inverted hx
    obtain ⟨v', rfl, hv₂⟩ := inverted hy
    rw [(hp.positional b (by simp [positional])).literal hb hv₁ hv₂]
  | @choice h p a b hm _ _ _ ihp iha ihb =>
    obtain ⟨q, u, v, rfl, hq, hu, hv⟩ := hx.of_choice hm rfl
    obtain ⟨q', u', v', rfl, hq', hu', hv'⟩ := hy.of_choice hm rfl
    rw [ihp (hp.positional p (by simp [positional])) hq hq', iha (hp.positional a (by simp [positional])) hu hu',
      ihb (hp.positional b (by simp [positional])) hv hv']
  | operator hm _ _ ih =>
    obtain ⟨xs, rfl, hxs⟩ := hx.of_operator hm
    obtain ⟨ys, rfl, hys⟩ := hy.of_operator hm
    rw [hxs.unique hys fun n hn x y hx hy => ih n hn (hp.positional n hn) hx hy]

end Node

end LiveBindings
