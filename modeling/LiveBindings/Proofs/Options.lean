import LiveBindings.Proofs.Installing
import LiveBindings.Proofs.TwoWay

/-!
# Exclusive options

Flags of an object are bound both ways to tests of whether the list under one of its keys has a fixed value, each test negated
any number of times (`Node.Asks`). When all have been defined, and whatever the program then does to lists, to the flags and to
the list under the key, every flag is as true as its test (`BindingSet.exclusive_options`).
-/

namespace LiveBindings

variable {π σ : Type}

/-! ## Trees -/

namespace Node

/-- A tree that stands for one value in every context: a literal that makes no container, the value or the parameters in
scope. -/
inductive Stands : Node → Expr → Prop
  | literal {n : Node} {v : Value} : n.kind = "literal" → n.Plain → v.OfLiteral n.head.value → Stands n (.literal v)
  | value {n : Node} : n.kind = "value" → Stands n .value
  | parameters {n : Node} : n.kind = "parameters" → Stands n .parameters

/-- A tree that asks whether the list under a key has a fixed value, negated a number of times. -/
inductive Asks (key : String) : Node → Expr → Nat → Prop
  | has {h : Head} {a m : Node} {x : Expr} : h.kind = "has" → a.Reads key → m.Stands x → Asks key (.call h [a, m]) x 0
  | not {h : Head} {n : Node} {x : Expr} {turns : Nat} : h.kind = "not" → Asks key n x turns → Asks key (.call h [n]) x (turns + 1)

end Node

/-- A table has the standard negation. -/
def OperatorTable.Negates (t : OperatorTable) : Prop := t.get? "not" = OperatorTable.standard.get? "not"

theorem OperatorTable.negates_standard : OperatorTable.standard.Negates := rfl

section

variable {w : World (Callback π) (Env π σ)} {t : OperatorTable} {n : Node} {x : Expr} {s : Scope} {key : String} {turns : Nat}

theorem OperatorTable.Negates.meaning (h : t.Negates) :
    ∃ op, t.meaning "not" = .operator op ∧ t.writeForm "not" = .inverse Value.negated ∧ op.apply = negation := by
  obtain ⟨op, hop, happly, hinverse⟩ : ∃ op, OperatorTable.standard.get? "not" = some op ∧ op.apply = negation ∧
    op.inverse = some Value.negated := ⟨_, rfl, rfl, rfl⟩
  have hget : t.get? "not" = some op := Eq.trans h hop
  have hprimitive : Primitive.named? "not" = none := by decide
  have hconstruct : Construct.named? "not" = none := by decide
  refine ⟨op, ?_, ?_, happly⟩
  · simp only [OperatorTable.meaning, hprimitive, hconstruct, hget]
  · simp [OperatorTable.writeForm, hget, hinverse, Construct.name]

/-- Whatever it stands for is fixed in a scope. -/
theorem Node.Stands.fixed (h : n.Stands x) (s : Scope) : ∃ v, x.Fixed s v := by
  cases h with
  | literal => exact ⟨_, .literal _⟩
  | value => exact ⟨_, .value⟩
  | parameters => exact ⟨_, .parameters⟩

theorem Node.Stands.compile (h : n.Stands x) {Q : Except CompileError Expr → World (Callback π) (Env π σ) → Prop} :
    (LiveBindings.compile t n).run.Ends w Q ↔ Q (.ok x) w := by
  cases h with
  | @literal v hk hp hv =>
    rw [compile_literal hk]
    cases hp with
    | mk hl _ =>
      obtain ⟨ha, ho⟩ := hl hk
      cases hj : n.head.value with
      | none =>
        rw [hj] at hv
        obtain rfl : v = .undefined := hv
        rfl
      | some j =>
        rw [hj] at hv
        cases j with
        | array js => exact absurd hj (ha js)
        | object ms => exact absurd hj (ho ms)
        | _ =>
          simp only [Value.OfLiteral] at hv
          subst hv
          rfl
  | value hk => exact compile_value hk
  | parameters hk =>
    obtain ⟨fields, he⟩ := compile_eq (π := π) (σ := σ) t n
    have hm : t.meaning n.kind = .primitive .parameters := by rw [hk]; rfl
    simp only [he, assemble, hm, ends_exceptPure]

theorem Node.Stands.means (h : n.Stands x) : n.Means t x := by
  cases h with
  | literal hk _ hv => exact .literal (by rw [hk]; rfl) hv
  | value hk => exact .value (by rw [hk]; rfl)
  | parameters hk => exact .parameters (by rw [hk]; rfl)

theorem Node.Asks.stands (h : n.Asks key x turns) : ∃ m : Node, m.Stands x := by
  induction h with
  | has _ _ hm => exact ⟨_, hm⟩
  | not _ _ ih => exact ih

/-- A test compiles to the presence of the value. -/
theorem Node.Asks.compile (ht : t.Negates) (h : n.Asks key x turns)
    {Q : Except CompileError Expr → World (Callback π) (Env π σ) → Prop} :
    (LiveBindings.compile t n).run.Ends w Q ↔ Q (.ok (presenceExpr key x turns)) w := by
  induction h generalizing Q with
  | @has h a m x hk ha hm =>
    have hmean : t.meaning (Node.call h [a, m]).kind = .construct .has := by
      change t.meaning h.kind = _
      rw [hk]
      rfl
    have hargs : ∀ Q : Except CompileError (List Expr) → World (Callback π) (Env π σ) → Prop,
        (compileAll t [a, m]).run.Ends w Q ↔ Q (.ok [keyExpr key, x]) w := fun Q => by
      simp [compileAll, ha.compile, hm.compile, keyExpr, Except.map]
    simp [LiveBindings.compile, assemble, hmean, Construct.arity, Construct.build, Node.positional, hargs, presenceExpr, Except.map]
  | @not h n x turns hk _ ih =>
    obtain ⟨op, hop, -, happly⟩ := ht.meaning
    have hmean : t.meaning (Node.call h [n]).kind = .operator op := by
      change t.meaning h.kind = _
      rw [hk, hop]
    simp only [LiveBindings.compile, assemble, hmean, compileAll, ends_exceptBind, ends_exceptPure, ih, happly, presenceExpr]

theorem Node.Asks.means (ht : t.Negates) (h : n.Asks key x turns) : n.Means t (presenceExpr key x turns) := by
  induction h with
  | @has h a m x hk ha hm =>
    refine .membership ?_ rfl ha.means hm.means
    change t.meaning h.kind = _
    rw [hk]
    rfl
  | @not h n x turns hk _ ih =>
    obtain ⟨op, hop, -, happly⟩ := ht.meaning
    rw [presenceExpr, ← happly]
    refine .operator ?_ rfl fun i a y ha hy => ?_
    · change t.meaning h.kind = _
      rw [hk, hop]
    · cases i with
      | zero =>
        obtain rfl : n = a := by simpa [Node.positional] using ha
        obtain rfl : presenceExpr key x turns = y := by simpa using hy
        exact ih
      | succ i => simp at hy

theorem Node.Asks.turns_lt (h : n.Asks key x turns) : turns < n.size := by
  induction h with
  | has => simp [Node.size]
  | not _ _ ih =>
    simp only [Node.size, Node.sizeAll]
    omega

/-- As a target it compiles to the presence behind the negations. -/
theorem Node.Asks.compileTarget (ht : t.Negates) (h : n.Asks key x turns)
    {Q : Except BindError Target → World (Callback π) (Env π σ) → Prop} :
    (LiveBindings.compileTarget t n).run.Ends w Q ↔
      Q (.ok ((Target.inverse Value.negated)^[turns] (.membership (keyExpr key) x))) w := by
  induction h generalizing Q with
  | @has h a m x hk ha hm =>
    have hform : t.writeForm h.kind = .membership := by rw [hk]; rfl
    simp only [LiveBindings.compileTarget, hform, ends_exceptBind, ends_observed, ha.compile, hm.compile, ends_exceptPure]
    rfl
  | @not h n x turns hk _ ih =>
    obtain ⟨op, -, hform, -⟩ := ht.meaning
    rw [← hk] at hform
    simp only [LiveBindings.compileTarget, hform, ends_exceptBind, ih, ends_exceptPure, Function.iterate_succ_apply']

/-- A source is bound to what is behind negations. -/
theorem Target.bind_negated (E : Engine π σ) (turns : Nat) (target : Target) (source : Source) (s : Scope) :
    ((Target.inverse Value.negated)^[turns] target).bind E source s =
      target.bind E ((Source.inverse Value.negated)^[turns] source) s := by
  induction turns generalizing source with
  | zero => rfl
  | succ turns ih => rw [Function.iterate_succ_apply', Target.bind, ih, ← Function.iterate_succ_apply]

end

/-! ## What the program does -/

/-- An operation that options allow: on a list that there is, on a flag, or that puts a list under the key. -/
def Mutation.Allowed (o : ObjectId) (key : String) (flags : String → Prop) (lists : Nat) : Mutation → Prop
  | setEntry o' k v => o' = o ∧ (flags k ∨ (k = key ∧ ∃ l : ListId, v = .list l ∧ l.index < lists))
  | m => ∃ l, m.list? = some l ∧ l.index < lists

namespace Panel

variable {S : Panel} {ts : Finset Switch} {H : Host π σ} {n : Nat} {l : ListId} {a : Switch → Aim} {R : Switch × Role → Running π}
  {w w' : World (Callback π) (Env π σ)} {t : Switch} {flag : String}

/-- Between two operations all switches are installed and up to date. -/
structure Rests (S : Panel) (ts : Finset Switch) (w : World (Callback π) (Env π σ)) : Prop where
  wired : S.Wired ts
  installed : ∃ l a R, S.Installed ts 0 l a (fun _ => False) R w

theorem Wired.insert (h : S.Wired ts) (hx : (S.member t.flag).Fixed S.scope (S.value t.flag)) (hkey : t.flag ≠ S.key)
    (halone : ∀ t' ∈ ts, t'.flag ≠ t.flag) : S.Wired (insert t ts) where
  scope := h.scope
  fixed := by simpa [hx] using h.fixed
  apart := by simpa [hkey] using h.apart
  distinct := by
    simp only [Finset.mem_insert, forall_eq_or_imp, forall_true_left, true_and]
    exact ⟨fun t' hm he => absurd he.symm (halone t' hm), fun t' hm => ⟨fun he => absurd he (halone t' hm), h.distinct t' hm⟩⟩

namespace Rests

/-- A list that is made elsewhere changes nothing. -/
theorem adds (h : S.Rests ts w) (ha : w.Adds w') : S.Rests ts w' := by
  obtain ⟨hS, l, a, R, h⟩ := h
  refine ⟨hS, l, a, R, ?_⟩
  have hfound := h.steady.around.found
  have hunder := ha.under hfound
  have hsame : ∀ p : Piece, w.layout.Same w'.layout p := by
    intro p
    cases p <;> simp only [Layout.Same, ha.cells]
    exact fun q => ha.posted
  -- The observers watch the object and the list.
  have hplace : ∀ {lf}, Family.Has (parts ts) R lf → (∃ key, lf.place = .entry S.target key) ∨ ∃ v, lf.place = .element l v := by
    rintro lf ⟨⟨t, r⟩, hi, hlf⟩
    have ht := mem_parts.1 hi
    rcases h.steady.watches hS.scope (hS.fixed t ht) h.runs hi hlf with ⟨-, hp⟩ | ⟨-, hp⟩ | ⟨rfl, l', v, hp⟩
    · exact Or.inl ⟨_, hp⟩
    · exact Or.inl ⟨_, hp⟩
    · obtain ⟨lk, le, list, m, hls, hpk, hlk, hpe, -⟩ := h.steady.presence hS.scope (hS.fixed t ht) h.runs hi
      have hk := h.current ⟨_, hi, (by simp [hls] : lk ∈ _)⟩
      rw [Leaf.Current, hpk, Place.read_entry, h.list, hlk] at hk
      obtain rfl : l = list := by simpa using Value.eq_of_same_list hk
      rw [hls, List.mem_cons, List.mem_singleton] at hlf
      rcases hlf with rfl | rfl
      · exact Or.inl ⟨_, hpk⟩
      · exact Or.inr ⟨_, hpe⟩
  have hcur : ∀ {lf}, Family.Has (parts ts) R lf → lf.Current w'.contents := by
    intro lf hlf
    have hc := h.current hlf
    rcases hplace hlf with ⟨key, hp⟩ | ⟨v, hp⟩
    · rwa [Leaf.Current, hp, Place.read_entry, hunder, ← Place.read_entry, ← hp]
    · rwa [Leaf.Current, hp, Place.read, ha.items l h.found, ← Place.read, ← hp]
  have haround := h.steady.around
  refine ⟨⟨⟨Nat.lt_of_lt_of_le hfound ha.objects, ha.cells ▸ haround.orphans, ha.depth.trans haround.depth, rfl, haround.plain,
    fun p _ => .refl _ p, fun hq => haround.closed (ha.posted.1 hq)⟩, fun _ => rfl, h.steady.paths, ⟨l, by rw [hunder, h.list]⟩,
    fun {t} hi hi' => ?_, h.steady.lists, fun hi lf hlf => hcur ⟨_, hi, hlf⟩⟩, fun i hi => ?_, ⟨fun p hp => ?_, h.fits.nodup,
      ha.tidy h.fits.tidy⟩, fun t ht => (h.rows t ht).same (hsame _), fun t ht => ?_, fun t ht => ?_, h.members,
    Nat.lt_of_lt_of_le h.found ha.lists, by rw [hunder, h.list], fun hl => Or.inl (hcur hl), ha.config ▸ h.deep⟩
  · rw [hunder, h.steady.even hi hi']
  · refine (h.runs i hi).same (fun p _ => hsame p) fun lf hlf _ => ?_
    rcases hplace ⟨i, hi, hlf⟩ with ⟨key, hp⟩ | ⟨v, hp⟩
    · rw [Leaf.post, hp]
      exact hfound
    · rw [Leaf.post, hp]
      exact h.found
  · have := h.fits.has p hp
    cases p <;> simpa only [Layout.Has, ha.cells, ha.nextListener] using this
  · obtain ⟨g, hg⟩ := h.slots t ht
    exact ⟨g, hg.same (hsame _)⟩
  · exact ⟨(h.idle t ht).1.same (hsame _), (h.idle t ht).2.same (hsame _)⟩

/-- No flag is bound yet. -/
theorem empty (hw : w.AtRest) (hdepth : w.depth = 0) (hlimit : 3 ≤ w.config.maxDispatchDepth)
    (hfound : S.target.index < w.layout.objects) (hscope : S.scope.value = .object S.target)
    (hlist : w.contents.under S.target S.key = .list l) (hl : l.index < w.layout.lists) : S.Rests ∅ w := by
  refine ⟨⟨hscope, by simp, by simp, by simp⟩, l, fun _ => ⟨l, .undefined⟩, fun _ => { value := .undefined }, ?_⟩
  refine ⟨⟨⟨hfound, hw.orphans, hdepth, rfl, plain_pieces ∅, fun p _ => .refl _ p, fun hq => Or.inl (hw.users hq)⟩, fun _ => rfl, ?_,
    ⟨l, hlist⟩, ?_, ?_, ?_⟩, ?_, ⟨?_, ?_, hw.tidy⟩, ?_, ?_, ?_, ?_, hl, hlist, ?_, hlimit⟩
  all_goals simp [scene, parts, pieces, Family.owned, Family.Run, Family.Has]

/-- One more flag is bound. -/
theorem install (h : S.Rests ts w) (hH : H.Quiet fun _ _ _ _ => True) (hn : ∀ t ∈ ts, 2 * S.turns t.flag + 12 ≤ n)
    (hn' : 2 * S.turns flag + 12 ≤ n) (hx : (S.member flag).Fixed S.scope (S.value flag)) (hkey : flag ≠ S.key)
    (halone : ∀ t ∈ ts, t.flag ≠ flag) :
    (S.install (engine H (n + 14)) flag).Ends w fun _ w' => ∃ t, t.flag = flag ∧ S.Rests (insert t ts) w' := by
  obtain ⟨hS, l, a, R, h⟩ := h
  have hwired : ∀ t : Switch, t.flag = flag → S.Wired (Insert.insert t ts) := by
    rintro t rfl
    exact hS.insert hx hkey halone
  refine (h.install_ends hwired hH hn hn' halone).imp fun _ w' ⟨t, a', R', ht, h'⟩ => ?_
  exact ⟨t, ht, hwired t ht, l, a', R', h'⟩

/-- The program does something that it may. -/
theorem mutation (h : S.Rests ts w) (hH : H.Quiet fun _ _ _ _ => True) (hn : ∀ t ∈ ts, 2 * S.turns t.flag + 12 ≤ n) {m : Mutation}
    {flags : String → Prop} (hflags : ∀ flag, flags flag → ∃ t ∈ ts, t.flag = flag)
    (hm : m.Allowed S.target S.key flags w.layout.lists) :
    (m.run (engine H (n + 14))).Ends w fun _ w' => S.Rests ts w' := by
  obtain ⟨hS, l, a, R, h⟩ := h
  by_cases hset : ∃ o key v, m = .setEntry o key v
  · obtain ⟨o, key, v, rfl⟩ := hset
    obtain ⟨rfl, hk | ⟨rfl, l', rfl, hl'⟩⟩ := hm
    · obtain ⟨t, ht, rfl⟩ := hflags _ hk
      refine (h.set_flag (n := n + 10) hS hH (fun t ht => (hn t ht).trans (by omega)) ht v).imp fun _ w' ⟨a', R', h'⟩ => ?_
      exact ⟨hS, l, a', R', h'⟩
    · refine (h.set_list (n := n + 4) hS hH (fun t ht => (hn t ht).trans (by omega)) hl').imp fun _ w' ⟨a', R', h'⟩ => ?_
      exact ⟨hS, l', a', R', h'⟩
  · obtain ⟨l', hl', hfound⟩ : ∃ l', m.list? = some l' ∧ l'.index < w.layout.lists := by
      cases m with
      | setEntry o key v => exact absurd ⟨o, key, v, rfl⟩ hset
      | _ => exact hm
    refine m.run_ends ⟨hS, l, a, R, h⟩ (fun l₀ vs change before mutate hl₀ hmut _ => ?_) ?_ ?_
    · obtain rfl : l₀ = l' := by simpa [hl'] using hl₀.symm
      refine (h.change_list (n := n + 12) hS hH (fun t ht => (hn t ht).trans (by omega)) hfound hmut).imp fun _ w' ⟨R', h'⟩ => ?_
      exact ⟨hS, l, a, R', h'⟩
    · exact fun _ _ hnone => by simp [hl'] at hnone
    · exact fun _ _ _ _ _ hnone => by simp [hl'] at hnone

/-- Every flag is as true as its test. -/
theorem truthy (h : S.Rests ts w) (ht : t ∈ ts) :
    (w.contents.under S.target t.flag).truthy =
      ((presenceExpr S.key (S.member t.flag) (S.turns t.flag)).denote w.contents S.scope).truthy := by
  obtain ⟨hS, l, a, R, h⟩ := h
  rw [h.truthy hS ht, presenceExpr_denote hS.scope (hS.fixed t ht) h.list]

end Rests

end Panel

/-! ## Definitions -/

/-- A definition binds one key at most. -/
theorem Descriptor.Links.unique {d : Descriptor} {key key' : String} (h : d.Links key) (h' : d.Links key') : key = key' := by
  obtain ⟨n, rfl, hn⟩ := h
  obtain ⟨n', he, hn'⟩ := h'
  obtain rfl := Descriptor.twoWay.inj he
  exact hn.unique hn'

namespace BindingSet

/-- Defines bindings of trees in order, up to the first that fails. -/
def defineEach (E : Engine π σ) : BindingSet π → List (Node × Descriptor) → Binding (Callback π) (Env π σ) (BindingSet π)
  | b, [] => return b
  | b, (target, d) :: defs => do
    let b ← b.define E target d
    b.defineEach E defs

/-- The worlds that the program gets to when it makes lists and does what options allow. -/
inductive Later (E : Engine π σ) (o : ObjectId) (key : String) (flags : String → Prop) (w : World (Callback π) (Env π σ)) :
    World (Callback π) (Env π σ) → Prop
  | now : Later E o key flags w w
  | made {w₁ w₂ : World (Callback π) (Env π σ)} {items : List Value} {l : ListId} :
      Later E o key flags w w₁ → ListId.create items w₁ = .ok l w₂ → Later E o key flags w w₂
  | changed {w₁ w₂ : World (Callback π) (Env π σ)} {m : Mutation} :
      Later E o key flags w w₁ → m.Allowed o key flags w₁.lists.size → m.run E w₁ = .ok ⟨⟩ w₂ → Later E o key flags w w₂

/-- The flags that definitions bind. -/
def Binds (defs : List (Node × Descriptor)) (flag : String) : Prop := ∃ p ∈ defs, p.2.Links flag

/-- Every flag is as true as the test that it is bound to. -/
def Consistent (b : BindingSet π) (defs : List (Node × Descriptor)) (c : Contents) : Prop :=
  ∀ p ∈ defs, ∀ flag, p.2.Links flag → ∃ x, p.1.Means b.operators x ∧ (c.under b.target flag).truthy = (x.denote c b.scope).truthy

variable {H : Host π σ} {n : Nat} {w : World (Callback π) (Env π σ)} {b : BindingSet π} {S : Panel} {ts : Finset Switch}
  {d : Descriptor} {defs : List (Node × Descriptor)} {key flag : String} {l : ListId}

/-- The bindings of a set are on the object of a panel and evaluated in its scope. -/
structure OnPanel (b : BindingSet π) (S : Panel) : Prop where
  target : b.target = S.target
  scope : b.scope = S.scope
  negates : b.operators.Negates

/-- What a definition binds is as the panel says. -/
structure Matches (S : Panel) (node : Node) (d : Descriptor) (flag : String) : Prop where
  asks : node.Asks S.key (S.member flag) (S.turns flag)
  links : d.Links flag
  fixed : (S.member flag).Fixed S.scope (S.value flag)
  apart : flag ≠ S.key

/-- Defining a binding between a flag and a test. -/
theorem define_option {node : Node} (hb : b.OnPanel S) (hd : Matches S node d flag) (h : S.Rests ts w)
    (hH : H.Quiet fun _ _ _ _ => True) (hn : ∀ t ∈ ts, 2 * S.turns t.flag + 12 ≤ n) (hn' : 2 * S.turns flag + 12 ≤ n) (halone : ∀ t ∈ ts, t.flag ≠ flag) :
    (b.define (engine H (n + 14)) node d).run.Ends w fun r w' =>
      ∃ b' t, r = .ok b' ∧ b'.OnPanel S ∧ t.flag = flag ∧ S.Rests (insert t ts) w' := by
  obtain ⟨hask, ⟨source, rfl, hlink⟩, hx, hkey⟩ := hd
  simp only [define, bind, bindTwoWay, ends_exceptBind, hask.compileTarget hb.negates, hlink.compileTarget_ends, ends_observed,
    hlink.compile, hask.compile hb.negates, Except.mapError, ends_exceptLift, Target.bind_negated, hb.scope]
  refine (h.install hH hn hn' hx hkey halone).imp ?_
  rintro handle w' ⟨t, ht, h'⟩
  exact ⟨_, t, rfl, ⟨hb.target, rfl, hb.negates⟩, ht, h'⟩

/-- Defining bindings between flags and tests, in any order. -/
theorem defineEach_ends (hH : H.Quiet fun _ _ _ _ => True) (hb : b.OnPanel S)
    (hdefs : ∀ p ∈ defs, ∃ flag, Matches S p.1 p.2 flag ∧ 2 * S.turns flag + 12 ≤ n)
    (hpair : defs.Pairwise fun p q => ∀ flag, p.2.Links flag → ¬q.2.Links flag)
    (hfree : ∀ flag, Binds defs flag → ∀ t ∈ ts, t.flag ≠ flag) (hn : ∀ t ∈ ts, 2 * S.turns t.flag + 12 ≤ n) (h : S.Rests ts w) :
    (b.defineEach (engine H (n + 14)) defs).run.Ends w fun r w' => (∃ b', r = .ok b') ∧
      ∃ ts', ts ⊆ ts' ∧ S.Rests ts' w' ∧ (∀ t ∈ ts', 2 * S.turns t.flag + 12 ≤ n) ∧
        ∀ flag, Binds defs flag → ∃ t ∈ ts', t.flag = flag := by
  induction defs generalizing b ts w with
  | nil =>
    refine ⟨⟨b, rfl⟩, ts, Finset.Subset.refl _, h, hn, ?_⟩
    rintro flag ⟨p, hp, -⟩
    exact absurd hp List.not_mem_nil
  | cons p defs ih =>
    obtain ⟨node, d⟩ := p
    obtain ⟨flag, hd, hn'⟩ := hdefs _ List.mem_cons_self
    obtain ⟨hhead, htail⟩ := List.pairwise_cons.1 hpair
    simp only [defineEach, ends_exceptBind]
    refine (define_option hb hd h hH hn hn' (hfree flag ⟨_, List.mem_cons_self, hd.links⟩)).imp ?_
    rintro _ w₁ ⟨b', t, rfl, hb', ht, h₁⟩
    refine (ih hb' (fun p hp => hdefs p (List.mem_cons_of_mem _ hp)) htail ?_ ?_ h₁).imp ?_
    · rintro flag' ⟨q, hq, hl⟩ t' ht'
      rcases Finset.mem_insert.1 ht' with rfl | ht'
      · rintro rfl
        exact hhead q hq _ (ht ▸ hd.links) hl
      · exact hfree flag' ⟨q, List.mem_cons_of_mem _ hq, hl⟩ t' ht'
    · intro t' ht'
      rcases Finset.mem_insert.1 ht' with rfl | ht'
      · rw [ht]
        exact hn'
      · exact hn t' ht'
    · rintro r w₂ ⟨hr, ts', hsub, h₂, hn₂, hall⟩
      refine ⟨hr, ts', (Finset.subset_insert _ _).trans hsub, h₂, hn₂, ?_⟩
      rintro flag' ⟨q, hq, hl⟩
      rcases List.mem_cons.1 hq with rfl | hq
      · exact ⟨t, hsub (Finset.mem_insert_self _ _), ht.trans (hd.links.unique hl)⟩
      · exact hall flag' ⟨q, hq, hl⟩

/-- Definitions of different flags are on one panel. -/
theorem exists_panel (b : BindingSet π) {size : Nat}
    (hdefs : ∀ p ∈ defs, (∃ x turns, p.1.Asks key x turns) ∧ ∃ flag, p.2.Links flag ∧ flag ≠ key)
    (hpair : defs.Pairwise fun p q => ∀ flag, p.2.Links flag → ¬q.2.Links flag) (hsize : ∀ p ∈ defs, p.1.size ≤ size) :
    ∃ S : Panel, S.target = b.target ∧ S.scope = b.scope ∧ S.key = key ∧
      ∀ p ∈ defs, ∃ flag, Matches S p.1 p.2 flag ∧ S.turns flag < size := by
  -- What a flag stands for is given by its only definition.
  have honly : ∀ p ∈ defs, ∀ q ∈ defs, ∀ flag, p.2.Links flag → q.2.Links flag → p = q := by
    intro p hp q hq flag hl hl'
    by_contra hne
    have : Std.Symm fun p q : Node × Descriptor => ∀ flag, p.2.Links flag → ¬q.2.Links flag := ⟨fun _ _ h flag hl hl' => h flag hl' hl⟩
    exact hpair.forall hp hq hne flag hl hl'
  have hchoice : ∀ flag, ∃ (x : Expr) (v : Value) (turns : Nat), ∀ p ∈ defs, p.2.Links flag →
      p.1.Asks key x turns ∧ x.Fixed b.scope v ∧ turns < size := by
    intro flag
    by_cases h : Binds defs flag
    · obtain ⟨p, hp, hl⟩ := h
      obtain ⟨⟨x, turns, hask⟩, -⟩ := hdefs p hp
      obtain ⟨m, hm⟩ := hask.stands
      obtain ⟨v, hv⟩ := hm.fixed b.scope
      refine ⟨x, v, turns, fun q hq hl' => ?_⟩
      obtain rfl := honly p hp q hq flag hl hl'
      exact ⟨hask, hv, hask.turns_lt.trans_le (hsize p hp)⟩
    · exact ⟨.value, .undefined, 0, fun p hp hl => absurd ⟨p, hp, hl⟩ h⟩
  choose member value turns hmember using hchoice
  refine ⟨⟨b.target, b.scope, key, member, value, turns⟩, rfl, rfl, rfl, fun p hp => ?_⟩
  obtain ⟨-, flag, hl, hne⟩ := hdefs p hp
  obtain ⟨hask, hx, hlt⟩ := hmember flag p hp hl
  exact ⟨flag, ⟨hask, hl, hx, hne⟩, hlt⟩

/-- Exclusive options stay consistent. -/
theorem exclusive_options {size : Nat} (hH : H.Quiet fun _ _ _ _ => True) (hw : w.AtRest) (hdepth : w.depth = 0)
    (hlimit : 3 ≤ w.config.maxDispatchDepth) (hfound : b.target.index < w.objects.size) (hscope : b.scope.value = .object b.target)
    (hnegates : b.operators.Negates) (hlist : w.contents.under b.target key = .list l) (hl : l.index < w.lists.size)
    (hdefs : ∀ p ∈ defs, (∃ x turns, p.1.Asks key x turns) ∧ ∃ flag, p.2.Links flag ∧ flag ≠ key)
    (hpair : defs.Pairwise fun p q => ∀ flag, p.2.Links flag → ¬q.2.Links flag) (hsize : ∀ p ∈ defs, p.1.size ≤ size)
    (hn : 2 * size + 26 ≤ n) :
    (b.defineEach (engine H n) defs).run.Ends w fun r w' => (∃ b', r = .ok b') ∧
      ∀ w'', Later (engine H n) b.target key (Binds defs) w' w'' → Consistent b defs w''.contents ∧
        ∀ m : Mutation, m.Allowed b.target key (Binds defs) w''.lists.size → ∃ w₃, m.run (engine H n) w'' = .ok ⟨⟩ w₃ := by
  obtain ⟨m, rfl⟩ : ∃ m, n = m + 14 := ⟨n - 14, by omega⟩
  obtain ⟨S, htarget, hs, rfl, hmatch⟩ := exists_panel b hdefs hpair hsize
  have hrests : S.Rests ∅ w := .empty hw hdepth hlimit (htarget ▸ hfound) (by rw [hs, htarget, hscope]) (htarget ▸ hlist) hl
  refine (defineEach_ends hH ⟨htarget.symm, hs.symm, hnegates⟩ (fun p hp => ?_) hpair (by simp) (by simp) hrests).imp fun r w' h' => ?_
  · obtain ⟨flag, hm, hlt⟩ := hmatch p hp
    exact ⟨flag, hm, by omega⟩
  obtain ⟨hr, ts, -, hrests', hfuel, hall⟩ := h'
  -- What holds between two operations is kept by each of them.
  have hstep : ∀ {w₁} {m' : Mutation}, S.Rests ts w₁ → m'.Allowed b.target S.key (Binds defs) w₁.lists.size →
      (m'.run (engine H (m + 14))).Ends w₁ fun _ w₂ => S.Rests ts w₂ := fun h hm =>
    h.mutation hH hfuel hall (htarget ▸ hm)
  have hlater : ∀ {w''}, Later (engine H (m + 14)) b.target S.key (Binds defs) w' w'' → S.Rests ts w'' := by
    intro w'' h
    induction h with
    | now => exact hrests'
    | made _ hmade ih => exact ih.adds ((Run.ends_of_eq hmade).1 (ListId.create_ends _))
    | changed _ hm hrun ih => exact (Run.ends_of_eq hrun).1 (hstep ih hm)
  refine ⟨hr, fun w'' h => ⟨fun p hp flag hlink => ?_, fun m' hm => ?_⟩⟩
  · obtain ⟨flag', hmatches, -⟩ := hmatch p hp
    obtain rfl := hmatches.links.unique hlink
    obtain ⟨t, ht, rfl⟩ := hall _ ⟨p, hp, hlink⟩
    refine ⟨_, hmatches.asks.means hnegates, ?_⟩
    rw [← htarget, ← hs]
    exact (hlater h).truthy ht
  · obtain ⟨_, w₃, hrun, -⟩ := Run.ends_iff.1 (hstep (hlater h) hm)
    exact ⟨w₃, hrun⟩

end BindingSet

/-! ## An object with a list -/

/-- An object that has a list under a key. -/
def World.shelf (items : List Value) (depth : Nat) : World (Callback Unit) (Env Unit Nat) where
  lists := #[{ items }]
  objects := #[{ entries := [("list", .list ⟨0⟩)] }]
  config := { maxDispatchDepth := depth }
  env := { host := 0 }

theorem World.atRest_shelf (items : List Value) : (World.shelf items 256).AtRest :=
  (World.atRest_fresh [[("list", .list ⟨0⟩)]] 0).adds ((Run.ends_of_eq rfl).1 (ListId.create_ends items))

/-- A tree that asks whether the list has what another tree stands for. -/
def Node.shelved (member : Node) : Node := .apply "has" [.property .value "list", member]

theorem Node.asks_shelved (text : String) :
    (Node.literal (.text text)).shelved.Asks "list" (.literal (.text text)) 0 :=
  .has rfl ⟨_, _, _, rfl, Or.inl rfl, rfl, rfl, rfl⟩ (.literal rfl ⟨fun _ => ⟨nofun, nofun⟩, nofun⟩ rfl)

namespace BindingSet

/-- Two flags that exclude each other. -/
def either (member : Node) : List (Node × Descriptor) :=
  [(member.shelved, .twoWay (.property .value "first")), (.apply "not" [member.shelved], .twoWay (.property .value "second"))]

theorem exclusive_options_either :
    ∃ b w', (defineEach (engine Host.counter 60) (.ofObject ⟨0⟩) (either (.literal (.text "a")))).run
        (World.shelf [.text "a"] 256) = .ok (.ok b) w' ∧
      ∃ w'', (Mutation.setEntry ⟨0⟩ "second" (.bool true)).run (engine Host.counter 60) w' = .ok ⟨⟩ w'' ∧
        Consistent (.ofObject ⟨0⟩ : BindingSet Unit) (either (.literal (.text "a"))) w''.contents := by
  have hreads : ∀ key : String, (Node.property .value key).Reads key := fun key => ⟨_, _, _, rfl, Or.inl rfl, rfl, rfl, rfl⟩
  have hlinks : ∀ {key flag : String}, (Descriptor.twoWay (.property .value key)).Links flag → key = flag := by
    rintro key flag ⟨n, he, hn⟩
    obtain rfl := Descriptor.twoWay.inj he
    exact (hreads key).unique hn
  have hasks := Node.asks_shelved "a"
  have hdefs : ∀ p ∈ either (.literal (.text "a")),
      (∃ x turns, p.1.Asks "list" x turns) ∧ ∃ flag, p.2.Links flag ∧ flag ≠ "list" := by
    simp only [either, List.mem_cons, List.not_mem_nil, or_false, forall_eq_or_imp, forall_eq]
    exact ⟨⟨⟨_, _, hasks⟩, "first", ⟨_, rfl, hreads _⟩, by decide⟩, ⟨_, _, .not rfl hasks⟩, "second", ⟨_, rfl, hreads _⟩, by decide⟩
  have hpair : (either (.literal (.text "a"))).Pairwise fun p q => ∀ flag, p.2.Links flag → ¬q.2.Links flag := by
    simp only [either, List.pairwise_cons, List.mem_cons, List.not_mem_nil, or_false, forall_eq]
    exact ⟨fun flag h h' => absurd ((hlinks h).trans (hlinks h').symm) (by decide), by simp⟩
  have hsecond : Binds (either (.literal (.text "a"))) "second" :=
    ⟨_, List.mem_cons_of_mem _ List.mem_cons_self, _, rfl, hreads "second"⟩
  have hrest := World.atRest_shelf [.text "a"]
  have hdepth : (World.shelf [.text "a"] 256).depth = 0 := rfl
  have hlimit : (World.shelf [.text "a"] 256).config.maxDispatchDepth = 256 := rfl
  have hfound : 0 < (World.shelf [.text "a"] 256).objects.size := Nat.zero_lt_one
  have hlist : (World.shelf [.text "a"] 256).contents.under ⟨0⟩ "list" = .list ⟨0⟩ := rfl
  have hl : 0 < (World.shelf [.text "a"] 256).lists.size := Nat.zero_lt_one
  generalize World.shelf [.text "a"] 256 = w at hrest hdepth hlimit hfound hlist hl ⊢
  have hends := @exclusive_options Unit Nat .counter 60 w (.ofObject ⟨0⟩) (either (.literal (.text "a"))) "list" ⟨0⟩ 12
    (fun _ _ _ w => ⟨w.env.host + 1, rfl, trivial⟩) hrest hdepth (by rw [hlimit]; decide) hfound rfl
    OperatorTable.negates_standard hlist hl hdefs hpair (by decide) (by decide)
  obtain ⟨r, w', hr, ⟨b, rfl⟩, hlater⟩ := Run.ends_iff.1 hends
  have hallowed : (Mutation.setEntry ⟨0⟩ "second" (.bool true)).Allowed ⟨0⟩ "list" (Binds (either (.literal (.text "a"))))
      w'.lists.size := ⟨rfl, Or.inl hsecond⟩
  obtain ⟨w'', hrun⟩ := (hlater w' .now).2 _ hallowed
  exact ⟨b, w', hr, w'', hrun, (hlater w'' (.changed .now hallowed hrun)).1⟩

/-- Whether a flag is true, and what a tree says that stands for its test, when bindings have been defined and the program has made
changes. -/
def flagAndTest (E : Engine π σ) (b : BindingSet π) (defs : List (Node × Descriptor)) (ms : List Mutation) (flag : String)
    (test : Node) : Live π σ (Option (Bool × Bool)) := do
  let .ok _ ← (b.defineEach E defs).run | return none
  Mutation.runAll E ms
  let .ok x ← (compile b.operators test).run | return none
  let c ← contents
  return some ((c.under b.target flag).truthy, (x.denote c b.scope).truthy)

/-- A flag differs from its test when a dispatch within dispatches is abandoned, when the value that is looked for depends on the
list, and when each evaluation of it makes a list. -/
theorem options_apart :
    (flagAndTest (engine Host.counter 20) (.ofObject ⟨0⟩) (either (.literal (.text "a")))
      [.setEntry ⟨0⟩ "second" (.bool true), .setEntry ⟨0⟩ "first" (.bool true)] "first"
      (Node.literal (.text "a")).shelved).Ends (World.shelf [] 2) (fun r _ => r = some (true, false)) ∧
    (flagAndTest (engine Host.counter 20) (.ofObject ⟨0⟩)
      [((Node.property (.property .value "list") "length").shelved, .twoWay (.property .value "first"))]
      [.setEntry ⟨0⟩ "first" (.bool true)] "first"
      (Node.property (.property .value "list") "length").shelved).Ends (World.shelf [] 256) (fun r _ => r = some (true, false)) ∧
    (flagAndTest (engine Host.counter 20) (.ofObject ⟨0⟩)
      [((Node.literal (.array [])).shelved, .twoWay (.property .value "first"))] [.setEntry ⟨0⟩ "first" (.bool true)] "first"
      (Node.literal (.array [])).shelved).Ends (World.shelf [] 256) (fun r _ => r = some (true, false)) := by
  refine ⟨?_, ?_, ?_⟩ <;> decide +kernel

end BindingSet

end LiveBindings
