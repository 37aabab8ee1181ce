import LiveBindings.Bindings
import LiveBindings.Proofs.Dispatch

/-!
# Compiling

Compiling a tree makes containers for its literals and changes nothing that was there (`World.Adds`). Trees of the kinds whose
value is computed from other values compile to scalar expressions that are no larger (`Node.Scalar.compile_ends`).
-/

namespace LiveBindings

variable {π σ : Type}

/-! ## Computations that may fail with a reason -/

section

variable {κ ε α β δ δ' : Type} {w : World κ ε}

@[simp] theorem ends_exceptPure (a : α) (Q : Except δ α → World κ ε → Prop) :
    Run.Ends (ExceptT.run (pure a : ExceptT δ (Run κ ε) α)) w Q ↔ Q (.ok a) w := Iff.rfl

@[simp] theorem ends_exceptThrow (e : δ) (Q : Except δ α → World κ ε → Prop) :
    Run.Ends (ExceptT.run (throw e : ExceptT δ (Run κ ε) α)) w Q ↔ Q (.error e) w := Iff.rfl

@[simp] theorem ends_exceptLift (act : Run κ ε α) (Q : Except δ α → World κ ε → Prop) :
    Run.Ends (ExceptT.run (ExceptT.lift act : ExceptT δ (Run κ ε) α)) w Q ↔ act.Ends w fun a => Q (.ok a) := by
  simp [ExceptT.run, ExceptT.lift, ExceptT.mk]

@[simp] theorem ends_exceptBind (act : ExceptT δ (Run κ ε) α) (f : α → ExceptT δ (Run κ ε) β)
    (Q : Except δ β → World κ ε → Prop) :
    Run.Ends (ExceptT.run (act >>= f)) w Q ↔ Run.Ends act.run w fun r w' =>
      match r with
      | .ok a => Run.Ends (f a).run w' Q
      | .error e => Q (.error e) w' := by
  change Run.Ends (ExceptT.run act >>= _) w Q ↔ _
  rw [Run.ends_bind]
  constructor
  · exact fun h => h.imp fun r w' h => by cases r <;> exact h
  · exact fun h => h.imp fun r w' h => by cases r <;> exact h

end

/-! ## New containers -/

/-- Containers were made, and nothing that was there changed. -/
structure World.Adds (w w' : World (Callback π) (Env π σ)) : Prop where
  cells : w'.layout.cells = w.layout.cells
  nextListener : w'.layout.nextListener = w.layout.nextListener
  listListeners : ∀ l, w'.layout.listListeners l = w.layout.listListeners l
  objectListeners : ∀ o, w'.layout.objectListeners o = w.layout.objectListeners o
  lists : w.layout.lists ≤ w'.layout.lists
  objects : w.layout.objects ≤ w'.layout.objects
  items : ∀ l, l.index < w.layout.lists → w'.contents.items l = w.contents.items l
  entries : ∀ o, o.index < w.layout.objects → w'.contents.entries o = w.contents.entries o
  host : w'.env.host = w.env.host
  depth : w'.depth = w.depth
  config : w'.config = w.config

namespace World.Adds

variable {w w' w'' : World (Callback π) (Env π σ)}

theorem refl (w : World (Callback π) (Env π σ)) : w.Adds w :=
  ⟨rfl, rfl, fun _ => rfl, fun _ => rfl, Nat.le_refl _, Nat.le_refl _, fun _ _ => rfl, fun _ _ => rfl, rfl, rfl, rfl⟩

theorem trans (h : w.Adds w') (h' : w'.Adds w'') : w.Adds w'' where
  cells := h'.cells.trans h.cells
  nextListener := h'.nextListener.trans h.nextListener
  listListeners l := (h'.listListeners l).trans (h.listListeners l)
  objectListeners o := (h'.objectListeners o).trans (h.objectListeners o)
  lists := Nat.le_trans h.lists h'.lists
  objects := Nat.le_trans h.objects h'.objects
  items l hl := (h'.items l (Nat.lt_of_lt_of_le hl h.lists)).trans (h.items l hl)
  entries o ho := (h'.entries o (Nat.lt_of_lt_of_le ho h.objects)).trans (h.entries o ho)
  host := h'.host.trans h.host
  depth := h'.depth.trans h.depth
  config := h'.config.trans h.config

theorem posted (h : w.Adds w') {id : ListenerId} {q : Post π} : w'.layout.Posted id q ↔ w.layout.Posted id q := by
  cases q <;> simp only [Layout.Posted, h.listListeners, h.objectListeners]

theorem tidy (h : w.Adds w') (ht : w.layout.Tidy) : w'.layout.Tidy where
  below hq := h.nextListener ▸ ht.below (h.posted.1 hq)
  unique hq hq' := ht.unique (h.posted.1 hq) (h.posted.1 hq')
  listOnce l := h.listListeners l ▸ ht.listOnce l
  objectOnce o := h.objectListeners o ▸ ht.objectOnce o

end World.Adds

section

variable {w : World (Callback π) (Env π σ)}

theorem ListId.create_ends (items : List Value) : (ListId.create items).Ends w fun _ w' => w.Adds w' := by
  simp only [ListId.create, Run.ends_bind, Run.ends_get, Run.ends_set, Run.ends_pure]
  have hcell : ∀ l : ListId, ({ w with lists := w.lists.push { items } } : World (Callback π) (Env π σ)).listCell l =
      if l.index = w.lists.size then { items } else w.listCell l := by
    intro l
    simp only [World.listCell, Array.getD_eq_getD_getElem?, Array.getElem?_push]
    split <;> rfl
  have hempty : ∀ l : ListId, l.index = w.lists.size → w.listCell l = {} := by
    intro l hl
    simp [World.listCell, Array.getD_eq_getD_getElem?, hl]
  refine ⟨rfl, rfl, fun l => ?_, fun _ => rfl, ?_, Nat.le_refl _, fun l hl => ?_, fun _ _ => rfl, rfl, rfl, rfl⟩
  · simp only [World.layout, hcell]
    split
    · rename_i hl
      rw [hempty l hl]
    · rfl
  · simp [World.layout]
  · simp only [World.contents, hcell]
    have hl' : l.index ≠ w.lists.size := Nat.ne_of_lt hl
    rw [if_neg hl']

theorem ObjectId.create_ends (entries : List (String × Value)) : (ObjectId.create entries).Ends w fun _ w' => w.Adds w' := by
  simp only [ObjectId.create, Run.ends_bind, Run.ends_stateGet, Run.ends_set, Run.ends_pure]
  have hcell : ∀ o : ObjectId, ({ w with objects := w.objects.push { entries } } : World (Callback π) (Env π σ)).objectCell o =
      if o.index = w.objects.size then { entries } else w.objectCell o := by
    intro o
    simp only [World.objectCell, Array.getD_eq_getD_getElem?, Array.getElem?_push]
    split <;> rfl
  have hempty : ∀ o : ObjectId, o.index = w.objects.size → w.objectCell o = {} := by
    intro o ho
    simp [World.objectCell, Array.getD_eq_getD_getElem?, ho]
  refine ⟨rfl, rfl, fun _ => rfl, fun o => ?_, Nat.le_refl _, ?_, fun _ _ => rfl, fun o ho => ?_, rfl, rfl, rfl⟩
  · simp only [World.layout, hcell]
    split
    · rename_i ho
      rw [hempty o ho]
    · rfl
  · simp [World.layout]
  · simp only [World.contents, hcell]
    have ho' : o.index ≠ w.objects.size := Nat.ne_of_lt ho
    rw [if_neg ho']

/-- The value of a literal. A list or object is made when the literal is compiled. -/
def Value.OfLiteral : Option Json → Value → Prop
  | none, v => v = .undefined
  | some .null, v => v = .null
  | some (.bool b), v => v = .bool b
  | some (.number n), v => v = .number n.toNumber
  | some (.text s), v => v = .text s
  | some (.array _), v => ∃ l, v = .list l
  | some (.object _), v => ∃ o, v = .object o

mutual

/-- Below the limit of nested dispatches every JSON text has a value. -/
theorem fromJson_ends {w : World (Callback π) (Env π σ)} (hd : w.depth < w.config.maxDispatchDepth) :
    ∀ j : Json, (fromJson j).Ends w fun v w' => w.Adds w' ∧ v.OfLiteral (some j)
  | .null | .bool _ | .number _ | .text _ => by simpa [fromJson, Value.OfLiteral] using World.Adds.refl w
  | .array js => by
    simp only [fromJson, Run.ends_bind, Run.ends_pure]
    refine (fromJsonItems_ends hd js).imp fun items w₁ h₁ => ?_
    exact (ListId.create_ends items).imp fun l w₂ h₂ => ⟨h₁.trans h₂, l, rfl⟩
  | .object ms => by
    simp only [fromJson, Run.ends_bind]
    refine (fromJsonMembers_ends hd ms).imp fun entries w₁ h₁ => ?_
    have hd₁ : w₁.depth < w₁.config.maxDispatchDepth := by rwa [h₁.depth, h₁.config]
    have made := fun (w₂ : World (Callback π) (Env π σ)) (h₂ : w₁.Adds w₂) =>
      (ObjectId.create_ends (w := w₂) entries).imp fun o w₃ h₃ =>
        (⟨h₁.trans (h₂.trans h₃), o, rfl⟩ : w.Adds w₃ ∧ (Value.object o).OfLiteral (some (.object ms)))
    split
    · rw [Run.ends_bind, Run.ends_nested hd₁]
      exact made _ ⟨rfl, rfl, fun _ => rfl, fun _ => rfl, Nat.le_refl _, Nat.le_refl _, fun _ _ => rfl, fun _ _ => rfl, rfl,
        rfl, rfl⟩
    · exact made _ (.refl w₁)

theorem fromJsonItems_ends {w : World (Callback π) (Env π σ)} (hd : w.depth < w.config.maxDispatchDepth) :
    ∀ js : List Json, (fromJsonItems js).Ends w fun _ w' => w.Adds w'
  | [] => World.Adds.refl w
  | j :: js => by
    simp only [fromJsonItems, Run.ends_bind, Run.ends_pure]
    refine (fromJson_ends hd j).imp ?_
    rintro _ w₁ ⟨h₁, _⟩
    have hd₁ : w₁.depth < w₁.config.maxDispatchDepth := by rwa [h₁.depth, h₁.config]
    exact (fromJsonItems_ends hd₁ js).imp fun _ w₂ h₂ => h₁.trans h₂

theorem fromJsonMembers_ends {w : World (Callback π) (Env π σ)} (hd : w.depth < w.config.maxDispatchDepth) :
    ∀ ms : List (String × Json), (fromJsonMembers ms).Ends w fun _ w' => w.Adds w'
  | [] => World.Adds.refl w
  | (k, j) :: ms => by
    simp only [fromJsonMembers, Run.ends_bind, Run.ends_pure]
    refine (fromJson_ends hd j).imp ?_
    rintro _ w₁ ⟨h₁, _⟩
    have hd₁ : w₁.depth < w₁.config.maxDispatchDepth := by rwa [h₁.depth, h₁.config]
    exact (fromJsonMembers_ends hd₁ ms).imp fun _ w₂ h₂ => h₁.trans h₂

end

end

/-! ## Trees of scalar expressions -/

namespace Node

/-- The expression that a tree of constants, registered values, properties, memberships, contexts, choices and operators stands
for. -/
inductive Means (t : OperatorTable) : Node → Expr → Prop
  | literal {n : Node} {v : Value} :
      t.meaning n.kind = .primitive .literal → v.OfLiteral n.head.value → Means t n (.literal v)
  | value {n : Node} : t.meaning n.kind = .primitive .value → Means t n .value
  | parameters {n : Node} : t.meaning n.kind = .primitive .parameters → Means t n .parameters
  | element {n : Node} {id : String} :
      t.meaning n.kind = .primitive .element → n.head.id = some id → Means t n (.element id)
  | component {n : Node} {label : String} :
      t.meaning n.kind = .primitive .component → n.head.label = some label → Means t n (.component label)
  | property {n a b : Node} {x y : Expr} :
      t.meaning n.kind = .construct .property ∨ t.meaning n.kind = .construct .get → n.positional = [a, b] →
        Means t a x → Means t b y → Means t n (.property x y)
  | membership {n a b : Node} {x y : Expr} :
      t.meaning n.kind = .construct .has → n.positional = [a, b] → Means t a x → Means t b y →
        Means t n (.membership x y)
  | within {n a b : Node} {x y : Expr} :
      t.meaning n.kind = .construct .within → n.positional = [a, b] → Means t a x → Means t b y → Means t n (.within x y)
  | choice {n p a b : Node} {q x y : Expr} :
      t.meaning n.kind = .construct .choice → n.positional = [p, a, b] → Means t p q → Means t a x → Means t b y →
        Means t n (.choice q x y)
  | operator {n : Node} {op : Operator} {xs : List Expr} :
      t.meaning n.kind = .operator op → xs.length = n.positional.length →
        (∀ (i : Nat) (a : Node) (x : Expr), n.positional[i]? = some a → xs[i]? = some x → Means t a x) →
          Means t n (.operator op.apply xs)

mutual

/-- The number of nodes in a tree, without named children. -/
def size : Node → Nat
  | .call _ ns => sizeAll ns + 1
  | _ => 1

def sizeAll : List Node → Nat
  | [] => 0
  | n :: ns => n.size + sizeAll ns

end

theorem size_eq (n : Node) : n.size = sizeAll n.positional + 1 := by
  cases n <;> rfl

/-- Expressions that are each no larger than a tree are together no larger than the trees. -/
theorem sizeAll_le {ns : List Node} {xs : List Expr} (hlen : xs.length = ns.length)
    (h : ∀ (i : Nat) (a : Node) (x : Expr), ns[i]? = some a → xs[i]? = some x → x.size ≤ a.size) :
    Expr.sizeAll xs ≤ sizeAll ns := by
  induction xs generalizing ns with
  | nil => simp [Expr.sizeAll]
  | cons x xs ih =>
    cases ns with
    | nil => cases hlen
    | cons a ns =>
      have h₀ := h 0 a x rfl rfl
      have hlen' : xs.length = ns.length := Nat.succ.inj hlen
      have h₁ := ih hlen' fun i a x ha hx => h (i + 1) a x ha hx
      simp only [Expr.sizeAll, sizeAll]
      omega

end Node

/-- The kinds of nodes whose value is computed from those of their children, or is registered or given; operators respect what
is the same. -/
def Meaning.IsScalar : Meaning → Prop
  | .primitive p => p ≠ .record
  | .construct c => c = .property ∨ c = .get ∨ c = .has ∨ c = .within ∨ c = .choice
  | .operator op => op.apply.RespectsSame
  | .unknown => False

/-- Every node of a tree is of a scalar kind. -/
inductive Node.Scalar (t : OperatorTable) : Node → Prop
  | leaf {h : Head} : (t.meaning h.kind).IsScalar → Scalar t (.leaf h)
  | call {h : Head} {ns : List Node} : (t.meaning h.kind).IsScalar → (∀ n ∈ ns, Scalar t n) → Scalar t (.call h ns)
  | fields {h : Head} {fs : List (String × Node)} : (t.meaning h.kind).IsScalar → Scalar t (.fields h fs)

namespace Node

variable {t : OperatorTable} {n : Node} {x : Expr}

theorem Scalar.kind (h : n.Scalar t) : (t.meaning n.kind).IsScalar := by
  cases h <;> assumption

theorem Scalar.positional (h : n.Scalar t) : ∀ a ∈ n.positional, a.Scalar t := by
  cases h with
  | leaf | fields => exact nofun
  | call _ h => exact h

/-- What a tree of scalar nodes stands for is scalar. -/
theorem Means.scalar (h : n.Means t x) (hn : n.Scalar t) : x.Scalar := by
  induction h with
  | literal => exact .literal _
  | value => exact .value
  | parameters => exact .parameters
  | element => exact .element _
  | component => exact .component _
  | property _ hp _ _ iha ihb =>
    exact .property (iha (hn.positional _ (by simp [hp]))) (ihb (hn.positional _ (by simp [hp])))
  | membership _ hp _ _ iha ihb =>
    exact .membership (iha (hn.positional _ (by simp [hp]))) (ihb (hn.positional _ (by simp [hp])))
  | within _ hp _ _ iha ihb =>
    exact .within (iha (hn.positional _ (by simp [hp]))) (ihb (hn.positional _ (by simp [hp])))
  | choice _ hp _ _ _ ihp iha ihb =>
    exact .choice (ihp (hn.positional _ (by simp [hp]))) (iha (hn.positional _ (by simp [hp])))
      (ihb (hn.positional _ (by simp [hp])))
  | @operator n op xs hm hlen _ ih =>
    have hop : op.apply.RespectsSame := by
      have := hn.kind
      rwa [hm] at this
    refine .operator hop fun x hx => ?_
    obtain ⟨i, hi⟩ := List.mem_iff_getElem?.1 hx
    have hlt : i < n.positional.length := hlen ▸ (List.getElem?_eq_some_iff.1 hi).1
    exact ih i _ x (List.getElem?_eq_getElem hlt) hi (hn.positional _ (List.getElem_mem hlt))

/-- An expression is no larger than a tree that stands for it. -/
theorem Means.size_le (h : n.Means t x) : x.size ≤ n.size := by
  induction h with
  | literal | value | parameters | element | component => rw [size_eq]; simp [Expr.size]
  | property _ hp _ _ iha ihb | membership _ hp _ _ iha ihb | within _ hp _ _ iha ihb =>
    rw [size_eq, hp]
    simp only [Expr.size, sizeAll]
    omega
  | choice _ hp _ _ _ ihp iha ihb =>
    rw [size_eq, hp]
    simp only [Expr.size, sizeAll]
    omega
  | @operator n op xs _ hlen _ ih =>
    rw [size_eq]
    simp only [Expr.size]
    exact Nat.succ_le_succ (sizeAll_le hlen ih)

end Node

section

variable {w : World (Callback π) (Env π σ)} {t : OperatorTable}

/-- What compiling leaves behind: containers were made, and it failed only if `P` holds of nothing. -/
def World.Compiled {α : Type} (w : World (Callback π) (Env π σ)) (P : α → Prop) (r : Except CompileError α)
    (w' : World (Callback π) (Env π σ)) : Prop :=
  w.Adds w' ∧ match r with
    | .ok a => P a
    | .error _ => ¬∃ a, P a

/-- Expressions in a row that trees in a row stand for. -/
def Node.MeansAll (t : OperatorTable) (ns : List Node) (xs : List Expr) : Prop :=
  xs.length = ns.length ∧ ∀ (i : Nat) (a : Node) (x : Expr), ns[i]? = some a → xs[i]? = some x → a.Means t x

/-- The expression of a construct with as many arguments as it asks for. -/
theorem Node.means_build {c : Construct} {k : Nat} {n : Node} {xs : List Expr} (hm : t.meaning n.kind = .construct c)
    (hc : c = .property ∨ c = .get ∨ c = .has ∨ c = .within ∨ c = .choice) (hk : c.arity = some k)
    (hlen : n.positional.length = k) (hxs : MeansAll t n.positional xs) : n.Means t (c.build xs) := by
  obtain ⟨hlen', hxs⟩ := hxs
  rcases hc with rfl | rfl | rfl | rfl | rfl <;> obtain rfl := Option.some.inj hk
  case inr.inr.inr.inr =>
    obtain ⟨p, a, b, hp⟩ := List.length_eq_three.1 hlen
    obtain ⟨q, x, y, rfl⟩ := List.length_eq_three.1 (hlen'.trans hlen)
    rw [hp] at hxs
    exact .choice hm hp (hxs 0 p q rfl rfl) (hxs 1 a x rfl rfl) (hxs 2 b y rfl rfl)
  all_goals
    obtain ⟨a, b, hp⟩ := List.length_eq_two.1 hlen
    obtain ⟨x, y, rfl⟩ := List.length_eq_two.1 (hlen'.trans hlen)
    rw [hp] at hxs
  · exact .property (Or.inl hm) hp (hxs 0 a x rfl rfl) (hxs 1 b y rfl rfl)
  · exact .property (Or.inr hm) hp (hxs 0 a x rfl rfl) (hxs 1 b y rfl rfl)
  · exact .membership hm hp (hxs 0 a x rfl rfl) (hxs 1 b y rfl rfl)
  · exact .within hm hp (hxs 0 a x rfl rfl) (hxs 1 b y rfl rfl)

/-- A construct stands for something only if it has as many arguments as it asks for, and these stand for something. -/
theorem Node.Means.of_construct {c : Construct} {n : Node} {x : Expr} (hm : t.meaning n.kind = .construct c)
    (h : n.Means t x) : c.arity = some n.positional.length ∧ ∃ xs, MeansAll t n.positional xs := by
  have two : ∀ {a b : Node} {x y : Expr}, n.positional = [a, b] → a.Means t x → b.Means t y →
      ∃ xs, MeansAll t n.positional xs := by
    intro a b x y hp ha hb
    refine ⟨[x, y], by rw [hp]; rfl, fun i u v hu hv => ?_⟩
    rw [hp] at hu
    rcases i with _ | _ | i <;> simp_all
  cases h with
  | property hc hp ha hb =>
    rcases hc with hc | hc <;> cases hm.symm.trans hc <;> exact ⟨by simp [hp, Construct.arity], two hp ha hb⟩
  | membership hc hp ha hb | within hc hp ha hb =>
    cases hm.symm.trans hc
    exact ⟨by simp [hp, Construct.arity], two hp ha hb⟩
  | @choice _ p a b q x y hc hp hq ha hb =>
    cases hm.symm.trans hc
    refine ⟨by simp [hp, Construct.arity], [q, x, y], by rw [hp]; rfl, fun i u v hu hv => ?_⟩
    rw [hp] at hu
    rcases i with _ | _ | _ | i <;> simp_all
  | _ => simp_all

theorem Node.Means.of_operator {op : Operator} {n : Node} {x : Expr} (hm : t.meaning n.kind = .operator op)
    (h : n.Means t x) : ∃ xs, x = .operator op.apply xs ∧ MeansAll t n.positional xs := by
  cases h with
  | operator hm' hlen hxs =>
    obtain rfl : _ = op := by simpa [hm] using hm'.symm
    exact ⟨_, rfl, hlen, hxs⟩
  | _ => simp_all

/-- A node of a scalar kind compiles to what it stands for when its children do. -/
theorem assemble_ends {node : Node} {args : Compiling (Callback π) (Env π σ) (List Expr)}
    {fields : Option (Compiling (Callback π) (Env π σ) (List (String × Expr)))} (hk : (t.meaning node.kind).IsScalar)
    (hd : w.depth < w.config.maxDispatchDepth) (hargs : args.run.Ends w (w.Compiled (Node.MeansAll t node.positional))) :
    (assemble t node args fields).run.Ends w (w.Compiled (node.Means t)) := by
  unfold assemble
  cases hm : t.meaning node.kind with
  | unknown => exact (hm ▸ hk : Meaning.unknown.IsScalar).elim
  | primitive p =>
    simp only
    have done : ∀ x : Expr, node.Means t x → w.Compiled (node.Means t) (.ok x) w := fun x hx => ⟨.refl w, hx⟩
    cases p with
    | literal =>
      cases hv : node.head.value with
      | none => exact done _ (.literal hm (by rw [hv]; rfl))
      | some j =>
        simp only [ends_exceptBind, ends_exceptLift]
        refine (fromJson_ends hd j).imp ?_
        rintro v w' ⟨h, hlit⟩
        exact ⟨h, .literal hm (hv ▸ hlit)⟩
    | value => exact done _ (.value hm)
    | parameters => exact done _ (.parameters hm)
    | element =>
      cases hi : node.head.id with
      | none => exact ⟨.refl w, by rintro ⟨x, hx⟩; cases hx <;> simp_all⟩
      | some id => exact done _ (.element hm hi)
    | component =>
      cases hl : node.head.label with
      | none => exact ⟨.refl w, by rintro ⟨x, hx⟩; cases hx <;> simp_all⟩
      | some label => exact done _ (.component hm hl)
    | record => exact absurd rfl (hm ▸ hk : (Meaning.primitive .record).IsScalar)
  | construct c =>
    simp only
    have built : c.arity = some node.positional.length →
        (do return c.build (← args) : Compiling (Callback π) (Env π σ) Expr).run.Ends w (w.Compiled (node.Means t)) := by
      intro harity
      simp only [ends_exceptBind]
      refine hargs.imp ?_
      rintro r w' ⟨hw, h⟩
      cases r with
      | error e => exact ⟨hw, fun ⟨x, hx⟩ => h (hx.of_construct hm).2⟩
      | ok xs => exact ⟨hw, Node.means_build hm (hm ▸ hk : (Meaning.construct c).IsScalar) harity rfl h⟩
    cases harity : c.arity with
    | none =>
      rcases (hm ▸ hk : (Meaning.construct c).IsScalar) with rfl | rfl | rfl | rfl | rfl <;> simp [Construct.arity] at harity
    | some k =>
      simp only
      split
      · rename_i hlen
        simp only [ends_exceptBind, ends_exceptThrow]
        refine ⟨.refl w, fun ⟨x, hx⟩ => hlen ?_⟩
        exact (Option.some.inj (harity.symm.trans (hx.of_construct hm).1)).symm
      · rename_i hlen
        exact built (by rw [harity, Decidable.not_not.1 hlen])
  | operator op =>
    simp only [ends_exceptBind]
    refine hargs.imp ?_
    rintro r w' ⟨hw, h⟩
    cases r with
    | error e =>
      refine ⟨hw, fun ⟨x, hx⟩ => h ?_⟩
      obtain ⟨xs, -, hxs⟩ := hx.of_operator hm
      exact ⟨xs, hxs⟩
    | ok xs => exact ⟨hw, .operator hm h.1 h.2⟩

theorem compileAll_ends {ns : List Node} (hd : w.depth < w.config.maxDispatchDepth)
    (h : ∀ n ∈ ns, ∀ {w : World (Callback π) (Env π σ)}, w.depth < w.config.maxDispatchDepth →
      (compile t n).run.Ends w (w.Compiled (n.Means t))) :
    (compileAll t ns).run.Ends w (w.Compiled (Node.MeansAll t ns)) := by
  induction ns generalizing w with
  | nil => exact ⟨.refl w, rfl, nofun⟩
  | cons n ns ih =>
    simp only [compileAll, ends_exceptBind]
    refine (h n (by simp) hd).imp ?_
    rintro r w₁ ⟨hw₁, h₁⟩
    -- What the row stands for is what its first tree and the others stand for.
    have split : ∀ {ys}, Node.MeansAll t (n :: ns) ys → ∃ y zs, ys = y :: zs ∧ n.Means t y ∧ Node.MeansAll t ns zs := by
      rintro ys ⟨hlen, hys⟩
      obtain ⟨y, zs, rfl⟩ := List.exists_cons_of_length_eq_add_one hlen
      exact ⟨y, zs, rfl, hys 0 n y rfl rfl, Nat.succ.inj hlen, fun i a x ha hx => hys (i + 1) a x ha hx⟩
    cases r with
    | error e =>
      refine ⟨hw₁, fun ⟨ys, hys⟩ => h₁ ?_⟩
      obtain ⟨y, -, -, hy, -⟩ := split hys
      exact ⟨y, hy⟩
    | ok x =>
      have hd₁ : w₁.depth < w₁.config.maxDispatchDepth := by rwa [hw₁.depth, hw₁.config]
      simp only
      refine (ih hd₁ fun n hn => h n (by simp [hn])).imp ?_
      rintro r w₂ ⟨hw₂, h₂⟩
      cases r with
      | error e =>
        refine ⟨hw₁.trans hw₂, fun ⟨ys, hys⟩ => h₂ ?_⟩
        obtain ⟨-, zs, -, -, hzs⟩ := split hys
        exact ⟨zs, hzs⟩
      | ok xs =>
        obtain ⟨hlen, hxs⟩ := h₂
        refine ⟨hw₁.trans hw₂, by simp [hlen], fun i a y ha hy => ?_⟩
        cases i with
        | zero =>
          obtain rfl : n = a := by simpa using ha
          obtain rfl : x = y := by simpa using hy
          exact h₁
        | succ i => exact hxs i a y (by simpa using ha) (by simpa using hy)

/-- A tree of scalar nodes compiles to what it stands for, if it stands for anything. -/
theorem Node.Scalar.compile_ends {n : Node} (hn : n.Scalar t) (hd : w.depth < w.config.maxDispatchDepth) :
    (compile t n).run.Ends w (w.Compiled (n.Means t)) := by
  induction hn generalizing w with
  | leaf hk | fields hk =>
    rw [compile]
    exact assemble_ends hk hd ⟨.refl w, rfl, nofun⟩
  | @call h ns hk _ ih =>
    rw [compile]
    exact assemble_ends hk hd (compileAll_ends hd fun n hn _ hd => ih n hn hd)

end

end LiveBindings
