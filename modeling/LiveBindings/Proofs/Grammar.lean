import LiveBindings.Proofs.Compiling
import LiveBindings.Proofs.Limit

/-!
# Which trees compile

The trees that compile are those of a grammar (`Node.WellFormed`). Compiling visits the nodes of a tree in pre-order from the left
(`Node.visited`) and comes to what the first of them that is in its way says: a flaw of the node is the error, and a literal with
entries cannot be made where no object may be changed (`compile_comes`). So a tree compiles exactly when it is well-formed, and
otherwise the error is that of the first node with a flaw (`Node.compile_verdict`).
-/

namespace LiveBindings

variable {κ ε α β : Type}

/-! ## The grammar -/

namespace Node

/-- What a tree has to be like to compile. A primitive other than a record has no children that count, and named children do not
count as arguments. -/
inductive WellFormed (t : OperatorTable) : Node → Prop
  | literal {n : Node} : t.meaning n.kind = .primitive .literal → WellFormed t n
  | value {n : Node} : t.meaning n.kind = .primitive .value → WellFormed t n
  | parameters {n : Node} : t.meaning n.kind = .primitive .parameters → WellFormed t n
  | element {n : Node} {id : String} : t.meaning n.kind = .primitive .element → n.head.id = some id → WellFormed t n
  | component {n : Node} {label : String} :
      t.meaning n.kind = .primitive .component → n.head.label = some label → WellFormed t n
  | record {n : Node} {fs : List (String × Node)} :
      t.meaning n.kind = .primitive .record → n.named = some fs → (∀ f ∈ fs, WellFormed t f.2) → WellFormed t n
  | construct {n : Node} {c : Construct} :
      t.meaning n.kind = .construct c → (∀ k, c.arity = some k → n.positional.length = k) →
        (∀ a ∈ n.positional, WellFormed t a) → WellFormed t n
  | operator {n : Node} {op : Operator} :
      t.meaning n.kind = .operator op → (∀ a ∈ n.positional, WellFormed t a) → WellFormed t n

/-- What is wrong with a node itself, whatever its children are like. -/
def flaw? (t : OperatorTable) (n : Node) : Option CompileError :=
  match t.meaning n.kind with
  | .primitive .element => if n.head.id.isSome then none else some (.missingField n.kind "id")
  | .primitive .component => if n.head.label.isSome then none else some (.missingField n.kind "label")
  | .primitive .record => if n.named.isSome then none else some (.missingField n.kind "args")
  | .primitive _ | .operator _ => none
  | .construct c =>
    match c.arity with
    | some k => if n.positional.length = k then none else some (.arity n.kind k n.positional.length)
    | none => none
  | .unknown => some (.unknownNode n)

end Node

/-- Whether a sequence of arguments is evaluated. -/
def Meaning.takesArgs : Meaning → Bool
  | construct _ | operator _ => true
  | _ => false

/-- Whether named children are evaluated. -/
def Meaning.takesFields : Meaning → Bool
  | primitive .record => true
  | _ => false

mutual

/-- The nodes that matter to the meaning of a tree, each before its children and these from the left. -/
def Node.visited (t : OperatorTable) : Node → List Node
  | .leaf h => [.leaf h]
  | .call h ns => .call h ns :: if (t.meaning h.kind).takesArgs then visitedAll t ns else []
  | .fields h fs => .fields h fs :: if (t.meaning h.kind).takesFields then visitedFields t fs else []

def visitedAll (t : OperatorTable) : List Node → List Node
  | [] => []
  | n :: ns => n.visited t ++ visitedAll t ns

def visitedFields (t : OperatorTable) : List (String × Node) → List Node
  | [] => []
  | (_, n) :: fs => n.visited t ++ visitedFields t fs

end

section

variable {t : OperatorTable}

/-- A tree with a flawless root is well-formed when the children that count are. -/
theorem Node.wellFormed_of_flawless {n : Node} (h : n.flaw? t = none)
    (hargs : (t.meaning n.kind).takesArgs → ∀ a ∈ n.positional, a.WellFormed t)
    (hfields : (t.meaning n.kind).takesFields → ∀ fs, n.named = some fs → ∀ f ∈ fs, f.2.WellFormed t) : n.WellFormed t := by
  unfold flaw? at h
  cases hm : t.meaning n.kind with
  | unknown => simp [hm] at h
  | operator op => exact .operator hm (hargs (by simp [hm, Meaning.takesArgs]))
  | construct c =>
    refine .construct hm (fun k hk => ?_) (hargs (by simp [hm, Meaning.takesArgs]))
    simpa [hm, hk] using h
  | primitive p =>
    cases p with
    | literal => exact .literal hm
    | value => exact .value hm
    | parameters => exact .parameters hm
    | element =>
      have hid : n.head.id.isSome := by simpa [hm, Option.isSome_iff_ne_none] using h
      exact .element hm (Option.some_get hid).symm
    | component =>
      have hlabel : n.head.label.isSome := by simpa [hm, Option.isSome_iff_ne_none] using h
      exact .component hm (Option.some_get hlabel).symm
    | record =>
      have hnamed : n.named.isSome := by simpa [hm, Option.isSome_iff_ne_none] using h
      have hfs := (Option.some_get hnamed).symm
      exact .record hm hfs (hfields (by simp [hm, Meaning.takesFields]) _ hfs)

/-- A well-formed tree has a flawless root. -/
theorem Node.WellFormed.flawless {n : Node} (h : n.WellFormed t) : n.flaw? t = none := by
  unfold flaw?
  cases h with
  | literal hm | value hm | parameters hm | operator hm _ => rw [hm]
  | element hm hid => simp [hm, hid]
  | component hm hlabel => simp [hm, hlabel]
  | record hm hfs _ => simp [hm, hfs]
  | @construct _ c hm hcount _ =>
    cases hk : c.arity with
    | none => simp [hm, hk]
    | some k => simp [hm, hk, hcount k hk]

/-- So are the arguments that it evaluates. -/
theorem Node.WellFormed.args {n : Node} (h : n.WellFormed t) (ht : (t.meaning n.kind).takesArgs) :
    ∀ a ∈ n.positional, a.WellFormed t := by
  cases h with
  | construct _ _ hall | operator _ hall => exact hall
  | literal hm | value hm | parameters hm | element hm _ | component hm _ | record hm _ _ =>
    rw [hm] at ht
    cases ht

theorem Node.WellFormed.fields {n : Node} (h : n.WellFormed t) (ht : (t.meaning n.kind).takesFields) {fs : List (String × Node)}
    (hfs : n.named = some fs) : ∀ f ∈ fs, f.2.WellFormed t := by
  cases h with
  | record _ hfs' hall => exact Option.some.inj (hfs'.symm.trans hfs) ▸ hall
  | literal hm | value hm | parameters hm | element hm _ | component hm _ | construct hm _ _ | operator hm _ =>
    rw [hm] at ht
    cases ht

mutual

/-- A tree is well-formed exactly when no node that matters has a flaw. -/
theorem Node.wellFormed_iff : ∀ n : Node, n.WellFormed t ↔ ∀ m ∈ n.visited t, m.flaw? t = none
  | .leaf h => by
    rw [Node.visited]
    refine ⟨fun hn m hm => List.mem_singleton.1 hm ▸ hn.flawless, fun hall => ?_⟩
    exact Node.wellFormed_of_flawless (hall _ (List.mem_singleton_self _)) (fun _ => List.forall_mem_nil _) fun _ _ h => by cases h
  | .call h ns => by
    rw [Node.visited, List.forall_mem_cons]
    split
    · rename_i ht
      rw [visitedAll_flawless]
      constructor
      · exact fun hn => ⟨hn.flawless, hn.args ht⟩
      · rintro ⟨hn, hns⟩
        exact Node.wellFormed_of_flawless hn (fun _ => hns) fun _ _ h => by cases h
    · rename_i ht
      constructor
      · exact fun hn => ⟨hn.flawless, List.forall_mem_nil _⟩
      · rintro ⟨hn, -⟩
        exact Node.wellFormed_of_flawless hn (fun h => absurd h ht) fun _ _ h => by cases h
  | .fields h fs => by
    rw [Node.visited, List.forall_mem_cons]
    split
    · rename_i ht
      rw [visitedFields_flawless]
      constructor
      · exact fun hn => ⟨hn.flawless, hn.fields ht rfl⟩
      · rintro ⟨hn, hfs⟩
        exact Node.wellFormed_of_flawless hn (fun _ => List.forall_mem_nil _) fun _ _ h => Option.some.inj h ▸ hfs
    · rename_i ht
      constructor
      · exact fun hn => ⟨hn.flawless, List.forall_mem_nil _⟩
      · rintro ⟨hn, -⟩
        exact Node.wellFormed_of_flawless hn (fun _ => List.forall_mem_nil _) fun h => absurd h ht

theorem visitedAll_flawless : ∀ ns : List Node,
    (∀ m ∈ visitedAll t ns, m.flaw? t = none) ↔ ∀ n ∈ ns, n.WellFormed t
  | [] => by simp [visitedAll]
  | n :: ns => by
    rw [visitedAll, List.forall_mem_append, List.forall_mem_cons, visitedAll_flawless ns, Node.wellFormed_iff n]

theorem visitedFields_flawless : ∀ fs : List (String × Node),
    (∀ m ∈ visitedFields t fs, m.flaw? t = none) ↔ ∀ f ∈ fs, f.2.WellFormed t
  | [] => by simp [visitedFields]
  | (_, n) :: fs => by
    rw [visitedFields, List.forall_mem_append, List.forall_mem_cons, visitedFields_flawless fs, Node.wellFormed_iff n]

end

end

/-! ## What compiling comes to -/

mutual

/-- Whether there is an object with entries in a JSON value. -/
def Json.hasEntries : Json → Bool
  | .array js => anyHasEntries js
  | .object ms => !ms.isEmpty
  | _ => false

def anyHasEntries : List Json → Bool
  | [] => false
  | j :: js => j.hasEntries || anyHasEntries js

end

/-- Whether compiling a node, apart from its children, sets entries of a new object. -/
def Node.setsEntries (t : OperatorTable) (n : Node) : Bool :=
  match t.meaning n.kind with
  | .primitive .literal => n.head.value.any Json.hasEntries
  | _ => false

/-- What keeps a tree from compiling. -/
inductive Obstacle
  | flaw (e : CompileError)
  /-- An object cannot be made as it should be. -/
  | refusal

/-- What of a node itself keeps a tree from compiling. -/
def Node.obstacle? (t : OperatorTable) (refuses : Bool) (n : Node) : Option Obstacle :=
  if refuses && n.setsEntries t then some .refusal else (n.flaw? t).map .flaw

/-- With `w` as far as limits are concerned, a computation comes to a result, or to what is in its way. -/
def Compiling.Comes (w : World κ ε) (act : Compiling κ ε α) (obstacle : Option Obstacle) : Prop :=
  ∀ u : World κ ε, u.depth = w.depth → u.config = w.config →
    match obstacle with
    | none => ∃ a u', act.run u = .ok (.ok a) u' ∧ u'.depth = w.depth ∧ u'.config = w.config
    | some (.flaw e) => ∃ u', act.run u = .ok (.error e) u'
    | some .refusal => ∃ u', act.run u = .error (.depthLimit .object w.depth) u'

namespace Compiling.Comes

variable {w : World κ ε} {o o' : Option Obstacle}

theorem pure (a : α) : Comes w (Pure.pure a) none := fun u hd hc => ⟨a, u, rfl, hd, hc⟩

theorem throw (e : CompileError) : Comes w (MonadExcept.throw e : Compiling κ ε α) (some (.flaw e)) := fun u _ _ => ⟨u, rfl⟩

/-- What comes first is in the way. -/
theorem bind {act : Compiling κ ε α} {f : α → Compiling κ ε β} (h : Comes w act o) (hf : ∀ a, Comes w (f a) o') :
    Comes w (act >>= f) (o.or o') := by
  intro u hd hc
  have hrun : (act >>= f).run u = EStateM.bind act.run (ExceptT.bindCont f) u := rfl
  have h := h u hd hc
  rw [hrun, EStateM.bind]
  cases o with
  | none =>
    obtain ⟨a, u', hact, hd', hc'⟩ := h
    rw [hact]
    exact hf a u' hd' hc'
  | some o =>
    cases o with
    | flaw e =>
      obtain ⟨u', hact⟩ := h
      rw [hact]
      exact ⟨u', rfl⟩
    | refusal =>
      obtain ⟨u', hact⟩ := h
      rw [hact]
      exact ⟨u', rfl⟩

/-- A result is made something else of. -/
theorem map {act : Compiling κ ε α} (h : Comes w act o) (f : α → β) : Comes w (act >>= fun a => Pure.pure (f a)) o := by
  simpa using h.bind fun a => pure (f a)

end Compiling.Comes

/-- A computation that nothing but a refusal keeps from ending, and that leaves the limits alone. -/
def Run.Unless (w : World κ ε) (refused : Bool) (act : Run κ ε α) : Prop :=
  ∀ u : World κ ε, u.depth = w.depth → u.config = w.config →
    if refused then ∃ u', act u = .error (.depthLimit .object w.depth) u'
    else ∃ a u', act u = .ok a u' ∧ u'.depth = w.depth ∧ u'.config = w.config

namespace Run.Unless

variable {w : World κ ε} {b b' : Bool} {act : Run κ ε α}

theorem pure (a : α) : Run.Unless w false (Pure.pure a) := fun u hd hc => ⟨a, u, rfl, hd, hc⟩

theorem bind {f : α → Run κ ε β} (h : Run.Unless w b act) (hf : ∀ a, Run.Unless w b' (f a)) :
    Run.Unless w (b || b') (act >>= f) := by
  intro u hd hc
  have h := h u hd hc
  change if _ then ∃ u', EStateM.bind act f u = _ else ∃ a u', EStateM.bind act f u = _ ∧ _
  unfold EStateM.bind
  cases b with
  | true =>
    obtain ⟨u', hact⟩ := h
    rw [hact]
    exact ⟨u', rfl⟩
  | false =>
    obtain ⟨a, u', hact, hd', hc'⟩ := h
    rw [hact]
    exact hf a u' hd' hc'

theorem map (h : Run.Unless w b act) (f : α → β) : Run.Unless w b (act >>= fun a => Pure.pure (f a)) := by
  simpa using h.bind fun a => pure (f a)

theorem createList (items : List Value) : Run.Unless w false (ListId.create items) := fun _ hd hc => ⟨_, _, rfl, hd, hc⟩

theorem createObject (entries : List (String × Value)) : Run.Unless w false (ObjectId.create entries) :=
  fun _ hd hc => ⟨_, _, rfl, hd, hc⟩

/-- A dispatch of which nobody is told. -/
theorem unheard : Run.Unless w w.refuses (nested .object (Pure.pure ()) (Pure.pure ())) := by
  intro u hd hc
  change if _ then ∃ u', (if _ then _ else _ : Run κ ε Unit) u = _ else ∃ a u', (if _ then _ else _ : Run κ ε Unit) u = _ ∧ _
  rw [hd, hc, World.refuses]
  by_cases limit : w.config.maxDispatchDepth ≤ w.depth
  · cases hp : w.config.onDepthExceeded with
    | panic => simpa [limit] using ⟨u, rfl⟩
    | skip => simpa [limit] using ⟨(), u, rfl, hd, hc⟩
  · simpa [limit] using ⟨(), _, rfl, by simp [hd], by simp [hc]⟩

end Run.Unless

section

variable {t : OperatorTable} {w : World κ ε}

mutual

/-- Making containers from JSON is refused if entries have to be set and changes are refused. -/
theorem fromJson_unless : ∀ j : Json, Run.Unless w (w.refuses && j.hasEntries) (fromJson j)
  | .null | .bool _ | .number _ | .text _ => by simpa [Json.hasEntries, fromJson] using .pure _
  | .array js => by
    rw [fromJson, Json.hasEntries]
    simpa using (fromJsonItems_unless js).bind fun items => (Run.Unless.createList items).map Value.list
  | .object [] => by
    simpa [fromJson, fromJsonMembers, Json.hasEntries] using (Run.Unless.createObject []).map Value.object
  | .object ((k, j) :: ms) => by
    -- Whether or not a member is refused, the entries are.
    have hm := (fromJson_unless j).bind fun v => (fromJsonMembers_unless ms).bind fun vs =>
      Run.Unless.unheard.bind fun _ => (Run.Unless.createObject ((k, v) :: vs)).map Value.object
    have hb : (w.refuses && j.hasEntries || (w.refuses && ms.any (·.2.hasEntries) || (w.refuses || false))) = w.refuses := by
      cases w.refuses <;> simp
    rw [hb] at hm
    simpa [fromJson, fromJsonMembers, Json.hasEntries] using hm

theorem fromJsonItems_unless : ∀ js : List Json, Run.Unless w (w.refuses && anyHasEntries js) (fromJsonItems js)
  | [] => by simpa [anyHasEntries, fromJsonItems] using .pure []
  | j :: js => by
    rw [fromJsonItems, anyHasEntries, Bool.and_or_distrib_left]
    exact (fromJson_unless j).bind fun v => (fromJsonItems_unless js).map (v :: ·)

theorem fromJsonMembers_unless : ∀ ms : List (String × Json),
    Run.Unless w (w.refuses && ms.any (·.2.hasEntries)) (fromJsonMembers ms)
  | [] => by simpa [fromJsonMembers] using .pure []
  | (k, j) :: ms => by
    rw [fromJsonMembers, List.any_cons, Bool.and_or_distrib_left]
    exact (fromJson_unless j).bind fun v => (fromJsonMembers_unless ms).map ((k, v) :: ·)

end

/-- What JSON is made into. -/
theorem Compiling.Comes.lift {b : Bool} {act : Run κ ε α} (h : Run.Unless w b act) :
    Compiling.Comes w (ExceptT.lift act) (if b then some .refusal else none) := by
  intro u hd hc
  have h := h u hd hc
  change match (if b then some .refusal else none : Option Obstacle) with
    | none => ∃ a u', EStateM.map Except.ok act u = .ok (.ok a) u' ∧ _
    | some (.flaw e) => ∃ u', EStateM.map Except.ok act u = .ok (.error e) u'
    | some .refusal => ∃ u', EStateM.map Except.ok act u = .error _ u'
  unfold EStateM.map
  cases b with
  | true =>
    obtain ⟨u', hact⟩ := h
    exact ⟨u', by rw [hact]⟩
  | false =>
    obtain ⟨a, u', hact, hd', hc'⟩ := h
    exact ⟨a, u', by rw [hact], hd', hc'⟩

/-- Compiling a node comes to what is in its way, or else to what is in the way of its children. -/
theorem assemble_comes {node : Node} {args : Compiling κ ε (List Expr)}
    {fields : Option (Compiling κ ε (List (String × Expr)))} {a b : Option Obstacle} (hargs : Compiling.Comes w args a)
    (hnamed : fields.isSome = node.named.isSome) (hfields : ∀ act ∈ fields, Compiling.Comes w act b) :
    Compiling.Comes w (assemble t node args fields) ((node.obstacle? t w.refuses).or
      ((if (t.meaning node.kind).takesArgs then a else none).or (if (t.meaning node.kind).takesFields then b else none))) := by
  unfold assemble Node.obstacle? Node.setsEntries Node.flaw?
  cases hm : t.meaning node.kind with
  | unknown => simpa [Meaning.takesArgs, Meaning.takesFields] using Compiling.Comes.throw _
  | operator op => simpa [Meaning.takesArgs, Meaning.takesFields] using hargs.map (Expr.operator op.apply)
  | construct c =>
    have hbuilt := hargs.map c.build
    cases hk : c.arity with
    | none => simpa [hk, Meaning.takesArgs, Meaning.takesFields] using hbuilt
    | some k =>
      by_cases hlen : node.positional.length = k
      · simpa [hk, hlen, Meaning.takesArgs, Meaning.takesFields] using hbuilt
      · simpa [hk, hlen, Meaning.takesArgs, Meaning.takesFields] using
          (Compiling.Comes.throw (.arity node.kind k node.positional.length)).bind fun _ : PUnit => hbuilt
  | primitive p =>
    cases p with
    | value | parameters => simpa [Meaning.takesArgs, Meaning.takesFields] using Compiling.Comes.pure _
    | literal =>
      cases hv : node.head.value with
      | none => simpa [Meaning.takesArgs, Meaning.takesFields] using Compiling.Comes.pure _
      | some j =>
        simpa [Meaning.takesArgs, Meaning.takesFields] using (Compiling.Comes.lift (fromJson_unless j)).map Expr.literal
    | element =>
      cases hid : node.head.id with
      | none => simpa [Meaning.takesArgs, Meaning.takesFields] using Compiling.Comes.throw _
      | some id => simpa [Meaning.takesArgs, Meaning.takesFields] using Compiling.Comes.pure _
    | component =>
      cases hlabel : node.head.label with
      | none => simpa [Meaning.takesArgs, Meaning.takesFields] using Compiling.Comes.throw _
      | some label => simpa [Meaning.takesArgs, Meaning.takesFields] using Compiling.Comes.pure _
    | record =>
      cases fields with
      | none => simpa [← hnamed, Meaning.takesArgs, Meaning.takesFields] using Compiling.Comes.throw _
      | some act => simpa [← hnamed, Meaning.takesArgs, Meaning.takesFields] using (hfields act rfl).map Expr.record

mutual

/-- Compiling a tree comes to what the first of the visited nodes says that is in its way. -/
theorem compile_comes : ∀ n : Node, Compiling.Comes w (compile t n) ((n.visited t).findSome? (Node.obstacle? t w.refuses))
  | .leaf h => by
    have hnode : Compiling.Comes w (assemble t (.leaf h) (pure []) none) _ := assemble_comes (b := none) (.pure []) rfl (by simp)
    rw [Node.visited, List.findSome?_singleton, compile]
    simpa using hnode
  | .call h ns => by
    have hnode : Compiling.Comes w (assemble t (.call h ns) (compileAll t ns) none) _ :=
      assemble_comes (b := none) (compileAll_comes ns) rfl (by simp)
    rw [Node.visited, ← List.singleton_append, List.findSome?_append, List.findSome?_singleton, compile]
    simp only [ite_self, Option.or_none] at hnode
    cases ht : (t.meaning h.kind).takesArgs <;> simpa [Node.kind, Node.head, ht] using hnode
  | .fields h fs => by
    have hnode : Compiling.Comes w (assemble t (.fields h fs) (pure []) (some (compileFields t fs))) _ :=
      assemble_comes (.pure []) rfl (by simpa using compileFields_comes fs)
    rw [Node.visited, ← List.singleton_append, List.findSome?_append, List.findSome?_singleton, compile]
    simp only [ite_self, Option.none_or] at hnode
    cases ht : (t.meaning h.kind).takesFields <;> simpa [Node.kind, Node.head, ht] using hnode

theorem compileAll_comes : ∀ ns : List Node,
    Compiling.Comes w (compileAll t ns) ((visitedAll t ns).findSome? (Node.obstacle? t w.refuses))
  | [] => .pure []
  | n :: ns => by
    rw [visitedAll, List.findSome?_append, compileAll]
    exact (compile_comes n).bind fun x => (compileAll_comes ns).map (x :: ·)

theorem compileFields_comes : ∀ fs : List (String × Node),
    Compiling.Comes w (compileFields t fs) ((visitedFields t fs).findSome? (Node.obstacle? t w.refuses))
  | [] => .pure []
  | (name, n) :: fs => by
    rw [visitedFields, List.findSome?_append, compileFields]
    exact (compile_comes n).bind fun x => (compileFields_comes fs).map ((name, x) :: ·)

end

/-! ## The verdict on a tree -/

/-- A literal sets entries. -/
theorem Node.flawless_of_setsEntries {n : Node} (h : n.setsEntries t = true) : n.flaw? t = none := by
  unfold setsEntries at h
  split at h
  · rename_i hm
    rw [flaw?, hm]
  · cases h

/-- What is in the way of compiling some nodes one after the other: a refusal if one of them sets entries before the first flaw,
and otherwise that flaw. -/
theorem findSome?_obstacle (refuses : Bool) (ns : List Node) :
    ns.findSome? (Node.obstacle? t refuses) =
      if refuses && (ns.takeWhile fun n => (n.flaw? t).isNone).any (·.setsEntries t) then some .refusal
      else (ns.findSome? (Node.flaw? t)).map .flaw := by
  induction ns with
  | nil => simp
  | cons n ns ih =>
    rw [List.findSome?_cons, List.findSome?_cons, ih, Node.obstacle?]
    cases hs : n.setsEntries t with
    | true => cases refuses <;> simp [hs, Node.flawless_of_setsEntries hs]
    | false => cases hf : n.flaw? t <;> simp [hs, hf]

/-- Compiling a tree is refused: changes are, and before the first flaw there is a literal with entries. -/
def Node.Refused (t : OperatorTable) (w : World κ ε) (n : Node) : Prop :=
  w.refuses ∧ ∃ m ∈ (n.visited t).takeWhile fun m => (m.flaw? t).isNone, m.setsEntries t

/-- Unless a literal with entries has to be made where changes are refused, a tree compiles if and only if it is well-formed, and
otherwise the error is that of the first of the visited nodes with a flaw. If one has to, the computation is abandoned. -/
theorem Node.compile_verdict (t : OperatorTable) (n : Node) (w : World κ ε) :
    (¬n.Refused t w →
      ((∃ x w', (compile t n).run w = .ok (.ok x) w') ↔ n.WellFormed t) ∧
        (¬n.WellFormed t → ∃ e w', (n.visited t).findSome? (flaw? t) = some e ∧ (compile t n).run w = .ok (.error e) w')) ∧
      (n.Refused t w → ∃ w', (compile t n).run w = .error (.depthLimit .object w.depth) w') := by
  have hcomes := compile_comes (t := t) n w rfl rfl
  have hrefused : n.Refused t w ↔
      (w.refuses && ((n.visited t).takeWhile fun m => (m.flaw? t).isNone).any (·.setsEntries t)) = true := by
    rw [Bool.and_eq_true, List.any_eq_true, Refused]
  have hsound : n.WellFormed t ↔ (n.visited t).findSome? (flaw? t) = none := by
    rw [wellFormed_iff, List.findSome?_eq_none_iff]
  rw [findSome?_obstacle] at hcomes
  refine ⟨fun h => ?_, fun h => ?_⟩
  · rw [if_neg (mt hrefused.2 h)] at hcomes
    cases hf : (n.visited t).findSome? (flaw? t) with
    | none =>
      rw [hf] at hcomes
      obtain ⟨x, w', hx, -⟩ := hcomes
      have hn := hsound.2 hf
      exact ⟨⟨fun _ => hn, fun _ => ⟨x, w', hx⟩⟩, fun h => absurd hn h⟩
    | some e =>
      rw [hf] at hcomes
      obtain ⟨w', he⟩ := hcomes
      have hn : ¬n.WellFormed t := fun hn => by rw [hsound.1 hn] at hf; cases hf
      refine ⟨⟨?_, fun h => absurd h hn⟩, fun _ => ⟨e, w', rfl, he⟩⟩
      rintro ⟨x, w'', hx⟩
      rw [he] at hx
      cases hx
  · rwa [if_pos (hrefused.1 h)] at hcomes

end

/-- The limit of nested dispatches is reached, under the policy that panics. -/
def World.full : World Unit Unit where
  depth := 1
  config := { maxDispatchDepth := 1, onDepthExceeded := .panic }
  env := ()

/-- A literal is always well-formed, but one with entries does not compile while the limit is reached. -/
theorem Node.compile_refused :
    (literal (.object [("k", .bool true)])).WellFormed .standard ∧
      (compile .standard (literal (.object [("k", .bool true)]))).run World.full = .error (.depthLimit .object 1) World.full :=
  ⟨.literal rfl, rfl⟩

end LiveBindings
