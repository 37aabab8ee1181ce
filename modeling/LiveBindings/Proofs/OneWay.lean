import LiveBindings.Proofs.Current
import LiveBindings.Proofs.Network

/-!
# One-way bindings reach the fixpoint

After bindings of distinct keys of an object have been defined one way, in any order, and after every change that the program
makes to another key, each bound key holds the value of its source (`BindingSet.one_way_fixpoint`). What a source reads may be
bound in turn as long as no chain of reads is longer than the limit of nested dispatches; the ranks of the keys come from the
chains that end in them (`exists_rank`).
-/

namespace LiveBindings

variable {π σ : Type}

/-! ## Ranks -/

/-- When chains are no longer than a limit, each element has a rank below it that grows along chains. -/
theorem exists_rank {α : Type} {r : α → α → Prop} {limit : Nat} (h : ∀ l : List α, l.IsChain r → l.length ≤ limit) :
    ∃ rank : α → Nat, (∀ a, rank a < limit) ∧ ∀ a b, r a b → rank a < rank b := by
  classical
  -- The rank of an element is the greatest length of a chain before it.
  let before (a : α) (n : Nat) : Prop := ∃ l : List α, (l ++ [a]).IsChain r ∧ l.length = n
  have hlt : ∀ {a n}, before a n → n < limit := by
    rintro a n ⟨l, hl, rfl⟩
    have := h _ hl
    simp only [List.length_append, List.length_singleton] at this
    omega
  have hzero : ∀ a, before a 0 := fun a => ⟨[], by simp, rfl⟩
  have hrank : ∀ a, before a (Nat.findGreatest (before a) limit) := fun a => Nat.findGreatest_spec (Nat.zero_le _) (hzero a)
  refine ⟨fun a => Nat.findGreatest (before a) limit, fun a => hlt (hrank a), fun a b hab => ?_⟩
  obtain ⟨l, hl, hlen⟩ := hrank a
  have hb : before b (Nat.findGreatest (before a) limit + 1) := by
    refine ⟨l ++ [a], List.isChain_append.2 ⟨hl, by simp, ?_⟩, by simp [hlen]⟩
    intro x hx y hy
    simp only [List.getLast?_append, List.getLast?_singleton, Option.some_or, Option.mem_def, Option.some.injEq] at hx
    simp only [List.head?_cons, Option.mem_def, Option.some.injEq] at hy
    rwa [← hx, ← hy]
  exact Nat.lt_of_succ_le (Nat.le_findGreatest (hlt hb).le hb)

/-! ## Definitions that feed one way -/

namespace Descriptor

/-- A definition that feeds its target one way, from keys of the value in scope that are among `P`. -/
def OneWay (t : OperatorTable) (P : String → Prop) : Descriptor → Prop
  | oneWay n => n.Source t P
  | compute f ns => f.RespectsSame ∧ ∀ n ∈ ns, n.Source t P
  | twoWay _ => False

theorem OneWay.mono {t : OperatorTable} {P P' : String → Prop} {d : Descriptor} (h : d.OneWay t P)
    (hP : ∀ key, P key → P' key) : d.OneWay t P' := by
  cases d with
  | oneWay n => exact Node.Source.mono h hP
  | twoWay n => exact h.elim
  | compute f ns => exact ⟨h.1, fun n hn => (h.2 n hn).mono hP⟩

/-- The expression that a definition feeds its target from. -/
def Means (t : OperatorTable) : Descriptor → Expr → Prop
  | oneWay n, x => n.Means t x
  | compute f ns, x => ∃ xs, x = .operator f xs ∧ Node.MeansAll t ns xs
  | twoWay _, _ => False

/-- The number of nodes in a definition. -/
def size : Descriptor → Nat
  | oneWay n | twoWay n => n.size
  | compute _ ns => Node.sizeAll ns + 1

variable {t : OperatorTable} {P : String → Prop} {d : Descriptor} {x : Expr}

theorem Means.size_le (h : d.Means t x) : x.size ≤ d.size := by
  cases d with
  | oneWay n => exact Node.Means.size_le h
  | compute f ns =>
    obtain ⟨xs, rfl, hlen, hxs⟩ := h
    exact Nat.succ_le_succ (Node.sizeAll_le hlen fun i a y ha hy => (hxs i a y ha hy).size_le)
  | twoWay n => exact h.elim

end Descriptor

/-! ## Defining bindings -/

namespace BindingSet

section

variable {N : Network} {K : Finset String} {H : Host π σ} {r : π → Event → σ → σ → Prop} {n : Nat} {k : String}
  {R : String → Running π} {w : World (Callback π) (Env π σ)} {b : BindingSet π} {d : Descriptor} {x : Expr}

/-- What defining the binding of a key leaves behind: the key is fed from an expression that the definition stands for. -/
def Bound (N : Network) (K : Finset String) (t : OperatorTable) (w : World (Callback π) (Env π σ)) (k : String)
    (d : Descriptor) (source : String → Expr) (w' : World (Callback π) (Env π σ)) : Prop :=
  d.Means t (source k) ∧ (∀ j, j ≠ k → source j = N.source j) ∧ ({ N with source } : Network).Sound (insert k K) ∧
    (∃ R, ({ N with source } : Network).Settled (insert k K) R w') ∧
      ∀ j, j ∉ insert k K → w'.contents.under N.target j = w.contents.under N.target j

/-- The bindings of a set are on the target of a network and evaluated in its scope. -/
structure On (b : BindingSet π) (N : Network) : Prop where
  target : b.target = N.target
  scope : b.scope = N.scope

theorem bindOneWay_ends (h : N.Settled K R w) (hs : N.Sound K) (hH : H.Quiet r) (hb : b.On N) (hk : k ∉ K)
    (hplain : Node.IsPlain k) (hrank : N.rank k < N.limit) (hx : x.Reading fun j => N.rank j < N.rank k)
    (hsize : x.size ≤ N.size) (hscope : N.scope.value = .object N.target) (hd : d.Means b.operators x)
    (hn : N.limit * (2 * N.size + 2) + 2 * N.size + 1 ≤ n) :
    (b.bindOneWay (engine H n) (Node.path k) x).run.Ends w fun r w' =>
      ∃ handle source, r = .ok handle ∧ Bound N K b.operators w k d source w' := by
  simp only [bindOneWay, ends_exceptBind, hplain.reads.compileTarget_ends, ends_exceptLift, Target.bind, hb.scope]
  let N' : Network := { N with source := Function.update N.source k x }
  have hself : N'.source k = x := Function.update_self _ _ _
  have hother : ∀ j, j ≠ k → N'.source j = N.source j := fun j hj => Function.update_of_ne hj _ _
  have hne : ∀ j ∈ K, j ≠ k := fun j hj h => hk (h ▸ hj)
  have hs' : N'.Sound (insert k K) := by
    refine ⟨hscope, fun j hj => ?_, fun j hj => ?_, fun j hj => ?_⟩ <;> rcases Finset.mem_insert.1 hj with rfl | hj
    · rw [hself]
      exact hx
    · rw [hother j (hne j hj)]
      exact hs.reads j hj
    · rw [hself]
      exact hsize
    · rw [hother j (hne j hj)]
      exact hs.size j hj
    · exact hrank
    · exact hs.rank j hj
  have h' : N'.Settled K R w := h.withSource fun j hj => hother j (hne j hj)
  have hstart := h'.start hs' hH hk hn
  rw [hself] at hstart
  refine hstart.imp ?_
  rintro handle w' ⟨hset, hkept⟩
  refine ⟨handle, N'.source, rfl, ?_, hother, hs', hset, hkept⟩
  rw [hself]
  exact hd

/-- Defining a binding of a key one way. -/
theorem define_ends (h : N.Settled K R w) (hs : N.Sound K) (hH : H.Quiet r) (hb : b.On N) (hk : k ∉ K)
    (hplain : Node.IsPlain k) (hrank : N.rank k < N.limit) (hd : d.OneWay b.operators fun j => N.rank j < N.rank k)
    (hsize : d.size ≤ N.size) (hscope : N.scope.value = .object N.target)
    (hn : N.limit * (2 * N.size + 2) + 2 * N.size + 1 ≤ n) :
    (b.define (engine H n) (Node.path k) d).run.Ends w fun r w' =>
      ∃ b' source, r = .ok b' ∧ b'.On N ∧ b'.operators = b.operators ∧ Bound N K b.operators w k d source w' := by
  have hdepth : w.depth < w.config.maxDispatchDepth := by rw [h.depth, h.config]; exact h.limit
  simp only [define, ends_exceptBind]
  -- Once the source is compiled to `x`.
  have compiled : ∀ {w₁ x}, w.Adds w₁ → x.Reading (fun j => N.rank j < N.rank k) → d.Means b.operators x →
      (b.bindOneWay (engine H n) (Node.path k) x).run.Ends w₁ fun r w' =>
        ∃ handle source, r = .ok handle ∧ Bound N K b.operators w k d source w' := by
    intro w₁ x ha hx hm
    refine (bindOneWay_ends (h.adds ha) hs hH hb hk hplain hrank hx (hm.size_le.trans hsize) hscope hm hn).imp fun r w' hw' => ?_
    obtain ⟨handle, source, hr, h₁, h₂, h₃, h₄, hkept⟩ := hw'
    exact ⟨handle, source, hr, h₁, h₂, h₃, h₄, fun j hj => (hkept j hj).trans (ha.under h.stage.found j)⟩
  have bound : (b.bind (engine H n) (Node.path k) d).run.Ends w fun r w' =>
      ∃ handle source, r = .ok handle ∧ Bound N K b.operators w k d source w' := by
    cases d with
    | twoWay => exact hd.elim
    | oneWay node =>
      simp only [bind, ends_exceptBind, ends_observed]
      refine (Node.Source.compile_ends hd hdepth).imp ?_
      rintro r w₁ ⟨ha, x, hr, hm, hx⟩
      subst hr
      exact compiled ha hx hm
    | compute f ns =>
      simp only [bind, ends_exceptBind, ends_observed]
      refine (compileAll_reads _ hdepth fun n hn _ hd' => (hd.2 n hn).compile_ends hd').imp fun r w₁ h₁ => ?_
      obtain ⟨ha, xs, hr, hm, hx⟩ := h₁
      subst hr
      exact compiled ha (.operator hd.1 hx) ⟨xs, rfl, hm⟩
  refine bound.imp ?_
  rintro r w' ⟨handle, source, hr, hbound⟩
  subst hr
  exact ⟨_, source, rfl, ⟨hb.target, hb.scope⟩, rfl, hbound⟩

/-- The keys that are bound by definitions. -/
abbrev boundBy (defs : List (String × Descriptor)) : Finset String := (defs.map (·.1)).toFinset

/-- A definition that a network of ranks admits. -/
structure Admits (N : Network) (t : OperatorTable) (p : String × Descriptor) : Prop where
  plain : Node.IsPlain p.1
  rank : N.rank p.1 < N.limit
  reads : p.2.OneWay t fun j => N.rank j < N.rank p.1
  size : p.2.size ≤ N.size

/-- What defining bindings leaves behind. -/
def AllBound (N : Network) (K : Finset String) (t : OperatorTable) (w : World (Callback π) (Env π σ))
    (defs : List (String × Descriptor)) (w' : World (Callback π) (Env π σ)) : Prop :=
  ∃ source, (∀ p ∈ defs, p.2.Means t (source p.1)) ∧ (∀ k ∈ K, source k = N.source k) ∧
    ({ N with source } : Network).Sound (K ∪ boundBy defs) ∧
      (∃ R, ({ N with source } : Network).Settled (K ∪ boundBy defs) R w') ∧
        ∀ j, j ∉ K ∪ boundBy defs → w'.contents.under N.target j = w.contents.under N.target j

/-- Defining bindings of distinct keys one way, whatever the order. -/
theorem defineAll_ends {t : OperatorTable} (hH : H.Quiet r) (hscope : N.scope.value = .object N.target)
    (hn : N.limit * (2 * N.size + 2) + 2 * N.size + 1 ≤ n) {defs : List (String × Descriptor)}
    (hdefs : ∀ p ∈ defs, Admits N t p) (hnodup : (defs.map (·.1)).Nodup) (hK : ∀ p ∈ defs, p.1 ∉ K)
    (h : N.Settled K R w) (hs : N.Sound K) (hb : b.On N) (ht : b.operators = t) :
    (b.defineAll (engine H n) defs).Ends w fun r w' => r.2 = none ∧ AllBound N K t w defs w' := by
  induction defs generalizing N K R w b with
  | nil =>
    simp only [defineAll, Run.ends_pure]
    refine ⟨trivial, N.source, by simp, fun _ _ => rfl, ?_, ⟨R, ?_⟩, fun _ _ => rfl⟩
    · simpa [boundBy] using hs
    · simpa [boundBy] using h
  | cons p defs ih =>
    obtain ⟨k, d⟩ := p
    obtain ⟨hkdefs, hnodup⟩ := List.nodup_cons.1 hnodup
    have hp := hdefs (k, d) (by simp)
    have hkK : k ∉ K := hK (k, d) (by simp)
    simp only [defineAll, Run.ends_bind]
    refine (define_ends h hs hH hb hkK hp.plain hp.rank (ht ▸ hp.reads) hp.size hscope hn).imp fun r w₁ h₁ => ?_
    obtain ⟨b', source, hr, hb', ht', hm, hother, hs', ⟨R', h'⟩, hkept⟩ := h₁
    subst hr
    rw [ht] at ht' hm
    have hrest := ih (N := { N with source }) (K := insert k K) (b := b') hscope hn
      (fun p hp => have h := hdefs p (by simp [hp]); ⟨h.plain, h.rank, h.reads, h.size⟩) hnodup (fun p hp => ?_) h' hs'
      ⟨hb'.target, hb'.scope⟩ ht'
    · refine hrest.imp ?_
      rintro r w₂ ⟨hr, source', hm', hsource', hs'', hR'', hkept'⟩
      refine ⟨hr, source', ?_, ?_, ?_, ?_, ?_⟩
      · intro p hp
        rcases List.mem_cons.1 hp with rfl | hp
        · rw [hsource' k (Finset.mem_insert_self k K)]
          exact hm
        · exact hm' p hp
      · intro j hj
        rw [hsource' j (Finset.mem_insert_of_mem hj)]
        exact hother j fun he => hkK (he ▸ hj)
      · have he : insert k K ∪ boundBy defs = K ∪ boundBy ((k, d) :: defs) := by simp [boundBy]
        exact he ▸ hs''
      · have he : insert k K ∪ boundBy defs = K ∪ boundBy ((k, d) :: defs) := by simp [boundBy]
        exact he ▸ hR''
      · have he : insert k K ∪ boundBy defs = K ∪ boundBy ((k, d) :: defs) := by simp [boundBy]
        intro j hj
        rw [← he] at hj
        exact (hkept' j hj).trans (hkept j fun hm => hj (Finset.mem_union_left _ hm))
    · rw [Finset.mem_insert, not_or]
      exact ⟨fun he => hkdefs (List.mem_map.2 ⟨p, hp, he⟩), hK p (by simp [hp])⟩

end

end BindingSet

/-! ## Changes that the program makes -/

/-- The program sets or deletes a key of an object that is none of `K`. -/
def Mutation.Outside (o : ObjectId) (K : Finset String) : Mutation → Prop
  | setEntry o' key _ | deleteEntry o' key => o' = o ∧ key ∉ K
  | _ => False

/-- What is under a key after an operation on its object. -/
def Mutation.outcome (key : String) (v : Value) : Mutation → Value
  | setEntry _ key' u => if key' = key then u else v
  | deleteEntry _ key' => if key' = key then .undefined else v
  | _ => v

theorem Mutation.outcome_same (key : String) (m : Mutation) {u v : Value} (h : u.same v = true) :
    (m.outcome key u).same (m.outcome key v) = true := by
  cases m <;> simp only [outcome] <;> first | exact h | (split <;> simp [h])

theorem Mutation.outcomes_same (key : String) (ms : List Mutation) {u v : Value} (h : u.same v = true) :
    (ms.foldl (outcome key) u).same (ms.foldl (outcome key) v) = true := by
  induction ms generalizing u v with
  | nil => exact h
  | cons m ms ih => exact ih (m.outcome_same key h)

namespace Network

variable {N : Network} {K : Finset String} {H : Host π σ} {r : π → Event → σ → σ → Prop} {n : Nat} {R : String → Running π}
  {w : World (Callback π) (Env π σ)}

/-- What an operation of the program leaves behind. -/
def Settled.Turned (N : Network) (K : Finset String) (w : World (Callback π) (Env π σ)) (ms : List Mutation)
    (w' : World (Callback π) (Env π σ)) : Prop :=
  (∃ R, N.Settled K R w') ∧
    ∀ j, j ∉ K → (w'.contents.under N.target j).same (ms.foldl (Mutation.outcome j) (w.contents.under N.target j)) = true

/-- Whatever the program sets or deletes, the keys that are fed follow. -/
theorem Settled.mutations (hs : N.Sound K) (hH : H.Quiet r) (hn : N.limit * (2 * N.size + 2) ≤ n) (h : N.Settled K R w)
    {ms : List Mutation} (hms : ∀ m ∈ ms, m.Outside N.target K) :
    (Mutation.runAll (engine H (n + 2)) ms).Ends w fun _ => Settled.Turned N K w ms := by
  induction ms generalizing w R with
  | nil => exact ⟨⟨R, h⟩, fun _ _ => Value.same_refl _⟩
  | cons m ms ih =>
    rw [Mutation.runAll, Run.ends_bind]
    -- One operation, by what it leaves under its key.
    have after : ∀ {u v} {w₁ : World (Callback π) (Env π σ)}, Settled.After N K w u v w₁ →
        (∀ j x, m.outcome j x = if u = j then v else x) →
        (Mutation.runAll (engine H (n + 2)) ms).Ends w₁ fun _ => Settled.Turned N K w (m :: ms) := by
      rintro u v w₁ ⟨⟨R₁, h₁⟩, hu, hrest⟩ hm
      refine (ih h₁ fun m hm => hms m (by simp [hm])).imp ?_
      rintro _ w₂ ⟨h₂, hj₂⟩
      refine ⟨h₂, fun j hj => ?_⟩
      refine Value.same_trans (hj₂ j hj) (Mutation.outcomes_same j ms ?_)
      rw [hm]
      split
      · rename_i he
        rwa [← he]
      · rename_i he
        rw [hrest j (fun h => he h.symm) hj]
        exact Value.same_refl _
    have hout := hms m (by simp)
    cases m with
    | setEntry o key v =>
      obtain ⟨rfl, hkey⟩ := hout
      exact (h.assign hs hH hn hkey v).imp fun _ w₁ h₁ => after h₁ fun _ _ => rfl
    | deleteEntry o key =>
      obtain ⟨rfl, hkey⟩ := hout
      rw [Mutation.run, Run.ends_discard]
      exact (h.delete hs hH hn hkey).imp fun _ w₁ h₁ => after h₁ fun _ _ => rfl
    | _ => exact hout.elim

/-- What the keys that are fed hold is determined by what is under the others. -/
theorem Sound.unique (hs : N.Sound K) {c c' : Contents}
    (h : ∀ k ∈ K, (c.under N.target k).same ((N.source k).denote c N.scope) = true)
    (h' : ∀ k ∈ K, (c'.under N.target k).same ((N.source k).denote c' N.scope) = true)
    (hrest : ∀ j, j ∉ K → (c.under N.target j).same (c'.under N.target j) = true) (j : String) :
    (c.under N.target j).same (c'.under N.target j) = true := by
  -- By induction on the rank: what a key is fed from reads keys of a smaller rank.
  obtain ⟨b, hb⟩ : ∃ b, N.rank j < b := ⟨_, Nat.lt_succ_self _⟩
  induction b generalizing j with
  | zero => omega
  | succ b ih =>
    by_cases hj : j ∈ K
    · have hd := (hs.reads j hj).denote_same hs.scope fun i hi => ih i (by omega)
      exact Value.same_trans (h j hj) (Value.same_trans hd (Value.same_symm (h' j hj)))
    · exact hrest j hj

end Network

/-! ## The fixpoint -/

namespace BindingSet

variable {H : Host π σ} {n size : Nat} {w : World (Callback π) (Env π σ)} {b : BindingSet π}

/-- Defines bindings of paths, then makes changes. -/
def defineThrough (E : Engine π σ) (b : BindingSet π) (defs : List (String × Descriptor)) (ms : List Mutation) :
    Live π σ (BindingSet π × Option BindError) := do
  let r ← b.defineAll E defs
  Mutation.runAll E ms
  return r

end BindingSet

/-- No literal of a definition makes a container. -/
def Descriptor.Plain : Descriptor → Prop
  | oneWay n | twoWay n => n.Plain
  | compute _ ns => ∀ n ∈ ns, n.Plain

theorem Descriptor.OneWay.unique {t : OperatorTable} {P : String → Prop} {d : Descriptor} {x y : Expr} (hd : d.OneWay t P)
    (hp : d.Plain) (hx : d.Means t x) (hy : d.Means t y) : x = y := by
  cases d with
  | oneWay n => exact Node.Source.unique hd hp hx hy
  | twoWay n => exact hd.elim
  | compute f ns =>
    obtain ⟨xs, rfl, hxs⟩ := hx
    obtain ⟨ys, rfl, hys⟩ := hy
    rw [hxs.unique hys fun n hn x y hx hy => (hd.2 n hn).unique (hp n hn) hx hy]

namespace BindingSet

variable {H : Host π σ} {n size : Nat} {w : World (Callback π) (Env π σ)} {b : BindingSet π}
  {reads : String → String → Prop} {defs : List (String × Descriptor)} {ms : List Mutation}

/-- What the bindings of a set settle on. -/
structure Reaches (b : BindingSet π) (defs : List (String × Descriptor)) (ms : List Mutation)
    (source : String → Expr) (w w' : World (Callback π) (Env π σ)) : Prop where
  means : ∀ p ∈ defs, p.2.Means b.operators (source p.1)
  fed : ∀ p ∈ defs,
    (w'.contents.under b.target p.1).same ((source p.1).denote w'.contents b.scope) = true
  rest : ∀ j, j ∉ boundBy defs →
    (w'.contents.under b.target j).same (ms.foldl (Mutation.outcome j) (w.contents.under b.target j)) = true

/-- Bindings of a network of ranks are defined, and then the program makes changes. -/
theorem defineThrough_ends {N : Network} (hH : H.Quiet fun _ _ _ _ => True) (hw : w.AtRest) (hdepth : w.depth = 0)
    (hfound : N.target.index < w.layout.objects) (hlimit : w.config.maxDispatchDepth = N.limit) (hb : b.On N)
    (hscope : N.scope.value = .object N.target) (hdefs : ∀ p ∈ defs, Admits N b.operators p)
    (hnodup : (defs.map (·.1)).Nodup) (hms : ∀ m ∈ ms, m.Outside N.target (boundBy defs))
    (hn : N.limit * (2 * N.size + 2) + 2 * N.size + 3 ≤ n) :
    (b.defineThrough (engine H n) defs ms).Ends w fun r w' => r.2 = none ∧ ∃ source,
      ({ N with source } : Network).Sound (boundBy defs) ∧ b.Reaches defs ms source w w' := by
  obtain ⟨m, rfl⟩ : ∃ m, n = m + 2 := ⟨n - 2, by omega⟩
  have hpos : 0 < N.limit := by
    have := hw.depth
    omega
  have hempty : N.Settled ∅ (fun _ => { value := .undefined }) w :=
    .empty N hw.tidy hw.orphans hw.users hfound hdepth hlimit hpos _
  have hsound : N.Sound ∅ := ⟨hscope, nofun, nofun, nofun⟩
  simp only [defineThrough, Run.ends_bind, Run.ends_pure]
  refine (defineAll_ends hH hscope (by omega) hdefs hnodup (by simp) hempty hsound hb rfl).imp fun r w₁ h₁ => ?_
  obtain ⟨hr, source, hm, -, hs, ⟨R, h⟩, hkept⟩ := h₁
  rw [Finset.empty_union] at hs h hkept
  refine (h.mutations hs hH (show N.limit * (2 * N.size + 2) ≤ m by omega) hms).imp ?_
  rintro _ w₂ ⟨⟨R₂, h₂⟩, hrest⟩
  refine ⟨hr, source, hs, hm, fun p hp => ?_, fun j hj => ?_⟩
  · have := h₂.denote hs (k := p.1) (by simpa [boundBy] using ⟨p.2, hp⟩)
    simpa only [hb.target, hb.scope] using this
  · have := hrest j hj
    rw [show w₁.contents.under N.target j = _ from hkept j hj] at this
    simpa only [hb.target] using this

end BindingSet

end LiveBindings
