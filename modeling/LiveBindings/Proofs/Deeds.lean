import LiveBindings.Proofs.Holdings

/-!
# Programs

A program as data. At its own time, or when a listener of its own is told or an observer of its own receives a value, it does
one thing after the other: it changes containers, registers and removes listeners, starts and cancels observers, and defines
and cancels bindings (`Deed`, `Routine`, `Conduct`). What it does next may depend on all that there is. Whatever a program does,
and whatever it does inside of that when it is called, it keeps what there is (`Routine.keeps`, `Conduct.host_sound`).
-/

namespace LiveBindings

open Estate

variable {π σ τ : Type}

/-! ## Topics of containers -/

/-- A topic of a container, on which listeners are registered. -/
inductive Channel
  | list (l : ListId) (topic : ListTopic)
  | object (o : ObjectId) (topic : ObjectTopic)
deriving DecidableEq

namespace Channel

/-- Whether the container has been made. -/
def isMade {κ ε : Type} (w : World κ ε) : Channel → Bool
  | list l _ => l.index < w.lists.size
  | object o _ => o.index < w.objects.size

/-- A listener on the topic. -/
def post (callback : Callback π) : Channel → Post π
  | list l topic => .list l topic callback
  | object o topic => .object o topic callback

def listen (callback : Callback π) : Channel → Live π σ ListenerId
  | list l topic => l.listen topic callback
  | object o topic => o.listen topic callback

def unlisten (id : ListenerId) : Channel → Live π σ Unit
  | list l topic => l.unlisten topic id
  | object o topic => o.unlisten topic id

end Channel

/-- Where a listener is registered. -/
def Post.channel : Post π → Channel
  | .list l topic _ => .list l topic
  | .object o topic _ => .object o topic

/-! ## Deeds -/

/-- One thing that a program does. What it keeps it names; of several under one name the first is meant. -/
inductive Deed (π τ : Type)
  | change (m : Mutation)
  | makeList (items : List Value)
  | makeObject (entries : List (String × Value))
  /-- Sets the limit on nested dispatches and what happens there. -/
  | configure (config : Config)
  /-- Changes its own state. -/
  | update (f : τ → τ)
  /-- Registers a listener on a container that has been made. -/
  | listen (channel : Channel) (p : π)
  /-- Removes one of the listeners that it has registered. -/
  | unlisten (index : Nat)
  /-- Compiles a tree and starts it as an observer, unless it does not compile. A `distinct` observer does not receive a value
  that is the same as the last. -/
  | observe (name : String) (operators : OperatorTable) (tree : Node) (scope : Scope) (distinct : Bool) (p : π)
  /-- Cancels an observer. -/
  | cancel (name : String)
  /-- Makes a set of bindings with none in it. -/
  | makeSet (name : String) (target : ObjectId) (scope : Scope) (operators : OperatorTable)
  /-- Makes a set of bindings with the given ones, unless one of them fails. -/
  | createSet (name : String) (target : Value) (defs : List (String × Descriptor))
  | define (name : String) (target : Node) (d : Descriptor)
  | defineAll (name : String) (defs : List (String × Descriptor))
  /-- Cancels all bindings of a set. -/
  | cancelAll (name : String)

/-- Keeps a handle under a name. -/
def Ledger.addHandle (name : String) (handle : Cancel π) (g : Ledger π τ) : Ledger π τ :=
  { g with handles := g.handles ++ [(name, handle)] }

def Ledger.dropHandle (name : String) (g : Ledger π τ) : Ledger π τ := { g with handles := g.handles.eraseP (·.1 = name) }

def Ledger.addSet (name : String) (b : BindingSet π) (g : Ledger π τ) : Ledger π τ := { g with sets := g.sets ++ [(name, b)] }

def Ledger.dropSet (name : String) (g : Ledger π τ) : Ledger π τ := { g with sets := g.sets.eraseP (·.1 = name) }

/-- Notes a listener as the program's own. -/
def Ledger.note (id : ListenerId) (q : Post π) (g : Ledger π τ) : Ledger π τ := { g with listeners := g.listeners ++ [(id, q)] }

def Ledger.forget (id : ListenerId) (g : Ledger π τ) : Ledger π τ :=
  { g with listeners := g.listeners.filter fun x => x.1 ≠ id }

/-- Where the values of an observer go. -/
def userSink (distinct : Bool) (p : π) : Live π σ (Sink π) :=
  if distinct then LiveBindings.distinct (.user p) else pure (.user p)

/-- Works on a set of bindings, which is out of reach meanwhile. -/
def onSet (name : String) (act : BindingSet π → Live π (Ledger π τ) (BindingSet π)) : Live π (Ledger π τ) Unit := do
  match (← host).sets.find? (·.1 = name) with
  | none => return ()
  | some (_, b) =>
    modifyHost (Ledger.dropSet name)
    modifyHost (Ledger.addSet name (← act b))

/-- Does one thing. -/
def Deed.run (E : Engine π (Ledger π τ)) : Deed π τ → Live π (Ledger π τ) Unit
  | change m => m.run E
  | makeList items => discard <| ListId.create items
  | makeObject entries => discard <| ObjectId.create entries
  | configure config => modify fun w => { w with config }
  | update f => modifyHost fun g => { g with own := f g.own }
  | listen channel p => do
    if channel.isMade (← get) then
      let id ← channel.listen (.user p)
      modifyHost (Ledger.note id (channel.post (.user p)))
  | unlisten index => do
    match (← host).listeners[index]? with
    | none => return ()
    | some (id, q) =>
      modifyHost (Ledger.forget id)
      q.channel.unlisten id
  | observe name operators tree scope distinct p => do
    match ← (compile operators tree).run with
    | .error _ => return ()
    | .ok x =>
      let sink ← userSink distinct p
      modifyHost (Ledger.addHandle name (← E.start x sink scope))
  | cancel name => do
    match (← host).handles.find? (·.1 = name) with
    | none => return ()
    | some (_, handle) =>
      modifyHost (Ledger.dropHandle name)
      E.cancel handle
  | makeSet name target scope operators => modifyHost (Ledger.addSet name { target, scope, operators })
  | createSet name target defs => do
    match ← BindingSet.create E target defs with
    | .error _ => return ()
    | .ok b => modifyHost (Ledger.addSet name b)
  | define name target d => onSet name fun b => do
    match ← (b.define E target d).run with
    | .error _ => return b
    | .ok b => return b
  | defineAll name defs => onSet name fun b => do return (← b.defineAll E defs).1
  | cancelAll name => onSet name (·.cancelAll E)

/-- Things that a program does one after the other. -/
inductive Routine (π τ : Type)
  | done
  | act (deed : Deed π τ) (next : Routine π τ)
  /-- Goes on as it sees fit. -/
  | look (next : World (Callback π) (Env π (Ledger π τ)) → Routine π τ)

def Routine.run (E : Engine π (Ledger π τ)) : Routine π τ → Live π (Ledger π τ) Unit
  | done => pure ()
  | act deed next => do
    deed.run E
    next.run E
  | look next => do (next (← get)).run E

/-- One deed after the other. -/
def Routine.deeds (ds : List (Deed π τ)) : Routine π τ := ds.foldr .act .done

/-- What a program does when it is called. -/
structure Conduct (π τ : Type) where
  /-- A listener is told of an event. -/
  hears : π → Event → Routine π τ
  /-- An observer receives a value. -/
  receives : π → Value → Routine π τ

def Conduct.host (c : Conduct π τ) : Host π (Ledger π τ) where
  listener E p event := (c.hears p event).run E
  observer E p v := (c.receives p v).run E
  teardown _ _ := pure ()

/-! ## What the program keeps -/

section

variable {P : Set (Ref .block)} {R A D : Set Asset} {e : Estate π} {handles : List (Cancel π)}
  {w : World (Callback π) (Env π (Ledger π τ))} {g : Ledger π τ} {name : String}

theorem Cancel.mem_assetsOfAll {a : Asset} : a ∈ Cancel.assetsOfAll handles ↔ ∃ handle ∈ handles, a ∈ handle.assets := by
  rw [Cancel.assetsOfAll_eq, List.mem_flatMap]

/-- What some of the kept handles lead to comes to hand. -/
theorem Estate.Sound.unkeep (h : Sound P R e)
    (hk : ∀ x, x ∈ Cancel.assetsOfAll e.kept ↔ x ∈ D ∨ x ∈ Cancel.assetsOfAll handles) :
    Sound P (R ∪ D) (e.keeps handles) ∧ ∀ b ∈ P, .block b ∉ D := by
  simp only [Cancel.mem_assetsOfAll] at hk
  rw [← Set.union_empty R] at h
  refine ⟨h.keeps (X := ∅) (by simp) (fun handle hm a ha => Or.inr ((hk a).2 (Or.inr ⟨handle, hm, ha⟩)))
    (fun handle hm a ha => (hk a).1 ⟨handle, hm, ha⟩) (fun a ha => (hk a).2 (Or.inl ha)) (by simp), fun b hb hD => ?_⟩
  exact (h.reserved hb).2 (Or.inl (Or.inr (Or.inl ((hk _).2 (Or.inl hD)))))

/-- What is in hand comes to be kept. -/
theorem Estate.Sound.keep (h : Sound P (R ∪ A) e)
    (hk : ∀ x, x ∈ Cancel.assetsOfAll handles ↔ x ∈ Cancel.assetsOfAll e.kept ∨ x ∈ A) (hP : ∀ b ∈ P, .block b ∉ A) :
    Sound P R (e.keeps handles) := by
  simp only [Cancel.mem_assetsOfAll] at hk
  rw [← Set.union_empty R]
  exact h.keeps (fun a ha => (hk a).2 (Or.inr ha)) (fun handle hm a ha => ((hk a).1 ⟨handle, hm, ha⟩).symm)
    (fun handle hm a ha => Or.inr ((hk a).2 (Or.inl ⟨handle, hm, ha⟩))) (by simp) hP

theorem World.estate_setHost {f : Ledger π τ → Ledger π τ} (h : (f w.env.host).listeners = w.env.host.listeners) :
    World.estate { w with env := { w.env with host := f w.env.host } } = w.estate.keeps (f w.env.host).kept := by
  simp only [World.estate, keeps, h]
  rfl

/-- Handles are taken out of the ledger and taken down, or kept anew. -/
theorem Keeps.taking {f : Ledger π τ → Ledger π τ} {act : Live π (Ledger π τ) Unit}
    (hl : (f w.env.host).listeners = w.env.host.listeners)
    (hk : ∀ x, x ∈ Cancel.assetsOfAll w.env.host.kept ↔ x ∈ D ∨ x ∈ Cancel.assetsOfAll (f w.env.host).kept)
    (hact : ∀ w', (∀ b ∈ P, .block b ∉ D) → Yields P D act (fun _ => ∅) w') : Keeps P (modifyHost f >>= fun _ => act) w := by
  intro R hR
  rw [Run.leads_bind]
  change act.Leads { w with env := { w.env with host := f w.env.host } } _
  obtain ⟨h₁, hP⟩ := hR.unkeep hk
  rw [← World.estate_setHost hl] at h₁
  have hs : Stays P w.estate (w.estate.keeps (f w.env.host).kept) := stays_keeps
  rw [← World.estate_setHost hl] at hs
  refine (hact _ hP R h₁).imp fun _ w' h' => ⟨?_, hs.trans h'.2.1⟩
  exact Set.union_empty R ▸ h'.1

/-- Handles are put into the ledger. -/
theorem Yields.putting {f : Ledger π τ → Ledger π τ} (hl : (f w.env.host).listeners = w.env.host.listeners)
    (hk : ∀ x, x ∈ Cancel.assetsOfAll (f w.env.host).kept ↔ x ∈ Cancel.assetsOfAll w.env.host.kept ∨ x ∈ A)
    (hP : ∀ b ∈ P, .block b ∉ A) : Yields P A (modifyHost f) (fun _ => ∅) w := by
  intro R hR
  have he := World.estate_setHost hl
  refine ⟨?_, ?_, fun _ hx => hx.elim⟩
  · change Sound P (R ∪ ∅) (World.estate { w with env := { w.env with host := f w.env.host } })
    rw [he, Set.union_empty]
    exact hR.keep hk hP
  · change Stays P w.estate (World.estate { w with env := { w.env with host := f w.env.host } })
    rw [he]
    exact stays_keeps

theorem find?_perm {α : Type} {p : α → Bool} {a : α} {xs : List α} (h : xs.find? p = some a) : xs.Perm (a :: xs.eraseP p) := by
  induction xs with
  | nil => cases h
  | cons x xs ih =>
    cases hx : p x with
    | true =>
      rw [List.find?_cons_of_pos hx] at h
      cases h
      rw [List.eraseP_cons_of_pos hx]
    | false =>
      rw [List.find?_cons_of_neg (by simp [hx])] at h
      rw [List.eraseP_cons_of_neg (by simp [hx])]
      exact ((ih h).cons x).trans (List.Perm.swap ..)

theorem Ledger.mem_kept {a : Asset} : a ∈ Cancel.assetsOfAll g.kept ↔
    (∃ x ∈ g.handles, a ∈ x.2.assets) ∨ ∃ x ∈ g.sets, a ∈ x.2.assets := by
  have hset : ∀ b : BindingSet π, a ∈ b.assets ↔ ∃ handle ∈ b.handles, a ∈ handle.assets := fun b =>
    Cancel.mem_assetsOfAll
  simp only [Cancel.mem_assetsOfAll, kept, named, hset, List.mem_map, List.mem_append, List.mem_flatMap]
  constructor
  · rintro ⟨_, ⟨x, hx | ⟨y, hy, handle, hh, rfl⟩, rfl⟩, ha⟩
    · exact Or.inl ⟨x, hx, ha⟩
    · exact Or.inr ⟨y, hy, handle, hh, ha⟩
  · rintro (⟨x, hx, ha⟩ | ⟨y, hy, handle, hh, ha⟩)
    · exact ⟨x.2, ⟨x, Or.inl hx, rfl⟩, ha⟩
    · exact ⟨handle, ⟨(y.1, handle), Or.inr ⟨y, hy, handle, hh, rfl⟩, rfl⟩, ha⟩

theorem Ledger.mem_kept_addHandle {a : Asset} {handle : Cancel π} :
    a ∈ Cancel.assetsOfAll (g.addHandle name handle).kept ↔ a ∈ Cancel.assetsOfAll g.kept ∨ a ∈ handle.assets := by
  simp only [mem_kept, addHandle, List.mem_append, List.mem_singleton, or_and_right, exists_or, exists_eq_left]
  exact or_right_comm

theorem Ledger.mem_kept_addSet {a : Asset} {b : BindingSet π} :
    a ∈ Cancel.assetsOfAll (g.addSet name b).kept ↔ a ∈ Cancel.assetsOfAll g.kept ∨ a ∈ b.assets := by
  simp only [mem_kept, addSet, List.mem_append, List.mem_singleton, or_and_right, exists_or, exists_eq_left, or_assoc]

theorem Ledger.mem_kept_dropHandle {a : Asset} {n : String} {handle : Cancel π}
    (h : g.handles.find? (·.1 = name) = some (n, handle)) :
    a ∈ Cancel.assetsOfAll g.kept ↔ a ∈ handle.assets ∨ a ∈ Cancel.assetsOfAll (g.dropHandle name).kept := by
  simp only [mem_kept, dropHandle, (find?_perm h).mem_iff, List.mem_cons, or_and_right, exists_or, exists_eq_left, or_assoc]

theorem Ledger.mem_kept_dropSet {a : Asset} {n : String} {b : BindingSet π}
    (h : g.sets.find? (·.1 = name) = some (n, b)) :
    a ∈ Cancel.assetsOfAll g.kept ↔ a ∈ b.assets ∨ a ∈ Cancel.assetsOfAll (g.dropSet name).kept := by
  simp only [mem_kept, dropSet, (find?_perm h).mem_iff, List.mem_cons, or_and_right, exists_or, exists_eq_left]
  exact or_left_comm

end

/-! ## Deeds keep what there is -/

section

variable {P : Set (Ref .block)} {R : Set Asset} {w : World (Callback π) (Env π (Ledger π τ))} {E : Engine π (Ledger π τ)}

theorem addHandle_yields {handle : Cancel π} (name : String) (hP : ∀ b ∈ P, .block b ∉ handle.assets) :
    Yields P {x | x ∈ handle.assets} (modifyHost (Ledger.addHandle (τ := τ) name handle)) (fun _ => ∅) w :=
  .putting rfl (fun _ => Ledger.mem_kept_addHandle) hP

theorem addSet_yields {b : BindingSet π} (name : String) (hP : ∀ b' ∈ P, .block b' ∉ b.assets) :
    Yields P b.assets (modifyHost (Ledger.addSet (τ := τ) name b)) (fun _ => ∅) w :=
  .putting rfl (fun _ => Ledger.mem_kept_addSet) hP

theorem onSet_keeps (name : String) {act : BindingSet π → Live π (Ledger π τ) (BindingSet π)}
    (hact : ∀ b w, (∀ b' ∈ P, .block b' ∉ b.assets) → Yields P b.assets (act b) BindingSet.assets w) :
    Keeps P (onSet name act) w := by
  refine .read rfl ?_
  split
  · exact .pure _
  · rename_i n b hb
    refine .taking (D := b.assets) rfl (fun _ => Ledger.mem_kept_dropSet hb) fun w₁ hP => .of_sound fun hR => ?_
    refine (hact b w₁ hP).bind fun b' w₂ _ hfresh => addSet_yields name fun b'' hb'' hm => ?_
    rcases hfresh _ hm with hold | hnew
    · exact hP b'' hb'' hold
    · exact hnew (hR.reserved hb'').1.isSome

theorem Channel.listen_eq (channel : Channel) (callback : Callback π) :
    ∃ w', channel.listen callback w = .ok ⟨w.nextListener⟩ w' ∧ w'.env = w.env ∧
      w'.estate = w.estate.post (channel.isMade w) w.estate.registered (channel.post callback) := by
  cases channel with
  | list l topic => exact ⟨_, rfl, rfl, l.estate_listen topic callback⟩
  | object o topic => exact ⟨_, rfl, rfl, o.estate_listen topic callback⟩

theorem Channel.unlisten_eq (q : Post π) (id : ListenerId) :
    ∃ w', q.channel.unlisten id w = .ok ⟨⟩ w' ∧ w'.estate = w.estate.unpost w.estate.registered (q.asset id) := by
  cases q with
  | list l topic callback => exact ⟨_, rfl, l.estate_unlisten topic id⟩
  | object o topic callback => exact ⟨_, rfl, o.estate_unlisten topic id⟩

/-- The program has noted other listeners as its own. -/
theorem World.estate_noted {f : Ledger π τ → Ledger π τ} (hh : (f w.env.host).handles = w.env.host.handles)
    (hs : (f w.env.host).sets = w.env.host.sets) :
    World.estate { w with env := { w.env with host := f w.env.host } } =
      { w.estate with registered := (f w.env.host).listeners } := by
  simp only [World.estate, Ledger.kept, Ledger.named, hh, hs]
  rfl

/-- A listener that the program registers is noted. -/
theorem listen_keeps {channel : Channel} (hmade : channel.isMade w = true) (p : π) :
    Keeps P (do modifyHost (Ledger.note (τ := τ) (← channel.listen (.user p)) (channel.post (.user p)))) w := by
  intro R hR
  obtain ⟨w₁, hact, henv, he⟩ := Channel.listen_eq (w := w) channel (.user p)
  generalize hq : channel.post (.user p) = q at he ⊢
  have huser : q.IsUser := by cases channel <;> exact hq ▸ ⟨p, rfl⟩
  have hrefs : q.callback.refs = [] := by cases channel <;> exact hq ▸ rfl
  rw [Run.leads_bind, Run.leads_ok hact]
  have hnoted : World.estate { w₁ with env := { w₁.env with host := w₁.env.host.note ⟨w.nextListener⟩ q } } =
      w.estate.post true (w.estate.registered ++ [(⟨w.estate.nextListener⟩, q)]) q := by
    rw [World.estate_noted rfl rfl, he, hmade, henv]
    cases q <;> rfl
  obtain ⟨h₁, h₂⟩ := hR.post (X := ∅) (hR.tidy.note huser) (by simp [hrefs]) (absurd huser) (by simp)
  rw [← hnoted] at h₁ h₂
  exact ⟨Set.union_empty R ▸ h₁, h₂⟩

theorem unlisten_keeps {id : ListenerId} {q : Post π} (h : (id, q) ∈ w.env.host.listeners) :
    Keeps P (do modifyHost (Ledger.forget (τ := τ) id); q.channel.unlisten id) w := by
  intro R hR
  rw [Run.leads_bind]
  change (q.channel.unlisten id).Leads { w with env := { w.env with host := w.env.host.forget id } } _
  obtain ⟨w₁, hact, he⟩ := Channel.unlisten_eq (w := { w with env := { w.env with host := w.env.host.forget id } }) q id
  have hforgot : w₁.estate = w.estate.unpost (w.estate.registered.filter fun x => x.1 ≠ id) (q.asset id) := by
    rw [he, World.estate_noted rfl rfl]
    cases q <;> rfl
  rw [Run.leads_ok hact, hforgot]
  exact hR.unpost (hR.tidy.forget h)

theorem userSink_leads (distinct : Bool) (p : π) :
    (userSink distinct p).Leads w fun s w' => w'.estate = w.estate ∧ s.refs = [] := by
  cases distinct <;> exact ⟨rfl, rfl⟩

/-- Whatever a program does, what there is is kept. -/
theorem Deed.keeps (hE : E.Sound) (deed : Deed π τ) : Keeps P (deed.run E) w := by
  cases deed with
  | change m => exact m.keeps hE
  | makeList items => exact (ListId.create_quiet items).keeps.discard
  | makeObject entries => exact (ObjectId.create_quiet entries).keeps.discard
  | configure config => exact (Quiet.modify rfl).keeps
  | update f => exact (Quiet.modify rfl).keeps
  | listen channel p =>
    refine .read rfl ?_
    split
    · exact listen_keeps ‹_› p
    · exact .pure _
  | unlisten index =>
    refine .read rfl ?_
    split
    · exact .pure _
    · exact unlisten_keeps (List.mem_of_getElem? ‹_›)
  | observe name operators tree scope distinct p =>
    refine (compile_quiet operators tree w).keeps.bind fun r w₁ _ => ?_
    cases r with
    | error e => exact .pure _
    | ok x =>
      refine Yields.keeps (.quiet (userSink_leads distinct p) fun sink w₂ _ hrefs => .of_sound fun hR => ?_)
      refine (hE.start x scope (hrefs ▸ allSafe_nil)).bind fun handle w₃ _ hfresh => ?_
      exact addHandle_yields name (hR.not_fresh fun x hx => (hfresh x hx).resolve_left id)
  | cancel name =>
    refine .read rfl ?_
    split
    · exact .pure _
    · rename_i n handle hhandle
      exact .taking (D := {x | x ∈ handle.assets}) rfl (fun _ => Ledger.mem_kept_dropHandle hhandle) fun w₁ hP => hE.cancel hP
  | makeSet name target scope operators =>
    have hnone : ({ target, scope, operators } : BindingSet π).assets = ∅ := by
      simp [BindingSet.assets, BindingSet.handles, Cancel.assetsOfAll]
    have hset := addSet_yields (w := w) (P := P) (τ := τ) (b := { target, scope, operators }) name (by simp [hnone])
    exact (hnone ▸ hset).keeps
  | createSet name target defs =>
    refine Yields.keeps (.of_sound fun hR => (BindingSet.create_yields hE target defs).bind fun r w₁ _ hfresh => ?_)
    cases r with
    | error e => exact .pure _ rfl
    | ok b => exact addSet_yields name (hR.not_fresh fun x hx => (hfresh x hx).resolve_left id)
  | define name target d =>
    refine onSet_keeps name fun b w₁ _ => (BindingSet.define_yields hE target d).bind fun r w₂ _ _ => ?_
    cases r with
    | ok b' => exact .pure _ rfl
    | error e => exact .pure _ rfl
  | defineAll name defs =>
    exact onSet_keeps name fun b w₁ _ => (BindingSet.defineAll_yields hE defs).bind fun r w₂ _ _ => .pure _ rfl
  | cancelAll name => exact onSet_keeps name fun b w₁ hP => BindingSet.cancelAll_yields hE hP

theorem Routine.keeps (hE : E.Sound) (r : Routine π τ) : Keeps P (r.run E) w := by
  induction r generalizing w with
  | done => exact .pure _
  | act deed next ih => exact (deed.keeps hE).bind fun _ _ _ => ih
  | look next ih => exact .read rfl (ih _)

/-- Whatever a program does when it is called, what there is is kept. -/
theorem Conduct.host_sound (c : Conduct π τ) : c.host.Sound where
  listener hE _ _ p event := Routine.keeps hE (c.hears p event)
  observer hE _ _ p v := Routine.keeps hE (c.receives p v)

end

end LiveBindings
