import LiveBindings.Proofs.Tell

/-!
# Passes over captured listeners

A dispatch captures the listeners of a topic and tells them in turn, each only if it is still registered. What is registered
under the id of a captured listener is that listener itself or nothing (`Captured`), whatever other observers do meanwhile. A
pass is followed by an invariant in which the listeners that are still to be told may be out of date (`Attends`): when it is
over, none is.
-/

namespace LiveBindings

variable {π σ : Type}

/-- The world with another state of the embedding program. -/
def World.setHost (w : World (Callback π) (Env π σ)) (h : σ) : World (Callback π) (Env π σ) :=
  { w with env := { w.env with host := h } }

/-- Two worlds differ at most in the state of the embedding program and in what is held or counted as in progress. -/
structure World.Apart (w w' : World (Callback π) (Env π σ)) : Prop where
  layout : w'.layout = w.layout
  contents : w'.contents = w.contents
  depth : w'.depth = w.depth
  config : w'.config = w.config

namespace World.Apart

variable {w w' w'' : World (Callback π) (Env π σ)}

theorem refl (w : World (Callback π) (Env π σ)) : w.Apart w := ⟨rfl, rfl, rfl, rfl⟩

theorem trans (h : w.Apart w') (h' : w'.Apart w'') : w.Apart w'' where
  layout := h'.layout.trans h.layout
  contents := h'.contents.trans h.contents
  depth := h'.depth.trans h.depth
  config := h'.config.trans h.config

end World.Apart

/-- When the embedding program hears an event it changes nothing but its own state, and that as `r` says. -/
def Host.Quiet (H : Host π σ) (r : π → Event → σ → σ → Prop) : Prop :=
  ∀ (E : Engine π σ) (p : π) (e : Event) (w : World (Callback π) (Env π σ)),
    (H.listener E p e).Ends w fun _ w' => ∃ h, w' = w.setHost h ∧ r p e w.env.host h

/-- What a listener does. -/
def Post.callback : Post π → Callback π
  | .list _ _ callback | .object _ _ callback => callback

/-- A listener of the embedding program. -/
def Post.IsUser (q : Post π) : Prop := ∃ p, q.callback = .user p

@[simp] theorem Place.callback_post (p : Place) (next : Sink π) : (p.post next).callback = p.callback next := by
  cases p <;> rfl

theorem Place.not_isUser_post (p : Place) (next : Sink π) : ¬(p.post next).IsUser := by
  rintro ⟨_, h⟩
  cases p <;> simp [callback] at h

/-- Every listener is one of the embedding program or owned. -/
def Layout.Closed (K : Layout π) (G : Multiset Piece) : Prop := ∀ {id q}, K.Posted id q → q.IsUser ∨ .listener id ∈ G

theorem Layout.Closed.reshape {G G' : Multiset Piece} {K K' : Layout π} (h : K.Closed G) (hr : Reshapes G G' K K') :
    K'.Closed G' := by
  intro id q hq
  by_cases hid : .listener id ∈ G'
  · exact Or.inr hid
  · obtain ⟨hq', hid'⟩ := hr.posted hq hid
    exact (h hq').imp_right fun hm => absurd hm hid'

/-! ## Captured listeners -/

section

variable {τ : Type} {post : Listener τ (Callback π) → Post π} {K K' : Layout π} {ls : List (Listener τ (Callback π))}

/-- What is registered under the ids of captured listeners is they themselves or nothing. -/
def Captured (post : Listener τ (Callback π) → Post π) (K : Layout π) (ls : List (Listener τ (Callback π))) : Prop :=
  ∀ lst ∈ ls, K.Has (.listener lst.id) ∧ ∀ q, K.Posted lst.id q → q = post lst

theorem Captured.reshape {G G' : Multiset Piece} (h : Captured post K ls) (hr : Reshapes G G' K K') :
    Captured post K' ls :=
  fun lst hl => ⟨hr.grows _ (h lst hl).1, fun q hq => (h lst hl).2 q (hr.kept hq (h lst hl).1)⟩

/-- Listeners that are registered are captured. -/
theorem Captured.of_posted (ht : K.Tidy) (h : ∀ lst ∈ ls, K.Posted lst.id (post lst)) : Captured post K ls :=
  fun lst hl => ⟨ht.below (h lst hl), fun _ hq => ht.unique hq (h lst hl)⟩

end

theorem mem_on {τ κ : Type} [DecidableEq τ] {topic : τ} {ls : List (Listener τ κ)} {lst : Listener τ κ} :
    lst ∈ Listeners.on topic ls ↔ lst ∈ ls ∧ lst.topic = topic := by
  simp [Listeners.on]

/-- What a listener of an object is registered for. -/
def ObjectId.post (o : ObjectId) (lst : Listener ObjectTopic (Callback π)) : Post π := .object o lst.topic lst.callback

/-- What a listener of a list is registered for. -/
def ListId.post (l : ListId) (lst : Listener ListTopic (Callback π)) : Post π := .list l lst.topic lst.callback

section

variable {w : World (Callback π) (Env π σ)}

theorem ObjectId.registered_iff {o : ObjectId} {id : ListenerId} :
    o.registered w id = true ↔ ∃ topic callback, w.layout.Posted id (.object o topic callback) := by
  simp only [ObjectId.registered, Listeners.isRegistered, List.any_eq_true, decide_eq_true_eq]
  constructor
  · rintro ⟨lst, hl, rfl⟩
    exact ⟨lst.topic, lst.callback, hl⟩
  · rintro ⟨topic, callback, hl⟩
    exact ⟨_, hl, rfl⟩

theorem ListId.registered_iff {l : ListId} {id : ListenerId} :
    l.registered w id = true ↔ ∃ topic callback, w.layout.Posted id (.list l topic callback) := by
  simp only [ListId.registered, Listeners.isRegistered, List.any_eq_true, decide_eq_true_eq]
  constructor
  · rintro ⟨lst, hl, rfl⟩
    exact ⟨lst.topic, lst.callback, hl⟩
  · rintro ⟨topic, callback, hl⟩
    exact ⟨_, hl, rfl⟩

/-! ## Turns -/

theorem tell_ends {τ : Type} {R : Reactions (Callback π) (Env π σ)}
    {registered : World (Callback π) (Env π σ) → ListenerId → Bool} {e : Event} {lst : Listener τ (Callback π)}
    {Q : PUnit → World (Callback π) (Env π σ) → Prop} :
    (tell R registered e lst).Ends w Q ↔
      if registered w lst.id = true then (R.fire lst.callback e).Ends w Q else Q ⟨⟩ w := by
  simp only [tell, Run.ends_bind, Run.ends_get]
  split <;> simp

/-- Nothing is let go when no view has been given up. -/
theorem letGo_ends {H : Host π σ} {n : Nat} {Q : PUnit → World (Callback π) (Env π σ) → Prop} (hn : 0 < n)
    (ho : w.layout.cells.orphans = []) : ((engine H n).reactions.letGo).Ends w Q ↔ Q ⟨⟩ w := by
  obtain ⟨m, rfl⟩ : ∃ m, n = m + 1 := ⟨n - 1, by omega⟩
  simp [Engine.reactions, engine, sweep, ho, finishOrphans]

end

/-! ## Passes in which only the embedding program is told -/

section

variable {H : Host π σ} {r : π → Event → σ → σ → Prop} {n : Nat} {w : World (Callback π) (Env π σ)} {e : Event}
  {τ : Type} {registered : World (Callback π) (Env π σ) → ListenerId → Bool} {ls : List (Listener τ (Callback π))}

/-- What holds of the program's state is kept when one of its listeners `U` hears the event. -/
def Host.Keeps (r : π → Event → σ → σ → Prop) (U : π → Prop) (e : Event) (I : σ → Prop) : Prop :=
  ∀ {p h h'}, U p → I h → r p e h h' → I h'

theorem tellAll_users (registered : World (Callback π) (Env π σ) → ListenerId → Bool) (hH : H.Quiet r) {U : π → Prop} {I : σ → Prop} (hI : Host.Keeps r U e I)
    (hu : ∀ lst ∈ ls, ∃ p, lst.callback = .user p ∧ U p) (h : I w.env.host) :
    (tellAll (engine H (n + 1)).reactions registered e ls).Ends w fun _ w' => w.Apart w' ∧ I w'.env.host := by
  refine (tellAll_ends (I := fun ls w' => (∀ lst ∈ ls, ∃ p, lst.callback = .user p ∧ U p) ∧ w.Apart w' ∧ I w'.env.host) ?_
    ⟨hu, .refl w, h⟩).imp fun _ w' h => h.2
  rintro lst ls w₁ ⟨hu, ha, h₁⟩
  have hu' : ∀ lst ∈ ls, ∃ p, lst.callback = .user p ∧ U p := fun l hl => hu l (List.mem_cons_of_mem _ hl)
  rw [tell_ends]
  split
  · obtain ⟨p, hp, hU⟩ := hu lst (List.mem_cons_self ..)
    rw [hp]
    refine (hH (engine H n) p e w₁).imp ?_
    rintro _ w₂ ⟨h₂, hw, hr⟩
    refine ⟨hu', ha.trans ?_, ?_⟩
    · rw [hw]
      exact ⟨rfl, rfl, rfl, rfl⟩
    · rw [hw]
      exact hI hU h₁ hr
  · exact ⟨hu', ha, h₁⟩

/-- The same when each listener is let go in its turn. -/
theorem tellInTurn_users (hH : H.Quiet r) {U : π → Prop} {I : σ → Prop} (hI : Host.Keeps r U e I)
    (ho : w.layout.cells.orphans = []) (hu : ∀ lst ∈ ls, ∃ p, lst.callback = .user p ∧ U p) (h : I w.env.host) :
    (tellInTurn (engine H (n + 1)).reactions registered e ls).Ends w fun _ w' => w.Apart w' ∧ I w'.env.host := by
  refine (tellInTurn_ends (I := fun ls w' => (∀ lst ∈ ls, ∃ p, lst.callback = .user p ∧ U p) ∧ w.Apart w' ∧ I w'.env.host)
    ?_ ?_ ?_ ⟨hu, .refl w, h⟩).imp fun _ w' h => h.2
  · exact fun _ _ _ ⟨hu, ha, h⟩ => ⟨hu, ha.trans ⟨rfl, rfl, rfl, rfl⟩, h⟩
  · rintro lst ls w₁ ⟨hu, ha, h₁⟩
    have hu' : ∀ lst ∈ ls, ∃ p, lst.callback = .user p ∧ U p := fun l hl => hu l (List.mem_cons_of_mem _ hl)
    rw [tell_ends]
    split
    · obtain ⟨p, hp, hU⟩ := hu lst (List.mem_cons_self ..)
      rw [hp]
      refine (hH (engine H n) p e w₁).imp ?_
      rintro _ w₂ ⟨h₂, hw, hr⟩
      refine ⟨hu', ha.trans ?_, ?_⟩
      · rw [hw]
        exact ⟨rfl, rfl, rfl, rfl⟩
      · rw [hw]
        exact hI hU h₁ hr
    · exact ⟨hu', ha, h₁⟩
  · rintro ls w₁ ⟨hu, ha, h₁⟩
    exact (letGo_ends n.succ_pos (by rw [ha.layout, ho])).2 ⟨hu, ha, h₁⟩

end

/-! ## Passes in which observers are told -/

/-- The invariant of a pass over the posts `S` in which an event is told, with `n` nested calls for a listener: `I P ids w` says
that observers run and that their listeners are up to date except those among `P`, while `ids` are still to be told. -/
structure Attends (H : Host π σ) (r : π → Event → σ → σ → Prop) (n : Nat) (S : Post π → Prop) (e : Event)
    (I : (Leaf π → Prop) → List ListenerId → World (Callback π) (Env π σ) → Prop) : Prop where
  mono : ∀ {P P' : Leaf π → Prop} {ids w}, I P ids w → (∀ l, P l → P' l) → I P' ids w
  apart : ∀ {P ids w w'}, I P ids w → w.Apart w' → w'.env.host = w.env.host → I P ids w'
  tidy : ∀ {P ids w}, I P ids w → w.layout.Tidy
  orphans : ∀ {P ids w}, I P ids w → w.layout.cells.orphans = []
  /-- A listener of the embedding program is told. -/
  user : ∀ {P : Leaf π → Prop} {w id ids q p h}, I (fun l => P l ∨ l.id = id) (id :: ids) w → id ∉ ids → S q →
    w.layout.Posted id q → q.callback = .user p → r p e w.env.host h → I P ids (w.setHost h)
  /-- A listener of an observer is told. -/
  leaf : ∀ {P : Leaf π → Prop} {w id ids q}, I (fun l => P l ∨ l.id = id) (id :: ids) w → S q → w.layout.Posted id q →
    ¬q.IsUser → ∃ l : Leaf π, q = l.post ∧ l.place.Tells w.contents e ∧
      (l.sink.emit (engine H n) (H.observer (engine H n)) (l.place.read w.contents)).Ends w fun _ w' =>
        I P ids w' ∧ ∃ G G', Reshapes G G' w.layout w'.layout
  /-- A listener has been removed before its turn. -/
  absent : ∀ {P : Leaf π → Prop} {w id ids}, I (fun l => P l ∨ (l.id = id ∧ S l.post)) (id :: ids) w →
    (∀ q, S q → ¬w.layout.Posted id q) → I P ids w

/-- The listeners over posts `S` that are still to be told. -/
def Waiting {τ : Type} (S : Post π → Prop) (ls : List (Listener τ (Callback π))) (l : Leaf π) : Prop :=
  (∃ lst ∈ ls, l.id = lst.id) ∧ S l.post

/-- Which listeners a pass is over: what they are registered for, and when they are. -/
structure Audience (S : Post π → Prop) {τ : Type} (post : Listener τ (Callback π) → Post π)
    (registered : World (Callback π) (Env π σ) → ListenerId → Bool) : Prop where
  callback : ∀ lst, (post lst).callback = lst.callback
  posted : ∀ {w id}, registered w id = true → ∃ q, w.layout.Posted id q
  registered : ∀ {w id} {q : Post π}, S q → w.layout.Posted id q → registered w id = true

theorem ObjectId.audience (o : ObjectId) {S : Post π → Prop} (hS : ∀ q, S q → ∃ topic callback, q = .object o topic callback) :
    Audience S o.post (ObjectId.registered (ε := Env π σ) o) where
  callback _ := rfl
  posted h := by
    obtain ⟨topic, callback, hq⟩ := ObjectId.registered_iff.1 h
    exact ⟨_, hq⟩
  registered h hq := by
    obtain ⟨topic, callback, rfl⟩ := hS _ h
    exact ObjectId.registered_iff.2 ⟨topic, callback, hq⟩

theorem ListId.audience (l : ListId) {S : Post π → Prop} (hS : ∀ q, S q → ∃ topic callback, q = .list l topic callback) :
    Audience S l.post (ListId.registered (ε := Env π σ) l) where
  callback _ := rfl
  posted h := by
    obtain ⟨topic, callback, hq⟩ := ListId.registered_iff.1 h
    exact ⟨_, hq⟩
  registered h hq := by
    obtain ⟨topic, callback, rfl⟩ := hS _ h
    exact ListId.registered_iff.2 ⟨topic, callback, hq⟩

namespace Attends

variable {H : Host π σ} {r : π → Event → σ → σ → Prop} {n : Nat} {S : Post π → Prop} {e : Event}
  {I : (Leaf π → Prop) → List ListenerId → World (Callback π) (Env π σ) → Prop} {τ : Type}
  {post : Listener τ (Callback π) → Post π} {registered : World (Callback π) (Env π σ) → ListenerId → Bool}
  {w : World (Callback π) (Env π σ)} {P : Leaf π → Prop} {ls : List (Listener τ (Callback π))}

/-- One turn of a pass. -/
theorem turn (hA : Attends H r n S e I) (hH : H.Quiet r) (ha : Audience S post registered)
    {lst : Listener τ (Callback π)} (hS : S (post lst)) (hids : lst.id ∉ ls.map (·.id))
    (hI : I (fun l => P l ∨ Waiting S (lst :: ls) l) ((lst :: ls).map (·.id)) w) (hc : Captured post w.layout (lst :: ls)) :
    (tell (engine H (n + 2)).reactions registered e lst).Ends w fun _ w' =>
      I (fun l => P l ∨ Waiting S ls l) (ls.map (·.id)) w' ∧ Captured post w'.layout ls := by
  have hc' : Captured post w.layout ls := fun l hl => hc l (List.mem_cons_of_mem _ hl)
  have hI' : I (fun l => (P l ∨ Waiting S ls l) ∨ (l.id = lst.id ∧ S l.post)) (lst.id :: ls.map (·.id)) w := by
    refine hA.mono hI ?_
    rintro l (h | ⟨⟨lst', hl, h⟩, hl'⟩)
    · exact Or.inl (Or.inl h)
    · rcases List.mem_cons.1 hl with rfl | hl
      · exact Or.inr ⟨h, hl'⟩
      · exact Or.inl (Or.inr ⟨⟨lst', hl, h⟩, hl'⟩)
  have hI'' : I (fun l => (P l ∨ Waiting S ls l) ∨ l.id = lst.id) (lst.id :: ls.map (·.id)) w :=
    hA.mono hI' fun l h => h.imp_right And.left
  rw [tell_ends]
  by_cases hr : registered w lst.id = true
  · rw [if_pos hr]
    obtain ⟨q, hq⟩ := ha.posted hr
    obtain rfl := (hc lst (List.mem_cons_self ..)).2 _ hq
    by_cases hu : (post lst).IsUser
    · obtain ⟨p, hp⟩ := hu
      rw [← ha.callback, hp]
      refine (hH (engine H (n + 1)) p e w).imp ?_
      rintro _ w' ⟨h, hw, hr⟩
      rw [hw]
      exact ⟨hA.user hI'' hids hS hq hp hr, hc'⟩
    · obtain ⟨l, hl, ht, hemit⟩ := hA.leaf hI'' hS hq hu
      rw [← ha.callback, hl, Leaf.post, Place.callback_post]
      exact Place.fire_ends ht (hemit.imp fun _ w' ⟨hI, _, _, hr⟩ => ⟨hI, hc'.reshape hr⟩)
  · rw [if_neg hr]
    exact ⟨hA.absent hI' fun q hq hp => hr (ha.registered hq hp), hc'⟩

/-- What a pass keeps: the listeners that are still to be told, all over posts of the pass and each once. -/
def Pass (S : Post π → Prop) (post : Listener τ (Callback π) → Post π)
    (I : (Leaf π → Prop) → List ListenerId → World (Callback π) (Env π σ) → Prop) (P : Leaf π → Prop)
    (ls : List (Listener τ (Callback π))) (w : World (Callback π) (Env π σ)) : Prop :=
  (∀ lst ∈ ls, S (post lst)) ∧ (ls.map (·.id)).Nodup ∧ Captured post w.layout ls ∧
    I (fun l => P l ∨ Waiting S ls l) (ls.map (·.id)) w

theorem pass (hA : Attends H r n S e I) (hH : H.Quiet r) (ha : Audience S post registered)
    {lst : Listener τ (Callback π)} (h : Pass S post I P (lst :: ls) w) :
    (tell (engine H (n + 2)).reactions registered e lst).Ends w fun _ => Pass S post I P ls := by
  obtain ⟨hS, hids, hc, hI⟩ := h
  have hids' := List.nodup_cons.1 hids
  exact (hA.turn hH ha (hS lst (by simp)) hids'.1 hI hc).imp fun _ w' ⟨hI, hc⟩ =>
    ⟨fun l hl => hS l (by simp [hl]), hids'.2, hc, hI⟩

theorem pass_over (hA : Attends H r n S e I) (h : Pass S post I P [] w) : I P [] w := by
  refine hA.mono h.2.2.2 ?_
  rintro l (h | ⟨⟨_, hl, _⟩, _⟩)
  · exact h
  · cases hl

/-- After a pass over all listeners that are out of date none is. -/
theorem tellAll_ends (hA : Attends H r n S e I) (hH : H.Quiet r) (ha : Audience S post registered)
    (h : Pass S post I P ls w) :
    (tellAll (engine H (n + 2)).reactions registered e ls).Ends w fun _ w' => I P [] w' :=
  (LiveBindings.tellAll_ends (I := Pass S post I P) (fun _ _ _ h => hA.pass hH ha h) h).imp fun _ _ => hA.pass_over

theorem tellInTurn_ends (hA : Attends H r n S e I) (hH : H.Quiet r) (ha : Audience S post registered)
    (h : Pass S post I P ls w) :
    (tellInTurn (engine H (n + 2)).reactions registered e ls).Ends w fun _ w' => I P [] w' := by
  refine (LiveBindings.tellInTurn_ends (I := Pass S post I P) ?_ (fun _ _ _ h => hA.pass hH ha h) ?_ h).imp
    fun _ _ => hA.pass_over
  · exact fun ls w h ⟨hS, hids, hc, hI⟩ => ⟨hS, hids, hc, hA.apart hI ⟨rfl, rfl, rfl, rfl⟩ rfl⟩
  · exact fun ls w ⟨hS, hids, hc, hI⟩ => (letGo_ends (by omega) (hA.orphans hI)).2 ⟨hS, hids, hc, hI⟩

end Attends

end LiveBindings
