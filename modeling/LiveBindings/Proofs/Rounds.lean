import LiveBindings.Proofs.Limit
import LiveBindings.Proofs.Registry

/-!
# What may happen in a pass

A `Growth` says how a chronicle may go on. That of a pass is: each of the listeners who were registered when the pass captured
them is called once in every round, in the order of registration, unless it has been removed since (`Growth.turn`,
`Growth.pass`). What happens inside a call is for the callee to say.

A computation that keeps a chronicle follows a growth (`Run.Follows`) when the chronicle goes on by it and still says who is
registered in the world (`World.Kept`). If the callbacks of a world do (`Reactions.Honest`), so does telling the listeners that a
pass has captured (`Captures.tellAll`, `Captures.tellInTurn`).
-/

namespace LiveBindings

/-! ## How a chronicle may go on -/

/-- How a chronicle goes on, and whether what happens comes to its end or is abandoned. -/
abbrev Growth := Chronicle → Chronicle → Bool → Prop

namespace Growth

/-- Nothing happens. -/
def still : Growth := fun h h' whole => h' = h ∧ whole = true

/-- Nothing more happens, for it is abandoned. -/
def broken : Growth := fun h h' whole => h' = h ∧ whole = false

/-- One thing after another, which does not begin when the first is abandoned. -/
def seq (g g' : Growth) : Growth := fun h h' whole =>
  (∃ h₁, g h h₁ true ∧ g' h₁ h' whole) ∨ (whole = false ∧ g h h' false)

/-- Several things one after the other. -/
def all (gs : List Growth) : Growth := gs.foldr seq still

/-- Something that begins and ends, also when it is abandoned. -/
def around (first last : Occurrence) (g : Growth) : Growth := fun h h' whole =>
  ∃ counts counts' h₁, g (⟨first, counts⟩ :: h) h₁ whole ∧ h' = ⟨last, counts'⟩ :: h₁

section

variable (call : Growth)

/-- The turn of a listener who was captured at `h₀`. If it has been removed since, it is passed over. Otherwise it is called. -/
def turn (c : Channel) (round : Option Nat) (h₀ : Chronicle) (id : ListenerId) : Growth := fun h h' whole =>
  (Chronicle.RemovedSince h₀ h c id ∧ still h h' whole) ∨
    (¬Chronicle.RemovedSince h₀ h c id ∧ around (.called id round) (.returned id) call h h' whole)

/-- A round of a pass: everyone who was registered at `h₀` has a turn, in the order of registration. -/
def round (h₀ : Chronicle) (c : Channel) (round : Option Nat) : Growth :=
  all ((Chronicle.standing c h₀).map (turn call c round h₀))

/-- A pass over the listeners who were registered at `h₀`. -/
def pass (h₀ : Chronicle) (p : Pass) : Growth := all (p.rounds.map (round call h₀ p.channel))

/-- A phase captures the listeners of all its passes when it begins. -/
def phase (ps : Phase) : Growth := fun h => all (ps.map (pass call h)) h

/-- A change that is told as its schedule says. -/
def change : Schedule → Growth
  | .silent => still
  | .refused => broken
  | .told phases => all (phases.map (phase call))

end

/-! ### Laws -/

variable {g g' g'' : Growth}

theorem seq_still (g : Growth) : g.seq still = g := by
  funext h h' whole
  cases whole <;> simp [seq, still]

theorem still_seq (g : Growth) : still.seq g = g := by
  funext h h' whole
  simp [seq, still]

theorem seq_assoc (g g' g'' : Growth) : (g.seq g').seq g'' = g.seq (g'.seq g'') := by
  funext h h' whole
  cases whole
  · simp only [seq, true_and, eq_iff_iff]
    constructor
    · rintro (⟨h₂, ⟨h₁, hg, hg'⟩ | ⟨⟨⟩, _⟩, hg''⟩ | ⟨h₁, hg, hg'⟩ | hg)
      · exact .inl ⟨h₁, hg, .inl ⟨h₂, hg', hg''⟩⟩
      · exact .inl ⟨h₁, hg, .inr hg'⟩
      · exact .inr hg
    · rintro (⟨h₁, hg, ⟨h₂, hg', hg''⟩ | hg'⟩ | hg)
      · exact .inl ⟨h₂, .inl ⟨h₁, hg, hg'⟩, hg''⟩
      · exact .inr (.inl ⟨h₁, hg, hg'⟩)
      · exact .inr (.inr hg)
  · simp only [seq, reduceCtorEq, false_and, or_false, eq_iff_iff]
    exact ⟨fun ⟨h₂, ⟨h₁, hg, hg'⟩, hg''⟩ => ⟨h₁, hg, h₂, hg', hg''⟩, fun ⟨h₁, hg, h₂, hg', hg''⟩ => ⟨h₂, ⟨h₁, hg, hg'⟩, hg''⟩⟩

/-- What matters of a growth is how it goes on from where it begins. -/
theorem seq_imp {h h' : Chronicle} {whole : Bool} (hg : ∀ h₁ whole, g h h₁ whole → g'' h h₁ whole) (hs : g.seq g' h h' whole) :
    g''.seq g' h h' whole :=
  hs.imp (fun ⟨h₁, h, h'⟩ => ⟨h₁, hg _ _ h, h'⟩) fun ⟨hw, h⟩ => ⟨hw, hg _ _ h⟩

theorem all_append (gs gs' : List Growth) : all (gs ++ gs') = (all gs).seq (all gs') := by
  induction gs with
  | nil => exact (still_seq _).symm
  | cons g gs ih =>
    change g.seq (all (gs ++ gs')) = (g.seq (all gs)).seq (all gs')
    rw [ih, seq_assoc]

theorem all_still {gs : List Growth} (h : ∀ g ∈ gs, g = still) : all gs = still := by
  induction gs with
  | nil => rfl
  | cons g gs ih =>
    change g.seq (all gs) = still
    rw [h g List.mem_cons_self, ih fun g hg => h g (List.mem_cons_of_mem _ hg), seq_still]

theorem all_singleton (g : Growth) : all [g] = g := seq_still g

end Growth

/-- At the limit of nested dispatches nobody is told, or the change is refused. -/
def World.schedule {κ ε : Type} (w : World κ ε) (phases : List Phase) : Schedule :=
  if w.config.maxDispatchDepth ≤ w.depth then
    match w.config.onDepthExceeded with
    | .skip => .silent
    | .panic => .refused
  else .told phases

/-! ## Worlds with a chronicle -/

/-- The state of a program beside its chronicle. -/
structure Diary (τ : Type) where
  chronicle : Chronicle := []
  own : τ

/-- What happens registers and removes nobody. -/
structure Occurrence.Neutral (what : Occurrence) : Prop where
  newcomer : what.newcomer? = none
  alters : ∀ c ids, what.alters c ids = ids

/-- A world with a chronicle, in which every callback knows the listener that it was registered as. -/
abbrev Chronicled (β τ : Type) := World (ListenerId × β) (Diary τ)

namespace World

variable {β τ : Type}

/-- The listeners of a topic. -/
def audience {κ ε : Type} (w : World κ ε) : Channel → List (ListenerId × κ)
  | .list l topic => (Listeners.on topic (w.listCell l).listeners).map fun x => (x.id, x.callback)
  | .object o topic => (Listeners.on topic (w.objectCell o).listeners).map fun x => (x.id, x.callback)

/-- How many listeners there are on each topic. -/
def counts {κ ε : Type} (w : World κ ε) (c : Channel) : Nat := (w.audience c).length

def chronicle (w : Chronicled β τ) : Chronicle := w.env.chronicle

/-- The world with what happened last noted. -/
def noted (what : Occurrence) (w : Chronicled β τ) : Chronicled β τ :=
  { w with env := { w.env with chronicle := ⟨what, w.counts⟩ :: w.chronicle } }

/-- The chronicle says who is registered, and always said how many. Nobody is registered twice, and every callback knows who it
is. -/
structure Kept (w : Chronicled β τ) : Prop where
  listed : ∀ c, (w.audience c).map (·.1) = w.chronicle.standing c
  known : ∀ c, ∀ x ∈ w.audience c, x.2.1 = x.1
  unique : w.chronicle.ids.Nodup
  numbered : ∀ id ∈ w.chronicle.ids, id.index < w.nextListener
  counted : ∀ m h, m :: h <:+ w.chronicle → ∀ c, m.counts c = (Chronicle.standing c (m :: h)).length

/-- Nothing that the chronicle is about differs. -/
structure Agrees (w w' : Chronicled β τ) : Prop where
  audience : w'.audience = w.audience
  next : w'.nextListener = w.nextListener
  chronicle : w'.chronicle = w.chronicle

variable {w w' w'' : Chronicled β τ}

theorem Agrees.refl (w : Chronicled β τ) : w.Agrees w := ⟨rfl, rfl, rfl⟩

theorem Agrees.trans (h : w.Agrees w') (h' : w'.Agrees w'') : w.Agrees w'' where
  audience := h'.audience.trans h.audience
  next := h'.next.trans h.next
  chronicle := h'.chronicle.trans h.chronicle

theorem Kept.congr (h : w.Kept) (ha : w.Agrees w') : w'.Kept where
  listed c := by rw [ha.audience, ha.chronicle, h.listed]
  known c x hx := h.known c x (ha.audience ▸ hx)
  unique := ha.chronicle ▸ h.unique
  numbered id hid := ha.next ▸ h.numbered id (ha.chronicle ▸ hid)
  counted m t ht := h.counted m t (ha.chronicle ▸ ht)

theorem audience_congr {κ ε : Type} {w w' : World κ ε} (lists : ∀ l, (w'.listCell l).listeners = (w.listCell l).listeners)
    (objects : ∀ o, (w'.objectCell o).listeners = (w.objectCell o).listeners) : w'.audience = w.audience := by
  funext c
  cases c with
  | list l topic => rw [audience, audience, lists]
  | object o topic => rw [audience, audience, objects]

/-- A list is changed in anything but its listeners. -/
theorem Agrees.modifyList (w : Chronicled β τ) (l : ListId) {f : ListCell (ListenerId × β) → ListCell (ListenerId × β)}
    (hf : ∀ c, (f c).listeners = c.listeners) : w.Agrees (w.modifyList l f) where
  audience := audience_congr (fun l' => by
    rw [listCell_modifyList]
    split
    · rename_i h
      rw [hf, h.1]
    · rfl) fun _ => rfl
  next := rfl
  chronicle := rfl

theorem Agrees.modifyObject (w : Chronicled β τ) (o : ObjectId)
    {f : ObjectCell (ListenerId × β) → ObjectCell (ListenerId × β)} (hf : ∀ c, (f c).listeners = c.listeners) :
    w.Agrees (w.modifyObject o f) where
  audience := audience_congr (fun _ => rfl) fun o' => by
    rw [objectCell_modifyObject]
    split
    · rename_i h
      rw [hf, h.1]
    · rfl
  next := rfl
  chronicle := rfl

theorem Agrees.makeList (w : Chronicled β τ) (items : List Value) :
    w.Agrees { w with lists := w.lists.push { items } } where
  audience := audience_congr (fun l => by
    change (Array.getD (w.lists.push { items }) l.index _).listeners = (Array.getD w.lists l.index _).listeners
    rw [Array.getD_eq_getD_getElem?, Array.getD_eq_getD_getElem?, Array.getElem?_push]
    split
    · rename_i h
      rw [h, Array.getElem?_size]
      rfl
    · rfl) fun _ => rfl
  next := rfl
  chronicle := rfl

theorem Agrees.makeObject (w : Chronicled β τ) (entries : List (String × Value)) :
    w.Agrees { w with objects := w.objects.push { entries } } where
  audience := audience_congr (fun _ => rfl) fun o => by
    change (Array.getD (w.objects.push { entries }) o.index _).listeners = (Array.getD w.objects o.index _).listeners
    rw [Array.getD_eq_getD_getElem?, Array.getD_eq_getD_getElem?, Array.getElem?_push]
    split
    · rename_i h
      rw [h, Array.getElem?_size]
      rfl
    · rfl
  next := rfl
  chronicle := rfl

/-- The chronicle is kept when what happened to those who are registered is noted. -/
theorem Kept.after (h : w.Kept) {what : Occurrence} (chronicle : w'.chronicle = w.chronicle)
    (listed : ∀ c, (w'.audience c).map (·.1) = what.alters c (w.chronicle.standing c))
    (known : ∀ c, ∀ x ∈ w'.audience c, x.2.1 = x.1) (unique : (what.newcomer?.toList ++ w.chronicle.ids).Nodup)
    (numbered : ∀ id ∈ what.newcomer?.toList ++ w.chronicle.ids, id.index < w'.nextListener) : (w'.noted what).Kept where
  listed c := by
    change (w'.audience c).map _ = what.alters c (w'.chronicle.standing c)
    rw [chronicle, listed]
  known := known
  unique := by
    change (Chronicle.ids (_ :: w'.chronicle)).Nodup
    rwa [Chronicle.ids_cons, chronicle]
  numbered id hid := by
    change id ∈ Chronicle.ids (_ :: w'.chronicle) at hid
    rw [Chronicle.ids_cons, chronicle] at hid
    exact numbered id hid
  counted m t ht c := by
    rcases List.suffix_cons_iff.1 ht with he | ht
    · cases he
      change (w'.audience c).length = _
      rw [← List.length_map, listed, ← chronicle]
      rfl
    · exact h.counted m t (chronicle ▸ ht) c

theorem Kept.noted (h : w.Kept) {what : Occurrence} (neutral : what.Neutral) : (w.noted what).Kept := by
  refine h.after rfl (fun c => (h.listed c).trans (neutral.alters c _).symm) h.known ?_ ?_
  · rw [neutral.newcomer]
    exact h.unique
  · rw [neutral.newcomer]
    exact h.numbered

/-- Who was registered earlier is registered on a list exactly if not removed since. -/
theorem Kept.list_registered (h : w.Kept) {h₀ : Chronicle} (hs : h₀ <:+ w.chronicle) {l : ListId} {topic : ListTopic}
    {id : ListenerId} (hid : id ∈ h₀.standing (.list l topic)) :
    l.registered w id = true ↔ ¬h₀.RemovedSince w.chronicle (.list l topic) id := by
  obtain ⟨recent, hr⟩ := hs
  have registered : l.registered w id = true ↔ ∃ topic, id ∈ w.chronicle.standing (.list l topic) := by
    simp only [← h.listed, audience, ListId.registered, Listeners.isRegistered, List.any_eq_true, decide_eq_true_eq,
      List.map_map, List.mem_map, mem_on, Function.comp_apply]
    constructor
    · rintro ⟨x, hx, he⟩
      exact ⟨x.topic, x, ⟨hx, rfl⟩, he⟩
    · rintro ⟨_, x, ⟨hx, -⟩, he⟩
      exact ⟨x, hx, he⟩
  have unique := h.unique
  rw [registered]
  rw [← hr] at unique ⊢
  simp only [Chronicle.mem_standing_since unique hid, Chronicle.removedSince_append, Channel.list.injEq, true_and,
    exists_eq_left]

theorem Kept.object_registered (h : w.Kept) {h₀ : Chronicle} (hs : h₀ <:+ w.chronicle) {o : ObjectId} {topic : ObjectTopic}
    {id : ListenerId} (hid : id ∈ h₀.standing (.object o topic)) :
    o.registered w id = true ↔ ¬h₀.RemovedSince w.chronicle (.object o topic) id := by
  obtain ⟨recent, hr⟩ := hs
  have registered : o.registered w id = true ↔ ∃ topic, id ∈ w.chronicle.standing (.object o topic) := by
    simp only [← h.listed, audience, ObjectId.registered, Listeners.isRegistered, List.any_eq_true, decide_eq_true_eq,
      List.map_map, List.mem_map, mem_on, Function.comp_apply]
    constructor
    · rintro ⟨x, hx, he⟩
      exact ⟨x.topic, x, ⟨hx, rfl⟩, he⟩
    · rintro ⟨_, x, ⟨hx, -⟩, he⟩
      exact ⟨x, hx, he⟩
  have unique := h.unique
  rw [registered]
  rw [← hr] at unique ⊢
  simp only [Chronicle.mem_standing_since unique hid, Chronicle.removedSince_append, Channel.object.injEq, true_and,
    exists_eq_left]

/-- The world goes on to one in which the chronicle has grown. -/
structure Grown (g : Growth) (w w' : Chronicled β τ) (whole : Bool) : Prop where
  kept : w'.Kept
  later : w.chronicle <:+ w'.chronicle
  growth : g w.chronicle w'.chronicle whole

end World

/-! ## Computations -/

section

variable {α β α' τ : Type} {g g' : Growth} {w w' : Chronicled β τ} {act act' : Run (ListenerId × β) (Diary τ) α}
  {f : α → Run (ListenerId × β) (Diary τ) α'}

/-- What a computation that began in `w` has come to: its end, or where it was abandoned. -/
def World.Reaches (g : Growth) (w : Chronicled β τ) : EStateM.Result Fault (Chronicled β τ) α → Prop
  | .ok _ w' => w.Grown g w' true
  | .error _ w' => w.Grown g w' false

/-- A computation that begins in `w` lets the chronicle go on by a growth, whether it ends or is abandoned. -/
def Run.Follows (g : Growth) (act : Run (ListenerId × β) (Diary τ) α) (w : Chronicled β τ) : Prop := w.Reaches g (act w)

/-- What comes after a step. -/
theorem World.Reaches.onward {r : EStateM.Result Fault (Chronicled β τ) α} (h : w'.Reaches g' r)
    (later : w.chronicle <:+ w'.chronicle) (hg : ∀ h' whole, g' w'.chronicle h' whole → g w.chronicle h' whole) : w.Reaches g r := by
  cases r with
  | ok a u => exact ⟨World.Grown.kept h, later.trans (World.Grown.later h), hg _ _ (World.Grown.growth h)⟩
  | error e u => exact ⟨World.Grown.kept h, later.trans (World.Grown.later h), hg _ _ (World.Grown.growth h)⟩

namespace Run.Follows

theorem congr (he : act w = act' w) (h : Run.Follows g act' w) : Run.Follows g act w := by
  rwa [Run.Follows, he]

theorem mono (h : Run.Follows g act w) (hg : ∀ h' whole, g w.chronicle h' whole → g' w.chronicle h' whole) :
    Run.Follows g' act w :=
  World.Reaches.onward h List.suffix_rfl hg

theorem pure (h : w.Kept) (a : α) : Run.Follows .still (Pure.pure a) w := ⟨h, List.suffix_rfl, rfl, rfl⟩

theorem throw (h : w.Kept) (e : Fault) : Run.Follows .broken (throw e : Run (ListenerId × β) (Diary τ) α) w :=
  ⟨h, List.suffix_rfl, rfl, rfl⟩

/-- A step comes first. -/
theorem onward {a : α} (he : act w = .ok a w') (later : w.chronicle <:+ w'.chronicle) (h : Run.Follows g' (f a) w')
    (hg : ∀ h' whole, g' w'.chronicle h' whole → g w.chronicle h' whole) : Run.Follows g (act >>= f) w := by
  change w.Reaches g (EStateM.bind act f w)
  rw [EStateM.bind, he]
  exact World.Reaches.onward h later hg

/-- The chronicle is not about it. -/
theorem step {a : α} (he : act w = .ok a w') (ha : w.Agrees w') (h : Run.Follows g (f a) w') : Run.Follows g (act >>= f) w :=
  onward he (ha.chronicle ▸ List.suffix_rfl) h fun _ _ hg => ha.chronicle ▸ hg

/-- Something is only read. -/
theorem read {a : α} (he : act w = .ok a w) (h : Run.Follows g (f a) w) : Run.Follows g (act >>= f) w :=
  step he (.refl w) h

theorem bind (h : Run.Follows g act w) (hf : ∀ a w', w.Grown g w' true → Run.Follows g' (f a) w') :
    Run.Follows (g.seq g') (act >>= f) w := by
  change w.Reaches _ (EStateM.bind act f w)
  rw [Run.Follows] at h
  rw [EStateM.bind]
  cases he : act w with
  | ok a w₁ =>
    rw [he] at h
    exact World.Reaches.onward (hf a w₁ h) (World.Grown.later h) fun _ _ hg => .inl ⟨_, World.Grown.growth h, hg⟩
  | error e w₁ =>
    rw [he] at h
    exact ⟨World.Grown.kept h, World.Grown.later h, .inr ⟨rfl, World.Grown.growth h⟩⟩

/-- Nothing happens after it. -/
theorem last (h : Run.Follows g act w) (hf : ∀ a w', w'.Kept → Run.Follows .still (f a) w') : Run.Follows g (act >>= f) w :=
  Growth.seq_still g ▸ h.bind fun a w' h' => hf a w' h'.kept

theorem map (h : Run.Follows g act w) (f : α → α') : Run.Follows g (f <$> act) w := by
  refine congr ?_ (h.last fun a _ h' => .pure h' (f a))
  change EStateM.map f act w = EStateM.bind act _ w
  unfold EStateM.map EStateM.bind
  cases act w <;> rfl

theorem discard (h : Run.Follows g act w) : Run.Follows g (Functor.discard act) w := h.map _

theorem restoring {restore : Chronicled β τ → Chronicled β τ} (ha : ∀ u : Chronicled β τ, u.Agrees (restore u))
    (h : Run.Follows g act w) : Run.Follows g (LiveBindings.restoring restore act) w := by
  rw [Run.Follows] at h
  rw [Run.Follows, LiveBindings.restoring]
  cases he : act w with
  | ok a w' =>
    rw [he] at h
    exact ⟨(World.Grown.kept h).congr (ha w'), (ha w').chronicle ▸ World.Grown.later h,
      (ha w').chronicle ▸ World.Grown.growth h⟩
  | error e w' =>
    rw [he] at h
    exact ⟨(World.Grown.kept h).congr (ha w'), (ha w').chronicle ▸ World.Grown.later h,
      (ha w').chronicle ▸ World.Grown.growth h⟩

theorem withHeld {callbacks : List (ListenerId × β)} (h : Run.Follows g act { w with held := callbacks ++ w.held }) :
    Run.Follows g (LiveBindings.withHeld callbacks act) w := by
  have ha : w.Agrees { w with held := callbacks ++ w.held } := ⟨rfl, rfl, rfl⟩
  exact read rfl (restoring (fun _ => ⟨rfl, rfl, rfl⟩) (step rfl ha h))

/-- At the limit of nested dispatches a change is made without a word, or refused. -/
theorem nested {container : Kind} {silent : Run (ListenerId × β) (Diary τ) α} {call : Growth} {phases : List Phase} (h : w.Kept)
    (hs : Run.Follows .still silent w)
    (hact : Run.Follows (.change call (.told phases)) act { w with depth := w.depth + 1 }) :
    Run.Follows (.change call (w.schedule phases)) (LiveBindings.nested container silent act) w := by
  unfold World.schedule
  split
  · rename_i limit
    cases policy : w.config.onDepthExceeded with
    | skip => exact hs.congr (nested_silent limit policy)
    | panic =>
      rw [Run.Follows, nested_refused limit policy]
      exact ⟨h, List.suffix_rfl, rfl, rfl⟩
  · rename_i limit
    refine .read rfl ?_
    rw [if_neg limit]
    have ha : w.Agrees { w with depth := w.depth + 1 } := ⟨rfl, rfl, rfl⟩
    exact restoring (fun _ => ⟨rfl, rfl, rfl⟩) (step rfl ha hact)

end Run.Follows

/-- The index that an event is about. -/
def Event.index? : Event → Option Nat
  | item _ index => some index
  | _ => none

/-- Callbacks are called, do what `call` says, and return. -/
structure Reactions.Honest (R : Reactions (ListenerId × β) (Diary τ)) (call : Growth) : Prop where
  fire : ∀ x e w, w.Kept → Run.Follows (.around (.called x.1 e.index?) (.returned x.1) call) (R.fire x e) w
  letGo : R.letGo = pure ()

end

/-! ## Passes -/

section

variable {α β τ T : Type} {g call : Growth} {h₀ : Chronicle} {c : Channel} {w : Chronicled β τ} {e : Event}
  {R : Reactions (ListenerId × β) (Diary τ)} {registered : Chronicled β τ → ListenerId → Bool}
  {x : Listener T (ListenerId × β)} {xs : List (Listener T (ListenerId × β))}

/-- Listeners were captured from a topic at `h₀`: of those who are left of them, the ones are registered who have not been
removed since. -/
structure Captures (h₀ : Chronicle) (c : Channel) (registered : Chronicled β τ → ListenerId → Bool)
    (xs : List (Listener T (ListenerId × β))) : Prop where
  known : ∀ x ∈ xs, x.callback.1 = x.id
  registered : ∀ x ∈ xs, ∀ w, w.Kept → h₀ <:+ w.chronicle →
    (registered w x.id = true ↔ ¬h₀.RemovedSince w.chronicle c x.id)

theorem Captures.tail (h : Captures h₀ c registered (x :: xs)) : Captures h₀ c registered xs where
  known y hy := h.known y (List.mem_cons_of_mem x hy)
  registered y hy := h.registered y (List.mem_cons_of_mem x hy)

variable (hR : R.Honest call)
include hR

theorem Run.Follows.holding {callbacks : List (ListenerId × β)} {act : Run (ListenerId × β) (Diary τ) α}
    (h : Run.Follows g act { w with held := callbacks ++ w.held }) : Run.Follows g (LiveBindings.holding R callbacks act) w := by
  refine h.withHeld.last fun a w' h' => ?_
  rw [hR.letGo]
  exact .read rfl (.pure h' a)

theorem Captures.tell (h : Captures h₀ c registered (x :: xs)) (hw : w.Kept) (hs : h₀ <:+ w.chronicle) :
    Run.Follows (.turn call c e.index? h₀ x.id) (LiveBindings.tell R registered e x) w := by
  have hx := h.registered x List.mem_cons_self w hw hs
  refine .read rfl ?_
  split
  · rename_i hr
    have := hR.fire x.callback e w hw
    rw [h.known x List.mem_cons_self] at this
    exact this.mono fun _ _ hg => .inr ⟨hx.1 hr, hg⟩
  · rename_i hr
    exact (Run.Follows.pure hw _).mono fun _ _ hg => .inl ⟨not_not.1 fun hn => hr (hx.2 hn), hg⟩

theorem Captures.tellAll (h : Captures h₀ c registered xs) (hw : w.Kept) (hs : h₀ <:+ w.chronicle) :
    Run.Follows (.all (xs.map fun x => .turn call c e.index? h₀ x.id)) (LiveBindings.tellAll R registered e xs) w := by
  induction xs generalizing w with
  | nil => exact .pure hw _
  | cons x xs ih => exact (h.tell hR hw hs).bind fun _ _ h' => ih h.tail h'.kept (hs.trans h'.later)

theorem Captures.tellInTurn (h : Captures h₀ c registered xs) (hw : w.Kept) (hs : h₀ <:+ w.chronicle) :
    Run.Follows (.all (xs.map fun x => .turn call c e.index? h₀ x.id)) (LiveBindings.tellInTurn R registered e xs) w := by
  induction xs generalizing w with
  | nil => exact .pure hw _
  | cons x xs ih =>
    refine .bind (.withHeld (.holding hR (h.tell hR ?_ hs))) fun _ _ h' => ih h.tail h'.kept (hs.trans h'.later)
    exact hw.congr ⟨rfl, rfl, rfl⟩

end

/-- A phase with one pass of one round. -/
theorem Growth.phase_once (call : Growth) (c : Channel) (r : Option Nat) (h h' : Chronicle) (whole : Bool) :
    Growth.phase call [⟨c, [r]⟩] h h' whole = Growth.round call h c r h h' whole := by
  change Growth.all [Growth.all [Growth.round call h c r]] _ _ _ = _
  rw [Growth.all_singleton, Growth.all_singleton]

end LiveBindings
