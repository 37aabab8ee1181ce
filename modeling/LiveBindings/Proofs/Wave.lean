import LiveBindings.Proofs.Family
import LiveBindings.Proofs.Mutation

/-!
# Values that observers pass on among the keys of an object

Observers of one object may write to its keys in turn, so that one change sets off others while it is being announced. A
`Stage` says how far that may go: which keys may still change and into what, and that nobody but the program and the observers
of a family listens. A `Wave` is one change on such a stage. The invariant of the family goes through the change of the key,
then through the turn of every observer that watches it, and what follows a turn takes place on a narrower stage
(`Wave.Keeps`, `Wave.change_ends`).
-/

namespace LiveBindings

variable {π σ ι : Type}

/-- What an object has under a key. -/
def Contents.under (c : Contents) (o : ObjectId) (key : String) : Value := (Fields.get? key (c.entries o)).getD .undefined

@[simp] theorem Place.read_entry (c : Contents) (o : ObjectId) (key : String) : (Place.entry o key).read c = c.under o key :=
  rfl

/-! ## Stages -/

/-- An object while values are passed on among its keys: the keys that may change and what they may become, what the object
held before, and who listens on behalf of the program. -/
structure Stage (π : Type) where
  target : ObjectId
  free : String → Prop
  becomes : Value → Prop
  before : String → Value
  users : ListenerId → Post π → Prop

/-- The world is as a stage says, where `G` is owned by the observers that may be set in motion. -/
structure Stage.Holds (B : Stage π) (G : Multiset Piece) (w : World (Callback π) (Env π σ)) : Prop where
  found : B.target.index < w.layout.objects
  orphans : w.layout.cells.orphans = []
  /-- A key is as before unless it is free and became what it may become. -/
  kept : ∀ key, (B.free key ∧ B.becomes (w.contents.under B.target key)) ∨
    w.contents.under B.target key = B.before key
  users : ∀ {id q}, w.layout.Posted id q → q.IsUser → B.users id q
  /-- Observers listen to nothing of the object but to single keys. -/
  quiet : ∀ {id topic callback}, w.layout.Posted id (.object B.target topic callback) → (∀ key, topic ≠ .after key) →
    (Post.object B.target topic callback).IsUser
  closed : ∀ {id key callback}, w.layout.Posted id (.object B.target (.after key) callback) → B.free key →
    (Post.object B.target (.after key) callback).IsUser ∨ .listener id ∈ G

/-- The stage with fewer keys free, seen from a world. -/
def Stage.narrow (B : Stage π) (free : String → Prop) (w : World (Callback π) (Env π σ)) : Stage π :=
  { B with free, before := w.contents.under B.target }

namespace Stage.Holds

variable {B : Stage π} {G G' E E' : Multiset Piece} {D : Place → Prop} {w w' : World (Callback π) (Env π σ)}

theorem congr (h : B.Holds G w) (hl : w'.layout = w.layout)
    (hc : ∀ key, w'.contents.under B.target key = w.contents.under B.target key) : B.Holds G w' := by
  obtain ⟨h₁, h₂, h₃, h₄, h₅, h₆⟩ := h
  rw [← hl] at h₁ h₂ h₄ h₅ h₆
  exact ⟨h₁, h₂, fun key => by rw [hc]; exact h₃ key, h₄, h₅, h₆⟩

/-- What an observer of keys that are not free does to its own pieces changes nothing on a stage. -/
theorem touch (h : B.Holds G w) (hD : ∀ p, D p → ∃ key, p = .entry B.target key ∧ ¬B.free key)
    (t : Touches (Place.posts D) E E' w w') : B.Holds G w' where
  found := t.layout.objects ▸ h.found
  orphans := t.layout.orphans.trans h.orphans
  kept := t.contents.symm ▸ h.kept
  users hq hu := by
    rcases t.posts hq with hq | ⟨p, next, -, rfl⟩
    · exact h.users hq hu
    · exact absurd hu (p.not_isUser_post next)
  quiet hq ht := by
    rcases t.posts hq with hq | ⟨p, next, hp, he⟩
    · exact h.quiet hq ht
    · obtain ⟨key, rfl, -⟩ := hD p hp
      simp only [Place.post, Post.object.injEq] at he
      exact absurd he.2.1 (ht key)
  closed hq hf := by
    rcases t.posts hq with hq | ⟨p, next, hp, he⟩
    · exact h.closed hq hf
    · obtain ⟨key, rfl, hn⟩ := hD p hp
      simp only [Place.post, Post.object.injEq, ObjectTopic.after.injEq] at he
      exact absurd (he.2.1 ▸ hf) hn

/-- The observers on a stage have changed their listeners, which are for single keys. -/
theorem reshape (h : B.Holds G w) (hr : Reshapes (G + E) (G' + E') w.layout w'.layout) (hE : ∀ id, .listener id ∉ E')
    (hown : ∀ {id q}, .listener id ∈ G' → w'.layout.Posted id q → ∃ key next, q = (Place.entry B.target key).post next)
    (kept : ∀ key, (B.free key ∧ B.becomes (w'.contents.under B.target key)) ∨
      w'.contents.under B.target key = B.before key) : B.Holds G' w' := by
  have old : ∀ {id q}, w'.layout.Posted id q → .listener id ∉ G' → w.layout.Posted id q ∧ .listener id ∉ G + E :=
    fun hq hid => hr.posted hq (by simpa using ⟨hid, hE _⟩)
  refine ⟨hr.objects ▸ h.found, hr.orphans.trans h.orphans, kept, fun {id q} hq hu => ?_, fun {id topic callback} hq ht => ?_,
    fun {id key callback} hq hf => ?_⟩
  · by_cases hid : .listener id ∈ G'
    · obtain ⟨key, next, rfl⟩ := hown hid hq
      exact absurd hu (Place.not_isUser_post _ next)
    · exact h.users (old hq hid).1 hu
  · by_cases hid : .listener id ∈ G'
    · obtain ⟨key, next, he⟩ := hown hid hq
      simp only [Place.post, Post.object.injEq] at he
      exact absurd he.2.1 (ht key)
    · exact h.quiet (old hq hid).1 ht
  · by_cases hid : .listener id ∈ G'
    · exact Or.inr hid
    · obtain ⟨hq', hn⟩ := old hq hid
      exact (h.closed hq' hf).imp_right fun hm => absurd (Multiset.mem_add.2 (Or.inl hm)) hn

end Stage.Holds

/-! ## Families that watch single keys -/

/-- The observers among `S` watch nothing but keys of an object. -/
def Family.Keyed (N : ι → Reader π) (S : Finset ι) (o : ObjectId) : Prop :=
  ∀ i ∈ S, ∀ p, (N i).places p → ∃ key, p = .entry o key

section

variable {N : ι → Reader π} {S S' : Finset ι} {R : ι → Running π} {B : Stage π} {E : Multiset Piece}
  {w w' : World (Callback π) (Env π σ)}

/-- What is registered under an id that a family owns. -/
theorem Family.Run.posted {K : Layout π} {o : ObjectId} (h : Family.Run N S R K) (hN : Family.Keyed N S o) {id : ListenerId}
    {q : Post π} (hid : .listener id ∈ Family.owned S R) (hq : K.Posted id q) :
    ∃ j ∈ S, ∃ l ∈ (R j).leaves, l.id = id ∧ q = l.post ∧ ∃ key, l.place = .entry o key ∧ (N j).places (.entry o key) := by
  obtain ⟨j, hj, l, hl, rfl⟩ := h.leaf_of_owned hid
  have hp := (h j hj).placed l hl
  obtain ⟨key, hkey⟩ := hN j hj _ hp.place
  exact ⟨j, hj, l, hl, rfl, hp.holds.only q hq, key, hkey, hkey ▸ hp.place⟩

/-- Fewer observers may be set in motion when the others watch no key that is still free. -/
theorem Stage.Holds.narrow (h : B.Holds (Family.owned S R) w) (hR : Family.Run N S R w.layout)
    (hN : Family.Keyed N S B.target) (S' : Finset ι) (free : String → Prop) (hfree : ∀ key, free key → B.free key)
    (hS : ∀ i ∈ S, i ∉ S' → ∀ key, (N i).places (.entry B.target key) → ¬free key) :
    (B.narrow free w).Holds (Family.owned S' R) w where
  found := h.found
  orphans := h.orphans
  kept _ := Or.inr rfl
  users := h.users
  quiet := h.quiet
  closed {id key callback} hq hf := by
    refine (h.closed hq (hfree key hf)).imp_right fun hid => ?_
    obtain ⟨j, hj, l, hl, rfl, he, key', hplace, hp⟩ := hR.posted hN hid hq
    rw [Leaf.post, hplace] at he
    simp only [Place.post, Post.object.injEq, ObjectTopic.after.injEq] at he
    obtain ⟨-, rfl, -⟩ := he
    by_cases hjS : j ∈ S'
    · exact Family.mem_owned.2 ⟨j, hjS, ((hR j hj).placed l hl).owned⟩
    · exact absurd hf (hS j hj hjS key hp)

end

/-- The world is as a stage says, at a depth of nested dispatches, and of the observers among `S` besides `Y` holds. -/
def Stage.Along (B : Stage π) (S : Finset ι) (depth : Nat) (config : Config)
    (Y : (ι → Running π) → Multiset Piece → Option Value → World (Callback π) (Env π σ) → Prop) (R : ι → Running π)
    (E : Multiset Piece) (o : Option Value) (w : World (Callback π) (Env π σ)) : Prop :=
  B.Holds (Family.owned S R) w ∧ w.depth = depth ∧ w.config = config ∧ (∀ id, .listener id ∉ E) ∧ Y R E o w

theorem Stage.Along.congr {B : Stage π} {S : Finset ι} {d : Nat} {m : Config}
    {Y : (ι → Running π) → Multiset Piece → Option Value → World (Callback π) (Env π σ) → Prop}
    (hY : ∀ {R R' : ι → Running π} {E o w}, (∀ i ∈ S, R' i = R i) → Y R E o w → Y R' E o w) {R R' : ι → Running π}
    {E : Multiset Piece} {o : Option Value} {w : World (Callback π) (Env π σ)} (hR : ∀ i ∈ S, R' i = R i)
    (h : B.Along S d m Y R E o w) : B.Along S d m Y R' E o w :=
  ⟨Family.owned_congr hR ▸ h.1, h.2.1, h.2.2.1, h.2.2.2.1, hY hR h.2.2.2.2⟩

/-- What is behind the sink of an observer on a stage. -/
abbrev Behind.staged (N : ι → Reader π) (S : Finset ι) (B : Stage π) (depth : Nat) (config : Config)
    (Y : (ι → Running π) → Multiset Piece → Option Value → World (Callback π) (Env π σ) → Prop) : Behind π σ Value :=
  Behind.family N S (B.Along S depth config Y)

theorem Behind.Stable.staged {N : ι → Reader π} {S : Finset ι} {B : Stage π} {d : Nat} {m : Config} {D : Place → Prop}
    {Y : (ι → Running π) → Multiset Piece → Option Value → World (Callback π) (Env π σ) → Prop}
    (hD : ∀ p, D p → ∃ key, p = .entry B.target key ∧ ¬B.free key)
    (hY : ∀ {R E o w w' G G'}, Y R E o w → w.Fits (Family.owned S R + E + G) → Touches (Place.posts D) G G' w w' →
      Y R E o w') : (Behind.staged N S B d m Y).Stable D := by
  rintro F L o w G G' w' ⟨R, E, rfl, hL, hR, hB, hd, hm, hE, h⟩ hw t
  refine ⟨R, E, rfl, hL, hR.same (fun p hp => t.same hw (Multiset.mem_add.2 (Or.inl hp))) t.layout.lists t.layout.objects,
    hB.touch hD t, t.depth.trans hd, t.config.trans hm, hE, hY h hw t⟩

/-! ## Waves -/

/-- A change of a key of an object, and how things stood before it: the observers among `among` run as `running` says and own
`extra` besides. -/
structure Wave (π σ ι : Type) where
  readers : ι → Reader π
  among : Finset ι
  stage : Stage π
  key : String
  value : Value
  running : ι → Running π
  extra : Multiset Piece
  start : World (Callback π) (Env π σ)

namespace Wave

variable {W : Wave π σ ι} {P P' : Leaf π → Prop} {R R' : ι → Running π} {E E' : Multiset Piece} {d : Nat}
  {w w' : World (Callback π) (Env π σ)}

/-- What is kept on a stage while a change goes through it. A listener is up to date, or was there before and what it watches
has not changed since, or is among `P`. -/
structure During (W : Wave π σ ι) (d : Nat) (P : Leaf π → Prop) (R : ι → Running π) (E : Multiset Piece)
    (w : World (Callback π) (Env π σ)) : Prop where
  runs : Family.Run W.readers W.among R w.layout
  fits : w.Fits (Family.owned W.among R + E)
  stage : W.stage.Holds (Family.owned W.among R) w
  leaves : ∀ l, Family.Has W.among R l → (l.Current w.contents ∨
    (Family.Has W.among W.running l ∧ l.place.read w.contents = l.place.read W.start.contents)) ∨ P l
  layout : Reshapes (Family.owned W.among W.running + W.extra) (Family.owned W.among R + E) W.start.layout w.layout
  plain : ∀ id, .listener id ∉ E
  depth : w.depth = d
  config : w.config = W.start.config

namespace During

theorem mono (h : W.During d P R E w) (hP : ∀ l, Family.Has W.among R l → P l → P' l) : W.During d P' R E w :=
  { h with leaves := fun l hl => (h.leaves l hl).imp_right (hP l hl) }

/-- What is kept looks only at the listeners and cells and at what containers hold. -/
theorem congr (h : W.During d P R E w) (w' : World (Callback π) (Env π σ)) (hl : w'.layout = w.layout)
    (hc : w'.contents = w.contents) (hm : w'.config = w.config) :
    W.During w'.depth P R E w' where
  runs := hl ▸ h.runs
  fits := ⟨hl ▸ h.fits.has, h.fits.nodup, hl ▸ h.fits.tidy⟩
  stage := h.stage.congr hl fun _ => by rw [hc]
  leaves := hc ▸ h.leaves
  layout := hl ▸ h.layout
  plain := h.plain
  depth := rfl
  config := hm.trans h.config

end During

/-- How the turn of an observer `j` goes on: only the observers among `S` are behind its sink, and only the keys `free` may
change. -/
structure Route (W : Wave π σ ι) (S : Finset ι) (free : String → Prop) (j : ι) : Prop where
  subset : ∀ i ∈ S, i ∈ W.among ∧ i ≠ j
  narrow : ∀ key, free key → W.stage.free key
  taken : ¬free W.key
  apart : ∀ i ∈ W.among, i ∉ S → ∀ key, (W.readers i).places (.entry W.stage.target key) → ¬free key
  rest : ∀ i ∈ W.among, i ≠ j → i ∉ S → ∀ p, (W.readers i).places p → (W.readers j).places p

/-- An invariant of the wave is kept by everything that is told about `e`. -/
structure Keeps (W : Wave π σ ι) (H : Host π σ) (r : π → Event → σ → σ → Prop) (n : Nat) (topic : ObjectTopic) (e : Event)
    (X : (ι → Running π) → Multiset Piece → List ListenerId → World (Callback π) (Env π σ) → Prop) : Prop where
  congr : ∀ {R E} ids {w w'}, X R E ids w → w'.layout = w.layout →
    (∀ key, w'.contents.under W.stage.target key = w.contents.under W.stage.target key) → w'.env.host = w.env.host →
      X R E ids w'
  skip : ∀ {R E id ids w}, X R E (id :: ids) w → X R E ids w
  user : ∀ {R E id ids w p h}, X R E (id :: ids) w → id ∉ ids → W.stage.users id (.object W.stage.target topic (.user p)) →
    r p e w.env.host h → X R E ids (w.setHost h)
  /-- An observer has its turn. -/
  leaf : ∀ {R E id ids w j}, topic = .after W.key → j ∈ W.among →
    (W.readers j).places (.entry W.stage.target W.key) → Family.Run W.readers W.among R w.layout →
    w.contents.under W.stage.target W.key = W.value → X R E (id :: ids) w →
    ∃ S free Y, W.Route S free j ∧ Y R E (some (R j).value) w ∧
      (∀ {R R' : ι → Running π} {E o w}, (∀ i ∈ S, R' i = R i) → Y R E o w → Y R' E o w) ∧
      (∀ l ∈ (R j).leaves, l.place = .entry W.stage.target W.key → (W.readers j).Tells H n
        (Behind.staged W.readers S (W.stage.narrow free w) (W.start.depth + 1) W.start.config Y) (R j) l w) ∧
      ∀ {R' E' w'}, (∀ i ∈ W.among, i ≠ j → i ∉ S → R' i = R i) →
        (∀ key, ¬free key → w'.contents.under W.stage.target key = w.contents.under W.stage.target key) →
        Y R' E' (some (R' j).value) w' → X R' E' ids w'

variable [DecidableEq ι] {H : Host π σ} {r : π → Event → σ → σ → Prop} {n : Nat} {topic : ObjectTopic} {e : Event}
  {X : (ι → Running π) → Multiset Piece → List ListenerId → World (Callback π) (Env π σ) → Prop}

/-- The turn of an observer that watches the key. -/
theorem Keeps.turn (hX : W.Keeps H r n (.after W.key) e X) (hN : Family.Keyed W.readers W.among W.stage.target)
    {l : Leaf π} {j : ι} {id : ListenerId} {ids : List ListenerId} (hj : j ∈ W.among) (hl : l ∈ (R j).leaves)
    (hplace : l.place = .entry W.stage.target W.key) (h : W.During (W.start.depth + 1) (fun l' => P l' ∨ l'.id = l.id) R E w)
    (hread : w.contents.under W.stage.target W.key = W.value) (hx : X R E (id :: ids) w) :
    (l.sink.emit (engine H n) (H.observer (engine H n)) (l.place.read w.contents)).Ends w fun _ w' =>
      (∃ R' E', W.During (W.start.depth + 1) P R' E' w' ∧ w'.contents.under W.stage.target W.key = W.value ∧
        X R' E' ids w') ∧ ∃ G G', Reshapes G G' w.layout w'.layout := by
  have hp := ((h.runs j hj).placed l hl).place
  rw [hplace] at hp
  obtain ⟨S, free, Y, hroute, hY, hcongr, htell, hback⟩ := hX.leaf rfl hj hp h.runs hread hx
  have hS : S ⊆ W.among.erase j := fun i hi => Finset.mem_erase.2 ⟨(hroute.subset i hi).2, (hroute.subset i hi).1⟩
  have hB := h.stage.narrow h.runs hN S free hroute.narrow hroute.apart
  refine (Family.turn hj hS h.runs h.fits hl (htell l hl hplace) ⟨hB, h.depth, h.config, h.plain, hY⟩
    (fun hR => Stage.Along.congr (Y := Y) hcongr hR) hroute.rest).imp fun _ w' h' => ?_
  obtain ⟨R', E', hR', hrest, ⟨hB', -, -, hE', hY'⟩, hm, hleaves⟩ := h'
  -- Keys that were not free any more are as they were.
  have hkept : ∀ key, ¬free key →
      w'.contents.under W.stage.target key = w.contents.under W.stage.target key :=
    fun key hk => (hB'.kept key).resolve_left fun hf => hk hf.1
  refine ⟨⟨R', E', ⟨hR', hm.fits h.fits, ?_, fun l' hl' => ?_, h.layout.trans hm.layout, hE', hm.depth.trans h.depth,
    hm.config.trans h.config⟩, (hkept _ hroute.taken).trans hread, hback hrest hkept hY'⟩, _, _, hm.layout⟩
  · refine h.stage.reshape hm.layout hE' (fun hid hq => ?_) fun key => ?_
    · obtain ⟨i, hi, l', hl', -, rfl, key, hkey, -⟩ := hR'.posted hN hid hq
      exact ⟨key, l'.sink, by rw [Leaf.post, hkey]⟩
    · rcases hB'.kept key with ⟨hf, hb⟩ | he
      · exact Or.inl ⟨hroute.narrow key hf, hb⟩
      · exact (congrArg (fun u => (W.stage.free key ∧ W.stage.becomes u) ∨ u = W.stage.before key) he).mpr (h.stage.kept key)
  · rcases hleaves l' hl' with hc | ⟨hold, hne, hread'⟩
    · exact Or.inl (Or.inl hc)
    · rcases h.leaves l' hold with (hc | ⟨hs, hr⟩) | hP
      · exact Or.inl (Or.inl ((congrArg (fun u => l'.value.same u = true) hread').mpr hc))
      · exact Or.inl (Or.inr ⟨hs, hread'.trans hr⟩)
      · exact Or.inr (hP.resolve_right hne)

/-- The pass over the listeners of the key, or of all entries. -/
theorem Keeps.attends (hX : W.Keeps H r n topic e X) (hN : Family.Keyed W.readers W.among W.stage.target)
    (htopic : (topic = .after W.key ∧ W.stage.free W.key ∧ e = .value W.value) ∨ topic = .entries) :
    Attends H r n (Post.OfObject W.stage.target topic) e fun P ids w => ∃ R E,
      W.During (W.start.depth + 1) P R E w ∧ w.contents.under W.stage.target W.key = W.value ∧ X R E ids w where
  mono := by
    rintro P P' ids w ⟨R, E, h, hr, hx⟩ hP
    exact ⟨R, E, h.mono fun l _ => hP l, hr, hx⟩
  apart := by
    rintro P ids w w' ⟨R, E, h, hr, hx⟩ ha hh
    have h' := h.congr _ ha.layout ha.contents ha.config
    rw [ha.depth, h.depth] at h'
    exact ⟨R, E, h', by rw [ha.contents, hr], hX.congr _ hx ha.layout (fun _ => by rw [ha.contents]) hh⟩
  tidy := by
    rintro P ids w ⟨R, E, h, -, -⟩
    exact h.fits.tidy
  orphans := by
    rintro P ids w ⟨R, E, h, -, -⟩
    exact h.stage.orphans
  user := by
    rintro P w id ids q p h' ⟨R, E, h, hr, hx⟩ hid ⟨callback, rfl⟩ hq hp hrel
    obtain rfl : callback = .user p := hp
    refine ⟨R, E, ?_, hr, hX.user hx hid (h.stage.users hq ⟨p, rfl⟩) hrel⟩
    have h₂ : W.During (W.start.depth + 1) P R E w := h.mono fun l hl hPl => hPl.resolve_right fun hid => ?_
    · exact { h₂.congr (w.setHost h') rfl rfl rfl with depth := h.depth }
    · obtain ⟨i, hi, hil⟩ := hl
      have he := ((h.runs i hi).placed l hil).holds.only _ (hid ▸ hq)
      exact l.place.not_isUser_post l.sink ⟨p, (congrArg Post.callback he).symm⟩
  leaf := by
    rintro P w id ids q ⟨R, E, h, hr, hx⟩ ⟨callback, rfl⟩ hq hu
    rcases htopic with ⟨rfl, hfree, rfl⟩ | rfl
    · have hid := (h.stage.closed hq hfree).resolve_left hu
      obtain ⟨j, hj, l, hl, rfl, he, key, hplace, -⟩ := h.runs.posted hN hid hq
      have hkey : key = W.key := by
        rw [Leaf.post, hplace] at he
        simp only [Place.post, Post.object.injEq, ObjectTopic.after.injEq] at he
        exact he.2.1.symm
      subst hkey
      exact ⟨l, he, by rw [hplace]; exact hr.symm, hX.turn hN hj hl hplace h hr hx⟩
    · exact absurd (h.stage.quiet hq (by simp)) hu
  absent := by
    rintro P w id ids ⟨R, E, h, hr, hx⟩ hS
    refine ⟨R, E, h.mono fun l hl hPl => hPl.resolve_right ?_, hr, hX.skip hx⟩
    rintro ⟨rfl, hSl⟩
    obtain ⟨i, hi, hil⟩ := hl
    have hk : w.layout.Knows l.post := by
      obtain ⟨callback, hc⟩ := hSl
      rw [hc]
      exact h.stage.found
    exact hS _ hSl (((h.runs i hi).placed l hil).holds.posted hk)

/-! ### The course of a wave -/

/-- What a wave finds: the observers run, everything is as the stage says, and one more dispatch may begin. -/
structure Begins (W : Wave π σ ι) : Prop where
  runs : Family.Run W.readers W.among W.running W.start.layout
  fits : W.start.Fits (Family.owned W.among W.running + W.extra)
  stage : W.stage.Holds (Family.owned W.among W.running) W.start
  plain : ∀ id, .listener id ∉ W.extra
  keyed : Family.Keyed W.readers W.among W.stage.target
  depth : W.start.depth < W.start.config.maxDispatchDepth

/-- The key has changed, and nothing else of what its object has under keys. -/
structure Changed (W : Wave π σ ι) (w : World (Callback π) (Env π σ)) : Prop where
  layout : w.layout = W.start.layout
  key : w.contents.under W.stage.target W.key = W.value
  others : ∀ key, key ≠ W.key → w.contents.under W.stage.target key = W.start.contents.under W.stage.target key

variable {f : List (String × Value) → List (String × Value)}

omit [DecidableEq ι] in
theorem Begins.found (h : W.Begins) : W.stage.target.index < W.start.layout.objects := h.stage.found

omit [DecidableEq ι] in
theorem Begins.rest (h : W.Begins) : W.During W.start.depth (fun _ => False) W.running W.extra W.start where
  runs := h.runs
  fits := h.fits
  stage := h.stage
  leaves _ hl := Or.inl (Or.inr ⟨hl, rfl⟩)
  layout := Reshapes.refl _ _
  plain := h.plain
  depth := rfl
  config := rfl

omit [DecidableEq ι] in
/-- What a change of the key leaves under the keys of the object. -/
theorem Begins.amid (h : W.Begins) (hnew : ∀ es, (Fields.get? W.key (f es)).getD .undefined = W.value)
    (hf : ∀ es name, name ≠ W.key → Fields.get? name (f es) = Fields.get? name es)
    (ha : W.start.Amid (W.start.changed W.stage.target f) w) : W.Changed w := by
  have hentries : w.contents.entries W.stage.target = f (W.start.contents.entries W.stage.target) := by
    rw [ha.contents, World.changed, if_pos h.found, Contents.setEntries]
    exact if_pos rfl
  refine ⟨ha.layout, ?_, fun key hk => ?_⟩
  · rw [Contents.under, hentries, hnew]
  · rw [Contents.under, hentries, hf _ _ hk, Contents.under]

omit [DecidableEq ι] in
/-- Right after the change only the listeners of the key are out of date. -/
theorem Begins.changed (h : W.Begins) (hw : W.Changed w) (hm : w.config = W.start.config)
    (hkept : (W.stage.free W.key ∧ W.stage.becomes W.value) ∨
      W.start.contents.under W.stage.target W.key = W.value) :
    W.During w.depth
      (fun l => W.start.contents.under W.stage.target W.key ≠ W.value ∧ w.layout.Due (Post.OfObject W.stage.target (.after W.key)) l)
      W.running W.extra w where
  runs := hw.layout ▸ h.runs
  fits := ⟨hw.layout ▸ h.fits.has, h.fits.nodup, hw.layout ▸ h.fits.tidy⟩
  stage := by
    obtain ⟨h₁, h₂, h₃, h₄, h₅, h₆⟩ := h.stage
    rw [← hw.layout] at h₁ h₂ h₄ h₅ h₆
    refine ⟨h₁, h₂, fun key => ?_, h₄, h₅, h₆⟩
    by_cases hk : key = W.key
    · subst hk
      rcases hkept with ⟨hf, hb⟩ | he
      · exact Or.inl ⟨hf, hw.key ▸ hb⟩
      · have h₃' := h₃ W.key
        rwa [he, ← hw.key] at h₃'
    · rw [hw.others key hk]
      exact h₃ key
  leaves l hl := by
    obtain ⟨i, hi, hil⟩ := hl
    have hp := (h.runs i hi).placed l hil
    obtain ⟨key, hkey⟩ := h.keyed i hi _ hp.place
    by_cases hread : l.place.read w.contents = l.place.read W.start.contents
    · exact Or.inl (Or.inr ⟨⟨i, hi, hil⟩, hread⟩)
    simp only [hkey, Place.read_entry] at hread
    obtain rfl : key = W.key := by
      by_contra hk
      exact hread (hw.others key hk)
    have hpost : l.post = .object W.stage.target (.after W.key) (.forward l.sink) := by rw [Leaf.post, hkey]; rfl
    have hknows : W.start.layout.Knows l.post := by
      rw [hpost]
      exact h.found
    refine Or.inr ⟨fun he => hread (hw.key.trans he.symm), ⟨_, hpost⟩, l.post, ⟨_, hpost⟩, ?_⟩
    rw [hw.layout]
    exact hp.holds.posted hknows
  layout := hw.layout ▸ Reshapes.refl _ _
  plain := h.plain
  depth := rfl
  config := hm

variable {Z : (ι → Running π) → Multiset Piece → World (Callback π) (Env π σ) → Prop} {K : σ → Prop} {old : Value}

/-- The users that are told before a change of the key. -/
def Before (W : Wave π σ ι) (p : π) : Prop :=
  ∃ id, W.stage.users id (.object W.stage.target (.before W.key) (.user p))

/-- What a wave leaves behind. -/
def Done (W : Wave π σ ι) (Z : (ι → Running π) → Multiset Piece → World (Callback π) (Env π σ) → Prop)
    (w : World (Callback π) (Env π σ)) : Prop :=
  ∃ R E, W.During W.start.depth (fun _ => False) R E w ∧ (w.contents.under W.stage.target W.key).same W.value = true ∧ Z R E w

omit [DecidableEq ι] in
/-- The end of the last pass. -/
theorem Keeps.done (hZ : W.Keeps H r n .entries e fun R E _ => Z R E)
    (h : W.During (W.start.depth + 1) (fun _ => False) R E w)
    (hread : w.contents.under W.stage.target W.key = W.value) (hz : Z R E w) : W.Done Z { w with depth := w.depth - 1 } := by
  have h' := h.congr { w with depth := w.depth - 1 } rfl rfl rfl
  have hd : ({ w with depth := w.depth - 1 } : World (Callback π) (Env π σ)).depth = W.start.depth := by
    rw [show w.depth = W.start.depth + 1 from h.depth]
    rfl
  rw [hd] at h'
  refine ⟨R, E, h', ?_, hZ.congr [] hz rfl (fun _ => rfl) rfl⟩
  exact (congrArg (fun u : Value => u.same W.value = true) hread).mpr (Value.same_refl _)

/-- The change of a key that is free. -/
theorem change_ends (h : W.Begins) (hH : H.Quiet r) (hfree : W.stage.free W.key) (hb : W.stage.becomes W.value)
    (hnew : ∀ es, (Fields.get? W.key (f es)).getD .undefined = W.value)
    (hf : ∀ es name, name ≠ W.key → Fields.get? name (f es) = Fields.get? name es)
    (hX : W.Keeps H r n (.after W.key) (.value W.value) X)
    (hZ : W.Keeps H r n .entries (.entry W.key W.value) fun R E _ => Z R E)
    (hK : Host.Keeps r W.Before (.value old) K) (hK₀ : K W.start.env.host)
    (start : ∀ w ids, W.Changed w → K w.env.host → X W.running W.extra ids w)
    (switch : ∀ {R E w}, Family.Run W.readers W.among R w.layout → X R E [] w → Z R E w) :
    (W.stage.target.change (engine H (n + 2)).reactions W.key old W.value f).Ends W.start fun _ => W.Done Z := by
  refine ObjectId.change_ends (P := fun _ => False) (K := K) (U := W.Before)
    (I := fun P ids w => ∃ R E, W.During (W.start.depth + 1) P R E w ∧
      w.contents.under W.stage.target W.key = W.value ∧ X R E ids w)
    (J := fun P _ w => ∃ R E, W.During (W.start.depth + 1) P R E w ∧
      w.contents.under W.stage.target W.key = W.value ∧ Z R E w)
    hH h.depth ?_ hK hK₀ (hX.attends h.keyed (Or.inl ⟨rfl, hfree, rfl⟩)) (hZ.attends h.keyed (Or.inr rfl)) ?_ ?_ ?_
  · intro id callback hq
    obtain ⟨p, hp⟩ := h.stage.quiet hq nofun
    obtain rfl : callback = .user p := hp
    exact ⟨p, rfl, id, h.stage.users hq ⟨p, rfl⟩⟩
  · intro w₁ ids ha hK₁
    have hw := h.amid hnew hf ha
    have hd := h.changed hw ha.config (Or.inl ⟨hfree, hb⟩)
    rw [ha.depth] at hd
    exact ⟨_, _, hd.mono fun l _ hl => Or.inr hl.2, hw.key, start w₁ ids hw hK₁⟩
  · rintro w₂ ids ⟨R, E, h₂, hr, hx⟩
    exact ⟨R, E, h₂.mono fun _ _ => False.elim, hr, switch h₂.runs hx⟩
  · rintro w₃ ⟨R, E, h₃, hr, hz⟩
    exact hZ.done h₃ hr hz

/-- An assignment to a key that is free, or holds the same value already. -/
theorem assign_ends (h : W.Begins) (hH : H.Quiet r)
    (hX : (W.start.contents.under W.stage.target W.key).same W.value = false →
      W.stage.free W.key ∧ W.stage.becomes W.value ∧ W.Keeps H r n (.after W.key) (.value W.value) X ∧
        (∀ w ids, W.Changed w → K w.env.host → X W.running W.extra ids w) ∧
          ∀ {R E w}, Family.Run W.readers W.among R w.layout → X R E [] w → Z R E w)
    (hZ : W.Keeps H r n .entries (.entry W.key W.value) fun R E _ => Z R E)
    (hK : ∀ old, Host.Keeps r W.Before (.value old) K) (hK₀ : K W.start.env.host)
    (same : (W.start.contents.under W.stage.target W.key).same W.value = true → Z W.running W.extra W.start) :
    (W.stage.target.assign (engine H (n + 2)).reactions W.key W.value).Ends W.start fun _ => W.Done Z := by
  refine ObjectId.assign_ends ?_ ?_ ?_
  · intro u hu hs
    have hs' : (W.start.contents.under W.stage.target W.key).same W.value = true := by
      rwa [Contents.under, hu]
    exact ⟨_, _, h.rest, hs', same hs'⟩
  · intro hnone hv
    have hs : W.start.contents.under W.stage.target W.key = W.value := by
      rw [Contents.under, hnone, hv]
      rfl
    have hz := same (by rw [hs]; exact Value.same_refl _)
    rw [← hv]
    refine ObjectId.fresh_ends (J := fun P _ w => ∃ R E, W.During (W.start.depth + 1) P R E w ∧
      w.contents.under W.stage.target W.key = W.value ∧ Z R E w) hH h.depth (hZ.attends h.keyed (Or.inr rfl)) ?_ ?_
    · intro w₁ ids ha hh
      have hw := h.amid (f := Fields.put W.key W.value) (fun es => by simp) (fun es name hn => by simp [hn]) ha
      have hd := h.changed hw ha.config (Or.inr hs)
      rw [ha.depth] at hd
      refine ⟨_, _, hd.mono fun l _ hl => absurd hs hl.1, hw.key, hZ.congr [] hz hw.layout (fun key => ?_) hh⟩
      by_cases hk : key = W.key
      · rw [hk, hw.key, hs]
      · exact hw.others key hk
    · rintro w₂ ⟨R, E, h₂, hr, hz⟩
      exact hZ.done h₂ hr hz
  · intro hs
    obtain ⟨hfree, hb, hX, start, switch⟩ := hX hs
    exact change_ends h hH hfree hb (fun es => by simp) (fun es name hn => by simp [hn]) hX hZ (hK _) hK₀ start switch

omit [DecidableEq ι] in
/-- A wave that a sink set off, from the place of the observer in front of it. -/
theorem Done.took {D : Place → Prop} {L : List (Leaf π)}
    {Y : (ι → Running π) → Multiset Piece → Option Value → World (Callback π) (Env π σ) → Prop} (h : W.Begins) (hw : W.Done Z w)
    (hL : ∀ l, l ∈ L ↔ Family.Has W.among W.running l)
    (hD : ∀ p, D p → ∃ key, p = .entry W.stage.target key ∧ ¬W.stage.free key)
    (hY : ∀ {R E}, (w.contents.under W.stage.target W.key).same W.value = true → Z R E w → Y R E (some W.value) w) :
    (Behind.staged W.readers W.among W.stage W.start.depth W.start.config Y).Took D
      (Family.owned W.among W.running + W.extra) L W.value W.start w := by
  obtain ⟨R, E, hd, hread, hz⟩ := hw
  obtain ⟨L', hL'⟩ := Family.exists_leaves W.among R
  refine ⟨_, L', ⟨R, E, rfl, hL', hd.runs, hd.stage, hd.depth, hd.config, hd.plain, hY hread hz⟩,
    ⟨hd.layout, fun p hp => ?_, hd.depth, hd.config⟩, fun l hl => ?_⟩
  · obtain ⟨key, rfl, hn⟩ := hD p hp
    have before := (h.stage.kept key).resolve_left fun hf => hn hf.1
    exact ((hd.stage.kept key).resolve_left fun hf => hn hf.1).trans before.symm
  · refine (((hd.leaves l ((hL' l).1 hl)).resolve_right id)).imp_right ?_
    rintro ⟨hm, hr⟩
    exact ⟨(hL l).2 hm, hr⟩

end Wave

end LiveBindings
