import LiveBindings.Proofs.Presence

/-!
# Flags that follow the presence of values in a list

A `Panel` is an object with a list under one of its keys and flags under others. A `Switch` is a binding in both directions
between a flag and the presence of a fixed value in the list. It has three observers (`Panel.reader`): one of the key, which
lets what follows the flag write to the list found there; one of the flag, which runs in a slot; and one of the presence, which
writes the flag. Both that write do so behind a flag of the switch's own that is set while one of them writes, so that the
observer of the flag drops what the observer of the presence writes (`Panel.answers`).
-/

namespace LiveBindings

variable {π σ : Type}

/-- The cells of a binding between a flag and the presence of a value. -/
structure Switch where
  flag : String
  row : Ref .args
  slot : Ref .slot
  syncing : Ref .flag
  ready : Ref .flag
deriving DecidableEq

/-- The observers of a switch. -/
inductive Role
  /-- It finds the list that is written. -/
  | path
  /-- It writes the list. -/
  | flag
  /-- It writes the flag. -/
  | member
deriving DecidableEq

/-- The list that a switch writes, and the value that it puts there. -/
structure Aim where
  list : ListId
  member : Value

/-- An object with a list under a key, and for each flag the value that it stands for and how often its test is negated. -/
structure Panel where
  target : ObjectId
  scope : Scope
  key : String
  member : String → Expr
  value : String → Value
  turns : String → Nat

/-- A sink behind negations that are undone. -/
def turnedSink : Nat → Sink π → Sink π
  | 0, next => next
  | turns + 1, next => .inverse Value.negated (turnedSink turns next)

theorem emit_turnedSink (E : Engine π σ) (observer : π → Value → Live π σ Unit) (turns : Nat) (next : Sink π) (v : Value) :
    (turnedSink turns next).emit E observer v = next.emit E observer (turnedBack turns v) := by
  induction turns generalizing v with
  | zero => rfl
  | succ turns ih => rw [turnedSink, Sink.emit, ih, turnedBack]

theorem turnedSink_inverse (turns : Nat) (next : Sink π) :
    turnedSink turns (.inverse Value.negated next) = .inverse Value.negated (turnedSink turns next) := by
  induction turns with
  | zero => rfl
  | succ turns ih => rw [turnedSink, ih, turnedSink]

/-- A guard that drops every value. -/
theorem Accepts.dropped {H : Host π σ} {D : Place → Prop} {f : Ref .flag} {ready : Option (Ref .flag)}
    {next : Sink π} {J : Behind π σ Value} (hJ : J.Stable D) (hblind : ∀ {F L o w} o', J F L o w → J F L o' w)
    (hblocked : ∀ {F L o w}, J F L o w → w.layout.flagIs f true ∨ ∃ g, ready = some g ∧ w.layout.flagIs g false) :
    Accepts H D 0 (.guarded f ready next) (fun _ => True) J := by
  refine ⟨hJ, fun {n F L o w v} _ _ h hw => ?_⟩
  have hb : (w.layout.cells.flag f || ready.any fun g => !w.layout.cells.flag g) = true := by
    rcases hblocked h with hf | ⟨g, rfl, hg⟩
    · simp [hf.eq]
    · simp [hg.eq]
  simp only [Sink.emit, emitGuarded, Run.ends_bind, ends_cells, hb, if_true, Run.ends_pure]
  exact ⟨F, L, hblind _ h, .refl _ _, .refl _ _⟩

/-- A guard that is open is closed while a value is passed on. -/
theorem emitGuarded_ends {N : Post π → Prop} {f : Ref .flag} {ready : Option (Ref .flag)} {act : Live π σ Unit}
    {w : World (Callback π) (Env π σ)} {Q : PUnit → World (Callback π) (Env π σ) → Prop} (hf : w.layout.flagIs f false)
    (hready : ∀ g, ready = some g → w.layout.flagIs g true)
    (h : ∀ w₁, Touches N {.flag f} {.flag f} w w₁ → w₁.layout.flagIs f true → act.Ends w₁ fun _ w₂ =>
      w₂.layout.flagIs f true ∧ ∀ w₃, Touches N {.flag f} {.flag f} w₂ w₃ → w₃.layout.flagIs f false → Q ⟨⟩ w₃) :
    (emitGuarded f ready act).Ends w Q := by
  have hopen : (w.layout.cells.flag f || ready.any fun g => !w.layout.cells.flag g) = false := by
    cases hg : ready with
    | none => simp [hf.eq]
    | some g => simp [hf.eq, (hready g hg).eq]
  simp only [emitGuarded, Run.ends_bind, ends_cells, hopen, Bool.false_eq_true, if_false]
  refine setFlag_ends (N := N) hf fun w₁ t₁ hf₁ => (h w₁ t₁ hf₁).imp ?_
  rintro _ w₂ ⟨hf₂, h₃⟩
  exact setFlag_ends (N := N) hf₂ h₃

section

variable {w : World (Callback π) (Env π σ)} {o : ObjectId}

/-- What a key that is put leaves under the keys of the object. -/
theorem World.under_put (h : o.index < w.layout.objects) (name : String) (v : Value) (key : String) :
    (w.changed o (Fields.put name v)).under o key = if key = name then v else w.contents.under o key := by
  simp only [World.changed, if_pos h, Contents.under, Contents.setEntries, if_true]
  by_cases hk : key = name
  · simp [hk]
  · simp [hk]

theorem World.items_changed (w : World (Callback π) (Env π σ)) (o : ObjectId) (f : List (String × Value) → List (String × Value)) :
    (w.changed o f).items = w.contents.items := by
  rw [World.changed]
  split <;> rfl

end

namespace Panel

/-- Where the observer of a flag writes. -/
abbrev listSink (S : Panel) (t : Switch) (a : Aim) : Sink π :=
  .guarded t.syncing none (turnedSink (S.turns t.flag) (.write .toggle (.list a.list) a.member))

/-- Where the observer of a presence writes. -/
abbrev flagSink (S : Panel) (t : Switch) : Sink π := .guarded t.syncing (some t.ready) (keySink S.target t.flag)

/-- What follows the flag, for the list that is found under the key. -/
def source (S : Panel) (t : Switch) : Source :=
  (Source.inverse Value.negated)^[S.turns t.flag] (.guarded (keyExpr t.flag) S.scope t.syncing none)

/-- The observers of switches that aim as `a` says. -/
def reader (S : Panel) (a : Switch → Aim) : Switch × Role → Reader π
  | (t, .path) =>
    { source := keyExpr S.key
      scope := S.scope
      sink := .argument t.row 0 (.writeTo t.slot .toggle (S.source t))
      places := fun p => p = .entry S.target S.key }
  | (t, .flag) =>
    { source := keyExpr t.flag
      scope := S.scope
      sink := S.listSink t (a t)
      places := fun p => p = .entry S.target S.key ∨ p = .entry S.target t.flag }
  | (t, .member) =>
    { source := presenceExpr S.key (S.member t.flag) (S.turns t.flag)
      scope := S.scope
      sink := S.flagSink t
      places := fun p => (∃ key, key ≠ t.flag ∧ p = .entry S.target key) ∨ ∃ l v, p = .element l v }

/-- What observers of switches may watch. -/
def Watched (S : Panel) (p : Place) : Prop := (∃ key, p = .entry S.target key) ∨ ∃ l v, p = .element l v

theorem watched_of_places {S : Panel} {a : Switch → Aim} {i : Switch × Role} {p : Place}
    (hp : (S.reader (π := π) a i).places p) : S.Watched p := by
  obtain ⟨t, _ | _ | _⟩ := i
  · exact Or.inl ⟨_, hp⟩
  · exact Or.inl (hp.elim (fun h => ⟨_, h⟩) fun h => ⟨_, h⟩)
  · exact hp.imp_left fun ⟨key, _, h⟩ => ⟨key, h⟩

/-- What is registered under the id of a listener of an observer of a switch. -/
theorem posted_of_owned {S : Panel} {a : Switch → Aim} {i : Switch × Role} {K : Layout π} {R : Running π} {id : ListenerId}
    {q : Post π} (hR : Runs (S.reader (π := π) a i).places K (S.reader (π := π) a i).source S.scope (S.reader (π := π) a i).sink R)
    (hid : .listener id ∈ R.owned) (hq : K.Posted id q) : ∃ p next, S.Watched p ∧ q = p.post next := by
  obtain ⟨l, hl, rfl⟩ := hR.leaf_of_owned hid
  have hp := hR.placed l hl
  exact ⟨l.place, l.sink, watched_of_places hp.place, hp.holds.only q hq⟩

/-- What surrounds observers that own `G` and are set in motion: their cells `E` are as in the layout `K`, and whoever else
listens is the program or watches a place among `D`. -/
structure Around (S : Panel) (K : Layout π) (d : Nat) (config : Config) (D : Place → Prop) (G E : Multiset Piece)
    (w : World (Callback π) (Env π σ)) : Prop where
  found : S.target.index < w.layout.objects
  orphans : w.layout.cells.orphans = []
  depth : w.depth = d
  config : w.config = config
  plain : ∀ id, .listener id ∉ E
  frozen : ∀ p ∈ E, K.Same w.layout p
  closed : ∀ {id q}, w.layout.Posted id q → q.IsUser ∨ .listener id ∈ G ∨ Place.posts D q

section

variable {S : Panel} {K K' : Layout π} {d n : Nat} {config : Config} {D D' : Place → Prop} {G G' E X X' : Multiset Piece}
  {w w' : World (Callback π) (Env π σ)} {t : Switch} {a : Switch → Aim} {A : Finset (Switch × Role)}
  {R : Switch × Role → Running π} {id : ListenerId} {q : Post π}

namespace Around

theorem congr {d' : Nat} (h : S.Around K d config D G E w) (hl : w'.layout = w.layout) (hd : w'.depth = d')
    (hm : w'.config = w.config) : S.Around K d' config D G E w' := by
  obtain ⟨h₁, h₂, -, h₄, h₅, h₆, h₇⟩ := h
  rw [← hl] at h₁ h₂ h₆ h₇
  exact ⟨h₁, h₂, hd, hm.trans h₄, h₅, h₆, h₇⟩

/-- What an observer of places among `D` does to its own pieces. -/
theorem touch (h : S.Around K d config D G E w) (hw : w.Fits (G + E + X)) (t : Touches (Place.posts D) X X' w w') :
    S.Around K d config D G E w' where
  found := t.layout.objects ▸ h.found
  orphans := t.layout.orphans.trans h.orphans
  depth := t.depth.trans h.depth
  config := t.config.trans h.config
  plain := h.plain
  frozen p hp := (h.frozen p hp).trans (t.same hw (Multiset.mem_add.2 (Or.inr hp)))
  closed hq := (t.posts hq).elim h.closed fun hn => Or.inr (Or.inr hn)

/-- The observers that own `G` own `G'` now. -/
theorem reshape (h : S.Around K d config D G E w) (hr : Reshapes (G + E) (G' + E) w.layout w'.layout)
    (hd : w'.depth = w.depth) (hm : w'.config = w.config) (hE : ∀ p ∈ E, K'.Same w'.layout p) :
    S.Around K' d config D G' E w' where
  found := hr.objects ▸ h.found
  orphans := hr.orphans.trans h.orphans
  depth := hd.trans h.depth
  config := hm.trans h.config
  plain := h.plain
  frozen := hE
  closed {id q} hq := by
    by_cases hid : .listener id ∈ G'
    · exact Or.inr (Or.inl hid)
    · obtain ⟨hq', hn⟩ := hr.posted hq (by simpa using ⟨hid, h.plain id⟩)
      exact (h.closed hq').imp_right fun hm => hm.imp_left fun hm => absurd (Multiset.mem_add.2 (Or.inl hm)) hn

/-- A flag among the cells has been set. -/
theorem set {f : Ref .flag} (h : S.Around K d config D G E w) (hw : w.Fits (G + E)) (hf : .flag f ∈ E)
    (t : Touches (Place.posts fun _ => False) {.flag f} {.flag f} w w') :
    S.Around w'.layout d config D G E w' ∧ w'.Fits (G + E) ∧ Reshapes (G + E) (G + E) w.layout w'.layout ∧
      ∀ p ∈ G, w.layout.Same w'.layout p := by
  obtain ⟨E₀, rfl⟩ := Multiset.exists_cons_of_mem hf
  have hE : G + (.flag f ::ₘ E₀) = G + E₀ + {.flag f} := by
    rw [← Multiset.singleton_add]
    abel
  have hw' : w.Fits (G + E₀ + {.flag f}) := hE ▸ hw
  have t' := t.frame hw'
  rw [← hE] at t'
  refine ⟨⟨t.layout.objects ▸ h.found, t.layout.orphans.trans h.orphans, t.depth.trans h.depth, t.config.trans h.config,
    h.plain, fun p _ => .refl _ p, fun hq => ?_⟩, hw.touch t', t'.layout, fun p hp => t.same hw' (Multiset.mem_add.2 (Or.inl hp))⟩
  exact h.closed ((t.posts hq).resolve_right fun ⟨_, _, hf, _⟩ => hf)

/-- The flag has been reset, so that all cells are as they were before it was set. -/
theorem reset {f : Ref .flag} {w₁ w₂ w₃ : World (Callback π) (Env π σ)} (h : S.Around K d config D G E w) (hw : w.Fits (G + E))
    (hK : K.flagIs f false) (t₁ : Touches (Place.posts fun _ => False) {.flag f} {.flag f} w w₁)
    (h₂ : S.Around w₁.layout d config D G' E w₂) (hw₂ : w₂.Fits (G' + E)) (hf : .flag f ∈ E)
    (t₃ : Touches (Place.posts fun _ => False) {.flag f} {.flag f} w₂ w₃) (hf₃ : w₃.layout.flagIs f false) :
    S.Around K d config D G' E w₃ ∧ w₃.Fits (G' + E) ∧ Reshapes (G' + E) (G' + E) w₂.layout w₃.layout ∧
      ∀ p ∈ G', w₂.layout.Same w₃.layout p := by
  obtain ⟨h₃, hw₃, hr, hsame⟩ := h₂.set hw₂ hf t₃
  refine ⟨{ h₃ with frozen := fun p hp => ?_ }, hw₃, hr, hsame⟩
  by_cases hpf : p = .flag f
  · subst hpf
    exact hf₃.trans hK.symm
  · have hn : p ∉ ({.flag f} : Multiset Piece) := by simpa using hpf
    have s₁ := t₁.layout.same p (hw.has p (Multiset.mem_add.2 (Or.inr hp))) hn
    have s₃ := t₃.layout.same p (hw₂.has p (Multiset.mem_add.2 (Or.inr hp))) hn
    exact ((h.frozen p hp).trans s₁).trans ((h₂.frozen p hp).trans s₃)

/-- Nobody but the program listens for what no observer of a switch watches. -/
theorem users (h : S.Around K d config D G E w)
    (hG : ∀ {id q}, .listener id ∈ G → w.layout.Posted id q → ∃ p next, S.Watched p ∧ q = p.post next)
    (hD : ∀ p, D p → S.Watched p) (hq : w.layout.Posted id q) (hn : ∀ p next, S.Watched p → q ≠ p.post next) : q.IsUser := by
  rcases h.closed hq with hu | hid | ⟨p, next, hp, he⟩
  · exact hu
  · obtain ⟨p, next, hp, he⟩ := hG hid hq
    exact absurd he (hn p next hp)
  · exact absurd he (hn p next (hD p hp))

end Around

end

/-! ## Writing a flag -/

section

variable {S : Panel} {H : Host π σ} {r : π → Event → σ → σ → Prop} {K : Layout π} {d n : Nat} {config : Config}
  {D : Place → Prop} {E : Multiset Piece} {w₀ w w' : World (Callback π) (Env π σ)} {t : Switch} {a : Switch → Aim}
  {R R₀ : Running π} {c : Contents} {P P' : Leaf π → Prop} {v : Value} {f : List (String × Value) → List (String × Value)}

/-- What holds while the observer of a flag hears that it changed: what containers hold is `c`, and the observer `R₀` has
become `R`. -/
structure Hearing (S : Panel) (a : Switch → Aim) (t : Switch) (K : Layout π) (d : Nat) (config : Config) (R₀ : Running π)
    (E : Multiset Piece) (w₀ : World (Callback π) (Env π σ)) (c : Contents) (P : Leaf π → Prop) (R : Running π)
    (w : World (Callback π) (Env π σ)) : Prop where
  runs : Runs (S.reader (π := π) a (t, .flag)).places w.layout (keyExpr t.flag) S.scope (S.listSink t (a t)) R
  handle : R.handle = R₀.handle
  fits : w.Fits (R.owned + E)
  layout : Reshapes (R₀.owned + E) (R.owned + E) w₀.layout w.layout
  around : S.Around K d config (S.reader (π := π) a (t, .member)).places R.owned E w
  contents : w.contents = c
  leaves : ∀ l ∈ R.leaves, l.Current c ∨ P l

/-- Observers of switches listen to an object only for what comes after a change of a key. -/
theorem Watched.topic {p : Place} {next : Sink π} {o : ObjectId} {topic : ObjectTopic} {callback : Callback π}
    (hp : S.Watched p) (he : Post.object o topic callback = p.post next) : ∃ key, p = .entry o key ∧ topic = .after key := by
  rcases hp with ⟨key, rfl⟩ | ⟨l, v, rfl⟩
  · simp only [Place.post, Post.object.injEq] at he
    exact ⟨key, by rw [he.1], he.2.1⟩
  · simp [Place.post] at he

namespace Hearing

theorem users {o : ObjectId} {id : ListenerId} {topic : ObjectTopic} {callback : Callback π}
    (hear : S.Hearing a t K d config R₀ E w₀ c P R w) (hq : w.layout.Posted id (.object o topic callback))
    (ht : ∀ key, topic ≠ .after key) : (Post.object o topic callback).IsUser := by
  refine hear.around.users (posted_of_owned (a := a) (i := (t, .flag)) hear.runs) (fun p hp => watched_of_places hp) hq
    fun p next hp he => ?_
  obtain ⟨key, -, hkey⟩ := hp.topic he
  exact ht key hkey

/-- The listener for the flag drops what it is told. -/
theorem told {l : Leaf π} (hear : S.Hearing a t K d config R₀ E w₀ c (fun l' => P l' ∨ l'.id = l.id) R w)
    (hf : K.flagIs t.syncing true) (hE : .flag t.syncing ∈ E) (hl : l ∈ R.leaves) :
    (l.sink.emit (engine H n) (H.observer (engine H n)) (l.place.read w.contents)).Ends w fun _ w' =>
      (∃ R', S.Hearing a t K d config R₀ E w₀ c P R' w') ∧ ∃ G G', Reshapes G G' w.layout w'.layout := by
  let J : Behind π σ Value := fun F L _ w => F = E ∧ L = [] ∧ (∀ p ∈ E, K.Same w.layout p) ∧ w.contents = c
  have hJ : J.Stable (S.reader (π := π) a (t, .flag)).places := by
    rintro F L o w G G' w' ⟨rfl, rfl, hsame, hc⟩ hw ht
    exact ⟨rfl, rfl, fun p hp => (hsame p hp).trans (ht.same hw hp), ht.contents.trans hc⟩
  have hacc : Accepts H (S.reader (π := π) a (t, .flag)).places 0 (S.listSink t (a t)) (fun _ => True) J :=
    Accepts.dropped hJ (fun _ h => h) fun ⟨_, _, hsame, _⟩ => Or.inl (hf.same (hsame _ hE))
  have hJ₀ : J E [] (some R.value) w := ⟨rfl, rfl, hear.around.frozen, hear.contents⟩
  refine (keyExpr_told hear.runs hacc trivial (Nat.zero_le n) hJ₀ hear.fits hl).imp fun _ w' h' => ?_
  obtain ⟨R', F', L', hh, hR', ⟨rfl, rfl, hsame, hc⟩, hm, hr⟩ := h'
  refine ⟨⟨R', hR', hh.trans hear.handle, hm.fits hear.fits, hear.layout.trans hm.layout,
    hear.around.reshape hm.layout hm.depth hm.config hsame, hc, fun l' hl' => ?_⟩, _, _, hm.layout⟩
  rcases hr l' (by simpa using hl') with hcur | ⟨hold, hread⟩
  · exact Or.inl (hc ▸ hcur)
  · rw [List.append_nil, mem_others] at hold
    exact (hear.leaves l' hold.1).imp_right fun hP => hP.resolve_right hold.2

/-- The passes that announce the change. -/
theorem attends {topic : ObjectTopic} {e : Event} (hf : K.flagIs t.syncing true) (hE : .flag t.syncing ∈ E)
    (htopic : (topic = .after t.flag ∧ e = .value (c.under S.target t.flag)) ∨ topic = .entries) :
    Attends H (fun _ _ _ _ => True) n (Post.OfObject S.target topic) e fun P _ w =>
      ∃ R, S.Hearing a t K d config R₀ E w₀ c P R w where
  mono := by
    rintro P P' ids w ⟨R, hear⟩ hP
    exact ⟨R, { hear with leaves := fun l hl => (hear.leaves l hl).imp_right (hP l) }⟩
  apart := by
    rintro P ids w w' ⟨R, hear⟩ ha -
    exact ⟨R, ha.layout ▸ hear.runs, hear.handle, ⟨ha.layout ▸ hear.fits.has, hear.fits.nodup, ha.layout ▸ hear.fits.tidy⟩,
      ha.layout ▸ hear.layout, hear.around.congr ha.layout (ha.depth.trans hear.around.depth) ha.config,
      ha.contents.trans hear.contents, hear.leaves⟩
  tidy := fun ⟨_, hear⟩ => hear.fits.tidy
  orphans := fun ⟨_, hear⟩ => hear.around.orphans
  user := by
    rintro P w id ids q p h' ⟨R, hear⟩ - - hq hp -
    refine ⟨R, { hear with
      fits := ⟨hear.fits.has, hear.fits.nodup, hear.fits.tidy⟩
      around := hear.around.congr rfl hear.around.depth rfl
      leaves := fun l hl => (hear.leaves l hl).imp_right fun hP => hP.resolve_right fun hid => ?_ }⟩
    have he := (hear.runs.placed l hl).holds.only _ (hid ▸ hq)
    exact l.place.not_isUser_post l.sink ⟨p, (congrArg Post.callback he).symm.trans hp⟩
  leaf := by
    rintro P w id ids q ⟨R, hear⟩ ⟨callback, rfl⟩ hq hu
    rcases htopic with ⟨rfl, rfl⟩ | rfl
    · rcases (hear.around.closed hq).resolve_left hu with hid | ⟨p, next, hp, he⟩
      · obtain ⟨l, hl, rfl⟩ := hear.runs.leaf_of_owned hid
        have hp := hear.runs.placed l hl
        have he := hp.holds.only _ hq
        obtain ⟨key, hplace, hkey⟩ := (watched_of_places (a := a) (i := (t, .flag)) hp.place).topic he
        obtain rfl : t.flag = key := by simpa using hkey
        refine ⟨l, he, ?_, hear.told hf hE hl⟩
        rw [hplace, hear.contents]
        rfl
      · obtain ⟨key, rfl, hkey⟩ := (watched_of_places (a := a) (i := (t, .member)) hp).topic he
        obtain rfl : t.flag = key := by simpa using hkey
        rcases hp with ⟨key, hne, he⟩ | ⟨l, v, he⟩
        · exact absurd (by simpa using he) hne.symm
        · cases he
    · exact absurd (hear.users hq (by simp)) hu
  absent := by
    rintro P w id ids ⟨R, hear⟩ hS
    refine ⟨R, { hear with leaves := fun l hl => (hear.leaves l hl).imp_right fun hP => hP.resolve_right ?_ }⟩
    rintro ⟨rfl, hSl⟩
    have hk : w.layout.Knows l.post := by
      obtain ⟨callback, hc⟩ := hSl
      rw [hc]
      exact hear.around.found
    exact hS _ hSl ((hear.runs.placed l hl).holds.posted hk)

/-- The flag has become something else, or has been made. -/
theorem begins (hear : S.Hearing a t K d config R E w w.contents (fun _ => False) R w) (ha : w.Amid c w')
    (hP : ∀ l ∈ R.leaves, l.Current c ∨ P l) : S.Hearing a t K (d + 1) config R E w c P R w' where
  runs := ha.layout ▸ hear.runs
  handle := rfl
  fits := ⟨ha.layout ▸ hear.fits.has, hear.fits.nodup, ha.layout ▸ hear.fits.tidy⟩
  layout := ha.layout ▸ .refl _ _
  around := hear.around.congr ha.layout (by rw [ha.depth, hear.around.depth]) ha.config
  contents := ha.contents
  leaves := hP

/-- The change has been announced. -/
theorem ended (hear : S.Hearing a t K (d + 1) config R₀ E w₀ c (fun _ => False) R w) :
    S.Hearing a t K d config R₀ E w₀ c (fun _ => False) R { w with depth := w.depth - 1 } :=
  { hear with
    fits := ⟨hear.fits.has, hear.fits.nodup, hear.fits.tidy⟩
    around := hear.around.congr rfl (by simp [hear.around.depth]) rfl }

/-- The flag is written. What the object has under other keys and what lists hold stays. -/
theorem assign_ends (hear : S.Hearing a t K d config R E w w.contents (fun _ => False) R w)
    (hH : H.Quiet fun _ _ _ _ => True) (hs : S.scope.value = .object S.target) (hd : d < config.maxDispatchDepth)
    (hf : K.flagIs t.syncing true) (hE : .flag t.syncing ∈ E) :
    (S.target.assign (engine H (n + 2)).reactions t.flag v).Ends w fun _ w' =>
      ∃ R' c, S.Hearing a t K d config R E w c (fun _ => False) R' w' ∧ (c.under S.target t.flag).same v = true ∧
        (∀ key, key ≠ t.flag → c.under S.target key = w.contents.under S.target key) ∧ c.items = w.contents.items := by
  have hd' : w.depth < w.config.maxDispatchDepth := by
    rw [hear.around.depth, hear.around.config]
    exact hd
  have hfound := hear.around.found
  obtain ⟨l₀, hl₀, hplace, -⟩ := hear.runs.key_leaf hs
  have hc := World.under_put hfound t.flag v
  have hitems := World.items_changed w S.target (Fields.put t.flag v)
  have done : ∀ {w₁ : World (Callback π) (Env π σ)},
      (∃ R', S.Hearing a t K (d + 1) config R E w (w.changed S.target (Fields.put t.flag v)) (fun _ => False) R' w₁) →
        ∃ R' c, S.Hearing a t K d config R E w c (fun _ => False) R' { w₁ with depth := w₁.depth - 1 } ∧
          (c.under S.target t.flag).same v = true ∧
          (∀ key, key ≠ t.flag → c.under S.target key = w.contents.under S.target key) ∧ c.items = w.contents.items := by
    rintro w₁ ⟨R', hear'⟩
    refine ⟨R', _, hear'.ended, ?_, fun key hk => ?_, hitems⟩
    · rw [hc, if_pos rfl]
      exact Value.same_refl v
    · rw [hc, if_neg hk]
  refine ObjectId.assign_ends (fun u hu hs => ⟨R, _, hear, ?_, fun _ _ => rfl, rfl⟩) (fun hnone hv => ?_) fun hne => ?_
  · rwa [Contents.under, hu]
  · rw [hv] at hc done ⊢
    refine ObjectId.fresh_ends hH hd' (attends hf hE (Or.inr rfl)) (fun w₁ ids ha _ => ⟨R, hear.begins ha fun l hl => Or.inl ?_⟩)
      fun w₂ h₂ => done h₂
    obtain rfl : l = l₀ := by simpa [hl₀] using hl
    have hcur := (hear.leaves l hl).resolve_right id
    have hundef : w.contents.under S.target t.flag = .undefined := by
      rw [Contents.under, hnone]
      rfl
    rw [Leaf.Current, hplace, Place.read_entry, hundef] at hcur
    rw [Leaf.Current, hplace, Place.read_entry, hc, if_pos rfl]
    exact hcur
  · have hread := hc t.flag
    rw [if_pos rfl] at hread
    refine ObjectId.change_ends (P := fun _ => False) (U := fun _ => True) (K := fun _ => True)
      (I := fun P _ w₁ => ∃ R', S.Hearing a t K (d + 1) config R E w (w.changed S.target (Fields.put t.flag v)) P R' w₁)
      hH hd' (fun id callback hq => ?_) (fun _ _ _ => trivial) trivial
      (attends hf hE (Or.inl ⟨rfl, by rw [hread]⟩)) (attends hf hE (Or.inr rfl)) (fun w₁ ids ha _ => ?_) (fun w₂ ids h₂ => ?_)
      fun w₃ h₃ => done h₃
    · obtain ⟨p, hp⟩ := hear.users hq (by simp)
      exact ⟨p, hp, trivial⟩
    · refine ⟨R, hear.begins ha fun l hl => Or.inr (Or.inr ?_)⟩
      obtain rfl : l = l₀ := by simpa [hl₀] using hl
      have hp := hear.runs.placed l hl
      have hpost : l.post = .object S.target (.after t.flag) (.forward l.sink) := by rw [Leaf.post, hplace]; rfl
      refine ⟨⟨_, hpost⟩, l.post, ⟨_, hpost⟩, ?_⟩
      rw [ha.layout]
      exact hp.holds.posted (hpost ▸ hfound)
    · obtain ⟨R', h₂⟩ := h₂
      exact ⟨R', { h₂ with leaves := fun l hl => (h₂.leaves l hl).imp_right False.elim }⟩

end Hearing

/-- What is behind the observer of a presence that writes its flag: the observer of the flag, which is up to date. -/
structure Answering (S : Panel) (a : Switch → Aim) (t : Switch) (K : Layout π) (d : Nat) (config : Config) (E : Multiset Piece)
    (handle : Cancel π) (items : ListId → List Value) (R : Switch × Role → Running π) (E' : Multiset Piece) (o : Option Value)
    (w : World (Callback π) (Env π σ)) : Prop where
  extra : E' = E
  handle : (R (t, .flag)).handle = handle
  around : S.Around K d config (S.reader (π := π) a (t, .member)).places (R (t, .flag)).owned E w
  items : w.contents.items = items
  current : ∀ l ∈ (R (t, .flag)).leaves, l.Current w.contents
  /-- The flag is as true as what was handed on last. -/
  even : ∀ v, o = some v → (w.contents.under S.target t.flag).truthy = v.truthy

theorem Answering.congr {handle : Cancel π} {items : ListId → List Value} {R R' : Switch × Role → Running π} {E' : Multiset Piece}
    {o : Option Value} (hR : ∀ i ∈ ({(t, .flag)} : Finset (Switch × Role)), R' i = R i)
    (h : S.Answering a t K d config E handle items R E' o w) : S.Answering a t K d config E handle items R' E' o w := by
  have he := hR _ (Finset.mem_singleton_self _)
  exact ⟨h.extra, he ▸ h.handle, he ▸ h.around, h.items, he ▸ h.current, h.even⟩

/-- What the observer of a presence finds becomes the truth of the flag. -/
theorem answers (hH : H.Quiet fun _ _ _ _ => True) (hs : S.scope.value = .object S.target) (hd : d < config.maxDispatchDepth)
    (hf : K.flagIs t.syncing false) (hr : K.flagIs t.ready true) (hE : .flag t.syncing ∈ E) (hE' : .flag t.ready ∈ E)
    (a : Switch → Aim) (handle : Cancel π) (items : ListId → List Value) :
    Accepts H (S.reader (π := π) a (t, .member)).places 2 (S.flagSink t) (fun _ => True)
      (Behind.family (S.reader a) {(t, .flag)} (S.Answering a t K d config E handle items)) := by
  have hown : ∀ R : Switch × Role → Running π, Family.owned {(t, Role.flag)} R = (R (t, .flag)).owned := fun R => by
    simp [Family.owned]
  have hhas : ∀ (R : Switch × Role → Running π) l, Family.Has {(t, Role.flag)} R l ↔ l ∈ (R (t, .flag)).leaves := fun R l => by
    simp [Family.Has]
  constructor
  · rintro F L o w G G' w' ⟨R, E', rfl, hL, hR, h⟩ hw ht
    obtain rfl := h.extra
    rw [hown] at hw ⊢
    refine ⟨R, E', by rw [hown], hL, hR.same (fun p hp => ht.same hw ?_) ht.layout.lists ht.layout.objects, rfl, h.handle,
      h.around.touch hw ht, ?_, ?_, ?_⟩
    · rw [hown] at hp
      exact Multiset.mem_add.2 (Or.inl hp)
    all_goals rw [ht.contents]
    exacts [h.items, h.current, h.even]
  · rintro n F L o w v hn - ⟨R, E', rfl, hL, hR, h⟩ hw
    obtain rfl := h.extra
    obtain ⟨m, rfl⟩ : ∃ m, n = m + 2 := ⟨n - 2, by omega⟩
    rw [hown] at hw ⊢
    have hsync := h.around.frozen _ hE
    refine emitGuarded_ends (N := Place.posts fun _ => False) (hf.same hsync)
      (fun g hg => Option.some.inj hg ▸ hr.same (h.around.frozen _ hE')) fun w₁ t₁ hf₁ => ?_
    obtain ⟨h₁, hw₁, hr₁, hsame₁⟩ := h.around.set hw hE t₁
    have hruns : Runs (S.reader (π := π) a (t, .flag)).places w₁.layout (keyExpr t.flag) S.scope (S.listSink t (a t)) (R (t, .flag)) :=
      (hR _ (Finset.mem_singleton_self _)).same hsame₁ (Layout.Sees.of_eq t₁.layout.lists t₁.layout.objects _)
    have hear : S.Hearing a t w₁.layout d config (R (t, .flag)) E' w₁ w₁.contents (fun _ => False) (R (t, .flag)) w₁ :=
      ⟨hruns, rfl, hw₁, .refl _ _, h₁, rfl, fun l hl => Or.inl (t₁.contents ▸ h.current l hl)⟩
    simp only [Sink.emit, write, assignUnder, Run.ends_bind, ends_contents, Contents.key_text]
    refine (hear.assign_ends hH hs hd hf₁ hE).imp ?_
    rintro _ w₂ ⟨R₂, c, hear₂, hread, hother, hitems⟩
    refine ⟨hf₁.same (hear₂.around.frozen _ hE), fun w₃ t₃ hf₃ => ?_⟩
    obtain ⟨h₃, hw₃, hr₃, hsame₃⟩ := h.around.reset hw hf t₁ hear₂.around hear₂.fits hE t₃ hf₃
    have hc₃ : w₃.contents = c := t₃.contents.trans hear₂.contents
    have hruns₃ : Runs (S.reader (π := π) a (t, .flag)).places w₃.layout (keyExpr t.flag) S.scope (S.listSink t (a t)) R₂ :=
      hear₂.runs.same hsame₃ (Layout.Sees.of_eq t₃.layout.lists t₃.layout.objects _)
    refine ⟨R₂.owned + E', R₂.leaves, ⟨fun _ => R₂, E', by rw [hown], fun l => (hhas (fun _ => R₂) l).symm, ?_, rfl,
      hear₂.handle.trans h.handle, h₃, ?_, ?_, ?_⟩, ⟨hr₁.trans (hear₂.layout.trans hr₃), ?_, ?_, ?_⟩, fun l hl => ?_⟩
    · rintro i hi
      obtain rfl := Finset.mem_singleton.1 hi
      exact hruns₃
    · rw [hc₃, hitems, t₁.contents, h.items]
    · exact fun l hl => hc₃ ▸ (hear₂.leaves l hl).resolve_right id
    · rintro u ⟨⟩
      rw [hc₃, Value.truthy_eq_of_same hread]
    · rintro p (⟨key, hk, rfl⟩ | ⟨l, u, rfl⟩)
      · rw [Place.read_entry, Place.read_entry, hc₃, hother key hk, t₁.contents]
      · rw [hc₃, Place.read, Place.read, hitems, t₁.contents]
    · exact t₃.depth.trans (hear₂.around.depth.trans h.around.depth.symm)
    · exact t₃.config.trans (hear₂.around.config.trans h.around.config.symm)
    · exact Or.inl (hc₃ ▸ (hear₂.leaves l hl).resolve_right id)

end

end Panel

end LiveBindings
