import LiveBindings.Proofs.Switches

/-!
# The list that switches write

A change of a list is told to the observers of presences, each of which writes its flag unless its switch is the one that is
writing. What the passes over their listeners keep is `Passing`: a change of the list, wherever it takes place, leaves all flags
but those in use as true as their observers found them (`Passing.apply_ends`). A switch that writes makes such changes until the
presence is what it should be (`Cast.writes`).
-/

namespace LiveBindings

variable {π σ : Type}

/-! ## Fewer places -/

section

variable {D D' : Place → Prop} (hD : ∀ p, D' p → D p)
include hD

theorem Behind.Stable.narrow {α : Type} {J : Behind π σ α} (h : J.Stable D) : J.Stable D' :=
  fun _ _ _ _ _ _ _ hJ hw ht =>
    h hJ hw { ht with posts := fun hq => (ht.posts hq).imp_right fun ⟨p, next, hp, he⟩ => ⟨p, next, hD p hp, he⟩ }

theorem Behind.Started.narrow {J : Behind π σ Value} {Shape : Layout π → Running π → Prop} {F : Multiset Piece}
    {L : List (Leaf π)} {w w' : World (Callback π) (Env π σ)} {handle : Cancel π} (h : J.Started D Shape F L w handle w') :
    J.Started D' Shape F L w handle w' := by
  obtain ⟨R, F', L', hh, hR, hJ, hm, hr⟩ := h
  exact ⟨R, F', L', hh, hR, hJ, { hm with reads := fun p hp => hm.reads p (hD p hp) }, hr⟩

end

/-- A listener is found under the id of one observer only. -/
theorem Family.unique {ι : Type} [DecidableEq ι] {N : ι → Reader π} {S : Finset ι} {R : ι → Running π} {K : Layout π}
    {i j : ι} {l l' : Leaf π} (h : Family.Run N S R K) (hn : (Family.owned S R).Nodup) (hi : i ∈ S) (hj : j ∈ S)
    (hl : l ∈ (R i).leaves) (hl' : l' ∈ (R j).leaves) (hid : l.id = l'.id) : i = j := by
  by_contra hij
  have hsplit : Family.owned S R = (R i).owned + Family.owned (S.erase i) R := (Finset.add_sum_erase S _ hi).symm
  rw [hsplit] at hn
  refine Multiset.disjoint_left.1 (Multiset.nodup_add.1 hn).2.2 ((h i hi).placed l hl).owned ?_
  rw [hid]
  exact Family.mem_owned.2 ⟨j, Finset.mem_erase.2 ⟨Ne.symm hij, hj⟩, ((h j hj).placed l' hl').owned⟩

/-- The observers of switches that may be set in motion, and what they find: where the switches aim, the cells, the handles of
the observers of flags, and what else may be watched. -/
structure Cast (π : Type) where
  aim : Switch → Aim
  cells : Layout π
  handle : Switch → Cancel π
  parts : Finset (Switch × Role)
  places : Place → Prop
  extra : Multiset Piece
  config : Config

open Panel

variable {S : Panel} {C : Cast π}

/-- No two switches have the same flag, and none that of the list. A switch that is not writing comes with the observer of its
flag, and nobody else watches that flag. -/
structure Cast.Sound (S : Panel) (C : Cast π) : Prop where
  scope : S.scope.value = .object S.target
  fixed : ∀ {t r}, (t, r) ∈ C.parts → (S.member t.flag).Fixed S.scope (S.value t.flag)
  apart : ∀ {t r}, (t, r) ∈ C.parts → t.flag ≠ S.key
  distinct : ∀ {t r t' r'}, (t, r) ∈ C.parts → (t', r') ∈ C.parts → t.flag = t'.flag → t = t'
  places : ∀ {p}, C.places p → ∃ key, p = .entry S.target key
  flags : ∀ {t}, (t, .member) ∈ C.parts → .flag t.syncing ∈ C.extra ∧ .flag t.ready ∈ C.extra ∧ C.cells.flagIs t.ready true
  writing : ∀ {t}, (t, .member) ∈ C.parts →
    (C.cells.flagIs t.syncing true ∧ (t, .flag) ∉ C.parts) ∨
      (C.cells.flagIs t.syncing false ∧ (t, .flag) ∈ C.parts ∧ ¬C.places (.entry S.target t.flag))

/-- What the observers of a cast keep at the depth `d`, also while some of them are yet to be told of a change. -/
structure Steady (S : Panel) (C : Cast π) (d : Nat) (R : Switch × Role → Running π) (w : World (Callback π) (Env π σ)) : Prop where
  around : S.Around C.cells d C.config C.places (Family.owned C.parts R) C.extra w
  handles : ∀ {t}, (t, .flag) ∈ C.parts → (R (t, .flag)).handle = C.handle t
  paths : ∀ {t}, (t, .path) ∈ C.parts → (R (t, .path)).value = .list (C.aim t).list
  list : ∃ list, w.contents.under S.target S.key = .list list
  even : ∀ {t}, (t, .member) ∈ C.parts → (t, .flag) ∈ C.parts →
    (w.contents.under S.target t.flag).truthy = (R (t, .member)).value.truthy
  lists : ∀ {i}, i ∈ C.parts → ∀ lf ∈ (R i).leaves, lf.place = .entry S.target S.key → ∃ list, lf.value = .list list
  flags : ∀ {t}, (t, .flag) ∈ C.parts → ∀ lf ∈ (R (t, .flag)).leaves, lf.Current w.contents

/-- Where passes over listeners began: the observers and the world then, the listeners that may be left as they were, and the
places that the passes are about. -/
structure Outset (π σ : Type) where
  observers : Switch × Role → Running π
  world : World (Callback π) (Env π σ)
  left : Leaf π → Prop
  told : Place → Prop

/-- What passes over listeners keep of the observers of a cast; those listeners among `P` are yet to be told. -/
structure Passing (S : Panel) (C : Cast π) (d : Nat) (B : Outset π σ) (items : ListId → List Value) (P : Leaf π → Prop)
    (R : Switch × Role → Running π) (w : World (Callback π) (Env π σ)) : Prop extends Steady S C d R w where
  runs : Family.Run (S.reader C.aim) C.parts R w.layout
  fits : w.Fits (Family.owned C.parts R + C.extra)
  layout : Reshapes (Family.owned C.parts B.observers + C.extra) (Family.owned C.parts R + C.extra) B.world.layout w.layout
  items : w.contents.items = items
  /-- Only flags change. -/
  kept : ∀ {key}, (∀ t, (t, .flag) ∈ C.parts → key ≠ t.flag) →
    w.contents.under S.target key = B.world.contents.under S.target key
  leaves : ∀ {lf}, Family.Has C.parts R lf → (lf.Current w.contents ∨
    (B.left lf ∧ lf.place.read w.contents = lf.place.read B.world.contents)) ∨ P lf
  /-- An observer of a presence that does not watch what the passes are about is not told anything. -/
  still : ∀ {t}, (t, .member) ∈ C.parts → (∀ lf ∈ (B.observers (t, .member)).leaves, ¬B.told lf.place) →
    R (t, .member) = B.observers (t, .member)
  /-- An observer of a presence follows the list that it followed, or the one that is there now. -/
  follows : ∀ {t}, (t, .member) ∈ C.parts → ∀ lf ∈ (R (t, .member)).leaves, lf.place = .entry S.target S.key →
    lf.Current w.contents ∨ lf ∈ (B.observers (t, .member)).leaves

/-- The passes over listeners of a list that begin now. -/
def Outset.ofList (R : Switch × Role → Running π) (w : World (Callback π) (Env π σ)) (C : Cast π) (l : ListId) : Outset π σ where
  observers := R
  world := w
  left := Family.Has C.parts R
  told p := ∃ v, p = .element l v

section

variable {H : Host π σ} {d n : Nat} {l : ListId} {R R' : Switch × Role → Running π} {w w' : World (Callback π) (Env π σ)}
  {B : Outset π σ} {items : ListId → List Value} {P P' : Leaf π → Prop} {t : Switch} {lf : Leaf π}

namespace Steady

theorem congr {d' : Nat} (h : Steady S C d R w) (hR : ∀ i ∈ C.parts, R' i = R i) (hl : w'.layout = w.layout)
    (hc : w'.contents = w.contents) (hd : w'.depth = d') (hm : w'.config = w.config) : Steady S C d' R' w' where
  around := by
    rw [Family.owned_congr hR]
    exact h.around.congr hl hd hm
  handles ht := by rw [hR _ ht, h.handles ht]
  paths ht := by rw [hR _ ht, h.paths ht]
  list := hc ▸ h.list
  even ht ht' := by rw [hR _ ht, hc, h.even ht ht']
  lists hi := by
    rw [hR _ hi]
    exact h.lists hi
  flags ht := by
    rw [hR _ ht, hc]
    exact h.flags ht

/-- The listener that an observer of a presence has for the key, and the one for the presence. -/
theorem presence (hs : S.scope.value = .object S.target) (hx : (S.member t.flag).Fixed S.scope (S.value t.flag))
    (h : Steady S C d R w) (hrun : Family.Run (S.reader C.aim) C.parts R w.layout) (ht : (t, .member) ∈ C.parts) :
    ∃ (lk le : Leaf π) (list : ListId) (m : Value), (R (t, .member)).leaves = [lk, le] ∧ lk.place = .entry S.target S.key ∧
      lk.value = .list list ∧ le.place = .element list m ∧ m.same (S.value t.flag) = true ∧
        (R (t, .member)).value.truthy = turned (S.turns t.flag) le.value.truthy := by
  obtain ⟨lk, ls, hls, hp, hrest⟩ := (hrun _ ht).presence hs hx
  obtain ⟨list, hlist⟩ := h.lists ht lk (by simp [hls]) hp
  obtain ⟨le, m, rfl, hp', hm, hv⟩ := hrest list hlist
  exact ⟨lk, le, list, m, hls, hp, hlist, hp', hm, hv⟩

/-- What an observer listens to. -/
theorem watches {r : Role} (hs : S.scope.value = .object S.target) (hx : (S.member t.flag).Fixed S.scope (S.value t.flag))
    (h : Steady S C d R w) (hrun : Family.Run (S.reader C.aim) C.parts R w.layout) (hi : (t, r) ∈ C.parts)
    (hl : lf ∈ (R (t, r)).leaves) :
    (r ≠ .flag ∧ lf.place = .entry S.target S.key) ∨ (r = .flag ∧ lf.place = .entry S.target t.flag) ∨
      (r = .member ∧ ∃ l v, lf.place = .element l v) := by
  cases r with
  | path => exact Or.inl ⟨by simp, ((hrun _ hi).placed lf hl).place⟩
  | flag =>
    obtain ⟨l₀, hl₀, hp, -⟩ := (hrun _ hi).key_leaf hs
    obtain rfl : lf = l₀ := by simpa [hl₀] using hl
    exact Or.inr (Or.inl ⟨rfl, hp⟩)
  | member =>
    obtain ⟨lk, le, list, m, hls, hp, -, hp', -, -⟩ := h.presence hs hx hrun hi
    rw [hls, List.mem_cons, List.mem_singleton] at hl
    rcases hl with rfl | rfl
    · exact Or.inl ⟨by simp, hp⟩
    · exact Or.inr (Or.inr ⟨rfl, list, m, hp'⟩)

/-- What an observer other than that of one flag watches does not change when that flag is written. -/
theorem place (hC : C.Sound S) (h : Steady S C d R w) (hrun : Family.Run (S.reader C.aim) C.parts R w.layout)
    {i : Switch × Role} (hi : i ∈ C.parts) (ht : (t, .member) ∈ C.parts) (hne : i ≠ (t, .flag)) (hl : lf ∈ (R i).leaves) :
    (S.reader (π := π) C.aim (t, .member)).places lf.place := by
  obtain ⟨t', r⟩ := i
  rcases h.watches hC.scope (hC.fixed hi) hrun hi hl with ⟨-, hp⟩ | ⟨rfl, hp⟩ | ⟨-, l, v, hp⟩
  · exact Or.inl ⟨_, (hC.apart ht).symm, hp⟩
  · exact Or.inl ⟨_, fun he => hne (by rw [hC.distinct hi ht he]), hp⟩
  · exact Or.inr ⟨l, v, hp⟩

/-- Whoever else listens than the observer of one flag does not listen to that flag. -/
theorem closed (hC : C.Sound S) (h : Steady S C d R w) (hrun : Family.Run (S.reader C.aim) C.parts R w.layout)
    (ht : (t, .member) ∈ C.parts) (hn : ¬C.places (.entry S.target t.flag)) {id : ListenerId} {q : Post π}
    (hq : w.layout.Posted id q) :
    q.IsUser ∨ .listener id ∈ (R (t, .flag)).owned ∨ Place.posts (S.reader (π := π) C.aim (t, .member)).places q := by
  rcases h.around.closed hq with hu | hid | ⟨p, next, hp, he⟩
  · exact Or.inl hu
  · obtain ⟨i, hi, lf, hlf, rfl⟩ := hrun.leaf_of_owned hid
    have hplaced := (hrun i hi).placed lf hlf
    by_cases hne : i = (t, .flag)
    · exact Or.inr (Or.inl (hne ▸ hplaced.owned))
    · exact Or.inr (Or.inr ⟨lf.place, lf.sink, h.place hC hrun hi ht hne hlf, hplaced.holds.only q hq⟩)
  · obtain ⟨key, rfl⟩ := hC.places hp
    exact Or.inr (Or.inr ⟨_, next, Or.inl ⟨key, fun hk => hn (hk ▸ hp), rfl⟩, he⟩)

end Steady

namespace Passing

theorem mono (h : Passing S C d B items P R w) (hP : ∀ lf, Family.Has C.parts R lf → P lf → P' lf) :
    Passing S C d B items P' R w :=
  { h with leaves := fun hl => (h.leaves hl).imp_right (hP _ hl) }

theorem congr {d' : Nat} (h : Passing S C d B items P R w) (hl : w'.layout = w.layout) (hc : w'.contents = w.contents)
    (hd : w'.depth = d') (hm : w'.config = w.config) : Passing S C d' B items P R w' where
  toSteady := h.toSteady.congr (fun _ _ => rfl) hl hc hd hm
  runs := hl ▸ h.runs
  fits := ⟨hl ▸ h.fits.has, h.fits.nodup, hl ▸ h.fits.tidy⟩
  layout := hl ▸ h.layout
  items := hc ▸ h.items
  kept := hc ▸ h.kept
  leaves := hc ▸ h.leaves
  still := h.still
  follows := hc ▸ h.follows

/-- One observer of a presence has had its turn; only its flag may have changed. -/
theorem step (hC : C.Sound S) (h : Passing S C d B items (fun lf' => P lf' ∨ lf'.id = lf.id) R w)
    (ht : (t, .member) ∈ C.parts) (hl : lf ∈ (R (t, .member)).leaves) (htold : B.told lf.place)
    (S' : Finset (Switch × Role)) (hS' : ∀ i ∈ S', i = (t, .flag)) {R' : Switch × Role → Running π}
    (hrun : Family.Run (S.reader C.aim) C.parts R' w'.layout)
    (hrest : ∀ i ∈ C.parts, i ≠ (t, .member) → i ∉ S' → R' i = R i)
    (hm : Moves (S.reader (π := π) C.aim (t, .member)).places (Family.owned C.parts R + C.extra)
      (Family.owned C.parts R' + C.extra) w w')
    (hleaves : ∀ l', Family.Has C.parts R' l' → l'.Current w'.contents ∨
      (Family.Has C.parts R l' ∧ l'.id ≠ lf.id ∧ l'.place.read w'.contents = l'.place.read w.contents))
    (hcells : ∀ p ∈ C.extra, C.cells.Same w'.layout p) (hitems : w'.contents.items = w.contents.items)
    (hflag : (t, .flag) ∈ C.parts → (R' (t, .flag)).handle = C.handle t ∧ ∀ l' ∈ (R' (t, .flag)).leaves, l'.Current w'.contents)
    (hkept : (t, .flag) ∉ C.parts → w'.contents.under S.target t.flag = w.contents.under S.target t.flag)
    (heven : (t, .flag) ∈ C.parts → (w'.contents.under S.target t.flag).truthy = (R' (t, .member)).value.truthy) :
    Passing S C d B items P R' w' := by
  have hkey : ∀ {key}, key ≠ t.flag → w'.contents.under S.target key = w.contents.under S.target key := fun hk =>
    hm.reads _ (Or.inl ⟨_, hk, rfl⟩)
  have hother : ∀ {t' r}, (t', r) ∈ C.parts → t' ≠ t → R' (t', r) = R (t', r) := fun {t' r} hi hne =>
    hrest _ hi (fun he => hne (congrArg Prod.fst he)) fun hm => hne (congrArg Prod.fst (hS' _ hm))
  obtain ⟨list, hlist⟩ := h.list
  have hlist' : w'.contents.under S.target S.key = .list list := by rw [hkey (hC.apart ht).symm, hlist]
  have hfits := hm.fits h.fits
  refine ⟨⟨h.around.reshape hm.layout hm.depth hm.config hcells, fun {t'} hi => ?_, fun {t'} hi => ?_, ⟨list, hlist'⟩,
    fun {t'} hi hi' => ?_,
    fun {i} hi l' hl' hp => ?_, fun {t'} hi l' hl' => ?_⟩, hrun, hfits, h.layout.trans hm.layout, hitems.trans h.items,
    fun {key} hk => ?_, fun {l'} hl' => ?_, fun {t'} hi hnone => ?_, fun {t'} hi l' hl' hp => ?_⟩
  · by_cases he : t' = t
    · subst he
      exact (hflag hi).1
    · rw [hother hi he, h.handles hi]
  · rw [hrest _ hi (by simp) fun hm => by simpa using congrArg Prod.snd (hS' _ hm), h.paths hi]
  · by_cases he : t' = t
    · subst he
      exact heven hi'
    · rw [hother hi he, hkey fun hf => he (hC.distinct hi ht hf), h.even hi hi']
  · rcases hleaves l' ⟨i, hi, hl'⟩ with hc | ⟨⟨j, hj, hl'⟩, -, -⟩
    · rw [Leaf.Current, hp, Place.read_entry, hlist'] at hc
      exact ⟨list, Value.eq_of_same_list (Value.same_symm hc)⟩
    · exact h.lists hj l' hl' hp
  · by_cases he : t' = t
    · subst he
      exact (hflag hi).2 l' hl'
    · rw [hother hi he] at hl'
      have hread := hm.reads _ (h.place hC h.runs hi ht (fun hp => he (congrArg Prod.fst hp)) hl')
      rw [Leaf.Current, hread]
      exact h.flags hi l' hl'
  · refine Eq.trans ?_ (h.kept hk)
    by_cases he : key = t.flag
    · subst he
      exact hkept fun hm => hk t hm rfl
    · exact hkey he
  · rcases hleaves l' hl' with hc | ⟨hold, hne, hread⟩
    · exact Or.inl (Or.inl hc)
    · rcases h.leaves hold with (hc | ⟨hs, hr⟩) | hP
      · refine Or.inl (Or.inl ?_)
        rw [Leaf.Current, hread]
        exact hc
      · exact Or.inl (Or.inr ⟨hs, hread.trans hr⟩)
      · exact Or.inr (hP.resolve_right hne)
  · by_cases he : t' = t
    · subst he
      exact absurd htold (hnone lf (h.still hi hnone ▸ hl))
    · rw [hother hi he, h.still hi hnone]
  · -- The listener for the key is new, or the one that was there.
    have hold : ∀ {l₀}, l₀ ∈ (R (t', .member)).leaves → l₀ = l' → l'.Current w'.contents ∨ l' ∈ (B.observers (t', .member)).leaves := by
      rintro l₀ hl₀ rfl
      refine (h.follows hi l₀ hl₀ hp).imp_left fun hc => ?_
      rw [Leaf.Current, hp, Place.read_entry, hkey (hC.apart ht).symm]
      rwa [Leaf.Current, hp, Place.read_entry] at hc
    by_cases he : t' = t
    · subst he
      rcases hleaves l' ⟨_, hi, hl'⟩ with hc | ⟨⟨j, hj, hl''⟩, -, -⟩
      · exact Or.inl hc
      · by_cases hjt : j = (t', .member)
        · exact hold (hjt ▸ hl'') rfl
        · by_cases hjf : j = (t', .flag)
          · subst hjf
            obtain ⟨l₀, hl₀, hp₀, -⟩ := (h.runs _ hj).key_leaf hC.scope
            obtain rfl : l' = l₀ := by simpa [hl₀] using hl''
            exact absurd (by simpa using hp₀.symm.trans hp) (hC.apart hi)
          · have hjR : R' j = R j := hrest j hj hjt fun hm => hjf (hS' _ hm)
            exact absurd (Family.unique hrun hfits.left.nodup hj hi (hjR ▸ hl'') hl' rfl) hjt
    · exact hold (hother hi he ▸ hl') rfl

/-- An observer of a presence is told. -/
theorem turn (hC : C.Sound S) (hH : H.Quiet fun _ _ _ _ => True) (hd : d < C.config.maxDispatchDepth)
    (hn : 2 * S.turns t.flag + 12 ≤ n) (h : Passing S C d B items (fun lf' => P lf' ∨ lf'.id = lf.id) R w)
    (ht : (t, .member) ∈ C.parts) (hl : lf ∈ (R (t, .member)).leaves) (htold : B.told lf.place) :
    (lf.sink.emit (engine H n) (H.observer (engine H n)) (lf.place.read w.contents)).Ends w fun _ w' =>
      (∃ R', Passing S C d B items P R' w') ∧ ∃ G G', Reshapes G G' w.layout w'.layout := by
  have hfixed := hC.fixed ht
  have hsize := presenceExpr_size S.key hfixed (S.turns t.flag)
  obtain ⟨hE, hE', hready⟩ := hC.flags ht
  have htells : ∀ {J : Behind π σ Value}, Accepts H (S.reader (π := π) C.aim (t, .member)).places 2 (S.flagSink t) (fun _ => True) J →
      (S.reader (π := π) C.aim (t, .member)).Tells H n J (R (t, .member)) lf w := by
    intro J hacc F L hJ hw
    exact (h.runs _ ht).presence_tells hC.scope hfixed rfl hl h.list (fun l v => Or.inr ⟨l, v, rfl⟩) hacc (fun _ _ => trivial)
      (by rw [hsize]; omega) hJ hw
  rcases hC.writing ht with ⟨hf, hflag⟩ | ⟨hf, hflag, hn'⟩
  · -- The switch is writing, and the observer is not heard.
    let J : (Switch × Role → Running π) → Multiset Piece → Option Value → World (Callback π) (Env π σ) → Prop :=
      fun _ E _ w' => E = C.extra ∧ (∀ p ∈ C.extra, C.cells.Same w'.layout p) ∧ w'.contents = w.contents
    have hJ : (Behind.family (S.reader (π := π) C.aim) ∅ J).Stable (S.reader (π := π) C.aim (t, .member)).places := by
      rintro F L o w₁ G G' w₂ ⟨R₁, E, rfl, hL, hR, rfl, hcells, hc⟩ hw t₂
      refine ⟨R₁, _, rfl, hL, nofun, rfl, fun p hp => ?_, t₂.contents.trans hc⟩
      exact (hcells p hp).trans (t₂.same hw (Multiset.mem_add.2 (Or.inr hp)))
    have hacc : Accepts H (S.reader (π := π) C.aim (t, .member)).places 2 (S.flagSink t) (fun _ => True)
        (Behind.family (S.reader C.aim) ∅ J) :=
      (Accepts.dropped hJ (fun _ h => h) fun ⟨_, _, _, _, _, _, hcells, _⟩ => Or.inl (hf.same (hcells _ hE))).mono
        (Nat.zero_le 2) fun _ h => h
    refine (Family.turn_handled ht (Finset.empty_subset _) h.runs h.fits hl (htells hacc) ⟨rfl, h.around.frozen, rfl⟩
      (fun _ h => h) fun i hi hne _ l' hl' => h.place hC h.runs hi ht (fun he => hflag (he ▸ hi)) hl').imp fun _ w' h' => ?_
    obtain ⟨R', E', -, hrun, hrest, ⟨rfl, hcells, hc⟩, hm, hleaves⟩ := h'
    refine ⟨⟨R', h.step hC ht hl htold ∅ (by simp) hrun hrest hm hleaves hcells (by rw [hc])
      (fun hi => absurd hi hflag) (fun _ => by rw [hc]) fun hi => absurd hi hflag⟩, _, _, hm.layout⟩
  · -- The observer writes its flag.
    have hS' : ({(t, .flag)} : Finset (Switch × Role)) ⊆ C.parts.erase (t, .member) := by
      simp [hflag]
    have hown : ∀ R : Switch × Role → Running π, Family.owned {(t, Role.flag)} R = (R (t, .flag)).owned := fun R => by
      simp [Family.owned]
    have hJ : S.Answering C.aim t C.cells d C.config C.extra (C.handle t) w.contents.items R C.extra
        (some (R (t, .member)).value) w :=
      ⟨rfl, h.handles hflag, { h.around with closed := h.closed hC h.runs ht hn' }, rfl, h.flags hflag,
        fun v hv => Option.some.inj hv ▸ h.even ht hflag⟩
    have hacc := answers (t := t) hH hC.scope hd hf hready hE hE' C.aim (C.handle t) w.contents.items
    refine (Family.turn_handled ht hS' h.runs h.fits hl (htells hacc) hJ Panel.Answering.congr
      fun i hi hne hi' l' hl' => h.place hC h.runs hi ht (by simpa using hi') hl').imp fun _ w' h' => ?_
    obtain ⟨R', E', -, hrun, hrest, hanswer, hm, hleaves⟩ := h'
    obtain rfl := hanswer.extra
    refine ⟨⟨R', h.step hC ht hl htold {(t, .flag)} (by simp) hrun hrest hm hleaves hanswer.around.frozen
      hanswer.items (fun _ => ⟨hanswer.handle, hanswer.current⟩) (fun hi => absurd hflag hi) fun _ => ?_⟩, _, _, hm.layout⟩
    exact hanswer.even _ rfl

/-- A listener of an observer of a cast that is registered for a list is one of a presence. -/
theorem leaf_of_list (hC : C.Sound S) (h : Passing S C d B items P R w) {id : ListenerId} {topic : ListTopic}
    {callback : Callback π} (hq : w.layout.Posted id (.list l topic callback)) (hu : ¬(Post.list l topic callback).IsUser) :
    topic = .content ∧ ∃ (t : Switch) (lf : Leaf π), (t, .member) ∈ C.parts ∧ lf ∈ (R (t, .member)).leaves ∧ lf.id = id ∧
      .list l topic callback = lf.post ∧ ∃ v, lf.place = .element l v := by
  rcases (h.around.closed hq).resolve_left hu with hid | ⟨p, next, hp, he⟩
  · obtain ⟨⟨t, r⟩, hi, lf, hlf, rfl⟩ := h.runs.leaf_of_owned hid
    have he : Post.list l topic callback = lf.post := ((h.runs _ hi).placed lf hlf).holds.only _ hq
    have he' := he
    rw [Leaf.post] at he'
    rcases h.watches hC.scope (hC.fixed hi) h.runs hi hlf with ⟨-, hp⟩ | ⟨-, hp⟩ | ⟨rfl, l', v, hp⟩
    · simp [hp, Place.post] at he'
    · simp [hp, Place.post] at he'
    · simp only [hp, Place.post, Post.list.injEq] at he'
      obtain ⟨rfl, rfl, -⟩ := he'
      exact ⟨rfl, t, lf, hi, hlf, rfl, he, v, hp⟩
  · obtain ⟨key, rfl⟩ := hC.places hp
    simp [Place.post] at he

/-- The passes that announce a change of a list. -/
theorem attends (hC : C.Sound S) (hH : H.Quiet fun _ _ _ _ => True) (hd : d < C.config.maxDispatchDepth)
    (hn : ∀ {t}, (t, .member) ∈ C.parts → 2 * S.turns t.flag + 12 ≤ n) (htold : ∀ v, B.told (.element l v))
    (hfound : l.index < B.world.layout.lists) {topic : ListTopic} {e : Event}
    (he : topic = .content → ∃ added removed index, e = .content added removed index) :
    Attends H (fun _ _ _ _ => True) n (Post.OfList l topic) e fun P _ w => ∃ R, Passing S C d B items P R w where
  mono := fun ⟨R, h⟩ hP => ⟨R, h.mono fun lf _ => hP lf⟩
  apart := fun ⟨R, h⟩ ha _ => ⟨R, h.congr ha.layout ha.contents (ha.depth.trans h.around.depth) ha.config⟩
  tidy := fun ⟨_, h⟩ => h.fits.tidy
  orphans := fun ⟨_, h⟩ => h.around.orphans
  user := by
    rintro P w id ids q p h' ⟨R, h⟩ - - hq hp -
    refine ⟨R, (h.mono fun lf hlf hP => hP.resolve_right fun hid => ?_).congr rfl rfl h.around.depth rfl⟩
    obtain ⟨i, hi, hlf⟩ := hlf
    have he := ((h.runs i hi).placed lf hlf).holds.only _ (hid ▸ hq)
    exact lf.place.not_isUser_post lf.sink ⟨p, (congrArg Post.callback he).symm.trans hp⟩
  leaf := by
    rintro P w id ids q ⟨R, h⟩ ⟨callback, rfl⟩ hq hu
    obtain ⟨rfl, t, lf, ht, hlf, rfl, hpost, v, hv⟩ := h.leaf_of_list hC hq hu
    refine ⟨lf, hpost, ?_, h.turn hC hH hd (hn ht) ht hlf (hv ▸ htold v)⟩
    obtain ⟨added, removed, index, rfl⟩ := he rfl
    rw [hv]
    trivial
  absent := by
    rintro P w id ids ⟨R, h⟩ hS
    refine ⟨R, h.mono fun lf ⟨i, hi, hlf⟩ hP => hP.resolve_right ?_⟩
    rintro ⟨rfl, callback, hcb⟩
    refine hS _ ⟨callback, hcb⟩ (((h.runs i hi).placed lf hlf).holds.posted ?_)
    rw [hcb, Layout.Knows, h.layout.lists]
    exact hfound

/-- The passes of a list begin. -/
theorem begin (h : Steady S C d R w) (hrun : Family.Run (S.reader C.aim) C.parts R w.layout)
    (hw : w.Fits (Family.owned C.parts R + C.extra)) :
    Passing S C d (.ofList R w C l) w.contents.items (fun _ => False) R w where
  toSteady := h
  runs := hrun
  fits := hw
  layout := .refl _ _
  items := rfl
  kept _ := rfl
  leaves hl := Or.inl (Or.inr ⟨hl, rfl⟩)
  still _ _ := rfl
  follows _ _ hl _ := Or.inr hl

theorem trans {R₁ : Switch × Role → Running π} {w₁ : World (Callback π) (Env π σ)} {items' : ListId → List Value}
    (hC : C.Sound S) (h : Passing S C d (.ofList R w C l) items (fun _ => False) R₁ w₁)
    (h' : Passing S C d (.ofList R₁ w₁ C l) items' P R' w') : Passing S C d (.ofList R w C l) items' P R' w' where
  toSteady := h'.toSteady
  runs := h'.runs
  fits := h'.fits
  layout := h.layout.trans h'.layout
  items := h'.items
  kept hk := (h'.kept hk).trans (h.kept hk)
  leaves hl := by
    refine (h'.leaves hl).imp_left fun hl' => ?_
    rcases hl' with hc | ⟨hl₁, hr⟩
    · exact Or.inl hc
    · rcases (h.leaves hl₁).resolve_right id with hc | ⟨hl₀, hr'⟩
      · exact Or.inl (by rwa [Leaf.Current, hr])
      · exact Or.inr ⟨hl₀, hr.trans hr'⟩
  still ht hnone := by
    have he := h.still ht hnone
    rw [← he]
    refine h'.still ht ?_
    change ∀ lf ∈ (R₁ (_, .member)).leaves, _
    rw [he]
    exact hnone
  follows ht lf hl hp := by
    refine (h'.follows ht lf hl hp).elim Or.inl fun hl₁ => (h.follows ht lf hl₁ hp).imp_left fun hc => ?_
    have hkey := h'.kept fun t' ht' => (hC.apart ht').symm
    rw [Leaf.Current, hp, Place.read_entry] at hc ⊢
    rw [hkey]
    exact hc

/-- A list is changed and the change is announced. -/
theorem apply_ends (hC : C.Sound S) (hH : H.Quiet fun _ _ _ _ => True) (hd : d + 1 < C.config.maxDispatchDepth)
    (hn : ∀ {t}, (t, .member) ∈ C.parts → 2 * S.turns t.flag + 12 ≤ n) (h : Steady S C d R w)
    (hrun : Family.Run (S.reader C.aim) C.parts R w.layout) (hw : w.Fits (Family.owned C.parts R + C.extra))
    (hfound : l.index < w.layout.lists) {vs : List Value} {change : ListChange} {before : ListReport}
    {mutate : Live π σ ListReport} (hm : Mutates mutate w (w.replaced l vs)) :
    (l.apply (engine H (n + 2)).reactions change before mutate).Ends w fun _ w' =>
      ∃ R', Passing S C d (.ofList R w C l) (w.replaced l vs).items (fun _ => False) R' w' := by
  have hunder : ∀ key, (w.replaced l vs).under S.target key = w.contents.under S.target key := fun key => by
    rw [World.replaced, if_pos hfound]
    rfl
  have hread : ∀ {p : Place} {next : Sink π}, S.Watched p → ¬Post.OfList l .content (p.post next) →
      p.read (w.replaced l vs) = p.read w.contents := by
    intro p next hp hc
    refine Place.read_replaced (fun he => ?_) hc
    rcases hp with ⟨_, rfl⟩ | ⟨_, _, rfl⟩ <;> cases he
  have begun : Passing S C d (.ofList R w C l) w.contents.items (fun _ => False) R w := .begin h hrun hw
  have hd' : w.depth < w.config.maxDispatchDepth := by
    rw [h.around.depth, h.around.config]
    omega
  have attends : ∀ {topic : ListTopic} {e : Event},
      (topic = .content → ∃ added removed index, e = .content added removed index) →
        Attends H (fun _ _ _ _ => True) n (Post.OfList l topic) e fun P _ w' =>
          ∃ R', Passing S C (d + 1) (.ofList R w C l) (w.replaced l vs).items P R' w' := fun he =>
    Passing.attends (B := .ofList R w C l) hC hH hd hn (fun v => ⟨v, rfl⟩) hfound he
  refine ListId.apply_through (P := fun _ => False) (K := fun _ => True) hH hd' h.around.orphans
    (fun topic hct _ id callback hq => ?_) (fun _ _ _ _ _ _ _ => trivial) trivial hm
    (fun added removed index => attends fun _ => ⟨added, removed, index, rfl⟩) (attends (by simp))
    (fun w₁ ids ha _ => ?_) (fun w₂ ids h₂ => ?_) (fun _ _ h₂ => h₂) fun a w₃ h₃ => ?_
  · by_contra hu
    exact hct (begun.leaf_of_list hC hq hu).1
  · -- Whoever watches the presence of a value in the list is out of date.
    have hflags : ∀ {t}, (t, .flag) ∈ C.parts → ∀ lf ∈ (R (t, .flag)).leaves, lf.Current (w.replaced l vs) := by
      intro t ht lf hlf
      obtain ⟨l₀, hl₀, hp, -⟩ := (hrun _ ht).key_leaf hC.scope
      obtain rfl : lf = l₀ := by simpa [hl₀] using hlf
      have hc := h.flags ht _ hlf
      rw [Leaf.Current, hp, Place.read_entry] at hc ⊢
      rwa [hunder]
    refine ⟨R, ⟨⟨h.around.congr ha.layout (by rw [ha.depth, h.around.depth]) ha.config, h.handles, h.paths, ?_, ?_, h.lists,
      ?_⟩,
      ha.layout ▸ hrun, ⟨ha.layout ▸ hw.has, hw.nodup, ha.layout ▸ hw.tidy⟩, ha.layout ▸ .refl _ _, by rw [ha.contents], ?_, ?_,
      fun _ _ => rfl, fun _ _ hl _ => Or.inr hl⟩⟩
    · rw [ha.contents, hunder]
      exact h.list
    · rw [ha.contents]
      intro t ht ht'
      rw [hunder, h.even ht ht']
    · rw [ha.contents]
      exact hflags
    · intro key _
      rw [ha.contents, hunder]
      rfl
    · rintro lf ⟨i, hi, hlf⟩
      have hplaced := (hrun i hi).placed lf hlf
      by_cases hSl : Post.OfList l .content lf.post
      · refine Or.inr (Or.inr ⟨hSl, lf.post, hSl, ?_⟩)
        rw [ha.layout]
        refine hplaced.holds.posted ?_
        obtain ⟨callback, hcb⟩ := hSl
        rw [hcb]
        exact hfound
      · refine Or.inl (Or.inr ⟨⟨i, hi, hlf⟩, ?_⟩)
        rw [ha.contents]
        exact hread (watched_of_places hplaced.place) hSl
  · obtain ⟨R₂, h₂⟩ := h₂
    exact ⟨by rw [h₂.items], R₂, h₂.mono fun _ _ => False.elim⟩
  · obtain ⟨R₃, h₃⟩ := h₃
    exact ⟨R₃, h₃.congr rfl rfl (by simp [h₃.around.depth]) rfl⟩


/-- A value is deleted from a list until it is not there any more. -/
theorem deleteAll_ends (hC : C.Sound S) (hH : H.Quiet fun _ _ _ _ => True) (hd : d + 1 < C.config.maxDispatchDepth)
    (hn : ∀ {t}, (t, .member) ∈ C.parts → 2 * S.turns t.flag + 12 ≤ n) (h : Steady S C d R w)
    (hrun : Family.Run (S.reader C.aim) C.parts R w.layout) (hw : w.Fits (Family.owned C.parts R + C.extra))
    (hfound : l.index < w.layout.lists) {v : Value} {rounds : Nat} (hr : (w.contents.items l).length < rounds) :
    (deleteAll (engine H (n + 2)) l v rounds).Ends w fun _ w' =>
      ∃ R' items, Passing S C d (.ofList R w C l) items (fun _ => False) R' w' ∧ v.memberOf (items l) = false := by
  induction rounds generalizing R w with
  | zero => omega
  | succ rounds ih =>
    simp only [deleteAll, Run.ends_bind]
    refine ListId.delete_ends (fun habsent => ?_) fun vs change before mutate hlen hm => ?_
    · simp only [Bool.false_eq_true, if_false, Run.ends_pure]
      exact ⟨R, _, .begin h hrun hw, habsent⟩
    · refine (apply_ends hC hH hd hn h hrun hw hfound hm).imp ?_
      rintro _ w₁ ⟨R₁, h₁⟩
      have hitems : w₁.contents.items l = vs := by
        rw [h₁.items, World.items_replaced hfound]
      simp only [if_true]
      refine (ih h₁.toSteady h₁.runs h₁.fits (h₁.layout.lists ▸ hfound) (by rw [hitems]; omega)).imp ?_
      rintro _ w₂ ⟨R₂, items, h₂, habsent⟩
      exact ⟨R₂, items, h₁.trans hC h₂, habsent⟩

/-- The presence of a value in a list becomes what is wanted. -/
theorem setPresence_ends (hC : C.Sound S) (hH : H.Quiet fun _ _ _ _ => True) (hd : d + 1 < C.config.maxDispatchDepth)
    (hn : ∀ {t}, (t, .member) ∈ C.parts → 2 * S.turns t.flag + 12 ≤ n) (h : Steady S C d R w)
    (hrun : Family.Run (S.reader C.aim) C.parts R w.layout) (hw : w.Fits (Family.owned C.parts R + C.extra))
    (hfound : l.index < w.layout.lists) (v : Value) (present : Bool) :
    (setPresence (engine H (n + 2)) (.list l) v present).Ends w fun _ w' =>
      ∃ R' items, Passing S C d (.ofList R w C l) items (fun _ => False) R' w' ∧ v.memberOf (items l) = present := by
  cases present with
  | true =>
    simp only [setPresence, if_true, Run.ends_bind, ListId.ends_contains]
    cases hc : v.memberOf (w.contents.items l) with
    | true =>
      simp only [Bool.not_true, Bool.false_eq_true, if_false, Run.ends_pure]
      exact ⟨R, _, .begin h hrun hw, hc⟩
    | false =>
      simp only [Bool.not_false, if_true]
      refine ListId.push_ends fun change before mutate hm => ?_
      refine (apply_ends hC hH hd hn h hrun hw hfound hm).imp ?_
      rintro _ w₁ ⟨R₁, h₁⟩
      refine ⟨R₁, _, h₁, ?_⟩
      rw [World.items_replaced hfound]
      simp [Value.memberOf]
  | false =>
    simp only [setPresence, Bool.false_eq_true, if_false, Run.ends_bind, ListId.ends_length]
    exact deleteAll_ends hC hH hd hn h hrun hw hfound (by rw [deletePatience]; omega)


end Passing

/-! ## Writing the list -/

/-- The switch `t` may write: it comes without the observer of its flag, the others with theirs, and none is writing. -/
structure Cast.Lends (S : Panel) (C : Cast π) (t : Switch) : Prop where
  scope : S.scope.value = .object S.target
  fixed : ∀ {t r}, (t, r) ∈ C.parts → (S.member t.flag).Fixed S.scope (S.value t.flag)
  apart : ∀ {t r}, (t, r) ∈ C.parts → t.flag ≠ S.key
  distinct : ∀ {t r t' r'}, (t, r) ∈ C.parts → (t', r') ∈ C.parts → t.flag = t'.flag → t = t'
  places : C.places = (S.reader (π := π) C.aim (t, .flag)).places
  absent : (t, .flag) ∉ C.parts
  alone : ∀ {t' r}, (t', r) ∈ C.parts → t'.flag = t.flag → t' = t
  syncing : .flag t.syncing ∈ C.extra ∧ C.cells.flagIs t.syncing false
  flags : ∀ {t'}, (t', .member) ∈ C.parts → .flag t'.syncing ∈ C.extra ∧ .flag t'.ready ∈ C.extra ∧
    C.cells.flagIs t'.ready true ∧ t'.ready ≠ t.syncing
  others : ∀ {t'}, (t', .member) ∈ C.parts → t' ≠ t → (t', .flag) ∈ C.parts ∧ C.cells.flagIs t'.syncing false ∧
    t'.syncing ≠ t.syncing

theorem Cast.Lends.place_iff (h : C.Lends S t) {p : Place} :
    C.places p ↔ p = .entry S.target S.key ∨ p = .entry S.target t.flag := by
  rw [h.places]
  rfl

/-- While it is writing. -/
theorem Cast.Lends.sound (h : C.Lends S t) {K : Layout π} (hf : K.flagIs t.syncing true)
    (hK : ∀ p ∈ C.extra, p ≠ .flag t.syncing → C.cells.Same K p) : ({ C with cells := K } : Cast π).Sound S where
  scope := h.scope
  fixed := h.fixed
  apart := h.apart
  distinct := h.distinct
  places hp := by
    rcases h.place_iff.1 hp with rfl | rfl <;> exact ⟨_, rfl⟩
  flags ht := by
    obtain ⟨hE, hE', hr, hne⟩ := h.flags ht
    exact ⟨hE, hE', hr.same (hK _ hE' (by simpa using hne))⟩
  writing {t'} ht := by
    by_cases he : t' = t
    · subst he
      exact Or.inl ⟨hf, h.absent⟩
    · obtain ⟨hflag, hs, hne⟩ := h.others ht he
      refine Or.inr ⟨hs.same (hK _ (h.flags ht).1 (by simpa using hne)), hflag, fun hp => ?_⟩
      rcases h.place_iff.1 hp with hp | hp
      · exact h.apart ht (by simpa using hp)
      · exact he (h.alone ht (by simpa using hp))

/-- What is behind the observer of a flag whose value is `u` and that writes the list `l`, which is under the key now. The
observer of the presence may still follow another list; it has found then what the flag says. -/
structure Toggling (S : Panel) (C : Cast π) (d : Nat) (t : Switch) (l : ListId) (u : Value) (R : Switch × Role → Running π)
    (E : Multiset Piece) (o : Option Value) (w : World (Callback π) (Env π σ)) : Prop where
  extra : E = C.extra
  steady : Steady S C d R w
  found : l.index < w.layout.lists
  list : w.contents.under S.target S.key = .list l
  value : w.contents.under S.target t.flag = u
  current : ∀ lf, Family.Has C.parts R lf → lf.place ≠ .entry S.target S.key → lf.Current w.contents
  even : (t, .member) ∈ C.parts → ∀ v, o = some v → v.truthy = (R (t, .member)).value.truthy
  follows : (t, .member) ∈ C.parts → (∃ lf ∈ (R (t, .member)).leaves, lf.place = .entry S.target S.key ∧ lf.value = .list l) ∨
    u.truthy = (R (t, .member)).value.truthy
  /-- The list has been written when its observer is yet to come. -/
  written : (t, .member) ∉ C.parts → ∀ v, o = some v →
    v.truthy = turned (S.turns t.flag) ((S.value t.flag).memberOf (w.contents.items l))

theorem Toggling.congr {u : Value} {E : Multiset Piece} {o : Option Value} (hR : ∀ i ∈ C.parts, R' i = R i)
    (h : Toggling S C d t l u R E o w) : Toggling S C d t l u R' E o w where
  extra := h.extra
  steady := h.steady.congr hR rfl rfl h.steady.around.depth rfl
  found := h.found
  list := h.list
  value := h.value
  current := fun lf ⟨i, hi, hl⟩ => h.current lf ⟨i, hi, hR i hi ▸ hl⟩
  even ht := by
    rw [hR _ ht]
    exact h.even ht
  follows ht := by
    rw [hR _ ht]
    exact h.follows ht
  written := h.written

/-- The list has been written; the observer of the presence has found what the flag says. -/
theorem Passing.agrees {u v m : Value} (hC : C.Sound S) (h : Steady S C d R w) (hrun : Family.Run (S.reader C.aim) C.parts R w.layout)
    (hlist : w.contents.under S.target S.key = .list l) (ht : (t, .member) ∈ C.parts)
    (hcurrent : ∀ lf, Family.Has C.parts R lf → lf.place ≠ .entry S.target S.key → lf.Current w.contents)
    (hfollows : (∃ lf ∈ (R (t, .member)).leaves, lf.place = .entry S.target S.key ∧ lf.value = .list l) ∨
      u.truthy = (R (t, .member)).value.truthy)
    (hv : v.same u = true) (hm : m.same (S.value t.flag) = true)
    (h' : Passing S C d (.ofList R w C l) items (fun _ => False) R' w')
    (hpresent : m.memberOf (items l) = (turnedBack (S.turns t.flag) v).truthy) :
    v.truthy = (R' (t, .member)).value.truthy ∧
      ((∃ lf ∈ (R' (t, .member)).leaves, lf.place = .entry S.target S.key ∧ lf.value = .list l) ∨
        u.truthy = (R' (t, .member)).value.truthy) := by
  obtain ⟨lk₀, le₀, list₀, m₀, hls₀, hp₀, hlist₀, hp₀', hm₀, hv₀⟩ := h.presence hC.scope (hC.fixed ht) hrun ht
  have hkey : ∀ {lf : Leaf π}, lf ∈ (R (t, .member)).leaves → lf.place = .entry S.target S.key → lf.value = .list list₀ := by
    intro lf hlf hp
    rw [hls₀, List.mem_cons, List.mem_singleton] at hlf
    rcases hlf with rfl | rfl
    · exact hlist₀
    · cases hp₀'.symm.trans hp
  by_cases hl : list₀ = l
  · subst hl
    -- The presence is that in the list that was written.
    obtain ⟨lk, le, list, m', hls, hp, hlk, hp', hm', hv'⟩ := h'.presence hC.scope (hC.fixed ht) h'.runs ht
    have hke := @h'.kept S.key fun t' ht' => (hC.apart ht').symm
    obtain rfl : list = list₀ := by
      rcases h'.follows ht lk (by simp [hls]) hp with hc | hlk'
      · rw [Leaf.Current, hp, Place.read_entry, hke, hlk] at hc
        have := Value.eq_of_same_list hc
        rw [show (Outset.ofList R w C list₀).world = w from rfl, hlist] at this
        simpa using this.symm
      · simpa using hlk.symm.trans (hkey hlk' hp)
    have hle : le.Current w'.contents := by
      rcases (h'.leaves ⟨_, ht, (by simp [hls] : le ∈ _)⟩).resolve_right id with hc | ⟨hold, hr⟩
      · exact hc
      · rw [Leaf.Current, hr]
        exact hcurrent le hold (by rw [hp']; simp)
    rw [Leaf.Current, hp', Place.read, h'.items, Value.memberOf_eq_of_same (Value.same_trans hm' (Value.same_symm hm)),
      hpresent] at hle
    refine ⟨?_, Or.inl ⟨lk, by simp [hls], hp, hlk⟩⟩
    rw [hv', Value.truthy_eq_of_same hle, ← turned_turnedBack (S.turns t.flag) v]
    rfl
  · -- Another list is followed, and nothing has changed.
    have hstill : R' (t, .member) = R (t, .member) := by
      refine h'.still ht fun lf hlf => ?_
      rintro ⟨v', hv'⟩
      change lf ∈ (R (t, .member)).leaves at hlf
      rw [hls₀, List.mem_cons, List.mem_singleton] at hlf
      rcases hlf with rfl | rfl
      · cases hp₀.symm.trans hv'
      · exact hl (Place.element.inj (hp₀'.symm.trans hv')).1
    have hu : u.truthy = (R (t, .member)).value.truthy := by
      refine hfollows.resolve_left ?_
      rintro ⟨lf, hlf, hp, hlv⟩
      exact hl (by simpa using (hkey hlf hp).symm.trans hlv)
    rw [hstill]
    exact ⟨(Value.truthy_eq_of_same hv).trans hu, Or.inr hu⟩

/-- What the observer of a flag says becomes the presence of its value in the list. -/
theorem Cast.Lends.writes (hC : C.Lends S t) (hH : H.Quiet fun _ _ _ _ => True) (hd : d + 1 < C.config.maxDispatchDepth)
    (hn : ∀ {t'}, (t', .member) ∈ C.parts → 2 * S.turns t'.flag + 12 ≤ n) {m u : Value}
    (hm : m.same (S.value t.flag) = true) :
    Accepts H C.places (n + 2) (S.listSink t ⟨l, m⟩) (fun v => v.same u = true)
      (Behind.family (S.reader C.aim) C.parts (Toggling S C d t l u)) := by
  obtain ⟨hE, hf⟩ := hC.syncing
  constructor
  · rintro F L o w G G' w' ⟨R, E, rfl, hL, hR, h⟩ hw ht
    obtain rfl := h.extra
    refine ⟨R, _, rfl, hL, hR.same (fun p hp => ht.same hw (Multiset.mem_add.2 (Or.inl hp))) ht.layout.lists ht.layout.objects,
      rfl, ⟨h.steady.around.touch hw ht, h.steady.handles, h.steady.paths, ?_, ?_, h.steady.lists, ?_⟩, ht.layout.lists ▸ h.found,
      ?_, ?_, ?_, h.even, h.follows, ?_⟩
    all_goals rw [ht.contents]
    exacts [h.steady.list, h.steady.even, h.steady.flags, h.list, h.value, h.current, h.written]
  · rintro n' F L o w v hn' hv ⟨R, E, rfl, hL, hR, h⟩ hw
    obtain rfl := h.extra
    obtain ⟨k, rfl⟩ : ∃ k, n' = k + 2 := ⟨n' - 2, by omega⟩
    have hsync := h.steady.around.frozen _ hE
    refine emitGuarded_ends (N := Place.posts fun _ => False) (hf.same hsync) nofun fun w₁ t₁ hf₁ => ?_
    obtain ⟨h₁, hw₁, hr₁, hsame₁⟩ := h.steady.around.set hw hE t₁
    let C₁ : Cast π := { C with cells := w₁.layout }
    have hsound : C₁.Sound S := hC.sound hf₁ fun p hp hne =>
      (h.steady.around.frozen p hp).trans (t₁.layout.same p (hw.has p (Multiset.mem_add.2 (Or.inr hp))) (by simpa using hne))
    have hruns₁ : Family.Run (S.reader C.aim) C.parts R w₁.layout := hR.same hsame₁ t₁.layout.lists t₁.layout.objects
    have hsteady₁ : Steady S C₁ d R w₁ := by
      refine ⟨h₁, h.steady.handles, h.steady.paths, ?_, ?_, h.steady.lists, ?_⟩
      all_goals rw [t₁.contents]
      exacts [h.steady.list, h.steady.even, h.steady.flags]
    have hlist₁ : w₁.contents.under S.target S.key = .list l := by rw [t₁.contents, h.list]
    have hcurrent₁ : ∀ lf, Family.Has C₁.parts R lf → lf.place ≠ .entry S.target S.key → lf.Current w₁.contents := by
      rw [t₁.contents]
      exact h.current
    rw [emit_turnedSink]
    refine (Passing.setPresence_ends hsound hH hd (fun ht => (hn ht).trans (by omega)) hsteady₁ hruns₁ hw₁
      (t₁.layout.lists ▸ h.found) m (turnedBack (S.turns t.flag) v).truthy).imp ?_
    rintro _ w₂ ⟨R₂, items, h₂, hpresent⟩
    refine ⟨hf₁.same (h₂.around.frozen _ hE), fun w₃ t₃ hf₃ => ?_⟩
    obtain ⟨h₃, hw₃, hr₃, hsame₃⟩ := h.steady.around.reset hw hf t₁ h₂.around h₂.fits hE t₃ hf₃
    obtain ⟨L₂, hL₂⟩ := Family.exists_leaves C.parts R₂
    have hread : ∀ {key}, key = S.key ∨ key = t.flag → w₂.contents.under S.target key = w.contents.under S.target key := by
      intro key hkey
      rw [← t₁.contents]
      refine h₂.kept fun t' ht' he => ?_
      rcases hkey with rfl | rfl
      · exact hC.apart ht' he.symm
      · exact hC.absent (hC.alone ht' he.symm ▸ ht')
    have hcurrent₂ : ∀ lf, Family.Has C.parts R₂ lf → lf.place ≠ .entry S.target S.key → lf.Current w₂.contents := by
      intro lf hlf hne
      rcases (h₂.leaves hlf).resolve_right id with hc | ⟨hold, hr⟩
      · exact hc
      · rw [Leaf.Current, hr]
        exact hcurrent₁ lf hold hne
    have hagrees : (t, .member) ∈ C.parts → _ := fun ht =>
      Passing.agrees hsound hsteady₁ hruns₁ hlist₁ ht hcurrent₁ (h.follows ht) hv hm h₂ hpresent
    refine ⟨_, L₂, ⟨R₂, C.extra, rfl, hL₂, h₂.runs.same hsame₃ t₃.layout.lists t₃.layout.objects, rfl,
      ⟨h₃, h₂.handles, h₂.paths, ?_, ?_, h₂.lists, ?_⟩, ?_, ?_, ?_, ?_, ?_, fun ht => (hagrees ht).2, ?_⟩,
      ⟨hr₁.trans (h₂.layout.trans hr₃), ?_, ?_, ?_⟩, fun lf hlf => ?_⟩
    · rw [t₃.contents]
      exact h₂.list
    · rw [t₃.contents]
      exact h₂.even
    · rw [t₃.contents]
      exact h₂.flags
    · rw [t₃.layout.lists, h₂.layout.lists]
      exact t₁.layout.lists ▸ h.found
    · rw [t₃.contents, hread (Or.inl rfl), h.list]
    · rw [t₃.contents, hread (Or.inr rfl)]
      exact h.value
    · rw [t₃.contents]
      exact hcurrent₂
    · rintro ht _ ⟨⟩
      exact (hagrees ht).1
    · rintro - _ ⟨⟩
      rw [t₃.contents, h₂.items, Value.memberOf_eq_of_same (Value.same_symm hm), hpresent, turned_turnedBack]
    · intro p hp
      rcases hC.place_iff.1 hp with rfl | rfl
      · rw [Place.read_entry, Place.read_entry, t₃.contents, hread (Or.inl rfl)]
      · rw [Place.read_entry, Place.read_entry, t₃.contents, hread (Or.inr rfl)]
    · exact t₃.depth.trans (h₂.around.depth.trans h.steady.around.depth.symm)
    · exact t₃.config.trans (h₂.around.config.trans h.steady.around.config.symm)
    · rw [t₃.contents, ← t₁.contents]
      rcases (h₂.leaves ((hL₂ lf).1 hlf)).resolve_right id with hc | ⟨hold, hr⟩
      · exact Or.inl hc
      · exact Or.inr ⟨(hL lf).2 hold, hr⟩


/-- The observer of a flag runs in the slot, for a row of a list and a value. -/
def Panel.Shows (S : Panel) (t : Switch) (vs : List Value) (K : Layout π) (R : Running π) : Prop :=
  ∃ list m, vs = [.list list, m] ∧ Runs (fun p => p = .entry S.target S.key ∨ p = .entry S.target t.flag) K (keyExpr t.flag)
    S.scope (S.listSink t ⟨list, m⟩) R

theorem Panel.shows_stops (vs : List Value) : Stops H 3 (S.Shows (π := π) t vs) where
  same := fun ⟨list, m, hvs, h⟩ hs hk => ⟨list, m, hvs, (Runs.stopping (H := H) _ _ _).same h hs hk⟩
  stop hn := fun ⟨_, _, _, h⟩ hw => (Runs.stopping (keyExpr t.flag) _ _).stop hn h hw

theorem Panel.source_start (E : Engine π σ) (next : Sink π) :
    (S.source t).start E next = (keyExpr t.flag).start E (.guarded t.syncing none (turnedSink (S.turns t.flag) next)) S.scope := by
  rw [Panel.source]
  generalize S.turns t.flag = turns
  induction turns generalizing next with
  | zero => rfl
  | succ turns ih => rw [Function.iterate_succ_apply', Source.start, ih, turnedSink_inverse, turnedSink]

/-- The observer of a flag is started in a slot once the list that it writes is known. -/
theorem Cast.Lends.reacts (hC : C.Lends S t) (hH : H.Quiet fun _ _ _ _ => True) (hd : d + 1 < C.config.maxDispatchDepth)
    (hn : ∀ {t'}, (t', .member) ∈ C.parts → 2 * S.turns t'.flag + 12 ≤ n) (u : Value) (slot : Ref .slot) :
    Reacts H (fun p => p = .entry S.target S.key) (n + 8) (.writeTo slot .toggle (S.source t))
      (fun vs => ∃ m, vs = [.list l, m] ∧ m.same (S.value t.flag) = true)
      ((Behind.family (S.reader C.aim) C.parts (Toggling S C d t l u)).slot slot (S.Shows t)) := by
  have hacc := fun m hm => hC.writes (d := d) (l := l) (u := u) (m := m) hH hd hn hm
  have hD : ∀ p, p = .entry S.target S.key → C.places p := fun p hp => hC.place_iff.2 (Or.inl hp)
  change Handles _ _ (fun n (vs : List Value) => restart (engine H n) slot
    ((S.source t).start (engine H n) (.write .toggle (vs.getD 0 .undefined) (vs.getD 1 .undefined)))) _ _
  refine Handles.restart 3 ((hacc _ (Value.same_refl _)).stable.narrow hD) Panel.shows_stops (by omega) ?_
  rintro k F L o w vs hk ⟨m, rfl, hm⟩ hJ hw
  rw [Panel.source_start]
  have key := keyExpr_started hC.scope (hC.place_iff.2 (Or.inr rfl)) (hacc m hm) (fun ⟨_, _, _, _, _, h⟩ => ?_) (by omega) hJ hw
  · refine key.imp fun _ w' h' => Behind.Started.narrow hD ?_
    obtain ⟨R, F', L', hh, hR, h'⟩ := h'
    rw [hC.places] at hR
    exact ⟨R, F', L', hh, ⟨l, m, rfl, hR⟩, h'⟩
  · rw [h.value]
    exact Value.same_refl u

end

end LiveBindings
