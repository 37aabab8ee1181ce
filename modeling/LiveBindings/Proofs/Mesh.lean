import LiveBindings.Proofs.Binding
import LiveBindings.Proofs.Wave

/-!
# Keys that are bound both ways

Keys of one object that are bound to each other in both directions: an `Arrow` reads one key and writes another, and the two
arrows of a binding share a flag that is set while one of them writes. A value that comes to a key goes on to its neighbours and
from there further, but never back through an arrow that is still writing. The keys that are being written all hold the value
already, so what such a guard drops is never needed (`Mesh.accepts`), and when all is over the keys at the ends of every arrow
hold the same (`Mesh.Settled`).
-/

namespace LiveBindings

variable {π σ : Type}

/-! ## Reading one key -/

section

variable {H : Host π σ} {D : Place → Prop} {F : Multiset Piece} {L : List (Leaf π)} {w : World (Callback π) (Env π σ)}
  {next : Sink π} {V : Value → Prop} {J : Behind π σ Value} {need n : Nat} {s : Scope} {R : Running π} {l : Leaf π}
  {key : String} {target : ObjectId}

/-- The expression that reads a key of the value in scope. -/
abbrev keyExpr (key : String) : Expr := .property .value (.literal (.text key))

/-- A constant or the value in scope has no listeners. -/
theorem Runs.leaves_constant {K : Layout π} {x : Expr} (h : Runs D K x s next R) (hx : x = .value ∨ ∃ v, x = .literal v) :
    R.leaves = [] := by
  cases h with
  | literal | value | parameters => rfl
  | @following what => cases what <;> simp [Followed.expr] at hx
  | _ => simp at hx

/-- The listener of an observer of a key is told. -/
theorem keyExpr_told (hR : Runs D w.layout (keyExpr key) s next R) (h : Accepts H D need next V J)
    (hV : V (l.place.read w.contents)) (hn : need ≤ n) (hJ : J F L (some R.value) w) (hw : w.Fits (R.owned + F))
    (hl : l ∈ R.leaves) :
    (l.sink.emit (engine H n) (H.observer (engine H n)) (l.place.read w.contents)).Ends w fun _ w' =>
      J.Told D (fun K R => Runs D K (keyExpr key) s next R) R l F L w w' := by
  generalize hx : keyExpr key = x at hR
  cases hR with
  | @following what a b _ _ row slot last c g x y v Ra Rb Rc hRa hRb hRc hrow hslot hlast hxa hyb hv =>
    cases what with
    | membership => cases hx
    | property =>
      obtain ⟨rfl, rfl⟩ : Expr.value = a ∧ .literal (.text key) = b := by simpa [keyExpr, Followed.expr] using hx
      have hlc : l ∈ Rc.leaves := by
        simpa [hRa.leaves_constant (Or.inl rfl), hRb.leaves_constant (Or.inr ⟨_, rfl⟩)] using hl
      exact followed_told hRa hRb hRc hrow hslot hlast hxa hyb hv h hV hn hJ hw hlc
  | _ => cases hx

/-- An observer of a key is started in front of a sink that takes what is under the key. -/
theorem keyExpr_started (hs : s.value = .object target) (hD : D (.entry target key)) (h : Accepts H D need next V J)
    (hV : ∀ {F L o w}, J F L o w → V (w.contents.under target key)) (hn : need + 6 ≤ n) {o : Option Value} (hJ : J F L o w)
    (hw : w.Fits F) :
    ((keyExpr key).start (engine H n) next s).Ends w (J.Started D (fun K R => Runs D K (keyExpr key) s next R) F L w) := by
  have hfinds : ∀ x y, Expr.value.Emits s x → (Expr.literal (.text key)).Emits s y →
      Followed.property.Finds D J V x y := by
    intro x y hx hy
    obtain rfl : x = .object target := Value.eq_of_same_object (hs ▸ hx)
    obtain rfl : y = .text key := Value.eq_of_same_text hy
    refine ⟨fun c p hp => ?_, fun c F L o w hJ => ?_⟩
    · obtain rfl : Place.entry target (c.key (.text key)) = p := by simpa [Followed.spot] using hp
      simpa using hD
    · simpa [Followed.spot, Spot.read] using hV hJ
  refine startFollowing_started .property ?_ ?_ hfinds h (by simpa [Expr.size] using hn) hJ hw
  · exact Expr.Scalar.value.starts trivial
  · exact (Expr.Scalar.literal _).starts trivial

end

/-! ## Arrows -/

/-- One direction of a binding: the keys that it reads and writes, and its flags. -/
structure Arrow where
  source : String
  target : String
  syncing : Ref .flag
  ready : Option (Ref .flag)
deriving DecidableEq

/-- A listener of the program, registered for what comes after a change of a key, and how often it was told. -/
structure Meter (π σ : Type) where
  key : String
  id : ListenerId
  user : π
  count : σ → Nat

namespace Meter

/-- What the program's state says about how often the listener was told. -/
def hears (m : Meter π σ) (p : π) (_ : Event) (h h' : σ) : Prop :=
  (p = m.user → m.count h' ≤ m.count h + 1) ∧ (p ≠ m.user → m.count h' ≤ m.count h)

/-- The listener is registered nowhere else. -/
def Only (m : Meter π σ) (o : ObjectId) (id : ListenerId) (q : Post π) : Prop :=
  q.callback = .user m.user → id = m.id ∧ q = .object o (.after m.key) (.user m.user)

end Meter

/-- Keys of an object that arrows connect. -/
structure Mesh (π σ : Type) where
  target : ObjectId
  scope : Scope
  arrows : Finset Arrow
  /-- The flags of the arrows. -/
  flags : Finset (Ref .flag)
  /-- Keys among which values are passed on. -/
  linked : String → String → Prop
  /-- No key with an arrow is linked to as many keys. -/
  limit : Nat
  meter : Meter π σ

namespace Mesh

/-- The observer of an arrow. -/
def reader (M : Mesh π σ) (i : Arrow) : Reader π where
  source := keyExpr i.source
  scope := M.scope
  sink := .guarded i.syncing i.ready (keySink M.target i.target)
  places p := p = .entry M.target i.source

/-- Keys that are all linked to each other. -/
def Linked (M : Mesh π σ) (C : Finset String) : Prop := ∀ a ∈ C, ∀ b ∈ C, M.linked a b

/-- The flags are as `φ` says, and who uses them is known: an arrow that writes is between keys among `C`, and every arrow is
ready. -/
structure Guards (M : Mesh π σ) (φ : Ref .flag → Bool) (C : Finset String) : Prop where
  syncing : ∀ i ∈ M.arrows, φ i.syncing = true → i.source ∈ C ∧ i.target ∈ C
  ready : ∀ i ∈ M.arrows, ∀ f, i.ready = some f → φ f = true

/-- Arrows of one flag are between the same keys, and no flag serves two purposes. -/
structure Sound (M : Mesh π σ) : Prop where
  scope : M.scope.value = .object M.target
  linked : Equivalence M.linked
  between : ∀ i ∈ M.arrows, M.linked i.source i.target
  owned : ∀ i ∈ M.arrows, i.syncing ∈ M.flags ∧ ∀ f, i.ready = some f → f ∈ M.flags
  apart : ∀ i ∈ M.arrows, ∀ j ∈ M.arrows, j.ready ≠ some i.syncing
  both : ∀ i ∈ M.arrows, ∀ j ∈ M.arrows, j.syncing = i.syncing →
    (j.source = i.source ∨ j.source = i.target) ∧ (j.target = i.source ∨ j.target = i.target)
  small : ∀ i ∈ M.arrows, ∀ C : Finset String, (∀ a ∈ C, M.linked i.source a) → C.card < M.limit

/-- The arrows that a value reaches that is not passed on from the keys among `B` any more. -/
def awake (M : Mesh π σ) (B : Finset String) : Finset Arrow := {i ∈ M.arrows | i.source ∉ B}

@[simp] theorem mem_awake {M : Mesh π σ} {B : Finset String} {i : Arrow} : i ∈ M.awake B ↔ i ∈ M.arrows ∧ i.source ∉ B :=
  Finset.mem_filter

/-- The stage on which a value is passed on: the keys other than `B` may become it. -/
def stage (M : Mesh π σ) (B : Finset String) (v : Value) (before : String → Value) : Stage π where
  target := M.target
  free key := key ∉ B
  becomes u := u.same v = true
  before := before
  users := M.meter.Only M.target

/-- Besides the observers there are the flags. -/
def Flags (M : Mesh π σ) (φ : Ref .flag → Bool) (E : Multiset Piece) (w : World (Callback π) (Env π σ)) : Prop :=
  E = M.flags.val.map .flag ∧ ∀ f ∈ M.flags, w.layout.flagIs f (φ f)

/-- A key holds one value or another. -/
def Holds (M : Mesh π σ) (w : World (Callback π) (Env π σ)) (key : String) (u v : Value) : Prop :=
  (w.contents.under M.target key).same u = true ∨ (w.contents.under M.target key).same v = true

/-- Each key that an arrow among `S` writes holds what the arrow handed on last, or the value that is being passed on. -/
def Fed (M : Mesh π σ) (S : Finset Arrow) (v : Value) (R : Arrow → Running π) (w : World (Callback π) (Env π σ)) : Prop :=
  ∀ i ∈ S, M.Holds w i.target (R i).value v

/-- The listener was told at most `c` times, not counting a change of its key to the value that is being passed on. -/
def Counted (M : Mesh π σ) (c : Nat) (B : Finset String) (v : Value) (w : World (Callback π) (Env π σ)) : Prop :=
  M.meter.count w.env.host ≤ c ∨
    M.meter.key ∉ B ∧ (w.contents.under M.target M.meter.key).same v = true ∧ M.meter.count w.env.host ≤ c + 1

/-- A key is as before, or became the value that is being passed on. -/
def Moved (M : Mesh π σ) (v : Value) (before : String → Value) (w : World (Callback π) (Env π σ)) : Prop :=
  ∀ key, (w.contents.under M.target key).same v = true ∨ w.contents.under M.target key = before key

/-- What holds while a value is passed on to keys other than `B`. -/
structure Passed (M : Mesh π σ) (B : Finset String) (v : Value) (φ : Ref .flag → Bool) (before : String → Value) (c : Nat)
    (R : Arrow → Running π) (E : Multiset Piece) (w : World (Callback π) (Env π σ)) : Prop where
  flags : M.Flags φ E w
  fed : M.Fed (M.awake B) v R w
  moved : M.Moved v before w
  counted : M.Counted c B v w

/-- So does this while `o` is what was handed on last for the key `z`. -/
def Handed (M : Mesh π σ) (B : Finset String) (z : String) (v : Value) (φ : Ref .flag → Bool) (before : String → Value)
    (c : Nat) (R : Arrow → Running π) (E : Multiset Piece) (o : Option Value) (w : World (Callback π) (Env π σ)) : Prop :=
  M.Passed B v φ before c R E w ∧ ∀ u, o = some u → M.Holds w z u v

/-- What is behind the sink that writes the key `z`. -/
abbrev behind (M : Mesh π σ) (B : Finset String) (z : String) (v : Value) (φ : Ref .flag → Bool) (depth : Nat) (config : Config)
    (before : String → Value) (c : Nat) : Behind π σ Value :=
  Behind.staged M.reader (M.awake B) (M.stage B v before) depth config (M.Handed B z v φ before c)

/-- How many nested calls a write takes while the keys among `B` hold the value. -/
def need (M : Mesh π σ) (B : Finset String) : Nat := 2 * (M.limit + 1 - B.card)

section

variable {M : Mesh π σ} {H : Host π σ} {B S : Finset String} {z : String} {v : Value} {φ : Ref .flag → Bool} {d c n : Nat}
  {config : Config} {before : String → Value} {D : Place → Prop} {F G G' E : Multiset Piece} {L : List (Leaf π)}
  {o : Option Value} {w w' : World (Callback π) (Env π σ)} {f : Ref .flag}

theorem keyed (M : Mesh π σ) (S : Finset Arrow) : Family.Keyed M.reader S M.target := fun i _ _ hp => ⟨i.source, hp⟩

theorem Holds.congr {key : String} {u : Value} (h : M.Holds w key u v)
    (hr : w'.contents.under M.target key = w.contents.under M.target key) : M.Holds w' key u v := by
  rw [Holds, hr]
  exact h

theorem Moved.congr (h : M.Moved v before w)
    (hr : ∀ key, w'.contents.under M.target key = w.contents.under M.target key) : M.Moved v before w' := by
  intro key
  rw [hr]
  exact h key

theorem Counted.congr (h : M.Counted c B v w)
    (hr : w'.contents.under M.target M.meter.key = w.contents.under M.target M.meter.key)
    (hh : w'.env.host = w.env.host) : M.Counted c B v w' := by
  rw [Counted, hh, hr]
  exact h

theorem Flags.ofLayout (h : M.Flags φ E w) (hl : w'.layout = w.layout) : M.Flags φ E w' :=
  ⟨h.1, fun f hf => by rw [hl]; exact h.2 f hf⟩

theorem Flags.touch (h : M.Flags φ E w) (hw : w.Fits (F + E + G)) (t : Touches (Place.posts D) G G' w w') :
    M.Flags φ E w' := by
  refine ⟨h.1, fun f hf => (h.2 f hf).same (t.same hw (Multiset.mem_add.2 (Or.inr ?_)))⟩
  rw [h.1]
  exact Multiset.mem_map_of_mem _ hf

/-- Only the flags, what is under keys and the program's state matter. -/
theorem Passed.congr {R : Arrow → Running π} {E' : Multiset Piece} {ψ : Ref .flag → Bool}
    (h : M.Passed B v φ before c R E w) (hf : M.Flags ψ E' w')
    (hr : ∀ key, w'.contents.under M.target key = w.contents.under M.target key) (hh : w'.env.host = w.env.host) :
    M.Passed B v ψ before c R E' w' :=
  ⟨hf, fun i hi => (h.fed i hi).congr (hr _), h.moved.congr hr, h.counted.congr (hr _) hh⟩

theorem Handed.congr {R R' : Arrow → Running π} (hR : ∀ i ∈ M.awake B, R' i = R i) (h : M.Handed B z v φ before c R E o w) :
    M.Handed B z v φ before c R' E o w :=
  ⟨⟨h.1.flags, fun i hi => by rw [hR i hi]; exact h.1.fed i hi, h.1.moved, h.1.counted⟩, h.2⟩

/-- What an observer of keys that are being passed on from does to its own pieces changes nothing. -/
theorem behind_stable (hD : ∀ p, D p → ∃ a ∈ B, p = .entry M.target a) :
    (M.behind B z v φ d config before c).Stable D := by
  refine .staged (fun p hp => ?_) fun {R E o w w' G G'} h hw t => ?_
  · obtain ⟨a, ha, rfl⟩ := hD p hp
    exact ⟨a, rfl, fun hn => hn ha⟩
  · have hr : ∀ key, w'.contents.under M.target key = w.contents.under M.target key := fun key => by rw [t.contents]
    exact ⟨h.1.congr (h.1.flags.touch hw t) hr t.host, fun u hu => (h.2 u hu).congr (hr _)⟩

/-- A flag is set or reset. -/
theorem setFlag_ends (hf : f ∈ M.flags) (b : Bool) (h : M.behind B z v φ d config before c F L o w) (hw : w.Fits F) :
    (setFlag f b).Ends w fun _ w' =>
      M.behind B z v (Function.update φ f b) d config before c F L o w' ∧ Touches (Place.posts fun _ => False) F F w w' := by
  obtain ⟨R, E, rfl, hL, hR, hB, hd, hm, hE, hX⟩ := h
  refine LiveBindings.setFlag_ends (N := Place.posts fun _ => False) (hX.1.flags.2 f hf) fun w' t hfw => ?_
  -- The flag is one of the pieces beside the observers.
  obtain ⟨E₀, hE₀⟩ : ∃ E₀, E = E₀ + {.flag f} := by
    have hmem : Piece.flag f ∈ E := by
      rw [hX.1.flags.1]
      exact Multiset.mem_map_of_mem _ hf
    obtain ⟨E₀, rfl⟩ := Multiset.exists_cons_of_mem hmem
    exact ⟨E₀, by rw [add_comm, Multiset.singleton_add]⟩
  have hw' : w.Fits (Family.owned (M.awake B) R + E₀ + {.flag f}) := by
    rwa [add_assoc, ← hE₀]
  have hr : ∀ key, w'.contents.under M.target key = w.contents.under M.target key := fun key => by rw [t.contents]
  refine ⟨⟨R, E, rfl, hL, hR.same (fun p hp => t.same hw' (Multiset.mem_add.2 (Or.inl hp))) t.layout.lists t.layout.objects,
    hB.touch nofun t, t.depth.trans hd, t.config.trans hm, hE, hX.1.congr ⟨hX.1.flags.1, fun g hg => ?_⟩ hr t.host,
      fun u hu => (hX.2 u hu).congr (hr _)⟩, ?_⟩
  · by_cases hgf : g = f
    · rw [hgf, Function.update_self]
      exact hfw
    · rw [Function.update_of_ne hgf]
      refine (hX.1.flags.2 g hg).same (t.same hw' (Multiset.mem_add.2 (Or.inr ?_)))
      have hmem : Piece.flag g ∈ E₀ + {.flag f} := by
        rw [← hE₀, hX.1.flags.1]
        exact Multiset.mem_map_of_mem _ hg
      simpa [hgf] using hmem
  · exact (t.frame hw').cast (by rw [add_assoc, ← hE₀]) (by rw [add_assoc, ← hE₀])

/-- A guard passes a value on, or drops it for a key that holds it already. -/
theorem guarded_accepts {need : Nat} {ready : Option (Ref .flag)} (hf : f ∈ M.flags)
    (hready : ∀ g, ready = some g → g ∈ M.flags) (hdrop : (φ f || ready.any fun g => !φ g) = true → (before z).same v = true)
    (hD : ∀ p, D p → ∃ a ∈ B, p = .entry M.target a)
    (hacc : (φ f || ready.any fun g => !φ g) = false → Accepts H D need (keySink M.target z) (fun u => u.same v = true)
      (M.behind B z v (Function.update φ f true) d config before c)) :
    Accepts H D need (.guarded f ready (keySink M.target z)) (fun u => u.same v = true)
      (M.behind B z v φ d config before c) := by
  refine ⟨behind_stable hD, ?_⟩
  rintro n F L o w u hn hu hJ hw
  obtain ⟨R, E, rfl, hL, hR, hB, hd, hm, hE, hX⟩ := id hJ
  have hany : (ready.any fun g => !w.layout.cells.flag g) = ready.any fun g => !φ g := by
    cases ready with
    | none => rfl
    | some g => simp [(hX.1.flags.2 g (hready g rfl)).eq]
  simp only [Sink.emit, emitGuarded, Run.ends_bind, ends_cells, (hX.1.flags.2 f hf).eq, hany]
  cases hblocked : φ f || ready.any fun g => !φ g with
  | true =>
    simp only [if_true, Run.ends_pure]
    refine ⟨_, L, ⟨R, E, rfl, hL, hR, hB, hd, hm, hE, hX.1, fun u' hu' => Or.inr ?_⟩, .refl _ _, .refl _ _⟩
    -- The key held the value already.
    rcases hB.kept z with ⟨-, hz⟩ | hz
    · exact hz
    · rw [show w.contents.under M.target z = before z from hz]
      exact hdrop hblocked
  | false =>
    have hφ : φ f = false := (Bool.or_eq_false_iff.1 hblocked).1
    simp only [Bool.false_eq_true, if_false, Run.ends_bind]
    refine (setFlag_ends hf true hJ hw).imp ?_
    rintro _ w₁ ⟨hJ₁, t₁⟩
    have hw₁ := hw.touch t₁
    refine ((hacc hblocked).run hn hu hJ₁ hw₁).imp ?_
    rintro _ w₂ ⟨F₂, L₂, hJ₂, hm₂, hr₂⟩
    have hw₂ := hm₂.fits hw₁
    refine (setFlag_ends hf false hJ₂ hw₂).imp ?_
    rintro _ w₃ ⟨hJ₃, t₃⟩
    rw [Function.update_idem, ← hφ, Function.update_eq_self] at hJ₃
    refine ⟨F₂, L₂, hJ₃, t₁.moves.trans (hm₂.trans t₃.moves), ?_⟩
    rw [t₃.contents, ← t₁.contents]
    exact hr₂

/-! ### One change of a key -/

/-- The tally while the listeners of the key `z` hear of its change; those under `ids` still have to be told. -/
def Tally (M : Mesh π σ) (c : Nat) (B : Finset String) (z : String) (v : Value) (ids : List ListenerId)
    (w : World (Callback π) (Env π σ)) : Prop :=
  if M.meter.key = z then M.meter.count w.env.host ≤ c + (if M.meter.id ∈ ids then 0 else 1) else M.Counted c B v w

/-- What holds while the listeners of the key `z` hear that it became the value. -/
structure Heard (M : Mesh π σ) (B : Finset String) (z : String) (v : Value) (φ : Ref .flag → Bool)
    (before : String → Value) (c : Nat) (R : Arrow → Running π) (E : Multiset Piece) (ids : List ListenerId)
    (w : World (Callback π) (Env π σ)) : Prop where
  flags : M.Flags φ E w
  fed : M.Fed (M.awake B) v R w
  moved : M.Moved v before w
  tally : M.Tally c B z v ids w
  held : (w.contents.under M.target z).same v = true

/-- A change of the key `z` to `u`, which is the same as the value that is being passed on. -/
def wave (M : Mesh π σ) (B : Finset String) (z : String) (v u : Value) (before : String → Value) (R : Arrow → Running π)
    (E : Multiset Piece) (w : World (Callback π) (Env π σ)) : Wave π σ Arrow where
  readers := M.reader
  among := M.awake B
  stage := M.stage B v before
  key := z
  value := u
  running := R
  extra := E
  start := w

variable {R R₀ : Arrow → Running π} {E₀ : Multiset Piece} {w₀ : World (Callback π) (Env π σ)} {u : Value}
  {ids : List ListenerId} {id : ListenerId} {p : π} {h h' : σ} {e : Event}

theorem Counted.mono (hc : M.Counted c B v w) (hh : M.meter.count h ≤ M.meter.count w.env.host) :
    M.Counted c B v (w.setHost h) :=
  hc.imp (fun hc => hh.trans hc) fun ⟨hb, hr, hc⟩ => ⟨hb, hr, hh.trans hc⟩

theorem Tally.skip (ht : M.Tally c B z v (id :: ids) w) : M.Tally c B z v ids w := by
  unfold Tally at ht ⊢
  split
  · rename_i hk
    rw [if_pos hk] at ht
    refine ht.trans (Nat.add_le_add_left ?_ c)
    by_cases hid : M.meter.id ∈ ids
    · simp [hid]
    · rw [if_neg hid]
      split <;> omega
  · rename_i hk
    rwa [if_neg hk] at ht

theorem Tally.congr (ht : M.Tally c B z v ids w)
    (hr : w'.contents.under M.target M.meter.key = w.contents.under M.target M.meter.key)
    (hh : w'.env.host = w.env.host) : M.Tally c B z v ids w' := by
  unfold Tally at ht ⊢
  split
  · rename_i hk
    rwa [if_pos hk, ← hh] at ht
  · rename_i hk
    rw [if_neg hk] at ht
    exact ht.congr hr hh

/-- A user hears of the change of the key. -/
theorem Tally.user (ht : M.Tally c B z v (id :: ids) w) (hid : id ∉ ids)
    (hu : M.meter.Only M.target id (.object M.target (.after z) (.user p))) (hr : M.meter.hears p e w.env.host h) :
    M.Tally c B z v ids (w.setHost h) := by
  by_cases hp : p = M.meter.user
  · obtain ⟨rfl, hq⟩ := hu (by rw [hp]; rfl)
    simp only [Post.object.injEq, ObjectTopic.after.injEq, true_and] at hq
    unfold Tally at ht ⊢
    rw [if_pos hq.1.symm] at ht ⊢
    rw [if_pos (List.mem_cons_self ..)] at ht
    rw [if_neg hid]
    exact (hr.1 hp).trans (Nat.add_le_add_right ht 1)
  · have ht' := ht.skip
    unfold Tally at ht' ⊢
    split
    · rename_i hk
      rw [if_pos hk] at ht'
      exact (hr.2 hp).trans ht'
    · rename_i hk
      rw [if_neg hk] at ht'
      exact ht'.mono (hr.2 hp)

/-- While an arrow from the key passes the value on, the tally so far bounds what comes. -/
theorem Tally.counted (ht : M.Tally c B z v ids w) :
    M.Counted (if M.meter.key = z then M.meter.count w.env.host else c) (insert z B) v w := by
  unfold Tally at ht
  by_cases hk : M.meter.key = z
  · rw [if_pos hk]
    exact Or.inl (Nat.le_refl _)
  · rw [if_neg hk] at ht ⊢
    refine ht.imp_right ?_
    rintro ⟨hb, hrest⟩
    exact ⟨by simp [hk, hb], hrest⟩

theorem Counted.tally (ht : M.Tally c B z v ids w)
    (hc : M.Counted (if M.meter.key = z then M.meter.count w.env.host else c) (insert z B) v w') :
    M.Tally c B z v ids w' := by
  unfold Tally at ht ⊢
  by_cases hk : M.meter.key = z
  · rw [if_pos hk] at ht hc ⊢
    exact (hc.resolve_right fun hb => hb.1 (by simp [hk])).trans ht
  · rw [if_neg hk] at hc ⊢
    refine hc.imp_right ?_
    rintro ⟨hb, hrest⟩
    exact ⟨fun hm => hb (Finset.mem_insert_of_mem hm), hrest⟩

theorem awake_insert (M : Mesh π σ) (B : Finset String) (z : String) : M.awake (insert z B) ⊆ M.awake B := fun i hi => by
  obtain ⟨hA, hB⟩ := mem_awake.1 hi
  exact mem_awake.2 ⟨hA, fun hm => hB (Finset.mem_insert_of_mem hm)⟩

/-- Only the arrows from a key go to sleep when it has become the value. -/
theorem source_of_awake {i : Arrow} (hi : i ∈ M.awake B) (hn : i ∉ M.awake (insert z B)) : i.source = z := by
  obtain ⟨hA, hB⟩ := mem_awake.1 hi
  by_contra hne
  exact hn (mem_awake.2 ⟨hA, by simp [hne, hB]⟩)

/-- The keys among `B` keep the value. -/
theorem Moved.held (h : M.Moved v before w) (hbefore : ∀ a ∈ B, (before a).same v = true) {a : String} (ha : a ∈ B) :
    (w.contents.under M.target a).same v = true := by
  rcases h a with hm | hm
  · exact hm
  · rw [hm]
    exact hbefore a ha

/-- What is kept while a key other than `B` is changed and its listeners hear of it: the sinks behind take the value. -/
theorem keeps_after {need : Nat} (hu : u.same v = true) (hbefore : ∀ a ∈ B, (before a).same v = true)
    (ih : ∀ j ∈ M.arrows, j.source = z → ∀ before c, (∀ a ∈ insert z B, (before a).same v = true) →
      Accepts H (M.reader (π := π) j).places need (M.reader (π := π) j).sink (fun u => u.same v = true)
        (M.behind (insert z B) j.target v φ (w₀.depth + 1) w₀.config before c))
    (hn : need ≤ n) :
    (M.wave B z v u before R₀ E₀ w₀).Keeps H M.meter.hears n (.after z) (.value u) (M.Heard B z v φ before c) := by
  refine ⟨fun ids w w' h hl hr hh => ?_, fun h => { h with tally := h.tally.skip }, fun h hid hq hr => ?_, ?_⟩
  · exact ⟨h.flags.ofLayout hl, fun i hi => (h.fed i hi).congr (hr _), h.moved.congr hr, h.tally.congr (hr _) hh,
      (congrArg (fun x : Value => x.same v = true) (hr z)).mpr h.held⟩
  · exact ⟨h.flags, h.fed, h.moved, h.tally.user hid hq hr, h.held⟩
  intro R E id ids w j _ hj hplace hR hread h
  obtain rfl : z = j.source := by simpa [wave, stage, reader] using hplace
  have hread' : (w.contents.under M.target j.source).same v = true :=
    (congrArg (fun x : Value => x.same v = true) hread).mpr hu
  have hheld : ∀ a ∈ insert j.source B, (w.contents.under M.target a).same v = true := fun a ha =>
    (Finset.mem_insert.1 ha).elim (fun he => he ▸ hread') (h.moved.held hbefore)
  refine ⟨M.awake (insert j.source B), fun key => key ∉ insert j.source B,
    M.Handed (insert j.source B) j.target v φ (w.contents.under M.target)
      (if M.meter.key = j.source then M.meter.count w.env.host else c),
    ⟨fun i hi => ⟨M.awake_insert _ _ hi, ?_⟩, fun key hk hm => hk (Finset.mem_insert_of_mem hm), by simp [wave], ?_, ?_⟩, ?_,
    Handed.congr, ?_, ?_⟩
  · rintro rfl
    exact (mem_awake.1 hi).2 (Finset.mem_insert_self _ _)
  · intro i hi hn key hkey
    have he : key = i.source := by simpa [wave, stage, reader] using hkey
    rw [he, source_of_awake hi hn]
    simp
  · intro i hi _ hn p hp
    have he : p = .entry M.target i.source := hp
    rw [he, source_of_awake hi hn]
    rfl
  · refine ⟨⟨h.flags, fun i hi => h.fed i (M.awake_insert _ _ hi), fun key => Or.inr rfl, h.tally.counted⟩, fun x hx => ?_⟩
    rw [← Option.some.inj hx]
    exact h.fed j hj
  · intro l hl hlp F L hJ hw
    have hacc := ih j (mem_awake.1 hj).1 rfl (w.contents.under M.target)
      (if M.meter.key = j.source then M.meter.count w.env.host else c) hheld
    exact keyExpr_told (hR j hj) hacc (by rw [hlp]; exact hread') hn hJ hw hl
  · rintro R' E' w' hold - ⟨hp, hlast⟩
    refine ⟨hp.flags, fun i hi => ?_, fun key => ?_, hp.counted.tally h.tally.skip,
      hp.moved.held hheld (Finset.mem_insert_self _ _)⟩
    · by_cases hiS : i ∈ M.awake (insert j.source B)
      · exact hp.fed i hiS
      by_cases hij : i = j
      · subst hij
        exact hlast _ rfl
      -- Another arrow from the same key, whose observer has not moved.
      have hf := h.fed i hi
      rw [hold i hi hij hiS]
      rcases hp.moved i.target with hm | hm
      · exact Or.inr hm
      · rwa [Holds, hm]
    · rcases hp.moved key with hm | hm
      · exact Or.inl hm
      · rw [hm]
        exact h.moved key

/-- What is kept while the listeners of all entries hear of a change of a key. -/
theorem keeps_entries :
    (M.wave B z v u before R₀ E₀ w₀).Keeps H M.meter.hears n .entries e fun R E _ => M.Passed B v φ before c R E := by
  refine ⟨fun ids w w' h hl hr hh => h.congr (h.flags.ofLayout hl) hr hh, fun h => h, ?_, nofun⟩
  intro R E id ids w p host h _ hq hr
  have hp : p ≠ M.meter.user := by
    rintro rfl
    have := (hq rfl).2
    simp at this
  exact ⟨h.flags, h.fed, h.moved, h.counted.mono (hr.2 hp)⟩

/-- When all listeners of the key were told, its change is counted once. -/
theorem Heard.passed (h : M.Heard B z v φ before c R E [] w) (hz : z ∉ B) : M.Passed B v φ before c R E w := by
  refine ⟨h.flags, h.fed, h.moved, ?_⟩
  have ht := h.tally
  unfold Tally at ht
  by_cases hk : M.meter.key = z
  · rw [if_pos hk] at ht
    exact Or.inr ⟨by rwa [hk], by rw [hk]; exact h.held, ht⟩
  · rwa [if_neg hk] at ht

/-- A change of a key to the value leaves what was fed as it was. -/
theorem Passed.changed (h : M.Passed B v φ before c R E w₀) (hu : u.same v = true)
    (hw : (M.wave B z v u before R E w₀).Changed w) (hz : M.meter.key = z → M.meter.count w₀.env.host ≤ c)
    (hcount : M.meter.count w.env.host ≤ M.meter.count w₀.env.host) (ids : List ListenerId) :
    M.Heard B z v φ before c R E ids w := by
  have hread : ∀ key, (w.contents.under M.target key).same v = true ∨
      w.contents.under M.target key = w₀.contents.under M.target key := by
    intro key
    by_cases hk : key = z
    · subst hk
      exact Or.inl ((congrArg (fun x : Value => x.same v = true) hw.key).mpr hu)
    · exact Or.inr (hw.others key hk)
  refine ⟨h.flags.ofLayout hw.layout, fun i hi => ?_, fun key => ?_, ?_,
    (congrArg (fun x : Value => x.same v = true) hw.key).mpr hu⟩
  · rcases hread i.target with hr | hr
    · exact Or.inr hr
    · exact (h.fed i hi).congr hr
  · rcases hread key with hr | hr
    · exact Or.inl hr
    · rw [hr]
      exact h.moved key
  · unfold Tally
    by_cases hk : M.meter.key = z
    · rw [if_pos hk]
      exact (hcount.trans (hz hk)).trans (Nat.le_add_right _ _)
    · rw [if_neg hk]
      refine h.counted.imp (hcount.trans ·) ?_
      rintro ⟨hb, hr, hc⟩
      refine ⟨hb, ?_, hcount.trans hc⟩
      exact (congrArg (fun x : Value => x.same v = true) (hw.others _ hk)).mpr hr

/-- Nobody counts what is announced before a change. -/
theorem before_keeps (M : Mesh π σ) (B : Finset String) (z : String) (v u : Value) (before : String → Value)
    (R : Arrow → Running π) (E : Multiset Piece) (w : World (Callback π) (Env π σ)) (e : Event) (c : Nat) :
    Host.Keeps M.meter.hears (M.wave B z v u before R E w).Before e fun h => M.meter.count h ≤ c := by
  rintro p h h' ⟨id, hq⟩ hc hr
  have hp : p ≠ M.meter.user := by
    rintro rfl
    have := (hq rfl).2
    simp at this
  exact (hr.2 hp).trans hc

/-- An assignment of the value to a key, whose neighbours take it. -/
theorem assign_passes (need : Nat) (hH : H.Quiet M.meter.hears) (hb : (M.wave B z v u before R E w).Begins)
    (h : M.Passed B v φ before c R E w) (hu : u.same v = true) (hbefore : ∀ a ∈ B, (before a).same v = true)
    (ih : z ∉ B → ∀ j ∈ M.arrows, j.source = z → ∀ before c, (∀ a ∈ insert z B, (before a).same v = true) →
      Accepts H (M.reader (π := π) j).places need (M.reader (π := π) j).sink (fun u => u.same v = true)
        (M.behind (insert z B) j.target v φ (w.depth + 1) w.config before c))
    (hn : need ≤ n) :
    (M.target.assign (engine H (n + 2)).reactions z u).Ends w fun _ =>
      (M.wave B z v u before R E w).Done (M.Passed B v φ before c) := by
  refine (M.wave B z v u before R E w).assign_ends (n := n) (X := M.Heard B z v φ before c)
    (Z := M.Passed B v φ before c) (K := fun h => M.meter.count h ≤ M.meter.count w.env.host) hb hH (fun hne => ?_)
    keeps_entries (fun old => M.before_keeps B z v u before R E w _ _) (Nat.le_refl _) fun _ => h
  have hne' : (w.contents.under M.target z).same v = false := by
    by_contra hs
    have hs' := Value.same_trans ((Bool.not_eq_false _).mp hs) (Value.same_symm hu)
    exact absurd (hs'.symm.trans hne) (by simp)
  have hz : z ∉ B := fun hm => by
    rw [h.moved.held hbefore hm] at hne'
    exact absurd hne' (by simp)
  refine ⟨hz, hu, keeps_after hu hbefore (ih hz) hn, fun w₁ ids hw hc => h.changed hu hw (fun hk => ?_) hc ids,
    fun _ hX => hX.passed hz⟩
  -- A change of the key to the value has not been counted yet.
  refine h.counted.resolve_right fun hb => ?_
  rw [hk, hne'] at hb
  exact absurd hb.2.1 (by simp)

/-- A key that is passed on to joins those that hold the value. -/
theorem Linked.joined {i : Arrow} (h : M.Linked B) (hs : M.Sound) (hi : i ∈ M.arrows) (hB : i.source ∈ B) :
    M.Linked (insert i.target B) := by
  have hto : ∀ a ∈ insert i.target B, M.linked i.source a := fun a ha => by
    rcases Finset.mem_insert.1 ha with rfl | ha
    · exact hs.between i hi
    · exact h _ hB a ha
  exact fun a ha b hb => hs.linked.trans (hs.linked.symm (hto a ha)) (hto b hb)

/-- An arrow between keys that hold the value may begin to write. -/
theorem Guards.writing {i : Arrow} (h : M.Guards φ B) (hs : M.Sound) (hi : i ∈ M.arrows) (hB : i.source ∈ B) :
    M.Guards (Function.update φ i.syncing true) (insert i.target B) := by
  refine ⟨fun j hj hφ => ?_, fun j hj f hf => ?_⟩
  · by_cases he : j.syncing = i.syncing
    · obtain ⟨hsource, htarget⟩ := hs.both i hi j hj he
      constructor
      · rcases hsource with he | he <;> simp [he, hB]
      · rcases htarget with he | he <;> simp [he, hB]
    · rw [Function.update_of_ne he] at hφ
      obtain ⟨hsource, htarget⟩ := h.syncing j hj hφ
      exact ⟨Finset.mem_insert_of_mem hsource, Finset.mem_insert_of_mem htarget⟩
  · have hne : f ≠ i.syncing := fun he => hs.apart i hi j hj (he ▸ hf)
    rw [Function.update_of_ne hne]
    exact h.ready j hj f hf

/-- Every arrow from a key that holds the value takes it: it is dropped for keys that hold it already, and the others become
the value and pass it on in turn. -/
theorem accepts (hs : M.Sound) (hH : H.Quiet M.meter.hears) (hm : config.maxDispatchDepth = M.limit) {i : Arrow}
    (hi : i ∈ M.arrows) (hB : i.source ∈ B) (hlinked : M.Linked B) (hd : d ≤ B.card) (hφ : M.Guards φ B)
    (before : String → Value) (c : Nat) (hbefore : ∀ a ∈ B, (before a).same v = true) :
    Accepts H (M.reader (π := π) i).places (M.need B) (M.reader (π := π) i).sink (fun u => u.same v = true)
      (M.behind B i.target v φ d config before c) := by
  -- Each key that becomes the value is among `B` from then on, and there are fewer than the limit.
  obtain ⟨k, hk⟩ : ∃ k, M.limit ≤ B.card + k := ⟨M.limit, Nat.le_add_left _ _⟩
  induction k generalizing B φ d i before c with
  | zero => exact absurd (hs.small i hi B (hlinked _ hB)) (Nat.not_lt.2 hk)
  | succ k ih =>
    have hcard := hs.small i hi B (hlinked _ hB)
    have hD : ∀ p, (M.reader (π := π) i).places p → ∃ a ∈ B, p = .entry M.target a := fun p hp => ⟨_, hB, hp⟩
    have hready : (i.ready.any fun g => !φ g) = false := by
      cases hg : i.ready with
      | none => rfl
      | some g => simp [hφ.ready i hi g hg]
    refine guarded_accepts (hs.owned i hi).1 (hs.owned i hi).2 (fun hf => ?_) hD fun _ => ⟨behind_stable hD, ?_⟩
    · rw [hready, Bool.or_false] at hf
      exact hbefore _ (hφ.syncing i hi hf).2
    rintro n F L o w u hn hu ⟨R, E, rfl, hL, hR, hS, rfl, rfl, hE, hX, -⟩ hw
    obtain ⟨m, rfl⟩ : ∃ m, n = m + 2 := ⟨n - 2, by simp only [need] at hn; omega⟩
    have hbegin : (M.wave B i.target v u before R E w).Begins :=
      ⟨hR, hw, hS, hE, M.keyed _, by simp only [wave]; omega⟩
    have hdone := assign_passes (n := m) (M.need B - 2) hH hbegin hX hu hbefore
      (fun hz j hj hsource before c hbefore => ?_) ?_
    · simp only [Sink.emit, write, assignUnder, Run.ends_bind, ends_contents, Contents.key_text]
      refine hdone.imp fun _ w' hw' => hw'.took hbegin hL (fun p hp => ?_) fun hread hp => ⟨hp, fun x hx => ?_⟩
      · obtain ⟨a, ha, rfl⟩ := hD p hp
        exact ⟨a, rfl, fun hn => hn ha⟩
      · rw [← Option.some.inj hx]
        exact Or.inl hread
    · have hcard' := Finset.card_insert_of_notMem hz
      have hacc := ih (d := w.depth + 1) hj (by rw [hsource]; exact Finset.mem_insert_self _ _) (hlinked.joined hs hi hB) (by omega)
        (hφ.writing hs hi hB) before c hbefore (by omega)
      exact hacc.mono (by simp only [need]; omega) fun _ h => h
    · omega

end

end Mesh

end LiveBindings
