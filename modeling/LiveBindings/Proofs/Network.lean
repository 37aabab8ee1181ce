import LiveBindings.Proofs.Binding
import LiveBindings.Proofs.Wave

/-!
# Keys that are fed one way

Keys of one object that are fed from expressions over its keys, where what an expression reads has a smaller rank than the key
that it feeds. A write of a key sets in motion only keys of a higher rank, so that the depth of nested dispatches never passes
the rank (`Network.accepts`), and when it is over every key of a higher rank holds the value of its expression
(`Network.Settled`).
-/

namespace LiveBindings

variable {π σ : Type}

/-- What was made elsewhere is not under the keys of an object. -/
theorem World.Adds.under {w w' : World (Callback π) (Env π σ)} (ha : w.Adds w') {o : ObjectId}
    (ho : o.index < w.layout.objects) (j : String) : w'.contents.under o j = w.contents.under o j := by
  rw [Contents.under, ha.entries o ho, Contents.under]

/-- Keys of an object, the expressions that feed them, and their ranks. -/
structure Network where
  target : ObjectId
  scope : Scope
  source : String → Expr
  rank : String → Nat
  /-- A bound on the sizes of the expressions. -/
  size : Nat
  /-- A bound on the ranks. -/
  limit : Nat

namespace Network

/-- What feeds a key: an observer that may watch the keys of a smaller rank. -/
def reader (N : Network) (k : String) : Reader π where
  source := N.source k
  scope := N.scope
  sink := keySink N.target k
  places p := ∃ j, p = .entry N.target j ∧ N.rank j < N.rank k

/-- The keys among `K` of a higher rank. -/
def above (N : Network) (K : Finset String) (k : String) : Finset String := {j ∈ K | N.rank k < N.rank j}

@[simp] theorem mem_above {N : Network} {K : Finset String} {j k : String} :
    j ∈ N.above K k ↔ j ∈ K ∧ N.rank k < N.rank j := Finset.mem_filter

/-- The keys among `K` are fed from expressions that read keys of a smaller rank. -/
structure Sound (N : Network) (K : Finset String) : Prop where
  scope : N.scope.value = .object N.target
  reads : ∀ k ∈ K, (N.source k).Reading fun j => N.rank j < N.rank k
  size : ∀ k ∈ K, (N.source k).size ≤ N.size
  rank : ∀ k ∈ K, N.rank k < N.limit

/-- The stage on which a key is written: it and the keys among `S` are free. -/
def stage (N : Network) (k : String) (S : Finset String) (before : String → Value) : Stage π where
  target := N.target
  free j := j = k ∨ j ∈ S
  becomes _ := True
  before := before
  users _ _ := True

/-- The keys among `S` hold what was handed on for them last. -/
def Fed (N : Network) (S : Finset String) (R : String → Running π) (E : Multiset Piece) (w : World (Callback π) (Env π σ)) :
    Prop :=
  E = 0 ∧ ∀ j ∈ S, (w.contents.under N.target j).same (R j).value = true

/-- So do they while `o` is what was handed on last for the key `k`. -/
def Handed (N : Network) (S : Finset String) (k : String) (R : String → Running π) (E : Multiset Piece) (o : Option Value)
    (w : World (Callback π) (Env π σ)) : Prop :=
  N.Fed S R E w ∧ ∀ u, o = some u → (w.contents.under N.target k).same u = true

/-- What is behind the sink that writes a key. -/
abbrev behind (N : Network) (K : Finset String) (k : String) (depth : Nat) (config : Config) (before : String → Value) :
    Behind π σ Value :=
  Behind.staged N.reader (N.above K k) (N.stage k (N.above K k) before) depth config (N.Handed (N.above K k) k)

/-- How many nested calls the write of a key takes. -/
def need (N : Network) (k : String) : Nat := (N.limit - N.rank k) * (2 * N.size + 2)

section

variable {N : Network} {K S : Finset String} {H : Host π σ} {r : π → Event → σ → σ → Prop} {n : Nat} {k : String}
  {before : String → Value} {config : Config} {d : Nat}

theorem keyed (N : Network) (S : Finset String) : Family.Keyed (N.reader (π := π)) S N.target :=
  fun _ _ _ ⟨j, hp, _⟩ => ⟨j, hp⟩

theorem Handed.congr {R R' : String → Running π} {E : Multiset Piece} {o : Option Value} {w : World (Callback π) (Env π σ)}
    (hR : ∀ j ∈ S, R' j = R j) (h : N.Handed S k R E o w) : N.Handed S k R' E o w :=
  ⟨⟨h.1.1, fun j hj => by rw [hR j hj]; exact h.1.2 j hj⟩, h.2⟩

/-- A key of a higher rank takes fewer nested calls. -/
theorem need_lt {j : String} (hk : N.rank k < N.limit) (h : N.rank k < N.rank j) :
    N.need j + 2 * N.size + 2 ≤ N.need k := by
  have hle : N.limit - N.rank j + 1 ≤ N.limit - N.rank k := by omega
  have := Nat.mul_le_mul_right (2 * N.size + 2) hle
  rw [Nat.add_mul, Nat.one_mul] at this
  simp only [need]
  omega

/-- A source of the network watches only keys of a smaller rank. -/
theorem Sound.covered (h : N.Sound K) (hk : k ∈ K) : (N.source k).Covered (N.reader (π := π) k).places N.scope :=
  (h.reads k hk).covered h.scope fun j hj => ⟨j, rfl, hj⟩

/-- What a key that is changed does to the keys among `S`, when the sinks of these are as they should be. -/
theorem keeps {W : Wave π σ String} (hs : N.Sound K) (hr : W.readers = N.reader) (hS : W.among = S) (hSK : S ⊆ K)
    (hup : ∀ j ∈ S, ∀ i ∈ K, N.rank j < N.rank i → i ∈ S) (hB : W.stage = N.stage W.key S before) (hk : W.key ∉ S)
    (ih : ∀ j ∈ S, N.rank W.key < N.rank j → ∀ before, Accepts H (N.reader (π := π) j).places (N.need j)
      (N.reader (π := π) j).sink (fun _ => True) (N.behind (σ := σ) K j (W.start.depth + 1) W.start.config before))
    (hn : ∀ j ∈ S, N.rank W.key < N.rank j → N.need j + 2 * N.size ≤ n) (topic : ObjectTopic) (e : Event) :
    W.Keeps H r n topic e fun R E _ => N.Fed S R E := by
  have hT : W.stage.target = N.target := by rw [hB]; rfl
  refine ⟨fun _ _ _ hX _ hc _ => ⟨hX.1, fun j hj => ?_⟩, fun hX => hX, fun hX _ _ _ => hX, ?_⟩
  · rw [← hT, hc, hT]
    exact hX.2 j hj
  intro R E id ids w j _ hj hplace hR _ hX
  rw [hS] at hj hR
  rw [hr] at hplace hR
  obtain ⟨_, hp, hrank⟩ := hplace
  obtain ⟨-, rfl⟩ : W.stage.target = N.target ∧ W.key = _ := by simpa using hp
  have habove : ∀ i ∈ N.above K j, i ∈ S := fun i hi => hup j hj i (mem_above.1 hi).1 (mem_above.1 hi).2
  have hrest : ∀ i ∈ S, i ∉ N.above K j → N.rank i ≤ N.rank j := fun i hi hn =>
    Nat.le_of_not_lt fun hlt => hn (mem_above.2 ⟨hSK hi, hlt⟩)
  refine ⟨N.above K j, fun i => i = j ∨ i ∈ N.above K j, N.Handed (N.above K j) j, ⟨fun i hi => ?_, fun i hi => ?_, ?_, ?_, ?_⟩, ?_, ?_, ?_, ?_⟩
  · rw [hS]
    exact ⟨habove i hi, fun h => by simp [h] at hi⟩
  · rw [hB]
    rcases hi with rfl | hi
    · exact Or.inr hj
    · exact Or.inr (habove i hi)
  · rintro (rfl | hmem)
    · exact hk hj
    · exact hk (habove _ hmem)
  · -- An observer of a rank no higher than this one watches none of the keys that are still free.
    intro i hi hn key hkey hfree
    rw [hS] at hi
    rw [hr] at hkey
    obtain ⟨_, hp, hlt⟩ := hkey
    obtain ⟨-, rfl⟩ : W.stage.target = N.target ∧ key = _ := by simpa using hp
    have := hrest i hi hn
    rcases hfree with rfl | hmem
    · omega
    · have := (mem_above.1 hmem).2
      omega
  · rintro i hi - hn p hp
    rw [hS] at hi
    rw [hr] at hp ⊢
    obtain ⟨key, rfl, hlt⟩ := hp
    exact ⟨key, rfl, Nat.lt_of_lt_of_le hlt (hrest i hi hn)⟩
  · refine ⟨⟨hX.1, fun i hi => hX.2 i (habove i hi)⟩, fun u hu => ?_⟩
    rw [← Option.some.inj hu]
    exact hX.2 j hj
  · exact Handed.congr
  · intro l hl _ F L hJ hw
    have hacc := ih j hj hrank (w.contents.under N.target)
    have hle : N.need j + 2 * (N.source j).size ≤ n := by
      have := hs.size j (hSK hj)
      have := hn j hj hrank
      omega
    rw [hr, hB] at hJ ⊢
    exact (hR j hj).tell (hs.reads j (hSK hj)).scalar (hs.covered (hSK hj)) rfl hl hacc (fun _ _ => trivial) hle hJ hw
  · rintro R' E' w' hold hkept ⟨⟨hE', h'⟩, ho'⟩
    refine ⟨hE', fun i hi => ?_⟩
    by_cases hij : i = j
    · subst hij
      exact ho' _ rfl
    by_cases hmem : i ∈ N.above K j
    · exact h' i hmem
    · rw [hold i (hS ▸ hi) hij hmem, ← hT, hkept i fun h => h.elim hij hmem, hT]
      exact hX.2 i hi

/-- A change of a key that is none of `S` leaves those as they were. -/
theorem Fed.changed {W : Wave π σ String} {w : World (Callback π) (Env π σ)} (h : N.Fed S W.running W.extra W.start)
    (hT : W.stage.target = N.target) (hk : W.key ∉ S) (hw : W.Changed w) : N.Fed S W.running W.extra w := by
  refine ⟨h.1, fun j hj => ?_⟩
  rw [← hT, hw.others j fun he => hk (he ▸ hj), hT]
  exact h.2 j hj

/-- The sink that writes a key takes every value, at a depth of nested dispatches that the rank allows. -/
theorem accepts (hs : N.Sound K) (hH : H.Quiet r) (hlimit : config.maxDispatchDepth = N.limit) (hk : N.rank k < N.limit)
    (hd : d ≤ N.rank k) (before : String → Value) :
    Accepts H (N.reader (π := π) k).places (N.need k) (N.reader (π := π) k).sink (fun _ => True)
      (N.behind (σ := σ) K k d config before) := by
  -- The induction is on the number of ranks above that of the key.
  obtain ⟨b, hb⟩ : ∃ b, N.limit - N.rank k ≤ b := ⟨_, Nat.le_refl _⟩
  induction b generalizing k d before with
  | zero => omega
  | succ b ih =>
    have hD : ∀ p, (N.reader (π := π) k).places p →
        ∃ key, p = .entry N.target key ∧ ¬(N.stage (π := π) k (N.above K k) before).free key := by
      rintro _ ⟨j, rfl, hj⟩
      refine ⟨j, rfl, ?_⟩
      rintro (rfl | hmem)
      · omega
      · have := (mem_above.1 hmem).2
        omega
    refine ⟨.staged hD fun ⟨⟨hE, h⟩, ho⟩ _ t => ⟨⟨hE, fun j hj => ?_⟩, fun u hu => ?_⟩, ?_⟩
    · rw [t.contents]
      exact h j hj
    · rw [t.contents]
      exact ho u hu
    rintro n F L o w v hn - ⟨R, E, rfl, hL, hR, hB, rfl, rfl, hE, hX, -⟩ hw
    have hneed : 2 ≤ N.need k := by
      have := Nat.mul_le_mul_right (2 * N.size + 2) (show 1 ≤ N.limit - N.rank k by omega)
      simp only [need]
      omega
    obtain ⟨m, rfl⟩ : ∃ m, n = m + 2 := ⟨n - 2, by omega⟩
    let W : Wave π σ String :=
      { readers := N.reader, among := N.above K k, stage := N.stage k (N.above K k) before, key := k, value := v, running := R,
        extra := E, start := w }
    have hbegin : W.Begins := ⟨hR, hw, hB, hE, N.keyed _, by simp only [W]; omega⟩
    have hkS : k ∉ N.above K k := by simp
    have hkeeps := keeps (W := W) (r := r) (n := m) hs rfl rfl (fun j hj => (mem_above.1 hj).1)
      (fun j hj i hi hlt => mem_above.2 ⟨hi, (mem_above.1 hj).2.trans hlt⟩) rfl hkS
      (fun j hj hlt before => by
        have hlt' : N.rank k < N.rank j := hlt
        exact ih (hs.rank j (mem_above.1 hj).1) (Nat.succ_le_of_lt (Nat.lt_of_le_of_lt hd hlt')) before (by omega))
      (fun j _ hlt => by have := need_lt hk hlt; omega)
    have hdone := W.assign_ends (n := m) (X := fun R E _ => N.Fed (N.above K k) R E) (Z := N.Fed (N.above K k))
      (K := fun _ => True) hbegin hH
      (fun _ => ⟨Or.inl rfl, trivial, hkeeps _ _, fun _ _ hw _ => hX.changed (W := W) rfl hkS hw, fun _ h => h⟩)
      (hkeeps _ _) (fun _ _ _ _ _ _ _ => trivial) trivial fun _ => hX
    simp only [reader, keySink, Sink.emit, write, assignUnder, Run.ends_bind, ends_contents, Contents.key_text]
    refine hdone.imp fun _ w' hw' => ?_
    exact hw'.took hbegin hL hD fun hread hz => ⟨hz, fun u hu => by rw [← Option.some.inj hu]; exact hread⟩

/-! ## Networks at rest -/

/-- The stage on which every key is free. -/
def whole (N : Network) : Stage π where
  target := N.target
  free _ := True
  becomes _ := True
  before _ := .undefined
  users _ _ := True

/-- Between two operations the keys among `K` hold the values of the expressions that feed them. -/
structure Settled (N : Network) (K : Finset String) (R : String → Running π) (w : World (Callback π) (Env π σ)) : Prop where
  runs : Family.Run N.reader K R w.layout
  fits : w.Fits (Family.owned K R)
  fed : N.Fed K R 0 w
  current : ∀ l, Family.Has K R l → l.Current w.contents
  stage : N.whole.Holds (Family.owned K R) w
  depth : w.depth = 0
  config : w.config.maxDispatchDepth = N.limit
  limit : 0 < N.limit

variable {R : String → Running π} {w : World (Callback π) (Env π σ)} {v : Value}

/-- Every key that is fed holds the value of its expression. -/
theorem Settled.denote (h : N.Settled K R w) (hs : N.Sound K) (hk : k ∈ K) :
    (w.contents.under N.target k).same ((N.source k).denote w.contents N.scope) = true :=
  Value.same_trans (h.fed.2 k hk) ((h.runs k hk).denote (hs.reads k hk).scalar (hs.reads k hk).scalarKeys fun l hl =>
    h.current l ⟨k, hk, hl⟩)

/-- Where observers that are started or set in motion leave a network that was at rest. -/
theorem Settled.renewed {K' : Finset String} {R' : String → Running π} {w' : World (Callback π) (Env π σ)}
    (h : N.Settled K R w) (hR : Family.Run N.reader K' R' w'.layout) (hfed : N.Fed K' R' 0 w')
    (hl : Reshapes (Family.owned K R) (Family.owned K' R') w.layout w'.layout) (hd : w'.depth = w.depth)
    (hc : w'.config = w.config)
    (hleaves : ∀ l, Family.Has K' R' l → l.Current w'.contents ∨
      (Family.Has K R l ∧ l.place.read w'.contents = l.place.read w.contents)) : N.Settled K' R' w' where
  runs := hR
  fits := ⟨hl.has h.fits.has, hl.nodup h.fits.nodup, hl.tidy h.fits.tidy⟩
  fed := hfed
  current l hl := (hleaves l hl).elim id fun ⟨hold, hr⟩ =>
    (congrArg (fun u => l.value.same u = true) hr).mpr (h.current l hold)
  stage := h.stage.reshape (E := 0) (by simpa using hl) (by simp : ∀ id, Piece.listener id ∉ (0 : Multiset Piece))
    (fun hid hq => by
      obtain ⟨i, hi, l, hl, -, rfl, key, hkey, -⟩ := hR.posted (N.keyed K') hid hq
      exact ⟨key, l.sink, by rw [Leaf.post, hkey]; rfl⟩)
    fun _ => Or.inl ⟨trivial, trivial⟩
  depth := hd.trans h.depth
  config := hc ▸ h.config
  limit := h.limit

/-- Containers that are made elsewhere change nothing. -/
theorem Settled.adds {w' : World (Callback π) (Env π σ)} (h : N.Settled K R w) (ha : w.Adds w') : N.Settled K R w' := by
  have hfound : N.target.index < w.layout.objects := h.stage.found
  have hread := ha.under hfound
  have hsame : ∀ p : Piece, w.layout.Same w'.layout p := by
    intro p
    cases p <;> simp only [Layout.Same, ha.cells]
    exact fun q => ha.posted
  have hplace : ∀ i ∈ K, ∀ l ∈ (R i).leaves, ∃ j, l.place = .entry N.target j := fun i hi l hl =>
    N.keyed K i hi _ ((h.runs i hi).placed l hl).place
  refine ⟨fun i hi => (h.runs i hi).same (fun p _ => hsame p) fun l hl _ => ?_, ⟨fun p hp => ?_, h.fits.nodup, ha.tidy h.fits.tidy⟩,
    ⟨rfl, fun j hj => by rw [hread]; exact h.fed.2 j hj⟩, ?_, ?_, ha.depth.trans h.depth, ha.config ▸ h.config, h.limit⟩
  · obtain ⟨j, hj⟩ := hplace i hi l hl
    rw [Leaf.post, hj]
    exact hfound
  · have := h.fits.has p hp
    cases p <;> simpa only [Layout.Has, ha.cells, ha.nextListener] using this
  · rintro l ⟨i, hi, hl⟩
    obtain ⟨j, hj⟩ := hplace i hi l hl
    have hc := h.current l ⟨i, hi, hl⟩
    rw [Leaf.Current, hj, Place.read_entry] at hc ⊢
    rwa [hread]
  · exact ⟨Nat.lt_of_lt_of_le hfound ha.objects, ha.cells ▸ h.stage.orphans, fun _ => Or.inl ⟨trivial, trivial⟩,
      fun hq => h.stage.users (ha.posted.1 hq), fun hq => h.stage.quiet (ha.posted.1 hq),
      fun hq => h.stage.closed (ha.posted.1 hq)⟩

/-- Nothing is fed yet. -/
theorem Settled.empty (N : Network) (ht : w.layout.Tidy) (ho : w.layout.cells.orphans = [])
    (hu : ∀ {id q}, w.layout.Posted id q → q.IsUser) (hf : N.target.index < w.layout.objects) (hd : w.depth = 0)
    (hc : w.config.maxDispatchDepth = N.limit) (hl : 0 < N.limit) (R : String → Running π) : N.Settled ∅ R w where
  runs := nofun
  fits := ⟨by simp [Family.owned], by simp [Family.owned], ht⟩
  fed := ⟨rfl, nofun⟩
  current := by rintro l ⟨i, hi, -⟩; cases hi
  stage := ⟨hf, ho, fun _ => Or.inl ⟨trivial, trivial⟩, fun _ _ => trivial, fun hq _ => hu hq, fun hq _ => Or.inl (hu hq)⟩
  depth := hd
  config := hc
  limit := hl

/-- The same network with other expressions for keys that are not fed. -/
theorem Settled.withSource (h : N.Settled K R w) {source : String → Expr} (hsource : ∀ k ∈ K, source k = N.source k) :
    ({ N with source } : Network).Settled K R w := by
  have hreader : ∀ k ∈ K, Runs (N.reader (π := π) k).places w.layout (source k) N.scope (keySink N.target k) (R k) := by
    intro k hk
    rw [hsource k hk]
    exact h.runs k hk
  obtain ⟨-, h₂, h₃, h₄, h₅, h₆, h₇, h₈⟩ := h
  exact ⟨hreader, h₂, h₃, h₄, h₅, h₆, h₇, h₈⟩

/-- A change of a key that nothing feeds, as it goes through a network at rest. -/
def wave (N : Network) (K : Finset String) (R : String → Running π) (w : World (Callback π) (Env π σ)) (u : String)
    (v : Value) : Wave π σ String where
  readers := N.reader
  among := K
  stage := N.stage u K (w.contents.under N.target)
  key := u
  value := v
  running := R
  extra := 0
  start := w

section

variable {u : String}

theorem Settled.begins (h : N.Settled K R w) (u : String) (v : Value) : (N.wave K R w u v).Begins where
  runs := h.runs
  fits := by simpa [wave] using h.fits
  stage := h.stage.narrow (N := N.reader) h.runs (N.keyed K) K _ (fun _ _ => trivial)
    fun i hi hn => absurd hi hn
  plain := by simp [wave]
  keyed := N.keyed K
  depth := by
    have h₁ := h.depth
    have h₂ := h.config
    have h₃ := h.limit
    simp only [wave]
    omega

/-- What a change of a key that nothing feeds leaves behind. -/
def Settled.After (N : Network) (K : Finset String) (w : World (Callback π) (Env π σ)) (u : String) (v : Value)
    (w' : World (Callback π) (Env π σ)) : Prop :=
  (∃ R, N.Settled K R w') ∧ (w'.contents.under N.target u).same v = true ∧
    ∀ j, j ≠ u → j ∉ K → w'.contents.under N.target j = w.contents.under N.target j

theorem Settled.done (h : N.Settled K R w) {w' : World (Callback π) (Env π σ)}
    (hw' : (N.wave K R w u v).Done (N.Fed K) w') : Settled.After N K w u v w' := by
  obtain ⟨R', E, hd, hread, hE, hfed⟩ := hw'
  subst hE
  refine ⟨⟨R', h.renewed hd.runs ⟨rfl, hfed⟩ (by simpa [wave] using hd.layout) hd.depth hd.config fun l hl => ?_⟩, hread,
    fun j hj hK => ?_⟩
  · exact (hd.leaves l hl).resolve_right id
  · refine (hd.stage.kept j).resolve_left ?_
    rintro ⟨hf, _⟩
    exact hf.elim hj hK

variable (hs : N.Sound K) (hH : H.Quiet r) (hn : N.limit * (2 * N.size + 2) ≤ n) (h : N.Settled K R w) (hu : u ∉ K)
include hs hH hn h hu

theorem Settled.keeps (v : Value) (topic : ObjectTopic) (e : Event) :
    (N.wave K R w u v).Keeps H r n topic e fun R E _ => N.Fed K R E := by
  refine Network.keeps hs rfl rfl (fun _ hj => hj) (fun _ _ _ hi _ => hi) rfl hu (fun j hj hlt before => ?_)
    (fun j hj hlt => ?_) topic e
  · refine accepts hs hH h.config (hs.rank j hj) ?_ before
    have : (N.wave K R w u v).start.depth = 0 := h.depth
    omega
  · have hlt' : N.rank u < N.rank j := hlt
    have h₁ := need_lt (Nat.lt_trans hlt' (hs.rank j hj)) hlt'
    have h₂ : N.need u ≤ N.limit * (2 * N.size + 2) := Nat.mul_le_mul_right _ (Nat.sub_le _ _)
    omega

/-- The program sets a key that nothing feeds. -/
theorem Settled.assign (v : Value) :
    (N.target.assign (engine H (n + 2)).reactions u v).Ends w fun _ => Settled.After N K w u v := by
  have hdone := (N.wave K R w u v).assign_ends (n := n) (X := fun R E _ => N.Fed K R E) (Z := N.Fed K) (K := fun _ => True)
    (h.begins u v) hH
    (fun _ => ⟨Or.inl rfl, trivial, h.keeps hs hH hn hu v _ _, fun _ _ hw _ => Fed.changed h.fed rfl hu hw, fun _ h => h⟩)
    (h.keeps hs hH hn hu v _ _) (fun _ _ _ _ _ _ _ => trivial) trivial fun _ => h.fed
  exact hdone.imp fun _ w' => h.done

/-- The program deletes a key that nothing feeds. -/
theorem Settled.delete :
    (N.target.delete (engine H (n + 2)).reactions u).Ends w fun _ => Settled.After N K w u .undefined := by
  refine ObjectId.delete_ends (fun hnone => ⟨⟨R, h⟩, ?_, fun _ _ _ => rfl⟩) fun old _ => ?_
  · rw [Contents.under, hnone]
    rfl
  have hheard : Host.Keeps r (N.wave K R w u .undefined).Before (.value old) fun _ => True := fun _ _ _ => trivial
  have hdone := (N.wave K R w u .undefined).change_ends (n := n) (f := Fields.erase u) (X := fun R E _ => N.Fed K R E)
    (Z := N.Fed K) (h.begins u .undefined) hH (Or.inl rfl) trivial (fun es => by simp [wave])
    (fun es name hn => Fields.get?_erase_of_ne hn es) (h.keeps hs hH hn hu .undefined _ _)
    (h.keeps hs hH hn hu .undefined _ _) hheard trivial (fun _ _ hw _ => Fed.changed h.fed rfl hu hw)
    fun _ h => h
  exact hdone.imp fun _ w' => h.done

end

/-- The expression of one more key is started. -/
theorem Settled.start (h : N.Settled K R w) (hs : N.Sound (insert k K)) (hH : H.Quiet r) (hk : k ∉ K)
    (hn : N.limit * (2 * N.size + 2) + 2 * N.size + 1 ≤ n) :
    (bindPlace (engine H n) .assign .value (.literal (.text k)) (.observe (N.source k) N.scope) N.scope).Ends w fun _ w' =>
      (∃ R', N.Settled (insert k K) R' w') ∧
        ∀ j, j ∉ insert k K → w'.contents.under N.target j = w.contents.under N.target j := by
  have hkK : k ∈ insert k K := Finset.mem_insert_self k K
  have hsub : N.above K k ⊆ K := Finset.filter_subset _ _
  have hsK : N.Sound K := ⟨hs.scope, fun j hj => hs.reads j (Finset.mem_insert_of_mem hj),
    fun j hj => hs.size j (Finset.mem_insert_of_mem hj), fun j hj => hs.rank j (Finset.mem_insert_of_mem hj)⟩
  have hrank := hs.rank k hkK
  have hsize := hs.size k hkK
  have hacc := accepts (π := π) (K := K) (d := 0) hsK hH h.config hrank (Nat.zero_le _)
    (w.contents.under N.target)
  have hneed : 2 ≤ N.need k := by
    have := Nat.mul_le_mul_right (2 * N.size + 2) (show 1 ≤ N.limit - N.rank k by omega)
    simp only [need]
    omega
  have hle : N.need k ≤ N.limit * (2 * N.size + 2) := Nat.mul_le_mul_right _ (Nat.sub_le _ _)
  have hfeeds : Source.Feeds H (N.reader (π := π) k).places (.observe (N.source k) N.scope) N.target k
      (N.behind K k 0 w.config (w.contents.under N.target)) (N.need k + 2 * (N.source k).size) (N.source k).size
      fun K' R => Runs (N.reader (π := π) k).places K' (N.source k) N.scope (keySink N.target k) R :=
    ⟨hacc.stable, Runs.stopping _ _ _, fun hn hJ hw =>
      (hs.reads k hkK).scalar.starts (hs.covered hkK) hacc (fun _ _ => trivial) hn hJ hw⟩
  obtain ⟨L, hL⟩ := Family.exists_leaves (N.above K k) R
  have hB : (N.stage k (N.above K k) (w.contents.under N.target)).Holds (Family.owned (N.above K k) R) w :=
    h.stage.narrow (N := N.reader) h.runs (N.keyed K) (N.above K k) (fun j => j = k ∨ j ∈ N.above K k) (fun _ _ => trivial) (by
      rintro i hi hni key ⟨_, hp, hlt⟩ hfree
      obtain ⟨-, rfl⟩ : N.whole.target = N.target ∧ key = _ := by simpa using hp
      have hle : ¬N.rank k < N.rank i := fun hlt => hni (mem_above.2 ⟨hi, hlt⟩)
      rcases hfree with rfl | hmem
      · omega
      · have := (mem_above.1 hmem).2
        omega)
  have hJ : N.behind K k 0 w.config (w.contents.under N.target) (Family.owned (N.above K k) R) L none w :=
    ⟨R, 0, by simp, hL, h.runs.subset hsub, hB, h.depth, rfl, by simp, ⟨rfl, fun j hj => h.fed.2 j (hsub hj)⟩, nofun⟩
  have hw : w.Fits (Family.owned (N.above K k) R) := h.fits.of_le (Finset.sum_le_sum_of_subset hsub)
  refine (bindPlace_started hfeeds hs.scope (by omega) (by omega) hJ hw).imp ?_
  rintro _ w' ⟨Rk, F', L', hRk, hJ', hm, hr⟩
  have hjoin := Family.joined (N := N.reader) (E := 0) (N.above K k) hk hsub h.runs (by simpa using h.fits) hL hRk hJ'
    (by simpa using hm) hr (fun hR => Stage.Along.congr (Y := N.Handed (N.above K k) k) Handed.congr hR) ?_
  · obtain ⟨R', E', hR', hold, ⟨hB', hd', hc', -, ⟨hE', hfed⟩, ho⟩, hm', hleaves⟩ := hjoin
    subst hE'
    simp only [add_zero] at hm'
    have hkept : ∀ j, j ≠ k → j ∉ N.above K k → w'.contents.under N.target j = w.contents.under N.target j :=
      fun j hj hmem => (hB'.kept j).resolve_left fun ⟨hf, _⟩ => hf.elim hj hmem
    refine ⟨⟨R', h.renewed hR' ⟨rfl, fun j hj => ?_⟩ hm'.layout hm'.depth hm'.config hleaves⟩, fun j hj => ?_⟩
    · rcases Finset.mem_insert.1 hj with rfl | hj
      · exact ho _ rfl
      by_cases hmem : j ∈ N.above K k
      · exact hfed j hmem
      · rw [hold j hj hmem, hkept j (fun he => hk (he ▸ hj)) hmem]
        exact h.fed.2 j hj
    · rw [Finset.mem_insert, not_or] at hj
      exact hkept j hj.1 fun hmem => hj.2 (hsub hmem)
  · rintro i hi hni _ ⟨key, rfl, hlt⟩
    exact ⟨key, rfl, Nat.lt_of_lt_of_le hlt (Nat.le_of_not_lt fun hlt => hni (mem_above.2 ⟨hi, hlt⟩))⟩

end

end Network

end LiveBindings
