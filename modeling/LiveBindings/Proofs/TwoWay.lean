import LiveBindings.Proofs.Mesh
import LiveBindings.Proofs.OneWay
import Mathlib.Logic.Relation

/-!
# Two-way bindings keep keys equal

After bindings of keys of an object have been defined both ways, in any order and whatever graph they form, the keys that are
connected hold the same value, and they do so again after every key that the program sets or deletes
(`BindingSet.two_way_equal`). Between two operations a mesh is settled: no arrow is writing, and the keys at the ends of every
arrow hold the same. An operation sends one value through the mesh, and a definition adds two arrows to it, one after the other.
-/

namespace LiveBindings

variable {π σ : Type}

namespace Mesh

/-- The stage on which every key is free. -/
def whole (M : Mesh π σ) : Stage π where
  target := M.target
  free _ := True
  becomes _ := True
  before _ := .undefined
  users := M.meter.Only M.target

/-- The flags of a mesh as pieces. -/
abbrev flagPieces (M : Mesh π σ) : Multiset Piece := M.flags.val.map .flag

/-- Between two operations the observers of the arrows are up to date, and the keys at the ends of every arrow hold the
same. -/
structure Settled (M : Mesh π σ) (φ : Ref .flag → Bool) (R : Arrow → Running π) (w : World (Callback π) (Env π σ)) : Prop where
  runs : Family.Run M.reader M.arrows R w.layout
  fits : w.Fits (Family.owned M.arrows R + M.flagPieces)
  flags : ∀ f ∈ M.flags, w.layout.flagIs f (φ f)
  even : ∀ i ∈ M.arrows, (w.contents.under M.target i.target).same (w.contents.under M.target i.source) = true
  current : ∀ l, Family.Has M.arrows R l → l.Current w.contents
  stage : M.whole.Holds (Family.owned M.arrows R) w
  depth : w.depth = 0
  config : w.config.maxDispatchDepth = M.limit
  limit : 0 < M.limit

/-- Every arrow has another in the opposite direction, unless its source holds the value. -/
def Paired (M : Mesh π σ) (v : Value) (w : World (Callback π) (Env π σ)) : Prop :=
  ∀ i ∈ M.arrows, (w.contents.under M.target i.source).same v = false → ∃ j ∈ M.arrows, j.source = i.target ∧ j.target = i.source

/-- One more arrow. -/
abbrev add (M : Mesh π σ) (j : Arrow) : Mesh π σ := { M with arrows := insert j M.arrows }

/-- One more flag. -/
abbrev addFlag (M : Mesh π σ) (f : Ref .flag) : Mesh π σ := { M with flags := insert f M.flags }

section

variable {M : Mesh π σ} {H : Host π σ} {B : Finset String} {z : String} {v : Value} {φ : Ref .flag → Bool} {n c : Nat}
  {R R' : Arrow → Running π} {w w' : World (Callback π) (Env π σ)} {i j : Arrow} {f : Ref .flag}

@[simp] theorem awake_empty (M : Mesh π σ) : M.awake ∅ = M.arrows := by simp [awake]

/-- An observer that is up to date has the value of its key. -/
theorem value_same (hs : M.scope.value = .object M.target)
    (hR : Runs (M.reader (π := π) i).places w.layout (M.reader (π := π) i).source M.scope (M.reader (π := π) i).sink (R i))
    (hl : ∀ l ∈ (R i).leaves, l.Current w.contents) : (R i).value.same (w.contents.under M.target i.source) = true := by
  have hx : (keyExpr i.source).Reading fun _ => True := .read trivial
  have := hR.denote hx.scalar hx.scalarKeys hl
  simpa [reader, Expr.denote, hs, Contents.property, Contents.under] using this

/-- After a value was passed on, the keys at the ends of an arrow that had the same value have the same again. -/
theorem Paired.even (hp : M.Paired v w)
    (hvalue : ∀ i ∈ M.arrows, (R i).value.same (w'.contents.under M.target i.source) = true)
    (hfed : ∀ i ∈ M.arrows, (w.contents.under M.target i.source).same v = false → M.Holds w' i.target (R i).value v)
    (hmoved : M.Moved v (w.contents.under M.target) w')
    (heven : ∀ i ∈ M.arrows, (w.contents.under M.target i.target).same (w.contents.under M.target i.source) = true) :
    ∀ i ∈ M.arrows, (w'.contents.under M.target i.target).same (w'.contents.under M.target i.source) = true := by
  have hheld : ∀ a, (w.contents.under M.target a).same v = true → (w'.contents.under M.target a).same v = true := by
    intro a ha
    rcases hmoved a with hm | hm
    · exact hm
    · rwa [hm]
  -- A key that does not follow its arrow has become the value.
  have hor : ∀ i ∈ M.arrows, (w'.contents.under M.target i.target).same (w'.contents.under M.target i.source) = true ∨
      (w'.contents.under M.target i.target).same v = true := by
    intro i hi
    cases hsource : (w.contents.under M.target i.source).same v with
    | true => exact Or.inr (hheld _ (Value.same_trans (heven i hi) hsource))
    | false => exact (hfed i hi hsource).imp_left fun h => Value.same_trans h (hvalue i hi)
  intro i hi
  refine (hor i hi).elim id fun ht => Value.same_trans ht (Value.same_symm ?_)
  cases hsource : (w.contents.under M.target i.source).same v with
  | true => exact hheld _ hsource
  | false =>
    obtain ⟨j, hj, hjs, hjt⟩ := hp i hi hsource
    have := hor j hj
    rw [hjs, hjt] at this
    exact this.elim (fun h => Value.same_trans h ht) id

namespace Settled

variable (h : M.Settled φ R w)
include h

theorem stageFor (B : Finset String) (v : Value) :
    (M.stage B v (w.contents.under M.target)).Holds (Family.owned (M.awake B) R) w := by
  have hB := h.stage.narrow (N := M.reader) h.runs (M.keyed _) (M.awake B) (fun key => key ∉ B) (fun _ _ => trivial) (by
    rintro i hi hn key hp
    obtain ⟨-, rfl⟩ : M.target = M.target ∧ key = i.source := by simpa [reader, whole] using hp
    simpa [hi] using hn)
  exact ⟨hB.found, hB.orphans, fun _ => Or.inr rfl, hB.users, hB.quiet, hB.closed⟩

/-- No value has been passed on yet. -/
theorem passed (hs : M.scope.value = .object M.target) (B : Finset String) (v : Value) :
    M.Passed B v φ (w.contents.under M.target) (M.meter.count w.env.host) R M.flagPieces w where
  flags := ⟨rfl, h.flags⟩
  fed i hi := by
    have hi := (mem_awake.1 hi).1
    exact Or.inl (Value.same_trans (h.even i hi) (Value.same_symm (value_same hs (h.runs i hi) fun l hl =>
      h.current l ⟨i, hi, hl⟩)))
  moved _ := Or.inr rfl
  counted := Or.inl (Nat.le_refl _)

/-- Where observers that are started or set in motion leave a mesh that was settled. -/
theorem renewed {A : Finset Arrow} (hR : Family.Run M.reader A R' w'.layout) (hflags : ∀ f ∈ M.flags, w'.layout.flagIs f (φ f))
    (heven : ∀ i ∈ A, (w'.contents.under M.target i.target).same (w'.contents.under M.target i.source) = true)
    (hl : Reshapes (Family.owned M.arrows R + M.flagPieces) (Family.owned A R' + M.flagPieces) w.layout w'.layout)
    (hd : w'.depth = w.depth) (hc : w'.config = w.config) (hcurrent : ∀ l, Family.Has A R' l → l.Current w'.contents) :
    ({ M with arrows := A } : Mesh π σ).Settled φ R' w' where
  runs := hR
  fits := ⟨hl.has h.fits.has, hl.nodup h.fits.nodup, hl.tidy h.fits.tidy⟩
  flags := hflags
  even := heven
  current := hcurrent
  stage := h.stage.reshape hl (by simp)
    (fun hid hq => by
      obtain ⟨i, hi, l, hl, -, rfl, key, hkey, -⟩ := hR.posted (M.keyed A) hid hq
      exact ⟨key, l.sink, by rw [Leaf.post, hkey]; rfl⟩)
    fun _ => Or.inl ⟨trivial, trivial⟩
  depth := hd.trans h.depth
  config := hc ▸ h.config
  limit := h.limit

/-! ### Changes of a key -/

/-- The change of a key to a value begins. -/
theorem begins (z : String) (v : Value) : (M.wave ∅ z v v (w.contents.under M.target) R M.flagPieces w).Begins where
  runs := by simpa [wave] using h.runs
  fits := by simpa [wave] using h.fits
  stage := h.stageFor ∅ v
  plain := by simp [wave]
  keyed := M.keyed _
  depth := by
    have h₁ := h.depth
    have h₂ := h.config
    have h₃ := h.limit
    simp only [wave]
    omega

end Settled

/-- What a change of a key by the program leaves behind. -/
def After (M : Mesh π σ) (φ : Ref .flag → Bool) (w : World (Callback π) (Env π σ)) (z : String) (v : Value)
    (w' : World (Callback π) (Env π σ)) : Prop :=
  (∃ R, M.Settled φ R w') ∧ (w'.contents.under M.target z).same v = true ∧
    M.meter.count w'.env.host ≤ M.meter.count w.env.host + 1

theorem Settled.done (h : M.Settled φ R w) (hs : M.Sound) (hp : M.Paired v w)
    (hw' : (M.wave ∅ z v v (w.contents.under M.target) R M.flagPieces w).Done
      (M.Passed ∅ v φ (w.contents.under M.target) (M.meter.count w.env.host)) w') : M.After φ w z v w' := by
  obtain ⟨R', E', hd, hread, hpassed⟩ := hw'
  obtain ⟨hflags, hfed, hmoved, hcounted⟩ := hpassed
  obtain rfl := hflags.1
  have hruns : Family.Run M.reader M.arrows R' w'.layout := by simpa [wave] using hd.runs
  have hcurrent : ∀ l, Family.Has M.arrows R' l → l.Current w'.contents := by
    intro l hl
    refine ((hd.leaves l (by simpa [wave] using hl)).resolve_right id).elim id ?_
    rintro ⟨hold, hr⟩
    exact (congrArg (fun u : Value => l.value.same u = true) hr).mpr (h.current l (by simpa [wave] using hold))
  refine ⟨⟨R', ?_⟩, hread, hcounted.elim (fun hc => hc.trans (Nat.le_succ _)) fun hc => hc.2.2⟩
  refine h.renewed hruns hflags.2 ?_ (by simpa [wave] using hd.layout) hd.depth hd.config hcurrent
  exact hp.even (fun i hi => value_same hs.scope (hruns i hi) fun l hl => hcurrent l ⟨i, hi, hl⟩)
    (fun i hi _ => hfed i (by simpa using hi)) hmoved h.even

theorem Guards.mono {C : Finset String} (hφ : M.Guards φ B) (hB : B ⊆ C) : M.Guards φ C :=
  ⟨fun i hi hf => (hφ.syncing i hi hf).imp (@hB _) (@hB _), hφ.ready⟩

section

variable (h : M.Settled φ R w) (hs : M.Sound) (hφ : M.Guards φ ∅) (hH : H.Quiet M.meter.hears) (hn : 2 * M.limit ≤ n)
include h hs hφ hH hn

/-- The arrows from a key that becomes a value take it. -/
theorem Settled.neighbours (z : String) (v : Value) (hj : j ∈ M.arrows) (hz : j.source = z) (before : String → Value) (c : Nat)
    (hbefore : ∀ a ∈ insert z (∅ : Finset String), (before a).same v = true) :
    Accepts H (M.reader (π := π) j).places n (M.reader (π := π) j).sink (fun u => u.same v = true)
      (M.behind (insert z ∅) j.target v φ (w.depth + 1) w.config before c) := by
  have hlinked : M.Linked (insert z ∅) := by
    intro a ha b hb
    obtain rfl : a = z := by simpa using ha
    obtain rfl : b = a := by simpa using hb
    exact hs.linked.refl _
  refine (accepts hs hH h.config hj (by simp [hz]) hlinked (by simp [h.depth]) (hφ.mono (Finset.empty_subset _)) before c
    hbefore).mono ?_ fun _ h => h
  simp only [need, Finset.insert_empty, Finset.card_singleton, Nat.add_sub_cancel]
  exact hn

/-- The program sets a key. -/
theorem Settled.assign (z : String) (v : Value) (hp : M.Paired v w) :
    (M.target.assign (engine H (n + 2)).reactions z v).Ends w fun _ => M.After φ w z v := by
  have hdone := assign_passes (n := n) n hH (h.begins z v) (h.passed hs.scope ∅ v) (Value.same_refl v) (by simp)
    (fun _ j hj hz before c hbefore => h.neighbours hs hφ hH hn z v hj hz before c hbefore) (Nat.le_refl n)
  exact hdone.imp fun _ w' => h.done hs hp

/-- The program deletes a key. -/
theorem Settled.delete (z : String) (hp : M.Paired .undefined w) :
    (M.target.delete (engine H (n + 2)).reactions z).Ends w fun _ => M.After φ w z .undefined := by
  refine ObjectId.delete_ends (fun hnone => ⟨⟨R, h⟩, ?_, Nat.le_succ _⟩) fun old _ => ?_
  · rw [Contents.under, hnone]
    rfl
  have hpassed := h.passed hs.scope ∅ .undefined
  have hdone := (M.wave ∅ z .undefined .undefined (w.contents.under M.target) R M.flagPieces w).change_ends (n := n)
    (f := Fields.erase z) (X := M.Heard ∅ z .undefined φ (w.contents.under M.target) (M.meter.count w.env.host))
    (Z := M.Passed ∅ .undefined φ (w.contents.under M.target) (M.meter.count w.env.host))
    (K := fun h => M.meter.count h ≤ M.meter.count w.env.host) (h.begins z .undefined) hH (Finset.notMem_empty z)
    (Value.same_refl _) (fun es => by simp [wave]) (fun es name hn => Fields.get?_erase_of_ne hn es)
    (keeps_after (Value.same_refl _) (by simp)
      (fun j hj hz before c hbefore => h.neighbours hs hφ hH hn z .undefined hj hz before c hbefore) (Nat.le_refl n))
    keeps_entries (M.before_keeps ∅ z .undefined .undefined (w.contents.under M.target) R _ w (.value old) _)
    (Nat.le_refl _) (fun w₁ ids hw hc => hpassed.changed (Value.same_refl _) hw (fun _ => Nat.le_refl _) hc ids)
    fun _ hX => hX.passed (by simp)
  exact hdone.imp fun _ w' => h.done hs hp

end

/-! ### Starting the arrows of a binding -/

theorem flagPieces_insert {S : Finset (Ref .flag)} (hf : f ∉ S) :
    (insert f S).val.map Piece.flag = S.val.map .flag + {.flag f} := by
  rw [Finset.insert_val_of_notMem hf, Multiset.map_cons, add_comm, Multiset.singleton_add]

/-- A flag is new, or set or reset; the others are `S`. -/
theorem Settled.reflag {S : Finset (Ref .flag)} {G : Multiset Piece} {b : Bool} (h : M.Settled φ R w)
    (t : Touches (Place.posts fun _ => False) G {.flag f} w w') (hS : S ⊆ M.flags) (hf : f ∉ S)
    (hG : M.flagPieces = S.val.map .flag + G) (hfw : w'.layout.flagIs f b) :
    ({ M with flags := insert f S } : Mesh π σ).Settled (Function.update φ f b) R w' := by
  have hw : w.Fits (Family.owned M.arrows R + S.val.map .flag + G) := by
    rw [add_assoc, ← hG]
    exact h.fits
  have hsame : ∀ p ∈ Family.owned M.arrows R + S.val.map .flag, w.layout.Same w'.layout p := fun p hp => t.same hw hp
  refine ⟨h.runs.same (fun p hp => hsame p (Multiset.mem_add.2 (Or.inl hp))) t.layout.lists t.layout.objects, ?_,
    fun g hg => ?_, ?_, ?_, h.stage.touch (by simp) t, t.depth.trans h.depth, ?_, h.limit⟩
  · rw [flagPieces, flagPieces_insert hf, ← add_assoc]
    exact hw.touch (t.frame hw)
  · by_cases hgf : g = f
    · rw [hgf, Function.update_self]
      exact hfw
    · rw [Function.update_of_ne hgf]
      have hg := Finset.mem_of_mem_insert_of_ne hg hgf
      exact (h.flags g (hS hg)).same (hsame _ (Multiset.mem_add.2 (Or.inr (Multiset.mem_map_of_mem _ hg))))
  · rw [t.contents]
    exact h.even
  · rw [t.contents]
    exact h.current
  · rw [t.config]
    exact h.config

/-- A new flag is reset. -/
theorem Settled.newFlag_ends (h : M.Settled φ R w) :
    newFlag.Ends w fun f w' => f ∉ M.flags ∧ (M.addFlag f).Settled (Function.update φ f false) R w' := by
  refine LiveBindings.newFlag_ends (N := Place.posts fun _ => False) fun f w' hf t hfw => ?_
  have hmem : f ∉ M.flags := fun hm => hf (h.fits.has _ (Multiset.mem_add.2 (Or.inr (Multiset.mem_map_of_mem _ hm))))
  exact ⟨hmem, h.reflag t (Finset.Subset.refl _) hmem (add_zero _).symm hfw⟩

theorem Settled.setFlag_ends (h : M.Settled φ R w) (hf : f ∈ M.flags) (b : Bool) :
    (setFlag f b).Ends w fun _ w' => M.Settled (Function.update φ f b) R w' := by
  refine LiveBindings.setFlag_ends (N := Place.posts fun _ => False) (h.flags f hf) fun w' t hfw => ?_
  have hmem := Finset.notMem_erase f M.flags
  have hpieces := flagPieces_insert hmem
  rw [Finset.insert_erase hf] at hpieces
  have := h.reflag t (Finset.erase_subset f M.flags) hmem hpieces hfw
  rwa [Finset.insert_erase hf] at this

theorem awake_add (M : Mesh π σ) (j : Arrow) : (M.add j).awake {j.source} = M.awake {j.source} := by
  simp [awake, Finset.filter_insert]

/-- The observer of one more arrow is started. -/
theorem Settled.start {need : Nat} (h : M.Settled φ R w) (hs : M.scope.value = .object M.target) (hj : j ∉ M.arrows)
    (hp : M.Paired (w.contents.under M.target j.source) w) (hn : need + 7 ≤ n)
    (hacc : Accepts H (M.reader (π := π) j).places need (M.reader (π := π) j).sink
      (fun u => u.same (w.contents.under M.target j.source) = true)
      ((M.add j).behind {j.source} j.target (w.contents.under M.target j.source) φ 0 w.config (w.contents.under M.target)
        (M.meter.count w.env.host))) :
    (bindPlace (engine H n) .assign .value (.literal (.text j.target))
      (.guarded (keyExpr j.source) M.scope j.syncing j.ready) M.scope).Ends w fun _ w' => ∃ R', (M.add j).Settled φ R' w' := by
  obtain ⟨v, hv⟩ : ∃ v, v = w.contents.under M.target j.source := ⟨_, rfl⟩
  rw [← hv] at hp hacc
  have hawake := M.awake_add j
  have hsub : (M.add j).awake {j.source} ⊆ M.arrows := hawake ▸ Finset.filter_subset _ _
  have hfeeds : Source.Feeds H (M.reader (π := π) j).places (.guarded (keyExpr j.source) M.scope j.syncing j.ready) M.target
      j.target ((M.add j).behind {j.source} j.target v φ 0 w.config (w.contents.under M.target) (M.meter.count w.env.host))
      (need + 6) (keyExpr j.source).size
      fun K R => Runs (M.reader (π := π) j).places K (keyExpr j.source) M.scope (M.reader (π := π) j).sink R := by
    refine ⟨hacc.stable, Runs.stopping _ _ _, fun hn hJ hw => keyExpr_started hs rfl hacc (fun hJ => ?_) hn hJ hw⟩
    -- The key that the arrow reads is not written.
    obtain ⟨R, E, -, -, -, hS, -⟩ := hJ
    have hkept := (hS.kept j.source).resolve_left fun hf => hf.1 (Finset.mem_singleton_self _)
    exact (congrArg (fun u : Value => u.same v = true) (hkept.trans hv.symm)).mpr (Value.same_refl v)
  obtain ⟨L, hL⟩ := Family.exists_leaves ((M.add j).awake {j.source}) R
  have hJ : (M.add j).behind {j.source} j.target v φ 0 w.config (w.contents.under M.target) (M.meter.count w.env.host)
      (Family.owned ((M.add j).awake {j.source}) R + M.flagPieces) L none w := by
    have hpassed := h.passed hs {j.source} v
    have hS := h.stageFor {j.source} v
    rw [← hawake] at hS
    exact ⟨R, _, rfl, hL, h.runs.subset hsub, hS, h.depth, rfl, by simp,
      ⟨⟨hpassed.flags, fun i hi => hpassed.fed i (hawake ▸ hi), hpassed.moved, hpassed.counted⟩, by simp⟩⟩
  have hw : w.Fits (Family.owned ((M.add j).awake {j.source}) R + M.flagPieces) :=
    h.fits.of_le (add_le_add_left (Finset.sum_le_sum_of_subset hsub) _)
  have hsize : (keyExpr j.source).size = 3 := rfl
  refine (bindPlace_started hfeeds hs (by omega) (by omega) hJ hw).imp ?_
  rintro _ w' ⟨Rj, F', L', hRj, hJ', hm, hr⟩
  have hjoin := Family.joined (N := M.reader) (E := M.flagPieces) ((M.add j).awake {j.source}) hj hsub h.runs h.fits hL hRj hJ'
    hm hr (fun hR => Stage.Along.congr (Y := (M.add j).Handed {j.source} j.target v φ (w.contents.under M.target)
      (M.meter.count w.env.host)) Handed.congr hR) ?_
  · obtain ⟨R', E', hR', -, ⟨-, hd, hc, -, hpassed, hlast⟩, hm', hleaves⟩ := hjoin
    obtain ⟨hflags, hfed, hmoved, -⟩ := hpassed
    obtain rfl := hflags.1
    have hcurrent : ∀ l, Family.Has (insert j M.arrows) R' l → l.Current w'.contents := fun l hl =>
      (hleaves l hl).elim id fun ⟨hold, hr⟩ => (congrArg (fun u : Value => l.value.same u = true) hr).mpr (h.current l hold)
    have hvalue : ∀ i ∈ insert j M.arrows, (R' i).value.same (w'.contents.under M.target i.source) = true := fun i hi =>
      value_same hs (hR' i hi) fun l hl => hcurrent l ⟨i, hi, hl⟩
    refine ⟨R', h.renewed hR' hflags.2 (fun i hi => ?_) hm'.layout hm'.depth hm'.config hcurrent⟩
    rcases Finset.mem_insert.1 hi with rfl | hi
    · rcases hlast _ rfl with ht | ht
      · exact Value.same_trans ht (hvalue i hi)
      · refine Value.same_trans ht (Value.same_symm (hmoved.held (B := {i.source}) ?_ (Finset.mem_singleton_self _)))
        simp [← hv]
    · refine hp.even (fun i hi => hvalue i (Finset.mem_insert_of_mem hi)) (fun i hi hn => ?_) hmoved h.even i hi
      refine hfed i (mem_awake.2 ⟨Finset.mem_insert_of_mem hi, fun hmem => ?_⟩)
      rw [Finset.mem_singleton.1 hmem, ← hv] at hn
      simp at hn
  · intro i hi hni p hp
    have hsource : i.source = j.source := by
      by_contra hn
      exact hni (mem_awake.2 ⟨Finset.mem_insert_of_mem hi, by simpa using hn⟩)
    exact hp.trans (by rw [hsource])

/-! ### Bindings -/

/-- A mesh with the two arrows of one more binding. -/
abbrev connect (M : Mesh π σ) (source target : String) (syncing ready : Ref .flag) : Mesh π σ :=
  (((M.addFlag syncing).addFlag ready).add ⟨source, target, syncing, none⟩).add ⟨target, source, syncing, some ready⟩

section

variable {source target : String} {g : Ref .flag} {A : Finset Arrow} {ψ : Ref .flag → Bool}

theorem Sound.subset (hs : M.Sound) (hA : A ⊆ M.arrows) : ({ M with arrows := A } : Mesh π σ).Sound where
  scope := hs.scope
  linked := hs.linked
  between i hi := hs.between i (hA hi)
  owned i hi := hs.owned i (hA hi)
  apart i hi j hj := hs.apart i (hA hi) j (hA hj)
  both i hi j hj := hs.both i (hA hi) j (hA hj)
  small i hi := hs.small i (hA hi)

/-- A flag that is not one of the mesh is not used by its arrows. -/
theorem Sound.unused (hs : M.Sound) (hf : f ∉ M.flags) (hi : i ∈ M.arrows) : i.syncing ≠ f ∧ i.ready ≠ some f :=
  ⟨fun he => hf (he ▸ (hs.owned i hi).1), fun he => hf ((hs.owned i hi).2 f he)⟩

theorem Sound.connect (hs : M.Sound) (hf : f ∉ M.flags) (hg : g ∉ M.flags) (hfg : g ≠ f) (hl : M.linked source target)
    (hsmall : ∀ C : Finset String, (∀ a ∈ C, M.linked source a) → C.card < M.limit) :
    (M.connect source target f g).Sound := by
  have hall : ∀ {P : Arrow → Prop}, P ⟨target, source, f, some g⟩ → P ⟨source, target, f, none⟩ → (∀ i ∈ M.arrows, P i) →
      ∀ i ∈ (M.connect source target f g).arrows, P i := by
    intro P h₂ h₁ h i hi
    rcases Finset.mem_insert.1 hi with rfl | hi
    · exact h₂
    rcases Finset.mem_insert.1 hi with rfl | hi
    · exact h₁
    · exact h i hi
  refine ⟨hs.scope, hs.linked, hall (hs.linked.symm hl) hl hs.between, ?_, ?_, ?_, ?_⟩
  · refine hall ?_ ?_ fun i hi => ?_
    · simp
    · simp
    · obtain ⟨h₁, h₂⟩ := hs.owned i hi
      exact ⟨by simp [h₁], fun f hf => by simp [h₂ f hf]⟩
  · refine hall (hall ?_ ?_ ?_) (hall ?_ ?_ ?_) fun i hi => hall ?_ ?_ (hs.apart i hi)
    all_goals simp only [ne_eq, Option.some.injEq, reduceCtorEq, not_false_eq_true]
    · exact hfg
    · exact fun j hj => (hs.unused hf hj).2
    · exact hfg
    · exact fun j hj => (hs.unused hf hj).2
    · exact fun he => (hs.unused hg hi).1 he.symm
  · refine hall (hall ?_ ?_ ?_) (hall ?_ ?_ ?_) fun i hi => hall ?_ ?_ (hs.both i hi)
    all_goals simp only [true_or, or_true, and_self, implies_true]
    · exact fun j hj he => absurd he (hs.unused hf hj).1
    · exact fun j hj he => absurd he (hs.unused hf hj).1
    · exact fun he => absurd he.symm (hs.unused hf hi).1
    · exact fun he => absurd he.symm (hs.unused hf hi).1
  · exact hall (fun C hC => hsmall C fun a ha => hs.linked.trans hl (hC a ha)) hsmall hs.small

theorem Guards.congr (hφ : M.Guards φ B) (hs : M.Sound) (h : ∀ f ∈ M.flags, ψ f = φ f) : M.Guards ψ B :=
  ⟨fun i hi hf => hφ.syncing i hi (h _ (hs.owned i hi).1 ▸ hf),
    fun i hi f hf => (h f ((hs.owned i hi).2 f hf)).trans (hφ.ready i hi f hf)⟩

theorem Guards.add (hφ : M.Guards φ B) (hj : φ j.syncing = false) (hr : ∀ f, j.ready = some f → φ f = true) :
    (M.add j).Guards φ B := by
  constructor
  · intro i hi hf
    rcases Finset.mem_insert.1 hi with rfl | hi
    · simp [hj] at hf
    · exact hφ.syncing i hi hf
  · intro i hi
    rcases Finset.mem_insert.1 hi with rfl | hi
    · exact hr
    · exact hφ.ready i hi

/-- An arrow that is ready passes the value of its source on when it is started. -/
theorem Settled.forth (h : M.Settled φ R w) (hs : (M.add j).Sound) (hφ : (M.add j).Guards φ ∅) (hH : H.Quiet M.meter.hears)
    (hj : j ∉ M.arrows) (hp : ∀ i ∈ M.arrows, ∃ k ∈ M.arrows, k.source = i.target ∧ k.target = i.source)
    (hn : 2 * M.limit + 7 ≤ n) :
    (bindPlace (engine H n) .assign .value (.literal (.text j.target))
      (.guarded (keyExpr j.source) M.scope j.syncing j.ready) M.scope).Ends w fun _ w' => ∃ R', (M.add j).Settled φ R' w' := by
  have hlinked : (M.add j).Linked {j.source} := by
    intro a ha b hb
    rw [Finset.mem_singleton.1 ha, Finset.mem_singleton.1 hb]
    exact hs.linked.refl _
  have hacc := accepts (π := π) (v := w.contents.under M.target j.source) hs hH h.config (Finset.mem_insert_self j M.arrows)
    (Finset.mem_singleton_self j.source) hlinked (Nat.zero_le _) (hφ.mono (Finset.empty_subset _))
    (w.contents.under M.target) (M.meter.count w.env.host) (by simp)
  have hneed : (M.add j).need {j.source} = 2 * M.limit := by simp [need]
  exact h.start hs.scope hj (fun i hi _ => hp i hi) (by omega) hacc

/-- An arrow that is not ready has nothing to pass on when it is started after the one in the opposite direction. -/
theorem Settled.back (h : M.Settled φ R w) (hs : M.scope.value = .object M.target) (hj : j ∉ M.arrows)
    (hf : j.syncing ∈ M.flags) {g : Ref .flag} (hready : j.ready = some g) (hg : g ∈ M.flags) (hφ : φ g = false)
    (hi : i ∈ M.arrows) (hsource : i.source = j.target) (htarget : i.target = j.source)
    (hp : ∀ i ∈ M.arrows, i.source = j.target ∨ ∃ k ∈ M.arrows, k.source = i.target ∧ k.target = i.source) (hn : 7 ≤ n) :
    (bindPlace (engine H n) .assign .value (.literal (.text j.target))
      (.guarded (keyExpr j.source) M.scope j.syncing j.ready) M.scope).Ends w fun _ w' => ∃ R', (M.add j).Settled φ R' w' := by
  have heven : (w.contents.under M.target j.target).same (w.contents.under M.target j.source) = true := by
    rw [← hsource, ← htarget]
    exact Value.same_symm (h.even i hi)
  have hacc : Accepts H (M.reader (π := π) j).places 0 (M.reader (π := π) j).sink
      (fun u => u.same (w.contents.under M.target j.source) = true)
      ((M.add j).behind {j.source} j.target (w.contents.under M.target j.source) φ 0 w.config (w.contents.under M.target)
        (M.meter.count w.env.host)) := by
    refine guarded_accepts (M := M.add j) hf (fun x hx => ?_) (fun _ => heven) (fun p hp => ⟨_, Finset.mem_singleton_self _, hp⟩) fun hopen => ?_
    · obtain rfl : g = x := Option.some.inj (hready.symm.trans hx)
      exact hg
    · simp [hready, hφ] at hopen
  refine h.start hs hj (fun i hi hne => (hp i hi).resolve_left fun he => ?_) (by omega) hacc
  rw [he, heven] at hne
  exact absurd hne (by simp)

/-- A mesh between two operations: no arrow is writing, and there are arrows in both directions. -/
structure Rests (M : Mesh π σ) (w : World (Callback π) (Env π σ)) : Prop where
  sound : M.Sound
  paired : ∀ i ∈ M.arrows, ∃ j ∈ M.arrows, j.source = i.target ∧ j.target = i.source
  settled : ∃ φ R, M.Guards φ ∅ ∧ M.Settled φ R w

/-- The keys at the ends of every arrow hold the same. -/
theorem Rests.even (h : M.Rests w) (hi : i ∈ M.arrows) :
    (w.contents.under M.target i.target).same (w.contents.under M.target i.source) = true := by
  obtain ⟨φ, R, -, hset⟩ := h.settled
  exact hset.even i hi

/-- What starts the two directions of a binding. -/
def startBoth (E : Engine π σ) (s : Scope) (source target : String) : Live π σ (Cancel π) := do
  let syncing ← newFlag
  let ready ← newFlag
  let there ← bindPlace E .assign .value (.literal (.text target)) (.guarded (keyExpr source) s syncing none) s
  let back ← bindPlace E .assign .value (.literal (.text source)) (.guarded (keyExpr target) s syncing (some ready)) s
  setFlag ready true
  return .join [back, there]

/-- The first value goes from the source to the target; then the other direction is started, which has nothing to pass on. -/
theorem Rests.connect (h : M.Rests w) (hH : H.Quiet M.meter.hears) (hl : M.linked source target)
    (hsmall : ∀ C : Finset String, (∀ a ∈ C, M.linked source a) → C.card < M.limit) (hn : 2 * M.limit + 7 ≤ n) :
    (startBoth (engine H n) M.scope source target).Ends w fun _ w' => ∃ f g, (M.connect source target f g).Rests w' := by
  obtain ⟨hs, hpaired, φ, R, hφ, hset⟩ := h
  simp only [startBoth, Run.ends_bind, Run.ends_pure]
  refine hset.newFlag_ends.imp ?_
  rintro f w₁ ⟨hf, hset₁⟩
  refine hset₁.newFlag_ends.imp ?_
  rintro g w₂ ⟨hg, hset₂⟩
  obtain ⟨hgf, hg⟩ : g ≠ f ∧ g ∉ M.flags := by simpa using hg
  have hsound := hs.connect hf hg hgf hl hsmall
  let φ₂ := Function.update (Function.update φ f false) g false
  have hold : ∀ x ∈ M.flags, φ₂ x = φ x := fun x hx => by
    have hxf : x ≠ f := fun he => hf (he ▸ hx)
    have hxg : x ≠ g := fun he => hg (he ▸ hx)
    simp only [φ₂, Function.update_of_ne hxg, Function.update_of_ne hxf]
  have hφf : φ₂ f = false := by simp [φ₂, Function.update_of_ne hgf.symm]
  let M₂ : Mesh π σ := (M.addFlag f).addFlag g
  let there : Arrow := ⟨source, target, f, none⟩
  let back : Arrow := ⟨target, source, f, some g⟩
  have hnew : ∀ i ∈ M.arrows, i.syncing ≠ f := fun i hi => (hs.unused hf hi).1
  have hguards : ∀ ψ : Ref .flag → Bool, (∀ x ∈ M.flags, ψ x = φ x) → M₂.Guards ψ ∅ := fun ψ hψ =>
    ⟨(hφ.congr hs hψ).syncing, (hφ.congr hs hψ).ready⟩
  have hforth := Settled.forth (M := M₂) (j := there) (n := n) hset₂ (hsound.subset (Finset.subset_insert _ _))
    ((hguards φ₂ hold).add hφf (by simp)) hH (fun hm => hnew _ hm rfl) hpaired hn
  refine hforth.imp ?_
  rintro c w₃ ⟨R₃, hset₃⟩
  have hback := Settled.back (M := M₂.add there) (H := H) (i := there) (j := back) (n := n) hset₃ hs.scope ?_ (by simp [M₂, back]) rfl
    (by simp [M₂]) (by simp) (Finset.mem_insert_self _ _) rfl rfl (fun i hi => ?_) (by omega)
  · refine hback.imp ?_
    rintro c' w₄ ⟨R₄, hset₄⟩
    refine (hset₄.setFlag_ends (f := g) (by simp [M₂]) true).imp fun _ w₅ hset₅ => ⟨f, g, hsound, fun i hi => ?_, _, _, ?_, hset₅⟩
    · rcases Finset.mem_insert.1 hi with rfl | hi
      · exact ⟨there, by simp [there], rfl, rfl⟩
      rcases Finset.mem_insert.1 hi with rfl | hi
      · exact ⟨back, by simp [back], rfl, rfl⟩
      obtain ⟨j, hj, he⟩ := hpaired i hi
      exact ⟨j, Finset.mem_insert_of_mem (Finset.mem_insert_of_mem hj), he⟩
    · have hφf' : Function.update φ₂ g true f = false := by rw [Function.update_of_ne hgf.symm, hφf]
      refine ((hguards _ fun x hx => ?_).add (j := there) hφf' (by simp)).add (j := back) hφf' fun x hx => ?_
      · have hxg : x ≠ g := fun he => hg (he ▸ hx)
        rw [Function.update_of_ne hxg, hold x hx]
      · rw [← Option.some.inj hx, Function.update_self]
  · rw [Finset.mem_insert, not_or]
    exact ⟨by simp [back, there], fun hm => hnew _ hm rfl⟩
  · refine (Finset.mem_insert.1 hi).imp (fun he => by rw [he]) fun hi => ?_
    obtain ⟨j, hj, he⟩ := hpaired i hi
    exact ⟨j, Finset.mem_insert_of_mem hj, he⟩

/-! ### Operations of the program -/

/-- A key is set or deleted. -/
theorem Rests.mutation (h : M.Rests w) (hH : H.Quiet M.meter.hears) {m : Mutation} (hm : m.Outside M.target ∅)
    (hn : 2 * M.limit ≤ n) :
    (m.run (engine H (n + 2))).Ends w fun _ w' => M.Rests w' ∧
      (∀ key v, m = .setEntry M.target key v → (w'.contents.under M.target key).same v = true) ∧
        M.meter.count w'.env.host ≤ M.meter.count w.env.host + 1 := by
  obtain ⟨hs, hpaired, φ, R, hφ, hset⟩ := h
  have rests : ∀ {w'} {z : String} {v : Value}, M.After φ w z v w' → M.Rests w' := fun h => by
    obtain ⟨R', hset'⟩ := h.1
    exact ⟨hs, hpaired, φ, R', hφ, hset'⟩
  cases m with
  | setEntry o key v =>
    obtain ⟨rfl, -⟩ := hm
    refine (hset.assign hs hφ hH hn key v fun i hi _ => hpaired i hi).imp fun _ w' h' => ⟨rests h', fun key' v' he => ?_, h'.2.2⟩
    simp only [Mutation.setEntry.injEq, true_and] at he
    rw [← he.1, ← he.2]
    exact h'.2.1
  | deleteEntry o key =>
    obtain ⟨rfl, -⟩ := hm
    rw [Mutation.run, Run.ends_discard]
    exact (hset.delete hs hφ hH hn key fun i hi _ => hpaired i hi).imp fun _ w' h' => ⟨rests h', by simp, h'.2.2⟩
  | _ => exact hm.elim

/-- Keys are set and deleted one after the other. -/
theorem Rests.mutations (h : M.Rests w) (hH : H.Quiet M.meter.hears) {ms : List Mutation} (hms : ∀ m ∈ ms, m.Outside M.target ∅)
    (hn : 2 * M.limit ≤ n) : (Mutation.runAll (engine H (n + 2)) ms).Ends w fun _ w' => M.Rests w' := by
  induction ms generalizing w with
  | nil => exact h
  | cons m ms ih =>
    rw [Mutation.runAll, Run.ends_bind]
    refine (h.mutation hH (hms m (by simp)) hn).imp fun _ w₁ h₁ => ?_
    exact ih h₁.1 fun m hm => hms m (by simp [hm])

end

end

end Mesh

/-! ## Definitions in both directions -/

/-- The host that counts what its listeners are told. -/
def Host.counter : Host Unit Nat where
  listener _ _ _ := modifyHost (· + 1)
  observer _ _ _ := pure ()
  teardown _ _ := pure ()

/-- A definition that binds its target and a key of the value in scope to each other. -/
def Descriptor.Links (d : Descriptor) (key : String) : Prop := ∃ n : Node, d = .twoWay n ∧ n.Reads key

/-- A tree reads one key at most. -/
theorem Node.Reads.unique {n : Node} {key key' : String} (h : n.Reads key) (h' : n.Reads key') : key = key' := by
  obtain ⟨_, _, _, rfl, -, -, -, hv⟩ := h
  obtain ⟨_, _, _, he, -, -, -, hv'⟩ := h'
  simp only [Node.call.injEq, List.cons.injEq, and_true] at he
  obtain ⟨-, -, rfl⟩ := he
  simpa [hv] using hv'

namespace BindingSet

/-- Definitions bind two keys to each other. -/
def Joins (defs : List (String × Descriptor)) (a b : String) : Prop := ∃ d, (a, d) ∈ defs ∧ d.Links b

/-- Definitions connect two keys, directly or through others. -/
def Connected (defs : List (String × Descriptor)) : String → String → Prop := Relation.EqvGen (Joins defs)

/-- Keys of an object that definitions connect hold the same value. -/
def Equal (o : ObjectId) (defs : List (String × Descriptor)) (c : Contents) : Prop :=
  ∀ a b, Connected defs a b → (c.under o a).same (c.under o b) = true

variable {H : Host π σ} {n : Nat} {w : World (Callback π) (Env π σ)} {b : BindingSet π} {M : Mesh π σ} {k : String} {d : Descriptor}
  {defs : List (String × Descriptor)} {ms : List Mutation}

theorem bindTwoWay_ends {node : Node} {key : String} {E : Engine π σ} {Q : Except BindError (Cancel π) → World (Callback π) (Env π σ) → Prop}
    (hplain : Node.IsPlain k) (hkey : node.Reads key) :
    (b.bindTwoWay E (Node.path k) node).run.Ends w Q ↔ (Mesh.startBoth E b.scope key k).Ends w fun handle => Q (.ok handle) := by
  simp only [bindTwoWay, ends_exceptBind, hplain.reads.compileTarget_ends, hkey.compileTarget_ends, ends_observed, hkey.compile,
    hplain.reads.compile, Except.mapError, ends_exceptLift]
  rfl

/-- The bindings of a set are on the target of a mesh and evaluated in its scope. -/
structure OnMesh (b : BindingSet π) (M : Mesh π σ) : Prop where
  target : b.target = M.target
  scope : b.scope = M.scope

/-- A mesh with more arrows, among them one for each of the definitions. -/
structure Covers (M : Mesh π σ) (arrows : Finset Arrow) (defs : List (String × Descriptor)) : Prop where
  old : M.arrows ⊆ arrows
  new : ∀ {a b}, Joins defs a b → ∃ i ∈ arrows, i.source = b ∧ i.target = a

/-- Defining a binding in both directions. -/
theorem define_links {key : String} (h : M.Rests w) (hH : H.Quiet M.meter.hears) (hb : b.OnMesh M) (hplain : Node.IsPlain k)
    (hd : d.Links key) (hl : M.linked key k)
    (hsmall : ∀ C : Finset String, (∀ a ∈ C, M.linked key a) → C.card < M.limit) (hn : 2 * M.limit + 7 ≤ n) :
    (b.define (engine H n) (Node.path k) d).run.Ends w fun r w' =>
      ∃ b' f g, r = .ok b' ∧ b'.OnMesh M ∧ (M.connect key k f g).Rests w' := by
  obtain ⟨node, rfl, hkey⟩ := hd
  simp only [define, bind, ends_exceptBind, bindTwoWay_ends hplain hkey, hb.scope]
  refine (h.connect hH hl hsmall hn).imp ?_
  rintro handle w' ⟨f, g, h'⟩
  exact ⟨_, f, g, rfl, ⟨hb.target, rfl⟩, h'⟩

/-- Defining bindings in both directions, whatever the order and the keys. -/
theorem defineAll_links (hH : H.Quiet M.meter.hears) (hn : 2 * M.limit + 7 ≤ n)
    (hdefs : ∀ p ∈ defs, Node.IsPlain p.1 ∧ ∃ key, p.2.Links key)
    (hlinked : ∀ {a b}, Joins defs a b → M.linked a b)
    (hsmall : ∀ p ∈ defs, ∀ C : Finset String, (∀ a ∈ C, M.linked p.1 a) → C.card < M.limit) (h : M.Rests w) (hb : b.OnMesh M) :
    (b.defineAll (engine H n) defs).Ends w fun r w' => r.2 = none ∧
      ∃ arrows flags, Covers M arrows defs ∧ ({ M with arrows, flags } : Mesh π σ).Rests w' := by
  induction defs generalizing M w b with
  | nil =>
    refine ⟨rfl, M.arrows, M.flags, ⟨Finset.Subset.refl _, ?_⟩, h⟩
    rintro a b ⟨_, hm, -⟩
    exact absurd hm List.not_mem_nil
  | cons p defs ih =>
    obtain ⟨k, d⟩ := p
    obtain ⟨hplain, key, hd⟩ := hdefs (k, d) (by simp)
    have hl : M.linked key k := h.sound.linked.symm (hlinked ⟨d, by simp, hd⟩)
    have hcomponent : ∀ C : Finset String, (∀ a ∈ C, M.linked key a) → C.card < M.limit := fun C hC =>
      hsmall (k, d) (by simp) C fun a ha => h.sound.linked.trans (h.sound.linked.symm hl) (hC a ha)
    simp only [defineAll, Run.ends_bind]
    refine (define_links h hH hb hplain hd hl hcomponent hn).imp ?_
    rintro r w₁ ⟨b', f, g, hr, hb', h₁⟩
    subst hr
    have hlinked' : ∀ {a b}, Joins defs a b → M.linked a b := by
      rintro a b ⟨d', hm, hd'⟩
      exact hlinked ⟨d', by simp [hm], hd'⟩
    refine (ih (M := M.connect key k f g) (b := b') hH hn (fun p hp => hdefs p (by simp [hp])) hlinked'
      (fun p hp => hsmall p (by simp [hp])) h₁ ⟨hb'.target, hb'.scope⟩).imp ?_
    rintro r w₂ ⟨hr, arrows, flags, hcovers, h₂⟩
    refine ⟨hr, arrows, flags, ⟨?_, ?_⟩, h₂⟩
    · exact fun i hi => hcovers.old (Finset.mem_insert_of_mem (Finset.mem_insert_of_mem hi))
    · rintro a b ⟨d', hm, hd'⟩
      rcases List.mem_cons.1 hm with he | hm
      · obtain ⟨rfl, rfl⟩ : a = k ∧ d' = d := by simpa using he
        obtain ⟨node, rfl, hb⟩ := hd
        obtain ⟨node', he, hb'⟩ := hd'
        obtain rfl : node = node' := by simpa using he
        exact ⟨⟨key, a, f, none⟩, hcovers.old (by simp), hb.unique hb', rfl⟩
      · exact hcovers.new ⟨d', hm, hd'⟩

/-- In a mesh with an arrow for each definition connected keys hold the same value. -/
theorem Covers.equal {arrows : Finset Arrow} {flags : Finset (Ref .flag)} (h : Covers M arrows defs)
    (hr : ({ M with arrows, flags } : Mesh π σ).Rests w) : Equal M.target defs w.contents := by
  intro a b hab
  induction hab with
  | rel a b hab =>
    obtain ⟨i, hi, rfl, rfl⟩ := h.new hab
    exact hr.even hi
  | refl a => exact Value.same_refl _
  | symm a b _ ih => exact Value.same_symm ih
  | trans a b c _ _ ih ih' => exact Value.same_trans ih ih'

/-- No key is bound yet. -/
theorem rests_empty (hw : w.AtRest) (hdepth : w.depth = 0) (hfound : M.target.index < w.layout.objects)
    (hmeter : ∀ {id q}, w.layout.Posted id q → M.meter.Only M.target id q) (hlimit : w.config.maxDispatchDepth = M.limit)
    (hscope : M.scope.value = .object M.target) (hlinked : Equivalence M.linked) (ha : M.arrows = ∅) (hf : M.flags = ∅) :
    M.Rests w := by
  have hpos : 0 < M.limit := by
    have := hw.depth
    omega
  have hnone : ∀ i : Arrow, i ∉ M.arrows := by simp [ha]
  refine ⟨⟨hscope, hlinked, ?_, ?_, ?_, ?_, ?_⟩, ?_, fun _ => false, fun _ => { value := .undefined }, ⟨?_, ?_⟩,
    ⟨?_, ⟨?_, ?_, hw.tidy⟩, ?_, ?_, ?_, ⟨hfound, hw.orphans, fun _ => Or.inl ⟨trivial, trivial⟩, fun hq _ => hmeter hq,
      fun hq _ => hw.users hq, fun hq _ => Or.inl (hw.users hq)⟩, hdepth, hlimit, hpos⟩⟩
  all_goals first
    | exact fun i hi => absurd hi (hnone i)
    | simp [ha, hf, Family.owned, Family.Has, Mesh.flagPieces]

/-- Two-way bindings keep connected keys equal. Definitions that bind plain keys of an object to each other succeed in any order,
with cycles and parallel definitions, as long as fewer keys are connected than dispatches may be nested. Then, and after
whatever keys the program sets or deletes, connected keys hold the same value; a key that is set holds the value that it was
set to; and a listener of a key hears of one change at most for each operation. -/
theorem two_way_equal {meter : Meter π σ} (hH : H.Quiet meter.hears) (hw : w.AtRest) (hdepth : w.depth = 0)
    (hfound : b.target.index < w.objects.size) (hscope : b.scope.value = .object b.target)
    (hmeter : ∀ {id q}, w.layout.Posted id q → meter.Only b.target id q)
    (hdefs : ∀ p ∈ defs, Node.IsPlain p.1 ∧ ∃ key, p.2.Links key)
    (hsmall : ∀ p ∈ defs, ∀ C : Finset String, (∀ a ∈ C, Connected defs p.1 a) → C.card < w.config.maxDispatchDepth)
    (hms : ∀ m ∈ ms, m.Outside b.target ∅) (hn : 2 * w.config.maxDispatchDepth + 7 ≤ n) :
    (b.defineThrough (engine H n) defs ms).Ends w fun r w' => r.2 = none ∧ Equal b.target defs w'.contents ∧
      ∀ m : Mutation, m.Outside b.target ∅ → (m.run (engine H n)).Ends w' fun _ w'' => Equal b.target defs w''.contents ∧
        (∀ key v, m = .setEntry b.target key v → (w''.contents.under b.target key).same v = true) ∧
          meter.count w''.env.host ≤ meter.count w'.env.host + 1 := by
  obtain ⟨m, rfl⟩ : ∃ m, n = m + 2 := ⟨n - 2, by omega⟩
  let M : Mesh π σ :=
    { target := b.target, scope := b.scope, arrows := ∅, flags := ∅, linked := Connected defs,
      limit := w.config.maxDispatchDepth, meter }
  have hrests : M.Rests w :=
    rests_empty hw hdepth hfound hmeter rfl hscope (Relation.EqvGen.is_equivalence _) rfl rfl
  simp only [defineThrough, Run.ends_bind, Run.ends_pure]
  refine (defineAll_links (M := M) hH hn hdefs (fun h => .rel _ _ h) hsmall hrests ⟨rfl, rfl⟩).imp fun r w₁ h₁ => ?_
  obtain ⟨hr, arrows, flags, hcovers, h₁⟩ := h₁
  have hfuel : 2 * M.limit ≤ m := by
    simp only [M]
    omega
  refine (h₁.mutations hH hms hfuel).imp fun _ w₂ h₂ => ⟨hr, hcovers.equal h₂, fun m hm => ?_⟩
  exact (h₂.mutation hH hm hfuel).imp fun _ w₃ h₃ => ⟨hcovers.equal h₃.1, h₃.2⟩

/-- Three keys in a circle, with a listener on one of them. -/
theorem two_way_equal_circle :
    ∃ id w r w' w'', (ObjectId.listen ⟨0⟩ (.after "c") (.user ()) : Live Unit Nat ListenerId) (World.fresh [[]] 0) = .ok id w ∧
      defineThrough (engine Host.counter 600) (.ofObject ⟨0⟩) [("a", .twoWay (.property .value "b")),
        ("b", .twoWay (.property .value "c")), ("c", .twoWay (.property .value "a"))] [] w = .ok r w' ∧
      (Mutation.setEntry ⟨0⟩ "a" (.bool true)).run (engine Host.counter 600) w' = .ok ⟨⟩ w'' ∧
      (w''.contents.under ⟨0⟩ "c").same (.bool true) = true ∧ w''.env.host ≤ w'.env.host + 1 := by
  let circle : List (String × Descriptor) := [("a", .twoWay (.property .value "b")), ("b", .twoWay (.property .value "c")),
    ("c", .twoWay (.property .value "a"))]
  have hreads : ∀ key, (Descriptor.twoWay (.property .value key)).Links key := fun key =>
    ⟨_, rfl, _, _, _, rfl, Or.inl rfl, rfl, rfl, rfl⟩
  have hlinks : ∀ {key b}, (Descriptor.twoWay (.property .value key)).Links b → key = b := by
    rintro key b ⟨n, he, hb⟩
    obtain rfl := Descriptor.twoWay.inj he
    exact Node.Reads.unique ⟨_, _, _, rfl, Or.inl rfl, rfl, rfl, rfl⟩ hb
  -- Whatever is connected to one of the three keys is one of them.
  have hclosed : ∀ a b, Connected circle a b → (a ∈ ["a", "b", "c"] ↔ b ∈ ["a", "b", "c"]) := by
    intro a b hab
    induction hab with
    | rel a b hab =>
      obtain ⟨d, hm, hd⟩ := hab
      simp only [circle, List.mem_cons, Prod.mk.injEq, List.not_mem_nil, or_false] at hm
      rcases hm with ⟨rfl, rfl⟩ | ⟨rfl, rfl⟩ | ⟨rfl, rfl⟩ <;> obtain rfl := hlinks hd <;> decide
    | refl a => exact Iff.rfl
    | symm a b _ ih => exact ih.symm
    | trans a b c _ _ ih ih' => exact ih.trans ih'
  have hac : Connected circle "a" "c" := .symm _ _ (.rel _ _ ⟨_, by simp [circle], hreads "a"⟩)
  have hlisten : (ObjectId.listen ⟨0⟩ (.after "c") (.user ()) : Live Unit Nat ListenerId).Ends (World.fresh [[]] 0) fun id w =>
      w.AtRest ∧ w.depth = 0 ∧ 0 < w.layout.objects ∧ w.config.maxDispatchDepth = 256 ∧
        ∀ {id' q}, w.layout.Posted id' q → (⟨"c", id, (), fun n => n⟩ : Meter Unit Nat).Only ⟨0⟩ id' q := by
    refine (World.atRest_fresh [[]] 0).listen.imp ?_
    rintro id w ⟨hrest, hdepth, hconfig, hobjects, hposted⟩
    refine ⟨hrest, hdepth, hobjects ▸ Nat.zero_lt_one, by rw [hconfig]; rfl, fun hq _ => ?_⟩
    exact (hposted hq).resolve_left (World.not_posted_fresh _ _)
  obtain ⟨id, w, hw, hrest, hdepth, hfound, hlimit, hmeter⟩ := Run.ends_iff.1 hlisten
  have hends := @two_way_equal Unit Nat .counter 600 w (.ofObject ⟨0⟩) circle [] ⟨"c", id, (), fun n => n⟩
    (fun _ _ _ w => ⟨w.env.host + 1, rfl, fun _ => Nat.le_refl _, fun h => absurd rfl h⟩) hrest hdepth hfound rfl hmeter ?_ ?_
    (by simp) (by rw [hlimit]; decide)
  · obtain ⟨r, w', hr, -, hequal, hnext⟩ := Run.ends_iff.1 hends
    obtain ⟨_, w'', hr', hequal', hset, hcount⟩ := Run.ends_iff.1 (hnext (.setEntry ⟨0⟩ "a" (.bool true)) ⟨rfl, by simp⟩)
    refine ⟨id, w, r, w', w'', hw, hr, hr', ?_, hcount⟩
    exact Value.same_trans (Value.same_symm (hequal' _ _ hac)) (hset "a" _ rfl)
  · simp only [circle, List.mem_cons, List.not_mem_nil, or_false, forall_eq_or_imp, forall_eq]
    exact ⟨⟨by decide, _, hreads _⟩, ⟨by decide, _, hreads _⟩, by decide, _, hreads _⟩
  · intro p hp C hC
    rw [hlimit]
    have hsub : C ⊆ {"a", "b", "c"} := fun a ha => by
      have hp' : p.1 ∈ ["a", "b", "c"] := by
        simp only [circle, List.mem_cons, List.not_mem_nil, or_false] at hp
        rcases hp with rfl | rfl | rfl <;> decide
      simpa using (hclosed _ _ (hC a ha)).1 hp'
    exact (Finset.card_le_card hsub).trans_lt (by decide)

end BindingSet

end LiveBindings
