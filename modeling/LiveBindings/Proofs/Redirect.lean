import LiveBindings.Proofs.Installed

/-!
# Another list under the key

When another list comes under the key, the observers of presences follow it and the observers of flags are started anew, so that
they write to it; these may be told in any order. Whichever of the two observers of a switch is told first carries the flag and
the presence of its value over to the new list (`Installed.turn_path`, `Installed.turn_member`). When all have been told every
switch follows and writes the new list (`Installed.set_list`).
-/

namespace LiveBindings

variable {π σ : Type}

namespace Panel

variable {S : Panel} {ts : Finset Switch} {H : Host π σ} {n : Nat} {l l' : ListId} {a a' : Switch → Aim} {P : Leaf π → Prop}
  {R : Switch × Role → Running π} {w w' : World (Callback π) (Env π σ)} {t : Switch} {r : Role} {lf : Leaf π}

/-- Only the observer of a flag depends on where its switch aims. -/
theorem reader_congr (a' : Switch → Aim) (h : r = .flag → a t = a' t) : S.reader (π := π) a (t, r) = S.reader a' (t, r) := by
  cases r with
  | flag => simp only [reader, h rfl]
  | path | member => rfl

/-- The observers of switches without two of one switch. -/
def besides (ts : Finset Switch) (t : Switch) : Finset (Switch × Role) := ((parts ts).erase (t, .flag)).erase (t, .path)

/-- The cells of switches without the row and the slot of one switch. -/
def around (ts : Finset Switch) (t : Switch) : Multiset Piece := {.flag t.syncing} + ({.flag t.ready} + pieces (ts.erase t))

theorem besides_subset : besides ts t ⊆ parts ts := (Finset.erase_subset _ _).trans (Finset.erase_subset _ _)

theorem mem_besides {t' : Switch} (ht : t' ∈ ts) (hne : (t', r) ≠ (t, .flag)) (hne' : (t', r) ≠ (t, .path)) :
    (t', r) ∈ besides ts t :=
  Finset.mem_erase.2 ⟨hne', Finset.mem_erase.2 ⟨hne, mem_parts.2 ht⟩⟩

theorem parts_cases {i : Switch × Role} (hi : i ∈ parts ts) (t : Switch) : i = (t, .path) ∨ i = (t, .flag) ∨ i ∈ besides ts t := by
  by_cases hf : i = (t, .flag)
  · exact Or.inr (Or.inl hf)
  · by_cases hp : i = (t, .path)
    · exact Or.inl hp
    · exact Or.inr (Or.inr (Finset.mem_erase.2 ⟨hp, Finset.mem_erase.2 ⟨hf, hi⟩⟩))

theorem mem_around {t' : Switch} {p : Piece} (hm : t' ∈ ts) (hne : t' ≠ t) (hp : p ∈ t'.pieces) : p ∈ around ts t := by
  simp only [around, Multiset.mem_add]
  exact Or.inr (Or.inr (mem_pieces.2 ⟨t', Finset.mem_erase.2 ⟨hne, hm⟩, hp⟩))

theorem flags_around {t' : Switch} (hm : t' ∈ ts) : .flag t'.syncing ∈ around ts t ∧ .flag t'.ready ∈ around ts t := by
  by_cases he : t' = t
  · subst he
    simp [around]
  · exact ⟨mem_around hm he (by simp [Switch.pieces]), mem_around hm he (by simp [Switch.pieces])⟩

theorem plain_around (ts : Finset Switch) (t : Switch) (id : ListenerId) : .listener id ∉ around ts t :=
  fun hid => plain_pieces (ts.erase t) id (by simpa [around] using hid)

theorem pieces_around (ht : t ∈ ts) : pieces ts = {.row t.row} + ({.slot t.slot} + around ts t) := by
  rw [pieces_split ht, Switch.pieces, around]
  abel

theorem owned_besides (ht : t ∈ ts) (R : Switch × Role → Running π) :
    Family.owned (parts ts) R = (R (t, .path)).owned + ((R (t, .flag)).owned + Family.owned (besides ts t) R) := by
  have hflag : (t, Role.flag) ∈ parts ts := mem_parts.2 ht
  have hpath : (t, Role.path) ∈ (parts ts).erase (t, .flag) := Finset.mem_erase.2 ⟨by simp, mem_parts.2 ht⟩
  simp only [Family.owned]
  rw [← Finset.add_sum_erase (parts ts) _ hflag, ← Finset.add_sum_erase ((parts ts).erase (t, .flag)) _ hpath]
  simp only [besides]
  abel

namespace Installed

/-- A switch has carried its flag over to the list under the key. -/
theorem carried {u : Value} (hS : S.Wired ts) (ht : t ∈ ts) (h : S.Installed ts 1 l a (fun lf' => P lf' ∨ lf'.id = lf.id) R w)
    (ha : ∀ t', t' ≠ t → a' t' = a t') (hmember : (a' t).member = (a t).member)
    (hrun : Family.Run (S.reader a') (parts ts) R' w'.layout)
    (hm : Moves (fun p => p = .entry S.target S.key) (Family.owned (parts ts) R + pieces ts)
      (Family.owned (parts ts) R' + pieces ts) w w')
    (hfresh : ∀ {l'}, Family.Has (parts ts) R' l' → l'.Current w'.contents ∨
      (Family.Has (parts ts) R l' ∧ l'.id ≠ lf.id ∧ l'.place.read w'.contents = l'.place.read w.contents))
    (hrow : w'.layout.rowIs t.row { values := [.list (a' t).list, (a' t).member], ready := true })
    (hslot : ∃ g, w'.layout.slotIs t.slot { current := (R' (t, .flag)).handle, generation := g })
    (hpath : (R' (t, .path)).value = .list (a' t).list)
    (htog : Toggling S (scene (besides ts t) (S.reader (π := π) a (t, .flag)).places (around ts t) a R w) 1 t l u R' (around ts t)
      (some (R' (t, .flag)).value) w') : S.Installed ts 1 l a' P R' w' := by
  have hcell : ∀ {t' p}, t' ∈ ts → t' ≠ t → p ∈ t'.pieces → w.layout.Same w'.layout p := fun hm hne hp =>
    htog.steady.around.frozen _ (mem_around hm hne hp)
  have hcur : ∀ {l'}, Family.Has (parts ts) R' l' → l'.place ≠ .entry S.target S.key → l'.Current w'.contents := by
    intro l' hl' hne
    rcases hfresh hl' with hc | ⟨hold, -, hread⟩
    · exact hc
    · rw [Leaf.Current, hread]
      exact h.current_of_ne hold hne
  have hleaf : ∀ {t'}, t' ∈ ts → ∃ l' : Leaf π, (R' (t', .flag)).leaves = [l'] ∧ l'.place = .entry S.target t'.flag ∧
      (R' (t', .flag)).value.same l'.value = true := fun {t'} hm =>
    (hrun _ (mem_parts.2 hm : (t', Role.flag) ∈ _)).key_leaf hS.scope
  have hne : ∀ {t'}, t' ∈ ts → Place.entry S.target t'.flag ≠ .entry S.target S.key := fun hm he =>
    hS.apart _ hm (by simpa using he)
  have hother : ∀ {t' r}, t' ∈ ts → t' ≠ t → (t', r) ∈ besides ts t := fun hm hne' => mem_besides hm (by simp [hne']) (by simp [hne'])
  refine ⟨⟨?_, fun _ => rfl, fun {t'} hi => ?_, ⟨l, htog.list⟩, fun {t'} hi _ => ?_, fun {i} hi l' hl' hp => ?_,
    fun {t'} hi l' hl' => ?_⟩, hrun, hm.fits h.fits, fun t' hi => ?_, fun t' hi => ?_, fun t' hi => ?_, fun t' hi => ?_, htog.found,
    htog.list, fun {l'} hl' => ?_, ?_⟩
  · exact (h.steady.around.reshape hm.layout hm.depth hm.config fun p _ => .refl _ p).now
  · by_cases he : t' = t
    · exact he ▸ hpath
    · change (R' (t', .path)).value = .list (a' t').list
      rw [ha _ he]
      exact htog.steady.paths (mem_besides (mem_parts.1 hi) (by simp) (by simp [he]))
  · have hmem : (t', Role.member) ∈ besides ts t := mem_besides (mem_parts.1 hi) (by simp) (by simp)
    by_cases he : t' = t
    · subst he
      obtain ⟨l', hl', hp, hv⟩ := hleaf ht
      have hc := hcur ⟨(t', .flag), mem_parts.2 ht, by simp [hl']⟩ (hp ▸ hne ht)
      rw [Leaf.Current, hp, Place.read_entry] at hc
      rw [← htog.even hmem _ rfl, Value.truthy_eq_of_same (Value.same_trans hv hc)]
    · exact htog.steady.even hmem (hother (mem_parts.1 hi) he)
  · rcases hfresh ⟨i, hi, hl'⟩ with hc | ⟨⟨j, hj, hlj⟩, -, -⟩
    · rw [Leaf.Current, hp, Place.read_entry, htog.list] at hc
      exact ⟨l, Value.eq_of_same_list (Value.same_symm hc)⟩
    · exact h.steady.lists hj l' hlj hp
  · obtain ⟨l₀, hl₀, hp, -⟩ := hleaf (mem_parts.1 hi)
    obtain rfl : l' = l₀ := by simpa [hl₀] using hl'
    exact hcur ⟨_, hi, hl'⟩ (hp ▸ hne (mem_parts.1 hi))
  · by_cases he : t' = t
    · exact he ▸ hrow
    · rw [ha _ he]
      exact (h.rows t' hi).same (hcell hi he (by simp [Switch.pieces]))
  · by_cases he : t' = t
    · exact he ▸ hslot
    · obtain ⟨g, hg⟩ := h.slots t' hi
      rw [htog.steady.handles (hother hi he)]
      exact ⟨g, hg.same (hcell hi he (by simp [Switch.pieces]))⟩
  · obtain ⟨h₁, h₂⟩ := h.idle t' hi
    obtain ⟨hE, hE'⟩ := flags_around (t := t) hi
    exact ⟨h₁.same (htog.steady.around.frozen _ hE), h₂.same (htog.steady.around.frozen _ hE')⟩
  · by_cases he : t' = t
    · rw [he, hmember]
      exact h.members t ht
    · rw [ha _ he]
      exact h.members t' hi
  · rcases hfresh hl' with hc | ⟨hold, hid, hread⟩
    · exact Or.inl hc
    · rw [Leaf.Current, hread]
      exact (h.leaves hold).imp id fun hP => ⟨hP.1, hP.2.resolve_right hid⟩
  · rw [hm.config]
    exact h.deep

/-- The observer that finds the list is told: the observer of the flag is started anew. -/
theorem turn_path (hS : S.Wired ts) (hH : H.Quiet fun _ _ _ _ => True) (hn : ∀ t ∈ ts, 2 * S.turns t.flag + 12 ≤ n) (ht : t ∈ ts)
    (h : S.Installed ts 1 l a (fun lf' => P lf' ∨ lf'.id = lf.id) R w) (hl : lf ∈ (R (t, .path)).leaves) :
    (lf.sink.emit (engine H (n + 8)) (H.observer (engine H (n + 8))) (lf.place.read w.contents)).Ends w fun _ w' =>
      (∃ a R, S.Installed ts 1 l a P R w') ∧ ∃ G G', Reshapes G G' w.layout w'.layout := by
  have hpath : (t, Role.path) ∈ parts ts := mem_parts.2 ht
  have hflag : (t, Role.flag) ∈ parts ts := mem_parts.2 ht
  have hmember : (t, Role.member) ∈ parts ts := mem_parts.2 ht
  have hdeep := h.deep
  let C := scene (besides ts t) (S.reader (π := π) a (t, .flag)).places (around ts t) a R w
  have hC : C.Lends S t := by
    refine h.lends (by rwa [Finset.insert_eq_self.2 ht]) besides_subset (by simp [besides])
      (fun t' hm hne => mem_besides hm (by simp [hne]) (by simp)) (fun t' hm => flags_around hm) ⟨(flags_around ht).1, (h.idle t ht).1⟩
      fun t' hm => flags_apart h.fits.right.nodup ht hm
  have hsteady : Steady S C 1 R w := h.among besides_subset (plain_around ts t) fun i hi hi' p hp => by
    by_cases hif : i = (t, .flag)
    · exact hif ▸ hp
    · obtain rfl : i = (t, .path) := by
        by_contra hip
        exact hi' (Finset.mem_erase.2 ⟨hip, Finset.mem_erase.2 ⟨hif, hi⟩⟩)
      exact Or.inl hp
  -- What is behind the observer that is told.
  obtain ⟨L₀, hL₀⟩ := Family.exists_leaves (besides ts t) R
  obtain ⟨g, hslot⟩ := h.slots t ht
  have htog : Toggling S C 1 t l (w.contents.under S.target t.flag) R (around ts t) (some (R (t, .flag)).value) w := by
    refine ⟨rfl, hsteady, h.found, h.list, rfl, fun lf ⟨i, hi, hlf⟩ => h.current_of_ne ⟨i, besides_subset hi, hlf⟩, ?_,
      fun _ => Or.inr (h.even ht), fun hn => absurd (mem_besides ht (by simp) (by simp)) hn⟩
    rintro - _ ⟨⟩
    rw [h.flag_value hS ht, h.even ht]
  have hreacts := hC.reacts (d := 1) (l := l) hH hdeep (fun hm => hn _ (mem_parts.1 (besides_subset hm)))
    (w.contents.under S.target t.flag) t.slot
  have hacc := hreacts.argument (fun v => v = .list l) t.row 0 [.list (a t).list, (a t).member] true (by simp)
    fun _ v hv => ⟨_, by rw [hv]; rfl, h.members t ht⟩
  have hread : lf.place.read w.contents = .list l := by
    have hp : lf.place = .entry S.target S.key := ((h.runs _ hpath).placed lf hl).place
    rw [hp, Place.read_entry, h.list]
  have hsplit : Family.owned (parts ts) R + pieces ts = (R (t, .path)).owned +
      ({.row t.row} + ({.slot t.slot} + (R (t, .flag)).owned + (Family.owned (besides ts t) R + around ts t))) := by
    rw [owned_besides ht, pieces_around ht]
    abel
  have hJ : Behind.argument ((Behind.family (S.reader a) (besides ts t) (Toggling S C 1 t l (w.contents.under S.target t.flag))).slot
      t.slot (S.Shows t)) t.row 0 [.list (a t).list, (a t).member] true
      ({.row t.row} + ({.slot t.slot} + (R (t, .flag)).owned + (Family.owned (besides ts t) R + around ts t)))
      ((R (t, .flag)).leaves ++ L₀) (some (R (t, .path)).value) w := by
    refine ⟨_, .list (a t).list, some [.list (a t).list, (a t).member], rfl, h.rows t ht, ?_, fun _ => rfl, ?_⟩
    · rintro _ ⟨⟩
      rw [h.steady.paths hpath]
      exact Value.same_refl _
    · exact ⟨_, L₀, R (t, .flag), g, rfl, rfl, hslot, ⟨(a t).list, (a t).member, rfl, h.runs _ hflag⟩, R, around ts t, rfl, hL₀,
        h.runs.subset besides_subset, htog⟩
  refine (keyExpr_told (h.runs _ hpath) hacc hread le_rfl hJ (hsplit ▸ h.fits) hl).imp fun _ w' h' => ?_
  -- What has become of it: the row names a list, and the observer of the flag writes to that.
  obtain ⟨RP, F', L', -, hRP, ⟨F₁, x, o, rfl, hrow, hx, ho, hJ'⟩, hm, hr⟩ := h'
  obtain rfl := ho rfl
  obtain ⟨F₂, L₂, RF, g', rfl, rfl, hslot', ⟨list, m, hvs, hRF⟩, ⟨R₂, E, rfl, hL₂, hrun₂, htog'⟩⟩ := hJ'
  obtain ⟨rfl, rfl⟩ : x = .list list ∧ (a t).member = m := by simpa using hvs
  obtain rfl : E = around ts t := htog'.extra
  simp only [List.set_cons_zero] at hrow
  let R' := Function.update (Function.update R₂ (t, .flag) RF) (t, .path) RP
  have hP : R' (t, .path) = RP := Function.update_self ..
  have hF : R' (t, .flag) = RF := by simp [R']
  have hQ : ∀ i ∈ besides ts t, R' i = R₂ i := fun i hi => by
    simp only [besides, Finset.mem_erase] at hi
    simp [R', hi.1, hi.2.1]
  have hmoves : Moves (fun p => p = .entry S.target S.key) (Family.owned (parts ts) R + pieces ts)
      (Family.owned (parts ts) R' + pieces ts) w w' := by
    change Moves _ _ (RP.owned + ({.row t.row} + ({.slot t.slot} + RF.owned + (Family.owned (besides ts t) R₂ + around ts t)))) _ _
      at hm
    refine hm.cast hsplit.symm ?_
    rw [owned_besides ht, pieces_around ht, hP, hF, Family.owned_congr hQ]
    abel
  have hrun' : Family.Run (S.reader (Function.update a t ⟨list, (a t).member⟩)) (parts ts) R' w'.layout := by
    intro i hi
    rcases parts_cases hi t with rfl | rfl | hi'
    · rw [hP]
      exact hRP
    · rw [hF, reader, Function.update_self]
      exact hRF
    · have hne : i ≠ (t, .flag) := fun he => by simp [besides, he] at hi'
      obtain ⟨t', r⟩ := i
      rw [hQ _ hi', reader_congr a fun hr' => Function.update_of_ne (fun he => hne (by rw [he, hr'])) ..]
      exact hrun₂ _ hi'
  -- No listener for anything but the key is out of date.
  have hfresh : ∀ {l'}, Family.Has (parts ts) R' l' → l'.Current w'.contents ∨
      (Family.Has (parts ts) R l' ∧ l'.id ≠ lf.id ∧ l'.place.read w'.contents = l'.place.read w.contents) := by
    rintro l' ⟨i, hi, hl'⟩
    have hmem : l' ∈ RP.leaves ++ (RF.leaves ++ L₂) := by
      rcases parts_cases hi t with rfl | rfl | hi'
      · simp [hP ▸ hl']
      · simp [hF ▸ hl']
      · simp [(hL₂ l').2 ⟨i, hi', hQ i hi' ▸ hl'⟩]
    refine (hr l' hmem).imp_right ?_
    rintro ⟨hold, hread'⟩
    have hne : ∀ {j}, j ∈ parts ts → j ≠ (t, .path) → l' ∈ (R j).leaves → l'.id ≠ lf.id := fun hj hjp hlj hid =>
      hjp (Family.unique h.runs h.fits.left.nodup hj hpath hlj hl hid)
    simp only [List.mem_append, mem_others] at hold
    rcases hold with hold | hold | hold
    · exact ⟨⟨_, hpath, hold.1⟩, hold.2, hread'⟩
    · exact ⟨⟨_, hflag, hold⟩, hne hflag (by simp) hold, hread'⟩
    · obtain ⟨j, hj, hlj⟩ := (hL₀ l').1 hold
      refine ⟨⟨j, besides_subset hj, hlj⟩, hne (besides_subset hj) (fun he => ?_) hlj, hread'⟩
      simp [besides, he] at hj
  refine ⟨⟨_, R', h.carried (u := w.contents.under S.target t.flag) hS ht (fun t' hne => Function.update_of_ne hne ..) ?_ hrun' hmoves
    hfresh ?_ ⟨g', ?_⟩ ?_ ?_⟩, _, _, hmoves.layout⟩
  · simp
  · simpa using hrow
  · rw [hF]
    exact hslot'
  · rw [hP, Function.update_self]
    exact Value.eq_of_same_list (hx _ rfl)
  · rw [hF]
    exact htog'.congr hQ

/-- The observer of a presence is told of the list. -/
theorem turn_member (hS : S.Wired ts) (hH : H.Quiet fun _ _ _ _ => True) (hn : ∀ t ∈ ts, 2 * S.turns t.flag + 12 ≤ n) (ht : t ∈ ts)
    (h : S.Installed ts 1 l a (fun lf' => P lf' ∨ lf'.id = lf.id) R w) (hl : lf ∈ (R (t, .member)).leaves) :
    (lf.sink.emit (engine H n) (H.observer (engine H n)) (lf.place.read w.contents)).Ends w fun _ w' =>
      (∃ a R, S.Installed ts 1 l a P R w') ∧ ∃ G G', Reshapes G G' w.layout w'.layout := by
  have hdeep := h.deep
  let B : Outset π σ := { observers := R, world := w, left := fun _ => False, told := fun _ => True }
  have hP : Passing S (scene (parts ts) (fun _ => False) (pieces ts) a R w) 1 B w.contents.items
      (fun lf' => (lf'.place = .entry S.target S.key ∧ P lf') ∨ lf'.id = lf.id) R w := by
    refine ⟨h.steady, h.runs, h.fits, .refl _ _, rfl, fun _ => rfl, fun hl' => ?_, fun _ _ => rfl, fun _ _ hl' _ => Or.inr hl'⟩
    rcases h.leaves hl' with hc | ⟨hp, hP | hid⟩
    · exact Or.inl (Or.inl hc)
    · exact Or.inr (Or.inl ⟨hp, hP⟩)
    · exact Or.inr (Or.inr hid)
  refine (hP.turn (h.sound hS) hH (by simp only [scene]; omega) (hn t ht) (mem_parts.2 ht) hl trivial).imp ?_
  rintro _ w' ⟨⟨R', h'⟩, hr⟩
  refine ⟨⟨a, R', h.passed hS rfl h' fun hl' => ?_⟩, hr⟩
  exact (h'.leaves hl').imp_left fun hc => hc.resolve_right And.left

/-- The pass over those who listen to the key of the list. -/
theorem attends_list (hS : S.Wired ts) (hH : H.Quiet fun _ _ _ _ => True) (hn : ∀ t ∈ ts, 2 * S.turns t.flag + 12 ≤ n) :
    Attends H (fun _ _ _ _ => True) (n + 8) (Post.OfObject S.target (.after S.key)) (.value (.list l)) fun P _ w =>
      ∃ a R, S.Installed ts 1 l a P R w where
  mono := fun ⟨a, R, h⟩ hP => ⟨a, R, h.mono fun lf _ => hP lf⟩
  apart := fun ⟨a, R, h⟩ ha _ => ⟨a, R, h.congr ha.layout (fun _ => by rw [ha.contents]) (by rw [ha.contents])
    (ha.depth.trans h.steady.around.depth) ha.config⟩
  tidy := fun ⟨_, _, h⟩ => h.fits.tidy
  orphans := fun ⟨_, _, h⟩ => h.steady.around.orphans
  user := fun ⟨a, R, h⟩ _ _ hq hp _ => ⟨a, R, h.user hq hp⟩
  leaf := by
    rintro P w id ids q ⟨a, R, h⟩ ⟨callback, rfl⟩ hq hu
    obtain ⟨⟨t, r⟩, hi, lf, hlf, rfl, he, hw⟩ := h.leaf_of_posted hq hu
    obtain ⟨key, hp, hkey⟩ := hw.topic he
    obtain rfl : S.key = key := by simpa using hkey
    have ht := mem_parts.1 hi
    refine ⟨lf, he, ?_, ?_⟩
    · rw [hp]
      exact h.list.symm
    · cases r with
      | path => exact h.turn_path hS hH hn ht hlf
      | member => exact h.turn_member hS hH (fun t ht => (hn t ht).trans (by omega)) ht hlf
      | flag =>
        obtain ⟨l₀, hl₀, hp₀, -⟩ := (h.runs _ hi).key_leaf hS.scope
        obtain rfl : lf = l₀ := by simpa [hl₀] using hlf
        exact absurd (by simpa using hp₀.symm.trans hp) (hS.apart t ht)
  absent := fun ⟨a, R, h⟩ hn => ⟨a, R, h.absent hn⟩

/-- Another list has been put under the key. -/
theorem replaced (hS : S.Wired ts) (h : S.Installed ts 0 l a (fun _ => False) R w) (hfound : l'.index < w.layout.lists) {c : Contents}
    (ha : w.Amid c w') (hlist : c.under S.target S.key = .list l')
    (hother : ∀ key, key ≠ S.key → c.under S.target key = w.contents.under S.target key) (hitems : c.items = w.contents.items) :
    S.Installed ts 1 l' a (fun _ => True) R w' := by
  have hread : ∀ {lf}, Family.Has (parts ts) R lf → lf.place ≠ .entry S.target S.key → lf.Current w'.contents := by
    intro lf hlf hne
    have hc := h.current hlf
    obtain ⟨i, hi, hlf⟩ := hlf
    rw [Leaf.Current, ha.contents]
    rcases watched_of_places ((h.runs i hi).placed lf hlf).place with ⟨key, hp⟩ | ⟨l₀, v, hp⟩
    · rwa [hp, Place.read_entry, hother key fun hk => hne (hk ▸ hp), ← Place.read_entry, ← hp]
    · rwa [hp, Place.read, hitems, ← Place.read, ← hp]
  refine ⟨⟨(h.steady.around.congr ha.layout (by rw [ha.depth, h.steady.around.depth]) ha.config).now, fun _ => rfl, h.steady.paths,
    ⟨l', by rw [ha.contents, hlist]⟩, fun {t} hi _ => ?_, h.steady.lists, fun {t} hi lf hlf => ?_⟩, ha.layout ▸ h.runs,
    ⟨ha.layout ▸ h.fits.has, h.fits.nodup, ha.layout ▸ h.fits.tidy⟩, ha.layout ▸ h.rows, ha.layout ▸ h.slots, ha.layout ▸ h.idle,
    h.members, ha.layout ▸ hfound, by rw [ha.contents, hlist], fun {lf} hlf => ?_, ha.config ▸ h.deep⟩
  · have ht := mem_parts.1 hi
    rw [ha.contents, hother _ (hS.apart t ht), h.even ht]
  · obtain ⟨l₀, hl₀, hp, -⟩ := (h.runs _ hi).key_leaf hS.scope
    obtain rfl : lf = l₀ := by simpa [hl₀] using hlf
    exact hread ⟨_, hi, hlf⟩ fun he => hS.apart t (mem_parts.1 hi) (by simpa using hp.symm.trans he)
  · by_cases hp : lf.place = .entry S.target S.key
    · exact Or.inr ⟨hp, trivial⟩
    · exact Or.inl (hread hlf hp)

/-- Another list is put under the key. -/
theorem set_list (hS : S.Wired ts) (hH : H.Quiet fun _ _ _ _ => True) (hn : ∀ t ∈ ts, 2 * S.turns t.flag + 12 ≤ n)
    (h : S.Installed ts 0 l a (fun _ => False) R w) (hfound' : l'.index < w.layout.lists) :
    (S.target.assign (engine H (n + 10)).reactions S.key (.list l')).Ends w fun _ w' =>
      ∃ a R, S.Installed ts 0 l' a (fun _ => False) R w' := by
  have hdeep := h.deep
  have hdepth := h.steady.around.depth
  have hfound := h.steady.around.found
  have hunder := World.under_put hfound S.key (.list l')
  have hitems := World.items_changed w S.target (Fields.put S.key (.list l'))
  have hgot : ∀ u, Fields.get? S.key (w.contents.entries S.target) = some u → u = .list l := fun u hu => by
    have := h.list
    rwa [Contents.under, hu] at this
  refine ObjectId.assign_ends (fun u hu hs => ?_) (fun _ hv => by cases hv) fun _ => ?_
  · rw [hgot u hu] at hs
    obtain rfl : l' = l := by simpa using Value.eq_of_same_list hs
    exact ⟨a, R, h⟩
  · refine ObjectId.change_ends (n := n + 8) (P := fun _ => False) (U := fun _ => True) (K := fun _ => True)
      (J := fun P _ w => ∃ a R, S.Installed ts 1 l' a P R w) hH (by omega) (fun id callback hq => ?_) (fun _ _ _ => trivial) trivial
      (attends_list hS hH hn) attends_entries (fun w₁ ids ha _ => ?_) (fun w₂ ids h₂ => ?_) fun w₃ h₃ => ?_
    · obtain ⟨p, hp⟩ := h.users hq (by simp)
      exact ⟨p, hp, trivial⟩
    · have h₁ := h.replaced hS hfound' ha (by rw [hunder, if_pos rfl]) (fun key hk => by rw [hunder, if_neg hk]) hitems
      refine ⟨a, R, ⟨h₁.steady, h₁.runs, h₁.fits, h₁.rows, h₁.slots, h₁.idle, h₁.members, h₁.found, h₁.list,
        fun {lf} hlf => (h₁.leaves hlf).imp_right fun hP => ⟨hP.1, Or.inr ?_⟩, h₁.deep⟩⟩
      obtain ⟨i, hi, hlf⟩ := hlf
      have hpost : lf.post = .object S.target (.after S.key) (.forward lf.sink) := by rw [Leaf.post, hP.1]; rfl
      refine ⟨⟨_, hpost⟩, lf.post, ⟨_, hpost⟩, ?_⟩
      exact ((h₁.runs i hi).placed lf hlf).holds.posted (hpost ▸ h₁.steady.around.found)
    · obtain ⟨a₂, R₂, h₂⟩ := h₂
      exact ⟨a₂, R₂, h₂.mono fun _ _ => False.elim⟩
    · obtain ⟨a₃, R₃, h₃⟩ := h₃
      exact ⟨a₃, R₃, h₃.congr rfl (fun _ => rfl) rfl (by simp [h₃.steady.around.depth]) rfl⟩

end Installed

end Panel

end LiveBindings
