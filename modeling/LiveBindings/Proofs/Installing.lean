import LiveBindings.Proofs.Redirect

/-!
# Installing a switch

The two directions of a binding between a flag and the presence of a value in a list are started one after the other. First the
flag is followed: the list under the key is written, and the switches that are there follow it (`Installed.forth`). Then the
presence is followed, which has nothing to write any more (`Installed.back`). When both run there is one more switch
(`Installed.extended`).
-/

namespace LiveBindings

variable {π σ : Type}

section

variable {H : Host π σ} {D : Place → Prop} {need : Nat} {next : Sink π} {V : Value → Prop} {J : Behind π σ Value}
  {F : Multiset Piece} {L : List (Leaf π)} {w : World (Callback π) (Env π σ)}

/-- What is behind something that was handed nothing but values among `V`. -/
def Behind.among (J : Behind π σ Value) (V : Value → Prop) : Behind π σ Value := fun F L o w => J F L o w ∧ ∀ v, o = some v → V v

theorem Accepts.among (h : Accepts H D need next V J) : Accepts H D need next V (J.among V) := by
  refine ⟨fun F L o w G G' w' ⟨hJ, hv⟩ hw ht => ⟨h.stable hJ hw ht, hv⟩, fun {n F L o w v} hn hv ⟨hJ, _⟩ hw => ?_⟩
  refine (h.run hn hv hJ hw).imp ?_
  rintro _ w' ⟨F', L', hJ', h'⟩
  refine ⟨F', L', ⟨hJ', ?_⟩, h'⟩
  rintro _ ⟨⟩
  exact hv

theorem Behind.slot_inner {α : Type} {s : Ref .slot} {Shape : α → Layout π → Running π → Prop} {o : Option α}
    (h : J.slot s Shape F L o w) : ∃ F₀ L₀ o₀, J F₀ L₀ o₀ w := by
  cases o with
  | none =>
    obtain ⟨F₀, o₀, -, -, h⟩ := h
    exact ⟨F₀, L, o₀, h⟩
  | some a =>
    obtain ⟨F₀, L₀, R, g, -, -, -, -, h⟩ := h
    exact ⟨F₀, L₀, _, h⟩

end

namespace Panel

section

variable {S : Panel} {ts : Finset Switch} {H : Host π σ} {d n : Nat} {l : ListId} {a a' : Switch → Aim} {P : Leaf π → Prop}
  {R R' : Switch × Role → Running π} {w w' : World (Callback π) (Env π σ)} {t : Switch}

/-- The cells that there are when a switch is being installed: those of others, and its two flags. -/
def spare (ts : Finset Switch) (t : Switch) : Multiset Piece := pieces ts + ({.flag t.syncing} + {.flag t.ready})

/-- A switch is half installed: its flag is followed, by the observers `RP` and `RF`. The observers of the others have become
`R'`. -/
structure Half (S : Panel) (ts : Finset Switch) (t : Switch) (l : ListId) (a : Switch → Aim) (R : Switch × Role → Running π)
    (w : World (Callback π) (Env π σ)) (m : Value) (RP RF : Running π) (R' : Switch × Role → Running π)
    (w' : World (Callback π) (Env π σ)) : Prop where
  path : Runs (S.reader (π := π) a (t, .path)).places w'.layout (keyExpr S.key) S.scope (S.reader (π := π) a (t, .path)).sink RP
  value : RP.value = .list l
  member : m.same (S.value t.flag) = true
  row : w'.layout.rowIs t.row { values := [.list l, m], ready := true }
  slot : ∃ g, w'.layout.slotIs t.slot { current := RF.handle, generation := g }
  flag : Runs (S.reader (π := π) a (t, .flag)).places w'.layout (keyExpr t.flag) S.scope (S.listSink t ⟨l, m⟩) RF
  steady : Steady S (scene (parts ts) (S.reader (π := π) a (t, .flag)).places (spare ts t) a R w) 0 R' w'
  list : w'.contents.under S.target S.key = .list l
  written : RF.value.truthy = turned (S.turns t.flag) ((S.value t.flag).memberOf (w'.contents.items l))
  runs : Family.Run (S.reader a) (parts ts) R' w'.layout
  moves : Moves (fun p => p = .entry S.target S.key) (Family.owned (parts ts) R + spare ts t)
    (RP.owned + ({.row t.row} + ({.slot t.slot} + RF.owned + (Family.owned (parts ts) R' + spare ts t)))) w w'
  currentPath : ∀ {lf}, lf ∈ RP.leaves → lf.Current w'.contents
  currentFlag : ∀ {lf}, lf ∈ RF.leaves → lf.Current w'.contents
  current : ∀ {lf}, Family.Has (parts ts) R' lf → lf.Current w'.contents

theorem pieces_insert (ht : t ∉ ts) : pieces (insert t ts) = t.pieces + pieces ts := Finset.sum_insert ht

theorem owned_insert (ht : t ∉ ts) (R : Switch × Role → Running π) :
    Family.owned (parts (insert t ts)) R = (R (t, .path)).owned + ((R (t, .flag)).owned + ((R (t, .member)).owned +
      Family.owned (parts ts) R)) := by
  simp only [Family.owned, parts, Finset.sum_product, Finset.sum_insert ht]
  simp
  abel

namespace Installed

/-- Cells are made that no switch uses yet. -/
theorem touch {G : Multiset Piece} (h : S.Installed ts d l a P R w) (t : Touches (Place.posts fun _ => False) 0 G w w') :
    S.Installed ts d l a P R w' := by
  have hw : w.Fits (Family.owned (parts ts) R + pieces ts + 0) := by simpa using h.fits
  have hcell : ∀ {t' p}, t' ∈ ts → p ∈ t'.pieces → w.layout.Same w'.layout p := fun hm hp =>
    t.same hw (Multiset.mem_add.2 (Or.inr (mem_pieces.2 ⟨_, hm, hp⟩)))
  have hrun : Family.Run (S.reader a) (parts ts) R w'.layout :=
    h.runs.same (fun p hp => t.same hw (Multiset.mem_add.2 (Or.inl hp))) t.layout.lists t.layout.objects
  refine ⟨⟨(h.steady.around.touch hw t).now, fun _ => rfl, h.steady.paths, ?_, ?_, h.steady.lists, ?_⟩, hrun, ?_, fun t' hm => ?_,
    fun t' hm => ?_, fun t' hm => ?_, h.members, t.layout.lists ▸ h.found, ?_, ?_, t.config ▸ h.deep⟩
  · exact t.contents ▸ h.steady.list
  · exact t.contents ▸ h.steady.even
  · exact t.contents ▸ h.steady.flags
  · exact ⟨fun p hp => t.layout.grows p (h.fits.has p hp), h.fits.nodup, t.layout.tidy h.fits.tidy⟩
  · exact (h.rows t' hm).same (hcell hm (by simp [Switch.pieces]))
  · obtain ⟨g, hg⟩ := h.slots t' hm
    exact ⟨g, hg.same (hcell hm (by simp [Switch.pieces]))⟩
  · exact ⟨(h.idle t' hm).1.same (hcell hm (by simp [Switch.pieces])), (h.idle t' hm).2.same (hcell hm (by simp [Switch.pieces]))⟩
  · exact t.contents ▸ h.list
  · exact t.contents ▸ h.leaves

/-- One more switch runs, and the others run on. -/
theorem extended (ht : t ∉ ts) (h : S.Installed ts 0 l a (fun _ => False) R w)
    (ha : ∀ t', t' ≠ t → a' t' = a t') (hrun : Family.Run (S.reader a') (parts (insert t ts)) R' w'.layout)
    (hm : Moves (fun _ => False) (Family.owned (parts ts) R + pieces ts)
      (Family.owned (parts (insert t ts)) R' + pieces (insert t ts)) w w')
    (hcur : ∀ {lf}, Family.Has (parts (insert t ts)) R' lf → lf.Current w'.contents)
    (hsame : ∀ p ∈ pieces ts, w.layout.Same w'.layout p)
    (hhandle : ∀ t' ∈ ts, (R' (t', .flag)).handle = (R (t', .flag)).handle)
    (hpaths : ∀ t' ∈ insert t ts, (R' (t', .path)).value = .list (a' t').list)
    (heven : ∀ t' ∈ insert t ts, (w'.contents.under S.target t'.flag).truthy = (R' (t', .member)).value.truthy)
    (hrow : w'.layout.rowIs t.row { values := [.list (a' t).list, (a' t).member], ready := true })
    (hslot : ∃ g, w'.layout.slotIs t.slot { current := (R' (t, .flag)).handle, generation := g })
    (hidle : w'.layout.flagIs t.syncing false ∧ w'.layout.flagIs t.ready true) (hmember : (a' t).member.same (S.value t.flag) = true)
    (hlist : w'.contents.under S.target S.key = .list l) : S.Installed (insert t ts) 0 l a' (fun _ => False) R' w' := by
  have hcases : ∀ {t'}, t' ∈ insert t ts → t' = t ∨ (t' ≠ t ∧ t' ∈ ts) := fun hm =>
    (Finset.mem_insert.1 hm).imp id fun hm => ⟨fun he => ht (he ▸ hm), hm⟩
  have hcell : ∀ {t' p}, t' ∈ ts → p ∈ t'.pieces → w.layout.Same w'.layout p := fun hm hp => hsame _ (mem_pieces.2 ⟨_, hm, hp⟩)
  have hfits := hm.fits h.fits
  have hr := hm.layout
  have haround := h.steady.around
  refine ⟨⟨⟨hr.objects ▸ haround.found, hr.orphans.trans haround.orphans, hm.depth.trans haround.depth, rfl, plain_pieces _,
    fun p _ => .refl _ p, fun {id q} hq => ?_⟩, fun _ => rfl, fun {t'} hi => hpaths t' (mem_parts.1 hi), ⟨l, hlist⟩,
      fun {t'} hi _ => heven t' (mem_parts.1 hi), fun {i} hi lf hlf hp => ?_, fun hi lf hlf => hcur ⟨_, hi, hlf⟩⟩, hrun, hfits,
    fun t' hi => ?_, fun t' hi => ?_, fun t' hi => ?_, fun t' hi => ?_, hr.lists ▸ h.found, hlist, fun hl => Or.inl (hcur hl), ?_⟩
  · by_cases hid : .listener id ∈ Family.owned (parts (insert t ts)) R'
    · exact Or.inr (Or.inl hid)
    · obtain ⟨hq', hn⟩ := hr.posted hq fun hmem => (Multiset.mem_add.1 hmem).elim hid (plain_pieces _ id)
      exact (haround.closed hq').imp_right fun hm => hm.imp_left fun hm => absurd (Multiset.mem_add.2 (Or.inl hm)) hn
  · have hc := hcur ⟨i, hi, hlf⟩
    rw [Leaf.Current, hp, Place.read_entry, hlist] at hc
    exact ⟨l, Value.eq_of_same_list (Value.same_symm hc)⟩
  · rcases hcases hi with rfl | ⟨hne, hm'⟩
    · exact hrow
    · rw [ha _ hne]
      exact (h.rows t' hm').same (hcell hm' (by simp [Switch.pieces]))
  · rcases hcases hi with rfl | ⟨hne, hm'⟩
    · exact hslot
    · obtain ⟨g, hg⟩ := h.slots t' hm'
      rw [hhandle t' hm']
      exact ⟨g, hg.same (hcell hm' (by simp [Switch.pieces]))⟩
  · rcases hcases hi with rfl | ⟨hne, hm'⟩
    · exact hidle
    · obtain ⟨h₁, h₂⟩ := h.idle t' hm'
      exact ⟨h₁.same (hcell hm' (by simp [Switch.pieces])), h₂.same (hcell hm' (by simp [Switch.pieces]))⟩
  · rcases hcases hi with rfl | ⟨hne, hm'⟩
    · exact hmember
    · rw [ha _ hne]
      exact h.members t' hm'
  · rw [hm.config]
    exact h.deep

/-- The flag is followed: the list is written, and it is what the flag says. -/
theorem forth (hS : S.Wired (insert t ts)) (hH : H.Quiet fun _ _ _ _ => True) (hn : ∀ t ∈ ts, 2 * S.turns t.flag + 12 ≤ n)
    (halone : ∀ t' ∈ ts, t'.flag ≠ t.flag) (h : S.Installed ts 0 l a (fun _ => False) R w)
    (hw : w.Fits (Family.owned (parts ts) R + spare ts t))
    (hf : w.layout.flagIs t.syncing false) :
    (bindPlace (engine H (n + 14)) .toggle (keyExpr S.key) (S.member t.flag) (S.source t) S.scope).Ends w fun _ w' =>
      ∃ row slot m RP RF R', S.Half ts { t with row, slot } l a R w m RP RF R' w' := by
  have hdeep := h.deep
  obtain ⟨E, hE⟩ : ∃ E, E = spare ts t := ⟨_, rfl⟩
  rw [← hE] at hw
  rw [spare] at hE
  let C := scene (parts ts) (S.reader (π := π) a (t, .flag)).places E a R w
  have hplain : ∀ id, .listener id ∉ E := fun id hid => plain_pieces ts id (by simpa [hE] using hid)
  have hts : t ∉ ts := fun hm => halone t hm rfl
  have hC : C.Lends S t := by
    refine h.lends hS (Finset.Subset.refl _) (by simpa using hts) (fun t' hm _ => mem_parts.2 hm) (fun t' hm => ?_) ⟨by simp [hE], hf⟩
      fun t' hm => ?_
    · have hmem : ∀ {p}, p ∈ t'.pieces → p ∈ E := fun hp => by
        rw [hE]
        exact Multiset.mem_add.2 (Or.inl (mem_pieces.2 ⟨t', hm, hp⟩))
      exact ⟨hmem (by simp [Switch.pieces]), hmem (by simp [Switch.pieces])⟩
    · have hn := hw.right.nodup
      rw [hE] at hn
      have hne : ∀ {f}, .flag f ∈ t'.pieces → f ≠ t.syncing := fun hp he =>
        Multiset.disjoint_left.1 (Multiset.nodup_add.1 hn).2.2 (mem_pieces.2 ⟨t', hm, hp⟩) (by simp [he])
      exact ⟨fun _ => hne (by simp [Switch.pieces]), hne (by simp [Switch.pieces])⟩
  obtain ⟨L, hL⟩ := Family.exists_leaves (parts ts) R
  have htog : Toggling S C 0 t l (w.contents.under S.target t.flag) R E none w :=
    ⟨rfl, h.among (Finset.Subset.refl _) hplain fun i hi hi' => absurd hi hi', h.found, h.list, rfl, fun lf hlf _ => h.current hlf,
      fun ht => absurd (mem_parts.1 ht) hts, fun ht => absurd (mem_parts.1 ht) hts, by simp⟩
  have hdepth : 0 + 1 < C.config.maxDispatchDepth := by
    simp only [C, scene]
    omega
  have hfuel : ∀ {t'}, (t', Role.member) ∈ C.parts → 2 * S.turns t'.flag + 12 ≤ n := fun hm => hn _ (mem_parts.1 hm)
  have hreacts := hC.reacts (d := 0) (l := l) hH hdepth hfuel (w.contents.under S.target t.flag)
  have hstable := (hC.writes (d := 0) (l := l) (u := w.contents.under S.target t.flag) hH hdepth hfuel (Value.same_refl _)).stable
  have hJ : Behind.family (S.reader a) (parts ts) (Toggling S C 0 t l (w.contents.under S.target t.flag))
      (Family.owned (parts ts) R + E) L none w := ⟨R, E, rfl, hL, h.runs, htog⟩
  have hx := hS.fixed t (Finset.mem_insert_self _ _)
  refine (bindPlace_ends (C := fun R => R.value = .list l) (y := S.value t.flag) hreacts (hstable.narrow fun p hp => Or.inl hp)
    (fun {slot row F L w₁} hJ₁ hw₁ => ?_) (fun E next => ?_) ?_ (by omega) hJ hw).imp fun _ w' h' => ?_
  · -- The list is found under the key.
    have hacc := ((hreacts slot).argument (fun v => v = .list l) row 0 [.undefined, .undefined] false (by simp) (by simp)).among
    have hstart := keyExpr_started (D := fun p => p = .entry S.target S.key) (n := n + 14) (o := none) hS.scope rfl hacc (fun hJ => by
      obtain ⟨⟨F₀, x, o', -, -, -, -, hJ⟩, -⟩ := hJ
      obtain ⟨_, _, _, R₂, E₂, -, -, -, ht⟩ := Behind.slot_inner hJ
      exact ht.list) (by omega) ⟨hJ₁, by simp⟩ hw₁
    refine hstart.imp ?_
    rintro _ w₂ ⟨RP, F', L', hh, hRP, ⟨hJ', hv⟩, hm, hr⟩
    exact ⟨RP, F', L', hh, ⟨hRP, hv _ rfl⟩, hJ', hm, hr⟩
  · exact hx.start E next
  · intro RP x y' hRP hxv hy
    rw [hRP] at hxv
    exact ⟨y', by rw [Value.eq_of_same_list (Value.same_symm hxv)], hy⟩
  · obtain ⟨row, slot, g, x, y', RP, RF, F', L', hRP, hPv, hxv, hy, hrow, hslot, ⟨list, m, hvs, hRF⟩, hbehind, hm, hr⟩ := h'
    obtain ⟨R', E', rfl, hL', hrun, ht⟩ := hbehind
    obtain ⟨rfl, rfl⟩ : x = .list list ∧ y' = m := by simpa using hvs
    obtain rfl : list = l := by
      rw [hPv] at hxv
      simpa using (Value.eq_of_same_list hxv).symm
    obtain rfl : E' = E := ht.extra
    have hcur : ∀ {lf}, lf ∈ RP.leaves ++ (RF.leaves ++ L') → lf.Current w'.contents := fun {lf} hlf => by
      rcases hr lf hlf with hc | ⟨hold, hread⟩
      · exact hc
      · rw [Leaf.Current, hread]
        exact h.current ((hL lf).1 hold)
    obtain rfl := hE
    have hwritten := ht.written (fun hm => hts (mem_parts.1 hm)) _ rfl
    exact ⟨row, slot, y', RP, RF, R', hRP, hPv, hy, hrow, ⟨g, hslot⟩, hRF, ht.steady, ht.list, hwritten, hrun, hm,
      fun hlf => hcur (by simp [hlf]), fun hlf => hcur (by simp [hlf]), fun hlf => hcur (by simp [(hL' _).2 hlf])⟩

/-- The presence is followed; before the binding is ready nothing is written. -/
theorem back (hS : S.Wired (insert t ts)) {F : Multiset Piece} (hlist : w.contents.under S.target S.key = .list l) (hw : w.Fits F)
    (hg : .flag t.ready ∈ F ∧ w.layout.flagIs t.ready false) (hn : 2 * S.turns t.flag + 11 ≤ n) :
    (bindPlace (engine H n) .assign .value (.literal (.text t.flag))
      (.guarded (presenceExpr S.key (S.member t.flag) (S.turns t.flag)) S.scope t.syncing (some t.ready)) S.scope).Ends w fun _ w' =>
      ∃ RM, Runs (S.reader (π := π) a (t, .member)).places w'.layout (presenceExpr S.key (S.member t.flag) (S.turns t.flag)) S.scope
          (S.flagSink t) RM ∧
        Moves (fun _ => True) F (RM.owned + F) w w' ∧ (∀ p ∈ F, w.layout.Same w'.layout p) ∧ w'.contents = w.contents ∧
          ∀ lf ∈ RM.leaves, lf.Current w.contents := by
  have hx := hS.fixed t (Finset.mem_insert_self _ _)
  have hsize := presenceExpr_size S.key hx (S.turns t.flag)
  let J : Behind π σ Value := fun F' L' _ w' => F' = F ∧ L' = [] ∧ (∀ p ∈ F, w.layout.Same w'.layout p) ∧ w'.contents = w.contents
  have hJ : J.Stable fun _ => True := by
    rintro F L o w₁ G G' w₂ ⟨rfl, rfl, hsame, hc⟩ hw₁ t₁
    exact ⟨rfl, rfl, fun p hp => (hsame p hp).trans (t₁.same hw₁ hp), t₁.contents.trans hc⟩
  have hacc : Accepts H (fun _ => True) 0 (S.flagSink (π := π) t) (fun _ => True) J :=
    Accepts.dropped hJ (fun _ h => h) fun ⟨_, _, hsame, _⟩ => Or.inr ⟨_, rfl, hg.2.same (hsame _ hg.1)⟩
  have hfeeds : Source.Feeds H (fun _ => True)
      (.guarded (presenceExpr S.key (S.member t.flag) (S.turns t.flag)) S.scope t.syncing (some t.ready)) S.target t.flag J
      (2 * (S.turns t.flag + 5)) (S.turns t.flag + 5)
      fun K R => Runs (fun _ => True) K (presenceExpr S.key (S.member t.flag) (S.turns t.flag)) S.scope (S.flagSink t) R := by
    refine ⟨hJ, hsize ▸ Runs.stopping _ _ _, fun hn hJ hw => ?_⟩
    have hscalar := presenceExpr_scalar S.key hx (S.turns t.flag)
    exact hscalar.starts (hscalar.covered _) (o := none) hacc (fun _ _ => trivial) (by rw [hsize]; omega) hJ hw
  refine (bindPlace_started (o := none) hfeeds hS.scope (by omega) (by omega) (L := []) ⟨rfl, rfl, fun p _ => .refl _ p, rfl⟩ hw).imp
    fun _ w' h' => ?_
  obtain ⟨RM, F', L', hRM, ⟨rfl, rfl, hsame, hc⟩, hm, hr⟩ := h'
  have hcur : ∀ lf ∈ RM.leaves, lf.Current w.contents := fun lf hlf => by
    rw [← hc]
    exact (hr lf (by simpa using hlf)).resolve_right fun h => by simp at h
  refine ⟨RM, hRM.narrow fun lf hlf => ?_, hm, hsame, hc, hcur⟩
  -- It watches the key and the presence in the list found there.
  obtain ⟨lk, ls, hls, hp, hrest⟩ := hRM.presence hS.scope hx
  have hk := hcur lk (by simp [hls])
  rw [Leaf.Current, hp, Place.read_entry, hlist] at hk
  obtain ⟨le, m, rfl, hp', -⟩ := hrest l (Value.eq_of_same_list (Value.same_symm hk))
  rw [hls, List.mem_cons, List.mem_singleton] at hlf
  rcases hlf with rfl | rfl
  · exact Or.inl ⟨_, (hS.apart t (Finset.mem_insert_self _ _)).symm, hp⟩
  · exact Or.inr ⟨l, m, hp'⟩

end Installed

/-- Both directions run, and the binding is ready. -/
theorem Half.joined {m : Value} {RP RF RM : Running π} {w₀ w₁ w₂ w₃ : World (Callback π) (Env π σ)} (hS : S.Wired (insert t ts))
    (ht : t ∉ ts) (h₀ : S.Installed ts 0 l a (fun _ => False) R w₀)
    (t₀ : Touches (Place.posts fun _ => False) 0 ({.flag t.syncing} + {.flag t.ready}) w₀ w) (hf : w.layout.flagIs t.syncing false)
    (h : S.Half ts t l a R w m RP RF R' w₁) {F : Multiset Piece}
    (hF : F = RP.owned + ({.row t.row} + ({.slot t.slot} + RF.owned + (Family.owned (parts ts) R' + spare ts t))))
    (hRM : Runs (S.reader (π := π) a (t, .member)).places w₂.layout (presenceExpr S.key (S.member t.flag) (S.turns t.flag)) S.scope
      (S.flagSink t) RM) (hm₂ : Moves (fun _ => True) F (RM.owned + F) w₁ w₂) (hsame₂ : ∀ p ∈ F, w₁.layout.Same w₂.layout p)
    (hc₂ : w₂.contents = w₁.contents) (hcur₂ : ∀ lf ∈ RM.leaves, lf.Current w₁.contents)
    (t₃ : Touches (Place.posts fun _ => False) {.flag t.ready} {.flag t.ready} w₂ w₃) (hready : w₃.layout.flagIs t.ready true) :
    ∃ R'', S.Installed (insert t ts) 0 l (Function.update a t ⟨l, m⟩) (fun _ => False) R'' w₃ := by
  have hc₃ : w₃.contents = w₁.contents := t₃.contents.trans hc₂
  let R'' := Function.update (Function.update (Function.update R' (t, .path) RP) (t, .flag) RF) (t, .member) RM
  have hP : R'' (t, .path) = RP := by simp [R'']
  have hR : R'' (t, .flag) = RF := by simp [R'']
  have hM : R'' (t, .member) = RM := by simp [R'']
  have hne : ∀ {t'}, t' ∈ ts → t' ≠ t := fun hm he => ht (he ▸ hm)
  have hother : ∀ {t' r}, t' ∈ ts → R'' (t', r) = R' (t', r) := fun {t' r} hm => by simp [R'', hne hm]
  have howned : Family.owned (parts ts) R'' = Family.owned (parts ts) R' :=
    Family.owned_congr fun ⟨t', r⟩ hi => hother (mem_parts.1 hi)
  -- The pieces, and what happened to them.
  have hw : w.Fits (Family.owned (parts ts) R + spare ts t) :=
    (h₀.fits.touch (t₀.more h₀.fits)).of_le (le_of_eq (by simp only [spare]; abel))
  have hw₁ : w₁.Fits F := hF ▸ h.moves.fits hw
  obtain ⟨F₀, hF₀⟩ : ∃ F₀, F₀ = RP.owned + ({.row t.row} + ({.slot t.slot} + RF.owned + (Family.owned (parts ts) R' +
    (pieces ts + {.flag t.syncing})))) := ⟨_, rfl⟩
  have hFF₀ : F = F₀ + {.flag t.ready} := by
    rw [hF, hF₀, spare]
    abel
  have hw₂ : w₂.Fits (RM.owned + F₀ + {.flag t.ready}) := (hm₂.fits (by simpa using hw₁)).of_le (le_of_eq (by rw [hFF₀]; abel))
  have hsame : ∀ p ∈ F₀, w₁.layout.Same w₃.layout p := fun p hp =>
    (hsame₂ p (by rw [hFF₀]; exact Multiset.mem_add.2 (Or.inl hp))).trans (t₃.same hw₂ (Multiset.mem_add.2 (Or.inr hp)))
  have hmoves : Moves (fun _ => False) (Family.owned (parts ts) R + pieces ts)
      (Family.owned (parts (insert t ts)) R'' + pieces (insert t ts)) w₀ w₃ := by
    have m₀ : Moves (fun _ => False) (Family.owned (parts ts) R + pieces ts) (Family.owned (parts ts) R + spare ts t) w₀ w :=
      (t₀.more h₀.fits).moves.cast rfl (by simp only [spare]; abel)
    have m₁ : Moves (fun _ => False) (Family.owned (parts ts) R + spare ts t) F w w₁ := hF ▸ { h.moves with reads := nofun }
    have m₂ : Moves (fun _ => False) F (RM.owned + F₀ + {.flag t.ready}) w₁ w₂ :=
      ({ hm₂ with reads := nofun } : Moves (fun _ => False) F (RM.owned + F) w₁ w₂).cast rfl (by rw [hFF₀]; abel)
    refine (m₀.trans (m₁.trans (m₂.trans (t₃.frame hw₂).moves))).cast rfl ?_
    rw [owned_insert ht, pieces_insert ht, howned, hP, hR, hM, hF₀, Switch.pieces]
    abel
  have hin : ∀ {p}, p ∈ RP.owned ∨ p = .row t.row ∨ p = .slot t.slot ∨ p ∈ RF.owned ∨ p ∈ Family.owned (parts ts) R' ∨ p ∈ pieces ts ∨
      p = .flag t.syncing → w₁.layout.Same w₃.layout p := fun hp => hsame _ (by
      simpa only [hF₀, Multiset.mem_add, Multiset.mem_singleton, or_assoc] using hp)
  have hsees : ∀ ls : List (Leaf π), w₁.layout.Sees w₃.layout ls := Layout.Sees.of_eq
    (t₃.layout.lists.trans hm₂.layout.lists) (t₃.layout.objects.trans hm₂.layout.objects)
  have hfrozen : ∀ {p}, p ∈ spare ts t → w.layout.Same w₁.layout p := fun hp => h.steady.around.frozen _ hp
  -- Whether an observer is an old one or one of the three.
  have hparts : ∀ {t' r}, (t', r) ∈ parts (insert t ts) → t' = t ∨ (t' ≠ t ∧ (t', r) ∈ parts ts) := fun hi =>
    (Finset.mem_insert.1 (mem_parts.1 hi)).imp id fun hm => ⟨hne hm, mem_parts.2 hm⟩
  have hrun : Family.Run (S.reader (Function.update a t ⟨l, m⟩)) (parts (insert t ts)) R'' w₃.layout := by
    rintro ⟨t', r⟩ hi
    rcases hparts hi with rfl | ⟨hne', hi'⟩
    · cases r with
      | path =>
        rw [hP]
        exact h.path.same (fun p hp => hin (Or.inl hp)) (hsees _)
      | flag =>
        rw [hR, reader, Function.update_self]
        exact h.flag.same (fun p hp => hin (by simp [hp])) (hsees _)
      | member =>
        rw [hM]
        exact hRM.same (fun p hp => t₃.same hw₂ (by simp [hp])) (Layout.Sees.of_eq t₃.layout.lists t₃.layout.objects _)
    · rw [hother (mem_parts.1 hi'), reader_congr a fun _ => Function.update_of_ne hne' ..]
      exact (h.runs _ hi').same (fun p hp => hin (by simp [Family.mem_owned.2 ⟨_, hi', hp⟩])) (hsees _)
  have hcur : ∀ {lf}, Family.Has (parts (insert t ts)) R'' lf → lf.Current w₃.contents := by
    rintro lf ⟨⟨t', r⟩, hi, hlf⟩
    rw [hc₃]
    rcases hparts hi with rfl | ⟨hne', hi'⟩
    · cases r with
      | path => exact h.currentPath (hP ▸ hlf)
      | flag => exact h.currentFlag (hR ▸ hlf)
      | member => exact hcur₂ _ (hM ▸ hlf)
    · exact h.current ⟨_, hi', hother (mem_parts.1 hi') ▸ hlf⟩
  have hx := hS.fixed t (Finset.mem_insert_self _ _)
  refine ⟨R'', h₀.extended (l := l) ht (fun t' hne => Function.update_of_ne hne ..) hrun hmoves hcur (fun p hp => ?_) (fun t' hm => ?_)
    (fun t' hm => ?_) (fun t' hm => ?_) ?_ ?_ ⟨?_, hready⟩ ?_ ?_⟩
  · refine (t₀.same (F := Family.owned (parts ts) R + pieces ts) (by simpa using h₀.fits) (by simp [hp])).trans ?_
    exact (hfrozen (by simp [spare, hp])).trans (hin (by simp [hp]))
  · rw [hother hm, h.steady.handles (mem_parts.2 hm)]
    rfl
  · rcases Finset.mem_insert.1 hm with rfl | hm
    · rw [hP, h.value, Function.update_self]
    · rw [hother hm, Function.update_of_ne (hne hm)]
      exact h.steady.paths (mem_parts.2 hm)
  · rw [hc₃]
    rcases Finset.mem_insert.1 hm with rfl | hm
    · -- The presence is what the flag says.
      obtain ⟨lf, hlf, hp, hv⟩ := h.flag.key_leaf hS.scope
      have hc := h.currentFlag (show lf ∈ _ by simp [hlf])
      rw [Leaf.Current, hp, Place.read_entry] at hc
      rw [← Value.truthy_eq_of_same (Value.same_trans hv hc), h.written, hM]
      obtain ⟨lk, ls, hls, hpk, hrest⟩ := hRM.presence hS.scope hx
      have hk := hcur₂ lk (by simp [hls])
      rw [Leaf.Current, hpk, Place.read_entry, h.list] at hk
      obtain ⟨le, m', rfl, hpe, hm', hv'⟩ := hrest l (Value.eq_of_same_list (Value.same_symm hk))
      have he := hcur₂ le (by simp [hls])
      rw [Leaf.Current, hpe, Place.read] at he
      rw [hv', Value.truthy_eq_of_same he, Value.memberOf_eq_of_same hm']
      rfl
    · rw [hother hm]
      exact h.steady.even (mem_parts.2 hm) (mem_parts.2 hm)
  · rw [Function.update_self]
    exact h.row.same (hin (by simp))
  · obtain ⟨g, hg⟩ := h.slot
    rw [hR]
    exact ⟨g, hg.same (hin (by simp))⟩
  · exact (hf.same (hfrozen (by simp [spare]))).same (hin (by simp))
  · rw [Function.update_self]
    exact h.member
  · rw [hc₃]
    exact h.list


/-- What installs a switch. -/
def install (S : Panel) (E : Engine π σ) (flag : String) : Live π σ (Cancel π) := do
  let syncing ← newFlag
  let ready ← newFlag
  let there ← bindPlace E .toggle (keyExpr S.key) (S.member flag)
    ((Source.inverse Value.negated)^[S.turns flag] (.guarded (keyExpr flag) S.scope syncing none)) S.scope
  let back ← bindPlace E .assign .value (.literal (.text flag))
    (.guarded (presenceExpr S.key (S.member flag) (S.turns flag)) S.scope syncing (some ready)) S.scope
  setFlag ready true
  return .join [back, there]

/-- A switch is installed beside others. -/
theorem Installed.install_ends {flag : String} (hS : ∀ t : Switch, t.flag = flag → S.Wired (insert t ts))
    (hH : H.Quiet fun _ _ _ _ => True) (hn : ∀ t ∈ ts, 2 * S.turns t.flag + 12 ≤ n) (hn' : 2 * S.turns flag + 12 ≤ n)
    (halone : ∀ t' ∈ ts, t'.flag ≠ flag) (h : S.Installed ts 0 l a (fun _ => False) R w) :
    (S.install (engine H (n + 14)) flag).Ends w fun _ w' =>
      ∃ t a R, t.flag = flag ∧ S.Installed (insert t ts) 0 l a (fun _ => False) R w' := by
  simp only [install, Run.ends_bind, Run.ends_pure]
  -- Two flags.
  refine newFlag_ends (N := Place.posts fun _ => False) fun f w₁ _ t₁ hf => ?_
  refine newFlag_ends (N := Place.posts fun _ => False) fun g w₂ _ t₂ hg => ?_
  have hw₁ := h.fits.touch (t₁.more h.fits)
  replace hf := hf.same (t₂.same (F := {.flag f}) (by simpa using hw₁.left) (Multiset.mem_singleton_self _))
  -- Where the row and the slot will be does not matter to those that are told on the way.
  let t₀ : Switch := ⟨flag, ⟨0⟩, ⟨0⟩, f, g⟩
  have t₁₂ : Touches (Place.posts fun _ => False) 0 ({.flag f} + {.flag g}) w w₂ :=
    t₁.trans ((t₂.more (F := {.flag f}) hw₁.left).cast rfl (add_comm _ _))
  have h₂ := h.touch t₁₂
  have hw₂ : w₂.Fits (Family.owned (parts ts) R + spare ts t₀) :=
    (h.fits.touch (t₁₂.more h.fits)).of_le (le_of_eq (by simp only [spare, t₀]; abel))
  refine (Installed.forth (t := t₀) (hS t₀ rfl) hH hn halone h₂ hw₂ hf).imp fun _ w₃ h₃ => ?_
  obtain ⟨row, slot, m, RP, RF, R', h₃⟩ := h₃
  let t : Switch := { t₀ with row, slot }
  have hw₃ := h₃.moves.fits hw₂
  have hg₃ : w₃.layout.flagIs g false := hg.same (h₃.steady.around.frozen (.flag g) (by simp [scene, spare, t₀]))
  refine (Installed.back (a := a) (t := t) (hS t rfl) h₃.list hw₃ ⟨by simp [spare, t, t₀], hg₃⟩ (by simp only [t, t₀]; omega)).imp
    fun _ w₄ h₄ => ?_
  obtain ⟨RM, hRM, hm₄, hsame₄, hc₄, hcur₄⟩ := h₄
  -- The binding is ready.
  refine setFlag_ends (N := Place.posts fun _ => False) (hg₃.same (hsame₄ _ (by simp [spare, t₀]))) fun w₅ t₅ hg₅ => ?_
  obtain ⟨R'', h₅⟩ := h₃.joined (t := t) (hS t rfl) (fun hm => halone t hm rfl) h t₁₂ hf rfl hRM hm₄ hsame₄ hc₄ hcur₄ t₅ hg₅
  exact ⟨t, _, R'', rfl, h₅⟩

end

end Panel

end LiveBindings
