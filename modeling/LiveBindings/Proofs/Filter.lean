import LiveBindings.Proofs.Recording

/-!
# Filtering

A view that filters keeps in its list the elements whose latest result is true, in their order and as often as they occur. It
never looks for an element: where one stands in the list follows from counting the true results before it.

`Reaches.shows_filtered` is the result: whatever the view is told and whatever its neighbours do meanwhile, its list is what filtering the
elements anew by their latest results would give; each step splices the list at most once, and a result that is as true as the one
before leaves the list alone.
-/

namespace LiveBindings

variable {π σ : Type}

/-- The flags after a run of them has been replaced. -/
theorem KeptCounts.flags_replace (k : KeptCounts) (index removed : Nat) (plus : List Bool) :
    (k.replace index removed plus).flags = k.flags.take index ++ plus ++ k.flags.drop (index + removed) := by
  have htake : k.flags.take (min index (min (index + removed) k.flags.length)) = k.flags.take index :=
    List.take_eq_take_iff.2 (by omega)
  rw [replace, flags_ofFlags, htake, ← List.drop_eq_drop_min]

/-- The elements whose results are true. -/
def filtered (up latest : List Value) : List Value := ((up.zip latest).filter fun p => p.2.truthy).map (·.1)

/-- The elements of the rows with a true result. -/
def Row.kept (rows : List Row) : List Value := (rows.filter (·.output.truthy)).map (·.input)

namespace Row

@[simp] theorem kept_nil : kept [] = [] := rfl

@[simp] theorem kept_append (xs ys : List Row) : kept (xs ++ ys) = kept xs ++ kept ys := by simp [kept]

theorem kept_cons (x : Row) (xs : List Row) : kept (x :: xs) = (if x.output.truthy then [x.input] else []) ++ kept xs := by
  by_cases h : x.output.truthy = true <;> simp [kept, h]

/-- As many elements are kept as there are true results. -/
theorem length_kept (rows : List Row) : (kept rows).length = (rows.map (·.output.truthy)).count true := by
  simp [kept, List.count_eq_countP, List.countP_map, ← List.countP_eq_length_filter, Function.comp_def]

theorem filtered_eq (rows : List Row) : filtered (rows.map (·.input)) (rows.map (·.output)) = kept rows := by
  induction rows with
  | nil => rfl
  | cons x rows ih =>
    rw [kept_cons, ← ih]
    by_cases h : x.output.truthy = true <;> simp [filtered, h]

theorem keepTrue_eq (rows : List Row) : keepTrue (rows.map (·.input)) (rows.map (·.output)) = kept rows := filtered_eq rows

end Row

namespace Neighbours

variable {N : Neighbours π σ} {E : Engine π σ} {observer : π → Value → Live π σ Unit} {D : Desk} {light : Set (Cancel π)}
  {output : ListId} {xs fresh : List Row} {kept : KeptCounts} {w w' : World (Callback π) (Env π σ)} {S T : Set Part}

/-- A view that filters is up to date with its rows. -/
structure Filters (N : Neighbours π σ) (D : Desk) (light : Set (Cancel π)) (output : ListId) (xs : List Row)
    (w : World (Callback π) (Env π σ)) : Prop where
  rows : N.Rows D light xs w
  view : ∃ kept, N.Keeps D.owner (.filter output D.relations kept) w ∧ kept.Correct ∧ kept.flags = xs.map (·.output.truthy)
  owns : N.Owns w (.list output)
  items : SameItems (w.listCell output).items (Row.kept xs)

/-- The count before a row is the number of elements kept of the rows before it. -/
theorem before_eq {xs : List Row} (h : kept.Correct) (hf : kept.flags = xs.map (·.output.truthy)) (stop : Nat) :
    kept.before stop = (Row.kept (xs.take stop)).length := by
  rw [h.before_eq, hf, Row.length_kept, List.map_take]

/-- Where the elements of a run of rows stand among those that are kept. -/
theorem replaceRun_kept (xs : List Row) {index stop : Nat} (h : index ≤ stop) (fresh : List Row) :
    replaceRun (Row.kept xs) (Row.kept (xs.take index)).length
      ((Row.kept (xs.take stop)).length - (Row.kept (xs.take index)).length) (Row.kept fresh) =
        Row.kept (xs.take index ++ fresh ++ xs.drop stop) := by
  have hstop : xs.take stop = xs.take index ++ (xs.take stop).drop index := by
    conv_lhs => rw [← List.take_append_drop index (xs.take stop), List.take_take, Nat.min_eq_left h]
  have hle : (Row.kept (xs.take index)).length ≤ (Row.kept (xs.take stop)).length := by
    rw [hstop, Row.kept_append, List.length_append]
    exact Nat.le_add_right ..
  have hfirst : Row.kept xs = Row.kept (xs.take index) ++ Row.kept (xs.drop index) := by
    rw [← Row.kept_append, List.take_append_drop]
  have hlast : Row.kept xs = Row.kept (xs.take stop) ++ Row.kept (xs.drop stop) := by
    rw [← Row.kept_append, List.take_append_drop]
  rw [replaceRun, Nat.add_sub_cancel' hle, Row.kept_append, Row.kept_append]
  congr 1
  · rw [hfirst, List.take_left]
  · rw [hlast, List.drop_left]

namespace Filters

theorem lasting (hN : N.Around E) : N.Lasting (N.Filters D light output xs) := by
  intro w w' q hw h hf
  obtain ⟨kept, hk, hkept⟩ := hf.view
  have hl := hN.owns_during hw hf.owns q
  have hsame : (w'.listCell output).items = (w.listCell output).items := h.same _ hl (Set.notMem_empty _)
  exact ⟨Rows.lasting hN q hw h hf.rows, ⟨kept, Keeps.lasting hN q hw h hk, hkept⟩, h.owns _ hl, by rw [hsame]; exact hf.items⟩

/-- Some of the elements were replaced. -/
theorem splice (hN : N.Around E) (hE : N.Evaluates E D light) (hw : N.calm w) (room : w.Admits) (h : N.Filters D light output xs w)
    (index removed : Nat) (plus : List Value) :
    (Block.splice E D.owner index removed plus).Ends w fun _ w' => (N.calm w' ∧ N.Spliced E output w w') ∧
      ∃ fresh, fresh.map (·.input) = plus ∧ (∀ x ∈ fresh, N.Evaluated E D x.input x.output) ∧
        N.Filters D light output (xs.take index ++ fresh ++ xs.drop (index + removed)) w' := by
  obtain ⟨kept, hk, hcorrect, hflags⟩ := h.view
  simp only [Block.splice, Run.ends_bind, ends_envCells, hk.block?, Run.ends_discard]
  refine (hN.splice_rows hE hw h.rows index removed plus).imp fun outs w₁ ended => ?_
  obtain ⟨h₁, fresh, houts, hplus, hev, hrows⟩ := ended
  have hk₁ := hk.after h₁ (by simp)
  have hl₁ := h₁.owns _ h.owns
  have hu₁ : N.Untouched output w w₁ := h₁.untouched h.owns (by simp) (Set.notMem_empty _)
  simp only [keptOf, Run.ends_bind, ends_envCells, hk₁.block?, Run.ends_pure, setKept]
  refine (hk₁.modify hN h₁.calm _).imp fun _ w₂ ended => ?_
  obtain ⟨h₂, hk₂⟩ := ended
  have hl₂ := h₂.owns _ hl₁
  have hu₂ : N.Untouched output w₁ w₂ := h₂.untouched hl₁ (by simp) (Set.notMem_empty _)
  refine (hN.splice_spliced h₂.calm hl₂ (h₂.admits (h₁.admits room)) _ _ _).imp fun _ w₃ ended => ?_
  obtain ⟨h₃, hs₃⟩ := ended
  refine ⟨⟨h₃.changes.calm, .after hu₁ (.after hu₂ hs₃)⟩, fresh, hplus, hev, ?_, ?_, h₃.owns hl₂, ?_⟩
  · exact (hrows.after h₂ (by simp)).after h₃.changes (by simp)
  · refine ⟨_, hk₂.after h₃.changes (by simp), KeptCounts.correct_ofFlags _, ?_⟩
    rw [KeptCounts.flags_replace, hflags, houts]
    simp [List.map_take, List.map_drop, Function.comp_def]
  · rw [h₃.items, hu₂.items, hu₁.items, before_eq hcorrect hflags, before_eq hcorrect hflags, houts, ← hplus, Row.keepTrue_eq]
    have hrun := h.items.replaceRun (Row.kept (xs.take index)).length
      ((Row.kept (xs.take (index + removed))).length - (Row.kept (xs.take index)).length) (.refl (Row.kept fresh))
    rwa [replaceRun_kept xs (Nat.le_add_right ..)] at hrun

/-- The collection became another one. -/
theorem reset (hN : N.Around E) (hE : N.Evaluates E D light) (hw : N.calm w) (room : w.Admits) (h : N.Filters D light output xs w)
    (items : List Value) :
    (Block.reset E D.owner items).Ends w fun _ w' => (N.calm w' ∧ N.Spliced E output w w') ∧
      ∃ fresh, fresh.map (·.input) = items ∧ (∀ x ∈ fresh, N.Evaluated E D x.input x.output) ∧ N.Filters D light output fresh w' := by
  obtain ⟨kept, hk, -⟩ := h.view
  simp only [Block.reset, Run.ends_bind, ends_envCells, hk.block?, setKept]
  refine (hN.reset_rows hE hw h.rows items).imp fun outs w₁ ⟨h₁, fresh, houts, hitems, hev, hrows⟩ => ?_
  have hk₁ := hk.after h₁ (by simp)
  have hl₁ := h₁.owns _ h.owns
  have hu₁ : N.Untouched output w w₁ := h₁.untouched h.owns (by simp) (Set.notMem_empty _)
  refine (hk₁.modify hN h₁.calm _).imp fun _ w₂ ⟨h₂, hk₂⟩ => ?_
  have hl₂ := h₂.owns _ hl₁
  have hu₂ : N.Untouched output w₁ w₂ := h₂.untouched hl₁ (by simp) (Set.notMem_empty _)
  refine (hN.reconcile h₂.calm hl₂ (h₂.admits (h₁.admits room)) _).imp fun _ w₃ ⟨h₃, hitems₃, hs₃⟩ => ?_
  refine ⟨⟨h₃.calm, .after hu₁ (.after hu₂ hs₃)⟩, fresh, hitems, hev, ?_, ?_, h₃.owns _ hl₂, ?_⟩
  · exact (hrows.after h₂ (by simp)).after h₃ (by simp)
  · exact ⟨_, hk₂.after h₃ (by simp), KeptCounts.correct_ofFlags _, by simp [houts, Function.comp_def]⟩
  · rwa [houts, ← hitems, Row.keepTrue_eq] at hitems₃

/-- What a flip of one result does to the elements that are kept. -/
theorem kept_set {i : Nat} {x : Row} (hi : xs[i]? = some x) (v : Value) :
    Row.kept (xs.set i { x with output := v }) =
      Row.kept (xs.take i) ++ (if v.truthy then [x.input] else []) ++ Row.kept (xs.drop (i + 1)) ∧
    Row.kept xs = Row.kept (xs.take i) ++ (if x.output.truthy then [x.input] else []) ++ Row.kept (xs.drop (i + 1)) := by
  obtain ⟨hlt, hget⟩ := List.getElem?_eq_some_iff.1 hi
  constructor
  · rw [List.set_eq_take_append_cons_drop, if_pos hlt, Row.kept_append, Row.kept_cons, List.append_assoc]
  · conv_lhs => rw [← List.take_append_drop i xs, List.drop_eq_getElem_cons hlt, hget]
    rw [Row.kept_append, Row.kept_cons, List.append_assoc]

/-- A result that is as true as the one before leaves the view up to date. -/
theorem set_same {i : Nat} {x : Row} {v : Value} (hi : xs[i]? = some x) (htruthy : x.output.truthy = v.truthy)
    (hrows : N.Rows D light (xs.set i { x with output := v }) w) (hk : N.Keeps D.owner (.filter output D.relations kept) w)
    (hcorrect : kept.Correct) (hflags : kept.flags = xs.map (·.output.truthy)) (hl : N.Owns w (.list output))
    (hitems : SameItems (w.listCell output).items (Row.kept xs)) : N.Filters D light output (xs.set i { x with output := v }) w := by
  have hsame : (xs.set i { x with output := v }).map (·.output.truthy) = xs.map (·.output.truthy) :=
    map_set_same hi htruthy.symm
  obtain ⟨hset, hkept⟩ := kept_set hi v
  refine ⟨hrows, ⟨kept, hk, hcorrect, hflags.trans hsame.symm⟩, hl, ?_⟩
  rwa [hset, ← htruthy, ← hkept]

/-- One splice that makes of the elements that were kept those that are kept now. -/
theorem splice_set (hN : N.Around E) {i index remove : Nat} {x : Row} {v : Value} {plus : List Value} (hw : N.calm w) (room : w.Admits)
    (hrows : N.Rows D light (xs.set i { x with output := v }) w)
    (hk : N.Keeps D.owner (.filter output D.relations (kept.set i v.truthy).1) w) (hcorrect : kept.Correct)
    (hflags : kept.flags = xs.map (·.output.truthy)) (hl : N.Owns w (.list output))
    (hitems : SameItems (w.listCell output).items (Row.kept xs))
    (hrun : replaceRun (Row.kept xs) index remove plus = Row.kept (xs.set i { x with output := v })) :
    (output.splice E.reactions index remove plus).Ends w fun _ w' => N.Changes {.list output} {.list output} w w' ∧
      N.Filters D light output (xs.set i { x with output := v }) w' ∧ N.Spliced E output w w' := by
  refine (hN.splice_spliced hw hl room index remove plus).imp fun _ w' ⟨h', hs'⟩ => ?_
  refine ⟨h'.changes, ⟨hrows.after h'.changes (by simp), ⟨_, hk.after h'.changes (by simp), hcorrect.set i v.truthy, ?_⟩, h'.owns hl, ?_⟩,
    hs'⟩
  · rw [KeptCounts.flags_set, hflags, List.map_set]
  · rw [h'.items, ← hrun]
    exact hitems.replaceRun index remove (.refl plus)

/-- A result differs from the one before: only if it is not as true as that, the list changes. -/
theorem flip (hN : N.Around E) {i : Nat} {x : Row} {v : Value} (hw : N.calm w) (room : w.Admits) (hi : xs[i]? = some x)
    (hrows : N.Rows D light (xs.set i { x with output := v }) w) (hk : N.Keeps D.owner (.filter output D.relations kept) w)
    (hcorrect : kept.Correct) (hflags : kept.flags = xs.map (·.output.truthy)) (hl : N.Owns w (.list output))
    (hitems : SameItems (w.listCell output).items (Row.kept xs)) :
    (LiveBindings.flip E D.owner output D.relations i x.output.truthy v.truthy).Ends w fun _ w' =>
      N.Changes Set.univ Set.univ w w' ∧ N.Filters D light output (xs.set i { x with output := v }) w' ∧ N.Spliced E output w w' ∧
        (x.output.truthy = v.truthy → N.Untouched output w w') := by
  simp only [LiveBindings.flip]
  split
  · rename_i htruthy
    exact ⟨.refl hw _ _, set_same hi htruthy hrows hk hcorrect hflags hl hitems, .never ⟨rfl, rfl⟩, fun _ => ⟨rfl, rfl⟩⟩
  · rename_i htruthy
    have hchanged : (kept.set i v.truthy).2 = true := by
      have hflag : kept.flags[i]? = some x.output.truthy := by rw [hflags, List.getElem?_map, hi, Option.map_some]
      rw [KeptCounts.set_changed, hflag, Bool.eq_not.2 htruthy]
    have hbefore : (kept.set i v.truthy).1.before i = (Row.kept (xs.take i)).length := by
      rw [(hcorrect.set i v.truthy).before_eq, KeptCounts.flags_set, List.take_set_of_le (Nat.le_refl i), hflags, Row.length_kept,
        List.map_take]
    simp only [keptOf, Run.ends_bind, ends_envCells, hk.block?, Run.ends_pure, hchanged, hbefore, setKept, Bool.not_true,
      Bool.false_eq_true, if_false]
    refine (hk.modify hN hw _).imp fun _ w₁ ended => ?_
    obtain ⟨h₁, hk₁⟩ := ended
    have hu₁ : N.Untouched output w w₁ := h₁.untouched hl (by simp) (Set.notMem_empty _)
    have hrows₁ := hrows.after h₁ (by simp)
    have hsplice {remove : Nat} {plus : List Value}
        (hrun : replaceRun (Row.kept xs) (Row.kept (xs.take i)).length remove plus = Row.kept (xs.set i { x with output := v })) :
        (output.splice E.reactions (Row.kept (xs.take i)).length remove plus).Ends w₁ fun _ w' =>
          N.Changes Set.univ Set.univ w w' ∧ N.Filters D light output (xs.set i { x with output := v }) w' ∧
            N.Spliced E output w w' ∧ (x.output.truthy = v.truthy → N.Untouched output w w') := by
      refine (splice_set hN h₁.calm (h₁.admits room) hrows₁ hk₁ hcorrect hflags (h₁.owns _ hl) (hu₁.items ▸ hitems) hrun).imp
        fun _ w₂ ended => ?_
      obtain ⟨h₂, hf₂, hs₂⟩ := ended
      exact ⟨(h₁.mono (Set.subset_univ _) (Set.subset_univ _)).trans (h₂.mono (Set.subset_univ _) (Set.subset_univ _)), hf₂,
        .after hu₁ hs₂, fun h => absurd h htruthy⟩
    -- the element goes in or out where it stands, or would stand, among those that are kept
    obtain ⟨hset, hkept⟩ := kept_set hi v
    split
    · rename_i hv
      have hv' : x.output.truthy = false := by simpa [hv] using htruthy
      have hinput : ((xs.set i { x with output := v }).map (·.input)).getD i .undefined = x.input := by
        simp [List.getD_eq_getElem?_getD, (List.getElem?_eq_some_iff.1 hi).1]
      simp only [Relations.input, Run.ends_bind, hrows₁.ends_inputs, Run.ends_pure, Run.ends_discard, hinput]
      refine hsplice ?_
      rw [hset, hkept, hv, hv', replaceRun]
      simp
    · rename_i hv
      have hv' : x.output.truthy = true := by simpa [hv] using htruthy
      simp only [Run.ends_discard]
      refine hsplice ?_
      rw [hset, hkept, hv', replaceRun]
      simp [hv]

/-- The expression handed over a value for an element. -/
theorem result (hN : N.Around E) (hw : N.calm w) (room : w.Admits) (h : N.Filters D light output xs w) {i : Nat} {x : Row}
    (hi : xs[i]? = some x) (v : Value) :
    (Sink.emit E observer (.result D.relations x.entry) v).Ends w fun _ w' => N.Changes Set.univ Set.univ w w' ∧
      N.Filters D light output (xs.set i { x with output := v }) w' ∧ N.Spliced E output w w' ∧
        (x.output.truthy = v.truthy → N.Untouched output w w') := by
  obtain ⟨kept, hk, hcorrect, hflags⟩ := h.view
  have hlasting {c : Prop} : N.Lasting fun w' => N.Filters D light output (xs.set i { x with output := v }) w' ∧
      N.Spliced E output w w' ∧ (c → N.Untouched output w w') := fun q hw h ⟨hf, hs, hu⟩ =>
    ⟨lasting hN q hw h hf, (hN.lasting_spliced q hw h ⟨hf.owns, hs⟩).2, fun hc => (hN.lasting_untouched q hw h ⟨hf.owns, hu hc⟩).2⟩
  -- the list and what the view keeps, when the result has been stored
  have stored {q : Progress π} {w' : World (Callback π) (Env π σ)} (h' : N.Changes {.entry x.entry} ∅ (w.during q) w') :
      N.Owns w' (.list output) ∧ N.Untouched output w w' ∧ N.Keeps D.owner (.filter output D.relations kept) w' := by
    have hl := hN.owns_during hw h.owns q
    exact ⟨h'.owns _ hl, (hN.untouched_during hw q).trans (h'.untouched hl (by simp) (Set.notMem_empty _)),
      (hk.during hN hw q).after h' (by simp)⟩
  refine hN.emit_result hw h.rows hi (Set.mem_univ _) hlasting (fun h' hrows hsame => ?_) (fun {es w'} h' hrows hdiffers => ?_)
  · obtain ⟨hl', hu', hk'⟩ := stored h'
    have hf := set_same hi (Value.truthy_eq_of_same hsame) hrows hk' hcorrect hflags hl' (hu'.items ▸ h.items)
    exact ⟨hf, .never hu', fun _ => hu'⟩
  · obtain ⟨hl', hu', hk'⟩ := stored h'
    simp only [Block.update, Run.ends_bind, ends_envCells, hk'.block?]
    refine hN.holdingBlock h'.calm hlasting fun bs => ?_
    have room' : (w'.during { w'.progress with heldBlocks := bs }).Admits := h'.admits room
    have hu₁ := hu'.trans (hN.untouched_during h'.calm { w'.progress with heldBlocks := bs })
    refine (flip hN (hN.calm_during h'.calm _) room' hi (hrows.during hN h'.calm _) (hk'.during hN h'.calm _) hcorrect hflags
      (hN.owns_during h'.calm hl' _) (hu₁.items ▸ h.items)).imp fun _ w₂ ⟨h₂, hf₂, hs₂, hu₂⟩ => ?_
    exact ⟨h₂, hf₂, .after hu₁ hs₂, fun hc => hu₁.trans (hu₂ hc)⟩

/-- A view that has just been made shows nothing, and has nothing to show. -/
theorem made (hN : N.Around E) {next : Sink π} (hw : N.calm w)
    (run : PerElement.make .filter D.relation D.scope next w = .ok (D, some (.list output)) w') :
    N.calm w' ∧ N.Filters D light output [] w' := by
  obtain ⟨⟨hw', hrows⟩, hk, ho, hi⟩ := hN.make_list (fun _ _ => rfl) hw run
  exact ⟨hw', hrows, ⟨{}, hk, KeptCounts.correct_ofFlags [], rfl⟩, ho, by rw [hi]; exact .nil⟩

/-- One step of a view that filters. -/
theorem step (hN : N.Around E) (hE : N.Evaluates E D light) (hw : N.calm w) (room : w.Admits) (h : N.Filters D light output xs w)
    (s : Feed) (hs : s.Valid (xs.map (·.input))) :
    (s.run E observer D).Ends w fun _ w' => s.Results N E D w w' ∧ ∃ xs', xs'.map (·.input) = s.after w (xs.map (·.input)) ∧
      N.Filters D light output xs' w' ∧ (N.calm w' ∧ N.Spliced E output w w') ∧
        ∀ i v u, s = .result i v → (w.latest D)[i]? = some u → u.truthy = v.truthy → N.Untouched output w w' := by
  refine h.rows.step (P := fun s ys w' => N.Filters D light output ys w' ∧ (N.calm w' ∧ N.Spliced E output w w') ∧
    ∀ i v u, s = .result i v → (w.latest D)[i]? = some u → u.truthy = v.truthy → N.Untouched output w w') (fun hp => hp.1.rows)
    (fun index removed plus => ?_) (fun collection => ?_) (fun i x v hi => ?_) s hs
  · exact (h.splice hN hE hw room index removed plus).imp fun _ w' ⟨hs', fresh, hplus, hev, hf⟩ =>
      ⟨fresh, hplus, hev, hf, hs', nofun⟩
  · refine (h.reset hN hE hw room _).imp fun _ w' ended => ?_
    obtain ⟨hs', fresh, hitems, hev, hf⟩ := ended
    exact ⟨fresh, hitems, hev, hf, hs', nofun⟩
  · refine (h.result hN hw room hi v).imp fun _ w' ended => ?_
    obtain ⟨hc, hf, hs', hu⟩ := ended
    refine ⟨hf, ⟨hc.calm, hs'⟩, ?_⟩
    rintro _ _ u ⟨⟩ hu' htruthy
    rw [h.rows.latest, List.getElem?_map, hi, Option.map_some, Option.some.injEq] at hu'
    exact hu (by rw [hu', htruthy])

end Filters

/-- Wherever a view that filters can get to, it is up to date with rows for the elements that it has been told of. -/
theorem Reaches.filters (hN : N.Around E) (hE : N.Evaluates E D light) {up : List Value}
    (h : N.Reaches (PerElement.filter.machine E observer D (some (.list output))) up w) :
    N.calm w ∧ ∃ xs, xs.map (·.input) = up ∧ N.Filters D light output xs w := by
  refine h.keepsRows (fun hw run => Filters.made hN hw run) (fun xs => Filters.lasting hN) ?_
  intro xs w s hw room hf hs
  exact (hf.step hN hE hw room s hs).imp fun _ w' ⟨_, ys, hup, hf', ⟨hw', _⟩, _⟩ => ⟨ys, hup, hw', hf'⟩

end Neighbours

end LiveBindings
