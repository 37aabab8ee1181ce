import LiveBindings.Proofs.Gauges
import LiveBindings.Proofs.Recording

/-!
# A program that answers

The view of whether all results are true may have a sink that does not put up with the answer that they are not. `Host.answering` notes
what it is told, and when that is false, it hands over true for the first element. What it does while a value is passed on is no more
than the view expects of it (`answering_passing`), so that it keeps the bargain (`answering_surrounds`).
-/

namespace LiveBindings

variable {π σ : Type}

/-- A program that notes what it is told. When that is false, it hands over true for the first element. -/
def Host.answering : Host Unit (List Value) where
  listener _ _ _ := pure ()
  observer E _ v := do
    modifyHost (· ++ [v])
    if !v.truthy then (Feed.result 0 (.bool true)).run E (fun _ _ => pure ()) .plain
  teardown _ _ := pure ()

/-- The view of whether all results are true, where the result for an element is the element itself. -/
def Gauge.agreement : Gauge Unit (List Value) := ⟨.quantifier true, .plain, ⟨⟨0⟩, .user (), id⟩⟩

/-- No view waits to be finished, and nobody listens. -/
structure World.Unheard (w : World (Callback Unit) (Env Unit (List Value))) : Prop where
  orphans : w.env.cells.orphans = []
  lists : ∀ l, (w.listCell l).listeners = []
  objects : ∀ o, (w.objectCell o).listeners = []

/-- The world in which a value has been noted. -/
def World.noting (w : World (Callback Unit) (Env Unit (List Value))) (v : Value) : World (Callback Unit) (Env Unit (List Value)) :=
  { w with env := { w.env with host := w.env.host ++ [v] } }

/-- Where no view waits to be finished, none is. -/
theorem ends_sweep_of_idle {E : Engine π σ} {w : World (Callback π) (Env π σ)} (h : w.env.cells.orphans = [])
    (Q : Unit → World (Callback π) (Env π σ) → Prop) : (sweep E).Ends w Q ↔ Q () w := by
  simp only [sweep, Run.ends_bind, ends_envCells, h, List.length_nil, finishOrphans, Run.ends_pure]

namespace Neighbours

/-- The surroundings of a view when nobody listens. -/
def unheard : Neighbours Unit (List Value) where
  calm := World.Unheard
  theirs _ := {p | ∃ l b, p = .watch l b}
  sources _ := ∅
  callbacks := ∅
  ears _ := ∅
  heard _ _ := 0

variable {w w' : World (Callback Unit) (Env Unit (List Value))} {s : Option (Option Value) × List Value} {calls : Nat}
  {O : Outlet Unit (List Value)} {up : List Value} {v : Value} {nan : Number} {light : Set (Cancel Unit)}

theorem unheard_of_ours (hw : w.Unheard) (h : unheard.Ours w w') : w'.Unheard where
  orphans := (congrArg Cells.orphans h.others : _).trans hw.orphans
  lists l := by
    refine List.eq_nil_iff_forall_not_mem.2 fun x hx => ?_
    by_cases hx' : x.callback.isWatching = true
    · obtain ⟨b, hb⟩ := Callback.exists_watches hx'
      have hwatch : w'.watch l b = w.watch l b := h.theirs _ ⟨l, b, rfl⟩
      have hold : x ∈ w.watch l b := hwatch ▸ World.mem_watch.2 ⟨hx, hb⟩
      simpa [hw.lists l] using (World.mem_watch.1 hold).1
    · have hold : x ∈ (w.listCell l).listeners.filter (!·.callback.isWatching) := by
        rw [← h.listListeners l]
        exact List.mem_filter.2 ⟨hx, by simpa using hx'⟩
      simpa [hw.lists l] using List.mem_of_mem_filter hold
  objects o := (h.objectListeners o).trans (hw.objects o)

/-- Nobody listens, so that the bargain is kept and nothing is passed on. -/
theorem unheard_around (H : Host Unit (List Value)) : (unheard.still O s).Around (engine H (calls + 1)) where
  made hw hp := by
    rcases hp with ⟨l, b, rfl⟩ | hp
    · trivial
    · exact absurd hp (Set.notMem_empty _)
  ours {w w'} hw h := by
    have hlasts : w'.env.cells.lasts = w.env.cells.lasts := (congrArg Cells.lasts h.others : w'.env.cells.others.lasts = _)
    have hstate : O.state w' = O.state w := by rw [Outlet.state, Outlet.state, Outlet.tolds, Outlet.tolds, h.host, hlasts]
    exact ⟨⟨unheard_of_ours hw.1 ⟨h.toInert, h.theirs⟩, hstate.trans hw.2⟩, subset_rfl, rfl, rfl⟩
  listTold {w l} hw _ x hx := by
    rw [hw.1.lists l] at hx
    cases hx
  objectTold {w o} hw _ x hx := by
    rw [hw.1.objects o] at hx
    cases hx
  fire _ hc := absurd hc (Set.notMem_empty _)
  letGo hw := (ends_sweep_of_idle hw.1.orphans _).2 (.refl hw _ _)
  sweep hw := (ends_sweep_of_idle hw.1.orphans _).2 (.refl hw _ _)

theorem unheard_ignores (O : Outlet Unit (List Value)) : unheard.Ignores O :=
  fun hw _ => ⟨⟨hw.orphans, hw.lists, hw.objects⟩, rfl, rfl, rfl⟩

theorem unheard_noting (hw : w.Unheard) (v : Value) : unheard.Changes ∅ ∅ w (w.noting v) where
  calm := ⟨hw.orphans, hw.lists, hw.objects⟩
  made p hp := by cases p <;> exact hp
  owns p hp := ⟨by cases p <;> exact hp.made, hp.ours, hp.apart⟩
  same p _ _ := by cases p <;> rfl
  heard _ _ _ := rfl
  sees p hp := ⟨by cases p <;> exact hp.made, hp.source⟩
  kept p _ _ := by cases p <;> rfl
  watch _ _ _ _ := rfl
  registers := ⟨le_rfl, fun _ _ h => .inl h⟩
  progress := rfl
  config := rfl

/-- Passing a value on is noting it, and answering it if it is false. -/
theorem ends_answering (Q : Unit → World (Callback Unit) (Env Unit (List Value)) → Prop) :
    (Gauge.agreement.outlet.pass .answering calls v).Ends w Q ↔
      if v.truthy then Q () (w.noting v)
      else ((Feed.result 0 (.bool true)).run (engine .answering calls) (fun _ _ => pure ()) .plain).Ends (w.noting v) Q := by
  change Run.Ends (do
    modifyHost (· ++ [v])
    if !v.truthy then (Feed.result 0 (.bool true)).run (engine .answering calls) (fun _ _ => pure ()) .plain) w Q ↔ _
  simp only [modifyHost, Run.ends_bind, Run.ends_modify]
  cases v.truthy <;> exact Iff.rfl

/-- Where there are no elements, there is none to hand a value over for. -/
theorem Measures.ends_result_nil {N : Neighbours Unit (List Value)} {E : Engine Unit (List Value)}
    (h : N.Measures .agreement light nan [] w) (u : Value) (Q : Unit → World (Callback Unit) (Env Unit (List Value)) → Prop) :
    ((Feed.result 0 u).run E (fun _ _ => pure ()) .plain).Ends w Q ↔ Q () w := by
  obtain ⟨xs, hrows, hup, -⟩ := h.rows rfl
  obtain rfl := List.map_eq_nil_iff.1 hup
  have hentries : (w.env.cells.relationsCell Desk.plain.relations).entries[0]? = none := by
    rw [show w.env.cells.relationsCell Desk.plain.relations = _ from hrows.relationsCell]
    rfl
  simp only [Feed.run, Run.ends_bind, ends_envCells, hentries, Run.ends_pure]

/-- Whatever the program does while a value is passed on, it does nothing that the view does not expect. -/
theorem answering_passing (hdue : unheard.Due .agreement light nan up v w)
    (run : Gauge.agreement.outlet.pass .answering calls v w = .ok () w') :
    unheard.Passing .agreement light nan .answering up v w w' := by
  induction calls using Nat.strongRecOn generalizing v w w' with
  | ind calls ih =>
    have hnoting := unheard_noting hdue.calm v
    have hpassing : unheard.Passing .agreement light nan .answering up v w (w.noting v) := .told w.progress hnoting rfl
    have hends : (Gauge.agreement.outlet.pass .answering calls v).Ends w fun _ w₁ => w₁ = w' := (Run.ends_of_eq run).2 rfl
    rw [ends_answering] at hends
    split at hends
    · exact hends ▸ hpassing
    cases up with
    | nil =>
      rw [(hdue.toMeasures.after hnoting).ends_result_nil] at hends
      exact hends ▸ hpassing
    | cons x up =>
      obtain ⟨_, _, hrun, rfl⟩ := Run.ends_iff.1 hends
      refine .result hpassing calls _ 0 (.bool true) (Nat.succ_pos _) ⟨rfl, trivial⟩ (fun a b ha hs => ?_) ?_ hrun
      · have hab : (sweep (engine .answering calls)).Ends a fun _ a' => a' = b := (Run.ends_of_eq hs).2 rfl
        rw [ends_sweep_of_idle ha.orphans] at hab
        subst hab
        have hstill : (unheard.still _ (Gauge.agreement.outlet.state a)).calm a := ⟨ha, rfl⟩
        exact .refl hstill _ _
      · rintro n y a b rfl hdue' hpass
        exact ih n (Nat.lt_succ_self n) hdue' hpass

/-- A value that is due differs from the one that was told before. -/
theorem Due.truthy {u : Value} (hdue : unheard.Due .agreement light nan up v w) (hv : v.truthy = false)
    (hdue' : unheard.Due .agreement light nan up u w') (htold : Gauge.agreement.outlet.tolds w' = Gauge.agreement.outlet.tolds w ++ [v]) :
    u.truthy = true := by
  have hdiffers : v.same u = false := by
    have hapart := hdue'.awaits.apart
    rw [htold, List.isChain_append] at hapart
    exact hapart.2.2 v (by simp) u (by simp)
  obtain rfl := hdue.value
  obtain rfl := hdue'.value
  revert hv hdiffers
  simp only [Gauge.value, Gauge.agreement, Measure.value, Value.truthy, Value.same]
  grind

/-- Passing on a value that is due comes to an end. -/
theorem ends_answering_of_due (hdue : unheard.Due .agreement light nan up v w) (calls : Nat) :
    (Gauge.agreement.outlet.pass .answering (calls + 1) v).Ends w fun _ _ => True := by
  rw [ends_answering]
  split
  · trivial
  rename_i hv
  have hN : unheard.Around (engine .answering (calls + 1)) := .of_still (O := Gauge.agreement.outlet) fun _ => unheard_around .answering
  have hpassing : unheard.Passing .agreement light nan .answering up v w (w.noting v) :=
    .told w.progress (unheard_noting hdue.calm v) rfl
  obtain ⟨hinforms, -⟩ := hpassing.informs hN (unheard_ignores _) hdue
  cases up with
  | nil =>
    rw [hinforms.toMeasures.ends_result_nil]
    trivial
  | cons x up =>
    obtain ⟨w₁, hm₁, hstate, -, hrun⟩ := hinforms.toMeasures.result (E := engine .answering (calls + 1))
      (v := .bool true) hN (Nat.succ_pos _) ⟨rfl, trivial⟩ fun _ _ => pure ()
    rcases hrun with ⟨-, hrun⟩ | ⟨q, bs, es, hrun⟩
    · exact (hrun _).2 trivial
    refine (hrun _).2 ?_
    have hm := hm₁.during hN q
    rcases hm.emitted (unheard_ignores _) (hinforms.linked.congr hstate) .answering calls with
      ⟨-, -, hiff⟩ | ⟨w₂, hdue', htold, hiff⟩
    · rw [hiff]
      refine (ends_sweep_of_idle ?_ _).2 trivial
      exact hm.calm.orphans
    · have hu := hdue.truthy (Bool.eq_false_of_not_eq_true hv) hdue' (htold.trans (Outlet.tolds_of_state hstate))
      rw [hiff, ends_answering, if_pos hu]
      refine (ends_sweep_of_idle ?_ _).2 trivial
      exact hdue'.calm.orphans

/-- The program keeps the bargain. -/
theorem answering_surrounds (nan : Number) (calls : Nat) : unheard.Surrounds .agreement {.done} nan .answering (calls + 1) where
  around _ := unheard_around .answering
  evaluates _ _ := .ofConstant (unheard_around .answering) fun _ _ _ => rfl
  ignores := unheard_ignores _
  passes {up v w} hdue := by
    obtain ⟨_, w', run, -⟩ := Run.ends_iff.1 (ends_answering_of_due hdue calls)
    exact (Run.ends_of_eq run).2 (answering_passing hdue run)

end Neighbours

end LiveBindings
