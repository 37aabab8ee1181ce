import LiveBindings.Proofs.Listening

/-!
# A program that keeps a record

The bargain between a view and its neighbours is kept by every program whose listeners do no more than to note which list they heard
of (`Host.recording`): whatever the engine calls for it, it changes nothing but its record. A view among such neighbours may evaluate
any expression that has one value and never another (`Neighbours.Evaluates.ofConstant`), and may listen to lists of the program.
-/

namespace LiveBindings

variable {π σ : Type}

/-- A program that listens to lists and notes those that it hears of. -/
def Host.recording : Host ListId (List ListId) where
  listener _ l _ := modifyHost (l :: ·)
  observer _ _ _ := pure ()
  teardown _ _ := pure ()

/-- The world of a program that keeps a record, in which the view `b` may listen to the lists among `looked`. -/
structure World.Recorded (b : Ref .block) (looked : Set ListId) (w : World (Callback ListId) (Env ListId (List ListId))) : Prop where
  orphans : w.env.cells.orphans = []
  numbered : w.Numbered
  made : ∀ l ∈ looked, l.index < w.lists.size
  listeners : ∀ l, ∀ x ∈ (w.listCell l).listeners, x.callback = .user l ∨ (l ∈ looked ∧ x.callback.watches b = true)
  objects : ∀ o, (w.objectCell o).listeners = []
  unwatched : ¬w.Made (.block b) → ∀ l, w.watch l b = []

/-- The engine of the program, with more nested calls than it makes. -/
abbrev Engine.recording : Engine ListId (List ListId) := engine .recording 8

/-- A view whose expression is the element itself. -/
def Desk.plain : Desk := ⟨⟨0⟩, .value, {}, ⟨0⟩⟩

/-- A world of lists that no one listens to. -/
def World.listing (lists : List (List Value)) (host : σ) : World (Callback π) (Env π σ) where
  lists := (lists.map fun items => { items }).toArray
  env := { host }

@[simp] theorem World.listeners_listing (lists : List (List Value)) (host : σ) (l : ListId) :
    ((World.listing lists host : World (Callback π) (Env π σ)).listCell l).listeners = [] := by
  simp only [World.listing, World.listCell, Array.getD_eq_getD_getElem?, List.getElem?_toArray, List.getElem?_map]
  cases lists[l.index]? <;> rfl

/-- Where no one listens yet, the program may start. -/
theorem World.recorded_listing {b : Ref .block} {looked : Set ListId} (lists : List (List Value)) (host : List ListId)
    (hmade : ∀ l ∈ looked, l.index < lists.length) : (World.listing lists host).Recorded b looked where
  orphans := rfl
  numbered l := by simp
  made l hl := by simpa [World.listing] using hmade l hl
  listeners l x hx := by simp at hx
  objects _ := rfl
  unwatched _ l := by simp [World.watch]

/-- The surroundings of a view in the world of a program that keeps a record. -/
def Neighbours.recording (b : Ref .block) (looked : Set ListId) : Neighbours ListId (List ListId) where
  calm := World.Recorded b looked
  theirs w := {p | ∃ l b', p = .watch l b' ∧ (w.Made (.block b) → l ∈ looked → b' ≠ b)}
  sources _ := {p | ∃ l ∈ looked, p = .list l}
  callbacks := Set.range .user
  ears
    | .user l => {.list l}
    | _ => ∅
  heard w l := w.env.host.count l

theorem Callback.exists_watches {c : Callback π} (h : c.isWatching = true) : ∃ b, c.watches b = true := by
  cases c with
  | content b => exact ⟨b, by simp [watches]⟩
  | segment b => exact ⟨b, by simp [watches]⟩
  | _ => cases h

namespace Neighbours

variable {b : Ref .block} {looked : Set ListId} {w w' : World (Callback ListId) (Env ListId (List ListId))} {l : ListId}

/-- What is done without the program leaves it its world. -/
theorem recorded_of_ours (hw : w.Recorded b looked) (h : (recording b looked).Ours w w') : w'.Recorded b looked := by
  have hwatch (l : ListId) (b' : Ref .block) (hn : w.Made (.block b) → l ∈ looked → b' ≠ b) : w'.watch l b' = w.watch l b' :=
    h.theirs _ ⟨l, b', rfl, hn⟩
  refine ⟨(congrArg Cells.orphans h.others : _).trans hw.orphans, h.numbered hw.numbered, fun l hl => h.made (.list l) (hw.made l hl),
    fun l x hx => ?_, fun o => (h.objectListeners o).trans (hw.objects o), fun hn l => ?_⟩
  · by_cases hx' : x.callback.isWatching = true
    · obtain ⟨b', hb'⟩ := Callback.exists_watches hx'
      by_cases hl : w.Made (.block b) ∧ l ∈ looked ∧ b' = b
      · exact .inr ⟨hl.2.1, hl.2.2 ▸ hb'⟩
      · have hold : x ∈ w.watch l b' := by
          rw [← hwatch l b' fun hm hl' he => hl ⟨hm, hl', he⟩]
          exact World.mem_watch.2 ⟨hx, hb'⟩
        exact hw.listeners l x (World.mem_watch.1 hold).1
    · have hold : x ∈ (w.listCell l).listeners.filter (!·.callback.isWatching) := by
        rw [← h.listListeners l]
        exact List.mem_filter.2 ⟨hx, by simpa using hx'⟩
      exact hw.listeners l x (List.mem_of_mem_filter hold)
  · have hn' : ¬w.Made (.block b) := fun hm => hn (h.made _ hm)
    rw [hwatch l b fun hm => absurd hm hn']
    exact hw.unwatched hn' l

/-- Where no view waits to be finished, none is. -/
theorem sweep_idle {E : Engine ListId (List ListId)} (hw : w.Recorded b looked) :
    (sweep E).Ends w fun _ w' => (recording b looked).Changes ∅ ∅ w w' := by
  simp only [sweep, Run.ends_bind, ends_envCells, hw.orphans, List.length_nil, finishOrphans, Run.ends_pure]
  exact .refl hw _ _

/-- The program keeps the bargain. -/
theorem recording_around (b : Ref .block) (looked : Set ListId) (calls : Nat) :
    (recording b looked).Around (engine .recording (calls + 1)) where
  made hw hp := by
    rcases hp with ⟨l, b', rfl, -⟩ | ⟨l, hl, rfl⟩
    · trivial
    · exact hw.made l hl
  ours {w w'} hw h := by
    refine ⟨recorded_of_ours hw h, ?_, ?_, rfl⟩
    · rintro _ ⟨l, b', rfl, hn⟩
      exact ⟨l, b', rfl, fun hm => hn (h.made _ hm)⟩
    · funext l
      exact congrArg (List.count l) h.host
  listTold {w l} hw hl x hx := by
    have hc := (hw.listeners l x hx).resolve_right fun hx => hl.apart ⟨l, hx.1, rfl⟩
    exact ⟨⟨l, hc.symm⟩, by rw [hc]; exact subset_rfl⟩
  objectTold {w o} hw _ x hx := by
    rw [hw.objects o] at hx
    cases hx
  fire {w c e} hw hc := by
    obtain ⟨l, rfl⟩ := hc
    change (modifyHost (l :: ·) : Live ListId (List ListId) Unit).Ends w _
    simp only [modifyHost, Run.ends_modify]
    exact
      { calm := ⟨hw.orphans, hw.numbered, hw.made, hw.listeners, hw.objects, hw.unwatched⟩
        made := fun p hp => by cases p <;> exact hp
        owns := fun p hp => ⟨by cases p <;> exact hp.made, hp.ours, hp.apart⟩
        same := fun p _ _ => by cases p <;> rfl
        heard := fun l' _ hn => List.count_cons_of_ne fun he => hn (by rw [he]; rfl)
        sees := fun p hp => ⟨by cases p <;> exact hp.made, hp.source⟩
        kept := fun p _ _ => by cases p <;> rfl
        watch := fun _ _ _ _ => rfl
        registers := ⟨le_rfl, fun _ _ h => .inl h⟩
        progress := rfl
        config := rfl }
  letGo hw := sweep_idle hw
  sweep hw := sweep_idle hw

/-- A view in the world of the program may listen to the lists that it looks at. -/
theorem recording_attentive (b : Ref .block) (looked : Set ListId) : (recording b looked).Attentive b where
  numbered hw := hw.numbered
  lists _ hp := hp.imp fun _ h => h.2
  free _ hb hl := by
    obtain ⟨l, hl, he⟩ := hl.source
    cases he
    exact ⟨nofun, fun ⟨l', b', he, hn⟩ => by cases he; exact hn hb hl rfl⟩
  told hw _ x hx := (hw.listeners _ x hx).symm.imp (·.2) fun hc => ⟨⟨_, hc.symm⟩, by rw [hc]; exact subset_rfl⟩
  unwatched hw hn := hw.unwatched hn _

variable {N : Neighbours π σ} {H : Host π σ} {D : Desk} {calls : Nat}

/-- An expression that has one value in a scope hands it over when it is started, and there is nothing to stop. -/
theorem Evaluates.ofConstant (hN : N.Around (engine H (calls + 2))) {value : Scope → Value}
    (hD : ∀ E next scope, Expr.start E D.relation next scope = (constant E (value scope) next : Live π σ _)) :
    N.Evaluates (engine H (calls + 2)) D {.done} where
  start {w e v} hw he hheld hstarted := by
    have hrow : w.env.cells.entries[e.index]? = some (w.env.cells.entry e) := by
      have hsize : e.index < w.env.cells.entries.size := he.made
      simp [Cells.entry, Array.getD_eq_getD_getElem?, hsize]
    obtain ⟨_, w', run, -⟩ := Run.ends_iff.1
      (hN.emit_starting (D := D) (engine H calls) (H.observer (engine H calls)) hw he hheld hrow hstarted (value (D.scope.nest v)))
    change (D.relation.start (engine H (calls + 1)) (.result D.relations e) (D.scope.nest v)).Ends w _
    simp only [hD, constant, Run.ends_bind, Run.ends_pure]
    refine Run.ends_iff.2 ⟨(), w', run, rfl, [], value (D.scope.nest v), ?_⟩
    exact .hand .start _ _ _ run
  cancel hw hc := by
    cases hc
    exact .refl hw _ _

/-- A view of the program that is made and shown a collection gets to where it has been shown it. -/
theorem Reaches.recording_shown (what : PerElement) (output : Option Value) (up : List Value)
    {P : World (Callback ListId) (Env ListId (List ListId)) → Prop}
    (hmake : (what.make .value {} (.user ⟨0⟩)).Ends (World.listing [up] [] : World (Callback ListId) (Env ListId (List ListId)))
      fun made _ => made = (.plain, output))
    (hrun : (what.make .value {} (.user ⟨0⟩)).Ends (World.listing [up] []) fun _ w₁ => w₁.Admits ∧ w₁.elements (.list ⟨0⟩) = up ∧
      ((Feed.replaced (.list ⟨0⟩)).run .recording (Host.recording.observer .recording) .plain).Ends w₁ fun _ => P) :
    ∃ w, (recording ⟨0⟩ ∅).Reaches (what.machine .recording (Host.recording.observer .recording) .plain output) up w ∧ P w := by
  obtain ⟨_, w₁, run, rfl, room, hup, hP⟩ := Run.ends_iff.1 (hmake.and hrun)
  have h : (recording ⟨0⟩ ∅).Reaches (what.machine .recording (Host.recording.observer .recording) .plain output) [] w₁ :=
    .made (World.recorded_listing _ _ nofun) ⟨rfl, _, run⟩
  exact h.next (.replaced (.list ⟨0⟩)) trivial hup room hP

end Neighbours

end LiveBindings
