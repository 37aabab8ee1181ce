import LiveBindings.Proofs.Listening

/-!
# The segments of a flattened list

A view that flattens has a stretch for each element of its collection: a segment of its own, the listener that it has for the element
if that is a list, and the items that it shows for it. `Tiles` says that the cells, the listeners and the list of the view are those
of the given stretches in order. A splice of the elements is a splice of the stretches (`Tiles.splice`), and when the list of one stretch is
looked at again only that stretch changes (`Tiles.refill`). Neither asks that what the other stretches show is up to date.
-/

namespace LiveBindings

variable {π σ : Type}

/-- A view that flattens: its cell, the list that it shows, and the slot in which it watches its collection. -/
structure Flattening where
  block : Ref .block
  output : ListId
  slot : Ref .slot
deriving DecidableEq

/-- The cells and listeners that change when the view follows its collection. -/
def Flattening.parts (V : Flattening) : Set Part
  | .block b => b = V.block
  | .segment _ => True
  | .watch _ b => b = V.block
  | _ => False

/-- What a view that flattens has for an element: a segment, the element itself, the number of its listener if it is a list, and
the items that are shown for it. -/
structure Stretch where
  segment : Ref .segment
  value : Value
  id : ListenerId
  shown : List Value

/-- The listener for a value, if it is a list. -/
def Tap.of (v : Value) (id : ListenerId) (c : ListId → Callback π) : List (Tap π) :=
  match v with
  | .list l => [⟨l, id, c l⟩]
  | _ => []

/-- What takes it down. -/
def Cancel.of (v : Value) (id : ListenerId) : Cancel π :=
  match v with
  | .list l => .unlistenList l .content id
  | _ => .done

theorem Tap.mem_of {v : Value} {id : ListenerId} {c : ListId → Callback π} {t : Tap π} :
    t ∈ Tap.of v id c ↔ v = .list t.list ∧ t.id = id ∧ t.callback = c t.list := by
  cases t
  cases v <;> simp [Tap.of]
  exact ⟨by rintro ⟨rfl, h⟩; exact ⟨rfl, h⟩, by rintro ⟨rfl, h⟩; exact ⟨rfl, h⟩⟩

/-- The listener that the view has for an element. -/
def Stretch.taps (b : Ref .block) (p : Stretch) : List (Tap π) := Tap.of p.value p.id (.segment b p.segment ·)

/-- Taking a listener down is no more than removing it. -/
structure Engine.Unlistens (E : Engine π σ) : Prop where
  done : E.cancel .done = pure ()
  unlisten : ∀ l id, E.cancel (.unlistenList l .content id) = l.unlisten .content id

theorem engine_unlistens {H : Host π σ} {calls : Nat} : (engine H (calls + 1)).Unlistens where
  done := rfl
  unlisten _ _ := rfl

namespace Neighbours

variable {N : Neighbours π σ} {E : Engine π σ} {S T : Set Part} {w w' : World (Callback π) (Env π σ)} {b : Ref .block}
  {taps : List (Tap π)} {p : Stretch} {ps : List Stretch}

/-- The segment of a stretch is as long as what is shown of its element, and its handle takes the listener down. -/
structure Covers (N : Neighbours π σ) (p : Stretch) (w : World (Callback π) (Env π σ)) : Prop where
  owns : N.Owns w (.segment p.segment)
  cell : ∃ c, w.env.cells.segments[p.segment.index]? = some c ∧ c.length = p.shown.length ∧ c.cancel = .of p.value p.id

/-- The segments of stretches. -/
def segmentParts (ps : List Stretch) : Set Part := {q | ∃ p ∈ ps, q = .segment p.segment}

theorem segmentParts_cons : segmentParts (p :: ps) = {.segment p.segment} ∪ segmentParts ps := by
  ext q
  simp [segmentParts]

theorem segment_notMem_segmentParts (h : p.segment ∉ ps.map (·.segment)) : .segment p.segment ∉ segmentParts ps := by
  rintro ⟨q, hq, he⟩
  exact h (List.mem_map.2 ⟨q, hq, (Part.segment.inj he).symm⟩)

@[simp] theorem block_notMem_segmentParts : .block b ∉ segmentParts ps := nofun

@[simp] theorem watch_notMem_segmentParts {l : ListId} : .watch l b ∉ segmentParts ps := nofun

@[simp] theorem list_notMem_segmentParts {l : ListId} : .list l ∉ segmentParts ps := nofun

namespace Covers

theorem segment (h : N.Covers p w) : (w.env.cells.segment p.segment).length = p.shown.length ∧
    (w.env.cells.segment p.segment).cancel = .of p.value p.id := by
  obtain ⟨c, hc, h⟩ := h.cell
  simpa only [Cells.segment, Array.getD_eq_getD_getElem?, hc, Option.getD_some] using h

theorem after (h : N.Covers p w) (h' : N.Changes S T w w') (hn : .segment p.segment ∉ S) : N.Covers p w' where
  owns := h'.owns _ h.owns
  cell := by
    have hsame : w'.env.cells.segments[p.segment.index]? = w.env.cells.segments[p.segment.index]? := h'.same _ h.owns hn
    rw [hsame]
    exact h.cell

theorem during (h : N.Covers p w) (hN : N.Around E) (hw : N.calm w) (q : Progress π) : N.Covers p (w.during q) :=
  ⟨hN.owns_during hw h.owns q, h.cell⟩

end Covers

/-- How many items some stretches show. -/
theorem segmentsLength_eq (h : ∀ p ∈ ps, N.Covers p w) :
    segmentsLength w.env.cells (ps.map (·.segment)) = (ps.flatMap (·.shown)).length := by
  induction ps with
  | nil => rfl
  | cons p ps ih =>
    rw [List.forall_mem_cons] at h
    rw [List.flatMap_cons, List.length_append, ← ih h.2, ← h.1.segment.1]
    rfl

namespace Around

variable (hN : N.Around E)

include hN

/-! ## Cells of segments -/

theorem modifySegment {s : Ref .segment} (hw : N.calm w) (hs : N.Owns w (.segment s)) (f : Segment π → Segment π) :
    (LiveBindings.modifySegment s f : Live π σ Unit).Ends w fun _ w' => N.Changes {.segment s} ∅ w w' ∧
      w'.env.cells.segments[s.index]? = w.env.cells.segments[s.index]?.map f := by
  simp only [LiveBindings.modifySegment, modifyCells, Run.ends_modify]
  refine ⟨hN.changePart hw hs.ours (.withCells rfl fun p hp => ?_) (fun p hp => ?_) rfl, ?_⟩
  · cases p with
    | segment s' => simpa [World.Made, World.withCells] using hp
    | _ => exact hp
  · cases p with
    | segment s' => exact getElem?_modify_of_ne (Ref.index_ne fun h => hp (h ▸ rfl))
    | _ => rfl
  · simp [Array.getElem?_modify]

theorem newSegment (hw : N.calm w) (c : Segment π) :
    (LiveBindings.newSegment c : Live π σ _).Ends w fun s w' => (N.Changes ∅ ∅ w w' ∧ N.Owns w' (.segment s)) ∧
      ¬w.Made (.segment s) ∧ w'.env.cells.segments[s.index]? = some c := by
  simp only [LiveBindings.newSegment, modifyCells, Run.ends_bind, ends_envCells, Run.ends_modify, Run.ends_pure]
  have hfresh : ¬w.Made (.segment ⟨w.env.cells.segments.size⟩) := Nat.lt_irrefl _
  refine ⟨hN.makePart hw hfresh (by simp [World.Made]) (.withCells rfl fun p hp => ?_) (fun p hp => ?_) rfl, hfresh, by simp⟩
  · cases p with
    | segment s' => exact Nat.lt_of_lt_of_le hp (by simp [World.withCells])
    | _ => exact hp
  · cases p with
    | segment s' => exact getElem?_push_of_ne (Ref.index_ne fun h => hp (h ▸ rfl))
    | _ => rfl

/-! ## Listening to elements -/

/-- The listener for a value is taken down. -/
theorem cancelTap {v : Value} {id : ListenerId} {c : ListId → Callback π} (hA : N.Attentive b) (hE : E.Unlistens) (hw : N.calm w)
    (hb : N.Owns w (.block b)) (h : N.Tapped b (Tap.of v id c ++ taps) w) :
    (E.cancel (.of v id)).Ends w fun _ w' => N.Changes (watchParts b) ∅ w w' ∧ N.Tapped b taps w' := by
  cases v with
  | list l =>
    simp only [Cancel.of, hE.unlisten]
    exact hN.unlisten (t := ⟨l, id, c l⟩) hA hw hb h
  | _ =>
    simp only [Cancel.of, hE.done, Run.ends_pure]
    exact ⟨.refl hw _ _, h⟩

/-- Cancelling segments takes their listeners down. -/
theorem cancelSegments {stale : List Stretch} (hA : N.Attentive b) (hE : E.Unlistens) (hw : N.calm w) (hb : N.Owns w (.block b))
    (hnodup : (stale.map (·.segment)).Nodup) (hcovers : ∀ p ∈ stale, N.Covers p w)
    (h : N.Tapped b (stale.flatMap (·.taps b) ++ taps) w) :
    (LiveBindings.cancelSegments E (stale.map (·.segment))).Ends w fun _ w' =>
      N.Changes (segmentParts stale ∪ watchParts b) ∅ w w' ∧ N.Tapped b taps w' := by
  induction stale generalizing w with
  | nil => exact ⟨.refl hw _ _, h⟩
  | cons p stale ih =>
    rw [List.map_cons, List.nodup_cons] at hnodup
    rw [List.forall_mem_cons] at hcovers
    rw [List.flatMap_cons, List.append_assoc] at h
    simp only [List.map_cons, LiveBindings.cancelSegments, takeSegmentCancel, Run.ends_bind, ends_envCells, Run.ends_pure,
      hcovers.1.segment.2]
    refine (hN.modifySegment hw hcovers.1.owns _).imp fun _ w₁ ended => ?_
    obtain ⟨h₁, _⟩ := ended
    refine (hN.cancelTap hA hE h₁.calm (h₁.owns _ hb) (h.after h₁ hb (by simp))).imp fun _ w₂ ended => ?_
    obtain ⟨h₂, ht₂⟩ := ended
    have h₂ := h₁.andThen h₂
    have hne : ∀ q ∈ stale, .segment q.segment ∉ ({.segment p.segment} ∪ watchParts b : Set Part) := by
      rintro q hq (he | ⟨_, he⟩)
      · exact hnodup.1 (List.mem_map.2 ⟨q, hq, Part.segment.inj he⟩)
      · cases he
    refine (ih h₂.calm (h₂.owns _ hb) hnodup.2 (fun q hq => (hcovers.2 q hq).after h₂ (hne q hq)) ht₂).imp
      fun _ w₃ ended => ⟨(h₂.andThen ended.1).mono ?_ (by simp), ended.2⟩
    rw [segmentParts_cons]
    rintro q ((hq | hq) | (hq | hq))
    · exact .inl (.inl hq)
    · exact .inr hq
    · exact .inl (.inr hq)
    · exact .inr hq

/-- Watching an element: a list is listened to. -/
theorem watchSegment {v : Value} (hA : N.Attentive b) (hw : N.calm w) (hb : N.Owns w (.block b)) (h : N.Tapped b taps w)
    (hv : ∀ l, v = .list l → N.Sees w (.list l)) (index : Nat) :
    (LiveBindings.watchSegment b index v).Ends w fun s w' => N.Changes (watchParts b) ∅ w w' ∧ ¬w.Made (.segment s) ∧
      ∃ p : Stretch, p.segment = s ∧ p.value = v ∧ p.shown = w.elements v ∧ N.Covers p w' ∧ N.Tapped b (p.taps b ++ taps) w' := by
  simp only [LiveBindings.watchSegment, Run.ends_bind, ends_elementsOf]
  refine (hN.newSegment hw _).imp fun s w₁ ended => ?_
  obtain ⟨⟨h₁, hs₁⟩, hn, hc₁⟩ := ended
  have h₁' := h₁.mono (Set.empty_subset (watchParts b)) subset_rfl
  have ht₁ := h.after h₁ hb (by simp)
  cases v with
  | list l =>
    simp only [Run.ends_bind, Run.ends_pure]
    refine (hN.listen hA h₁.calm (h₁.owns _ hb) ht₁ (h₁.sees _ (hv l rfl)) (by simp [Callback.watches])).imp fun id w₂ ended => ?_
    obtain ⟨h₂, ht₂⟩ := ended
    have hs₂ := h₂.owns _ hs₁
    have hc₂ : w₂.env.cells.segments[s.index]? = w₁.env.cells.segments[s.index]? := h₂.same _ hs₁ (by simp)
    refine (hN.modifySegment h₂.calm hs₂ _).imp fun _ w₃ ended => ?_
    obtain ⟨h₃, hc₃⟩ := ended
    refine ⟨?_, hn, ⟨s, .list l, id, w.elements (.list l)⟩, rfl, rfl, rfl, ⟨h₃.owns _ hs₂, ?_⟩, ht₂.after h₃ (h₂.owns _ (h₁.owns _ hb)) (by simp)⟩
    · refine ((h₁'.trans h₂).andThen h₃).fresh ?_ (by simp)
      rintro q (hq | rfl) hm
      · exact hq
      · exact absurd hm hn
    · rw [hc₃, hc₂, hc₁]
      exact ⟨_, rfl, rfl, rfl⟩
  | _ => exact ⟨h₁', hn, ⟨s, _, ⟨0⟩, []⟩, rfl, rfl, rfl, ⟨hs₁, _, hc₁, rfl, rfl⟩, ht₁⟩

/-- The stretches for new elements. -/
structure Opened (N : Neighbours π σ) (plus : List Value) (fresh : List Stretch) (w w' : World (Callback π) (Env π σ)) : Prop where
  values : fresh.map (·.value) = plus
  nodup : (fresh.map (·.segment)).Nodup
  made : ∀ p ∈ fresh, ¬w.Made (.segment p.segment)
  covers : ∀ p ∈ fresh, N.Covers p w'
  shown : ∀ p ∈ fresh, p.shown = w.elements p.value

theorem watchSegments {plus : List Value} (hA : N.Attentive b) (hw : N.calm w) (hb : N.Owns w (.block b)) (h : N.Tapped b taps w)
    (hplus : ∀ l, .list l ∈ plus → N.Sees w (.list l)) (index : Nat) :
    (LiveBindings.watchSegments b index plus).Ends w fun ss w' => N.Changes (watchParts b) ∅ w w' ∧
      ∃ fresh, ss = fresh.map (·.segment) ∧ Opened N plus fresh w w' ∧ N.Tapped b (fresh.flatMap (·.taps b) ++ taps) w' := by
  induction plus generalizing w index taps with
  | nil => exact ⟨.refl hw _ _, [], rfl, by constructor <;> simp, h⟩
  | cons v vs ih =>
    simp only [LiveBindings.watchSegments, Run.ends_bind, Run.ends_pure]
    have hv : ∀ l, v = .list l → N.Sees w (.list l) := fun l hl => hplus l (hl ▸ List.mem_cons_self ..)
    refine (hN.watchSegment hA hw hb h hv index).imp fun s w₁ ended => ?_
    obtain ⟨h₁, hn, p, hs, hpv, hshown, hcovers, ht₁⟩ := ended
    subst hs hpv
    have hvs : ∀ l, .list l ∈ vs → N.Sees w (.list l) := fun l hl => hplus l (List.mem_cons_of_mem _ hl)
    refine (ih h₁.calm (h₁.owns _ hb) ht₁ (fun l hl => h₁.sees _ (hvs l hl)) (index + 1)).imp
      fun ss w₂ ended => ?_
    obtain ⟨h₂, fresh, hss, ho, ht₂⟩ := ended
    refine ⟨h₁.trans h₂, p :: fresh, by rw [hss, List.map_cons], ?_, ht₂.perm ?_⟩
    · have hp₁ : w₁.Made (.segment p.segment) := hcovers.owns.made
      have hvalues : ∀ q ∈ fresh, q.value ∈ vs := fun q hq => ho.values ▸ List.mem_map_of_mem hq
      constructor
      · rw [List.map_cons, ho.values]
      · rw [List.map_cons, List.nodup_cons]
        refine ⟨fun hmem => ?_, ho.nodup⟩
        obtain ⟨q, hq, he⟩ := List.mem_map.1 hmem
        exact ho.made q hq (he ▸ hp₁)
      · rw [List.forall_mem_cons]
        exact ⟨hn, fun q hq hm => ho.made q hq (h₁.made _ hm)⟩
      · rw [List.forall_mem_cons]
        exact ⟨hcovers.after h₂ (by simp), ho.covers⟩
      · rw [List.forall_mem_cons]
        refine ⟨hshown, fun q hq => ?_⟩
        rw [ho.shown q hq, h₁.elements (fun l hl => hvs l (hl ▸ hvalues q hq)) (by simp)]
    · rw [List.flatMap_cons, ← List.append_assoc]
      exact List.perm_append_comm.append_right _

/-- Telling segments where they stand. -/
theorem numberSegments {index : Nat} (hw : N.calm w) (hnodup : (ps.map (·.segment)).Nodup) (hcovers : ∀ p ∈ ps, N.Covers p w) :
    (LiveBindings.numberSegments index (ps.map (·.segment)) : Live π σ Unit).Ends w fun _ w' =>
      N.Changes (segmentParts ps) ∅ w w' ∧ (∀ p ∈ ps, N.Covers p w') ∧
        ∀ i p, ps[i]? = some p → (w'.env.cells.segment p.segment).index = index + i := by
  induction ps generalizing w index with
  | nil => exact ⟨.refl hw _ _, by simp, by simp⟩
  | cons p ps ih =>
    rw [List.map_cons, List.nodup_cons] at hnodup
    rw [List.forall_mem_cons] at hcovers
    simp only [List.map_cons, LiveBindings.numberSegments, Run.ends_bind]
    refine (hN.modifySegment hw hcovers.1.owns _).imp fun _ w₁ ended => ?_
    obtain ⟨h₁, hc₁⟩ := ended
    obtain ⟨c, hc, hcell⟩ := hcovers.1.cell
    rw [hc, Option.map_some] at hc₁
    have hp₁ : N.Covers p w₁ := ⟨h₁.owns _ hcovers.1.owns, _, hc₁, hcell⟩
    have hne : ∀ q ∈ ps, .segment q.segment ∉ ({.segment p.segment} : Set Part) := fun q hq he =>
      hnodup.1 (List.mem_map.2 ⟨q, hq, Part.segment.inj he⟩)
    refine (ih h₁.calm hnodup.2 fun q hq => (hcovers.2 q hq).after h₁ (hne q hq)).imp fun _ w₂ ended => ?_
    obtain ⟨h₂, hcovers₂, hindex⟩ := ended
    have hout := segment_notMem_segmentParts hnodup.1
    refine ⟨?_, ?_, ?_⟩
    · rw [segmentParts_cons]
      exact (h₁.andThen h₂).mono subset_rfl (by simp)
    · rw [List.forall_mem_cons]
      exact ⟨hp₁.after h₂ hout, hcovers₂⟩
    · rintro (_ | i) q hq
      · have hsame : w₂.env.cells.segments[p.segment.index]? = w₁.env.cells.segments[p.segment.index]? := h₂.same _ hp₁.owns hout
        cases hq
        simp [Cells.segment, Array.getD_eq_getD_getElem?, hsame, hc₁]
      · rw [hindex i q (by simpa using hq)]
        omega

end Around

/-! ## All stretches of a view -/

variable {V : Flattening} {outer : List (Tap π)} {A M B F : List Stretch}

theorem segmentParts_subset : segmentParts ps ⊆ V.parts := by
  rintro _ ⟨p, -, rfl⟩
  trivial

theorem watchParts_subset : watchParts V.block ⊆ V.parts := by
  rintro _ ⟨l, rfl⟩
  exact rfl

@[simp] theorem list_notMem_parts {l : ListId} : .list l ∉ V.parts := id

@[simp] theorem slot_notMem_parts {s : Ref .slot} : .slot s ∉ V.parts := id

theorem block_subset : {.block V.block} ⊆ V.parts := Set.singleton_subset_iff.2 rfl

/-- The segments and listeners of a view are those of the given stretches, and the given ones for its collection. -/
structure Laid (N : Neighbours π σ) (V : Flattening) (outer : List (Tap π)) (ps : List Stretch) (w : World (Callback π) (Env π σ)) :
    Prop where
  view : N.Keeps V.block (.flatten V.output (ps.map (·.segment))) w
  nodup : (ps.map (·.segment)).Nodup
  covers : ∀ p ∈ ps, N.Covers p w
  tapped : N.Tapped V.block (outer ++ ps.flatMap (·.taps V.block)) w

/-- Every segment knows its position. -/
def Ordered (ps : List Stretch) (w : World (Callback π) (Env π σ)) : Prop :=
  ∀ i p, ps[i]? = some p → (w.env.cells.segment p.segment).index = i

theorem Ordered.after (h : Ordered ps w) (hcovers : ∀ p ∈ ps, N.Covers p w) (h' : N.Changes S T w w')
    (hn : ∀ p ∈ ps, .segment p.segment ∉ S) : Ordered ps w' := by
  intro i p hp
  have hmem := List.mem_of_getElem? hp
  have hsame : w'.env.cells.segments[p.segment.index]? = w.env.cells.segments[p.segment.index]? :=
    h'.same _ (hcovers p hmem).owns (hn p hmem)
  rw [← h i p hp]
  simp only [Cells.segment, Array.getD_eq_getD_getElem?, hsame]

namespace Laid

theorem after (h : N.Laid V outer ps w) (h' : N.Changes S T w w') (hS : Disjoint V.parts S) : N.Laid V outer ps w' where
  view := h.view.after h' (Set.disjoint_left.1 hS rfl)
  nodup := h.nodup
  covers p hp := (h.covers p hp).after h' (Set.disjoint_left.1 hS trivial)
  tapped := h.tapped.after h' h.view.owns fun _ => Set.disjoint_left.1 hS rfl

theorem during (h : N.Laid V outer ps w) (hN : N.Around E) (hw : N.calm w) (q : Progress π) : N.Laid V outer ps (w.during q) :=
  ⟨h.view.during hN hw q, h.nodup, fun p hp => (h.covers p hp).during hN hw q, h.tapped.during hN hw q⟩

/-- The stretches of a run are taken out, and nothing is listened to for them any more. -/
theorem remove (h : N.Laid V outer (A ++ (M ++ B)) w) (hN : N.Around E) (hA : N.Attentive V.block) (hE : E.Unlistens)
    (hk : N.Keeps V.block (.flatten V.output ((A ++ B).map (·.segment))) w') (h' : N.Changes {.block V.block} ∅ w w')
    (ho : Ordered A w) :
    (LiveBindings.cancelSegments E (M.map (·.segment))).Ends w' fun _ w'' => N.Changes V.parts ∅ w w'' ∧
      N.Laid V outer (A ++ B) w'' ∧ Ordered A w'' := by
  have hmem : ∀ p ∈ A ++ B, p ∈ A ++ (M ++ B) := fun p hp => by
    rcases List.mem_append.1 hp with hp | hp <;> simp [hp]
  have hcovers : ∀ p ∈ A ++ (M ++ B), N.Covers p w' := fun p hp => (h.covers p hp).after h' (by simp)
  have htapped : N.Tapped V.block (M.flatMap (·.taps V.block) ++ (outer ++ (A ++ B).flatMap (·.taps V.block))) w' := by
    refine (h.tapped.after h' h.view.owns (by simp)).perm ?_
    simp only [List.flatMap_append]
    exact ((List.perm_append_comm_assoc ..).append_left outer).trans (List.perm_append_comm_assoc ..)
  -- the segments that stay are none of those that go
  have hout : ∀ p ∈ A ++ B, .segment p.segment ∉ segmentParts M ∪ watchParts V.block := fun p hp hm =>
    hm.elim (segment_notMem_segmentParts (notMem_map_run h.nodup hp)) segment_notMem_watchParts
  refine (hN.cancelSegments hA hE h'.calm hk.owns (nodup_map_run h.nodup) (fun p hp => hcovers p (by simp [hp])) htapped).imp
    fun _ w₂ ⟨h₂, ht₂⟩ => ⟨?_, ⟨hk.after h₂ (by simp), nodup_map_remove h.nodup, fun p hp => ?_, ht₂⟩, ?_⟩
  · exact (h'.mono block_subset subset_rfl).trans
      (h₂.mono (Set.union_subset segmentParts_subset watchParts_subset) subset_rfl)
  · exact (hcovers p (hmem p hp)).after h₂ (hout p hp)
  · refine (ho.after (fun p hp => h.covers p (by simp [hp])) h' (by simp)).after (fun p hp => hcovers p (by simp [hp])) h₂
      fun p hp => hout p (List.mem_append_left _ hp)

/-- Stretches for new elements are put in. -/
theorem insert (h : N.Laid V outer (A ++ B) w) (hN : N.Around E) {plus : List Value} (hA : N.Attentive V.block) (hw : N.calm w)
    (ho : Ordered A w) (hplus : ∀ l, .list l ∈ plus → N.Sees w (.list l)) {index : Nat}
    (hindex : min index (A ++ B).length = A.length) :
    (do
      let fresh ← LiveBindings.watchSegments V.block index plus
      let segments ← segmentsOf V.block
      let start := min index segments.length
      let segments := segments.take start ++ fresh ++ segments.drop start
      setSegments V.block segments
      LiveBindings.numberSegments start (segments.drop start) : Live π σ Unit).Ends w fun _ w' => N.Changes V.parts ∅ w w' ∧
        ∃ fresh, fresh.map (·.value) = plus ∧ (∀ p ∈ fresh, p.shown = w.elements p.value) ∧
          N.Laid V outer (A ++ (fresh ++ B)) w' ∧ Ordered (A ++ (fresh ++ B)) w' := by
  simp only [Run.ends_bind]
  refine (hN.watchSegments hA hw h.view.owns h.tapped hplus index).imp fun ss w₁ ended => ?_
  obtain ⟨h₁, fresh, hss, hopen, ht₁⟩ := ended
  subst hss
  have hk₁ := h.view.after h₁ (by simp)
  simp only [segmentsOf, Run.ends_bind, ends_envCells, hk₁.block?, Run.ends_pure, List.length_map, hindex, ← List.map_take,
    ← List.map_drop, ← List.map_append, List.take_left, List.drop_left, List.append_assoc, setSegments]
  refine (hk₁.modify hN h₁.calm _).imp fun _ w₂ ended => ?_
  obtain ⟨h₂, hk₂⟩ := ended
  -- the new segments are none of those that there were
  have hnodup : ((A ++ (fresh ++ B)).map (·.segment)).Nodup := nodup_map_insert h.nodup hopen.nodup fun p hp q hq he =>
    hopen.made q hq (he ▸ (h.covers p hp).owns.made)
  have hcovers : ∀ p ∈ A ++ (fresh ++ B), N.Covers p w₁ := fun p hp => by
    rcases List.mem_append.1 hp with hp | hp
    · exact (h.covers p (List.mem_append_left _ hp)).after h₁ (by simp)
    rcases List.mem_append.1 hp with hp | hp
    · exact hopen.covers p hp
    · exact (h.covers p (List.mem_append_right _ hp)).after h₁ (by simp)
  have hcovers₂ : ∀ p ∈ A ++ (fresh ++ B), N.Covers p w₂ := fun p hp => (hcovers p hp).after h₂ (by simp)
  have hdisjoint := hnodup
  rw [List.map_append, List.nodup_append] at hdisjoint
  have hout : ∀ p ∈ A, .segment p.segment ∉ segmentParts (fresh ++ B) := fun p hp =>
    segment_notMem_segmentParts fun hm => hdisjoint.2.2 _ (List.mem_map_of_mem hp) _ hm rfl
  refine (hN.numberSegments h₂.calm hdisjoint.2.1 fun p hp => hcovers₂ p (List.mem_append_right _ hp)).imp
    fun _ w₃ ended => ?_
  obtain ⟨h₃, hcovers₃, hnumbers⟩ := ended
  refine ⟨?_, fresh, hopen.values, hopen.shown, ⟨hk₂.after h₃ (by simp), hnodup, fun p hp => ?_, ?_⟩, fun i p hp => ?_⟩
  · exact ((h₁.mono watchParts_subset subset_rfl).trans (h₂.mono block_subset subset_rfl)).trans
      (h₃.mono segmentParts_subset subset_rfl)
  · rcases List.mem_append.1 hp with hp | hp
    · exact (hcovers₂ p (List.mem_append_left _ hp)).after h₃ (hout p hp)
    · exact hcovers₃ p hp
  · refine ((ht₁.after h₂ (h₁.owns _ h.view.owns) (by simp)).after h₃ hk₂.owns (by simp)).perm ?_
    simp only [List.flatMap_append]
    exact (List.perm_append_comm_assoc ..).trans ((List.perm_append_comm_assoc ..).append_left outer)
  · by_cases hlt : i < A.length
    · rw [List.getElem?_append_left hlt] at hp
      have hcA : ∀ {v : World (Callback π) (Env π σ)}, (∀ p ∈ A ++ (fresh ++ B), N.Covers p v) → ∀ p ∈ A, N.Covers p v :=
        fun hc p hp => hc p (List.mem_append_left _ hp)
      have ho₁ := ho.after (fun p hp => h.covers p (List.mem_append_left _ hp)) h₁ (by simp)
      exact ((ho₁.after (hcA hcovers) h₂ (by simp)).after (hcA hcovers₂) h₃ hout) i p hp
    · rw [List.getElem?_append_right (Nat.le_of_not_lt hlt)] at hp
      rw [hnumbers _ p hp]
      omega

/-- One stretch shows something else, and so its segment has another length. -/
theorem relength {p : Stretch} {i : Nat} {next : List Value} {c : Segment π} (h : N.Laid V outer ps w) (ho : Ordered ps w)
    (hi : ps[i]? = some p) (hc : w.env.cells.segments[p.segment.index]? = some c) (h' : N.Changes {.segment p.segment} ∅ w w')
    (hc' : w'.env.cells.segments[p.segment.index]? = some { c with length := next.length }) :
    N.Laid V outer (ps.set i { p with shown := next }) w' ∧ Ordered (ps.set i { p with shown := next }) w' := by
  have hp := List.mem_of_getElem? hi
  have hsegments : (ps.set i { p with shown := next }).map (·.segment) = ps.map (·.segment) := map_set_same hi rfl
  have htaps : (ps.set i { p with shown := next }).flatMap (·.taps V.block : Stretch → List (Tap π)) = ps.flatMap (·.taps V.block) := by
    rw [List.flatMap_def, List.flatMap_def]
    exact congrArg List.flatten (map_set_same hi rfl)
  -- a stretch of the new ones is the changed one or an old one with another segment
  have hstretch {j : Nat} {q : Stretch} (hq : (ps.set i { p with shown := next })[j]? = some q) :
      (j = i ∧ q = { p with shown := next }) ∨ (ps[j]? = some q ∧ q.segment ≠ p.segment) := getElem?_set_cases h.nodup hi hq
  have hout {q : Stretch} (he : q.segment ≠ p.segment) : .segment q.segment ∉ ({.segment p.segment} : Set Part) :=
    fun hm => he (Part.segment.inj hm)
  refine ⟨⟨?_, hsegments ▸ h.nodup, fun q hq => ?_, ?_⟩, fun j q hq => ?_⟩
  · rw [hsegments]
    exact h.view.after h' (by simp)
  · obtain ⟨j, hj⟩ := List.getElem?_of_mem hq
    rcases hstretch hj with ⟨-, rfl⟩ | ⟨hq, he⟩
    · obtain ⟨c₀, hc₀, -, hcancel⟩ := (h.covers p hp).cell
      obtain rfl := Option.some.inj (hc₀.symm.trans hc)
      exact ⟨h'.owns _ (h.covers p hp).owns, _, hc', rfl, hcancel⟩
    · exact (h.covers q (List.mem_of_getElem? hq)).after h' (hout he)
  · rw [htaps]
    exact h.tapped.after h' h.view.owns (by simp)
  · rcases hstretch hq with ⟨rfl, rfl⟩ | ⟨hq, he⟩
    · rw [← ho j p hi]
      simp [Cells.segment, Array.getD_eq_getD_getElem?, hc', hc]
    · have hsame : w'.env.cells.segments[q.segment.index]? = w.env.cells.segments[q.segment.index]? :=
        h'.same _ (h.covers q (List.mem_of_getElem? hq)).owns (hout he)
      rw [← ho j q hq]
      simp only [Cells.segment, Array.getD_eq_getD_getElem?, hsame]

end Laid

/-- A view shows its stretches, one after the other. -/
structure Tiles (N : Neighbours π σ) (V : Flattening) (outer : List (Tap π)) (ps : List Stretch) (w : World (Callback π) (Env π σ)) :
    Prop extends N.Laid V outer ps w where
  ordered : Ordered ps w
  owns : N.Owns w (.list V.output)
  items : SameItems (w.listCell V.output).items (ps.flatMap (·.shown))

theorem ends_allElements (vs : List Value) (Q : List Value → World (Callback π) (Env π σ) → Prop) :
    (allElements vs).Ends w Q ↔ Q (vs.flatMap w.elements) w := by
  induction vs generalizing Q with
  | nil => rfl
  | cons v vs ih => simp only [allElements, Run.ends_bind, ends_elementsOf, ih, Run.ends_pure, List.flatMap_cons]

namespace Tiles

theorem after (h : N.Tiles V outer ps w) (h' : N.Changes S T w w') (hS : Disjoint (insert (.list V.output) V.parts) S) :
    N.Tiles V outer ps w' where
  toLaid := h.toLaid.after h' (Disjoint.mono_left (Set.subset_insert ..) hS)
  ordered := h.ordered.after h.covers h' fun _ _ => Set.disjoint_left.1 hS (.inr trivial)
  owns := h'.owns _ h.owns
  items := by
    have hsame : (w'.listCell V.output).items = (w.listCell V.output).items :=
      h'.same _ h.owns (Set.disjoint_left.1 hS (.inl rfl))
    rw [hsame]
    exact h.items

theorem during (h : N.Tiles V outer ps w) (hN : N.Around E) (hw : N.calm w) (q : Progress π) : N.Tiles V outer ps (w.during q) :=
  ⟨h.toLaid.during hN hw q, h.ordered, hN.owns_during hw h.owns q, h.items⟩

/-- The view listens to something else for its collection. -/
theorem retap {outer' : List (Tap π)} (h : N.Tiles V outer ps w) (h' : N.Changes (watchParts V.block) T w w')
    (ht : N.Tapped V.block (outer' ++ ps.flatMap (·.taps V.block)) w') : N.Tiles V outer' ps w' where
  view := h.view.after h' (by simp)
  nodup := h.nodup
  covers p hp := (h.covers p hp).after h' (by simp)
  tapped := ht
  ordered := h.ordered.after h.covers h' (by simp)
  owns := h'.owns _ h.owns
  items := by
    have hsame : (w'.listCell V.output).items = (w.listCell V.output).items := h'.same _ h.owns (by simp)
    rw [hsame]
    exact h.items

/-- The list of the view is none of those that it looks at. -/
theorem notMem (h : N.Tiles V outer ps w) (l : ListId) (hl : N.Sees w (.list l)) : .list l ∉ insert (.list V.output) V.parts := by
  rintro (he | hm)
  · cases he
    exact h.owns.apart hl.source
  · exact hm

/-- The view looks at the elements that are lists. -/
theorem sees (h : N.Tiles V outer ps w) (hp : p ∈ ps) (l : ListId) (hl : p.value = .list l) : N.Sees w (.list l) :=
  h.tapped.sees ⟨l, p.id, .segment V.block p.segment l⟩
    (List.mem_append_right _ (List.mem_flatMap.2 ⟨p, hp, Tap.mem_of.2 ⟨hl, rfl, rfl⟩⟩))

/-- Some of the elements were replaced. -/
theorem splice (h : N.Tiles V outer ps w) (hN : N.Around E) (hA : N.Attentive V.block) (hE : E.Unlistens) (hw : N.calm w)
    (room : w.Admits) (index removed : Nat) {plus : List Value} (hplus : ∀ l, .list l ∈ plus → N.Sees w (.list l)) :
    (spliceFlatten E V.block V.output index removed plus).Ends w fun _ w' =>
      N.Changes (insert (.list V.output) V.parts) {.list V.output} w w' ∧
      ∃ fresh, fresh.map (·.value) = plus ∧ (∀ p ∈ fresh, p.shown = w.elements p.value) ∧
        N.Tiles V outer (ps.take index ++ fresh ++ ps.drop (index + removed)) w' := by
  obtain ⟨A, M, B, hcut⟩ := Cut.exists_cut ps index removed
  rw [hcut.take, hcut.drop]
  obtain rfl := hcut.parts
  simp only [spliceFlatten, segmentsOf, Run.ends_bind, ends_envCells, h.view.block?, Run.ends_pure, List.length_map, hcut.start,
    hcut.stop, ← List.map_take, ← List.map_drop, ← List.map_append, List.take_left, hcut.run_eq, hcut.after_eq, setSegments]
  refine (h.view.modify hN hw _).imp fun _ w₁ ended => ?_
  obtain ⟨h₁, hk₁⟩ := ended
  have hM : ∀ p ∈ M, N.Covers p w₁ := fun p hp => (h.covers p (by simp [hp])).after h₁ (by simp)
  rw [segmentsLength_eq fun p hp => h.covers p (List.mem_append_left _ hp), segmentsLength_eq hM]
  have hA₀ : Ordered A w := fun i p hp => h.ordered i p (by rw [List.getElem?_append_left (List.getElem?_eq_some_iff.1 hp).1, hp])
  refine (h.toLaid.remove hN hA hE hk₁ h₁ hA₀).imp fun _ w₂ ended => ?_
  obtain ⟨h₂, hlaid₂, ho₂⟩ := ended
  have hinsert := hlaid₂.insert hN hA h₂.calm ho₂ (fun l hl => h₂.sees _ (hplus l hl)) hcut.rest
  simp only [segmentsOf, Run.ends_bind, ends_envCells, setSegments] at hinsert
  refine hinsert.imp fun _ w₃ h₃ => h₃.imp fun _ w₄ h₄ => h₄.imp fun _ w₅ h₅ => h₅.imp
    fun _ w₆ ended => ?_
  obtain ⟨h₆, fresh, hvalues, hshown, hlaid₆, ho₆⟩ := ended
  -- nothing but the cells of the view and its listeners has changed by now
  have h₂₆ := h₂.trans h₆
  have hsees {p : Stretch} (hp : p ∈ fresh) : ∀ l, p.value = .list l → N.Sees w (.list l) := fun l hl =>
    hplus l (hvalues ▸ hl ▸ List.mem_map_of_mem hp)
  have hshown' : ∀ p ∈ fresh, p.shown = w.elements p.value := fun p hp =>
    (hshown p hp).trans (h₂.elements (hsees hp) (by simp))
  have hplus' : plus.flatMap w₆.elements = fresh.flatMap (·.shown) := by
    rw [← hvalues, List.flatMap_map]
    exact List.flatMap_congr fun p hp => (h₂₆.elements (hsees hp) (by simp)).trans (hshown' p hp).symm
  have hitems₆ : (w₆.listCell V.output).items = (w.listCell V.output).items := h₂₆.same _ h.owns (by simp)
  rw [ends_allElements, Run.ends_discard, hplus']
  refine (hN.splice h₂₆.calm (h₂₆.owns _ h.owns) (h₂₆.admits room) _ _ _).imp fun _ w₇ h₇ => ?_
  refine ⟨(h₂₆.mono (Set.subset_insert ..) (Set.empty_subset _)).trans (h₇.changes.mono (by simp) subset_rfl), fresh, hvalues, hshown', ?_⟩
  rw [List.append_assoc]
  refine ⟨hlaid₆.after h₇.changes (by simp), ho₆.after hlaid₆.covers h₇.changes (by simp), h₇.owns (h₂₆.owns _ h.owns), ?_⟩
  rw [h₇.items, hitems₆]
  have hrun := h.items.replaceRun (A.flatMap (·.shown)).length (M.flatMap (·.shown)).length (.refl (fresh.flatMap (·.shown)))
  rwa [List.flatMap_append, List.flatMap_append, replaceRun_parts, ← List.flatMap_append, ← List.flatMap_append] at hrun

/-- The list of one element is looked at again. -/
theorem refill {p : Stretch} {i : Nat} (h : N.Tiles V outer ps w) (hN : N.Around E) (hw : N.calm w) (room : w.Admits)
    (hi : ps[i]? = some p) (next : List Value) :
    (refillSegment E V.block V.output p.segment next).Ends w fun _ w' =>
      N.Changes (insert (.list V.output) V.parts) {.list V.output} w w' ∧ N.Tiles V outer (ps.set i { p with shown := next }) w' := by
  have hp := List.mem_of_getElem? hi
  obtain ⟨hlt, hget⟩ := List.getElem?_eq_some_iff.1 hi
  have hparts : ps = ps.take i ++ p :: ps.drop (i + 1) := by rw [← hget, ← List.drop_eq_getElem_cons hlt, List.take_append_drop]
  simp only [refillSegment, segmentsOf, Run.ends_bind, ends_envCells, h.view.block?, Run.ends_pure, h.ordered i p hi,
    (h.covers p hp).segment.1, ← List.map_take, segmentsLength_eq fun q hq => h.covers q (List.mem_of_mem_take hq)]
  refine (hN.modifySegment hw (h.covers p hp).owns _).imp fun _ w₁ ended => ?_
  obtain ⟨h₁, hc₁⟩ := ended
  obtain ⟨c, hc, -, -⟩ := (h.covers p hp).cell
  rw [hc, Option.map_some] at hc₁
  obtain ⟨hlaid, hordered⟩ := h.toLaid.relength h.ordered hi hc h₁ hc₁
  have hitems₁ : (w₁.listCell V.output).items = (w.listCell V.output).items := h₁.same _ h.owns (by simp)
  refine (hN.replaceSpan h₁.calm (h₁.owns _ h.owns) (h₁.admits room) _ _ next).imp fun _ w₂ ended => ?_
  obtain ⟨h₂, hitems, _⟩ := ended
  refine ⟨?_, ?_⟩
  · exact (h₁.mono (Set.singleton_subset_iff.2 (.inr trivial)) (Set.empty_subset _)).trans (h₂.mono (by simp) subset_rfl)
  refine ⟨hlaid.after h₂ (by simp), hordered.after hlaid.covers h₂ (by simp), h₂.owns _ (h₁.owns _ h.owns),
    hitems.trans ?_⟩
  rw [hitems₁]
  have hrun := h.items.replaceRun ((ps.take i).flatMap (·.shown)).length p.shown.length (.refl next)
  rw [hparts, List.flatMap_append, List.flatMap_cons, ← hparts, replaceRun_parts] at hrun
  rwa [List.set_eq_take_append_cons_drop, if_pos hlt, List.flatMap_append, List.flatMap_cons]

end Tiles

end Neighbours

end LiveBindings
