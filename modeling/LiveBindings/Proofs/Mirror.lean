import LiveBindings.Proofs.Notice
import Mathlib.Data.List.Cycle

/-!
# Rings of guarded mirrors

A mirror is a listener that makes every change of its list in another list, unless that one is itself in the middle of a
content dispatch. Lists that are joined in a ring by such mirrors stay the same: a change of one of them goes once round
the ring and stops at the list it began with, which is the only one still in dispatch (`Mirror.fire_passes`, by induction
on the lists that are still to come). `Mirror.converges` says so for any sequence of calls.
-/

namespace LiveBindings

/-- A listener of `source` that keeps `target` the same. -/
structure Mirror where
  source : ListId
  target : ListId

/-- What mirrors do, at most `nesting` of them inside one another: they note whose change they are told of, and make the
change in their target unless a content dispatch of the target is in flight. -/
def Mirror.reactions : Nat → Reactions Mirror (List ListId)
  | 0 => { fire := fun _ _ => throw .exhausted }
  | nesting + 1 => {
    fire := fun mirror e => do
      if let .content added removed index := e then
        modify fun w => { w with env := w.env ++ [mirror.source] }
        unless ← mirror.target.isActive do
          discard <| mirror.target.splice (Mirror.reactions nesting) index removed.length added }

/-- The only listener of a list mirrors it in another one. -/
def World.Mirrors {ε : Type} (w : World Mirror ε) (l m : ListId) : Prop :=
  ∃ id, (w.listCell l).listeners = [⟨id, .content, ⟨l, m⟩⟩]

/-- The change that is reported, made in other items. -/
def ListReport.again (r : ListReport) (items : List Value) : List Value :=
  replaceRun items r.index r.removed.length r.added

theorem Edit.reported_of_replacing? {items removed added : List Value} {index : Nat} {e : Edit}
    (he : Edit.replacing? items index removed added = some e) : e.reported = { index, added, removed } := by
  rw [Edit.replacing?] at he
  split at he
  · cases he
  · cases he
    rfl

theorem Edit.replacing?_eq_none {items removed added : List Value} {index : Nat} :
    Edit.replacing? items index removed added = none ↔ added = [] ∧ removed = [] := by
  rw [Edit.replacing?]
  cases added <;> cases removed <;> simp

/-! ## A list with a single listener, of its content -/

section

variable {κ ε : Type} {R : Reactions κ ε} {l : ListId} {w : World κ ε}

theorem Listeners.on_lone {id : ListenerId} {callback : κ} {topic : ListTopic} (h : topic ≠ .content) :
    Listeners.on topic [(⟨id, .content, callback⟩ : Listener ListTopic κ)] = [] := by
  simp [Listeners.on, Ne.symm h]

/-- A length that nobody listens to is told to nobody. -/
theorem ListId.tellLength_unheard (hR : R.letGo = pure ()) {topic : ListTopic}
    (h : Listeners.on topic (w.listCell l).listeners = []) (length : Nat) {Q : Unit → World κ ε → Prop} :
    (l.tellLength R topic length).Ends w Q ↔ Q () w := by
  simp only [ListId.tellLength, Run.ends_bind, ListId.ends_listeners, h, List.map_nil, Run.ends_holding, tellAll,
    Run.ends_pure, hR]

theorem ListId.tellContent_unheard {topic : ListTopic} (h : Listeners.on topic (w.listCell l).listeners = [])
    (report : ListReport) {Q : Unit → World κ ε → Prop} : (l.tellContent R topic report).Ends w Q ↔ Q () w := by
  simp only [ListId.tellContent, Run.ends_bind, ListId.ends_listeners, h, tellInTurn, Run.ends_pure]

theorem ListId.tellSpan_unheard {topic : ListTopic} (h : Listeners.on topic (w.listCell l).listeners = [])
    (change : ListChange) {Q : Unit → World κ ε → Prop} : (l.tellSpan R topic change).Ends w Q ↔ Q () w := by
  simp only [ListId.tellSpan, Run.ends_bind, ListId.ends_listeners, h, List.isEmpty_nil, if_true, Run.ends_pure]

/-- The single listener of the content is told. -/
theorem ListId.tellContent_lone (hR : R.letGo = pure ()) {id : ListenerId} {callback : κ}
    (h : (w.listCell l).listeners = [⟨id, .content, callback⟩]) (report : ListReport) {Q : World κ ε → Prop}
    (fire : ∀ held, (R.fire callback report.event).Ends { w with held } fun _ w' => Q { w' with held := w.held }) :
    (l.tellContent R .content report).Ends w fun _ => Q := by
  have hon : Listeners.on .content (w.listCell l).listeners = [⟨id, .content, callback⟩] := by
    rw [h]
    rfl
  have hregistered : ∀ held, l.registered { w with held } id = true := fun held => by
    change Listeners.isRegistered id (w.listCell l).listeners = true
    rw [h]
    simp [Listeners.isRegistered]
  simp only [ListId.tellContent, Run.ends_bind, ListId.ends_listeners, hon, tellInTurn, List.map_nil, Run.ends_withHeld,
    Run.ends_holding, tell, Run.ends_get, hregistered, if_true, hR, Run.ends_pure]
  exact fire _

/-- Nothing is told before a change. -/
theorem ListId.opening_lone (hR : R.letGo = pure ()) {id : ListenerId} {callback : κ} (hl : l.Exists w)
    (h : (w.listCell l).listeners = [⟨id, .content, callback⟩]) (change : ListChange) (before : ListReport)
    {Q : Unit → World κ ε → Prop} :
    (l.opening R change before).Ends w Q ↔
      Q () (w.modifyList l fun c => { c with dispatching := c.dispatching + 1 }) := by
  have hon : ∀ topic, topic ≠ .content → Listeners.on topic (w.listCell l).listeners = [] := fun _ ht => by
    rw [h, Listeners.on_lone ht]
  have hon' : ∀ topic, topic ≠ .content → Listeners.on topic
      ((w.modifyList l fun c => { c with dispatching := c.dispatching + 1 }).listCell l).listeners = [] := fun _ ht => by
    rw [World.listCell_modifyList, if_pos ⟨rfl, hl⟩, h, Listeners.on_lone ht]
  unfold ListId.opening
  by_cases hc : change.oldLength = change.newLength
  · simp only [hc, bne_self_eq_false, Bool.false_eq_true, if_false, Run.ends_bind, Run.ends_modify,
      ListId.tellContent_unheard (hon' .beforeContent (by decide)), ListId.tellSpan_unheard (hon' .beforeEach (by decide))]
  · simp only [bne_iff_ne, ne_eq, hc, not_false_eq_true, if_true, Run.ends_bind, Run.ends_modify,
      ListId.tellLength_unheard hR (hon .beforeLength (by decide)),
      ListId.tellContent_unheard (hon' .beforeContent (by decide)), ListId.tellSpan_unheard (hon' .beforeEach (by decide))]

/-- After a change only the single listener is told. -/
theorem ListId.closing_lone (hR : R.letGo = pure ()) {id : ListenerId} {callback : κ}
    (h : (w.listCell l).listeners = [⟨id, .content, callback⟩]) (change : ListChange) (report : ListReport)
    {Q : World κ ε → Prop}
    (fire : ∀ held, (R.fire callback report.event).Ends { w with held } fun _ w' => l.Exists w' ∧
      (w'.listCell l).listeners = (w.listCell l).listeners ∧
      Q (World.modifyList l (fun c => { c with dispatching := c.dispatching - 1 }) { w' with held := w.held })) :
    (l.closing R change report).Ends w fun _ => Q := by
  have heach : Listeners.on .each (w.listCell l).listeners = [] := by rw [h, Listeners.on_lone (by decide)]
  rw [ListId.closing, Run.ends_bind, ListId.tellSpan_unheard heach, Run.ends_bind]
  refine ListId.tellContent_lone hR h report fun held => (fire held).imp ?_
  rintro _ w' ⟨hl, hls, hQ⟩
  rw [Run.ends_bind, Run.ends_modify]
  split
  · rw [Run.ends_bind, ListId.ends_length, ListId.tellLength_unheard hR]
    · exact hQ
    · rw [World.listCell_modifyList, if_pos ⟨rfl, hl⟩]
      exact (congrArg (Listeners.on .length) (hls.trans h)).trans (Listeners.on_lone (by decide))
  · exact hQ

end

/-! ## What all lists go through -/

section

variable {κ α : Type}

/-- Between two worlds every list has gone through what `f` says of it, and `told` has been noted. -/
def World.Passed (f : ListId → ListCell κ → ListCell κ) (told : List α) (w w' : World κ (List α)) : Prop :=
  ∀ l : ListId, l.Through id (f l) (· ++ told) w w'

variable {f g : ListId → ListCell κ → ListCell κ} {told told' : List α} {w w' w'' : World κ (List α)}

namespace World.Passed

theorem trans (h : Passed f told w w') (h' : Passed g told' w' w'') :
    Passed (fun l c => g l (f l c)) (told ++ told') w w'' := fun l => by
  have t := (h l).trans (h' l)
  exact ⟨t.cell, t.stays, t.depth, t.config, t.view.trans (List.append_assoc _ _ _)⟩

theorem congr (h : Passed f told w w') (hfg : ∀ l, f l (w.listCell l) = g l (w.listCell l)) : Passed g told w w' :=
  fun l => ⟨(h l).cell.trans (hfg l), (h l).stays, (h l).depth, (h l).config, (h l).view⟩

theorem refl (w : World κ (List α)) : Passed (fun _ c => c) [] w w :=
  fun _ => ⟨rfl, id, rfl, rfl, (List.append_nil _).symm⟩

theorem noted (w : World κ (List α)) (told : List α) : Passed (fun _ c => c) told w { w with env := w.env ++ told } :=
  fun _ => ⟨rfl, id, rfl, rfl, rfl⟩

/-- What happens while one more dispatch is in flight. -/
theorem nested (h : Passed f told w.deeper w') : Passed f told w w'.shallower :=
  fun l => ⟨(h l).cell, (h l).stays, congrArg (· - 1) (h l).depth, (h l).config, (h l).view⟩

/-- The callbacks that are held are nothing that a list goes through. -/
theorem held (h : Passed f told w w') (callbacks : List κ) : Passed f told w { w' with held := callbacks } :=
  fun l => ⟨(h l).cell, (h l).stays, (h l).depth, (h l).config, (h l).view⟩

theorem modifyList {l : ListId} (h : l.Exists w) (cell : ListCell κ → ListCell κ) :
    Passed (fun m c => if m = l then cell c else c) [] w (w.modifyList l cell) := fun m => by
  refine ⟨?_, m.exists_lasting.list w l cell, rfl, rfl, (List.append_nil _).symm⟩
  rw [World.listCell_modifyList]
  by_cases hm : m = l
  · subst hm
    exact (if_pos ⟨rfl, h⟩).trans (if_pos rfl).symm
  · exact (if_neg fun hc => hm hc.1).trans (if_neg hm).symm

end World.Passed

variable {R : Reactions κ (List α)} {l : ListId}

/-- A change of a list whose single listener leaves that list alone: the list comes to the result of the edit, and the
other lists go through what the listener makes of what it is told. -/
theorem ListId.apply_passes (hR : R.letGo = pure ()) {id : ListenerId} {callback : κ} {items : List Value}
    (h : l.Exists w) (hls : (w.listCell l).listeners = [⟨id, .content, callback⟩]) (hi : (w.listCell l).items = items)
    (hd : w.depth < w.config.maxDispatchDepth) {change : ListChange} {before : ListReport}
    {mutate : Run κ (List α) ListReport} {edit? : World κ (List α) → Option Edit}
    (carried : Edit.Carried l items edit? change before mutate) {g : Edit → ListId → ListCell κ → ListCell κ}
    {t : Edit → List α} (own : ∀ e c, g e l c = c)
    (fire : ∀ w₁ w₂ e, edit? w₁ = some e →
      World.Passed (fun m c => if m = l then { c with items := e.result, dispatching := c.dispatching + 1 } else c) []
        w.deeper w₂ →
      (R.fire callback e.reported.event).Ends w₂ fun _ => World.Passed (g e) (t e) w₂) :
    (l.apply R change before mutate).Ends w fun _ w' => ∃ w₁ e, (w₁.listCell l).items = items ∧ edit? w₁ = some e ∧
      World.Passed (fun m c => if m = l then { c with items := e.result } else g e m c) (t e) w w' := by
  rw [ListId.apply_ends_iff hd, ListId.opening_lone (w := w.deeper) hR h hls]
  have h₁ := World.Passed.modifyList (w := w.deeper) h fun c => { c with dispatching := c.dispatching + 1 }
  generalize w.deeper.modifyList l (fun c => { c with dispatching := c.dispatching + 1 }) = w₁ at h₁ ⊢
  have hcell₁ : w₁.listCell l = { w.listCell l with dispatching := (w.listCell l).dispatching + 1 } :=
    (h₁ l).cell.trans (if_pos rfl)
  have hi₁ : (w₁.listCell l).items = items := (congrArg ListCell.items hcell₁).trans hi
  obtain ⟨e, he, -, -, hm⟩ := carried w₁ ((h₁ l).stays h) hi₁
  refine hm.imp ?_
  rintro _ w₂ ⟨rfl, rfl⟩
  have h₂ := (h₁.trans (World.Passed.modifyList ((h₁ l).stays h) fun c => { c with items := e.result })).congr
    (g := fun m c => if m = l then { c with items := e.result, dispatching := c.dispatching + 1 } else c) fun m => by
      by_cases hm : m = l <;> simp [hm]
  generalize (w₁.modifyList l fun c => { c with items := e.result }) = w₂ at h₂ ⊢
  have hcell₂ : w₂.listCell l = _ := (h₂ l).cell.trans (if_pos rfl)
  refine ListId.closing_lone hR (by rw [hcell₂]; exact hls) change e.reported fun held => ?_
  refine (fire w₁ _ e he (h₂.held held)).imp fun _ w₃ h₃ => ?_
  have h₄ := (h₂.held held).trans h₃
  have hcell₄ : w₃.listCell l = w₂.listCell l := ((h₃ l).cell).trans (own e _)
  refine ⟨(h₄ l).stays h, congrArg ListCell.listeners hcell₄, w₁, e, hi₁, he, World.Passed.nested ?_⟩
  have h₅ := (h₄.held w₂.held).trans (World.Passed.modifyList (w := { w₃ with held := w₂.held }) ((h₄ l).stays h)
    fun c => { c with dispatching := c.dispatching - 1 })
  rw [List.append_nil, List.nil_append] at h₅
  refine h₅.congr fun m => ?_
  by_cases hm : m = l
  · subst hm
    simp [own]
  · simp [hm]

end

/-! ## A change on its way round -/

namespace Mirror

/-- The lists `chain` are joined by mirrors, from `source` on and up to `close`; they are at rest and have room for a change
that reaches up to `reach`; at `close` it stops. -/
structure Ready (source : ListId) (chain : List ListId) (close : ListId) (reach : Nat)
    (w : World Mirror (List ListId)) : Prop where
  linked : List.IsChain w.Mirrors (source :: (chain ++ [close]))
  stands : ∀ l ∈ chain, l.Exists w
  inactive : ∀ l ∈ chain, w.isActive l = false
  fits : ∀ l ∈ chain, reach ≤ (w.listCell l).items.length
  closed : w.isActive close = true
  nodup : chain.Nodup
  depth : w.depth + chain.length ≤ w.config.maxDispatchDepth

variable {w w' : World Mirror (List ListId)} {source close : ListId} {chain : List ListId} {reach : Nat}

/-- The listener of the source mirrors it in the next list. -/
theorem mirrors_head (h : List.IsChain w.Mirrors (source :: (chain ++ [close]))) :
    w.Mirrors source (chain.headD close) := by
  cases chain with
  | nil => exact List.isChain_pair.1 h
  | cons l chain => exact (List.isChain_cons_cons.1 h).1

/-- While a list is in dispatch, the lists after it are ready for its change; it may itself be where the change stops. -/
theorem ready_of_passed {l : ListId} {items : List Value} (linked : List.IsChain w.Mirrors (l :: (chain ++ [close])))
    (stands : ∀ m ∈ chain, m.Exists w) (inactive : ∀ m ∈ chain, w.isActive m = false)
    (fits : ∀ m ∈ chain, reach ≤ (w.listCell m).items.length) (closed : close = l ∨ w.isActive close = true)
    (nodup : (l :: chain).Nodup) (depth : w.depth + (l :: chain).length ≤ w.config.maxDispatchDepth)
    (hp : World.Passed (fun m c => if m = l then { c with items, dispatching := c.dispatching + 1 } else c) [] w.deeper
      w') : Ready l chain close reach w' := by
  have hnodup := List.nodup_cons.1 nodup
  have hcell : ∀ m, w'.listCell m = if m = l
      then { w.listCell m with items, dispatching := (w.listCell m).dispatching + 1 } else w.listCell m :=
    fun m => (hp m).cell
  have hother : ∀ m ∈ chain, w'.listCell m = w.listCell m := fun m hm => by
    rw [hcell, if_neg]
    rintro rfl
    exact hnodup.1 hm
  refine ⟨?_, fun m hm => (hp m).stays (stands m hm), fun m hm => ?_, fun m hm => ?_, ?_, hnodup.2, ?_⟩
  · refine linked.imp fun m m' hm => ?_
    rw [World.Mirrors, hcell]
    split <;> exact hm
  · rw [World.isActive, hother m hm]
    exact inactive m hm
  · rw [hother m hm]
    exact fits m hm
  · rw [World.isActive, decide_eq_true_eq, hcell]
    split
    · exact Nat.succ_pos _
    · rename_i hne
      have hactive := closed.resolve_left hne
      rwa [World.isActive, decide_eq_true_eq] at hactive
  · rw [(hp l).depth, (hp l).config]
    rw [List.length_cons] at depth
    change w.depth + 1 + chain.length ≤ w.config.maxDispatchDepth
    omega

/-- When the next list is in dispatch, the lists after it are ready. -/
theorem Ready.next {l : ListId} {items : List Value} (h : Ready source (l :: chain) close reach w)
    (hp : World.Passed (fun m c => if m = l then { c with items, dispatching := c.dispatching + 1 } else c) [] w.deeper
      w') : Ready l chain close reach w' :=
  ready_of_passed (List.isChain_cons_cons.1 h.linked).2 (fun m hm => h.stands m (List.mem_cons_of_mem _ hm))
    (fun m hm => h.inactive m (List.mem_cons_of_mem _ hm)) (fun m hm => h.fits m (List.mem_cons_of_mem _ hm))
    (Or.inr h.closed) h.nodup h.depth hp

/-- A mirror notes the change, and then stops at a target in dispatch or changes the target. -/
theorem ends_fire (nesting : Nat) (mirror : Mirror) (report : ListReport) {Q : World Mirror (List ListId) → Prop} :
    ((reactions (nesting + 1)).fire mirror report.event).Ends w (fun _ => Q) ↔
      if w.isActive mirror.target then Q { w with env := w.env ++ [mirror.source] }
      else (mirror.target.splice (reactions nesting) report.index report.removed.length report.added).Ends
        { w with env := w.env ++ [mirror.source] } fun _ => Q := by
  have hactive : World.isActive { w with env := w.env ++ [mirror.source] } mirror.target = w.isActive mirror.target := rfl
  simp only [reactions, ListReport.event, Run.ends_bind, Run.ends_modify, ListId.isActive, Run.ends_stateGet,
    Run.ends_pure, hactive]
  split <;> simp only [Run.ends_pure, Run.ends_discard]

theorem letGo_reactions (nesting : Nat) : (reactions nesting).letGo = pure () := by
  cases nesting <;> rfl

/-- A change that a list reports is made once in every list that is still to come, one after the other, and stops. -/
theorem fire_passes (chain : List ListId) {report : ListReport} (heffective : ¬(report.added = [] ∧ report.removed = []))
    {nesting : Nat} (hnesting : chain.length ≤ nesting)
    (h : Ready source chain close (report.index + report.removed.length) w) :
    ((reactions (nesting + 1)).fire ⟨source, chain.headD close⟩ report.event).Ends w fun _ =>
      World.Passed (fun l c => if l ∈ chain then { c with items := report.again c.items } else c) (source :: chain) w := by
  induction chain generalizing source nesting w report with
  | nil =>
    rw [ends_fire, List.headD_nil, if_pos h.closed]
    exact World.Passed.noted w [source]
  | cons l chain ih =>
    obtain ⟨nesting, rfl⟩ : ∃ n, nesting = n + 1 := ⟨nesting - 1, by rw [List.length_cons] at hnesting; omega⟩
    rw [ends_fire, List.headD_cons, if_neg (by rw [h.inactive l List.mem_cons_self]; exact Bool.false_ne_true)]
    have hnoted := World.Passed.noted w [source]
    have h : Ready source (l :: chain) close (report.index + report.removed.length)
        { w with env := w.env ++ [source] } :=
      ⟨h.linked, h.stands, h.inactive, h.fits, h.closed, h.nodup, h.depth⟩
    generalize ({ w with env := w.env ++ [source] } : World Mirror (List ListId)) = w₀ at hnoted h ⊢
    obtain ⟨id, hls⟩ := mirrors_head (List.isChain_cons_cons.1 h.linked).2
    have hfits := h.fits l List.mem_cons_self
    have hdepth := h.depth
    rw [List.length_cons] at hdepth hnesting
    generalize hi : (w₀.listCell l).items = items at hfits
    generalize hremoved : (items.drop report.index).take report.removed.length = removed
    have hlength : removed.length = report.removed.length := by
      rw [← hremoved, List.length_take, List.length_drop]
      omega
    have heffective : ¬(report.added = [] ∧ removed = []) := fun hnone =>
      heffective ⟨hnone.1, List.length_eq_zero_iff.1 (hlength ▸ congrArg List.length hnone.2)⟩
    have again : ∀ e : Edit, e.reported = ⟨report.index, report.added, removed⟩ → e.reported.again = report.again :=
      fun e he => funext fun _ => by rw [he, ListReport.again, ListReport.again, hlength]
    have hedit : Edit.replacing? items report.index removed report.added = Edit.replacing? items
        (min report.index items.length) ((items.drop (min report.index items.length)).take report.removed.length)
        report.added := by
      rw [Nat.min_eq_left (by omega), hremoved]
    refine ListId.splice_carries hi _ _ _ (fun _ => hedit) (fun idle => ?_) fun change before mutate carried => ?_
    · exact absurd (Edit.replacing?_eq_none.1 (idle w)) heffective
    · refine (ListId.apply_passes (g := fun e m c => if m ∈ chain then { c with items := e.reported.again c.items } else c)
        (t := fun _ => l :: chain) (letGo_reactions _) (h.stands l List.mem_cons_self) hls hi (by omega) carried
        (fun e c => if_neg (List.nodup_cons.1 h.nodup).1) fun w₁ w₂ e he hp => ?_).imp ?_
      · have hready := h.next hp
        rw [← hlength] at hready
        have hr := Edit.reported_of_replacing? he
        exact ih (by rw [hr]; exact heffective) (by omega) (by rw [hr]; exact hready)
      · rintro _ w' ⟨w₁, e, -, he, hp⟩
        have hreplaces := Edit.replaces_of_replacing? (by omega) he
        have hsame := again e (Edit.reported_of_replacing? he)
        refine (hnoted.trans hp).congr fun m => ?_
        by_cases hm : m = l
        · subst hm
          have hcell : w₀.listCell m = w.listCell m := (hnoted m).cell
          rw [hcell] at hi
          simp only [if_true, List.mem_cons, true_or, hi, ← hsame, hreplaces.result]
          rfl
        · simp only [hm, if_false, List.mem_cons, false_or, hsame]

/-! ## Rings -/

/-- The lists of a ring are at rest: each is mirrored in the next one, none is in a content dispatch, and no two can be told
apart. -/
structure AtRest (ring : Cycle ListId) (w : World Mirror (List ListId)) : Prop where
  stands : ∀ l ∈ ring, l.Exists w
  linked : ring.Chain w.Mirrors
  inactive : ∀ l ∈ ring, w.isActive l = false
  same : ∀ l ∈ ring, ∀ m ∈ ring,
    List.Forall₂ (fun v v' : Value => v.same v' = true) (w.listCell l).items (w.listCell m).items

/-- An operation on a list of the ring comes to its result there, and either changes nothing at all or is made once in
every list of the ring: each is told of one change, in the order of the ring, and has gone through the change that the
operation reports. Comparisons look at the world of the change. -/
def Once (ring : Cycle ListId) (l : ListId) (op : ListOperation Mirror (List ListId)) (w w' : World Mirror (List ListId)) :
    Prop :=
  ∃ w₁, (w'.listCell l).items = op.result w₁ (w.listCell l).items ∧
    match op.edit? w₁ (w.listCell l).items with
    | none => w'.env = w.env ∧ ∀ m ∈ ring, (w'.listCell m).items = (w.listCell m).items
    | some e => ∃ rest : List ListId, ring = (l :: rest : List ListId) ∧ w'.env = w.env ++ l :: rest ∧
        ∀ m ∈ ring, (w'.listCell m).items = e.reported.again (w.listCell m).items

/-- After every call the change has been made once everywhere and the ring is at rest, and from there on it goes on like
this. -/
def Converges (nesting : Nat) (ring : Cycle ListId) :
    List (ListId × ListOperation Mirror (List ListId)) → World Mirror (List ListId) → Prop
  | [], _ => True
  | (l, op) :: calls, w => (op.run (reactions nesting) l).Ends w fun _ w' =>
      Once ring l op w w' ∧ AtRest ring w' ∧ Converges nesting ring calls w'

theorem again_same (r : ListReport) {items items' : List Value}
    (h : List.Forall₂ (fun v v' : Value => v.same v' = true) items items') :
    List.Forall₂ (fun v v' : Value => v.same v' = true) (r.again items) (r.again items') := by
  have hadded := Value.sameAll_refl r.added
  exact List.rel_append (List.rel_append (List.forall₂_take _ h) hadded) (List.forall₂_drop _ h)

/-- A ring, read from one of its lists on. -/
theorem exists_eq_cons {ring : Cycle ListId} {l : ListId} (h : l ∈ ring) :
    ∃ rest : List ListId, ring = (l :: rest : List ListId) := by
  induction ring using Quotient.inductionOn' with | h lists =>
  obtain ⟨before, after, rfl⟩ := List.append_of_mem (Cycle.mem_coe_iff.1 h)
  exact ⟨after ++ before, Cycle.coe_eq_coe.2 List.isRotated_append⟩

variable {ring : Cycle ListId} {nesting : Nat}

/-- One call: the change of the list goes round the ring. -/
theorem run_passes {l : ListId} {rest : List ListId} (hring : ring = (l :: rest : List ListId)) (hn : ring.Nodup)
    (h : AtRest ring w) (hdepth : w.depth + ring.length ≤ w.config.maxDispatchDepth) (hnesting : ring.length ≤ nesting)
    (op : ListOperation Mirror (List ListId)) :
    (op.run (reactions nesting) l).Ends w fun _ w' => ∃ w₁,
      match op.edit? w₁ (w.listCell l).items with
      | none => World.Passed (fun _ c => c) [] w w'
      | some e => World.Passed (fun m c => if m ∈ l :: rest then { c with items := e.reported.again c.items } else c)
          (l :: rest) w w' := by
  subst hring
  have hmem : ∀ m ∈ rest, m ∈ ((l :: rest : List ListId) : Cycle ListId) := fun m hm =>
    Cycle.mem_coe_iff.2 (List.mem_cons_of_mem _ hm)
  have hl : l ∈ ((l :: rest : List ListId) : Cycle ListId) := Cycle.mem_coe_iff.2 List.mem_cons_self
  rw [Cycle.length_coe] at hdepth hnesting
  rw [List.length_cons] at hnesting
  obtain ⟨nesting, rfl⟩ : ∃ n, nesting = n + 1 := ⟨nesting - 1, by omega⟩
  have hlinked := (Cycle.chain_coe_cons _ l rest).1 h.linked
  have hnodup := Cycle.nodup_coe_iff.1 hn
  obtain ⟨id, hls⟩ := mirrors_head hlinked
  refine op.run_carries rfl (fun idle => ⟨w, ?_⟩) fun change before mutate carried => ?_
  · rw [idle]
    exact World.Passed.refl w
  · refine (ListId.apply_passes (g := fun e m c => if m ∈ rest then { c with items := e.reported.again c.items } else c)
      (t := fun _ => l :: rest) (letGo_reactions _) (h.stands l hl) hls rfl (by rw [List.length_cons] at hdepth; omega)
      carried (fun e c => if_neg (List.nodup_cons.1 hnodup).1) fun w₁ w₂ e he hp => ?_).imp ?_
    · have hreplaces := op.edit?_replaces he
      refine fire_passes rest hreplaces.effective (by omega) ?_
      refine ready_of_passed hlinked (fun m hm => h.stands m (hmem m hm)) (fun m hm => h.inactive m (hmem m hm))
        (fun m hm => ?_) (Or.inl rfl) hnodup hdepth hp
      rw [← (h.same l hl m (hmem m hm)).length_eq]
      exact hreplaces.fits
    · rintro _ w' ⟨w₁, e, -, he, hp⟩
      refine ⟨w₁, ?_⟩
      rw [he]
      refine hp.congr fun m => ?_
      by_cases hm : m = l
      · subst hm
        simp only [if_true, List.mem_cons, true_or, (op.edit?_replaces he).result]
        rfl
      · simp only [hm, if_false, List.mem_cons, false_or]

/-- When every list goes through the same change of its items, the ring is at rest again. -/
theorem AtRest.after (h : AtRest ring w) {f : List Value → List Value}
    (hf : ∀ {items items' : List Value}, List.Forall₂ (fun v v' : Value => v.same v' = true) items items' →
      List.Forall₂ (fun v v' : Value => v.same v' = true) (f items) (f items'))
    (stands : ∀ l : ListId, l.Exists w → l.Exists w')
    (listeners : ∀ l, (w'.listCell l).listeners = (w.listCell l).listeners)
    (cell : ∀ l ∈ ring, w'.listCell l = { w.listCell l with items := f (w.listCell l).items }) : AtRest ring w' := by
  refine ⟨fun l hl => stands l (h.stands l hl), ?_, fun l hl => ?_, fun l hl m hm => ?_⟩
  · refine h.linked.imp fun l m hm => ?_
    rw [World.Mirrors, listeners]
    exact hm
  · rw [World.isActive, cell l hl]
    exact h.inactive l hl
  · rw [cell l hl, cell m hm]
    exact hf (h.same l hl m hm)

/-- One call: the change is made once in every list, and the ring is at rest again. -/
theorem run_once {l : ListId} (hl : l ∈ ring) (hn : ring.Nodup) (h : AtRest ring w)
    (hdepth : w.depth + ring.length ≤ w.config.maxDispatchDepth) (hnesting : ring.length ≤ nesting)
    (op : ListOperation Mirror (List ListId)) :
    (op.run (reactions nesting) l).Ends w fun _ w' => Once ring l op w w' ∧ AtRest ring w' ∧ w'.depth = w.depth ∧
      w'.config = w.config := by
  obtain ⟨rest, hring⟩ := exists_eq_cons hl
  refine (run_passes hring hn h hdepth hnesting op).imp ?_
  rintro _ w' ⟨w₁, hp⟩
  cases he : op.edit? w₁ (w.listCell l).items with
  | none =>
    rw [he] at hp
    refine ⟨⟨w₁, ?_, ?_⟩, ?_, (hp l).depth, (hp l).config⟩
    · rw [(hp l).cell, ListOperation.result, he]
      rfl
    · rw [he]
      exact ⟨(hp l).view.trans (List.append_nil _), fun m _ => congrArg ListCell.items (hp m).cell⟩
    · exact h.after (f := id) id (fun m => (hp m).stays) (fun m => congrArg ListCell.listeners (hp m).cell)
        fun m _ => (hp m).cell
  | some e =>
    rw [he] at hp
    have hcell : ∀ m ∈ ring, w'.listCell m = { w.listCell m with items := e.reported.again (w.listCell m).items } :=
      fun m hm => (hp m).cell.trans (if_pos (Cycle.mem_coe_iff.1 (hring ▸ hm)))
    refine ⟨⟨w₁, ?_, ?_⟩, ?_, (hp l).depth, (hp l).config⟩
    · rw [hcell l hl, ListOperation.result, he]
      exact (op.edit?_replaces he).result.symm
    · rw [he]
      exact ⟨rest, hring, (hp l).view, fun m hm => congrArg ListCell.items (hcell m hm)⟩
    · refine h.after (again_same e.reported) (fun m => (hp m).stays) (fun m => ?_) hcell
      rw [(hp m).cell]
      dsimp only
      split <;> rfl

/-- Lists joined in a ring by guarded mirrors, not more of them than dispatches may be nested, stay the same through any
calls on any of them: each change is made once in every list, and then no list is in dispatch. -/
theorem converges (hn : ring.Nodup) (h : AtRest ring w) (hdepth : w.depth + ring.length ≤ w.config.maxDispatchDepth)
    (hnesting : ring.length ≤ nesting) (calls : List (ListId × ListOperation Mirror (List ListId)))
    (hcalls : ∀ call ∈ calls, call.1 ∈ ring) : Converges nesting ring calls w := by
  induction calls generalizing w with
  | nil => trivial
  | cons call calls ih =>
    refine (run_once (hcalls call List.mem_cons_self) hn h hdepth hnesting call.2).imp ?_
    rintro _ w' ⟨once, atRest, depth, config⟩
    exact ⟨once, atRest, ih atRest (by rw [depth, config]; exact hdepth) fun c hc => hcalls c (List.mem_cons_of_mem _ hc)⟩

/-- Three lists of one item, each mirrored in the next and the last in the first. -/
def threeLists : World Mirror (List ListId) where
  lists := #[{ items := [.bool true], listeners := [⟨⟨0⟩, .content, ⟨⟨0⟩, ⟨1⟩⟩⟩] },
    { items := [.bool true], listeners := [⟨⟨1⟩, .content, ⟨⟨1⟩, ⟨2⟩⟩⟩] },
    { items := [.bool true], listeners := [⟨⟨2⟩, .content, ⟨⟨2⟩, ⟨0⟩⟩⟩] }]
  env := []

def threeInRing : Cycle ListId := ([⟨0⟩, ⟨1⟩, ⟨2⟩] : List ListId)

theorem mem_threeInRing {l : ListId} (hl : l ∈ threeInRing) : l = ⟨0⟩ ∨ l = ⟨1⟩ ∨ l = ⟨2⟩ := by
  simpa only [threeInRing, Cycle.mem_coe_iff, List.mem_cons, List.not_mem_nil, or_false] using hl

theorem threeLists_items (l : ListId) (hl : l ∈ threeInRing) : (threeLists.listCell l).items = [.bool true] := by
  rcases mem_threeInRing hl with rfl | rfl | rfl <;> rfl

theorem threeLists_atRest : AtRest threeInRing threeLists := by
  refine ⟨fun l hl => ?_, ?_, fun l hl => ?_, fun l hl m hm => ?_⟩
  · change l.index < 3
    rcases mem_threeInRing hl with rfl | rfl | rfl <;> decide
  · refine (Cycle.chain_coe_cons _ _ _).2 ?_
    exact .cons_cons ⟨⟨0⟩, rfl⟩ (.cons_cons ⟨⟨1⟩, rfl⟩ (.cons_cons ⟨⟨2⟩, rfl⟩ (.singleton _)))
  · rcases mem_threeInRing hl with rfl | rfl | rfl <;> rfl
  · rw [threeLists_items l hl, threeLists_items m hm]
    exact Value.sameAll_refl _

/-- A push on the second of three lists. -/
theorem converges_three :
    threeInRing.Nodup ∧ AtRest threeInRing threeLists ∧
      threeLists.depth + threeInRing.length ≤ threeLists.config.maxDispatchDepth ∧ threeInRing.length ≤ 3 ∧
      ⟨1⟩ ∈ threeInRing ∧
      ∃ a w', (ListOperation.push [.null]).run (reactions 3) ⟨1⟩ threeLists = .ok a w' ∧ AtRest threeInRing w' ∧
        ∀ l ∈ threeInRing, (w'.listCell l).items = [.bool true, .null] := by
  have nodup : threeInRing.Nodup := Cycle.nodup_coe_iff.2 (by decide)
  have atRest := threeLists_atRest
  have depth : threeLists.depth + threeInRing.length ≤ threeLists.config.maxDispatchDepth := by decide
  have mem : ⟨1⟩ ∈ threeInRing := Cycle.mem_coe_iff.2 (by decide)
  refine ⟨nodup, atRest, depth, Nat.le_refl 3, mem, ?_⟩
  have items := threeLists_items
  generalize threeLists = w at atRest depth items ⊢
  obtain ⟨a, w', hrun, ⟨w₁, -, hedit⟩, atRest', -⟩ := Run.ends_iff.1
    (converges nodup atRest depth (Nat.le_refl 3) [(⟨1⟩, .push [.null])] (by simpa using mem))
  refine ⟨a, w', hrun, atRest', fun l hl => ?_⟩
  rw [items _ mem] at hedit
  obtain ⟨-, -, -, again⟩ := hedit
  rw [again l hl, items l hl]
  rfl

end Mirror

end LiveBindings
