import LiveBindings.Proofs.Announcing
import LiveBindings.Proofs.Rounds

/-!
# What is told of a change

A change of a container goes through the phases of its schedule (`Operation.schedule`): those of a list are its length, its content
and the items of the affected span before the change and the same the other way round after it; those of an object are its
properties and then all its entries.

Every operation on a container follows the growth of its schedule, if the callbacks of the world keep the chronicle
(`Operation.run_follows`).
-/

namespace LiveBindings

/-! ## Schedules -/

/-- The phases of a change of a list. Each topic is captured when its turn comes: the length before it, if it changes, the
content, every index of the affected span, and after the change the same the other way round. -/
def ListId.phases (l : ListId) (change : ListChange) : List Phase :=
  let on (topic : ListTopic) (rounds : List (Option Nat)) : Phase := [⟨.list l topic, rounds⟩]
  let length (topic : ListTopic) : List Phase := if change.oldLength = change.newLength then [] else [on topic [none]]
  let span := (List.range' change.index change.spanLength).map some
  length .beforeLength ++
    [on .beforeContent [none], on .beforeEach span, on .each span, on .content [none]] ++ length .length

/-- The phases of a change of an object. The listeners of the key are captured together, before the change; those of all entries
when everyone else has been told. -/
def ObjectId.phases (o : ObjectId) (topics : List ObjectTopic) : List Phase :=
  let on (topics : List ObjectTopic) : Phase := topics.map fun topic => ⟨.object o topic, [none]⟩
  [on (topics.filter (· ≠ .entries)), on (topics.filter (· = .entries))]

section

variable {κ ε : Type}

/-- What is told of a change of a list, if there is one. -/
def ListId.schedule (l : ListId) (w : World κ ε) : Option ListChange → Schedule
  | none => .silent
  | some change => w.schedule (l.phases change)

/-- What is told of notices on an object. -/
def ObjectId.schedule (o : ObjectId) (w : World κ ε) : List ObjectTopic → Schedule
  | [] => .silent
  | topics => w.schedule (o.phases topics)

/-- How an operation that begins now is to be told. -/
def Operation.schedule (w : World κ ε) : Operation κ ε → Schedule
  | list l op => l.schedule w ((op.edit? w (w.listCell l).items).map (·.change (w.listCell l).items))
  | object o op => o.schedule w ((op.notices (w.objectCell o).entries).map (·.1))

end

/-! ## Lists -/

/-- A step that sets the items of a list. -/
def ListId.Resets {κ ε : Type} (l : ListId) (mutate : Run κ ε ListReport) : Prop :=
  ∀ w, ∃ report items, mutate w = .ok report (w.modifyList l fun c => { c with items })

section

variable {β τ : Type} {call : Growth} {w : Chronicled β τ} {R : Reactions (ListenerId × β) (Diary τ)}

/-- The listeners of a topic. -/
abbrev ListId.on (l : ListId) (topic : ListTopic) (w : Chronicled β τ) : List (Listener ListTopic (ListenerId × β)) :=
  Listeners.on topic (w.listCell l).listeners

theorem ListId.map_on (l : ListId) (h : w.Kept) (topic : ListTopic) (r : Option Nat) :
    Growth.all ((l.on topic w).map fun x => .turn call (.list l topic) r w.chronicle x.id) =
      .round call w.chronicle (.list l topic) r := by
  rw [Growth.round, ← h.listed, World.audience, List.map_map, List.map_map]
  rfl

theorem ListId.captures (l : ListId) (h : w.Kept) (topic : ListTopic) :
    Captures (τ := τ) w.chronicle (.list l topic) l.registered (l.on topic w) where
  known x hx := h.known (.list l topic) (x.id, x.callback) (List.mem_map_of_mem hx)
  registered x hx _ hw hs := by
    refine hw.list_registered hs ?_
    rw [← h.listed, World.audience, List.map_map]
    exact List.mem_map_of_mem hx

section

variable (hR : R.Honest call)
include hR

theorem ListId.tellLength_follows (hw : w.Kept) (l : ListId) (topic : ListTopic) (length : Nat) :
    Run.Follows (.phase call [⟨.list l topic, [none]⟩]) (l.tellLength R topic length) w := by
  refine .read rfl ((Run.Follows.holding hR ?_).mono fun h' whole hg => (Growth.phase_once call _ _ _ h' whole).mpr hg)
  rw [← l.map_on hw]
  exact (l.captures hw topic).tellAll (e := .value (Value.ofNat length)) hR (hw.congr ⟨rfl, rfl, rfl⟩) List.suffix_rfl

theorem ListId.tellContent_follows (hw : w.Kept) (l : ListId) (topic : ListTopic) (report : ListReport) :
    Run.Follows (.phase call [⟨.list l topic, [none]⟩]) (l.tellContent R topic report) w := by
  refine .read rfl (Run.Follows.mono ?_ fun h' whole hg => (Growth.phase_once call _ _ _ h' whole).mpr hg)
  rw [← l.map_on hw]
  exact (l.captures hw topic).tellInTurn (e := report.event) hR hw List.suffix_rfl

/-- A round for every index. -/
theorem ListId.tellItems_follows {h₀ : Chronicle} {l : ListId} {topic : ListTopic} {xs : List (Listener ListTopic (ListenerId × β))}
    (hxs : Captures (τ := τ) h₀ (.list l topic) l.registered xs)
    (hmap : ∀ r, Growth.all (xs.map fun x => .turn call (.list l topic) r h₀ x.id) = .round call h₀ (.list l topic) r)
    (count index : Nat) (hw : w.Kept) (hs : h₀ <:+ w.chronicle) :
    Run.Follows (.pass call h₀ ⟨.list l topic, (List.range' index count).map some⟩) (l.tellItems R xs count index) w := by
  induction count generalizing index w with
  | zero => exact .pure hw _
  | succ count ih =>
    refine .read rfl (.bind ?_ fun _ _ h' => ih (index + 1) h'.kept (hs.trans h'.later))
    exact hmap (some index) ▸ hxs.tellAll (e := .item _ index) hR hw hs

theorem ListId.tellSpan_follows (hw : w.Kept) (l : ListId) (topic : ListTopic) (change : ListChange) :
    Run.Follows (.phase call [⟨.list l topic, (List.range' change.index change.spanLength).map some⟩])
      (l.tellSpan R topic change) w := by
  have one : ∀ h' whole, Growth.pass call w.chronicle ⟨.list l topic, (List.range' change.index change.spanLength).map some⟩
      w.chronicle h' whole → Growth.phase call [⟨.list l topic, (List.range' change.index change.spanLength).map some⟩]
        w.chronicle h' whole := by
    intro h' whole hg
    change Growth.all [_] _ _ _
    rwa [Growth.all_singleton]
  refine .read rfl ?_
  split
  · rename_i hnone
    have nobody : ∀ r, Growth.round call w.chronicle (.list l topic) r = .still := by
      intro r
      rw [← l.map_on hw, ListId.on, List.isEmpty_iff.1 hnone]
      rfl
    have rest : Growth.pass call w.chronicle ⟨.list l topic, (List.range' change.index change.spanLength).map some⟩ = .still := by
      refine Growth.all_still fun g hg => ?_
      obtain ⟨r, -, rfl⟩ := List.mem_map.1 hg
      exact nobody r
    exact Run.Follows.mono (rest ▸ .pure hw _) one
  · refine (Run.Follows.holding hR ?_).mono one
    exact ListId.tellItems_follows hR (l.captures hw topic) (l.map_on hw topic) _ _ (hw.congr ⟨rfl, rfl, rfl⟩) List.suffix_rfl

section

variable {l : ListId} {mutate : Run (ListenerId × β) (Diary τ) ListReport} (hm : l.Resets mutate)
include hm

omit hR in
theorem ListId.Resets.still (hw : w.Kept) : Run.Follows .still mutate w := by
  obtain ⟨report, items, he⟩ := hm w
  have ha : w.Agrees (w.modifyList l fun c => { c with items }) := .modifyList w l fun _ => rfl
  rw [Run.Follows, he]
  exact ⟨hw.congr ha, ha.chronicle ▸ List.suffix_rfl, ha.chronicle, rfl⟩

omit hR in
theorem ListId.Resets.before {α : Type} {f : ListReport → Run (ListenerId × β) (Diary τ) α} {g : Growth} (hw : w.Kept)
    (hf : ∀ report w', w'.Kept → Run.Follows g (f report) w') : Run.Follows g (mutate >>= f) w := by
  obtain ⟨report, items, he⟩ := hm w
  have ha : w.Agrees (w.modifyList l fun c => { c with items }) := .modifyList w l fun _ => rfl
  exact .step he ha (hf report _ (hw.congr ha))

/-- The announcements of the content, with the step between them. -/
theorem ListId.dispatching_follows (hw : w.Kept) (change : ListChange) (before : ListReport) :
    Run.Follows (.all [.phase call [⟨.list l .beforeContent, [none]⟩],
        .phase call [⟨.list l .beforeEach, (List.range' change.index change.spanLength).map some⟩],
        .phase call [⟨.list l .each, (List.range' change.index change.spanLength).map some⟩],
        .phase call [⟨.list l .content, [none]⟩]])
      (l.dispatching do
        l.tellContent R .beforeContent before
        l.tellSpan R .beforeEach change
        let after ← mutate
        l.tellSpan R .each change
        l.tellContent R .content after
        return after) w := by
  have begun : w.Agrees (w.modifyList l fun c => { c with dispatching := c.dispatching + 1 }) := .modifyList w l fun _ => rfl
  refine .restoring (fun u => .modifyList u l fun _ => rfl) (.step rfl begun ?_)
  refine .bind (l.tellContent_follows hR (hw.congr begun) _ _) fun _ _ h₁ => ?_
  refine .bind (l.tellSpan_follows hR h₁.kept _ _) fun _ _ h₂ => ?_
  refine hm.before h₂.kept fun after _ h₃ => ?_
  refine .bind (l.tellSpan_follows hR h₃ _ _) fun _ _ h₄ => ?_
  exact .bind (l.tellContent_follows hR h₄.kept _ _) fun _ _ h₅ => .pure h₅.kept after

theorem ListId.apply_follows (hw : w.Kept) (change : ListChange) (before : ListReport) :
    Run.Follows (.change call (w.schedule (l.phases change))) (l.apply R change before mutate) w := by
  refine .nested hw (hm.still hw) ?_
  have deeper : ({ w with depth := w.depth + 1 } : Chronicled β τ).Kept := hw.congr ⟨rfl, rfl, rfl⟩
  have content := fun {u : Chronicled β τ} (hu : u.Kept) => ListId.dispatching_follows hR hm hu change before
  by_cases hc : change.oldLength = change.newLength
  · simp only [ListId.phases, hc, bne_self_eq_false, Bool.false_eq_true, if_false, if_true, List.nil_append, List.append_nil]
    exact (content deeper).last fun after _ h' => .pure h' after
  · have told : Growth.change call (.told (l.phases change)) = (Growth.phase call [⟨.list l .beforeLength, [none]⟩]).seq
        ((Growth.all [.phase call [⟨.list l .beforeContent, [none]⟩],
          .phase call [⟨.list l .beforeEach, (List.range' change.index change.spanLength).map some⟩],
          .phase call [⟨.list l .each, (List.range' change.index change.spanLength).map some⟩],
          .phase call [⟨.list l .content, [none]⟩]]).seq (.phase call [⟨.list l .length, [none]⟩])) := by
      simp only [ListId.phases, hc, if_false, Growth.change, List.map_append, Growth.all_append, Growth.seq_assoc, List.map_cons,
        List.map_nil, Growth.all_singleton]
    rw [told]
    simp only [hc, bne_iff_ne, ne_eq, not_false_eq_true, if_true]
    refine .bind (l.tellLength_follows hR deeper _ _) fun _ _ h₁ => ?_
    refine .bind (content h₁.kept) fun after _ h₂ => .read rfl ?_
    exact (l.tellLength_follows hR h₂.kept _ _).last fun _ _ h₃ => .pure h₃ after

end

end

end

/-! ### Operations on lists -/

section

variable {κ ε α β : Type} {R : Reactions κ ε} {l : ListId} {w : World κ ε} {e? e?' : Option Edit} {act : Run κ ε α}
  {f : α → Run κ ε β}

/-- A computation that begins in `w` does nothing, or makes an edit and returns what the report says. -/
inductive ListId.Carries (R : Reactions κ ε) (l : ListId) (w : World κ ε) (act : Run κ ε α) : Option Edit → Prop
  | idle (a : α) (run : act w = .ok a w) : Carries R l w act none
  | edit (e : Edit) (mutate : Run κ ε ListReport) (answer : ListReport → α) (resets : l.Resets mutate)
    (run : act w = (answer <$> l.apply R (e.change (w.listCell l).items) e.announced mutate) w) : Carries R l w act (some e)

namespace ListId.Carries

theorem congr {act' : Run κ ε α} (he : act w = act' w) (h : l.Carries R w act' e?) : l.Carries R w act e? := by
  cases h with
  | idle a run => exact .idle a (he.trans run)
  | edit e mutate answer resets run => exact .edit e mutate answer resets (he.trans run)

theorem read {a : α} (he : act w = .ok a w) (h : l.Carries R w (f a) e?) : l.Carries R w (act >>= f) e? := by
  refine congr ?_ h
  change EStateM.bind act f w = _
  rw [EStateM.bind, he]

theorem map (h : l.Carries R w act e?) (g : α → β) : l.Carries R w (g <$> act) e? := by
  cases h with
  | idle a run =>
    refine .idle (g a) ?_
    change EStateM.map g act w = _
    rw [EStateM.map, run]
  | edit e mutate answer resets run =>
    refine .edit e mutate (g ∘ answer) resets ?_
    change EStateM.map g act w = EStateM.map (g ∘ answer) _ w
    change act w = EStateM.map answer _ w at run
    unfold EStateM.map at run ⊢
    rw [run]
    cases l.apply R (e.change (w.listCell l).items) e.announced mutate w <;> rfl

theorem returning (h : l.Carries R w act e?) (g : α → β) : l.Carries R w (act >>= fun a => pure (g a)) e? := by
  refine congr ?_ (h.map g)
  change EStateM.bind act _ w = EStateM.map g act w
  unfold EStateM.bind EStateM.map
  cases act w <;> rfl

theorem discard (h : l.Carries R w act e?) : l.Carries R w (Functor.discard act) e? := h.map _

theorem apply {change : ListChange} {before : ListReport} {mutate : Run κ ε ListReport} {e : Edit} (resets : l.Resets mutate)
    (hc : change = e.change (w.listCell l).items) (hb : before = e.announced) :
    l.Carries R w (l.apply R change before mutate) (some e) := by
  subst hc hb
  refine .edit e mutate id resets ?_
  change _ = EStateM.map id _ w
  unfold EStateM.map
  cases l.apply R (e.change (w.listCell l).items) e.announced mutate w <;> rfl

theorem cast (h : l.Carries R w act e?) (he : e?' = e?) : l.Carries R w act e?' := he ▸ h

end ListId.Carries

theorem ListId.replaceItems_resets (l : ListId) (index remove : Nat) (plus : List Value) :
    l.Resets (l.replaceItems index remove plus : Run κ ε ListReport) := fun w =>
  ⟨{ index := min index (w.listCell l).items.length, added := plus,
     removed := ((w.listCell l).items.take (min (index + remove) (w.listCell l).items.length)).drop
       (min index (w.listCell l).items.length) },
    replaceRun (w.listCell l).items (min index (w.listCell l).items.length)
      (min (index + remove) (w.listCell l).items.length - min index (w.listCell l).items.length) plus, rfl⟩

theorem ListId.splice_carried (index remove : Nat) (plus : List Value) :
    l.Carries R w (l.splice R index remove plus) (Edit.replacing? (w.listCell l).items (min index (w.listCell l).items.length)
      (((w.listCell l).items.drop (min index (w.listCell l).items.length)).take remove) plus) := by
  refine .read rfl ?_
  dsimp only
  generalize hminus : ((w.listCell l).items.drop (min index (w.listCell l).items.length)).take remove = minus
  have hfit : min index (w.listCell l).items.length + minus.length ≤ (w.listCell l).items.length := by
    rw [← hminus, List.length_take, List.length_drop]
    omega
  rw [Edit.replacing?, Bool.and_comm]
  split
  · exact .idle [] rfl
  · refine .returning ?_ ListReport.removed
    refine .apply (l.replaceItems_resets _ _ _) ?_ rfl
    simp only [Edit.change, replaceRun_length hfit plus]

theorem ListId.reorder_carried (order : World κ ε → List Value → List Value) {result : List Value}
    (hlength : result.length = (w.listCell l).items.length) :
    l.Carries R w (l.reorder R order) (Edit.reordering? (w.listCell l).items result) := by
  refine .read rfl ?_
  dsimp only
  unfold Edit.reordering?
  by_cases hnone : (w.listCell l).items.isEmpty
  · rw [if_pos hnone, if_pos (by simpa using hnone)]
    exact .idle ⟨⟩ rfl
  · rw [if_neg hnone, if_neg (by simpa using hnone)]
    refine .discard (.apply (fun u => ⟨_, _, rfl⟩) ?_ rfl)
    simp only [Edit.change, hlength, if_true]

/-- Every operation does nothing or makes its edit. -/
theorem ListOperation.run_carried (op : ListOperation κ ε) :
    l.Carries R w (op.run R l) (op.edit? w (w.listCell l).items) := by
  have splice := fun index remove plus => ListId.splice_carried (R := R) (l := l) (w := w) index remove plus
  cases op with
  | splice index remove plus => exact splice index remove plus
  | push values => exact .read rfl ((splice _ 0 values).discard.cast (by simp [edit?]))
  | pop =>
    refine .read rfl ?_
    split
    · rename_i hnone
      rw [List.length_eq_zero_iff.1 hnone]
      exact .idle none rfl
    · refine ((splice _ 1 []).returning List.getLast?).cast ?_
      rw [edit?, Nat.min_eq_left (Nat.sub_le _ _), List.take_one, List.head?_drop, List.getLast?_eq_getElem?]
  | shift =>
    refine .read rfl ?_
    split
    · rename_i hnone
      rw [List.length_eq_zero_iff.1 hnone]
      exact .idle none rfl
    · refine ((splice 0 1 []).returning List.getLast?).cast ?_
      rw [edit?, Nat.zero_min, List.drop_zero, List.take_one]
  | unshift values => exact (splice 0 0 values).discard.cast (by simp [edit?])
  | set index value =>
    refine .read rfl ?_
    split
    · rename_i hlt
      have hold : (w.listCell l).items[index]? = some (w.listCell l).items[index] := List.getElem?_eq_getElem hlt
      have hget : (w.listCell l).items.getD index .undefined = (w.listCell l).items[index] := by
        rw [List.getD_eq_getElem?_getD, hold, Option.getD_some]
      refine .read rfl ?_
      rw [edit?, hold, hget]
      dsimp only
      split
      · exact .idle ⟨⟩ rfl
      · refine (splice index 1 [value]).discard.cast ?_
        rw [Nat.min_eq_left hlt.le, List.take_one, List.head?_drop, hold, Option.toList_some]
    · rename_i hge
      have hnew : (w.listCell l).items[index]? = none := List.getElem?_eq_none (Nat.not_lt.1 hge)
      refine (splice _ 0 _).discard.cast ?_
      simp [edit?, hnew]
  | delete value =>
    refine .read (a := (w.listCell l).items.findIdx? (·.same value)) rfl ?_
    rw [edit?]
    cases hfound : (w.listCell l).items.findIdx? (·.same value) with
    | none => exact .idle false rfl
    | some index =>
      have hlt : index < (w.listCell l).items.length := (List.findIdx?_eq_some_iff_getElem.1 hfound).1
      refine ((splice index 1 []).discard.returning fun _ => true).cast ?_
      rw [Nat.min_eq_left hlt.le, List.take_one, List.head?_drop]
  | wipe => exact .read rfl ((splice 0 _ []).discard.cast (by simp [edit?]))
  | replaceAll values => exact .read rfl ((splice 0 _ values).discard.cast (by simp [edit?]))
  | reverse => exact ListId.reorder_carried (fun _ items => items.reverse) List.length_reverse
  | sort =>
    exact ListId.reorder_carried (fun _ items => items.mergeSort fun a b => a.compare b != .gt) (List.length_mergeSort _)
  | sortBy compare =>
    exact ListId.reorder_carried (fun w items => items.mergeSort fun a b => compare w a b != .gt) (List.length_mergeSort _)

end

section

variable {β τ : Type} {call : Growth} {w : Chronicled β τ} {R : Reactions (ListenerId × β) (Diary τ)} (hR : R.Honest call)
include hR

theorem ListOperation.run_follows (hw : w.Kept) (l : ListId) (op : ListOperation (ListenerId × β) (Diary τ)) :
    Run.Follows (.change call ((Operation.list l op).schedule w)) (op.run R l) w := by
  have h := ListOperation.run_carried (R := R) (l := l) (w := w) op
  rw [Operation.schedule]
  generalize op.edit? w (w.listCell l).items = e? at h
  cases h with
  | idle a run =>
    rw [Run.Follows, run]
    exact ⟨hw, List.suffix_rfl, rfl, rfl⟩
  | edit e mutate answer resets run => exact .congr run ((ListId.apply_follows hR resets hw _ _).map answer)

end

/-! ## Objects -/

section

variable {β τ : Type} {call : Growth} {w : Chronicled β τ} {R : Reactions (ListenerId × β) (Diary τ)}

/-- The listeners of a topic. -/
abbrev ObjectId.on (o : ObjectId) (topic : ObjectTopic) (w : Chronicled β τ) : List (Listener ObjectTopic (ListenerId × β)) :=
  Listeners.on topic (w.objectCell o).listeners

theorem ObjectId.map_on (o : ObjectId) (h : w.Kept) (topic : ObjectTopic) (r : Option Nat) :
    Growth.all ((o.on topic w).map fun x => .turn call (.object o topic) r w.chronicle x.id) =
      .round call w.chronicle (.object o topic) r := by
  rw [Growth.round, ← h.listed, World.audience, List.map_map, List.map_map]
  rfl

theorem ObjectId.captures (o : ObjectId) (h : w.Kept) (topic : ObjectTopic) :
    Captures (τ := τ) w.chronicle (.object o topic) o.registered (o.on topic w) where
  known x hx := h.known (.object o topic) (x.id, x.callback) (List.mem_map_of_mem hx)
  registered x hx _ hw hs := by
    refine hw.object_registered hs ?_
    rw [← h.listed, World.audience, List.map_map]
    exact List.mem_map_of_mem hx

variable (hR : R.Honest call)
include hR

theorem ObjectId.tellEntry_follows (hw : w.Kept) (o : ObjectId) (key : String) (value : Value) :
    Run.Follows (.phase call [⟨.object o .entries, [none]⟩]) (o.tellEntry R key value) w := by
  refine .read rfl ((Run.Follows.holding hR ?_).mono fun h' whole hg => (Growth.phase_once call _ _ _ h' whole).mpr hg)
  rw [← o.map_on hw]
  exact (o.captures hw .entries).tellAll (e := .entry key value) hR (hw.congr ⟨rfl, rfl, rfl⟩) List.suffix_rfl

theorem ObjectId.change_follows (hw : w.Kept) (o : ObjectId) (key : String) (old new : Value)
    (f : List (String × Value) → List (String × Value)) :
    Run.Follows (.change call (w.schedule (o.phases [.before key, .after key, .entries]))) (o.change R key old new f) w := by
  have entered : ∀ u : Chronicled β τ, u.Agrees (u.modifyObject o fun c => { c with entries := f c.entries }) :=
    fun u => .modifyObject u o fun _ => rfl
  refine .nested hw ⟨hw.congr (entered w), (entered w).chronicle ▸ List.suffix_rfl, (entered w).chronicle, rfl⟩ ?_
  generalize hu : ({ w with depth := w.depth + 1 } : Chronicled β τ) = u
  have hk : u.Kept := hu ▸ hw.congr ⟨rfl, rfl, rfl⟩
  have told : Growth.change call (.told (o.phases [.before key, .after key, .entries])) =
      (Growth.phase call [⟨.object o (.before key), [none]⟩, ⟨.object o (.after key), [none]⟩]).seq
        (.phase call [⟨.object o .entries, [none]⟩]) := by
    simp [ObjectId.phases, Growth.change, Growth.all, Growth.seq_still]
  have captured : ∀ h' whole,
      ((Growth.round call u.chronicle (.object o (.before key)) none).seq
        (.round call u.chronicle (.object o (.after key)) none)) u.chronicle h' whole →
      Growth.phase call [⟨.object o (.before key), [none]⟩, ⟨.object o (.after key), [none]⟩] u.chronicle h' whole := by
    intro h' whole hg
    change Growth.all [Growth.all [_], Growth.all [_]] _ _ _
    rw [Growth.all_singleton, Growth.all_singleton]
    change (Growth.seq _ (Growth.all [_])) _ _ _
    rwa [Growth.all_singleton]
  rw [told]
  refine .read rfl (.read rfl (Run.Follows.holding hR ?_))
  refine Run.Follows.mono ?_ fun h' whole hg => Growth.seq_imp captured hg
  rw [Growth.seq_assoc, ← o.map_on hk, ← o.map_on hk]
  refine .bind ((o.captures hk _).tellAll (e := .value old) hR (hk.congr ⟨rfl, rfl, rfl⟩) List.suffix_rfl) fun _ u₁ h₁ => ?_
  refine .step rfl (entered u₁) ?_
  have hk₁ := h₁.kept.congr (entered u₁)
  refine .bind ((o.captures hk _).tellAll (e := .value new) hR hk₁ h₁.later) fun _ _ h₂ => ?_
  exact ObjectId.tellEntry_follows hR h₂.kept o key new

/-- A key that is new with the value `undefined`. -/
theorem ObjectId.fresh_follows (hw : w.Kept) (o : ObjectId) (key : String) :
    Run.Follows (.change call (w.schedule (o.phases [.entries])))
      (do o.modifyEntries (Fields.put key .undefined); nested .object (pure ()) (o.tellEntry R key .undefined)) w := by
  have entered : w.Agrees (w.modifyObject o fun c => { c with entries := Fields.put key .undefined c.entries }) :=
    .modifyObject w o fun _ => rfl
  have hk := hw.congr entered
  have told : Growth.change call (.told (o.phases [.entries])) = .phase call [⟨.object o .entries, [none]⟩] := by
    have nobody : Growth.phase call [] = .still := rfl
    simp [ObjectId.phases, Growth.change, Growth.all, Growth.seq_still, nobody, Growth.still_seq]
  refine .step rfl entered (.nested hk (.pure hk _) ?_)
  rw [told]
  refine ObjectId.tellEntry_follows hR ?_ o key .undefined
  exact hk.congr ⟨rfl, rfl, rfl⟩

theorem ObjectOperation.run_follows (hw : w.Kept) (o : ObjectId) (op : ObjectOperation) :
    Run.Follows (.change call ((Operation.object (κ := ListenerId × β) (ε := Diary τ) o op).schedule w)) (op.run R o) w := by
  rw [Operation.schedule]
  cases op with
  | set key value =>
    refine .read rfl ?_
    cases hget : Fields.get? key (w.objectCell o).entries with
    | some old =>
      dsimp only
      split
      · rename_i hs
        rw [(notices_set_same hget hs).2]
        exact .pure hw _
      · rename_i hs
        rw [(notices_set_other hget (by simpa using hs)).2]
        exact ObjectId.change_follows hR hw o key _ _ _
    | none =>
      dsimp only
      rw [(notices_set_new value hget).2]
      split
      · exact ObjectId.fresh_follows hR hw o key
      · exact ObjectId.change_follows hR hw o key _ _ _
  | delete key =>
    refine .read rfl ?_
    cases hget : Fields.get? key (w.objectCell o).entries with
    | some old =>
      rw [notices_delete hget]
      exact (ObjectId.change_follows hR hw o key _ _ _).last fun _ _ h' => .pure h' _
    | none =>
      rw [(notices_delete_absent hget).2]
      exact .pure hw _

/-- A change goes through the phases of its schedule. -/
theorem Operation.run_follows (hw : w.Kept) (op : Operation (ListenerId × β) (Diary τ)) :
    Run.Follows (.change call (op.schedule w)) (op.run R) w := by
  cases op with
  | list l op => exact ListOperation.run_follows hR hw l op
  | object o op => exact ObjectOperation.run_follows hR hw o op

end

end LiveBindings
