import LiveBindings.Collection.Block
import LiveBindings.Collection.Projection
import LiveBindings.Observe.Bind
import LiveBindings.Observe.Write
import LiveBindings.Proofs.Unwinding

/-!
# Views leave in progress what was in progress

An engine that recovers (`Engine.Recovers`) leaves in progress what was in progress, whatever it is asked to do and however that
comes to its end. What the parts of an engine do with the rest of it recovers then: following and writing, keeping a view up to
date, starting an expression, binding a target to a source. None of them touches a count or a flag itself.
-/

namespace LiveBindings

variable {π σ α : Type}

/-- Whatever an engine is asked to do leaves in progress what was in progress. -/
structure Engine.Recovers (E : Engine π σ) : Prop where
  fire : ∀ callback e, Run.Recovers (E.fire callback e)
  letGo : Run.Recovers E.letGo
  emit : ∀ sink v, Run.Recovers (E.emit sink v)
  react : ∀ action values, Run.Recovers (E.react action values)
  start : ∀ x sink scope, Run.Recovers (E.start x sink scope)
  cancel : ∀ handle, Run.Recovers (E.cancel handle)

theorem Engine.Recovers.reactions {E : Engine π σ} (hE : E.Recovers) : E.reactions.Recovers := ⟨hE.fire, hE.letGo⟩

/-- A cell other than a flag is made. -/
theorem Run.Recovers.making {g : Cells π → Cells π} {ref : Cells π → α} (h : ∀ c, (g c).flags = c.flags) :
    Run.Recovers (do let c ← LiveBindings.cells; modifyCells g; return ref c : Live π σ α) :=
  .read (fun _ => ⟨_, rfl⟩) fun _ => .bind (.cells h) fun _ => .pure _

theorem takeCurrent_recovers (s : Ref .slot) : Run.Recovers (takeCurrent s : Live π σ (Cancel π)) :=
  .read (fun _ => ⟨_, rfl⟩) fun _ => .bind (.cells fun _ => rfl) fun _ => .pure _

theorem swapCurrent_recovers (s : Ref .slot) (next : Cancel π) : Run.Recovers (swapCurrent s next : Live π σ (Cancel π)) :=
  .read (fun _ => ⟨_, rfl⟩) fun _ => .bind (.cells fun _ => rfl) fun _ => .pure _

theorem takeEntryCancel_recovers (e : Ref .entry) : Run.Recovers (takeEntryCancel e : Live π σ (Cancel π)) :=
  .read (fun _ => ⟨_, rfl⟩) fun _ => .bind (.cells fun _ => rfl) fun _ => .pure _

theorem takeSegmentCancel_recovers (s : Ref .segment) : Run.Recovers (takeSegmentCancel s : Live π σ (Cancel π)) :=
  .read (fun _ => ⟨_, rfl⟩) fun _ => .bind (.cells fun _ => rfl) fun _ => .pure _

section

variable {E : Engine π σ} (hE : E.Recovers)
include hE

/-! ## Slots -/

theorem restart_recovers (s : Ref .slot) {start : Live π σ (Cancel π)} (h : start.Recovers) :
    Run.Recovers (restart E s start) := by
  refine .read (fun _ => ⟨_, rfl⟩) fun _ => ?_
  dsimp only
  split
  · exact .pure _
  refine .bind (.cells fun _ => rfl) fun _ => .bind (takeCurrent_recovers s) fun _ => .bind (hE.cancel _) fun _ => ?_
  refine .bind h fun next => .read (fun _ => ⟨_, rfl⟩) fun _ => ?_
  split
  · exact hE.cancel next
  · exact .bind (swapCurrent_recovers s next) fun _ => hE.cancel _

theorem closeSlot_recovers (s : Ref .slot) : Run.Recovers (closeSlot E s) :=
  .bind (.cells fun _ => rfl) fun _ => .bind (takeCurrent_recovers s) fun _ => hE.cancel _

/-! ## Following -/

theorem constant_recovers (v : Value) (next : Sink π) : Run.Recovers (constant E v next) :=
  .bind (hE.emit next v) fun _ => .pure _

theorem followEntry_recovers (o : ObjectId) (name : String) (next : Sink π) : Run.Recovers (followEntry E o name next) :=
  .read (fun _ => ⟨_, rfl⟩) fun _ => .bind (hE.emit next _) fun _ => .bind (o.listen_recovers _ _) fun _ => .pure _

theorem followLength_recovers (l : ListId) (next : Sink π) : Run.Recovers (followLength E l next) :=
  .read (fun _ => ⟨_, rfl⟩) fun _ => .bind (hE.emit next _) fun _ => .bind (l.listen_recovers _ _) fun _ => .pure _

theorem followItem_recovers (l : ListId) (index : Nat) (next : Sink π) : Run.Recovers (followItem E l index next) :=
  .read (fun _ => ⟨_, rfl⟩) fun _ => .bind (hE.emit next _) fun _ => .bind (l.listen_recovers _ _) fun _ => .pure _

theorem followElement_recovers (l : ListId) (value : Value) (next : Sink π) : Run.Recovers (followElement E l value next) :=
  .read (fun _ => ⟨_, rfl⟩) fun _ => .bind (hE.emit next _) fun _ => .bind (l.listen_recovers _ _) fun _ => .pure _

theorem followKey_recovers (o : ObjectId) (name : String) (next : Sink π) : Run.Recovers (followKey E o name next) :=
  .read (fun _ => ⟨_, rfl⟩) fun _ => .bind (hE.emit next _) fun _ => .bind (o.listen_recovers _ _) fun _ => .pure _

theorem follow_recovers (what : Followed) (container key : Value) (next : Sink π) :
    Run.Recovers (follow E what container key next) := by
  cases what with
  | property =>
    simp only [follow, followProperty]
    split
    · exact .read (fun _ => ⟨_, rfl⟩) fun _ => followEntry_recovers hE _ _ next
    · split
      · exact followLength_recovers hE _ next
      · split
        · exact followItem_recovers hE _ _ next
        · exact constant_recovers hE _ next
    · exact constant_recovers hE _ next
    · exact constant_recovers hE _ next
  | membership =>
    simp only [follow, followMembership]
    split
    · exact followElement_recovers hE _ _ next
    · exact .read (fun _ => ⟨_, rfl⟩) fun _ => followKey_recovers hE _ _ next
    · exact constant_recovers hE _ next

/-! ## Writing -/

theorem assignUnder_recovers (container key value : Value) : Run.Recovers (assignUnder E container key value) := by
  unfold assignUnder
  split
  · exact .read (fun _ => ⟨_, rfl⟩) fun _ => ObjectId.assign_recovers hE.reactions _ _ _
  · split
    · exact ListId.assign_recovers hE.reactions _ _ _
    · exact .pure _
  · exact .pure _

theorem deleteAll_recovers (l : ListId) (value : Value) (rounds : Nat) : Run.Recovers (deleteAll E l value rounds) := by
  induction rounds with
  | zero => exact .throw _
  | succ rounds ih =>
    refine .bind (l.delete_recovers hE.reactions value) fun found => ?_
    split
    · exact ih
    · exact .pure _

theorem setPresence_recovers (collection member : Value) (present : Bool) :
    Run.Recovers (setPresence E collection member present) := by
  unfold setPresence
  split
  · split
    · refine .read (fun _ => ⟨_, rfl⟩) fun _ => ?_
      split
      · exact ListId.push_recovers hE.reactions _ _
      · exact .pure _
    · exact .read (fun _ => ⟨_, rfl⟩) fun _ => deleteAll_recovers hE _ _ _
  · refine .read (fun _ => ⟨_, rfl⟩) fun _ => ?_
    dsimp only
    split
    · exact ObjectId.assign_recovers hE.reactions _ _ _
    · exact (ObjectId.delete_recovers hE.reactions _ _).discard
  · exact .pure _

theorem write_recovers (how : Writing) (container key value : Value) : Run.Recovers (write E how container key value) := by
  cases how with
  | assign => exact assignUnder_recovers hE _ _ _
  | toggle => exact setPresence_recovers hE _ _ _

/-! ## How long a view lives -/

theorem cancelEntries_recovers (es : List (Ref .entry)) : Run.Recovers (cancelEntries E es) := by
  induction es with
  | nil => exact .pure _
  | cons e es ih => exact .bind (takeEntryCancel_recovers e) fun _ => .bind (hE.cancel _) fun _ => ih

theorem cancelSegments_recovers (ss : List (Ref .segment)) : Run.Recovers (cancelSegments E ss) := by
  induction ss with
  | nil => exact .pure _
  | cons s ss ih => exact .bind (takeSegmentCancel_recovers s) fun _ => .bind (hE.cancel _) fun _ => ih

theorem finish_recovers (b : Ref .block) : Run.Recovers (finish E b) := by
  refine .read (fun _ => ⟨_, rfl⟩) fun _ => ?_
  split
  · exact .pure _
  refine .bind (.cells fun _ => rfl) fun _ => ?_
  split
  · exact cancelSegments_recovers hE _
  · split
    · exact .read (fun _ => ⟨_, rfl⟩) fun _ => .bind (.cells fun _ => rfl) fun _ => cancelEntries_recovers hE _
    · exact .pure _

theorem release_recovers (b : Ref .block) : Run.Recovers (release E b) := by
  refine .read (fun w => ⟨w, rfl⟩) fun _ => ?_
  split
  · exact .cells fun _ => rfl
  · exact finish_recovers hE b

theorem finishOrphans_recovers (rounds : Nat) : Run.Recovers (finishOrphans E rounds) := by
  induction rounds with
  | zero => exact .pure _
  | succ rounds ih =>
    refine .read (fun w => ⟨w, rfl⟩) fun _ => ?_
    split
    · exact .pure _
    · exact .bind (.cells fun _ => rfl) fun _ => .bind (finish_recovers hE _) fun _ => ih

theorem sweep_recovers : Run.Recovers (sweep E) := .read (fun _ => ⟨_, rfl⟩) fun _ => finishOrphans_recovers hE _

theorem holdingBlock_recovers (b : Ref .block) {act : Live π σ Unit} (h : act.Recovers) : Run.Recovers (holdingBlock E b act) :=
  .read (fun _ => ⟨_, rfl⟩) fun _ =>
    .bind (.restoring (fun _ => .of_same rfl (fun _ => rfl) rfl) (.bind (.cells fun _ => rfl) fun _ => h)) fun _ =>
      sweep_recovers hE

end

/-! ## Relations -/

theorem keepingHeldEntries_recovers {act : Live π σ α} (h : act.Recovers) : Run.Recovers (keepingHeldEntries act) :=
  .read (fun _ => ⟨_, rfl⟩) fun _ => .restoring (fun _ => .of_same rfl (fun _ => rfl) rfl) h

namespace Relations

variable {E : Engine π σ} (hE : E.Recovers)

theorem number_recovers (index : Nat) (es : List (Ref .entry)) : Run.Recovers (number index es : Live π σ Unit) := by
  induction es generalizing index with
  | nil => exact .pure _
  | cons e es ih => exact .bind (.cells fun _ => rfl) fun _ => ih _

theorem receive_recovers {update : Nat → Value → Value → Live π σ Unit} (h : ∀ index old new, Run.Recovers (update index old new))
    (r : Ref .relations) (e : Ref .entry) (v : Value) : Run.Recovers (receive update r e v) := by
  refine .read (fun _ => ⟨_, rfl⟩) fun _ => ?_
  split
  · refine keepingHeldEntries_recovers (.bind (.cells fun _ => rfl) fun _ => .read (fun _ => ⟨_, rfl⟩) fun _ => ?_)
    refine .bind (.cells fun _ => rfl) fun _ => .read (fun _ => ⟨_, rfl⟩) fun _ => ?_
    dsimp only
    split
    · exact h _ _ _
    · exact .pure _
  · exact .pure _

include hE

theorem startEntry_recovers (r : Ref .relations) (index : Nat) (input : Value) : Run.Recovers (startEntry E r index input) :=
  .read (fun _ => ⟨_, rfl⟩) fun _ => .bind (.making fun _ => rfl) fun _ => .bind (.cells fun _ => rfl) fun _ =>
    .bind (hE.start _ _ _) fun _ => .bind (.cells fun _ => rfl) fun _ => .bind (.cells fun _ => rfl) fun _ => .pure _

theorem startEntries_recovers (r : Ref .relations) (index : Nat) (inputs : List Value) :
    Run.Recovers (startEntries E r index inputs) := by
  induction inputs generalizing index with
  | nil => exact .pure _
  | cons v vs ih => exact .bind (startEntry_recovers hE r index v) fun _ => .bind (ih _) fun _ => .pure _

theorem splice_recovers (r : Ref .relations) (index removed : Nat) (plus : List Value) :
    Run.Recovers (splice E r index removed plus) := by
  refine keepingHeldEntries_recovers (.read (fun _ => ⟨_, rfl⟩) fun _ => ?_)
  refine .bind (.cells fun _ => rfl) fun _ => .bind (.cells fun _ => rfl) fun _ => .bind (cancelEntries_recovers hE _) fun _ => ?_
  refine .bind (startEntries_recovers hE r index plus) fun _ => .read (fun _ => ⟨_, rfl⟩) fun _ => ?_
  exact .bind (.cells fun _ => rfl) fun _ => .bind (number_recovers _ _) fun _ => .pure _

theorem reset_recovers (r : Ref .relations) (items : List Value) : Run.Recovers (reset E r items) :=
  .read (fun _ => ⟨_, rfl⟩) fun _ => splice_recovers hE r _ _ items

end Relations

/-! ## Views of a collection -/

section

theorem modifyBlock_recovers (b : Ref .block) (f : Block π → Block π) : Run.Recovers (modifyBlock b f : Live π σ Unit) :=
  .cells fun _ => rfl

theorem keptOf_recovers (b : Ref .block) : Run.Recovers (keptOf b : Live π σ KeptCounts) :=
  .read (fun _ => ⟨_, rfl⟩) fun _ => by split <;> exact .pure _

theorem bucketsOf_recovers (b : Ref .block) : Run.Recovers (bucketsOf b : Live π σ (List Bucket)) :=
  .read (fun _ => ⟨_, rfl⟩) fun _ => by split <;> exact .pure _

theorem mergedOf_recovers (b : Ref .block) : Run.Recovers (mergedOf b : Live π σ (List (String × ListId))) :=
  .read (fun _ => ⟨_, rfl⟩) fun _ => by split <;> exact .pure _

theorem segmentsOf_recovers (b : Ref .block) : Run.Recovers (segmentsOf b : Live π σ (List (Ref .segment))) :=
  .read (fun _ => ⟨_, rfl⟩) fun _ => by split <;> exact .pure _

theorem elementsOf_recovers (v : Value) : Run.Recovers (elementsOf v : Live π σ (List Value)) := by
  unfold elementsOf
  split
  · exact fun w => .refl w
  · exact .pure _

theorem allElements_recovers (values : List Value) : Run.Recovers (allElements values : Live π σ (List Value)) := by
  induction values with
  | nil => exact .pure _
  | cons v vs ih => exact .bind (elementsOf_recovers v) fun _ => .bind ih fun _ => .pure _

theorem concatItems_recovers (ls : List ListId) : Run.Recovers (concatItems ls : Live π σ (List Value)) := by
  induction ls with
  | nil => exact .pure _
  | cons l ls ih => exact .read (fun _ => ⟨_, rfl⟩) fun _ => .bind ih fun _ => .pure _

theorem newBucket_recovers (key : Value) : Run.Recovers (newBucket key : Live π σ Bucket) :=
  .bind (ListId.create_recovers _) fun _ => .bind (ListId.create_recovers _) fun _ => .pure _

theorem enumeratePairs_recovers (index : Nat) (values : List Value) :
    Run.Recovers (enumeratePairs index values : Live π σ (List Value)) := by
  induction values generalizing index with
  | nil => exact .pure _
  | cons v vs ih => exact .bind (ListId.create_recovers _) fun _ => .bind (ih _) fun _ => .pure _

theorem watchSegment_recovers (b : Ref .block) (index : Nat) (value : Value) :
    Run.Recovers (watchSegment b index value : Live π σ (Ref .segment)) := by
  refine .bind (elementsOf_recovers value) fun _ => .bind (.making fun _ => rfl) fun s => ?_
  dsimp only
  split
  · exact .bind (ListId.listen_recovers _ _ _) fun _ => .bind (.cells fun _ => rfl) fun _ => .pure _
  · exact .pure _

theorem watchSegments_recovers (b : Ref .block) (index : Nat) (values : List Value) :
    Run.Recovers (watchSegments b index values : Live π σ (List (Ref .segment))) := by
  induction values generalizing index with
  | nil => exact .pure _
  | cons v vs ih => exact .bind (watchSegment_recovers b index v) fun _ => .bind (ih _) fun _ => .pure _

theorem numberSegments_recovers (index : Nat) (ss : List (Ref .segment)) :
    Run.Recovers (numberSegments index ss : Live π σ Unit) := by
  induction ss generalizing index with
  | nil => exact .pure _
  | cons s ss ih => exact .bind (.cells fun _ => rfl) fun _ => ih _

variable {E : Engine π σ} (hE : E.Recovers)
include hE

theorem flip_recovers (b : Ref .block) (output : ListId) (r : Ref .relations) (index : Nat) (was now : Bool) :
    Run.Recovers (flip E b output r index was now) := by
  unfold flip
  split
  · exact .pure _
  refine .bind (keptOf_recovers b) fun _ => ?_
  dsimp only
  split
  · exact .pure _
  refine .bind (modifyBlock_recovers b _) fun _ => ?_
  split
  · exact .read (fun _ => ⟨_, rfl⟩) fun _ => (output.splice_recovers hE.reactions _ _ _).discard
  · exact (output.splice_recovers hE.reactions _ _ _).discard

theorem publishQuantifier_recovers (all : Bool) (r : Ref .relations) (sink : Sink π) :
    Run.Recovers (publishQuantifier E all r sink) :=
  .read (fun _ => ⟨_, rfl⟩) fun _ => hE.emit sink _

theorem publishExtreme_recovers (greatest : Bool) (r : Ref .relations) (sink : Sink π) :
    Run.Recovers (publishExtreme E greatest r sink) :=
  .read (fun _ => ⟨_, rfl⟩) fun _ => .read (fun _ => ⟨_, rfl⟩) fun _ => hE.emit sink _

theorem resort_recovers (output : ListId) (r : Ref .relations) : Run.Recovers (resort E output r) :=
  .read (fun _ => ⟨_, rfl⟩) fun _ => .read (fun _ => ⟨_, rfl⟩) fun _ => output.reconcile_recovers hE.reactions _

theorem fillBuckets_recovers (previous : List Bucket) (groups : List (Value × List Value)) :
    Run.Recovers (fillBuckets E previous groups) := by
  induction groups generalizing previous with
  | nil => exact .pure _
  | cons group groups ih =>
    unfold fillBuckets
    dsimp only
    split
    · exact .bind (.pure _) fun _ => .bind (ListId.reconcile_recovers hE.reactions _ _) fun _ => .bind (ih _) fun _ => .pure _
    · exact .bind (newBucket_recovers _) fun _ => .bind (ListId.reconcile_recovers hE.reactions _ _) fun _ =>
        .bind (ih _) fun _ => .pure _

theorem mergeBuckets_recovers (b : Ref .block) (named : List (String × List Bucket)) :
    Run.Recovers (mergeBuckets E b named) := by
  induction named with
  | nil => exact .pure _
  | cons entry named ih =>
    have others (members : ListId) : Run.Recovers (do return (entry.1, members) :: (← mergeBuckets E b named)) :=
      .bind ih fun _ => .pure _
    have filled (members : ListId) : Run.Recovers (do
        members.reconcile E.reactions (← concatItems (entry.2.map (·.members)))
        let members ← pure members
        return (entry.1, members) :: (← mergeBuckets E b named)) :=
      .bind (concatItems_recovers _) fun _ => .bind (members.reconcile_recovers hE.reactions _) fun _ => .bind (.pure _) others
    unfold mergeBuckets
    dsimp only
    split
    · exact .bind (.pure _) others
    refine .bind (mergedOf_recovers b) fun _ => ?_
    split
    · exact .bind (.pure _) filled
    · exact .bind (ListId.create_recovers _) fun _ => .bind (modifyBlock_recovers b _) fun _ => .bind (.pure _) filled

theorem deleteOthers_recovers (output : ObjectId) (names keys : List String) :
    Run.Recovers (deleteOthers E output names keys) := by
  induction keys with
  | nil => exact .pure _
  | cons key keys ih =>
    unfold deleteOthers
    split
    · exact .bind (output.delete_recovers hE.reactions key).discard fun _ => ih
    · exact ih

theorem assignLists_recovers (output : ObjectId) (named : List (String × ListId)) :
    Run.Recovers (assignLists E output named) := by
  induction named with
  | nil => exact .pure _
  | cons entry named ih => exact .bind (output.assign_recovers hE.reactions _ _) fun _ => ih

theorem publishGroupMap_recovers (b : Ref .block) (output : ObjectId) (buckets : List Bucket) :
    Run.Recovers (publishGroupMap E b output buckets) :=
  .read (fun _ => ⟨_, rfl⟩) fun _ => .bind (mergedOf_recovers b) fun _ => .bind (modifyBlock_recovers b _) fun _ =>
    .bind (mergeBuckets_recovers hE b _) fun _ => .read (fun _ => ⟨_, rfl⟩) fun _ =>
      .bind (deleteOthers_recovers hE output _ _) fun _ => assignLists_recovers hE output _

omit hE in
theorem regroup_recovers (hE : E.Recovers) (b : Ref .block) (r : Ref .relations) {publish : List Bucket → Live π σ Unit}
    (h : ∀ buckets, Run.Recovers (publish buckets)) : Run.Recovers (regroup E b r publish) :=
  .read (fun _ => ⟨_, rfl⟩) fun _ => .read (fun _ => ⟨_, rfl⟩) fun _ => .bind (bucketsOf_recovers b) fun _ =>
    .bind (modifyBlock_recovers b _) fun _ => .bind (fillBuckets_recovers hE _ _) fun buckets => .bind (h buckets) fun _ =>
      modifyBlock_recovers b _

theorem regroupList_recovers (b : Ref .block) (output : ListId) (r : Ref .relations) : Run.Recovers (regroupList E b output r) :=
  regroup_recovers hE b r fun _ => output.reconcile_recovers hE.reactions _

theorem regroupMap_recovers (b : Ref .block) (output : ObjectId) (r : Ref .relations) : Run.Recovers (regroupMap E b output r) :=
  regroup_recovers hE b r fun buckets => publishGroupMap_recovers hE b output buckets

theorem renumberPairs_recovers (output : ListId) (count position : Nat) :
    Run.Recovers (renumberPairs E output count position) := by
  induction count generalizing position with
  | zero => exact .pure _
  | succ count ih =>
    refine .read (fun _ => ⟨_, rfl⟩) fun _ => ?_
    split
    · exact .bind (ListId.assign_recovers hE.reactions _ _ _) fun _ => ih _
    · exact ih _


theorem spliceFlatten_recovers (b : Ref .block) (output : ListId) (index removed : Nat) (plus : List Value) :
    Run.Recovers (spliceFlatten E b output index removed plus) := by
  refine .bind (segmentsOf_recovers b) fun _ => .read (fun _ => ⟨_, rfl⟩) fun _ => .bind (modifyBlock_recovers b _) fun _ => ?_
  refine .read (fun _ => ⟨_, rfl⟩) fun _ => .bind (cancelSegments_recovers hE _) fun _ => ?_
  refine .bind (watchSegments_recovers b index plus) fun _ => .bind (segmentsOf_recovers b) fun _ => ?_
  refine .bind (modifyBlock_recovers b _) fun _ => ?_
  exact .bind (numberSegments_recovers _ _) fun _ => .bind (allElements_recovers plus) fun _ =>
    (output.splice_recovers hE.reactions _ _ _).discard

omit hE in
theorem ListId.replaceSpan_recovers {R : Reactions (Callback π) (Env π σ)} (hR : R.Recovers) (l : ListId) (start length : Nat)
    (next : List Value) : Run.Recovers (l.replaceSpan R start length next) :=
  .read (fun _ => ⟨_, rfl⟩) fun _ => (l.splice_recovers hR _ _ _).discard

theorem refillSegment_recovers (b : Ref .block) (output : ListId) (s : Ref .segment) (next : List Value) :
    Run.Recovers (refillSegment E b output s next) :=
  .read (fun _ => ⟨_, rfl⟩) fun _ => .bind (segmentsOf_recovers b) fun _ => .bind (.cells fun _ => rfl) fun _ =>
    output.replaceSpan_recovers hE.reactions _ _ _

theorem refreshWindow_recovers (b : Ref .block) : Run.Recovers (refreshWindow E b) := by
  refine .read (fun _ => ⟨_, rfl⟩) fun _ => ?_
  split
  · exact ListId.reconcile_recovers hE.reactions _ _
  · exact .pure _

theorem setBounds_recovers (b : Ref .block) (start length : Nat) : Run.Recovers (setBounds E b start length) :=
  .bind (modifyBlock_recovers b _) fun _ => refreshWindow_recovers hE b

theorem spliceWindow_recovers (b : Ref .block) (output : ListId) (items : List Value) (start length index removed : Nat)
    (plus : List Value) : Run.Recovers (spliceWindow E b output items start length index removed plus) := by
  refine .bind (modifyBlock_recovers b _) fun _ => ?_
  split
  · exact .pure _
  split
  · exact output.replaceSpan_recovers hE.reactions _ _ _
  · exact refreshWindow_recovers hE b

namespace Block

theorem reset_recovers (b : Ref .block) (items : List Value) : Run.Recovers (reset E b items) := by
  have results (r : Ref .relations) : Run.Recovers (Relations.reset E r items) := Relations.reset_recovers hE r items
  refine .read (fun _ => ⟨_, rfl⟩) fun _ => ?_
  split
  · exact .pure _
  · exact .bind (results _) fun _ => ListId.reconcile_recovers hE.reactions _ _
  · exact .bind (results _) fun _ => .bind (modifyBlock_recovers b _) fun _ => ListId.reconcile_recovers hE.reactions _ _
  · exact .bind (results _).discard fun _ => publishQuantifier_recovers hE _ _ _
  · exact .bind (results _).discard fun _ => publishExtreme_recovers hE _ _ _
  · exact .bind (results _).discard fun _ => resort_recovers hE _ _
  · exact .bind (results _).discard fun _ => regroupList_recovers hE b _ _
  · exact .bind (results _).discard fun _ => regroupMap_recovers hE b _ _
  · exact .read (fun _ => ⟨_, rfl⟩) fun _ => .bind (enumeratePairs_recovers _ _) fun _ =>
      (ListId.splice_recovers hE.reactions _ _ _ _).discard
  · exact ListId.reconcile_recovers hE.reactions _ _
  · exact spliceFlatten_recovers hE b _ _ _ _
  · exact .bind (modifyBlock_recovers b _) fun _ => refreshWindow_recovers hE b
  · exact .bind (modifyBlock_recovers b _) fun _ => hE.emit _ _

theorem splice_recovers (b : Ref .block) (index removed : Nat) (plus : List Value) :
    Run.Recovers (splice E b index removed plus) := by
  have results (r : Ref .relations) : Run.Recovers (Relations.splice E r index removed plus) :=
    Relations.splice_recovers hE r index removed plus
  refine .read (fun _ => ⟨_, rfl⟩) fun _ => ?_
  split
  · exact .pure _
  · exact .bind (results _) fun _ => (ListId.splice_recovers hE.reactions _ _ _ _).discard
  · exact .bind (results _) fun _ => .bind (keptOf_recovers b) fun _ => .bind (modifyBlock_recovers b _) fun _ =>
      (ListId.splice_recovers hE.reactions _ _ _ _).discard
  · exact .bind (results _).discard fun _ => publishQuantifier_recovers hE _ _ _
  · exact .bind (results _).discard fun _ => publishExtreme_recovers hE _ _ _
  · exact .bind (results _).discard fun _ => resort_recovers hE _ _
  · exact .bind (results _).discard fun _ => regroupList_recovers hE b _ _
  · exact .bind (results _).discard fun _ => regroupMap_recovers hE b _ _
  · refine .bind (enumeratePairs_recovers _ _) fun _ => .bind (ListId.splice_recovers hE.reactions _ _ _ _).discard fun _ => ?_
    split
    · exact .read (fun _ => ⟨_, rfl⟩) fun _ => renumberPairs_recovers hE _ _ _
    · exact .pure _
  · exact .read (fun _ => ⟨_, rfl⟩) fun _ => (ListId.splice_recovers hE.reactions _ _ _ _).discard
  · exact spliceFlatten_recovers hE b _ _ _ _
  · exact spliceWindow_recovers hE b _ _ _ _ _ _ _
  · exact .bind (modifyBlock_recovers b _) fun _ => hE.emit _ _

theorem update_recovers (b : Ref .block) (index : Nat) (old new : Value) : Run.Recovers (update E b index old new) := by
  refine .read (fun _ => ⟨_, rfl⟩) fun _ => ?_
  split
  · exact .pure _
  refine holdingBlock_recovers hE b ?_
  split
  · exact ListId.assign_recovers hE.reactions _ _ _
  · exact flip_recovers hE b _ _ _ _ _
  · exact publishQuantifier_recovers hE _ _ _
  · exact publishExtreme_recovers hE _ _ _
  · exact resort_recovers hE _ _
  · exact regroupList_recovers hE b _ _
  · exact regroupMap_recovers hE b _ _
  · exact .pure _

theorem refill_recovers (b : Ref .block) (s : Ref .segment) (inner : ListId) : Run.Recovers (refill E b s inner) := by
  refine .read (fun _ => ⟨_, rfl⟩) fun _ => ?_
  split
  · exact holdingBlock_recovers hE b (.read (fun _ => ⟨_, rfl⟩) fun _ => refillSegment_recovers hE b _ s _)
  · exact .pure _

end Block

/-! ## Views of an object's entries -/

theorem setPairs_recovers (p : Ref .projector) (entries : List (String × Value)) : Run.Recovers (setPairs E p entries) := by
  induction entries with
  | nil => exact .pure _
  | cons entry entries ih =>
    refine .read (fun _ => ⟨_, rfl⟩) fun _ => .bind (.cells fun _ => rfl) fun _ => ?_
    split
    · exact .bind (ListId.assign_recovers hE.reactions _ _ _) fun _ => .bind (.pure _) fun _ => .bind ih fun _ => .pure _
    · exact .bind (ListId.create_recovers _) fun _ => .bind ih fun _ => .pure _

theorem refreshPairs_recovers (p : Ref .projector) (entries : List (String × Value)) :
    Run.Recovers (refreshPairs E p entries) := by
  refine .read (fun _ => ⟨_, rfl⟩) fun _ => ?_
  split
  · exact .throw _
  refine .restoring (fun _ => .of_same rfl (fun _ => rfl) rfl) (.bind (.cells fun _ => rfl) fun _ => ?_)
  exact .bind (setPairs_recovers hE p entries) fun _ => .bind (.cells fun _ => rfl) fun _ => .pure _

theorem refreshEntries_recovers (p : Ref .projector) (object : Option ObjectId) : Run.Recovers (refreshEntries E p object) := by
  have brought (output : ListId) (next : List Value) : Run.Recovers (output.reconcile E.reactions next) :=
    output.reconcile_recovers hE.reactions next
  unfold refreshEntries
  split
  all_goals
    refine .read (fun _ => ⟨_, rfl⟩) fun entries => .read (fun _ => ⟨_, rfl⟩) fun _ => ?_
    dsimp only
    split
    · exact .bind (.pure _) (brought _)
    · exact .bind (.pure _) (brought _)
    · exact .bind (refreshPairs_recovers hE p entries) (brought _)

end

end LiveBindings
