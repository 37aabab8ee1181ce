import LiveBindings.Collection.Projection
import LiveBindings.Proofs.Elements

/-!
# What views do

Whatever a view does when it is told of a collection keeps what there is (`Block.reset_keeps`, `Block.splice_keeps`), if the view
is not finished before what is in progress is over. When it is told of the result for an element (`Block.update_keeps`) or of
an inner list (`Block.refill_keeps`), it sees to that itself.
-/

namespace LiveBindings

open Estate

variable {π τ : Type} {P : Set (Ref .block)} {R : Set Asset} {b : Ref .block} {r : Ref .relations}
  {w : World (Callback π) (Env π (Ledger π τ))} {E : Engine π (Ledger π τ)}

/-! ## The state of a view -/

theorem setKept_quiet (kept : KeptCounts) : Quiet (setKept b kept) w := by
  refine modifyBlock_quiet b fun cell _ => ?_
  obtain ⟨block, finished⟩ := cell
  cases block <;> rfl

theorem setBuckets_quiet (buckets : List Bucket) : Quiet (setBuckets b buckets) w := by
  refine modifyBlock_quiet b fun cell _ => ?_
  obtain ⟨block, finished⟩ := cell
  cases block <;> rfl

theorem setMerged_quiet (merged : List (String × ListId)) : Quiet (setMerged b merged) w := by
  refine modifyBlock_quiet b fun cell _ => ?_
  obtain ⟨block, finished⟩ := cell
  cases block <;> rfl

theorem keptOf_quiet : Quiet (keptOf b) w := by
  simp only [Quiet, keptOf, Run.leads_bind, leads_cells]
  split <;> rfl

theorem bucketsOf_quiet : Quiet (bucketsOf b) w := by
  simp only [Quiet, bucketsOf, Run.leads_bind, leads_cells]
  split <;> rfl

theorem mergedOf_quiet : Quiet (mergedOf b) w := by
  simp only [Quiet, mergedOf, Run.leads_bind, leads_cells]
  split <;> rfl

/-! ## What is shown -/

theorem flip_keeps (hE : E.Sound) (output : ListId) (index : Nat) (was now : Bool) :
    Keeps P (flip E b output r index was now) w := by
  unfold flip
  split
  · exact .pure _
  refine keptOf_quiet.keeps.bind fun kept w₁ _ => ?_
  dsimp only
  split
  · exact .pure _
  refine (setKept_quiet _).keeps.bind fun _ w₂ _ => ?_
  split
  · exact .read rfl (ListId.splice_keeps hE _ _ _).discard
  · exact (ListId.splice_keeps hE _ _ _).discard

section

variable {sink : Sink π} (hs : w.estate.AllSafe P sink.refs)
include hs

theorem publishQuantifier_keeps (hE : E.Sound) (all : Bool) : Keeps P (publishQuantifier E all r sink) w :=
  .read rfl (hE.emit _ hs)

theorem publishExtreme_keeps (hE : E.Sound) (greatest : Bool) : Keeps P (publishExtreme E greatest r sink) w :=
  .read rfl (.read rfl (hE.emit _ hs))

theorem publishReduction_keeps (hE : E.Sound) (what : Reduction) (items : List Value) :
    Keeps P (publishReduction E what items sink) w := hE.emit _ hs

end

theorem resort_keeps (hE : E.Sound) (output : ListId) : Keeps P (resort E output r) w :=
  .read rfl (.read rfl (ListId.reconcile_keeps hE _))

/-! ## Groups -/

theorem newBucket_quiet (key : Value) : Quiet (newBucket key) w := by
  simp only [Quiet, newBucket, Run.leads_bind, Run.leads_pure]
  refine Run.Leads.imp (ListId.create_quiet []) fun members w₁ he₁ => ?_
  exact Run.Leads.imp (ListId.create_quiet _) fun _ w₂ he₂ => he₂.trans he₁

theorem fillBuckets_keeps (hE : E.Sound) (previous : List Bucket) (groups : List (Value × List Value)) :
    Keeps P (fillBuckets E previous groups) w := by
  induction groups generalizing w previous with
  | nil => exact .pure _
  | cons group groups ih =>
    obtain ⟨key, members⟩ := group
    unfold fillBuckets
    dsimp only
    have hrest : ∀ (bucket : Bucket) (previous : List Bucket) w', Keeps P (do
        bucket.members.reconcile E.reactions members
        let rest ← fillBuckets E previous groups
        return bucket :: rest) w' := fun bucket previous w' =>
      (ListId.reconcile_keeps hE _).bind fun _ _ _ => (ih _).bind fun _ _ _ => .pure _
    split
    · exact hrest _ _ _
    · exact (newBucket_quiet key).keeps.bind fun _ _ _ => hrest _ _ _

theorem concatItems_quiet (ls : List ListId) : Quiet (concatItems ls) w := by
  induction ls with
  | nil => rfl
  | cons l ls ih =>
    simp only [Quiet, concatItems, Run.leads_bind]
    rw [Run.leads_ok (show l.items w = .ok (w.listCell l).items w from rfl)]
    exact Run.Leads.imp ih fun _ _ he => he

theorem mergeBuckets_keeps (hE : E.Sound) (named : List (String × List Bucket)) : Keeps P (mergeBuckets E b named) w := by
  induction named generalizing w with
  | nil => exact .pure _
  | cons group named ih =>
    obtain ⟨name, buckets⟩ := group
    unfold mergeBuckets
    dsimp only
    have hlist : ∀ (members : ListId) w', Keeps P (do
        let rest ← mergeBuckets E b named
        return (name, members) :: rest) w' := fun members w' => ih.bind fun _ _ _ => .pure _
    have hmerged : ∀ (members : ListId) w', Keeps P (do
        members.reconcile E.reactions (← concatItems (buckets.map (·.members)))
        let rest ← mergeBuckets E b named
        return (name, members) :: rest) w' := fun members w' =>
      (concatItems_quiet _).keeps.bind fun _ _ _ => (ListId.reconcile_keeps hE _).bind fun _ _ _ => hlist _ _
    split
    · exact hlist _ _
    refine mergedOf_quiet.keeps.bind fun merged w₁ _ => ?_
    split
    · exact hmerged _ _
    · exact (ListId.create_quiet []).keeps.bind fun _ _ _ => (setMerged_quiet _).keeps.bind fun _ _ _ => hmerged _ _

theorem deleteOthers_keeps (hE : E.Sound) (output : ObjectId) (names keys : List String) :
    Keeps P (deleteOthers E output names keys) w := by
  induction keys generalizing w with
  | nil => exact .pure _
  | cons key keys ih =>
    unfold deleteOthers
    split
    · exact (ObjectId.delete_keeps hE key).discard.bind fun _ _ _ => ih
    · exact ih

theorem assignLists_keeps (hE : E.Sound) (output : ObjectId) (lists : List (String × ListId)) :
    Keeps P (assignLists E output lists) w := by
  induction lists generalizing w with
  | nil => exact .pure _
  | cons l lists ih => exact (ObjectId.assign_keeps hE _ _).bind fun _ _ _ => ih

theorem publishGroupMap_keeps (hE : E.Sound) (output : ObjectId) (buckets : List Bucket) :
    Keeps P (publishGroupMap E b output buckets) w := by
  refine .read rfl ?_
  dsimp only
  refine mergedOf_quiet.keeps.bind fun merged w₁ _ => (setMerged_quiet _).keeps.bind fun _ w₂ _ => ?_
  refine (mergeBuckets_keeps hE _).bind fun lists w₃ _ => .read rfl ?_
  exact (deleteOthers_keeps hE _ _ _).bind fun _ w₄ _ => assignLists_keeps hE _ _

theorem regroup_keeps (hE : E.Sound) {publish : List Bucket → Live π (Ledger π τ) Unit}
    (hp : ∀ buckets w, Keeps P (publish buckets) w) : Keeps P (regroup E b r publish) w := by
  refine .read rfl (.read rfl ?_)
  dsimp only
  refine bucketsOf_quiet.keeps.bind fun previous w₁ _ => (setBuckets_quiet _).keeps.bind fun _ w₂ _ => ?_
  refine (fillBuckets_keeps hE _ _).bind fun buckets w₃ _ => (hp _ _).bind fun _ w₄ _ => ?_
  exact (setBuckets_quiet _).keeps

theorem regroupList_keeps (hE : E.Sound) (output : ListId) : Keeps P (regroupList E b output r) w :=
  regroup_keeps hE fun _ _ => ListId.reconcile_keeps hE _

theorem regroupMap_keeps (hE : E.Sound) (output : ObjectId) : Keeps P (regroupMap E b output r) w :=
  regroup_keeps hE fun _ _ => publishGroupMap_keeps hE _ _

/-! ## Moved elements -/

theorem enumeratePairs_quiet (index : Nat) (items : List Value) : Quiet (enumeratePairs index items) w := by
  induction items generalizing w index with
  | nil => rfl
  | cons v vs ih =>
    simp only [Quiet, enumeratePairs, Run.leads_bind]
    refine Run.Leads.imp (ListId.create_quiet _) fun _ w₁ he₁ => Run.Leads.imp (ih _) fun _ w₂ he₂ => ?_
    exact he₂.trans he₁

theorem renumberPairs_keeps (hE : E.Sound) (output : ListId) (count position : Nat) :
    Keeps P (renumberPairs E output count position) w := by
  induction count generalizing w position with
  | zero => exact .pure _
  | succ count ih =>
    refine .read rfl ?_
    dsimp only
    split
    · exact (ListId.assign_keeps hE _ _).bind fun _ _ _ => ih _
    · exact ih _

theorem segmentsOf_quiet : Quiet (segmentsOf b) w := by
  simp only [Quiet, segmentsOf, Run.leads_bind, leads_cells]
  split <;> rfl

theorem refillSegment_keeps (hE : E.Sound) (output : ListId) (s : Ref .segment) (next : List Value) :
    Keeps P (refillSegment E b output s next) w := by
  refine .read rfl ?_
  dsimp only
  refine segmentsOf_quiet.keeps.bind fun ss w₁ _ => ?_
  refine Keeps.bind (modifySegment_quiet s ?_).keeps fun _ w₂ _ => ListId.replaceSpan_keeps hE _ _ _
  exact fun _ => rfl

/-! ## Windows -/

theorem refreshWindow_keeps (hE : E.Sound) : Keeps P (refreshWindow E b) w := by
  refine .read rfl ?_
  split
  · exact ListId.reconcile_keeps hE _
  · exact .pure _

theorem setBounds_keeps (hE : E.Sound) (start length : Nat) : Keeps P (setBounds E b start length) w := by
  refine Keeps.bind (modifyBlock_quiet b fun cell _ => ?_).keeps fun _ _ _ => refreshWindow_keeps hE
  obtain ⟨block, finished⟩ := cell
  cases block <;> rfl

theorem spliceWindow_keeps (hE : E.Sound) {output : ListId} {items : List Value} {start length : Nat}
    (hb : w.env.cells.block? b = some (.window output items start length)) (index removed : Nat) (plus : List Value) :
    Keeps P (spliceWindow E b output items start length index removed plus) w := by
  refine Keeps.bind (modifyBlock_quiet b fun cell hc => ?_).keeps fun _ w₁ _ => ?_
  · obtain rfl : cell = _ := Option.some.inj (hc.symm.trans (Cells.block?_eq_some.1 hb))
    rfl
  split
  · exact .pure _
  split
  · exact ListId.replaceSpan_keeps hE _ _ _
  · exact refreshWindow_keeps hE

/-! ## The three events of a view -/

namespace Block

variable {block : Block π}

/-- A view that is not finished runs, and has entries if there are relations for it. -/
theorem relates (hb : w.env.cells.block? b = some block) (hr : block.relations? = some r) : w.estate.Relates b r := by
  refine ⟨_, World.view_of_block? hb, rfl, hr, ?_⟩
  cases block <;> first | rfl | cases hr

theorem divides {output : ListId} {ss : List (Ref .segment)} (hb : w.env.cells.block? b = some (.flatten output ss)) :
    w.estate.Divides b ss := ⟨_, World.view_of_block? hb, rfl, rfl⟩

/-- Where a view that nothing finishes meanwhile sends its values is safe, even after it has looked at its elements. -/
theorem sinkSafe {w' : World (Callback π) (Env π (Ledger π τ))} {sink : Sink π}
    (hb : w.env.cells.block? b = some block) (hsink : block.sink? = some sink) (hf : w.estate.Firm P b)
    (hs : Stays P w.estate w'.estate) (hR : Sound P R w'.estate) : w'.estate.AllSafe P sink.refs := by
  obtain ⟨v', hv', hsink', -⟩ := hs.view (World.view_of_block? hb)
  exact hR.sinkSafe hv' (hsink'.trans hsink) (hs.firm hf)

theorem reset_keeps (hE : E.Sound) (hs : w.estate.Safe P (.block b)) (items : List Value) :
    Keeps P (reset E b items) w := by
  refine .read rfl ?_
  cases hb : w.env.cells.block? b with
  | none => exact .pure _
  | some block =>
    have hf : w.estate.Firm P b := hs.firm (World.running_iff.2 ⟨block, hb⟩)
    cases block with
    | map output r =>
      exact (Relations.reset_keeps hE (relates hb rfl) hf items).bind fun _ _ _ => ListId.reconcile_keeps hE _
    | filter output r kept =>
      refine (Relations.reset_keeps hE (relates hb rfl) hf items).bind fun _ _ _ => ?_
      exact (setKept_quiet _).keeps.bind fun _ _ _ => ListId.reconcile_keeps hE _
    | quantifier all r sink =>
      refine (Relations.reset_keeps hE (relates hb rfl) hf items).discard.bind fun _ w₁ h₁ => .of_sound fun hR => ?_
      exact publishQuantifier_keeps (sinkSafe hb rfl hf h₁ hR) hE all
    | extreme greatest r sink =>
      refine (Relations.reset_keeps hE (relates hb rfl) hf items).discard.bind fun _ w₁ h₁ => .of_sound fun hR => ?_
      exact publishExtreme_keeps (sinkSafe hb rfl hf h₁ hR) hE greatest
    | sorted output r =>
      exact (Relations.reset_keeps hE (relates hb rfl) hf items).discard.bind fun _ _ _ => resort_keeps hE _
    | group output r buckets =>
      exact (Relations.reset_keeps hE (relates hb rfl) hf items).discard.bind fun _ _ _ => regroupList_keeps hE _
    | groupMap output r buckets merged =>
      exact (Relations.reset_keeps hE (relates hb rfl) hf items).discard.bind fun _ _ _ => regroupMap_keeps hE _
    | enumerate output =>
      refine .read rfl ((enumeratePairs_quiet _ _).keeps.bind fun _ _ _ => ?_)
      exact (ListId.splice_keeps hE _ _ _).discard
    | reversed output => exact ListId.reconcile_keeps hE _
    | flatten output segments => exact spliceFlatten_keeps hE (divides hb) hf output _ _ _
    | window output _ start length =>
      refine Keeps.bind (modifyBlock_quiet b fun cell hc => ?_).keeps fun _ _ _ => refreshWindow_keeps hE
      obtain rfl : cell = _ := Option.some.inj (hc.symm.trans (Cells.block?_eq_some.1 hb))
      rfl
    | reduce what _ sink =>
      refine Keeps.bind (modifyBlock_quiet b fun cell hc => ?_).keeps fun _ w₁ h₁ => .of_sound fun hR => ?_
      · obtain rfl : cell = _ := Option.some.inj (hc.symm.trans (Cells.block?_eq_some.1 hb))
        rfl
      · exact publishReduction_keeps (sinkSafe hb rfl hf h₁ hR) hE what items

theorem splice_keeps (hE : E.Sound) (hs : w.estate.Safe P (.block b)) (index removed : Nat) (plus : List Value) :
    Keeps P (splice E b index removed plus) w := by
  refine .read rfl ?_
  cases hb : w.env.cells.block? b with
  | none => exact .pure _
  | some block =>
    have hf : w.estate.Firm P b := hs.firm (World.running_iff.2 ⟨block, hb⟩)
    have hrel : ∀ {r}, block.relations? = some r → Keeps P (Relations.splice E r index removed plus) w :=
      fun hr => Relations.splice_keeps hE (relates hb hr) hf _ _ _
    cases block with
    | map output r => exact (hrel rfl).bind fun _ _ _ => (ListId.splice_keeps hE _ _ _).discard
    | filter output r kept =>
      refine (hrel rfl).bind fun _ _ _ => keptOf_quiet.keeps.bind fun _ _ _ => ?_
      exact (setKept_quiet _).keeps.bind fun _ _ _ => (ListId.splice_keeps hE _ _ _).discard
    | quantifier all r sink =>
      refine (hrel rfl).discard.bind fun _ w₁ h₁ => .of_sound fun hR => ?_
      exact publishQuantifier_keeps (sinkSafe hb rfl hf h₁ hR) hE all
    | extreme greatest r sink =>
      refine (hrel rfl).discard.bind fun _ w₁ h₁ => .of_sound fun hR => ?_
      exact publishExtreme_keeps (sinkSafe hb rfl hf h₁ hR) hE greatest
    | sorted output r => exact (hrel rfl).discard.bind fun _ _ _ => resort_keeps hE _
    | group output r buckets => exact (hrel rfl).discard.bind fun _ _ _ => regroupList_keeps hE _
    | groupMap output r buckets merged => exact (hrel rfl).discard.bind fun _ _ _ => regroupMap_keeps hE _
    | enumerate output =>
      refine (enumeratePairs_quiet _ _).keeps.bind fun _ _ _ => (ListId.splice_keeps hE _ _ _).discard.bind fun _ _ _ => ?_
      dsimp only
      split
      · exact .read rfl (renumberPairs_keeps hE _ _ _)
      · exact .pure _
    | reversed output => exact .read rfl (ListId.splice_keeps hE _ _ _).discard
    | flatten output segments => exact spliceFlatten_keeps hE (divides hb) hf output _ _ _
    | window output items start length => exact spliceWindow_keeps hE hb _ _ _
    | reduce what items sink =>
      refine Keeps.bind (modifyBlock_quiet b fun cell hc => ?_).keeps fun _ w₁ h₁ => .of_sound fun hR => ?_
      · obtain rfl : cell = _ := Option.some.inj (hc.symm.trans (Cells.block?_eq_some.1 hb))
        rfl
      · exact publishReduction_keeps (sinkSafe hb rfl hf h₁ hR) hE what _

/-- While a view is told of a result it is held. -/
theorem update_keeps (hE : E.Sound) (index : Nat) (old new : Value) : Keeps P (update E b index old new) w := by
  refine .read rfl ?_
  cases hb : w.env.cells.block? b with
  | none => exact .pure _
  | some block =>
    refine holdingBlock_keeps hE (.of_sound fun hR => ?_)
    generalize hw₁ : w.withCells _ = w₁ at hR ⊢
    have hb₁ : w₁.env.cells.block? b = some block := hw₁ ▸ hb
    have hheld : w₁.estate.Firm P b := by
      refine Or.inr (.block ?_ (World.running_iff.2 ⟨block, hb₁⟩))
      rw [← hw₁]
      exact List.mem_cons_self ..
    cases block with
    | map output r => exact ListId.assign_keeps hE _ _
    | filter output r kept => exact flip_keeps hE _ _ _ _
    | quantifier all r sink => exact publishQuantifier_keeps (sinkSafe hb₁ rfl hheld (.refl P _) hR) hE all
    | extreme greatest r sink => exact publishExtreme_keeps (sinkSafe hb₁ rfl hheld (.refl P _) hR) hE greatest
    | sorted output r => exact resort_keeps hE _
    | group output r buckets => exact regroupList_keeps hE _
    | groupMap output r buckets merged => exact regroupMap_keeps hE _
    | _ => exact .pure _

theorem refill_keeps (hE : E.Sound) (s : Ref .segment) (inner : ListId) : Keeps P (refill E b s inner) w := by
  refine .read rfl ?_
  split
  · exact holdingBlock_keeps hE (.read rfl (refillSegment_keeps hE _ _ _))
  · exact .pure _

end Block

/-! ## Views of entries -/

theorem setPairs_keeps (hE : E.Sound) (p : Ref .projector) (entries : List (String × Value)) :
    Keeps P (setPairs E p entries) w := by
  induction entries generalizing w with
  | nil => exact .pure _
  | cons entry entries ih =>
    obtain ⟨key, value⟩ := entry
    have hrest : ∀ (pair : ListId) w', Keeps P (do
        let pairs ← setPairs E p entries
        return (key, pair) :: pairs) w' := fun pair w' => ih.bind fun _ _ _ => .pure _
    refine .read rfl ?_
    dsimp only
    refine (modifyProjector_quiet p _).keeps.bind fun _ w₁ _ => ?_
    split
    · exact (ListId.assign_keeps hE _ _).bind fun _ _ _ => hrest _ _
    · exact (ListId.create_quiet _).keeps.bind fun _ _ _ => hrest _ _

theorem refreshPairs_keeps (hE : E.Sound) (p : Ref .projector) (entries : List (String × Value)) :
    Keeps P (refreshPairs E p entries) w := by
  refine .read rfl ?_
  split
  · exact .throw _
  refine .restoring (fun _ => rfl) ?_
  refine (modifyProjector_quiet p _).keeps.bind fun _ w₁ _ => (setPairs_keeps hE p _).bind fun pairs w₂ _ => ?_
  exact (modifyProjector_quiet p _).keeps.bind fun _ w₃ _ => .pure _

theorem refreshEntries_keeps (hE : E.Sound) (p : Ref .projector) (object : Option ObjectId) :
    Keeps P (refreshEntries E p object) w := by
  unfold refreshEntries
  extract_lets rest
  have hrest : ∀ entries w', Keeps P (rest entries) w' := by
    intro entries w'
    refine .read rfl ?_
    dsimp only
    split
    · exact ListId.reconcile_keeps hE _
    · exact ListId.reconcile_keeps hE _
    · exact (refreshPairs_keeps hE p _).bind fun _ _ _ => ListId.reconcile_keeps hE _
  cases object with
  | none => exact hrest _ _
  | some o => exact .read rfl (hrest _ _)

end LiveBindings
