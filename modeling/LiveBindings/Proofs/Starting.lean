import LiveBindings.Observe.Bind
import LiveBindings.Proofs.Views

/-!
# What the handle of an observer leads to

Starting an expression leaves its handle in hand, and the handle leads to everything that was started and is not owned by a
view or a slot (`Expr.start_starts`). A view is set up apart from all others: until the handle with it is in hand nothing else
leads to it, so that nothing finishes it.
-/

namespace LiveBindings

open Estate

variable {π τ α : Type} {P : Set (Ref .block)} {w w' : World (Callback π) (Env π (Ledger π τ))} {E : Engine π (Ledger π τ)}
  {next : Sink π}

/-- What is started with a sink is led to by the handle that comes back. -/
def Begins (start : Starting π (Ledger π τ)) : Prop :=
  ∀ P w sink, w.estate.AllSafe P sink.refs → Starts P (start sink) w

/-! ## Handles -/

theorem Cancel.assets_pair (a b : Cancel π) : (Cancel.join [a, b]).assets = a.assets ++ b.assets := by
  simp [Cancel.assets, Cancel.assetsOfAll]

theorem assets_forEach (s : Ref .slot) (outer : Cancel π) : (forEach s outer).assets = outer.assets ++ [.slot s] := by
  simp [forEach, Cancel.assets, Cancel.assetsOfAll]

theorem Starts.listenList {callback : Callback π} (l : ListId) (topic : ListTopic) (hu : ∀ p, callback ≠ .user p)
    (hs : w.estate.AllSafe P callback.refs) :
    Starts P (do let id ← l.listen topic callback; return .unlistenList l topic id) w := by
  refine (ListId.listen_yields l topic hu hs).bind fun id w₁ _ _ => .pure _ ?_
  ext x
  simp [Cancel.assets]

theorem Starts.listenObject {callback : Callback π} (o : ObjectId) (topic : ObjectTopic) (hu : ∀ p, callback ≠ .user p)
    (hs : w.estate.AllSafe P callback.refs) :
    Starts P (do let id ← o.listen topic callback; return .unlistenObject o topic id) w := by
  refine (ObjectId.listen_yields o topic hu hs).bind fun id w₁ _ _ => .pure _ ?_
  ext x
  simp [Cancel.assets]

theorem Starts.done : Starts P (pure .done : Live π (Ledger π τ) (Cancel π)) w := .pure _ (by simp [Cancel.assets])

/-! ## Following -/

section

variable (hs : w.estate.AllSafe P next.refs)
include hs

theorem constant_starts (hE : E.Sound) (v : Value) : Starts P (constant E v next) w :=
  (hE.emit v hs).bindYields fun _ _ _ => Starts.done

theorem followEntry_starts (hE : E.Sound) (o : ObjectId) (name : String) : Starts P (followEntry E o name next) w :=
  .read rfl ((hE.emit _ hs).bindYields fun _ _ h => Starts.listenObject o _ (by simp) (hs.stays h))

theorem followLength_starts (hE : E.Sound) (l : ListId) : Starts P (followLength E l next) w :=
  .read rfl ((hE.emit _ hs).bindYields fun _ _ h => Starts.listenList l _ (by simp) (hs.stays h))

theorem followItem_starts (hE : E.Sound) (l : ListId) (index : Nat) : Starts P (followItem E l index next) w :=
  .read rfl ((hE.emit _ hs).bindYields fun _ _ h => Starts.listenList l _ (by simp) (hs.stays h))

theorem followElement_starts (hE : E.Sound) (l : ListId) (value : Value) : Starts P (followElement E l value next) w :=
  .read rfl ((hE.emit _ hs).bindYields fun _ _ h => Starts.listenList l _ (by simp) (hs.stays h))

theorem followKey_starts (hE : E.Sound) (o : ObjectId) (name : String) : Starts P (followKey E o name next) w :=
  .read rfl ((hE.emit _ hs).bindYields fun _ _ h => Starts.listenObject o _ (by simp) (hs.stays h))

theorem followProperty_starts (hE : E.Sound) (target key : Value) : Starts P (followProperty E target key next) w := by
  unfold followProperty
  split
  · exact .read rfl (followEntry_starts hs hE _ _)
  · split
    · exact followLength_starts hs hE _
    · split
      · exact followItem_starts hs hE _ _
      · exact constant_starts hs hE _
  · exact constant_starts hs hE _
  · exact constant_starts hs hE _

theorem followMembership_starts (hE : E.Sound) (collection member : Value) :
    Starts P (followMembership E collection member next) w := by
  unfold followMembership
  split
  · exact followElement_starts hs hE _ _
  · exact .read rfl (followKey_starts hs hE _ _)
  · exact constant_starts hs hE _

theorem follow_starts (hE : E.Sound) (what : Followed) (container key : Value) :
    Starts P (follow E what container key next) w := by
  cases what with
  | property => exact followProperty_starts hs hE _ _
  | membership => exact followMembership_starts hs hE _ _

end

/-! ## Several things together -/

theorem settle_keeps {action : ArgsAction π} (ha : w.estate.AllSafe P action.refs) (hE : E.Sound) (row : Ref .args) :
    Keeps P (settle E row action) w :=
  (modifyArgs_quiet row _).keeps.bind fun _ _ h => .read rfl (hE.react _ (ha.stays h))

theorem startTwo_starts {action : ArgsAction π} (ha : w.estate.AllSafe P action.refs) (hE : E.Sound)
    {first second : Starting π (Ledger π τ)} (h₁ : Begins first) (h₂ : Begins second) :
    Starts P (startTwo E action first second) w := by
  refine (newArgs_quiet 2).keeps.bindYields fun row w₁ hs₁ => ?_
  have ha₁ := ha.stays hs₁
  refine Yields.also (h₁ _ _ _ ha₁) fun a w₂ hs₂ => ?_
  have ha₂ := ha₁.stays hs₂
  refine Yields.also (h₂ _ _ _ ha₂) fun b w₃ hs₃ => ?_
  refine (settle_keeps (ha₂.stays hs₃) hE row).bindYields fun _ w₄ _ => .pure _ ?_
  ext x
  simp [Cancel.assets_pair]

theorem newSlot_step {f : Ref .slot → Live π (Ledger π τ) α} {parts : α → Set Asset}
    (hf : ∀ s w', Stays P w.estate w'.estate → w'.estate.Safe P (.slot s) → Yields P {.slot s} (f s) parts w') :
    Yields P ∅ (newSlot >>= f) parts w := by
  refine newSlot_yields.bind fun s w₁ hs₁ _ => .of_sound fun hR => hf s w₁ hs₁ ⟨hR.known (.of_mem (Or.inr rfl)), ?_⟩
  rintro b hb
  cases hb

/-- What is started in a slot for every value of something else is led to by the slot. -/
theorem forEach_starts {f : Ref .slot → Live π (Ledger π τ) (Cancel π)}
    (hf : ∀ s w', Stays P w.estate w'.estate → w'.estate.Safe P (.slot s) → Starts P (f s) w') :
    Starts P (do let s ← newSlot; let outer ← f s; return forEach s outer) w := by
  refine newSlot_step fun s w₁ hs₁ hslot => (hf s w₁ hs₁ hslot).also fun outer w₂ _ => .pure _ ?_
  ext x
  simp [assets_forEach, or_comm]

theorem watch_starts {b : Ref .block} (hb : w.estate.Safe P (.block b)) {collection : Starting π (Ledger π τ)}
    (hc : Begins collection) : Starts P (watch b collection) w :=
  forEach_starts fun s w₁ hs₁ hslot => hc _ _ _ (by simpa [Sink.refs, Branch.refs] using ⟨hslot, hs₁.safe hb⟩)

theorem distinct_leads (next : Sink π) : (distinct next).Leads w fun s w' =>
    w'.estate = w.estate ∧ w'.env.cells.blocks = w.env.cells.blocks ∧ s.refs = next.refs := ⟨rfl, rfl, rfl⟩

theorem startFollowing_starts (hs : w.estate.AllSafe P next.refs) (hE : E.Sound) (what : Followed)
    {container key : Starting π (Ledger π τ)} (hc : Begins container) (hk : Begins key) :
    Starts P (startFollowing E what container key next) w := by
  refine Yields.quiet (distinct_leads next) fun next' w₁ he₁ h₁ => forEach_starts fun s w₂ hs₂ hslot => ?_
  refine startTwo_starts ?_ hE hc hk
  rw [ArgsAction.refs, h₁.2, allSafe_cons]
  exact ⟨hslot, (he₁ ▸ hs).stays hs₂⟩

/-! ## New views -/

theorem newBlock_leads (block : Block π) : (newBlock block).Leads w fun b w' =>
    b = ⟨w.env.cells.blocks.size⟩ ∧ w'.estate = w.estate.setView b (BlockCell.outline { block }) := by
  refine ⟨rfl, congrArg (fun view => ({ w.estate with view } : Estate π)) ?_⟩
  funext b
  refine map_push.trans ?_
  simp only [Function.update_apply, ← Ref.index_inj]
  rfl

theorem World.view_isSome {b : Ref .block} : (w.estate.view b).isSome ↔ b.index < w.env.cells.blocks.size := by
  simp [World.estate, Cells.view]

/-- What follows on a new view may take it that nothing finishes the view. -/
theorem newBlock_step {block : Block π} {f : Ref .block → Live π (Ledger π τ) α} {parts : α → Set Asset}
    (hel : w.estate.elements (BlockCell.outline { block }) = [])
    (howner : ∀ r, block.relations? = some r → ∃ x, w.estate.roster r = some x ∧ x.owner = ⟨w.env.cells.blocks.size⟩)
    (hsink : ∀ s, block.sink? = some s → w.estate.AllSafe P s.refs)
    (hf : ∀ b w', Stays P w.estate w'.estate → w'.estate = w.estate.setView b (BlockCell.outline { block }) →
      w'.estate.Safe (insert b P) (.block b) → Yields (insert b P) {.block b} (f b) parts w') :
    Yields P ∅ (newBlock block >>= f) parts w := by
  intro R hR
  rw [Set.union_empty] at hR
  rw [Run.leads_bind]
  refine (newBlock_leads block).imp ?_
  rintro b w₁ ⟨hb, he₁⟩
  have hnone : w.estate.view b = none := by
    rw [← Option.not_isSome_iff_eq_none, World.view_isSome, hb]
    exact Nat.lt_irrefl _
  obtain ⟨hR₁, hs₁, hnew⟩ := hR.newView (v := BlockCell.outline { block }) hnone rfl hel (hb ▸ howner) fun s hs a ha => by
    refine ⟨hsink s hs a ha, ?_⟩
    rintro b' rfl
    rw [hb]
    exact World.view_isSome.1 (hsink s hs _ ha).1
  rw [← he₁] at hR₁ hs₁
  have hsafe : w₁.estate.Safe (insert b P) (.block b) := by
    refine ⟨hR₁.known (.of_mem (Or.inr rfl)), ?_⟩
    rintro b' hb'
    cases hb'
    exact Or.inl (Set.mem_insert ..)
  have hP : P ⊆ insert b P := Set.subset_insert ..
  refine (hf b w₁ hs₁ he₁ hsafe R hR₁).imp fun a w₂ h₂ => ?_
  obtain ⟨hR₂, hs₂, hfresh⟩ := h₂
  have hs := hs₁.trans (hs₂.mono hP)
  refine ⟨hR₂.lower hR hs.toCarries hP, hs, fun x hx => Or.inr ?_⟩
  rcases hfresh x hx with rfl | hx
  · exact hnew
  · exact fun hh => hx (hs₁.has hh)

/-- A view without cells for its elements needs no owner. -/
theorem spent_plain {e : Estate π} {b : Ref .block} {v : Outline π} (hr : v.relations = none) (hs : v.segments = none) :
    (e.setView b v).Spent (.block b) := by
  refine Or.inl ⟨?_, ?_, ?_⟩
  · exact Option.isSome_iff_exists.2 ⟨v, setView_self⟩
  · simp [Estate.children, elements, hr, hs, setView_self]
  · rintro ⟨v', hv', -, h⟩
    rw [setView_self, Option.some.injEq] at hv'
    simp [← hv', hr, hs] at h

theorem newRelations_leads (relation : Expr) (scope : Scope) (b : Ref .block) :
    (newRelations relation scope b).Leads w fun r w' => w'.estate = w.estate.setRoster r ⟨b, []⟩ ∧
      w.estate.roster r = none ∧ w'.env.cells.blocks = w.env.cells.blocks := by
  refine ⟨congrArg (fun roster => ({ w.estate with roster } : Estate π)) ?_, by simp [World.estate, Cells.roster], rfl⟩
  funext r
  refine map_push.trans ?_
  simp only [Function.update_apply, ← Ref.index_inj]
  rfl

/-- New relations have no entries. -/
theorem newRelations_step {relation : Expr} {scope : Scope} {b : Ref .block} {f : Ref .relations → Live π (Ledger π τ) α}
    {parts : α → Set Asset}
    (hf : ∀ r w', Stays P w.estate w'.estate → w'.estate.roster r = some ⟨b, []⟩ →
      w'.env.cells.blocks = w.env.cells.blocks → Yields P ∅ (f r) parts w') :
    Yields P ∅ (newRelations relation scope b >>= f) parts w := by
  intro R hR
  rw [Run.leads_bind]
  refine (newRelations_leads relation scope b).imp ?_
  rintro r w₁ ⟨he₁, hnone, hblocks⟩
  obtain ⟨hR₁, hs₁⟩ := hR.newRoster hnone ⟨b, []⟩
  rw [← he₁] at hR₁ hs₁
  have hroster : w₁.estate.roster r = some ⟨b, []⟩ := by
    rw [he₁]
    exact Function.update_self ..
  refine (hf r w₁ hs₁ hroster hblocks R hR₁).imp fun a w₂ h₂ => ⟨h₂.1, hs₁.trans h₂.2.1, fun x hx => ?_⟩
  exact (h₂.2.2 x hx).imp_right fun hn hh => hn (hs₁.has hh)

theorem PerElement.block_leads (what : PerElement) (r : Ref .relations) (next : Sink π) :
    (what.block r next).Leads w fun p w' => w'.estate = w.estate ∧ w'.env.cells.blocks = w.env.cells.blocks ∧
      p.1.relations? = Option.some r ∧ p.1.segments? = none ∧ ∀ s, p.1.sink? = Option.some s → s.refs = next.refs := by
  cases what
  all_goals
    simp only [PerElement.block, Run.leads_bind]
    first
      | refine Run.Leads.imp (distinct_leads next) fun s w₁ h₁ => ⟨h₁.1, h₁.2.1, rfl, rfl, ?_⟩
        rintro _ ⟨rfl⟩
        exact h₁.2.2
      | refine ⟨?_, rfl, rfl, rfl, by rintro _ ⟨⟩⟩
        first | exact ListId.create_quiet [] | exact ObjectId.create_quiet []

theorem Rearrangement.block_plain (what : Rearrangement) (output : ListId) (e : Estate π) :
    (what.block output : Block π).relations? = none ∧ (what.block output : Block π).sink? = none ∧
      e.elements (BlockCell.outline { block := what.block output }) = [] := by
  cases what <;> exact ⟨rfl, rfl, rfl⟩

/-- The handle of a view that is shown the content of a collection leads to the view. -/
theorem viewed_starts {b : Ref .block} (hb : w.estate.Safe P (.block b)) {collection : Starting π (Ledger π τ)}
    (hc : Begins collection) {output : Live π (Ledger π τ) Unit}
    (ho : ∀ w', Stays P w.estate w'.estate → Keeps P output w') :
    Yields P {.block b} (do let content ← watch b collection; output; return Cancel.join [content, .release b])
      (fun handle : Cancel π => {x | x ∈ handle.assets}) w := by
  refine Yields.also (watch_starts hb hc) fun content w₁ hs₁ => (ho w₁ hs₁).bindYields fun _ w₂ _ => .pure _ ?_
  ext x
  rw [Cancel.assets_pair]
  simp [Cancel.assets, or_comm]

/-! ## Expressions -/

namespace Expr

mutual

/-- Starting an expression leaves its handle in hand. -/
theorem start_starts (hE : E.Sound) : (x : Expr) → (scope : Scope) → Begins (x.start E · scope)
  | .literal v, _ => fun _ _ _ hs => constant_starts hs hE v
  | .value, _ => fun _ _ _ hs => constant_starts hs hE _
  | .parameters, _ => fun _ _ _ hs => constant_starts hs hE _
  | .element id, scope => by
    intro P w sink hs
    simp only [start]
    split
    · exact followEntry_starts hs hE _ _
    · exact constant_starts hs hE _
  | .component label, scope => by
    intro P w sink hs
    simp only [start]
    split
    · exact followEntry_starts hs hE _ _
    · exact constant_starts hs hE _
  | .record fields, scope => by
    intro P w sink hs
    simp only [start]
    refine (ObjectId.create_quiet []).keeps.bindYields fun o w₁ hs₁ => ?_
    refine Yields.also (startFields_yields hE fields scope o _ _) fun handles w₂ hs₂ => ?_
    refine (hE.emit _ (hs.stays (hs₁.trans hs₂))).bindYields fun _ w₃ _ => .pure _ ?_
    ext x
    simp
  | .property object key, scope => fun _ _ _ hs =>
    startFollowing_starts hs hE _ (start_starts hE object scope) (start_starts hE key scope)
  | .membership collection member, scope => fun _ _ _ hs =>
    startFollowing_starts hs hE _ (start_starts hE collection scope) (start_starts hE member scope)
  | .within context body, scope => by
    intro P w sink hs
    simp only [start]
    refine forEach_starts fun s w₁ hs₁ hslot => start_starts hE context scope _ _ _ ?_
    rw [Sink.refs, Branch.refs, allSafe_cons]
    exact ⟨hslot, hs.stays hs₁⟩
  | .choice condition consequent alternate, scope => by
    intro P w sink hs
    simp only [start]
    refine newSlot_step fun s w₁ hs₁ hslot => ?_
    refine Yields.quiet (distinct_leads _) fun flag w₂ he₂ h₂ => ?_
    have hflag : w₂.estate.AllSafe P (Sink.truth flag).refs := by
      rw [Sink.refs, h₂.2, Sink.refs, Branch.refs, allSafe_cons, he₂]
      exact ⟨hslot, hs.stays hs₁⟩
    refine Yields.also (start_starts hE condition scope _ _ _ hflag) fun outer w₃ _ => .pure _ ?_
    ext x
    simp [assets_forEach, or_comm]
  | .operator f args, scope => by
    intro P w sink hs
    simp only [start]
    refine Yields.quiet (distinct_leads sink) fun next w₁ he₁ h₁ => ?_
    have hs₁ : w₁.estate.AllSafe P (ArgsAction.compute f next).refs := by
      rw [ArgsAction.refs, h₁.2, he₁]
      exact hs
    refine (newArgs_quiet _).keeps.bindYields fun row w₂ hst₂ => ?_
    refine Yields.also (startArgs_yields hE args scope row 0 _ _ _ (hs₁.stays hst₂)) fun handles w₃ hst₃ => ?_
    refine (settle_keeps ((hs₁.stays hst₂).stays hst₃) hE row).bindYields fun _ w₄ _ => .pure _ ?_
    ext x
    simp
  | .project what object, scope => by
    intro P w sink hs
    simp only [start]
    refine (ListId.create_quiet []).keeps.bindYields fun output w₁ hs₁ => ?_
    refine (newProjector_quiet what output).keeps.bindYields fun p w₂ hs₂ => newSlot_step fun s w₃ hs₃ hslot => ?_
    have hs' := hs.stays (hs₁.trans (hs₂.trans hs₃))
    refine Yields.also (start_starts hE object scope _ _ (.switch s (.entries p)) ?_) fun outer w₄ hs₄ => ?_
    · simpa [Sink.refs, Branch.refs] using hslot
    refine (hE.emit _ (hs'.stays hs₄)).bindYields fun _ w₅ _ => .pure _ ?_
    ext x
    simp [assets_forEach, or_comm]
  | .perElement what collection relation, scope => by
    intro P w sink hs
    simp only [start]
    refine .read (a := ⟨w.env.cells.blocks.size⟩) rfl ?_
    refine newRelations_step fun r w₁ hs₁ hroster hsize₁ => ?_
    refine Yields.quiet (what.block_leads r sink) fun p w₂ he₂ h₂ => ?_
    obtain ⟨block, output⟩ := p
    obtain ⟨hsize₂, hrel, hseg, hsink⟩ := h₂
    have hs' : w₂.estate.AllSafe P sink.refs := he₂ ▸ hs.stays hs₁
    have hroster₂ : w₂.estate.roster r = some ⟨⟨w₂.env.cells.blocks.size⟩, []⟩ := by rw [he₂, hsize₂, hroster, hsize₁]
    refine newBlock_step ?_ ?_ ?_ fun b w₃ hs₃ _ hb => ?_
    · have : (BlockCell.outline { block }).segments = none := hseg
      have hrel' : (BlockCell.outline { block }).relations = some r := hrel
      simp [elements, this, hrel', hroster₂]
    · rintro r' hr'
      obtain rfl : r = r' := Option.some.inj (hrel.symm.trans hr')
      exact ⟨_, hroster₂, rfl⟩
    · intro s h
      rw [hsink s h]
      exact hs'
    have hs₃' := (hs'.stays hs₃).mono (Set.subset_insert b P)
    cases output with
    | none =>
      have hnothing : ∀ w', Keeps (insert b P) (pure () : Live π (Ledger π τ) Unit) w' := fun _ => .pure _
      exact viewed_starts hb (start_starts hE collection scope) fun w' _ => hnothing w'
    | some output => exact viewed_starts hb (start_starts hE collection scope) fun w' hst => hE.emit _ (hs₃'.stays hst)
  | .rearrange what collection, scope => by
    intro P w sink hs
    simp only [start]
    refine (ListId.create_quiet []).keeps.bindYields fun output w₁ hs₁ => ?_
    obtain ⟨hrel, hsink, hel⟩ := Rearrangement.block_plain what output w₁.estate
    refine newBlock_step hel (by simp [hrel]) (by simp [hsink]) fun b w₂ hs₂ _ hb => ?_
    have hs' := (hs.stays (hs₁.trans hs₂)).mono (Set.subset_insert b P)
    exact viewed_starts hb (start_starts hE collection scope) fun w' hst => hE.emit _ (hs'.stays hst)
  | .window collection first length, scope => by
    intro P w sink hs
    simp only [start]
    refine (ListId.create_quiet []).keeps.bindYields fun output w₁ hs₁ => ?_
    refine newBlock_step (by simp [elements, BlockCell.outline, Block.segments?, Block.relations?]) (by simp [Block.relations?])
      (by simp [Block.sink?]) fun b w₂ hs₂ he hb => .shed ?_ ?_
    · rintro _ rfl
      exact he ▸ spent_plain rfl rfl
    have hs' := (hs.stays (hs₁.trans hs₂)).mono (Set.subset_insert b P)
    refine Yields.also (startTwo_starts (by simpa [ArgsAction.refs] using hb) hE (start_starts hE first scope)
      (start_starts hE length scope)) fun bounds w₃ hs₃ => ?_
    refine Yields.also (watch_starts (hs₃.safe hb) (start_starts hE collection scope)) fun content w₄ hs₄ => ?_
    refine (hE.emit _ (hs'.stays (hs₃.trans hs₄))).bindYields fun _ w₅ _ => .pure _ ?_
    ext x
    simp [Cancel.assets_pair, or_comm]
  | .reduce what collection, scope => by
    intro P w sink hs
    simp only [start]
    refine Yields.quiet (distinct_leads sink) fun next w₁ he₁ h₁ => ?_
    refine newBlock_step (by simp [elements, BlockCell.outline, Block.segments?, Block.relations?]) (by simp [Block.relations?])
      ?_ fun b w₂ hs₂ he hb => .shed ?_ (watch_starts hb (start_starts hE collection scope))
    · rintro _ ⟨rfl⟩
      rw [h₁.2, he₁]
      exact hs
    · rintro _ rfl
      exact he ▸ spent_plain rfl rfl
  | .tuple elements, scope => by
    intro P w sink hs
    simp only [start]
    refine (ListId.create_quiet _).keeps.bindYields fun o w₁ hs₁ => ?_
    refine Yields.also (startItems_yields hE elements scope o 0 _ _) fun handles w₂ hs₂ => ?_
    refine (hE.emit _ (hs.stays (hs₁.trans hs₂))).bindYields fun _ w₃ _ => .pure _ ?_
    ext x
    simp
  | .range length, scope => by
    intro P w sink hs
    simp only [start]
    refine (ListId.create_quiet []).keeps.bindYields fun output w₁ hs₁ => ?_
    refine Yields.also (start_starts hE length scope _ _ (.extent output) allSafe_nil) fun handle w₂ hs₂ => ?_
    refine (hE.emit _ (hs.stays (hs₁.trans hs₂))).bindYields fun _ w₃ _ => .pure _ ?_
    simp
  | .mapped f source, scope => fun _ _ _ hs => start_starts hE source scope _ _ _ hs

theorem startArgs_yields (hE : E.Sound) : (xs : List Expr) → (scope : Scope) → (row : Ref .args) → (index : Nat) →
    ∀ P w (action : ArgsAction π), w.estate.AllSafe P action.refs →
      Yields P ∅ (startArgs E row action scope index xs) (fun handles => {x | ∃ handle ∈ handles, x ∈ handle.assets}) w
  | [], _, _, _ => fun _ _ _ _ => .pure _ (by simp)
  | x :: xs, scope, row, index => by
    intro P w action ha
    simp only [startArgs]
    refine Yields.also (start_starts hE x scope _ _ _ ha) fun handle w₁ hs₁ => ?_
    refine Yields.also (startArgs_yields hE xs scope row (index + 1) _ _ _ (ha.stays hs₁)) fun handles w₂ _ => .pure _ ?_
    ext y
    simp

theorem startFields_yields (hE : E.Sound) : (fields : List (String × Expr)) → (scope : Scope) → (o : ObjectId) → ∀ P w,
    Yields P ∅ (startFields E o scope fields) (fun handles => {x | ∃ handle ∈ handles, x ∈ handle.assets}) w
  | [], _, _ => fun _ _ => .pure _ (by simp)
  | (name, x) :: fields, scope, o => by
    intro P w
    simp only [startFields]
    refine Yields.also (start_starts hE x scope _ _ (.property o name) allSafe_nil) fun handle w₁ hs₁ => ?_
    refine Yields.also (startFields_yields hE fields scope o _ _) fun handles w₂ _ => .pure _ ?_
    ext y
    simp

theorem startItems_yields (hE : E.Sound) : (xs : List Expr) → (scope : Scope) → (output : ListId) → (index : Nat) → ∀ P w,
    Yields P ∅ (startItems E output scope index xs) (fun handles => {x | ∃ handle ∈ handles, x ∈ handle.assets}) w
  | [], _, _, _ => fun _ _ => .pure _ (by simp)
  | x :: xs, scope, output, index => by
    intro P w
    simp only [startItems]
    refine Yields.also (start_starts hE x scope _ _ (.item output index) allSafe_nil) fun handle w₁ hs₁ => ?_
    refine Yields.also (startItems_yields hE xs scope output (index + 1) _ _) fun handles w₂ _ => .pure _ ?_
    ext y
    simp

end

end Expr

end LiveBindings
