import LiveBindings.Proofs.Release

/-!
# Definitions that fail

Cancelling registers nothing, makes nothing and changes no content, and the embedding program does not notice it
(`World.Sheds`, `cancel_sheds`). So when one of the definitions of a new set fails, what is left is what those before it have
written, without the listeners that their bindings had registered (`BindingSet.fails_clean`).
-/

namespace LiveBindings

open Estate

variable {π σ τ α β : Type}

/-! ## Cancelling -/

/-- A computation has let go of some things, has changed no content and made nothing new. -/
structure World.Sheds (w w' : World (Callback π) (Env π σ)) : Prop where
  contents : w'.contents = w.contents
  lists : ∀ l, ((w'.listCell l).listeners).Sublist (w.listCell l).listeners
  objects : ∀ o, ((w'.objectCell o).listeners).Sublist (w.objectCell o).listeners
  nextListener : w'.nextListener = w.nextListener
  slots : w'.env.cells.slots.size = w.env.cells.slots.size
  entries : w'.env.cells.entries.size = w.env.cells.entries.size
  segments : w'.env.cells.segments.size = w.env.cells.segments.size
  blocks : w'.env.cells.blocks.size = w.env.cells.blocks.size
  host : w'.env.host = w.env.host

namespace World.Sheds

variable {w w' w'' : World (Callback π) (Env π σ)}

theorem refl (w : World (Callback π) (Env π σ)) : w.Sheds w :=
  ⟨rfl, fun _ => .refl _, fun _ => .refl _, rfl, rfl, rfl, rfl, rfl, rfl⟩

theorem trans (h : w.Sheds w') (h' : w'.Sheds w'') : w.Sheds w'' where
  contents := h'.contents.trans h.contents
  lists l := (h'.lists l).trans (h.lists l)
  objects o := (h'.objects o).trans (h.objects o)
  nextListener := h'.nextListener.trans h.nextListener
  slots := h'.slots.trans h.slots
  entries := h'.entries.trans h.entries
  segments := h'.segments.trans h.segments
  blocks := h'.blocks.trans h.blocks
  host := h'.host.trans h.host

end World.Sheds

section

variable {w : World (Callback π) (Env π σ)} {E : Engine π σ} {H : Host π σ}

/-- A computation only lets go of things. -/
abbrev Sheds (act : Live π σ α) (w : World (Callback π) (Env π σ)) : Prop := act.Leads w fun _ => w.Sheds

theorem Sheds.bind {act : Live π σ α} {f : α → Live π σ β} (h : Sheds act w) (hf : ∀ a w', Sheds (f a) w') :
    Sheds (act >>= f) w := by
  rw [Sheds, Run.leads_bind]
  exact Run.Leads.imp h fun a w₁ h₁ => Run.Leads.imp (hf a w₁) fun _ _ h₂ => h₁.trans h₂

theorem Sheds.pure (a : α) : Sheds (Pure.pure a : Live π σ α) w := World.Sheds.refl w

/-- A step that only reads. -/
theorem Sheds.read {act : Live π σ α} {f : α → Live π σ β} {a : α} (ha : act w = .ok a w) (hf : Sheds (f a) w) :
    Sheds (act >>= f) w := by
  rw [Sheds, Run.leads_bind]
  simpa [Run.Leads, ha] using hf

/-- Cells are changed and none is made. -/
theorem Sheds.cells {f : Cells π → Cells π} (hs : ∀ c, (f c).slots.size = c.slots.size)
    (he : ∀ c, (f c).entries.size = c.entries.size) (hg : ∀ c, (f c).segments.size = c.segments.size)
    (hb : ∀ c, (f c).blocks.size = c.blocks.size) : Sheds (modifyCells f : Live π σ Unit) w :=
  ⟨rfl, fun _ => .refl _, fun _ => .refl _, rfl, hs _, he _, hg _, hb _, rfl⟩

theorem ListId.unlisten_sheds (l : ListId) (topic : ListTopic) (id : ListenerId) :
    Sheds (l.unlisten topic id : Live π σ Unit) w := by
  refine ⟨World.contents_modifyList fun _ => rfl, fun l' => ?_, fun _ => .refl _, rfl, rfl, rfl, rfl, rfl, rfl⟩
  rw [World.listCell_modifyList]
  split
  · rename_i h
    rw [h.1]
    exact List.filter_sublist
  · exact .refl _

theorem ObjectId.unlisten_sheds (o : ObjectId) (topic : ObjectTopic) (id : ListenerId) :
    Sheds (o.unlisten topic id : Live π σ Unit) w := by
  refine ⟨World.contents_modifyObject fun _ => rfl, fun _ => .refl _, fun o' => ?_, rfl, rfl, rfl, rfl, rfl, rfl⟩
  rw [World.objectCell_modifyObject]
  split
  · rename_i h
    rw [h.1]
    exact List.filter_sublist
  · exact .refl _

/-- Cancelling only lets go of things. -/
def Engine.Sheds (E : Engine π σ) : Prop := ∀ handle w, LiveBindings.Sheds (E.cancel handle) w

/-- So does the program when it takes something down. -/
def Host.Sheds (H : Host π σ) : Prop := ∀ E p w, LiveBindings.Sheds (H.teardown E p) w

theorem cancelEntries_sheds (hE : E.Sheds) (es : List (Ref .entry)) (w : World (Callback π) (Env π σ)) :
    Sheds (cancelEntries E es) w := by
  induction es generalizing w with
  | nil => exact .pure _
  | cons e es ih =>
    have htake : Sheds (takeEntryCancel e) w :=
      .read rfl (.bind (.cells (fun _ => rfl) (fun _ => Array.size_modify ..) (fun _ => rfl) fun _ => rfl) fun _ _ => .pure _)
    exact .bind htake fun _ w₁ => .bind (hE _ w₁) fun _ w₂ => ih w₂

theorem cancelSegments_sheds (hE : E.Sheds) (ss : List (Ref .segment)) (w : World (Callback π) (Env π σ)) :
    Sheds (cancelSegments E ss) w := by
  induction ss generalizing w with
  | nil => exact .pure _
  | cons s ss ih =>
    have htake : Sheds (takeSegmentCancel s) w :=
      .read rfl (.bind (.cells (fun _ => rfl) (fun _ => rfl) (fun _ => Array.size_modify ..) fun _ => rfl) fun _ _ => .pure _)
    exact .bind htake fun _ w₁ => .bind (hE _ w₁) fun _ w₂ => ih w₂

theorem finish_sheds (hE : E.Sheds) (b : Ref .block) (w : World (Callback π) (Env π σ)) : Sheds (finish E b) w := by
  refine .read rfl ?_
  split
  · exact .pure _
  · refine .bind (.cells (fun _ => rfl) (fun _ => rfl) (fun _ => rfl) fun _ => Array.size_modify ..) fun _ w₁ => ?_
    split
    · exact cancelSegments_sheds hE _ w₁
    · split
      · refine .read rfl (.bind (.cells (fun _ => rfl) (fun _ => rfl) (fun _ => rfl) fun _ => rfl) fun _ w₂ => ?_)
        exact cancelEntries_sheds hE _ w₂
      · exact .pure _

theorem release_sheds (hE : E.Sheds) (b : Ref .block) (w : World (Callback π) (Env π σ)) : Sheds (release E b) w := by
  refine .read rfl ?_
  split
  · exact .cells (fun _ => rfl) (fun _ => rfl) (fun _ => rfl) fun _ => rfl
  · exact finish_sheds hE b w

theorem closeSlot_sheds (hE : E.Sheds) (s : Ref .slot) (w : World (Callback π) (Env π σ)) : Sheds (closeSlot E s) w := by
  have hslot : ∀ (f : Slot π → Slot π) w, Sheds (modifySlot s f : Live π σ Unit) w := fun f w =>
    .cells (fun _ => Array.size_modify ..) (fun _ => rfl) (fun _ => rfl) fun _ => rfl
  refine .bind (hslot _ w) fun _ w₁ => .bind (.read rfl (.bind (hslot _ w₁) fun _ _ => .pure _)) fun _ w₂ => hE _ w₂

mutual

theorem Cancel.run_sheds (hH : H.Sheds) (hE : E.Sheds) : (handle : Cancel π) → ∀ w : World (Callback π) (Env π σ),
    Sheds (handle.run H E) w
  | .done, _ => .pure _
  | .unlistenList l topic id, _ => l.unlisten_sheds topic id
  | .unlistenObject o topic id, _ => o.unlisten_sheds topic id
  | .closeSlot s, w => closeSlot_sheds hE s w
  | .release b, w => release_sheds hE b w
  | .join handles, w => Cancel.runAll_sheds hH hE handles w
  | .user p, w => hH E p w

theorem Cancel.runAll_sheds (hH : H.Sheds) (hE : E.Sheds) : (handles : List (Cancel π)) →
    ∀ w : World (Callback π) (Env π σ), Sheds (Cancel.runAll H E handles) w
  | [], _ => .pure _
  | handle :: handles, w => by
    rw [Sheds, Run.leads_iff]
    intro _ w' hruns
    simp only [Cancel.runAll] at hruns
    split at hruns
    · rename_i w₁ hrun
      exact (Run.Leads.of_eq (Cancel.run_sheds hH hE handle w) hrun).trans
        (Run.Leads.of_eq (Cancel.runAll_sheds hH hE handles w₁) hruns)
    · split at hruns <;> cases hruns

end

theorem cancel_sheds (hH : H.Sheds) (calls : Nat) : (engine H calls).Sheds := by
  induction calls with
  | zero => exact fun _ _ => Run.leads_throw _
  | succ calls ih => exact fun handle w => handle.run_sheds hH ih w

namespace BindingSet

theorem cancelInTurn_sheds (hE : E.Sheds) (handles : List (Cancel π)) (w : World (Callback π) (Env π σ)) :
    Sheds (cancelInTurn E handles) w := by
  induction handles generalizing w with
  | nil => exact .pure _
  | cons handle handles ih => exact .bind (hE handle w) fun _ w₁ => ih w₁

theorem cancelAll_sheds (hE : E.Sheds) (b : BindingSet π) (w : World (Callback π) (Env π σ)) : Sheds (b.cancelAll E) w :=
  .bind (cancelInTurn_sheds hE _ w) fun _ _ => .pure _

/-! ## Where definitions stop -/

theorem defineAll_cons (b : BindingSet π) (path : String) (d : Descriptor) (defs : List (String × Descriptor))
    (w : World (Callback π) (Env π σ)) : b.defineAll E ((path, d) :: defs) w =
      match (b.define E (.path path) d).run w with
      | .ok (.ok b') w₁ => b'.defineAll E defs w₁
      | .ok (.error e) w₁ => .ok (b, some e) w₁
      | .error fault w₁ => .error fault w₁ := by
  rw [defineAll]
  change EStateM.bind (b.define E (.path path) d).run _ w = _
  unfold EStateM.bind
  cases (b.define E (.path path) d).run w with
  | ok r w₁ => cases r <;> rfl
  | error fault w₁ => rfl

/-- Of definitions in order those before the first that fails are installed. -/
theorem defineAll_stops {b b₁ : BindingSet π} {e : BindError} {w' : World (Callback π) (Env π σ)}
    {defs : List (String × Descriptor)} (h : b.defineAll E defs w = .ok (b₁, some e) w') :
    ∃ earlier path d later w₁, defs = earlier ++ (path, d) :: later ∧ b.defineAll E earlier w = .ok (b₁, none) w₁ ∧
      (b₁.define E (.path path) d).run w₁ = .ok (.error e) w' := by
  induction defs generalizing b w with
  | nil => cases h
  | cons def_ defs ih =>
    obtain ⟨path, d⟩ := def_
    rw [defineAll_cons] at h
    cases hd : (b.define E (.path path) d).run w with
    | error fault w₁ =>
      rw [hd] at h
      cases h
    | ok r w₁ =>
      rw [hd] at h
      cases r with
      | error e' =>
        cases h
        exact ⟨[], path, d, defs, w, rfl, rfl, hd⟩
      | ok b' =>
        obtain ⟨earlier, path', d', later, w₂, hdefs, hearlier, hfails⟩ := ih h
        refine ⟨(path, d) :: earlier, path', d', later, w₂, by rw [hdefs]; rfl, ?_, hfails⟩
        rw [defineAll_cons, hd]
        exact hearlier

end BindingSet

end

/-! ## What is left of a set that was not made -/

section

variable {P : Set (Ref .block)} {R : Set Asset} {w w' w₁ w₂ : World (Callback π) (Env π (Ledger π τ))}

theorem World.Sheds.has (h : w.Sheds w') {a : Asset} (ha : w'.estate.Has a) : w.estate.Has a := by
  cases a with
  | list l topic id | object o topic id => exact Nat.lt_of_lt_of_eq ha h.nextListener
  | slot s => simpa [Has, World.estate, Cells.holder, h.slots] using ha
  | entry e => simpa [Has, World.estate, Cells.holder, h.entries] using ha
  | segment s => simpa [Has, World.estate, Cells.holder, h.segments] using ha
  | block b => simpa [Has, World.estate, Cells.view, h.blocks] using ha
  | foreign => exact ha

/-- What leads to an asset after things were let go led to it before. -/
theorem World.Sheds.led (h : w.Sheds w') (hs : Lasts P w.estate w'.estate) (hsound : Sound P R w'.estate)
    {handles : List (Cancel π)} {a : Asset} (hl : w'.estate.Led handles a) : w.estate.Led handles a := by
  obtain ⟨handle, hm, b, hb, hpath⟩ := hl
  have hedges : ∀ x y, y ∈ w'.estate.children x → y ∈ w.estate.children x := fun x y hy =>
    (hs.children hy).resolve_right fun hn => hn (h.has (hsound.known (.of_child hy)))
  exact ⟨handle, hm, b, hb, Relation.ReflTransGen.mono hedges _ _ hpath⟩

theorem World.Sheds.listeners (h : w.Sheds w') {channel : Channel} {x : ListenerId × Post π}
    (hx : x ∈ w'.listeners channel) : x ∈ w.listeners channel := by
  cases channel with
  | list l topic => exact (((h.lists l).filter _).map _).subset hx
  | object o topic => exact (((h.objects o).filter _).map _).subset hx

theorem World.Idle.covered (hw : w.Idle) {channel : Channel} {x : ListenerId × Post π} (hx : x ∈ w.listeners channel) :
    x.2.IsUser ∨ w.estate.Led w.env.host.kept (x.2.asset x.1) := by
  rw [or_iff_not_imp_left]
  intro hu
  refine (led_iff_reach (fun _ => Iff.rfl) hw.orphans).2 ?_
  exact hw.sound.covered (needs_of_post (World.mem_listeners.1 hx).1 hu)

/-- What a computation that starts with something in hand and nothing else in progress leaves. -/
theorem Yields.of_eq {A : Set Asset} {act : Live π (Ledger π τ) α} {parts : α → Set Asset} (h : Yields P A act parts w)
    (hA : Sound P A w.estate) {a : α} (he : act w = .ok a w') : Sound P (parts a) w'.estate ∧ Stays P w.estate w'.estate := by
  rw [← Set.empty_union A] at hA
  obtain ⟨hsound, hs, -⟩ := Run.Leads.of_eq (h ∅ hA) he
  rw [Set.empty_union] at hsound
  exact ⟨hsound, hs⟩

/-- What is left of definitions that were made in vain: every value that they wrote, and of the listeners only the program's
own and those that handles which it keeps lead to. -/
structure World.Withdrawn (w w' : World (Callback π) (Env π (Ledger π τ))) : Prop where
  items : ∀ l, l.index < w.lists.size → (w'.listCell l).items = (w.listCell l).items
  entries : ∀ o, o.index < w.objects.size → (w'.objectCell o).entries = (w.objectCell o).entries
  listeners : ∀ channel, ∀ x ∈ w'.listeners channel, x ∈ w.listeners channel ∧
    (x.2.IsUser ∨ w.estate.Led w.env.host.kept (x.2.asset x.1))

namespace BindingSet

variable {E : Engine π (Ledger π τ)} {b b₁ : BindingSet π}

/-- A set is not made because the target is no object, or after those before the definition that failed were withdrawn. -/
theorem create_cases {target : Value} {defs : List (String × Descriptor)} {e : BindError}
    (h : create E target defs w = .ok (.error e) w') :
    (ofValue (π := π) target = .error e ∧ w' = w) ∨ ∃ b b₁ b₂ w₂, ofValue target = .ok b ∧
      b.defineAll E defs w = .ok (b₁, some e) w₂ ∧ b₁.cancelAll E w₂ = .ok b₂ w' := by
  have h : (create E target defs).Ends w fun r w'' => r = .error e ∧ w'' = w' := (Run.ends_of_eq h).2 ⟨rfl, rfl⟩
  cases hb : ofValue (π := π) target with
  | error e' =>
    simp only [create, hb, Run.ends_pure, Except.error.injEq] at h
    exact Or.inl ⟨congrArg _ h.1, h.2.symm⟩
  | ok b =>
    simp only [create, hb, Run.ends_bind] at h
    obtain ⟨⟨b₁, failure⟩, w₂, hdefs, h⟩ := Run.ends_iff.1 h
    cases failure with
    | none => cases h.1
    | some e' =>
      simp only [Run.ends_bind, Run.ends_discard, Run.ends_pure, Except.error.injEq] at h
      obtain ⟨b₂, w₃, hcancel, rfl, rfl⟩ := Run.ends_iff.1 h
      exact Or.inr ⟨b, b₁, b₂, w₂, rfl, hdefs, hcancel⟩

/-- When one of the definitions of a set fails, those before it are withdrawn. -/
theorem create_withdraws (c : Conduct π τ) {calls : Nat} (hw : w.Idle) {target : Value} {defs : List (String × Descriptor)}
    {e : BindError} (h : create (engine c.host calls) target defs w = .ok (.error e) w') :
    (ofValue (π := π) target = .error e ∧ w' = w) ∨ ∃ b b₁ earlier path d later w₁ w₂, ofValue target = .ok b ∧
      defs = earlier ++ (path, d) :: later ∧ b.defineAll (engine c.host calls) earlier w = .ok (b₁, none) w₁ ∧
      (b₁.define (engine c.host calls) (.path path) d).run w₁ = .ok (.error e) w₂ ∧ w₁.Withdrawn w' := by
  have hE : (engine c.host calls).Sound := engine_sound c.host_sound calls
  refine (create_cases h).imp_right ?_
  rintro ⟨b, b₁, b₂, w₂, hb, hdefs, hcancel⟩
  obtain ⟨earlier, path, d, later, w₁, rfl, hearlier, hfails⟩ := defineAll_stops hdefs
  refine ⟨b, b₁, earlier, path, d, later, w₁, w₂, hb, rfl, hearlier, hfails, ?_⟩
  have hadds : w₁.Adds w₂ := (World.adds_making.define_fails _ _).of_eq hfails _ rfl
  have hestate : w₂.estate = w₁.estate := (World.estate_making.define_fails _ _).of_eq hfails _ rfl
  have hsheds : w₂.Sheds w' := Run.Leads.of_eq (cancelAll_sheds (cancel_sheds (fun _ _ _ => .pure _) calls) b₁ w₂) hcancel
  have hidle : w'.Idle := by
    have hcreate := (create_yields hE target (earlier ++ (path, d) :: later)).of_eq hw.sound h
    exact hw.stays hcreate.1 hcreate.2
  have hdefined : Sound ∅ b₁.assets w₂.estate := by
    have hall := defineAll_yields (P := ∅) (b := b) (w := w) hE (earlier ++ (path, d) :: later)
    rw [assets_ofValue hb] at hall
    exact (hall.of_eq hw.sound hdefs).1
  have hlasts : Lasts ∅ w₂.estate w'.estate := (cancelAll_yields hE fun _ h => h.elim).of_eq hdefined hcancel |>.2.toLasts
  refine ⟨fun l hl => ?_, fun o ho => ?_, fun channel x hx => ⟨?_, ?_⟩⟩
  · exact (congrFun (congrArg Contents.items hsheds.contents) l).trans (hadds.items l hl)
  · exact (congrFun (congrArg Contents.entries hsheds.contents) o).trans (hadds.entries o ho)
  · have hx₂ := hsheds.listeners hx
    rw [World.mem_listeners, hestate] at hx₂
    exact World.mem_listeners.2 hx₂
  · refine (hidle.covered hx).imp_right fun hl => ?_
    have hl₂ := hsheds.led hlasts hidle.sound hl
    rw [hestate] at hl₂
    rwa [hsheds.host, hadds.host] at hl₂

end BindingSet

end

/-- Failed definitions leave nothing behind. A definition that fails, whatever its target and its sources, has only made
containers of its own: every list and object has the content and the listeners that it had. A set that is not made, because its
target is no object or because one of its definitions fails, leaves what the definitions before that one wrote, and none of the
listeners that they had registered. -/
theorem BindingSet.fails_clean :
    (∀ (E : Engine π σ) (b : BindingSet π) (target : Node) (d : Descriptor) (w w' : World (Callback π) (Env π σ)) (e : BindError),
      (b.define E target d).run w = .ok (.error e) w' → w.Adds w') ∧
    ∀ (c : Conduct π τ) (calls : Nat) (objects : List (List (String × Value))) (own : τ) (before : Routine π τ)
      (w w' : World (Callback π) (Env π (Ledger π τ))) (target : Value) (defs : List (String × Descriptor)) (e : BindError),
      before.run (engine c.host calls) (World.fresh objects { own }) = .ok ⟨⟩ w →
      create (engine c.host calls) target defs w = .ok (.error e) w' →
      (ofValue (π := π) target = .error e ∧ w' = w) ∨ ∃ b b₁ earlier path d later w₁ w₂, ofValue target = .ok b ∧
        defs = earlier ++ (path, d) :: later ∧ b.defineAll (engine c.host calls) earlier w = .ok (b₁, none) w₁ ∧
        (b₁.define (engine c.host calls) (.path path) d).run w₁ = .ok (.error e) w₂ ∧ w₁.Withdrawn w' := by
  refine ⟨fun E b target d w w' e h => (World.adds_making.define_fails target d).of_eq h e rfl, ?_⟩
  intro c calls objects own before w w' target defs e hbefore h
  exact create_withdraws c (((World.idle_fresh objects own).routine c calls before).of_eq hbefore) h

/-- A binding of a target that cannot be written to. -/
def Node.sum : Node := .apply "add" [.property .value "a", .property .value "b"]

/-- Definitions of which the last one fails: its source is of no known kind. -/
def Descriptor.lastUnknown : List (String × Descriptor) :=
  [("x", .oneWay (.property .value "b")), ("y", .twoWay (.property .value "x")), ("z", .oneWay (.apply "nope" []))]

theorem BindingSet.fails_clean_unknown : ∃ w w₁ w₂ e₁ e₂,
    Routine.switching.run (engine Conduct.noting.host 40) (World.fresh [[]] { own := () }) = .ok ⟨⟩ w ∧
      ((ofObject ⟨0⟩).define (engine Conduct.noting.host 40) .sum (.oneWay (.property .value "c"))).run w = .ok (.error e₁) w₁ ∧
      create (engine Conduct.noting.host 40) (.object ⟨0⟩) Descriptor.lastUnknown w = .ok (.error e₂) w₂ ∧
      w.Adds w₁ ∧ ∃ b b₁ earlier path d later w₃ w₄, ofValue (.object ⟨0⟩) = .ok b ∧
        Descriptor.lastUnknown = earlier ++ (path, d) :: later ∧
        b.defineAll (engine Conduct.noting.host 40) earlier w = .ok (b₁, none) w₃ ∧
        (b₁.define (engine Conduct.noting.host 40) (.path path) d).run w₃ = .ok (.error e₂) w₄ ∧ w₃.Withdrawn w₂ := by
  have hruns : ∃ u w, Routine.switching.run (engine Conduct.noting.host 40) (World.fresh [[]] { own := () }) = .ok u w ∧
      (∃ r w₁, ((ofObject ⟨0⟩).define (engine Conduct.noting.host 40) .sum (.oneWay (.property .value "c"))).run w =
        .ok r w₁ ∧ r.toOption.isNone) ∧
      ∃ r w₂, create (engine Conduct.noting.host 40) (.object ⟨0⟩) Descriptor.lastUnknown w = .ok r w₂ ∧
        r.toOption.isNone := by
    simp only [← Run.ends_iff]
    decide +kernel
  obtain ⟨_, w, hbefore, ⟨r₁, w₁, hdefine, hr₁⟩, r₂, w₂, hcreate, hr₂⟩ := hruns
  have herror : ∀ r : Except BindError (BindingSet Unit), r.toOption.isNone → ∃ e, r = .error e
    | .error e, _ => ⟨e, rfl⟩
  obtain ⟨e₁, rfl⟩ := herror r₁ hr₁
  obtain ⟨e₂, rfl⟩ := herror r₂ hr₂
  have hfails := (fails_clean (π := Unit) (σ := Ledger Unit Unit) (τ := Unit)).1 _ _ _ _ _ _ _ hdefine
  have hleft := (fails_clean (π := Unit) (σ := Ledger Unit Unit) (τ := Unit)).2 _ _ _ _ _ _ _ _ _ _ hbefore hcreate
  refine ⟨w, w₁, w₂, e₁, e₂, hbefore, hdefine, hcreate, hfails, hleft.resolve_left fun h => ?_⟩
  exact absurd h.1 nofun

end LiveBindings
