import LiveBindings.Proofs.Leads
import LiveBindings.Proofs.Turnover

/-!
# What computations do with what they have in hand

`Yields P A act parts w` says that a computation takes the assets `A` that it has in hand and leaves the assets `parts` in
hand, which are among them or new, while whatever else leads somewhere goes on as `Estate.Stays` says. A computation that
takes nothing and leaves nothing `Keeps` what there is. Such descriptions compose (`Yields.bind`, `Keeps.bind`) and hold
beside other assets (`Yields.frame`).

What is asked of a running engine is `Engine.Sound`. From it follows that everything the store does, telling listeners, keeps
what there is: a captured callback is held while it is told, so that the views that it leads to are not finished meanwhile.
-/

namespace LiveBindings

open Estate

variable {π τ α β : Type}

theorem Run.leads_ok {κ ε α : Type} {act : Run κ ε α} {w w' : World κ ε} {a : α} {Q : α → World κ ε → Prop}
    (h : act w = .ok a w') : act.Leads w Q ↔ Q a w' := by
  simp [Run.Leads, h]

/-! ## The judgement -/

/-- From the assets `A` in hand a computation makes the assets `parts`, which are among them or new. -/
def Yields (P : Set (Ref .block)) (A : Set Asset) (act : Live π (Ledger π τ) α) (parts : α → Set Asset)
    (w : World (Callback π) (Env π (Ledger π τ))) : Prop :=
  ∀ R, Sound P (R ∪ A) w.estate → act.Leads w fun a w' =>
    Sound P (R ∪ parts a) w'.estate ∧ Stays P w.estate w'.estate ∧ ∀ x ∈ parts a, x ∈ A ∨ ¬w.estate.Has x

/-- A computation neither takes nor leaves anything in hand. -/
def Keeps (P : Set (Ref .block)) (act : Live π (Ledger π τ) α) (w : World (Callback π) (Env π (Ledger π τ))) : Prop :=
  ∀ R, Sound P R w.estate → act.Leads w fun _ w' => Sound P R w'.estate ∧ Stays P w.estate w'.estate

/-- A computation starts something and returns the handle for it. -/
abbrev Starts (P : Set (Ref .block)) (act : Live π (Ledger π τ) (Cancel π))
    (w : World (Callback π) (Env π (Ledger π τ))) : Prop :=
  Yields P ∅ act (fun handle => {x | x ∈ handle.assets}) w

/-- A computation changes nothing that matters for what leads to what. -/
def Quiet (act : Live π (Ledger π τ) α) (w : World (Callback π) (Env π (Ledger π τ))) : Prop :=
  act.Leads w fun _ w' => w'.estate = w.estate

/-- Something refers to assets that are there, and to views only that are not finished before what is in progress is over, or
are finished already. -/
def Estate.AllSafe (P : Set (Ref .block)) (e : Estate π) (refs : List Asset) : Prop := ∀ a ∈ refs, e.Safe P a

section

variable {P P' : Set (Ref .block)} {A F : Set Asset} {w w' : World (Callback π) (Env π (Ledger π τ))}
  {act : Live π (Ledger π τ) α} {f : α → Live π (Ledger π τ) β} {parts : α → Set Asset} {parts' : β → Set Asset}
  {e e' : Estate π} {refs : List Asset}

theorem Estate.AllSafe.stays (h : e.AllSafe P refs) (hs : Stays P e e') : e'.AllSafe P refs :=
  fun a ha => hs.safe (h a ha)

theorem Estate.AllSafe.mono (h : e.AllSafe P refs) (hP : P ⊆ P') : e.AllSafe P' refs :=
  fun a ha => (h a ha).imp_right fun h b hb => (h b hb).imp_left fun hb => hP hb

@[simp] theorem Estate.allSafe_nil : e.AllSafe P [] := by simp [AllSafe]

@[simp] theorem Estate.allSafe_singleton {a : Asset} : e.AllSafe P [a] ↔ e.Safe P a := by simp [AllSafe]

@[simp] theorem Estate.allSafe_cons {a : Asset} : e.AllSafe P (a :: refs) ↔ e.Safe P a ∧ e.AllSafe P refs := by
  simp [AllSafe]

theorem Quiet.modify {f : World (Callback π) (Env π (Ledger π τ)) → World (Callback π) (Env π (Ledger π τ))}
    (h : (f w).estate = w.estate) : Quiet (modify f) w := h

theorem Quiet.keeps (h : Quiet act w) : Keeps P act w := by
  intro R hR
  refine Run.Leads.imp h fun _ w' he => ?_
  rw [he]
  exact ⟨hR, .refl P _⟩

/-- What holds of sound estates only may be assumed. -/
theorem Keeps.of_sound (h : ∀ {R}, Sound P R w.estate → Keeps P act w) : Keeps P act w := fun R hR => h hR R hR

theorem Yields.of_sound (h : ∀ {R}, Sound P (R ∪ A) w.estate → Yields P A act parts w) : Yields P A act parts w :=
  fun R hR => h hR R hR

/-- What is kept is kept beside anything in hand. -/
theorem Keeps.yields (h : Keeps P act w) : Yields P A act (fun _ => A) w := fun _ hR =>
  (h _ hR).imp fun _ _ h' => ⟨h'.1, h'.2, fun _ hx => Or.inl hx⟩

theorem Yields.frame (h : Yields P A act parts w) (F : Set Asset) : Yields P (A ∪ F) act (fun a => parts a ∪ F) w := by
  intro R hR
  rw [Set.union_comm A F, ← Set.union_assoc] at hR
  refine (h _ hR).imp fun a w' h' => ⟨?_, h'.2.1, ?_⟩
  · change Sound P (R ∪ (parts a ∪ F)) _
    rw [Set.union_comm (parts a) F, ← Set.union_assoc]
    exact h'.1
  · rintro x (hx | hx)
    · exact (h'.2.2 x hx).imp_left Or.inl
    · exact Or.inl (Or.inr hx)

theorem Yields.bind (h : Yields P A act parts w)
    (hf : ∀ a w', Stays P w.estate w'.estate → (∀ x ∈ parts a, x ∈ A ∨ ¬w.estate.Has x) →
      Yields P (parts a) (f a) parts' w') : Yields P A (act >>= f) parts' w := by
  intro R hR
  rw [Run.leads_bind]
  refine (h R hR).imp fun a w₁ h₁ => ?_
  obtain ⟨hR₁, hs₁, hfresh₁⟩ := h₁
  refine (hf a w₁ hs₁ hfresh₁ R hR₁).imp fun b w₂ h₂ => ⟨h₂.1, hs₁.trans h₂.2.1, fun x hx => ?_⟩
  rcases h₂.2.2 x hx with hx | hx
  · exact hfresh₁ x hx
  · exact Or.inr fun hh => hx (hs₁.has hh)

theorem Keeps.bindYields (h : Keeps P act w) (hf : ∀ a w', Stays P w.estate w'.estate → Yields P A (f a) parts' w') :
    Yields P A (act >>= f) parts' w :=
  h.yields.bind fun a w' hs _ => hf a w' hs

theorem Keeps.bind (h : Keeps P act w) (hf : ∀ a w', Stays P w.estate w'.estate → Keeps P (f a) w') :
    Keeps P (act >>= f) w := by
  intro R hR
  rw [Run.leads_bind]
  refine (h R hR).imp fun a w₁ h₁ => ?_
  exact (hf a w₁ h₁.2 R h₁.1).imp fun b w₂ h₂ => ⟨h₂.1, h₁.2.trans h₂.2⟩

theorem Keeps.pure (a : α) : Keeps P (Pure.pure a : Live π (Ledger π τ) α) w := fun _ hR => ⟨hR, .refl P _⟩

theorem Keeps.throw (fault : Fault) : Keeps P (throw fault : Live π (Ledger π τ) α) w := fun _ _ => Run.leads_throw fault

theorem Keeps.discard (h : Keeps P act w) : Keeps P (Functor.discard act) w := fun R hR =>
  (Run.leads_discard ..).2 (h R hR)

/-- The assets in hand are returned. -/
theorem Yields.pure (a : α) (h : parts a = A) : Yields P A (Pure.pure a : Live π (Ledger π τ) α) parts w := by
  intro R hR
  refine ⟨?_, .refl P _, fun x hx => Or.inl (h ▸ hx)⟩
  rw [h]
  exact hR

/-- Nothing is left in hand of what a computation takes. -/
theorem Yields.keeps (h : Yields P ∅ act (fun _ => ∅) w) : Keeps P act w := by
  intro R hR
  rw [← Set.union_empty R] at hR ⊢
  exact (h R hR).imp fun _ _ h' => ⟨h'.1, h'.2.1⟩

/-- A computation only reads. -/
theorem Keeps.read {a : α} (ha : act w = .ok a w) (hf : Keeps P (f a) w) : Keeps P (act >>= f) w := by
  intro R hR
  rw [Run.leads_bind]
  have : act.Leads w fun a' w' => a' = a ∧ w' = w := by simp [Run.Leads, ha]
  refine this.imp ?_
  rintro _ _ ⟨rfl, rfl⟩
  exact hf R hR

theorem Yields.read {a : α} (ha : act w = .ok a w) (hf : Yields P A (f a) parts' w) : Yields P A (act >>= f) parts' w := by
  intro R hR
  rw [Run.leads_bind]
  have : act.Leads w fun a' w' => a' = a ∧ w' = w := by simp [Run.Leads, ha]
  refine this.imp ?_
  rintro _ _ ⟨rfl, rfl⟩
  exact hf R hR

/-- What is in hand beside what a step takes down stays in hand. -/
theorem Yields.andThen (h : Yields P A act (fun _ => ∅) w)
    (hf : ∀ a w', Stays P w.estate w'.estate → Yields P F (f a) parts' w') : Yields P (A ∪ F) (act >>= f) parts' w := by
  refine (h.frame F).bind fun a w' hs _ => ?_
  rw [Set.empty_union]
  exact hf a w' hs

/-- A step changes nothing that matters, and something is known of its result. -/
theorem Yields.quiet {Q : α → World (Callback π) (Env π (Ledger π τ)) → Prop}
    (h : act.Leads w fun a w' => w'.estate = w.estate ∧ Q a w')
    (hf : ∀ a w', w'.estate = w.estate → Q a w' → Yields P A (f a) parts' w') : Yields P A (act >>= f) parts' w := by
  intro R hR
  rw [Run.leads_bind]
  refine h.imp fun a w₁ h₁ => ?_
  rw [← h₁.1] at hR ⊢
  exact hf a w₁ h₁.1 h₁.2 R hR

/-- What has been taken down need not be kept in hand. -/
theorem Yields.shed (hA : ∀ x ∈ A, w.estate.Spent x) (h : Yields P ∅ act parts w) : Yields P A act parts w := by
  intro R hR
  have hR' := hR.drop hA
  rw [← Set.union_empty R] at hR'
  exact (h R hR').imp fun _ _ h' => ⟨h'.1, h'.2.1, fun x hx => (h'.2.2 x hx).imp_left False.elim⟩

/-- What a step leaves in hand comes to what is there already. -/
theorem Yields.also (h : Yields P ∅ act parts w)
    (hf : ∀ a w', Stays P w.estate w'.estate → Yields P (A ∪ parts a) (f a) parts' w') : Yields P A (act >>= f) parts' w := by
  have h' := h.frame A
  rw [Set.empty_union] at h'
  refine h'.bind fun a w' hs _ => ?_
  rw [Set.union_comm]
  exact hf a w' hs

theorem Keeps.assoc {γ : Type} {g : β → Live π (Ledger π τ) γ} (h : Keeps P ((act >>= f) >>= g) w) :
    Keeps P (act >>= fun a => f a >>= g) w := by
  rwa [bind_assoc] at h

theorem Yields.assoc {γ : Type} {g : β → Live π (Ledger π τ) γ} {parts : γ → Set Asset}
    (h : Yields P A ((act >>= f) >>= g) parts w) : Yields P A (act >>= fun a => f a >>= g) parts w := by
  rwa [bind_assoc] at h

/-- A step that changes nothing that matters. -/
theorem Keeps.modify {m : World (Callback π) (Env π (Ledger π τ)) → World (Callback π) (Env π (Ledger π τ))}
    {g : PUnit → Live π (Ledger π τ) β} (h : (m w).estate = w.estate) (hg : ∀ w', Keeps P (g ⟨⟩) w') :
    Keeps P (modify m >>= g) w :=
  (Quiet.keeps (Quiet.modify h)).bind fun _ w' _ => hg w'

/-- What is restored afterwards does not matter. -/
theorem Keeps.restoring {restore : World (Callback π) (Env π (Ledger π τ)) → World (Callback π) (Env π (Ledger π τ))}
    (hr : ∀ w, (restore w).estate = w.estate) (h : Keeps P act w) : Keeps P (LiveBindings.restoring restore act) w := by
  intro R hR
  rw [Run.leads_restoring]
  refine (h R hR).imp fun a w' h' => ?_
  rw [hr]
  exact h'

theorem Keeps.nested {container : Kind} {silent act : Live π (Ledger π τ) α} (hs : Keeps P silent w)
    (ha : Keeps P act { w with depth := w.depth + 1 }) : Keeps P (nested container silent act) w :=
  fun R hR => Run.leads_nested (hs R hR) (ha R hR)

end

/-! ## A running engine -/

/-- A computation keeps what there is, and afterwards every view that was given up is held. -/
def Settles (P : Set (Ref .block)) (act : Live π (Ledger π τ) α) (w : World (Callback π) (Env π (Ledger π τ))) : Prop :=
  ∀ R, Sound P R w.estate → act.Leads w fun _ w' =>
    Sound P R w'.estate ∧ Stays P w.estate w'.estate ∧ ∀ b ∈ w'.estate.orphans, w'.estate.Held b

/-- What an engine does with what it is handed. -/
structure Engine.Sound (E : Engine π (Ledger π τ)) : Prop where
  fire : ∀ {P w callback} event, w.estate.AllSafe P callback.refs → Keeps P (E.fire callback event) w
  letGo : ∀ P w, Settles P E.letGo w
  emit : ∀ {P w sink} v, w.estate.AllSafe P sink.refs → Keeps P (E.emit sink v) w
  react : ∀ {P w} {action : ArgsAction π} values, w.estate.AllSafe P action.refs → Keeps P (E.react action values) w
  start : ∀ {P w sink} x scope, w.estate.AllSafe P sink.refs → Starts P (E.start x sink scope) w
  cancel : ∀ {P w handle}, (∀ b ∈ P, .block b ∉ handle.assets) →
    Yields P {x | x ∈ handle.assets} (E.cancel handle) (fun _ => ∅) w

theorem Settles.keeps {P : Set (Ref .block)} {w : World (Callback π) (Env π (Ledger π τ))} {act : Live π (Ledger π τ) α}
    (h : Settles P act w) : Keeps P act w := fun R hR => (h R hR).imp fun _ _ h' => ⟨h'.1, h'.2.1⟩

/-! ## Telling listeners -/

section

variable {P : Set (Ref .block)} {R : Set Asset} {w : World (Callback π) (Env π (Ledger π τ))} {act : Live π (Ledger π τ) α}
  {E : Engine π (Ledger π τ)} {e : Event} {κ : Type} {ls : List (Listener κ (Callback π))}
  {registered : World (Callback π) (Env π (Ledger π τ)) → ListenerId → Bool}

/-- The views that a held callback refers to are not finished before it is let go. -/
theorem Estate.allSafe_of_held {e : Estate π} {callback : Callback π} (hh : callback ∈ e.held)
    (h : ∀ a ∈ callback.refs, e.Has a) : e.AllSafe P callback.refs := by
  intro a ha
  refine ⟨h a ha, ?_⟩
  rintro b rfl
  obtain ⟨v, hv⟩ := Option.isSome_iff_exists.1 (h _ ha)
  cases hf : v.finished with
  | true => exact Or.inr (Or.inr ⟨v, hv, hf⟩)
  | false => exact Or.inr (Or.inl (.callback hh ha ⟨v, hv, hf⟩))

theorem Settles.holding (hE : E.Sound) {callbacks : List (Callback π)}
    (ha : Keeps P act { w with held := callbacks ++ w.held }) : Settles P (holding E.reactions callbacks act) w := by
  intro R hR
  rw [Run.leads_holding]
  have hh : w.estate.held ⊆ callbacks ++ w.estate.held := List.subset_append_right ..
  have hb : w.estate.heldBlocks ⊆ w.estate.heldBlocks := List.Subset.refl _
  refine (ha R (hR.hold hh hb)).imp fun a w₁ h₁ => ?_
  obtain ⟨hs₁, hl₁⟩ := Stays.restore h₁.2 hR h₁.1 hh hb
  have he : World.estate { w₁ with held := w.held } = w₁.estate.holds w.estate.held w.estate.heldBlocks := by
    rw [← show w₁.estate.heldBlocks = w.estate.heldBlocks from h₁.2.heldBlocks]
    rfl
  refine (hE.letGo P _ R (he ▸ hs₁)).imp fun _ w₂ h₂ => ⟨h₂.1, ⟨?_, fun hb => Or.inr (h₂.2.2 _ hb)⟩, h₂.2.2⟩
  exact hl₁.trans (he ▸ h₂.2.1.toLasts)

theorem Keeps.tell (hE : E.Sound) {l : Listener κ (Callback π)} (hl : w.estate.AllSafe P l.callback.refs) :
    Keeps P (tell E.reactions registered e l) w := by
  refine Keeps.read (a := w) rfl ?_
  split
  · exact hE.fire e hl
  · exact .pure _

theorem Keeps.tellAll (hE : E.Sound) (hl : ∀ l ∈ ls, w.estate.AllSafe P l.callback.refs) :
    Keeps P (tellAll E.reactions registered e ls) w := by
  induction ls generalizing w with
  | nil => exact .pure _
  | cons l ls ih =>
    refine (Keeps.tell hE (hl l (List.mem_cons_self ..))).bind fun _ w₁ h₁ => ih fun l' hl' => ?_
    exact (hl l' (List.mem_cons_of_mem _ hl')).stays h₁

theorem Keeps.tellItems (hE : E.Sound) {l : ListId} {ls : List (Listener ListTopic (Callback π))}
    (hl : ∀ l ∈ ls, w.estate.AllSafe P l.callback.refs) (count index : Nat) :
    Keeps P (ListId.tellItems E.reactions l ls count index) w := by
  induction count generalizing w index with
  | zero => exact .pure _
  | succ count ih =>
    refine Keeps.read rfl ((Keeps.tellAll hE hl).bind fun _ w₁ h₁ => ih ?_ _)
    exact fun l' hl' => (hl l' hl').stays h₁

/-- Captured listeners are told in turn. After the last turn every view that was given up is held, since no callback is held
on. -/
theorem tellInTurn_settles (hE : E.Sound) (hl : ∀ l ∈ ls, ∀ a ∈ l.callback.refs, w.estate.Has a)
    (hR : Sound P R w.estate) : (LiveBindings.tellInTurn E.reactions registered e ls).Leads w fun _ w' =>
      Sound P R w'.estate ∧ Lasts P w.estate w'.estate ∧
        (ls ≠ [] ∨ (∀ b ∈ w.estate.orphans, w.estate.Held b) → ∀ b ∈ w'.estate.orphans, w'.estate.Held b) := by
  induction ls generalizing w with
  | nil => exact ⟨hR, .refl P _, fun h => h.resolve_left fun hn => hn rfl⟩
  | cons l ls ih =>
    rw [LiveBindings.tellInTurn, Run.leads_bind, Run.leads_withHeld]
    have hh : w.estate.held ⊆ ls.map (·.callback) ++ w.estate.held := List.subset_append_right ..
    have hb : w.estate.heldBlocks ⊆ w.estate.heldBlocks := List.Subset.refl _
    have hturn : Settles P (LiveBindings.holding E.reactions [l.callback] (LiveBindings.tell E.reactions registered e l))
        { w with held := ls.map (·.callback) ++ w.held } :=
      .holding hE (.tell hE (Estate.allSafe_of_held (List.mem_cons_self ..)
          fun a ha => has_holds.2 (hl l (List.mem_cons_self ..) a ha)))
    refine (hturn R (hR.hold hh hb)).imp fun _ w₁ h₁ => ?_
    obtain ⟨hs₁, hl₁⟩ := Stays.restore h₁.2.1 hR h₁.1 hh hb
    have hheld : w₁.estate.held = ls.map (·.callback) ++ w.estate.held := h₁.2.1.held
    have he : World.estate { w₁ with held := w.held } = w₁.estate.holds w.estate.held w.estate.heldBlocks := by
      rw [← show w₁.estate.heldBlocks = w.estate.heldBlocks from h₁.2.1.heldBlocks]
      rfl
    rw [← he] at hs₁ hl₁
    have hl' : ∀ l ∈ ls, ∀ a ∈ l.callback.refs, (World.estate { w₁ with held := w.held }).Has a :=
      fun l' hm a ha => hl₁.has (hl l' (List.mem_cons_of_mem _ hm) a ha)
    refine (ih hl' hs₁).imp fun _ w₂ h₂ => ⟨h₂.1, hl₁.trans h₂.2.1, fun _ => h₂.2.2 ?_⟩
    cases ls with
    | cons l' ls => exact Or.inl (List.cons_ne_nil _ _)
    | nil =>
      refine Or.inr fun b hb' => ?_
      rw [he] at hb' ⊢
      exact (h₁.2.2 b hb').more (by rw [hheld]; exact List.Subset.refl _) (by rw [h₁.2.1.heldBlocks]; exact hb)

theorem Keeps.tellInTurn (hE : E.Sound) (hl : ∀ l ∈ ls, ∀ a ∈ l.callback.refs, w.estate.Has a) :
    Keeps P (tellInTurn E.reactions registered e ls) w := by
  cases ls with
  | nil => exact .pure _
  | cons l ls =>
    intro R hR
    refine (tellInTurn_settles hE hl hR).imp fun _ w' h' => ⟨h'.1, h'.2.1, fun {b} hb => Or.inr ?_⟩
    exact h'.2.2 (Or.inl (List.cons_ne_nil _ _)) b hb

end

end LiveBindings
