import LiveBindings.Proofs.Rewiring

/-!
# How views and listeners come and go

The elementary changes of an estate in which a view is made, finished or given up, in which something in progress holds other
views, in which a listener is registered or removed, or in which the program keeps other handles.
-/

namespace LiveBindings

/-- An asset is a listener. -/
def Asset.IsListener : Asset → Prop
  | .list _ _ _ | .object _ _ _ => True
  | _ => False

namespace Estate

variable {π : Type} {P P' : Set (Ref .block)} {R R' X D : Set Asset} {e e₀ e' : Estate π} {a : Asset} {b : Ref .block}
  {v : Outline π}

/-! ## Views -/

/-- Relations of a view that is still to be made. -/
theorem Sound.newRoster {r : Ref .relations} (hsound : Sound P R e) (hnone : e.roster r = none) (y : Roster) :
    Sound P R (e.setRoster r y) ∧ Stays P e (e.setRoster r y) := by
  have hold : ∀ {r' z}, e.roster r' = some z → (e.setRoster r y).roster r' = some z := by
    intro r' z hz
    have hne : r' ≠ r := by
      rintro rfl
      rw [hnone] at hz
      cases hz
    exact (Function.update_of_ne hne ..).trans hz
  have hchildren : ∀ x, (e.setRoster r y).children x = e.children x := by
    intro x
    cases x with
    | block b =>
      simp only [children, setRoster]
      cases hv : e.view b with
      | none => rfl
      | some v =>
        have hel : (e.setRoster r y).elements v = e.elements v := by
          unfold elements
          cases v.segments with
          | some ss => rfl
          | none =>
            cases hrel : v.relations with
            | none => rfl
            | some r' =>
              obtain ⟨z, hz, -⟩ := hsound.owners hv hrel
              simp only [Option.bind_some, hz, hold hz]
        simp only [Option.elim_some]
        exact congrArg (fun l => if v.finished then [] else l) hel
    | _ => rfl
  have hr : Rewires .foreign e (e.setRoster r y) :=
    { listeners := ⟨rfl, rfl, rfl, rfl⟩
      has := fun {x} => by cases x <;> exact Iff.rfl
      view := fun hv => ⟨_, hv, rfl, rfl, rfl, rfl⟩
      roster := fun hz => ⟨_, hold hz, rfl⟩
      needs := fun {x} hn => by cases x <;> exact hn
      others := fun {x} _ => hchildren x
      orphans := rfl
      heldBlocks := rfl
      held := rfl
      kept := rfl }
  exact hr.same (hchildren _) hsound

theorem setView_of_ne {b' : Ref .block} (h : b' ≠ b) : (e.setView b v).view b' = e.view b' := Function.update_of_ne h ..

theorem setView_self : (e.setView b v).view b = some v := Function.update_self ..

/-- What needs an owner beside a view that is changed is as it was. -/
theorem needs_setView (ha : a ≠ .block b) : (e.setView b v).Needs a ↔ e.Needs a := by
  cases a with
  | block b' => simp only [Needs, setView_of_ne fun he => ha (congrArg _ he)]
  | _ => exact Iff.rfl

theorem children_setView (ha : a ≠ .block b) : (e.setView b v).children a = e.children a := by
  cases a with
  | block b' =>
    simp only [children, setView_of_ne fun he => ha (congrArg _ he)]
    rfl
  | _ => rfl

theorem has_setView (h : e.Has a) : (e.setView b v).Has a := by
  cases a with
  | block b' =>
    by_cases hb : b' = b
    · subst hb
      rw [Has, setView_self]
      rfl
    · rw [Has, setView_of_ne hb]
      exact h
  | _ => exact h

theorem view_of_setView {b' : Ref .block} {v' : Outline π} (h : (e.setView b v).view b' = some v') :
    (b' = b ∧ v' = v) ∨ e.view b' = some v' := by
  by_cases hb : b' = b
  · subst hb
    rw [setView_self] at h
    exact Or.inl ⟨rfl, (Option.some.inj h).symm⟩
  · exact Or.inr (by rwa [setView_of_ne hb] at h)

theorem children_newView (hnone : e.view b = none) (hf : v.finished = false) (hel : e.elements v = []) :
    (e.setView b v).children a = e.children a := by
  by_cases ha : a = .block b
  · subst ha
    simp only [children, setView_self, hnone, Option.elim_some, Option.elim_none, hf]
    exact hel
  · exact children_setView ha

theorem carries_newView (hnone : e.view b = none) : Carries P e (e.setView b v) where
  has := has_setView
  held := rfl
  heldBlocks := rfl
  view {b' v'} hv' := by
    have hne : b' ≠ b := by
      rintro rfl
      rw [hnone] at hv'
      cases hv'
    exact ⟨v', (setView_of_ne hne).trans hv', rfl, rfl, rfl, id, fun _ => id⟩
  roster hx := ⟨_, hx, rfl⟩

/-- A new view comes to hand. It is still being set up. -/
theorem Sound.newView (hsound : Sound P R e) (hnone : e.view b = none) (hf : v.finished = false) (hel : e.elements v = [])
    (howner : ∀ r, v.relations = some r → ∃ x, e.roster r = some x ∧ x.owner = b)
    (hsinks : ∀ s, v.sink = some s → ∀ a ∈ s.refs, e.Safe P a ∧ ∀ b', a = .block b' → b'.index < b.index) :
    Sound (insert b P) (R ∪ {.block b}) (e.setView b v) ∧ Stays P e (e.setView b v) ∧ ¬e.Has (.block b) := by
  have hnot : ¬e.Has (.block b) := by simp [Has, hnone]
  have hcarries : Carries P e (e.setView b v) := carries_newView hnone
  have hchildren : ∀ x, (e.setView b v).children x = e.children x := fun _ => children_newView hnone hf hel
  have hfree : ∀ {x}, (e.setView b v).Named ∅ x → e.Named ∅ x := by
    rintro x (hx | ⟨y, hy⟩)
    · exact Or.inl hx
    · exact .of_child (hchildren y ▸ hy)
  have hnamed : ∀ {x}, (e.setView b v).Named (R ∪ {.block b}) x → x = .block b ∨ e.Named R x := by
    rintro x (((hx | hx) | hx) | ⟨y, hy⟩)
    · exact Or.inr (.of_mem hx)
    · exact Or.inl hx
    · exact Or.inr (Or.inl (Or.inr hx))
    · exact Or.inr (.of_child (hchildren y ▸ hy))
  refine ⟨?_, ⟨⟨hcarries, fun {x y} hy => Or.inl (hchildren x ▸ hy), fun {x} hx => ?_⟩, Or.inl⟩, hnot⟩
  · exact
      { tidy := hsound.tidy.sameListeners ⟨rfl, rfl, rfl, rfl⟩
        known := fun {x} hx => by
          rcases hnamed hx with rfl | hx
          · rw [Has, setView_self]
            rfl
          · exact has_setView (hsound.known hx)
        covered := fun {x} hx => by
          refine hsound.covers (fun {y} hy => ?_) (fun hy => .root (hy.mono Set.subset_union_left))
            (fun {y z} hr hz => .child hr ((hchildren y).symm ▸ hz)) hx
          by_cases hya : y = .block b
          · exact Or.inr (.root (Or.inl (Or.inr hya)))
          · exact Or.inl ((needs_setView hya).1 hy)
        found := fun hq a ha => has_setView (hsound.found hq a ha)
        ours := fun {id q} ha hq => by
          rcases hnamed ha with ha | ha
          · cases q <;> simp [Post.asset] at ha
          · exact hsound.ours ha hq
        sinks := fun {b' v' s} hv' hs a ha => by
          rcases view_of_setView hv' with ⟨rfl, rfl⟩ | hv'
          · exact (hsinks s hs a ha).imp_left fun ha => has_setView ha.1
          · exact (hsound.sinks hv' hs a ha).imp_left fun ha => has_setView ha
        owners := fun {b' v' r} hv' hr => by
          rcases view_of_setView hv' with ⟨rfl, rfl⟩ | hv'
          · exact howner r hr
          · exact hsound.owners hv' hr
        reserved := by
          rintro b' (rfl | hb')
          · exact ⟨⟨v, setView_self, hf⟩, fun hn => hnot (hsound.known ((hfree hn).mono (Set.empty_subset R)))⟩
          · obtain ⟨hr, hn⟩ := hsound.reserved hb'
            exact ⟨hcarries.running (Or.inl hb') hr, fun hn' => hn (hfree hn')⟩
        fenced := fun {b' v' s} hb' hv' hs a ha => by
          have hsafe : e.Safe P a := by
            rcases view_of_setView hv' with ⟨rfl, rfl⟩ | hvb
            · exact (hsinks s hs a ha).1
            · have hne : b' ≠ b := by
                rintro rfl
                rw [hnone] at hvb
                cases hvb
              exact hsound.fenced (hb'.resolve_left hne) hvb hs a ha
          exact (hcarries.safe hsafe).imp_right fun h b' hb => (h b' hb).imp_left fun hb => Or.inr hb }
  · rcases hx with ⟨hxh, hc, hn⟩ | ho
    · have hxb : x ≠ .block b := fun he => hnot (he ▸ hxh)
      exact Or.inl ⟨has_setView hxh, (hchildren x).trans hc, fun hn' => hn ((needs_setView hxb).1 hn')⟩
    · exact Or.inr ho

/-- What leads somewhere already may be taken in hand. -/
theorem Sound.also (h : Sound P R e) (hX : ∀ a ∈ X, e.Named R a) : Sound P (R ∪ X) e := by
  have hnamed : ∀ {a}, e.Named (R ∪ X) a → e.Named R a := by
    rintro a (((ha | ha) | ha) | ha)
    · exact .of_mem ha
    · exact hX a ha
    · exact Or.inl (Or.inr ha)
    · exact Or.inr ha
  exact
    { h with
      known := fun ha => h.known (hnamed ha)
      covered := fun ha => (h.covered ha).mono Set.subset_union_left
      ours := fun ha => h.ours (hnamed ha) }

/-! ## Views that are finished or given up -/

/-- Other views are given up. -/
def withOrphans (e : Estate π) (os : List (Ref .block)) : Estate π := { e with orphans := os }

/-- A view is finished. -/
def retire (e : Estate π) (b : Ref .block) (v : Outline π) : Estate π := e.setView b { v with finished := true }

section

variable {os : List (Ref .block)}

@[simp] theorem children_withOrphans : (e.withOrphans os).children a = e.children a := by
  cases a <;> rfl

@[simp] theorem needs_withOrphans : (e.withOrphans os).Needs a ↔ e.Needs a := by
  cases a <;> exact Iff.rfl

@[simp] theorem has_withOrphans : (e.withOrphans os).Has a ↔ e.Has a := by
  cases a <;> exact Iff.rfl

theorem Carries.withOrphans (h : Carries P e e') : Carries P e (e'.withOrphans os) where
  has ha := has_withOrphans.2 (h.has ha)
  held := h.held
  heldBlocks := h.heldBlocks
  view := h.view
  roster := h.roster

theorem children_retire_self : (e.retire b v).children (.block b) = [] := by
  simp [children, retire, setView_self]

theorem children_retire (ha : a ≠ .block b) : (e.retire b v).children a = e.children a := children_setView ha

theorem mem_of_children_retire {a' : Asset} (h : a' ∈ (e.retire b v).children a) : a' ∈ e.children a := by
  by_cases ha : a = .block b
  · subst ha
    rw [children_retire_self] at h
    cases h
  · exact children_retire ha ▸ h

theorem needs_of_retire (h : (e.retire b v).Needs a) : a ≠ .block b ∧ e.Needs a := by
  by_cases ha : a = .block b
  · subst ha
    obtain ⟨v', hv', hf, -⟩ := h
    rw [retire, setView_self] at hv'
    cases hv'
    cases hf
  · exact ⟨ha, (needs_setView ha).1 h⟩

theorem carries_retire (hv : e.view b = some v) (hP : b ∉ P) (hheld : ¬e.Held b) : Carries P e (e.retire b v) where
  has := has_setView
  held := rfl
  heldBlocks := rfl
  view {b' v'} hv' := by
    by_cases hb : b' = b
    · subst hb
      rw [hv] at hv'
      cases hv'
      exact ⟨_, setView_self, rfl, rfl, rfl, fun _ => rfl, fun h => absurd h (by simp [hP, hheld])⟩
    · exact ⟨v', (setView_of_ne hb).trans hv', rfl, rfl, rfl, id, fun _ => id⟩
  roster hx := ⟨_, hx, rfl⟩

/-- Beside a view that is finished, what was led to still is: the view was led to from nowhere but where it is let go. -/
theorem Reach.retire (h : e.Reach (R ∪ {.block b}) a) (hrest : ∀ b' ∈ e.orphans, b' ≠ b → b' ∈ os) :
    a = .block b ∨ ((e.retire b v).withOrphans os).Reach (R ∪ {x | x ∈ e.children (.block b)}) a := by
  induction h with
  | root h =>
    rcases h with (h | h) | h | ⟨b', hb', rfl⟩
    · exact Or.inr (.root (Or.inl (Or.inl h)))
    · exact Or.inl h
    · exact Or.inr (.root (Or.inr (Or.inl h)))
    · by_cases hb : b' = b
      · exact Or.inl (congrArg _ hb)
      · exact Or.inr (.root (Or.inr (Or.inr ⟨b', hrest b' hb' hb, rfl⟩)))
  | @child y z _ hz ih =>
    by_cases hy : y = .block b
    · subst hy
      exact Or.inr (.root (Or.inl (Or.inr hz)))
    · exact Or.inr (.child (ih.resolve_left hy) (children_withOrphans.symm ▸ (children_retire hy).symm ▸ hz))

/-- A view that was given up, or is in hand, is finished: what it led to comes to hand. -/
theorem Sound.finish (hsound : Sound P (R ∪ {.block b}) e) (hv : e.view b = some v) (hP : b ∉ P) (hheld : ¬e.Held b)
    (hos : ∀ b' ∈ os, b' ∈ e.orphans) (hrest : ∀ b' ∈ e.orphans, b' ≠ b → b' ∈ os) :
    Sound P (R ∪ {x | x ∈ e.children (.block b)}) ((e.retire b v).withOrphans os) ∧
      Stays P e ((e.retire b v).withOrphans os) := by
  have hcarries : Carries P e ((e.retire b v).withOrphans os) := (carries_retire hv hP hheld).withOrphans
  have hsub : ∀ {x y}, y ∈ ((e.retire b v).withOrphans os).children x → y ∈ e.children x := fun hy =>
    mem_of_children_retire (children_withOrphans ▸ hy)
  have hneeds : ∀ {x}, ((e.retire b v).withOrphans os).Needs x → x ≠ .block b ∧ e.Needs x := fun hn =>
    needs_of_retire (needs_withOrphans.1 hn)
  have hroot : ∀ {x}, ((e.retire b v).withOrphans os).Root ∅ x → e.Root ∅ x := fun hx =>
    hx.imp_right fun hx => hx.imp_right fun ⟨b', hb', he⟩ => ⟨b', hos b' hb', he⟩
  refine ⟨hsound.rewired hcarries ⟨rfl, rfl, rfl, rfl⟩ (fun {b'} hb' => ?_) (fun {x} hx => Or.inl ?_) (fun b' _ hn => ?_)
    fun {x} hx => ?_, ⟨⟨hcarries, fun hy => Or.inl (hsub hy), fun {x} hx => ?_⟩, fun hb' => Or.inl (hos _ hb')⟩⟩
  · by_cases hb : b' = b
    · subst hb
      rw [hv]
      rfl
    · exact (setView_of_ne hb).symm ▸ hb'
  · rcases hx with ((hx | hx) | hx) | ⟨y, hy⟩
    · exact .of_mem (Or.inl hx)
    · exact .of_child hx
    · exact Or.inl ((hroot (Or.inr hx)).imp_left False.elim)
    · exact .of_child (hsub hy)
  · exact hn.imp hroot fun ⟨y, hy⟩ => ⟨y, hsub hy⟩
  · obtain ⟨hxb, hx⟩ := hneeds hx
    exact ((hsound.covered hx).retire hrest).resolve_left hxb
  · by_cases hxb : x = .block b
    · subst hxb
      exact Or.inl ⟨hcarries.has (by simp [Has, hv]), by simp [children_retire_self], fun hn => (hneeds hn).1 rfl⟩
    · rcases hx with ⟨hxh, hc, hn⟩ | ⟨b', hb', rfl⟩
      · exact Or.inl ⟨hcarries.has hxh, by rw [children_withOrphans, children_retire hxb, hc], fun hn' => hn (hneeds hn').2⟩
      · exact Or.inr ⟨b', hrest b' hb' fun he => hxb (congrArg _ he), rfl⟩

/-- A view in hand that something holds is given up. -/
theorem Sound.giveUp (hsound : Sound P (R ∪ {.block b}) e) (hP : b ∉ P) (hheld : e.Held b) :
    Sound P R (e.withOrphans (e.orphans ++ [b])) ∧ Stays P e (e.withOrphans (e.orphans ++ [b])) := by
  have hcarries : Carries P e (e.withOrphans (e.orphans ++ [b])) := (Carries.refl P e).withOrphans
  have hold : ∀ {b'}, b' ∈ e.orphans ++ [b] → b' ∈ e.orphans ∨ b' = b := fun hb' =>
    (List.mem_append.1 hb').imp_right List.mem_singleton.1
  refine ⟨hsound.rewired hcarries ⟨rfl, rfl, rfl, rfl⟩ id (fun {x} hx => Or.inl ?_) (fun b' hb' hn => ?_) fun {x} hx => ?_,
    ⟨⟨hcarries, fun hy => Or.inl (children_withOrphans ▸ hy), fun {x} hx => ?_⟩, fun {b'} hb' => ?_⟩⟩
  · rcases hx with (hx | hx | ⟨b', hb', rfl⟩) | ⟨y, hy⟩
    · exact .of_mem (Or.inl hx)
    · exact Or.inl (Or.inr (Or.inl hx))
    · rcases hold hb' with hb' | rfl
      · exact Or.inl (Or.inr (Or.inr ⟨b', hb', rfl⟩))
      · exact .of_mem (Or.inr rfl)
    · exact .of_child (children_withOrphans ▸ hy)
  · rcases hn with (hn | hn | ⟨b'', hb'', he⟩) | ⟨y, hy⟩
    · exact hn.elim
    · exact Or.inl (Or.inr (Or.inl hn))
    · cases he
      rcases hold hb'' with hb'' | rfl
      · exact Or.inl (Or.inr (Or.inr ⟨_, hb'', rfl⟩))
      · exact absurd hb' hP
    · exact .of_child (children_withOrphans ▸ hy)
  · refine hsound.covers (fun hy => Or.inl (needs_withOrphans.1 hy)) (fun {y} hy => .root ?_)
      (fun {y z} hr hz => .child hr (children_withOrphans.symm ▸ hz)) hx
    rcases hy with (hy | hy) | hy | ⟨b', hb', rfl⟩
    · exact Or.inl hy
    · exact Or.inr (Or.inr ⟨b, by simp [withOrphans], hy⟩)
    · exact Or.inr (Or.inl hy)
    · exact Or.inr (Or.inr ⟨b', List.mem_append.2 (Or.inl hb'), rfl⟩)
  · rcases hx with ⟨hxh, hc, hn⟩ | ⟨b', hb', rfl⟩
    · exact Or.inl ⟨hcarries.has hxh, by rw [children_withOrphans, hc], fun hn' => hn (needs_withOrphans.1 hn')⟩
    · exact Or.inr ⟨b', List.mem_append.2 (Or.inl hb'), rfl⟩
  · rcases hold hb' with hb' | rfl
    · exact Or.inl hb'
    · exact Or.inr (hcarries.of_held hheld)

end

/-- Once a view has been set up, it is no longer apart. -/
theorem Sound.lower (h : Sound P' R' e') (h₀ : Sound P R e) (hc : Carries P e e') (hP : P ⊆ P') : Sound P R' e' :=
  { h with
    reserved := fun hb => h.reserved (hP hb)
    fenced := fun {b v' s} hb hv' hs => by
      obtain ⟨v, hv, -⟩ := (h₀.reserved hb).1
      obtain ⟨v'', hv'', hsink, -⟩ := hc.view hv
      obtain rfl : v' = v'' := Option.some.inj (hv'.symm.trans hv'')
      exact fun a ha => hc.safe (h₀.fenced hb hv (hsink ▸ hs) a ha) }

/-! ## What is in progress -/

/-- More, or less, is in progress. -/
def holds (e : Estate π) (held : List (Callback π)) (heldBlocks : List (Ref .block)) : Estate π :=
  { e with held, heldBlocks }

section

variable {hs hs' : List (Callback π)} {bs bs' : List (Ref .block)}

@[simp] theorem children_holds : (e.holds hs bs).children a = e.children a := by
  cases a <;> rfl

@[simp] theorem needs_holds : (e.holds hs bs).Needs a ↔ e.Needs a := by
  cases a <;> exact Iff.rfl

@[simp] theorem has_holds : (e.holds hs bs).Has a ↔ e.Has a := by
  cases a <;> exact Iff.rfl

theorem root_holds : (e.holds hs bs).Root R a ↔ e.Root R a := Iff.rfl

@[simp] theorem named_holds : (e.holds hs bs).Named R a ↔ e.Named R a := by
  simp only [Named, root_holds, children_holds]

@[simp] theorem spent_holds : (e.holds hs bs).Spent a ↔ e.Spent a := by
  simp only [Spent, has_holds, children_holds, needs_holds]
  exact Iff.rfl

theorem Reach.holds (h : e.Reach R a) : (e.holds hs bs).Reach R a := by
  induction h with
  | root h => exact .root h
  | child _ hc ih => exact .child ih (children_holds.symm ▸ hc)

/-- What is held stays held when more is. -/
theorem Held.more (h : e.Held b) (hh : e.held ⊆ hs) (hb : e.heldBlocks ⊆ bs) : (e.holds hs bs).Held b := by
  induction h with
  | callback hm hb hr => exact .callback (hh hm) hb hr
  | block hm hr => exact .block (hb hm) hr
  | through _ hv hs hb hr ih => exact .through ih hv hs hb hr

theorem Sound.holds (h : Sound P R e)
    (fenced : ∀ {b v s}, b ∈ P → e.view b = some v → v.sink = some s → ∀ a ∈ s.refs, (e.holds hs bs).Safe P a) :
    Sound P R (e.holds hs bs) where
  tidy := h.tidy.sameListeners ⟨rfl, rfl, rfl, rfl⟩
  known ha := has_holds.2 (h.known (named_holds.1 ha))
  covered ha := (h.covered (needs_holds.1 ha)).holds
  found := h.found
  ours ha := h.ours (named_holds.1 ha)
  sinks := h.sinks
  owners := h.owners
  reserved hb := ⟨(h.reserved hb).1, fun hn => (h.reserved hb).2 (named_holds.1 hn)⟩
  fenced := fenced

/-- More is held. -/
theorem Sound.hold (h : Sound P R e) (hh : e.held ⊆ hs) (hb : e.heldBlocks ⊆ bs) : Sound P R (e.holds hs bs) :=
  h.holds fun hP hv hs a ha => (h.fenced hP hv hs a ha).imp has_holds.2 fun h b' hb' =>
    (h b' hb').imp_right fun hb' => hb'.imp_left fun hb' => hb'.more hh hb

/-- What is held again as it was before lets the rest go. -/
theorem Stays.restore (h : Stays P (e.holds hs bs) e') (h₀ : Sound P R e) (hsound : Sound P R' e') (hh : e.held ⊆ hs)
    (hb : e.heldBlocks ⊆ bs) : Sound P R' (e'.holds e.held e.heldBlocks) ∧ Lasts P e (e'.holds e.held e.heldBlocks) := by
  have hc : Carries P e (e'.holds e.held e.heldBlocks) :=
    { has := fun ha => has_holds.2 (h.has (has_holds.2 ha))
      held := rfl
      heldBlocks := rfl
      view := fun hv => by
        obtain ⟨v', hv', hsink, hrel, hseg, hf, hp⟩ := h.view hv
        exact ⟨v', hv', hsink, hrel, hseg, hf, fun hb' => hp (hb'.imp_right fun hb' => hb'.more hh hb)⟩
      roster := h.roster }
  refine ⟨hsound.holds fun {b v' s} hbP hv' hs a ha => ?_, hc, fun {x y} hy => ?_, fun ha => ?_⟩
  · obtain ⟨v, hv, -⟩ := (h₀.reserved hbP).1
    obtain ⟨v'', hv'', hsink, -⟩ := hc.view hv
    obtain rfl : v' = v'' := Option.some.inj (hv'.symm.trans hv'')
    exact hc.safe (h₀.fenced hbP hv (hsink ▸ hs) a ha)
  · rw [children_holds] at hy
    refine (h.children hy).imp ?_ ?_
    · rw [children_holds]
      exact id
    · rw [has_holds]
      exact id
  · exact spent_holds.2 (h.spent (spent_holds.2 ha))

end

/-! ## What the program keeps -/

/-- The program keeps other handles. -/
def keeps (e : Estate π) (handles : List (Cancel π)) : Estate π := { e with kept := handles }

section

variable {handles : List (Cancel π)}

@[simp] theorem children_keeps : (e.keeps handles).children a = e.children a := by
  cases a <;> rfl

@[simp] theorem needs_keeps : (e.keeps handles).Needs a ↔ e.Needs a := by
  cases a <;> exact Iff.rfl

@[simp] theorem has_keeps : (e.keeps handles).Has a ↔ e.Has a := by
  cases a <;> exact Iff.rfl

theorem carries_keeps : Carries P e (e.keeps handles) where
  has := has_keeps.2
  held := rfl
  heldBlocks := rfl
  view hv := ⟨_, hv, rfl, rfl, rfl, id, fun _ => id⟩
  roster hr := ⟨_, hr, rfl⟩

theorem stays_keeps : Stays P e (e.keeps handles) := by
  refine ⟨⟨carries_keeps, fun hy => Or.inl (children_keeps ▸ hy), fun ha => ?_⟩, Or.inl⟩
  simp only [Spent, has_keeps, children_keeps, needs_keeps]
  exact ha

/-- Assets `X` in hand come to be kept, and assets `D` that were kept come to hand. -/
theorem Sound.keeps (h : Sound P (R ∪ X) e) (hX : ∀ a ∈ X, ∃ handle ∈ handles, a ∈ handle.assets)
    (hnew : ∀ handle ∈ handles, ∀ a ∈ handle.assets, a ∈ X ∨ ∃ handle ∈ e.kept, a ∈ handle.assets)
    (hD : ∀ handle ∈ e.kept, ∀ a ∈ handle.assets, a ∈ D ∨ ∃ handle ∈ handles, a ∈ handle.assets)
    (hold : ∀ a ∈ D, ∃ handle ∈ e.kept, a ∈ handle.assets) (hP : ∀ b ∈ P, .block b ∉ X) :
    Sound P (R ∪ D) (e.keeps handles) := by
  refine h.rewired carries_keeps ⟨rfl, rfl, rfl, rfl⟩ id (fun {x} hx => Or.inl ?_) (fun b hb hn => ?_) fun {x} hx => ?_
  · rcases hx with ((hx | hx) | ⟨handle, hm, hx⟩ | hx) | ⟨y, hy⟩
    · exact .of_mem (Or.inl hx)
    · exact Or.inl (Or.inr (Or.inl (hold x hx)))
    · exact (hnew handle hm x hx).elim (fun hx => .of_mem (Or.inr hx)) fun hx => Or.inl (Or.inr (Or.inl hx))
    · exact Or.inl (Or.inr (Or.inr hx))
    · exact .of_child (children_keeps ▸ hy)
  · rcases hn with (hn | ⟨handle, hm, hx⟩ | hx) | ⟨y, hy⟩
    · exact hn.elim
    · exact (hnew handle hm _ hx).elim (fun hx => absurd hx (hP b hb)) fun hx => Or.inl (Or.inr (Or.inl hx))
    · exact Or.inl (Or.inr (Or.inr hx))
    · exact .of_child (children_keeps ▸ hy)
  · refine h.covers (fun hy => Or.inl (needs_keeps.1 hy)) (fun {y} hy => .root ?_)
      (fun {y z} hr hz => .child hr (children_keeps.symm ▸ hz)) hx
    rcases hy with (hy | hy) | ⟨handle, hm, hy⟩ | hy
    · exact Or.inl (Or.inl hy)
    · exact Or.inr (Or.inl (hX y hy))
    · exact (hD handle hm y hy).imp (fun hy => Or.inr hy) fun hy => Or.inl hy
    · exact Or.inr (Or.inr hy)

end

/-! ## Listeners -/

section

variable {q q' : Post π} {made : Bool} {id id' : ListenerId} {rs : List (ListenerId × Post π)}

/-- A listener is registered, if its container has been made, and the program notes its own. -/
def post (e : Estate π) (made : Bool) (rs : List (ListenerId × Post π)) : Post π → Estate π
  | .list l topic callback =>
    { e with
      listListeners := if made then
        Function.update e.listListeners l (e.listListeners l ++ [⟨⟨e.nextListener⟩, topic, callback⟩])
        else e.listListeners
      nextListener := e.nextListener + 1
      registered := rs }
  | .object o topic callback =>
    { e with
      objectListeners := if made then
        Function.update e.objectListeners o (e.objectListeners o ++ [⟨⟨e.nextListener⟩, topic, callback⟩])
        else e.objectListeners
      nextListener := e.nextListener + 1
      registered := rs }

/-- A listener is removed. -/
def unpost (e : Estate π) (rs : List (ListenerId × Post π)) : Asset → Estate π
  | .list l topic id =>
    { e with
      listListeners := Function.update e.listListeners l (Listeners.remove topic id (e.listListeners l))
      registered := rs }
  | .object o topic id =>
    { e with
      objectListeners := Function.update e.objectListeners o (Listeners.remove topic id (e.objectListeners o))
      registered := rs }
  | _ => e

theorem posted_post : (e.post made rs q).Posted id' q' ↔ e.Posted id' q' ∨ (made = true ∧ id' = ⟨e.nextListener⟩ ∧ q' = q) := by
  cases q with
  | list l topic callback =>
    cases q' with
    | list l' topic' callback' =>
      cases made with
      | false => simp [post, Posted]
      | true =>
        by_cases hl : l' = l
        · subst hl
          simp [post, Posted]
        · simp [post, Posted, hl]
    | object o' topic' callback' => simp [post, Posted]
  | object o topic callback =>
    cases q' with
    | object o' topic' callback' =>
      cases made with
      | false => simp [post, Posted]
      | true =>
        by_cases ho : o' = o
        · subst ho
          simp [post, Posted]
        · simp [post, Posted, ho]
    | list l' topic' callback' => simp [post, Posted]

theorem mem_remove {τ κ : Type} [DecidableEq τ] {topic : τ} {ls : List (Listener τ κ)} {lst : Listener τ κ} :
    lst ∈ Listeners.remove topic id ls ↔ lst ∈ ls ∧ (lst.topic = topic → lst.id ≠ id) := by
  simp only [Listeners.remove, List.mem_filter, Bool.not_eq_true', Bool.and_eq_false_imp, decide_eq_true_eq,
    decide_eq_false_iff_not]

theorem posted_unpost : (e.unpost rs a).Posted id q ↔ e.Posted id q ∧ q.asset id ≠ a := by
  cases a with
  | list l topic id' =>
    cases q with
    | list l' topic' callback' =>
      by_cases hl : l' = l
      · subst hl
        simp [unpost, Posted, mem_remove, Post.asset]
      · simp [unpost, Posted, Post.asset, hl]
    | object o' topic' callback' => simp [unpost, Posted, Post.asset]
  | object o topic id' =>
    cases q with
    | object o' topic' callback' =>
      by_cases ho : o' = o
      · subst ho
        simp [unpost, Posted, mem_remove, Post.asset]
      · simp [unpost, Posted, Post.asset, ho]
    | list l' topic' callback' => simp [unpost, Posted, Post.asset]
  | _ => cases q <;> simp [unpost, Posted, Post.asset]

@[simp] theorem children_post : (e.post made rs q).children a = e.children a := by
  cases q <;> cases a <;> rfl

@[simp] theorem children_unpost {x : Asset} : (e.unpost rs a).children x = e.children x := by
  cases a <;> cases x <;> rfl

@[simp] theorem has_unpost {x : Asset} : (e.unpost rs a).Has x ↔ e.Has x := by
  cases a <;> cases x <;> exact Iff.rfl

theorem has_post (h : e.Has a) : (e.post made rs q).Has a := by
  cases q <;> cases a <;> first | exact h | exact Nat.lt_succ_of_lt h

theorem has_asset : e.Has (q.asset id) ↔ id.index < e.nextListener := by
  cases q <;> exact Iff.rfl

theorem carries_post : Carries P e (e.post made rs q) := by
  cases q <;>
    exact ⟨has_post, rfl, rfl, fun hv => ⟨_, hv, rfl, rfl, rfl, id, fun _ => id⟩, fun hr => ⟨_, hr, rfl⟩⟩

theorem carries_unpost : Carries P e (e.unpost rs a) := by
  cases a <;>
    exact ⟨has_unpost.2, rfl, rfl, fun hv => ⟨_, hv, rfl, rfl, rfl, id, fun _ => id⟩, fun hr => ⟨_, hr, rfl⟩⟩

/-- What needs an owner beside listeners does not depend on them. -/
theorem needs_of_posted (hv : e'.view = e.view) (hh : e'.holder = e.holder) (h : e'.Needs a) :
    e.Needs a ∨ ∃ id q, e'.Posted id q ∧ q.asset id = a ∧ ¬q.IsUser := by
  cases a with
  | block b =>
    simp only [Needs, hv] at h
    exact Or.inl h
  | slot s =>
    simp only [Needs, hh] at h
    exact Or.inl h
  | _ => exact Or.inr h

theorem needs_of_post (h : e.Posted id q) (hq : ¬q.IsUser) : e.Needs (q.asset id) := by
  cases q <;> exact ⟨id, _, h, rfl, hq⟩

/-! ### Each has an id of its own -/

theorem Tidy.nodup_post (h : e.Tidy) :
    (∀ l, (((e.post made rs q).listListeners l).map (·.id)).Nodup) ∧
      ∀ o, (((e.post made rs q).objectListeners o).map (·.id)).Nodup := by
  cases made with
  | false => cases q <;> exact ⟨h.listOnce, h.objectOnce⟩
  | true =>
    cases q with
    | list l topic callback =>
      refine ⟨fun l' => ?_, h.objectOnce⟩
      by_cases hl : l' = l
      · subst hl
        simp only [post, if_true, Function.update_self, List.map_append, List.map_cons, List.map_nil]
        refine List.Nodup.append (h.listOnce l') (List.nodup_singleton _) (List.disjoint_singleton.2 fun hm => ?_)
        obtain ⟨lst, hl, he⟩ := List.mem_map.1 hm
        have := h.below (q := .list l' lst.topic lst.callback) hl
        rw [he] at this
        exact Nat.lt_irrefl _ this
      · simp only [post, if_true, Function.update_of_ne hl]
        exact h.listOnce l'
    | object o topic callback =>
      refine ⟨h.listOnce, fun o' => ?_⟩
      by_cases ho : o' = o
      · subst ho
        simp only [post, if_true, Function.update_self, List.map_append, List.map_cons, List.map_nil]
        refine List.Nodup.append (h.objectOnce o') (List.nodup_singleton _) (List.disjoint_singleton.2 fun hm => ?_)
        obtain ⟨lst, hl, he⟩ := List.mem_map.1 hm
        have := h.below (q := .object o' lst.topic lst.callback) hl
        rw [he] at this
        exact Nat.lt_irrefl _ this
      · simp only [post, if_true, Function.update_of_ne ho]
        exact h.objectOnce o'

theorem Tidy.nodup_unpost (h : e.Tidy) :
    (∀ l, (((e.unpost rs a).listListeners l).map (·.id)).Nodup) ∧
      ∀ o, (((e.unpost rs a).objectListeners o).map (·.id)).Nodup := by
  cases a with
  | list l topic id =>
    refine ⟨fun l' => ?_, h.objectOnce⟩
    by_cases hl : l' = l
    · subst hl
      simp only [unpost, Function.update_self]
      exact (h.listOnce l').sublist (List.filter_sublist.map _)
    · simp only [unpost, Function.update_of_ne hl]
      exact h.listOnce l'
  | object o topic id =>
    refine ⟨h.listOnce, fun o' => ?_⟩
    by_cases ho : o' = o
    · subst ho
      simp only [unpost, Function.update_self]
      exact (h.objectOnce o').sublist (List.filter_sublist.map _)
    · simp only [unpost, Function.update_of_ne ho]
      exact h.objectOnce o'
  | _ => exact ⟨h.listOnce, h.objectOnce⟩

theorem nextListener_post : (e.post made rs q).nextListener = e.nextListener + 1 := by
  cases q <;> rfl

theorem registered_post : (e.post made rs q).registered = rs := by
  cases q <;> rfl

theorem Tidy.below_post (h : e.Tidy) (hq : (e.post made rs q).Posted id' q') :
    id'.index < (e.post made rs q).nextListener := by
  rw [nextListener_post]
  rcases posted_post.1 hq with hq | ⟨-, rfl, -⟩
  · exact Nat.lt_succ_of_lt (h.below hq)
  · exact Nat.lt_succ_self _

/-- The engine registers a listener. -/
theorem Tidy.post (h : e.Tidy) (hq : ¬q.IsUser) : (e.post made e.registered q).Tidy where
  below := h.below_post
  listOnce := h.nodup_post.1
  objectOnce := h.nodup_post.2
  notedOnce := registered_post (e := e) ▸ h.notedOnce
  users {id' q'} hu := by
    rw [registered_post, posted_post, ← h.users hu]
    refine or_iff_left ?_
    rintro ⟨-, -, rfl⟩
    exact hq hu
  theirs hm := h.theirs (registered_post (e := e) ▸ hm)

/-- The program registers a listener. -/
theorem Tidy.note (h : e.Tidy) (hq : q.IsUser) :
    (e.post true (e.registered ++ [(⟨e.nextListener⟩, q)]) q).Tidy where
  below := h.below_post
  listOnce := h.nodup_post.1
  objectOnce := h.nodup_post.2
  notedOnce := by
    rw [registered_post, List.map_append]
    refine List.Nodup.append h.notedOnce (List.nodup_singleton _) (List.disjoint_singleton.2 fun hm => ?_)
    obtain ⟨⟨id, q'⟩, hm, rfl⟩ := List.mem_map.1 hm
    exact Nat.lt_irrefl _ (h.below ((h.users (h.theirs hm)).2 hm))
  users {id' q'} hu := by
    simp only [registered_post, posted_post, List.mem_append, List.mem_singleton, h.users hu, Prod.mk.injEq, true_and]
  theirs hm := by
    rw [registered_post] at hm
    rcases List.mem_append.1 hm with hm | hm
    · exact h.theirs hm
    · cases List.mem_singleton.1 hm
      exact hq

/-- The engine removes a listener that it has in hand. -/
theorem Sound.tidy_unpost (h : Sound P R e) (ha : a ∈ R) : (e.unpost e.registered a).Tidy where
  below hq := by
    have := h.tidy.below (posted_unpost.1 hq).1
    cases a <;> exact this
  listOnce := h.tidy.nodup_unpost.1
  objectOnce := h.tidy.nodup_unpost.2
  notedOnce := by cases a <;> exact h.tidy.notedOnce
  users {id q} hu := by
    have hr : (e.unpost e.registered a).registered = e.registered := by cases a <;> rfl
    rw [posted_unpost, hr, ← h.tidy.users hu, and_iff_left_iff_imp]
    rintro hq rfl
    exact h.ours (.of_mem ha) hq hu
  theirs hm := by
    have hr : (e.unpost e.registered a).registered = e.registered := by cases a <;> rfl
    exact h.tidy.theirs (hr ▸ hm)

theorem asset_injective (h : q.asset id = q'.asset id') : id = id' := by
  cases q <;> cases q' <;> simp_all [Post.asset]

theorem registered_unpost : (e.unpost rs (q.asset id)).registered = rs := by
  cases q <;> rfl

/-- The program removes one of its listeners. -/
theorem Tidy.forget (h : e.Tidy) (hm : (id, q) ∈ e.registered) :
    (e.unpost (e.registered.filter fun x => x.1 ≠ id) (q.asset id)).Tidy where
  below hq := by
    have := h.below (posted_unpost.1 hq).1
    cases q <;> exact this
  listOnce := h.nodup_unpost.1
  objectOnce := h.nodup_unpost.2
  notedOnce := by
    rw [registered_unpost]
    exact h.notedOnce.sublist (List.filter_sublist.map _)
  users {id' q'} hu := by
    rw [posted_unpost, registered_unpost, List.mem_filter, h.users hu, and_congr_right_iff]
    intro hm'
    rw [decide_eq_true_eq]
    refine not_congr ⟨asset_injective, fun he => ?_⟩
    cases List.inj_on_of_nodup_map h.notedOnce hm' hm he
    rfl
  theirs hm' := by
    rw [registered_unpost] at hm'
    exact h.theirs (List.mem_filter.1 hm').1

/-! ### What leads to them -/

/-- A listener is registered. One of the engine's comes to hand. -/
theorem Sound.post (h : Sound P R e) (ht : (e.post made rs q).Tidy) (hb : ∀ a ∈ q.callback.refs, e.Has a)
    (hq : ¬q.IsUser → q.asset ⟨e.nextListener⟩ ∈ X) (hX : ∀ a ∈ X, a = q.asset ⟨e.nextListener⟩ ∧ ¬q.IsUser) :
    Sound P (R ∪ X) (e.post made rs q) ∧ Stays P e (e.post made rs q) := by
  have hroot : ∀ {R x}, (e.post made rs q).Root R x ↔ e.Root R x := by
    intro R x
    cases q <;> exact Iff.rfl
  have hview : (e.post made rs q).view = e.view := by cases q <;> rfl
  have hholder : (e.post made rs q).holder = e.holder := by cases q <;> rfl
  have hnamed : ∀ {x}, (e.post made rs q).Named (R ∪ X) x → x ∈ X ∨ e.Named R x := by
    rintro x (hx | ⟨y, hy⟩)
    · rcases hroot.1 hx with (hx | hx) | hx
      · exact Or.inr (.of_mem hx)
      · exact Or.inl hx
      · exact Or.inr (Or.inl (Or.inr hx))
    · exact Or.inr (.of_child (children_post ▸ hy))
  have hfree : ∀ {x}, (e.post made rs q).Named ∅ x → e.Named ∅ x := by
    rintro x (hx | ⟨y, hy⟩)
    · exact Or.inl (hroot.1 hx)
    · exact .of_child (children_post ▸ hy)
  have hnew : ¬(⟨e.nextListener⟩ : ListenerId).index < e.nextListener := Nat.lt_irrefl _
  refine ⟨⟨ht, fun {x} hx => ?_, fun {x} hx => ?_, fun {id' q'} hq' a ha => ?_, fun {id' q'} hx hq' => ?_, ?_, ?_,
    fun hbP => ?_, fun {b v s} hbP hv hs a ha => ?_⟩, ⟨carries_post, fun hy => Or.inl (children_post ▸ hy), fun {x} hx => ?_⟩, fun hb' => ?_⟩
  · rcases hnamed hx with hx | hx
    · rw [(hX x hx).1, has_asset, nextListener_post]
      exact Nat.lt_succ_self _
    · exact has_post (h.known hx)
  · refine h.covers (fun {y} hy => ?_) (fun hy => .root ((hroot.2 hy).mono Set.subset_union_left))
      (fun hr hz => .child hr (children_post.symm ▸ hz)) hx
    rcases needs_of_posted hview hholder hy with hy | ⟨id', q', hq', rfl, hu⟩
    · exact Or.inl hy
    · rcases posted_post.1 hq' with hq' | ⟨-, rfl, rfl⟩
      · exact Or.inl (needs_of_post hq' hu)
      · exact Or.inr (.root (Or.inl (Or.inr (hq hu))))
  · rcases posted_post.1 hq' with hq' | ⟨-, -, rfl⟩
    · exact has_post (h.found hq' a ha)
    · exact has_post (hb a ha)
  · rcases hnamed hx with hx | hx
    · obtain ⟨hid, hu⟩ := hX _ hx
      rcases posted_post.1 hq' with hq' | ⟨-, -, rfl⟩
      · rw [asset_injective hid] at hq'
        exact absurd (h.tidy.below hq') hnew
      · exact hu
    · rcases posted_post.1 hq' with hq' | ⟨-, rfl, -⟩
      · exact h.ours hx hq'
      · exact absurd (has_asset.1 (h.known hx)) hnew
  · intro b v s hv hs a ha
    rw [hview] at hv
    exact (h.sinks hv hs a ha).imp_left fun ha => has_post ha
  · cases q <;> exact h.owners
  · obtain ⟨hr, hn⟩ := h.reserved hbP
    exact ⟨carries_post.running (Or.inl hbP) hr, fun hn' => hn (hfree hn')⟩
  · rw [hview] at hv
    exact carries_post.safe (h.fenced hbP hv hs a ha)
  · rcases hx with ⟨hxh, hc, hn⟩ | ho
    · refine Or.inl ⟨has_post hxh, children_post.trans hc, fun hn' => ?_⟩
      rcases needs_of_posted hview hholder hn' with hn' | ⟨id', q', hq', rfl, hu⟩
      · exact hn hn'
      · rcases posted_post.1 hq' with hq' | ⟨-, rfl, rfl⟩
        · exact hn (needs_of_post hq' hu)
        · exact hnew (has_asset.1 hxh)
    · refine Or.inr ?_
      cases q <;> exact ho
  · refine Or.inl ?_
    cases q <;> exact hb'

/-- A listener is removed. -/
theorem Sound.unpost (h : Sound P R e) (ht : (e.unpost rs a).Tidy) :
    Sound P R (e.unpost rs a) ∧ Stays P e (e.unpost rs a) := by
  have hroot : ∀ {R x}, (e.unpost rs a).Root R x ↔ e.Root R x := by
    intro R x
    cases a <;> exact Iff.rfl
  have hview : (e.unpost rs a).view = e.view := by cases a <;> rfl
  have hholder : (e.unpost rs a).holder = e.holder := by cases a <;> rfl
  have hnamed : ∀ {R x}, (e.unpost rs a).Named R x ↔ e.Named R x := by
    simp only [Named, hroot, children_unpost, implies_true]
  have hneeds : ∀ {x}, (e.unpost rs a).Needs x → e.Needs x := by
    intro x hx
    rcases needs_of_posted hview hholder hx with hx | ⟨id', q', hq', rfl, hu⟩
    · exact hx
    · exact needs_of_post (posted_unpost.1 hq').1 hu
  refine ⟨⟨ht, fun hx => has_unpost.2 (h.known (hnamed.1 hx)), fun hx => ?_,
    fun hq a ha => has_unpost.2 (h.found (posted_unpost.1 hq).1 a ha),
    fun hx hq => h.ours (hnamed.1 hx) (posted_unpost.1 hq).1, ?_, ?_, fun hbP => ?_, fun {b v s} hbP hv hs a ha => ?_⟩,
    ⟨carries_unpost, fun hy => Or.inl (children_unpost ▸ hy), fun {x} hx => ?_⟩, fun hb' => ?_⟩
  · exact h.covers (fun hy => Or.inl (hneeds hy)) (fun hy => .root (hroot.2 hy))
      (fun hr hz => .child hr (children_unpost.symm ▸ hz)) hx
  · intro b v s hv hs x hx
    rw [hview] at hv
    exact (h.sinks hv hs x hx).imp_left fun hx => has_unpost.2 hx
  · cases a <;> exact h.owners
  · obtain ⟨hr, hn⟩ := h.reserved hbP
    exact ⟨carries_unpost.running (Or.inl hbP) hr, fun hn' => hn (hnamed.1 hn')⟩
  · rw [hview] at hv
    exact carries_unpost.safe (h.fenced hbP hv hs a ha)
  · rcases hx with ⟨hxh, hc, hn⟩ | ho
    · exact Or.inl ⟨has_unpost.2 hxh, children_unpost.trans hc, fun hn' => hn (hneeds hn')⟩
    · refine Or.inr ?_
      cases a <;> exact ho
  · refine Or.inl ?_
    cases a <;> exact hb'

/-- A listener of the engine's that is in hand is removed. -/
theorem Sound.unlisten (h : Sound P (R ∪ {a}) e) (ha : a.IsListener) :
    Sound P R (e.unpost e.registered a) ∧ Stays P e (e.unpost e.registered a) := by
  have hmem : a ∈ R ∪ {a} := Or.inr rfl
  obtain ⟨h', hs⟩ := h.unpost (h.tidy_unpost hmem)
  refine ⟨h'.drop fun x hx => ?_, hs⟩
  obtain rfl : x = a := hx
  have hc : e.children x = [] := by cases x <;> first | rfl | exact ha.elim
  refine Or.inl ⟨has_unpost.2 (h.known (.of_mem hmem)), children_unpost.trans hc, fun hn => ?_⟩
  have hn' : ∃ id q, (e.unpost e.registered x).Posted id q ∧ q.asset id = x ∧ ¬q.IsUser := by
    cases x <;> first | exact hn | exact ha.elim
  obtain ⟨id, q, hq, he, -⟩ := hn'
  exact (posted_unpost.1 hq).2 he

end

end Estate

end LiveBindings
