import LiveBindings.Proofs.Estate

/-!
# Elementary changes of an estate

Each step of the engine that matters for what leads to what changes the estate in one of a few ways: an asset comes to lead
to other assets (`Rewires`), an asset is made, a view is finished or given up, a listener is registered or removed, or the
program keeps other handles. One lemma for each says what becomes of the assets in hand.
-/

namespace LiveBindings

/-- An asset is a cell that keeps a handle. -/
def Asset.IsCell : Asset → Prop
  | .slot _ | .entry _ | .segment _ => True
  | _ => False

theorem Asset.IsCell.ne_asset {π : Type} {a : Asset} (ha : a.IsCell) (id : ListenerId) (q : Post π) : q.asset id ≠ a := by
  rintro rfl
  cases q <;> exact ha

namespace Estate

variable {π : Type} {P P' : Set (Ref .block)} {R R' X D : Set Asset} {e e₀ e' : Estate π} {a : Asset} {b : Ref .block}

/-! ## The listeners stay -/

structure SameListeners (e e' : Estate π) : Prop where
  lists : e'.listListeners = e.listListeners
  objects : e'.objectListeners = e.objectListeners
  next : e'.nextListener = e.nextListener
  registered : e'.registered = e.registered

theorem SameListeners.posted (h : SameListeners e e') {id : ListenerId} {q : Post π} : e'.Posted id q ↔ e.Posted id q := by
  cases q with
  | list l topic callback => simp only [Posted, h.lists]
  | object o topic callback => simp only [Posted, h.objects]

theorem Tidy.sameListeners (h : e.Tidy) (hl : SameListeners e e') : e'.Tidy where
  below hq := by
    rw [hl.next]
    exact h.below (hl.posted.1 hq)
  listOnce l := by
    rw [hl.lists]
    exact h.listOnce l
  objectOnce o := by
    rw [hl.objects]
    exact h.objectOnce o
  notedOnce := by
    rw [hl.registered]
    exact h.notedOnce
  users hq := by
    rw [hl.posted, hl.registered]
    exact h.users hq
  theirs hq := h.theirs (hl.registered ▸ hq)

/-- A sound estate stays sound when its listeners and views stay, whatever comes to lead to what. -/
theorem Sound.rewired (h : Sound P R e) (hs : Carries P e e') (hl : SameListeners e e')
    (hv : ∀ {b}, (e'.view b).isSome → (e.view b).isSome)
    (named : ∀ {a}, e'.Named R' a → e.Named R a ∨ (e'.Has a ∧ ∀ id, ∀ q : Post π, q.asset id ≠ a))
    (reserved : ∀ b ∈ P, e'.Named ∅ (.block b) → e.Named ∅ (.block b))
    (covered : ∀ {a}, e'.Needs a → e'.Reach R' a) : Sound P R' e' := by
  have old : ∀ {b v'}, e'.view b = some v' → ∃ v, e.view b = some v ∧ v'.sink = v.sink ∧ v'.relations = v.relations := by
    intro b v' hv'
    obtain ⟨v, hvb⟩ := Option.isSome_iff_exists.1 (hv (b := b) (by rw [hv']; rfl))
    obtain ⟨v'', hv'', hsink, hrel, -⟩ := hs.view hvb
    obtain rfl : v' = v'' := Option.some.inj (hv'.symm.trans hv'')
    exact ⟨v, hvb, hsink, hrel⟩
  constructor
  · exact h.tidy.sameListeners hl
  · intro a ha
    exact (named ha).elim (fun ha => hs.has (h.known ha)) And.left
  · exact covered
  · intro id q hq a ha
    exact hs.has (h.found (hl.posted.1 hq) a ha)
  · intro id q ha hq
    rcases named ha with ha | ⟨-, hn⟩
    · exact h.ours ha (hl.posted.1 hq)
    · exact absurd rfl (hn id q)
  · intro b v' s hv' hsink a ha
    obtain ⟨v, hvb, hsink', -⟩ := old hv'
    exact (h.sinks hvb (hsink' ▸ hsink) a ha).imp_left fun ha => hs.has ha
  · intro b v' r hv' hrel
    obtain ⟨v, hvb, -, hrel'⟩ := old hv'
    obtain ⟨x, hx, ho⟩ := h.owners hvb (hrel' ▸ hrel)
    obtain ⟨x', hx', ho'⟩ := hs.roster hx
    exact ⟨x', hx', ho'.trans ho⟩
  · intro b hb
    obtain ⟨hr, hn⟩ := h.reserved hb
    exact ⟨hs.running (Or.inl hb) hr, fun hn' => hn (reserved b hb hn')⟩
  · intro b v' s hb hv' hsink a ha
    obtain ⟨v, hvb, hsink', -⟩ := old hv'
    exact hs.safe (h.fenced hb hvb (hsink' ▸ hsink) a ha)

/-! ## What an asset leads to -/

/-- Nothing has changed but what one asset leads to and what needs no owner any more. -/
structure Rewires (a : Asset) (e e' : Estate π) : Prop where
  listeners : SameListeners e e'
  has : ∀ {x}, e'.Has x ↔ e.Has x
  view : ∀ {b v}, e.view b = some v → ∃ v', e'.view b = some v' ∧ v'.sink = v.sink ∧ v'.relations = v.relations ∧
    v'.segments.isSome = v.segments.isSome ∧ v'.finished = v.finished
  roster : ∀ {r x}, e.roster r = some x → ∃ x', e'.roster r = some x' ∧ x'.owner = x.owner
  needs : ∀ {x}, e'.Needs x → e.Needs x
  others : ∀ {x}, x ≠ a → e'.children x = e.children x
  orphans : e'.orphans = e.orphans
  heldBlocks : e'.heldBlocks = e.heldBlocks
  held : e'.held = e.held
  kept : e'.kept = e.kept

namespace Rewires

theorem root (hr : Rewires a e e') {x : Asset} : e'.Root R x ↔ e.Root R x := by
  rw [Root, Root, hr.kept, hr.orphans]

theorem carries (hr : Rewires a e e') (P : Set (Ref .block)) : Carries P e e' where
  has hx := hr.has.2 hx
  held := hr.held
  heldBlocks := hr.heldBlocks
  view hv := by
    obtain ⟨v', hv', hsink, hrel, hseg, hfin⟩ := hr.view hv
    exact ⟨v', hv', hsink, hrel, hseg, hfin.trans, fun _ => hfin.trans⟩
  roster := hr.roster

theorem lasts (hr : Rewires a e e') (hs : Lasts P e₀ e) (hc : ∀ x ∈ e'.children a, x ∈ e.children a ∨ ¬e₀.Has x)
    (hsp : e₀.Spent a → e'.Spent a) : Lasts P e₀ e' where
  toCarries := hs.toCarries.trans (hr.carries P)
  children {x y} hy := by
    have hy' : y ∈ e.children x ∨ ¬e₀.Has y := by
      by_cases hx : x = a
      · subst hx
        exact hc y hy
      · exact Or.inl (hr.others hx ▸ hy)
    exact hy'.elim hs.children Or.inr
  spent {x} hx := by
    by_cases hxa : x = a
    · subst hxa
      exact hsp hx
    · rcases hs.spent hx with ⟨hh, hc, hn⟩ | ho
      · exact Or.inl ⟨hr.has.2 hh, (hr.others hxa).trans hc, fun hn' => hn (hr.needs hn')⟩
      · rw [← hr.orphans] at ho
        exact Or.inr ho

theorem stays (hr : Rewires a e e') (hs : Stays P e₀ e) (hc : ∀ x ∈ e'.children a, x ∈ e.children a ∨ ¬e₀.Has x)
    (hsp : e₀.Spent a → e'.Spent a) : Stays P e₀ e' where
  toLasts := hr.lasts hs.toLasts hc hsp
  orphans hb := (hs.orphans (hr.orphans ▸ hb)).imp_right (hr.carries P).of_held

/-- The assets `X` that an asset comes to lead to need not be kept in hand, and those that it does not lead to any more come
to hand. -/
theorem sound (hr : Rewires a e e') (h : Sound P (R ∪ X) e) (hX : ∀ x ∈ X, x ∈ e'.children a)
    (hnew : ∀ x ∈ e'.children a, x ∈ e.children a ∨ x ∈ X) (hD : ∀ x ∈ e.children a, x ∈ e'.children a ∨ x ∈ D)
    (hold : ∀ x ∈ D, x ∈ e.children a) (reach : ∀ x ∈ X, e.Reach R a) (hP : ∀ b ∈ P, .block b ∉ X) :
    Sound P (R ∪ D) e' := by
  have hcarries := hr.carries P
  -- What was led to before is led to now, by what leads to it or from hand.
  have carried : ∀ {x}, e.Reach R x → e'.Reach (R ∪ D) x := by
    intro x hx
    induction hx with
    | root h => exact .root ((hr.root.2 h).mono Set.subset_union_left)
    | @child y x _ hc ih =>
      by_cases hy : y = a
      · subst hy
        exact (hD x hc).elim (fun hc => .child ih hc) fun hd => .root (Or.inl (Or.inr hd))
      · exact .child ih (hr.others hy ▸ hc)
  have hat : ∀ x ∈ X, e'.Reach (R ∪ D) x := fun x hx => .child (carried (reach x hx)) (hX x hx)
  refine h.rewired hcarries hr.listeners (fun {b} hb => (hr.has (x := .block b)).1 hb) (fun {x} hx => Or.inl ?_)
    (fun b hb hn => ?_)
    fun {x} hx => ?_
  · rcases hx with ((hx | hx) | hx) | ⟨y, hy⟩
    · exact .of_mem (Or.inl hx)
    · exact .of_child (hold x hx)
    · rw [hr.kept, hr.orphans] at hx
      exact Or.inl (Or.inr hx)
    · by_cases hya : y = a
      · subst hya
        exact (hnew x hy).elim (fun hy => .of_child hy) fun hx => .of_mem (Or.inr hx)
      · exact .of_child (hr.others hya ▸ hy)
  · rcases hn with hn | ⟨y, hy⟩
    · exact Or.inl (hr.root.1 hn)
    · by_cases hya : y = a
      · subst hya
        exact (hnew _ hy).elim (fun hy => .of_child hy) fun hx => absurd hx (hP b hb)
      · exact .of_child (hr.others hya ▸ hy)
  · refine h.covers (fun {y} hy => Or.inl (hr.needs hy)) (fun {y} hy => ?_) (fun {y z} hy hz => ?_) hx
    · rcases hy with (hy | hy) | hy
      · exact .root (Or.inl (Or.inl hy))
      · exact hat y hy
      · rw [← hr.kept, ← hr.orphans] at hy
        exact .root (Or.inr hy)
    · by_cases hya : y = a
      · subst hya
        exact (hD z hz).elim (fun hz => .child hy hz) fun hd => .root (Or.inl (Or.inr hd))
      · exact .child hy (hr.others hya ▸ hz)

/-- Every asset leads to what it led to. -/
theorem same (hr : Rewires a e e') (hc : e'.children a = e.children a) (h : Sound P R e) :
    Sound P R e' ∧ Stays P e e' := by
  rw [← Set.union_empty R] at h ⊢
  refine ⟨hr.sound h ?_ ?_ ?_ ?_ ?_ ?_, hr.stays (.refl P e) ?_ ?_⟩
  · simp
  · exact fun x hx => Or.inl (hc ▸ hx)
  · exact fun x hx => Or.inl (hc ▸ hx)
  · simp
  · simp
  · simp
  · exact fun x hx => Or.inl (hc ▸ hx)
  · rintro (⟨hh, hc', hn⟩ | ho)
    · exact Or.inl ⟨hr.has.2 hh, hc.trans hc', fun hn' => hn (hr.needs hn')⟩
    · rw [← hr.orphans] at ho
      exact Or.inr ho

end Rewires

/-! ### A cell takes or loses a handle -/

def setHolder (e : Estate π) (a : Asset) (h : Holder π) : Estate π := { e with holder := Function.update e.holder a (some h) }

section

variable {h h₀ : Holder π} {x : Asset}

theorem children_setHolder_self (ha : a.IsCell) : (e.setHolder a h).children a = h.handle.assets := by
  cases a <;> first | exact ha.elim | simp [children, setHolder]

theorem children_setHolder (hx : x ≠ a) : (e.setHolder a h).children x = e.children x := by
  cases x <;> simp only [children, setHolder, elements, ne_eq, hx, not_false_eq_true, Function.update_of_ne]

theorem needs_setHolder (hx : x ≠ a) : (e.setHolder a h).Needs x ↔ e.Needs x := by
  cases x <;> simp only [Needs, setHolder, Posted, ne_eq, hx, not_false_eq_true, Function.update_of_ne]

theorem needs_setHolder_self (ha : a.IsCell) (hn : (e.setHolder a h).Needs a) : (∃ s, a = .slot s) ∧ h.closed = false := by
  cases a with
  | slot s =>
    obtain ⟨h', hh, hc⟩ := hn
    simp only [setHolder, Function.update_self, Option.some.injEq] at hh
    exact ⟨⟨s, rfl⟩, hh ▸ hc⟩
  | entry | segment =>
    obtain ⟨id, q, -, hl, -⟩ := hn
    exact absurd hl (ha.ne_asset id q)
  | _ => exact ha.elim

theorem rewires_setHolder (ha : a.IsCell) (hh : e.holder a = some h₀) (hc : h.closed = false → h₀.closed = false) :
    Rewires a e (e.setHolder a h) where
  listeners := ⟨rfl, rfl, rfl, rfl⟩
  has {x} := by
    by_cases hx : x = a
    · subst hx
      cases x <;> first | exact ha.elim | simp [Has, setHolder, hh]
    · cases x <;> simp only [Has, setHolder, ne_eq, hx, not_false_eq_true, Function.update_of_ne]
  view hv := ⟨_, hv, rfl, rfl, rfl, rfl⟩
  roster hx := ⟨_, hx, rfl⟩
  needs {x} hn := by
    by_cases hx : x = a
    · subst hx
      obtain ⟨⟨s, rfl⟩, hcl⟩ := needs_setHolder_self ha hn
      exact ⟨h₀, hh, hc hcl⟩
    · exact (needs_setHolder hx).1 hn
  others hx := children_setHolder hx
  orphans := rfl
  heldBlocks := rfl
  held := rfl
  kept := rfl

theorem has_of_holder (ha : a.IsCell) (hh : e.holder a = some h₀) : e.Has a := by
  cases a <;> first | exact ha.elim | simp [Has, hh]

/-- A cell that is closed and keeps nothing has been taken down. -/
theorem spent_setHolder (ha : a.IsCell) (hc : h.closed = true) (hd : h.handle = .done) : (e.setHolder a h).Spent a := by
  have hself : (e.setHolder a h).holder a = some h := Function.update_self ..
  refine Or.inl ⟨has_of_holder ha hself, ?_, fun hn => ?_⟩
  · rw [children_setHolder_self ha, hd]
    rfl
  · have := (needs_setHolder_self ha hn).2
    rw [hc] at this
    cases this

/-- What a cell keeps is taken out. -/
theorem Sound.take (hsound : Sound P R e) (ha : a.IsCell) (hh : e.holder a = some h₀) :
    Sound P (R ∪ {x | x ∈ h₀.handle.assets}) (e.setHolder a { h₀ with handle := .done }) ∧
      Stays P e (e.setHolder a { h₀ with handle := .done }) ∧ ∀ b ∈ P, .block b ∉ h₀.handle.assets := by
  have hr := rewires_setHolder (h := { h₀ with handle := .done }) ha hh id
  have hold : e.children a = h₀.handle.assets := by
    cases a <;> first | exact ha.elim | simp [children, hh]
  have hnew : (e.setHolder a { h₀ with handle := .done }).children a = [] := children_setHolder_self ha
  rw [← Set.union_empty R] at hsound
  refine ⟨hr.sound hsound ?_ ?_ ?_ ?_ ?_ ?_, hr.stays (.refl P e) ?_ ?_, ?_⟩
  · simp
  · simp [hnew]
  · exact fun x hx => Or.inr (hold ▸ hx)
  · exact fun x hx => hold ▸ hx
  · simp
  · simp
  · simp [hnew]
  · rintro (⟨hhas, -, hn⟩ | ho)
    · exact Or.inl ⟨hr.has.2 hhas, hnew, fun hn' => hn (hr.needs hn')⟩
    · exact Or.inr ho
  · intro b hb hm
    exact (hsound.reserved hb).2 (.of_child (hold ▸ hm))

/-- A cell that is led to takes a handle in place of the one that it kept. -/
theorem Sound.put {c : Cancel π} (hsound : Sound P (R ∪ {x | x ∈ c.assets}) e) (ha : a.IsCell) (hh : e.holder a = some h₀)
    (hreach : e.Reach R a) (hP : ∀ b ∈ P, .block b ∉ c.assets) :
    Sound P (R ∪ {x | x ∈ h₀.handle.assets}) (e.setHolder a { h₀ with handle := c }) := by
  have hr := rewires_setHolder (h := { h₀ with handle := c }) ha hh id
  have hold : e.children a = h₀.handle.assets := by
    cases a <;> first | exact ha.elim | simp [children, hh]
  have hnew : (e.setHolder a { h₀ with handle := c }).children a = c.assets := children_setHolder_self ha
  refine hr.sound hsound ?_ ?_ ?_ ?_ (fun _ _ => hreach) hP
  · exact fun x hx => hnew ▸ hx
  · exact fun x hx => Or.inr (hnew ▸ hx)
  · exact fun x hx => Or.inr (hold ▸ hx)
  · exact fun x hx => hold ▸ hx

theorem Stays.put {c : Cancel π} (hs : Stays P e₀ e) (ha : a.IsCell) (hh : e.holder a = some h₀)
    (hfresh : ∀ x ∈ c.assets, ¬e₀.Has x) (hsp : ¬e₀.Spent a) : Stays P e₀ (e.setHolder a { h₀ with handle := c }) := by
  refine (rewires_setHolder (h := { h₀ with handle := c }) ha hh id).stays hs ?_ fun hn => absurd hn hsp
  rw [children_setHolder_self ha]
  exact fun x hx => Or.inr (hfresh x hx)

/-- A slot is closed. -/
theorem Sound.close (hsound : Sound P R e) (ha : a.IsCell) (hh : e.holder a = some h₀) :
    Sound P R (e.setHolder a { h₀ with closed := true }) ∧ Stays P e (e.setHolder a { h₀ with closed := true }) := by
  have hr := rewires_setHolder (h := { h₀ with closed := true }) ha hh (by simp)
  have hold : e.children a = h₀.handle.assets := by
    cases a <;> first | exact ha.elim | simp [children, hh]
  exact hr.same ((children_setHolder_self ha).trans hold.symm) hsound

/-- A new cell comes to hand. -/
theorem Sound.make (hsound : Sound P R e) (ha : a.IsCell) (hnone : e.holder a = none) (hh : h.handle = .done) :
    Sound P (R ∪ {a}) (e.setHolder a h) ∧ Stays P e (e.setHolder a h) ∧ ¬e.Has a := by
  have hnew : (e.setHolder a h).children a = [] := by
    rw [children_setHolder_self ha, hh]
    rfl
  have hold : e.children a = [] := by
    cases a <;> first | exact ha.elim | simp [children, hnone]
  have hchildren : ∀ x, (e.setHolder a h).children x = e.children x := by
    intro x
    by_cases hx : x = a
    · rw [hx, hnew, hold]
    · exact children_setHolder hx
  have hnot : ¬e.Has a := by
    cases a <;> first | exact ha.elim | simp [Has, hnone]
  have hhas : (e.setHolder a h).Has a := by
    cases a <;> first | exact ha.elim | simp [Has, setHolder]
  have hmono : ∀ {x}, e.Has x → (e.setHolder a h).Has x := by
    intro x hx
    by_cases hxa : x = a
    · exact hxa ▸ hhas
    · cases x <;>
        first | exact False.elim hx | simpa only [Has, setHolder, ne_eq, hxa, not_false_eq_true, Function.update_of_ne] using hx
  have hcarries : Carries P e (e.setHolder a h) :=
    ⟨hmono, rfl, rfl, fun hv => ⟨_, hv, rfl, rfl, rfl, id, fun _ => id⟩, fun hx => ⟨_, hx, rfl⟩⟩
  refine ⟨?_, ⟨⟨hcarries, fun {x y} hy => Or.inl (hchildren x ▸ hy), fun {x} hx => ?_⟩, Or.inl⟩, hnot⟩
  · refine hsound.rewired hcarries ⟨rfl, rfl, rfl, rfl⟩ id (fun {x} hx => ?_) (fun b _ hn => ?_) fun {x} hx => ?_
    · rcases hx with ((hx | hx) | hx) | ⟨y, hy⟩
      · exact Or.inl (.of_mem hx)
      · obtain rfl : x = a := hx
        refine Or.inr ⟨hhas, fun id q => ?_⟩
        exact ha.ne_asset id q
      · exact Or.inl (Or.inl (Or.inr hx))
      · exact Or.inl (.of_child (hchildren y ▸ hy))
    · rcases hn with hn | ⟨y, hy⟩
      · exact Or.inl hn
      · exact .of_child (hchildren y ▸ hy)
    · refine hsound.covers (fun {y} hy => ?_) (fun hy => .root (hy.mono Set.subset_union_left)) (fun {y z} hr hz => ?_) hx
      · by_cases hya : y = a
        · exact Or.inr (.root (Or.inl (Or.inr hya)))
        · exact Or.inl ((needs_setHolder hya).1 hy)
      · exact .child hr (by rw [hchildren]; exact hz)
  · rcases hx with ⟨hxh, hc, hn⟩ | ho
    · have hxa : x ≠ a := fun he => hnot (he ▸ hxh)
      exact Or.inl ⟨hmono hxh, (hchildren x).trans hc, fun hn' => hn ((needs_setHolder hxa).1 hn')⟩
    · exact Or.inr ho

end

/-! ## Views -/

section

variable {v : Outline π} {x : Asset}

def setRoster (e : Estate π) (r : Ref .relations) (x : Roster) : Estate π :=
  { e with roster := Function.update e.roster r (some x) }

def setView (e : Estate π) (b : Ref .block) (v : Outline π) : Estate π := { e with view := Function.update e.view b (some v) }

/-- The entries of a view become others. -/
theorem rewires_setRoster {r : Ref .relations} {y : Roster} (hsound : Sound P R e) (hv : e.view b = some v)
    (hrel : v.relations = some r) (hy : e.roster r = some y) (es : List (Ref .entry)) :
    Rewires (.block b) e (e.setRoster r { y with entries := es }) where
  listeners := ⟨rfl, rfl, rfl, rfl⟩
  has {x} := by cases x <;> exact Iff.rfl
  view hv := ⟨_, hv, rfl, rfl, rfl, rfl⟩
  roster {r' z} hz := by
    by_cases hr : r' = r
    · subst hr
      obtain rfl : y = z := Option.some.inj (hy.symm.trans hz)
      exact ⟨{ y with entries := es }, Function.update_self .., rfl⟩
    · exact ⟨z, (Function.update_of_ne hr ..).trans hz, rfl⟩
  needs {x} hn := by cases x <;> exact hn
  others {x} hx := by
    cases x with
    | block b' =>
      simp only [children, setRoster]
      cases hv' : e.view b' with
      | none => rfl
      | some v' =>
        have hel : (e.setRoster r { y with entries := es }).elements v' = e.elements v' := by
          unfold elements
          cases v'.segments with
          | some ss => rfl
          | none =>
            cases hrel' : v'.relations with
            | none => rfl
            | some r' =>
              have hne : r' ≠ r := by
                rintro rfl
                obtain ⟨z, hz, hb⟩ := hsound.owners hv hrel
                obtain ⟨z', hz', hb'⟩ := hsound.owners hv' hrel'
                obtain rfl : z = z' := Option.some.inj (hz.symm.trans hz')
                exact hx (by rw [← hb, ← hb'])
              simp only [Option.bind_some, setRoster, Function.update_of_ne hne]
        simp only [Option.elim_some]
        exact congrArg (fun l => if v'.finished then [] else l) hel
    | _ => rfl
  orphans := rfl
  heldBlocks := rfl
  held := rfl
  kept := rfl

/-- The segments of a view become others. -/
theorem rewires_setSegments (hv : e.view b = some v) (hseg : v.segments.isSome) (ss : List (Ref .segment)) :
    Rewires (.block b) e (e.setView b { v with segments := some ss }) where
  listeners := ⟨rfl, rfl, rfl, rfl⟩
  has {x} := by
    cases x with
    | block b' =>
      by_cases hb : b' = b
      · subst hb
        simp [Has, setView, hv]
      · simp only [Has, setView, Function.update_of_ne hb]
    | _ => exact Iff.rfl
  view {b' v'} hv' := by
    by_cases hb : b' = b
    · subst hb
      obtain rfl : v = v' := Option.some.inj (hv.symm.trans hv')
      exact ⟨{ v with segments := some ss }, Function.update_self .., rfl, rfl, hseg.symm, rfl⟩
    · exact ⟨v', (Function.update_of_ne hb ..).trans hv', rfl, rfl, rfl, rfl⟩
  roster hx := ⟨_, hx, rfl⟩
  needs {x} hn := by
    cases x with
    | block b' =>
      by_cases hb : b' = b
      · subst hb
        obtain ⟨v', hv', hf, -⟩ := hn
        simp only [setView, Function.update_self, Option.some.injEq] at hv'
        subst hv'
        exact ⟨v, hv, hf, Or.inr hseg⟩
      · obtain ⟨v', hv', h⟩ := hn
        simp only [setView, Function.update_of_ne hb] at hv'
        exact ⟨v', hv', h⟩
    | _ => exact hn
  others {x} hx := by
    cases x with
    | block b' =>
      have hb : b' ≠ b := fun he => hx (congrArg _ he)
      simp only [children, setView, Function.update_of_ne hb]
      rfl
    | _ => rfl
  orphans := rfl
  heldBlocks := rfl
  held := rfl
  kept := rfl

end

end Estate

end LiveBindings
