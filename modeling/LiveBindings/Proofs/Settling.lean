import LiveBindings.Proofs.Cascade
import LiveBindings.Proofs.Spans

/-!
# Computations that end or give up for a reason

`Run.Settles G act w Q` says that a computation started in `w` ends in a result and a world of which `Q` holds, or is abandoned
for one of the reasons `G`. It stands between `Run.Ends`, which allows no reason, and `Run.Leads`, which allows every one.

The callbacks of a store serve an invariant at a depth (`Reactions.Serves`) if it holds again whenever one of them has been told
something in a dispatch of that depth. What is announced keeps the invariant then, and a change of a list takes the invariant of
those who hear of it before to that of those who hear of it afterwards (`ListId.apply_settles`).
-/

namespace LiveBindings

variable {κ ε α β : Type}

/-- The computation ends with a result and a world of which `Q` holds, or it is abandoned for one of the reasons `G`. -/
def Run.Settles (G : Fault → Prop) (act : Run κ ε α) (w : World κ ε) (Q : α → World κ ε → Prop) : Prop :=
  match act w with
  | .ok a w' => Q a w'
  | .error e _ => G e

namespace Run

variable {G : Fault → Prop} {w : World κ ε} {Q : α → World κ ε → Prop}

/-- What holds at the end may be weakened. -/
theorem Settles.imp {act : Run κ ε α} {Q' : α → World κ ε → Prop} (h : act.Settles G w Q) (hQ : ∀ a w', Q a w' → Q' a w') :
    act.Settles G w Q' := by
  unfold Settles at h ⊢
  cases hw : act w with
  | ok a w' =>
    rw [hw] at h
    exact hQ a w' h
  | error e w' =>
    rw [hw] at h
    exact h

theorem settles_of_eq {act : Run κ ε α} {a : α} {w' : World κ ε} (h : act w = .ok a w') : act.Settles G w Q ↔ Q a w' := by
  simp [Settles, h]

/-- What a computation settles to holds of the result that it returns. -/
theorem Settles.of_eq {act : Run κ ε α} (h : act.Settles G w Q) {a : α} {w' : World κ ε} (he : act w = .ok a w') : Q a w' :=
  (settles_of_eq he).1 h

/-- A computation that ends settles. -/
theorem Ends.settles {act : Run κ ε α} (h : act.Ends w Q) : act.Settles G w Q := by
  obtain ⟨a, w', he, hQ⟩ := ends_iff.1 h
  exact (settles_of_eq he).2 hQ

instance decidableSettles {act : Run κ ε α} [DecidablePred G] [∀ a w', Decidable (Q a w')] : Decidable (act.Settles G w Q) :=
  match h : act w with
  | .ok a w' => decidable_of_iff (Q a w') (settles_of_eq h).symm
  | .error e w' => decidable_of_iff (G e) (by simp [Settles, h])

@[simp] theorem settles_pure (a : α) : (pure a : Run κ ε α).Settles G w Q ↔ Q a w := Iff.rfl

@[simp] theorem settles_bind (act : Run κ ε α) (f : α → Run κ ε β) (Q : β → World κ ε → Prop) :
    (act >>= f).Settles G w Q ↔ act.Settles G w fun a w' => (f a).Settles G w' Q := by
  unfold Settles
  simp only [bind, EStateM.bind]
  cases act w <;> rfl

@[simp] theorem settles_map (f : α → β) (act : Run κ ε α) (Q : β → World κ ε → Prop) :
    (f <$> act).Settles G w Q ↔ act.Settles G w fun a w' => Q (f a) w' := by
  unfold Settles
  simp only [Functor.map, EStateM.map]
  cases act w <;> rfl

@[simp] theorem settles_discard (act : Run κ ε α) (Q : PUnit → World κ ε → Prop) :
    (discard act).Settles G w Q ↔ act.Settles G w fun _ w' => Q ⟨⟩ w' := by
  unfold Settles
  simp only [discard, Functor.discard, Functor.mapConst, Function.comp, EStateM.map]
  cases act w <;> rfl

@[simp] theorem settles_get (Q : World κ ε → World κ ε → Prop) : (get : Run κ ε _).Settles G w Q ↔ Q w w := Iff.rfl

@[simp] theorem settles_stateGet (Q : World κ ε → World κ ε → Prop) : Run.Settles G EStateM.get w Q ↔ Q w w := Iff.rfl

@[simp] theorem settles_modify (f : World κ ε → World κ ε) (Q : PUnit → World κ ε → Prop) :
    (modify f : Run κ ε PUnit).Settles G w Q ↔ Q ⟨⟩ (f w) := Iff.rfl

@[simp] theorem settles_throw (e : Fault) : (throw e : Run κ ε α).Settles G w Q ↔ G e := Iff.rfl

@[simp] theorem settles_restoring (restore : World κ ε → World κ ε) (act : Run κ ε α) :
    (restoring restore act).Settles G w Q ↔ act.Settles G w fun a w' => Q a (restore w') := by
  simp only [Settles, restoring]
  cases act w <;> rfl

/-- A dispatch runs one level deeper. At the limit it is left out or refused, as the configuration says. -/
theorem settles_nested {container : Kind} {silent act : Run κ ε α}
    (skipped : w.config.onDepthExceeded = .skip → w.config.maxDispatchDepth ≤ w.depth → silent.Settles G w Q)
    (refused : w.config.onDepthExceeded = .panic → w.config.maxDispatchDepth ≤ w.depth → G (.depthLimit container w.depth))
    (below : w.depth < w.config.maxDispatchDepth → act.Settles G w.deeper fun a w' => Q a w'.shallower) :
    (nested container silent act).Settles G w Q := by
  simp only [nested, settles_bind, settles_get]
  split
  · rename_i limit
    split
    · rename_i skip
      exact skipped skip limit
    · rename_i panic
      exact refused panic limit
  · rename_i limit
    simp only [settles_restoring, settles_bind, settles_modify]
    exact below (Nat.lt_of_not_le limit)

theorem settles_withHeld {callbacks : List κ} {act : Run κ ε α} :
    (withHeld callbacks act).Settles G w Q ↔
      act.Settles G { w with held := callbacks ++ w.held } fun a w' => Q a { w' with held := w.held } := by
  simp [withHeld]

theorem settles_holding {R : Reactions κ ε} {callbacks : List κ} {act : Run κ ε α} :
    (holding R callbacks act).Settles G w Q ↔
      act.Settles G { w with held := callbacks ++ w.held } fun a w' =>
        R.letGo.Settles G { w' with held := w.held } fun _ w'' => Q a w'' := by
  simp [holding, settles_withHeld]

end Run

/-- So many dispatches are in flight under a configuration. -/
def World.AtLevel (d : Nat) (c : Config) (w : World κ ε) : Prop := w.depth = d ∧ w.config = c

/-- The reason for which a configuration has changes refused: the limit of nested dispatches. -/
def Fault.IsRefusal (c : Config) : Fault → Prop
  | .depthLimit _ _ => c.onDepthExceeded = .panic
  | .tuplesBusy | .exhausted => False

/-- In dispatches at a depth, the callbacks `C` serve what holds of the world: it holds again when one of them has been told
something, and when some have been let go. -/
structure Reactions.Serves (R : Reactions κ ε) (G : Fault → Prop) (d : Nat) (c : Config) (C : κ → Prop) (I : World κ ε → Prop) :
    Prop where
  calm : World.Calm I
  fire : ∀ {callback}, C callback → ∀ e {w}, I w → w.AtLevel d c →
    (R.fire callback e).Settles G w fun _ w' => I w' ∧ w'.AtLevel d c
  letGo : ∀ {w}, I w → w.AtLevel d c → R.letGo.Settles G w fun _ w' => I w' ∧ w'.AtLevel d c

namespace Reactions.Serves

variable {G : Fault → Prop} {d : Nat} {c : Config} {R : Reactions κ ε} {C : κ → Prop} {I : World κ ε → Prop} {w : World κ ε}
  (hR : R.Serves G d c C I)

include hR

section

variable {τ : Type} {registered : World κ ε → ListenerId → Bool} {e : Event} {ls : List (Listener τ κ)}

theorem tell {x : Listener τ κ} (hx : C x.callback) (h : I w) (hd : w.AtLevel d c) :
    (LiveBindings.tell R registered e x).Settles G w fun _ w' => I w' ∧ w'.AtLevel d c := by
  simp only [LiveBindings.tell, Run.settles_bind, Run.settles_get]
  split
  · exact hR.fire hx e h hd
  · exact ⟨h, hd⟩

theorem tellAll (hls : ∀ x ∈ ls, C x.callback) (h : I w) (hd : w.AtLevel d c) :
    (LiveBindings.tellAll R registered e ls).Settles G w fun _ w' => I w' ∧ w'.AtLevel d c := by
  induction ls generalizing w with
  | nil => exact ⟨h, hd⟩
  | cons x ls ih =>
    rw [LiveBindings.tellAll, Run.settles_bind]
    refine (hR.tell (hls x (List.mem_cons_self ..)) h hd).imp fun _ w₁ h₁ => ?_
    exact ih (fun y hy => hls y (List.mem_cons_of_mem _ hy)) h₁.1 h₁.2

/-- What is done while callbacks are held takes the invariant to one that is served as well. -/
theorem holding {J : World κ ε → Prop} (hJ : R.Serves G d c C J) {callbacks : List κ} {act : Run κ ε α} (h : I w)
    (hd : w.AtLevel d c) (ha : ∀ {w}, I w → w.AtLevel d c → act.Settles G w fun _ w' => J w' ∧ w'.AtLevel d c) :
    (LiveBindings.holding R callbacks act).Settles G w fun _ w' => J w' ∧ w'.AtLevel d c := by
  rw [Run.settles_holding]
  refine (ha (hR.calm.held _ (callbacks ++ w.held) h) hd).imp fun _ w₁ h₁ => ?_
  exact hJ.letGo (hJ.calm.held _ w.held h₁.1) h₁.2

theorem tellInTurn (hls : ∀ x ∈ ls, C x.callback) (h : I w) (hd : w.AtLevel d c) :
    (LiveBindings.tellInTurn R registered e ls).Settles G w fun _ w' => I w' ∧ w'.AtLevel d c := by
  induction ls generalizing w with
  | nil => exact ⟨h, hd⟩
  | cons x ls ih =>
    rw [LiveBindings.tellInTurn, Run.settles_bind, Run.settles_withHeld]
    have turn : (LiveBindings.holding R [x.callback] (LiveBindings.tell R registered e x)).Settles G
        { w with held := ls.map (·.callback) ++ w.held } fun _ w' => I w' ∧ w'.AtLevel d c :=
      hR.holding hR (hR.calm.held _ _ h) hd fun h hd => hR.tell (hls x (List.mem_cons_self ..)) h hd
    refine turn.imp fun _ w₁ h₁ => ?_
    exact ih (fun y hy => hls y (List.mem_cons_of_mem _ hy)) (hR.calm.held _ _ h₁.1) h₁.2

end

variable {l : ListId} {topic : ListTopic}

theorem tellLength (hls : ∀ x ∈ Listeners.on topic (w.listCell l).listeners, C x.callback) (length : Nat) (h : I w)
    (hd : w.AtLevel d c) : (l.tellLength R topic length).Settles G w fun _ w' => I w' ∧ w'.AtLevel d c := by
  simp only [ListId.tellLength, ListId.listeners, Run.settles_bind, Run.settles_stateGet, Run.settles_pure]
  exact hR.holding hR h hd fun h hd => hR.tellAll hls h hd

theorem tellContent (hls : ∀ x ∈ Listeners.on topic (w.listCell l).listeners, C x.callback) (report : ListReport) (h : I w)
    (hd : w.AtLevel d c) : (l.tellContent R topic report).Settles G w fun _ w' => I w' ∧ w'.AtLevel d c := by
  simp only [ListId.tellContent, ListId.listeners, Run.settles_bind, Run.settles_stateGet, Run.settles_pure]
  exact hR.tellInTurn hls h hd

theorem tellItems {ls : List (Listener ListTopic κ)} (hls : ∀ x ∈ ls, C x.callback) (count index : Nat) (h : I w)
    (hd : w.AtLevel d c) : (l.tellItems R ls count index).Settles G w fun _ w' => I w' ∧ w'.AtLevel d c := by
  induction count generalizing w index with
  | zero => exact ⟨h, hd⟩
  | succ count ih =>
    simp only [ListId.tellItems, ListId.get, ListId.items, Run.settles_bind, Run.settles_get, Run.settles_pure]
    exact (hR.tellAll hls h hd).imp fun _ w₁ h₁ => ih _ h₁.1 h₁.2

theorem tellSpan (hls : ∀ x ∈ Listeners.on topic (w.listCell l).listeners, C x.callback) (change : ListChange) (h : I w)
    (hd : w.AtLevel d c) : (l.tellSpan R topic change).Settles G w fun _ w' => I w' ∧ w'.AtLevel d c := by
  simp only [ListId.tellSpan, ListId.listeners, Run.settles_bind, Run.settles_stateGet, Run.settles_pure]
  split
  · exact ⟨h, hd⟩
  · exact hR.holding hR h hd fun h hd => hR.tellItems hls _ _ h hd

end Reactions.Serves

/-! ## A change of a list -/

section

variable {G : Fault → Prop} {d : Nat} {c : Config} {R : Reactions κ ε} {C₀ C₁ : κ → Prop} {I J : World κ ε → Prop} {w : World κ ε}
  {l : ListId}

/-- The listeners that hear of a change before it is made. -/
def ListTopic.IsBefore : ListTopic → Prop
  | .beforeLength | .beforeContent | .beforeEach => True
  | .each | .content | .length => False

/-- The change takes the invariant of those who hear of it before to that of those who hear of it afterwards. -/
theorem ListId.apply_settles {change : ListChange} {before : ListReport} {mutate : Run κ ε ListReport}
    (hG : c.onDepthExceeded = .panic → c.maxDispatchDepth ≤ d → G (.depthLimit .list d))
    (h₀ : d < c.maxDispatchDepth → R.Serves G (d + 1) c C₀ I) (h₁ : d < c.maxDispatchDepth → R.Serves G (d + 1) c C₁ J)
    (hls₀ : ∀ {w}, I w → ∀ x ∈ (w.listCell l).listeners, x.topic.IsBefore → C₀ x.callback)
    (hls₁ : ∀ {w}, J w → ∀ x ∈ (w.listCell l).listeners, ¬x.topic.IsBefore → C₁ x.callback)
    (hm : ∀ {w d}, I w → w.AtLevel d c → mutate.Settles G w fun _ w' => J w' ∧ w'.AtLevel d c) (h : I w)
    (hd : w.AtLevel d c) : (l.apply R change before mutate).Settles G w fun _ w' => J w' ∧ w'.AtLevel d c := by
  obtain ⟨rfl, rfl⟩ := hd
  refine Run.settles_nested (fun _ _ => hm h ⟨rfl, rfl⟩) hG fun below => ?_
  have h₀ := h₀ below
  have h₁ := h₁ below
  have before₀ {t : ListTopic} (ht : t.IsBefore) {w : World κ ε} (h : I w) :
      ∀ x ∈ Listeners.on t (w.listCell l).listeners, C₀ x.callback := by
    intro x hx
    obtain ⟨hx, htopic⟩ := List.mem_filter.1 hx
    exact hls₀ h x hx (of_decide_eq_true htopic ▸ ht)
  have after₁ {topic : ListTopic} (ht : ¬topic.IsBefore) {w : World κ ε} (h : J w) :
      ∀ x ∈ Listeners.on topic (w.listCell l).listeners, C₁ x.callback := by
    intro x hx
    obtain ⟨hx, htopic⟩ := List.mem_filter.1 hx
    exact hls₁ h x hx (of_decide_eq_true htopic ▸ ht)
  have content {w' : World κ ε} (h : I w') (hd : w'.AtLevel (w.depth + 1) w.config) :
      (l.dispatching do
        l.tellContent R .beforeContent before
        l.tellSpan R .beforeEach change
        let after ← mutate
        l.tellSpan R .each change
        l.tellContent R .content after
        return after).Settles G w' fun _ w'' => J w'' ∧ w''.AtLevel (w.depth + 1) w.config := by
    simp only [ListId.dispatching, Run.settles_restoring, Run.settles_bind, Run.settles_modify, Run.settles_pure]
    have h := h₀.calm.dispatching w' l (· + 1) h
    refine (h₀.tellContent (before₀ (t := .beforeContent) trivial h) _ h hd).imp fun _ w₁ hw₁ => ?_
    refine (h₀.tellSpan (before₀ (t := .beforeEach) trivial hw₁.1) _ hw₁.1 hw₁.2).imp fun _ w₂ hw₂ => ?_
    refine (hm hw₂.1 hw₂.2).imp fun after w₃ hw₃ => ?_
    refine (h₁.tellSpan (after₁ id hw₃.1) _ hw₃.1 hw₃.2).imp fun _ w₄ hw₄ => ?_
    refine (h₁.tellContent (after₁ id hw₄.1) _ hw₄.1 hw₄.2).imp fun _ w₅ hw₅ => ?_
    exact ⟨h₁.calm.dispatching w₅ l (· - 1) hw₅.1, hw₅.2⟩
  have surface {w' : World κ ε} (h : J w' ∧ w'.AtLevel (w.depth + 1) w.config) :
      J w'.shallower ∧ w'.shallower.AtLevel w.depth w.config :=
    ⟨h₁.calm.depth _ _ h.1, Nat.sub_eq_of_eq_add h.2.1, h.2.2⟩
  have deeper : I w.deeper := h₀.calm.depth _ _ h
  dsimp only
  split
  · simp only [Run.settles_bind, ListId.length, ListId.items, Run.settles_get, Run.settles_pure]
    refine (h₀.tellLength (before₀ (t := .beforeLength) trivial deeper) _ deeper ⟨rfl, rfl⟩).imp fun _ w₁ hw₁ => ?_
    refine (content hw₁.1 hw₁.2).imp fun after w₂ hw₂ => ?_
    exact (h₁.tellLength (after₁ id hw₂.1) _ hw₂.1 hw₂.2).imp fun _ _ hw₃ => surface hw₃
  · simp only [Run.settles_bind, Run.settles_pure]
    exact (content deeper ⟨rfl, rfl⟩).imp fun _ _ hw₁ => surface hw₁

end

/-! ## A splice that is heard of afterwards only -/

/-- Two worlds differ at most in what is in progress. -/
structure World.Resembles (w w' : World κ ε) : Prop where
  size : w'.lists.size = w.lists.size
  items : ∀ l, (w'.listCell l).items = (w.listCell l).items
  listeners : ∀ l, (w'.listCell l).listeners = (w.listCell l).listeners
  objects : w'.objects = w.objects
  env : w'.env = w.env

/-- Apart from what is in progress, nothing but the items of a list changed. -/
structure World.SetsItems (l : ListId) (items : List Value) (w w' : World κ ε) : Prop where
  size : w'.lists.size = w.lists.size
  own : (w'.listCell l).items = items
  items : ∀ l', l' ≠ l → (w'.listCell l').items = (w.listCell l').items
  listeners : ∀ l, (w'.listCell l).listeners = (w.listCell l).listeners
  objects : w'.objects = w.objects
  env : w'.env = w.env

namespace World

variable {w w' w'' : World κ ε} {l : ListId} {items : List Value}

theorem Resembles.refl (w : World κ ε) : w.Resembles w := ⟨rfl, fun _ => rfl, fun _ => rfl, rfl, rfl⟩

theorem Resembles.trans (h : w.Resembles w') (h' : w'.Resembles w'') : w.Resembles w'' where
  size := h'.size.trans h.size
  items l := (h'.items l).trans (h.items l)
  listeners l := (h'.listeners l).trans (h.listeners l)
  objects := h'.objects.trans h.objects
  env := h'.env.trans h.env

theorem SetsItems.resembles (h : SetsItems l items w w') (h' : w'.Resembles w'') : SetsItems l items w w'' where
  size := h'.size.trans h.size
  own := (h'.items l).trans h.own
  items l' hne := (h'.items l').trans (h.items l' hne)
  listeners l := (h'.listeners l).trans (h.listeners l)
  objects := h'.objects.trans h.objects
  env := h'.env.trans h.env

theorem SetsItems.of_resembles (h : w.Resembles w') (hi : (w.listCell l).items = items) : SetsItems l items w w' where
  size := h.size
  own := (h.items l).trans hi
  items l' _ := h.items l'
  listeners := h.listeners
  objects := h.objects
  env := h.env

/-- Another number of dispatches of a list is in flight. -/
theorem Resembles.dispatching (w : World κ ε) (l : ListId) (f : Nat → Nat) :
    w.Resembles (w.modifyList l fun c => { c with dispatching := f c.dispatching }) := by
  have cell (l' : ListId) : ((w.modifyList l fun c => { c with dispatching := f c.dispatching }).listCell l').items =
      (w.listCell l').items ∧ ((w.modifyList l fun c => { c with dispatching := f c.dispatching }).listCell l').listeners =
      (w.listCell l').listeners := by
    rw [listCell_modifyList]
    split
    · rename_i h
      rw [h.1]
      exact ⟨rfl, rfl⟩
    · exact ⟨rfl, rfl⟩
  exact ⟨by simp, fun l' => (cell l').1, fun l' => (cell l').2, rfl, rfl⟩

/-- What holds of all worlds that resemble each other does not depend on what is in progress. -/
theorem calm_of_resembles {I : World κ ε → Prop} (h : ∀ {w w'}, I w → w.Resembles w' → I w') : Calm I where
  held _ _ hI := h hI ⟨rfl, fun _ => rfl, fun _ => rfl, rfl, rfl⟩
  depth _ _ hI := h hI ⟨rfl, fun _ => rfl, fun _ => rfl, rfl, rfl⟩
  dispatching w l f hI := h hI (.dispatching w l f)

end World

/-- Nobody is told anything, and letting go of what was captured has no effect. -/
theorem Reactions.Serves.nobody {G : Fault → Prop} {d : Nat} {c : Config} {R : Reactions κ ε} {I : World κ ε → Prop}
    (calm : World.Calm I) (letGo : ∀ {w}, I w → R.letGo w = .ok ⟨⟩ w) : R.Serves G d c (fun _ => False) I where
  calm := calm
  fire := False.elim
  letGo h hd := (Run.settles_of_eq (letGo h)).2 ⟨h, hd⟩

/-- A splice of a list of which nobody hears before it is made. -/
theorem ListId.splice_settles {G : Fault → Prop} {d : Nat} {c : Config} {R : Reactions κ ε} {C : κ → Prop} {I : World κ ε → Prop}
    {w : World κ ε} {l : ListId} (hG : c.onDepthExceeded = .panic → c.maxDispatchDepth ≤ d → G (.depthLimit .list d))
    (hl : l.index < w.lists.size) (hafter : ∀ x ∈ (w.listCell l).listeners, ¬x.topic.IsBefore)
    (letGo : d < c.maxDispatchDepth → ∀ {w'}, w.Resembles w' → R.letGo w' = .ok ⟨⟩ w')
    (h₁ : d < c.maxDispatchDepth → R.Serves G (d + 1) c C I)
    (hls : ∀ {w}, I w → ∀ x ∈ (w.listCell l).listeners, ¬x.topic.IsBefore → C x.callback) {index remove : Nat} {plus : List Value}
    (hI : ∀ {w'}, World.SetsItems l (replaceRun (w.listCell l).items index remove plus) w w' → I w') (hd : w.AtLevel d c) :
    (l.splice R index remove plus).Settles G w fun _ w' => I w' ∧ w'.AtLevel d c := by
  have hrun : replaceRun (w.listCell l).items (min index (w.listCell l).items.length)
      (((w.listCell l).items.drop (min index (w.listCell l).items.length)).take remove).length plus =
      replaceRun (w.listCell l).items index remove plus := by
    rw [List.length_take, List.length_drop]
    exact replaceRun_congr (by omega) (by omega)
  simp only [ListId.splice, ListId.items, Run.settles_bind, Run.settles_get, Run.settles_pure]
  split
  · rename_i hnone
    simp only [Bool.and_eq_true, List.isEmpty_iff] at hnone
    refine ⟨hI (.of_resembles (.refl w) ?_), hd⟩
    rw [← hrun, hnone.1, hnone.2]
    simp [replaceRun]
  · simp only [Run.settles_bind, Run.settles_pure]
    refine ListId.apply_settles (I := w.Resembles) hG
      (fun below => .nobody (World.calm_of_resembles .trans) (letGo below)) h₁
      (fun h x hx ht => hafter x (h.listeners l ▸ hx) ht) hls (fun {w₁ _} h hd => ?_) (.refl w) hd
    simp only [ListId.replaceItems, ListId.items, Run.settles_bind, Run.settles_get, Run.settles_modify, Run.settles_pure]
    refine ⟨hI ⟨?_, ?_, fun l' hne => ?_, fun l' => ?_, h.objects, h.env⟩, hd⟩
    · simpa using h.size
    · rw [World.listCell_modifyList, if_pos ⟨rfl, h.size ▸ hl⟩, h.items, ← hrun]
      exact replaceRun_congr (by omega) (by omega)
    · rw [World.listCell_modifyList, if_neg fun he => hne he.1, h.items]
    · rw [World.listCell_modifyList]
      split
      · rename_i he
        rw [he.1]
        exact h.listeners l
      · exact h.listeners l'

/-! ## A change of an object -/

section

variable {G : Fault → Prop} {d : Nat} {c : Config} {R : Reactions κ ε} {C : κ → Prop} {I J K : World κ ε → Prop} {w : World κ ε}
  {o : ObjectId}

/-- A pass in which one of the listeners takes the invariant to another one. -/
theorem tellAll_past {τ : Type} {registered : World κ ε → ListenerId → Bool} {e : Event} {ls : List (Listener τ κ)}
    {x : Listener τ κ} (h₁ : R.Serves G d c C J) (h₂ : R.Serves G d c C K) (hls : ∀ y ∈ ls, C y.callback) (hx : x ∈ ls)
    (there : ∀ {w}, J w → registered w x.id = true)
    (told : ∀ {w}, J w → w.AtLevel d c → (R.fire x.callback e).Settles G w fun _ w' => K w' ∧ w'.AtLevel d c) (h : J w)
    (hd : w.AtLevel d c) : (tellAll R registered e ls).Settles G w fun _ w' => K w' ∧ w'.AtLevel d c := by
  induction ls generalizing w with
  | nil => cases hx
  | cons y ls ih =>
    have rest : ∀ y ∈ ls, C y.callback := fun y hy => hls y (List.mem_cons_of_mem _ hy)
    rw [tellAll, Run.settles_bind]
    rcases List.mem_cons.1 hx with rfl | hx
    · simp only [tell, Run.settles_bind, Run.settles_get, there h, if_true]
      exact (told h hd).imp fun _ w₁ hw₁ => h₂.tellAll rest hw₁.1 hw₁.2
    · exact (h₁.tell (hls y (List.mem_cons_self ..)) h hd).imp fun _ w₁ hw₁ => ih rest hx hw₁.1 hw₁.2

/-- One of the listeners that hear of all entries takes the invariant to another one. -/
theorem ObjectId.tellEntry_past {x : Listener ObjectTopic κ} (h₁ : R.Serves G d c C J) (h₂ : R.Serves G d c C K)
    (hls : ∀ {w}, J w → ∀ y ∈ (w.objectCell o).listeners, C y.callback) (ht : x.topic = .entries)
    (there : ∀ {w}, J w → x ∈ (w.objectCell o).listeners)
    (told : ∀ {e w}, J w → w.AtLevel d c → (R.fire x.callback e).Settles G w fun _ w' => K w' ∧ w'.AtLevel d c) (key : String)
    (value : Value) (h : J w) (hd : w.AtLevel d c) :
    (o.tellEntry R key value).Settles G w fun _ w' => K w' ∧ w'.AtLevel d c := by
  have registered {w : World κ ε} (h : J w) : o.registered w x.id = true :=
    List.any_eq_true.2 ⟨x, there h, decide_eq_true rfl⟩
  have hx : x ∈ Listeners.on .entries (w.objectCell o).listeners := List.mem_filter.2 ⟨there h, decide_eq_true ht⟩
  simp only [ObjectId.tellEntry, ObjectId.listeners, Run.settles_bind, Run.settles_stateGet, Run.settles_pure]
  exact h₁.holding h₂ h hd fun hI hd => tellAll_past h₁ h₂ (fun y hy => hls h y (List.mem_of_mem_filter hy)) hx registered told hI hd

theorem ObjectId.tellEntry_settles (h₁ : R.Serves G d c C J)
    (hls : ∀ {w}, J w → ∀ x ∈ (w.objectCell o).listeners, C x.callback) (key : String) (value : Value) (h : J w)
    (hd : w.AtLevel d c) : (o.tellEntry R key value).Settles G w fun _ w' => J w' ∧ w'.AtLevel d c := by
  simp only [ObjectId.tellEntry, ObjectId.listeners, Run.settles_bind, Run.settles_stateGet, Run.settles_pure]
  exact h₁.holding h₁ h hd fun hI hd => h₁.tellAll (fun x hx => hls h x (List.mem_of_mem_filter hx)) hI hd

/-- What the listeners of a key serve before its value changes, the change takes to what they serve after it, and those who hear
of all entries take that further. -/
theorem ObjectId.change_settles {key : String} {old new : Value} {f : List (String × Value) → List (String × Value)}
    (hG : c.onDepthExceeded = .panic → c.maxDispatchDepth ≤ d → G (.depthLimit .object d))
    (room : c.onDepthExceeded = .skip → d < c.maxDispatchDepth) (h₀ : d < c.maxDispatchDepth → R.Serves G (d + 1) c C I)
    (h₁ : d < c.maxDispatchDepth → R.Serves G (d + 1) c C J) (h₂ : d < c.maxDispatchDepth → R.Serves G (d + 1) c C K)
    (hls : ∀ {w}, I w → ∀ x ∈ (w.objectCell o).listeners, C x.callback)
    (hm : ∀ {w}, I w → J (w.modifyObject o fun c => { c with entries := f c.entries }))
    (told : d < c.maxDispatchDepth → ∀ {w}, J w → w.AtLevel (d + 1) c →
      (o.tellEntry R key new).Settles G w fun _ w' => K w' ∧ w'.AtLevel (d + 1) c)
    (h : I w) (hd : w.AtLevel d c) :
    (o.change R key old new f).Settles G w fun _ w' => K w' ∧ w'.AtLevel d c := by
  obtain ⟨rfl, rfl⟩ := hd
  refine Run.settles_nested (fun skip limit => absurd (room skip) (Nat.not_lt.2 limit)) hG fun below => ?_
  have h₀ := h₀ below
  have h₁ := h₁ below
  have h₂ := h₂ below
  have deeper : I w.deeper := h₀.calm.depth _ _ h
  have captured (topic : ObjectTopic) : ∀ x ∈ Listeners.on topic (w.deeper.objectCell o).listeners, C x.callback :=
    fun x hx => hls deeper x (List.mem_of_mem_filter hx)
  simp only [ObjectId.listeners, Run.settles_bind, Run.settles_stateGet, Run.settles_pure]
  refine (h₀.holding h₂ deeper ⟨rfl, rfl⟩ fun hI hd => ?_).imp fun _ w₁ hw₁ =>
    ⟨h₂.calm.depth _ _ hw₁.1, Nat.sub_eq_of_eq_add hw₁.2.1, hw₁.2.2⟩
  simp only [Run.settles_bind, ObjectId.modifyEntries, Run.settles_modify]
  refine (h₀.tellAll (captured _) hI hd).imp fun _ w₁ hw₁ => ?_
  exact (h₁.tellAll (captured _) (hm hw₁.1) hw₁.2).imp fun _ w₂ hw₂ => told below hw₂.1 hw₂.2

end

end LiveBindings
