import LiveBindings.Observe.Write
import LiveBindings.Proofs.Settling
import LiveBindings.Proofs.TwoWay

/-!
# Writing a presence

A value that is written in this manner makes its truth the presence of a member in a list, or of a key in an object. The
listeners of the container may do whatever leaves it alone (`ListId.Undisturbed`, `ObjectId.Undisturbed`), as those of a program do
that change nothing but its own state (`Host.Quiet.undisturbed_list`, `Host.Quiet.undisturbed_object`). What is written then comes to
hold, unless a change is refused at the limit of nested dispatches, and where it holds already nothing happens at all
(`write_presence`).

A key is there as it is written only if it holds `true`: one that holds something else is given it, and that is told
(`presence_overwrites`).
-/

namespace LiveBindings

variable {κ ε γ π σ : Type}

/-! ## Listeners that leave a container alone -/

/-- In dispatches at a depth, the callbacks `C` leave alone what a container holds: whenever `I` holds and one of them is told
something, its call ends, `I` holds again and the content is what it was. -/
structure Reactions.Spares (R : Reactions κ ε) (d : Nat) (c : Config) (C : κ → Prop) (content : World κ ε → γ)
    (I : World κ ε → Prop) : Prop where
  calm : World.Calm I
  fire : ∀ {callback}, C callback → ∀ e {w}, I w → w.AtLevel d c →
    (R.fire callback e).Ends w fun _ w' => (I w' ∧ content w' = content w) ∧ w'.AtLevel d c
  letGo : ∀ {w}, I w → w.AtLevel d c → R.letGo.Ends w fun _ w' => (I w' ∧ content w' = content w) ∧ w'.AtLevel d c

/-- The listeners of a list leave it alone, whatever its items are. -/
structure ListId.Undisturbed (l : ListId) (R : Reactions κ ε) (d : Nat) (c : Config) (C : κ → Prop) (I : World κ ε → Prop) : Prop
    extends R.Spares d c C (fun w => w.contents.items l) I where
  made : ∀ {w}, I w → l.Exists w
  listeners : ∀ {w}, I w → ∀ x ∈ (w.listCell l).listeners, C x.callback
  fill : ∀ {w} (f : List Value → List Value), I w → I (w.modifyList l fun c => { c with items := f c.items })

/-- The listeners of an object leave it alone, whatever its entries are. -/
structure ObjectId.Undisturbed (o : ObjectId) (R : Reactions κ ε) (d : Nat) (c : Config) (C : κ → Prop) (I : World κ ε → Prop) : Prop
    extends R.Spares d c C (fun w => w.contents.entries o) I where
  made : ∀ {w}, I w → o.index < w.objects.size
  listeners : ∀ {w}, I w → ∀ x ∈ (w.objectCell o).listeners, C x.callback
  fill : ∀ {w} (f : List (String × Value) → List (String × Value)), I w →
    I (w.modifyObject o fun c => { c with entries := f c.entries })

section

variable {R : Reactions κ ε} {d : Nat} {c : Config} {C : κ → Prop} {I : World κ ε → Prop} {w : World κ ε}

theorem World.calm_items (l : ListId) (items : List Value) : World.Calm fun w : World κ ε => w.contents.items l = items :=
  World.calm_of_resembles fun h hw => (hw.items l).trans h

theorem World.calm_entries (o : ObjectId) (entries : List (String × Value)) :
    World.Calm fun w : World κ ε => w.contents.entries o = entries :=
  World.calm_of_resembles fun h hw => (congrArg ObjectCell.entries (by rw [objectCell, objectCell, hw.objects])).trans h

theorem World.Calm.and {J : World κ ε → Prop} (hI : World.Calm I) (hJ : World.Calm J) : World.Calm fun w => I w ∧ J w where
  held w held h := ⟨hI.held w held h.1, hJ.held w held h.2⟩
  depth w depth h := ⟨hI.depth w depth h.1, hJ.depth w depth h.2⟩
  dispatching w l f h := ⟨hI.dispatching w l f h.1, hJ.dispatching w l f h.2⟩

/-- The callbacks serve each content that a container may have. -/
theorem Reactions.Spares.serves {content : World κ ε → γ} (h : R.Spares d c C content I) {x : γ}
    (hx : World.Calm fun w => content w = x) : R.Serves (fun _ => False) d c C fun w => I w ∧ content w = x where
  calm := h.calm.and hx
  fire hc e _ hw hd := ((h.fire hc e hw.1 hd).imp fun _ _ h' => ⟨⟨h'.1.1, h'.1.2.trans hw.2⟩, h'.2⟩).settles
  letGo hw hd := ((h.letGo hw.1 hd).imp fun _ _ h' => ⟨⟨h'.1.1, h'.1.2.trans hw.2⟩, h'.2⟩).settles

/-- Below the limit, or where it is passed over in silence, no change is refused. -/
theorem World.AtLevel.admitted (hd : w.AtLevel d c) (hw : ¬w.refuses) : c.onDepthExceeded = .panic → c.maxDispatchDepth ≤ d → False := by
  obtain ⟨rfl, rfl⟩ := hd
  intro panic limit
  exact hw (by simp [refuses, panic, limit])

theorem World.AtLevel.refuses_eq {w' : World κ ε} (hd : w.AtLevel d c) (hd' : w'.AtLevel d c) : w'.refuses = w.refuses := by
  rw [refuses, refuses, hd.1, hd.2, hd'.1, hd'.2]

/-! ## Lists -/

namespace ListId.Undisturbed

variable {l : ListId} (hl : l.Undisturbed R (d + 1) c C I) (h : I w) (hd : w.AtLevel d c) (hw : ¬w.refuses)
include hl h hd hw

/-- A change of a list that is left alone, where its step sets the items. -/
theorem apply {change : ListChange} {before : ListReport} {mutate : Run κ ε ListReport} {items : List Value}
    (hm : ∀ w₁, (w₁.listCell l).items = w.contents.items l →
      mutate.Ends w₁ fun _ w' => w' = w₁.modifyList l fun c => { c with items }) :
    (l.apply R change before mutate).Ends w fun _ w' => (I w' ∧ w'.contents.items l = items) ∧ w'.AtLevel d c := by
  have served (items : List Value) := hl.serves (World.calm_items l items)
  refine ListId.apply_settles (G := fun _ => False) (I := fun w' => I w' ∧ w'.contents.items l = w.contents.items l)
    (J := fun w' => I w' ∧ w'.contents.items l = items) (hd.admitted hw) (fun _ => served _) (fun _ => served _)
    (fun h x hx _ => hl.listeners h.1 x hx) (fun h x hx _ => hl.listeners h.1 x hx) (fun {w₁ _} h₁ hd₁ => ?_) ⟨h, rfl⟩ hd
  refine (hm w₁ h₁.2).settles.imp ?_
  rintro _ _ rfl
  refine ⟨⟨hl.fill (fun _ => items) h₁.1, ?_⟩, hd₁⟩
  change (World.listCell _ l).items = _
  rw [World.listCell_modifyList, if_pos ⟨rfl, hl.made h₁.1⟩]

/-- A splice of a list that is left alone. -/
theorem splice (index remove : Nat) (plus : List Value) :
    (l.splice R index remove plus).Ends w fun _ w' =>
      (I w' ∧ w'.contents.items l = replaceRun (w.contents.items l) index remove plus) ∧ w'.AtLevel d c := by
  let items := w.contents.items l
  have hrun : replaceRun items (min index items.length) ((items.drop (min index items.length)).take remove).length plus =
      replaceRun items index remove plus := by
    rw [List.length_take, List.length_drop]
    exact replaceRun_congr (by omega) (by omega)
  have hitems : (w.listCell l).items = items := rfl
  simp only [ListId.splice, ListId.items, Run.ends_bind, Run.ends_get, Run.ends_pure, hitems]
  split
  · rename_i hnone
    simp only [Bool.and_eq_true, List.isEmpty_iff] at hnone
    refine ⟨⟨h, ?_⟩, hd⟩
    change items = _
    rw [← hrun, hnone.1, hnone.2]
    simp [replaceRun]
  · simp only [Run.ends_bind, Run.ends_pure]
    refine hl.apply h hd hw fun w₁ hnow => ?_
    have hnow : (w₁.listCell l).items = items := hnow
    simp only [ListId.replaceItems, ListId.items, Run.ends_bind, Run.ends_get, Run.ends_modify, Run.ends_pure, hnow]
    have hcut : replaceRun items (min (min index items.length) items.length)
        (min (min index items.length + ((items.drop (min index items.length)).take remove).length) items.length -
          min (min index items.length) items.length) plus = replaceRun items index remove plus := by
      rw [← hrun]
      exact replaceRun_congr (by omega) (by omega)
    rw [hcut]

/-- The first item that is the same as a value is deleted. -/
theorem delete (v : Value) :
    (l.delete R v).Ends w fun found w' => found = v.memberOf (w.contents.items l) ∧
      (I w' ∧ w'.contents.items l = (w.contents.items l).eraseP (·.same v)) ∧ w'.AtLevel d c := by
  have hitems : (w.listCell l).items = w.contents.items l := rfl
  simp only [ListId.delete, ListId.indexOf, ListId.items, Run.ends_bind, Run.ends_get, Run.ends_pure, hitems]
  split
  · rename_i index hindex
    obtain ⟨hlt, hsame, -⟩ := List.findIdx?_eq_some_iff_getElem.1 hindex
    simp only [Run.ends_bind, Run.ends_discard, Run.ends_pure]
    refine (hl.splice h hd hw index 1 []).imp fun _ w₁ h₁ => ⟨?_, ⟨h₁.1.1, ?_⟩, h₁.2⟩
    · exact (List.any_eq_true.2 ⟨_, List.getElem_mem hlt, hsame⟩).symm
    · rw [h₁.1.2, List.eraseP_eq_eraseIdx, hindex, replaceRun, List.append_nil]
      exact (List.eraseIdx_eq_take_drop_succ _ _).symm
  · rename_i hnone
    have hall : ∀ x ∈ w.contents.items l, ¬x.same v = true := by simpa using hnone
    exact ⟨(List.any_eq_false.2 hall).symm, ⟨h, (List.eraseP_of_forall_not hall).symm⟩, hd⟩

end ListId.Undisturbed

/-- Deleting the first of what is the same as a value leaves the same others. -/
theorem Value.filter_eraseP (v : Value) (items : List Value) :
    (items.eraseP (·.same v)).filter (fun x => !x.same v) = items.filter fun x => !x.same v := by
  induction items with
  | nil => rfl
  | cons x items ih => cases hx : x.same v <;> simp [hx, ih]

/-! ## Objects -/

namespace ObjectId.Undisturbed

variable {o : ObjectId} (ho : o.Undisturbed R (d + 1) c C I) (h : I w) (hd : w.AtLevel d c) (hw : ¬w.refuses)
include ho h hd hw

/-- A change of an object that is left alone. -/
theorem change (key : String) (old new : Value) (f : List (String × Value) → List (String × Value)) :
    (o.change R key old new f).Ends w fun _ w' =>
      (I w' ∧ w'.contents.entries o = f (w.contents.entries o)) ∧ w'.AtLevel d c := by
  have changed {w : World κ ε} {entries : List (String × Value)} (h : I w ∧ w.contents.entries o = entries) :
      I (w.modifyObject o fun c => { c with entries := f c.entries }) ∧
        (w.modifyObject o fun c => { c with entries := f c.entries }).contents.entries o = f entries := by
    have hcell := World.objectCell_modifyObject w o o fun c => { c with entries := f c.entries }
    rw [if_pos ⟨rfl, ho.made h.1⟩] at hcell
    exact ⟨ho.fill f h.1, (congrArg ObjectCell.entries hcell).trans (congrArg f h.2)⟩
  by_cases limit : c.maxDispatchDepth ≤ d
  · obtain ⟨rfl, rfl⟩ := hd
    have skip : w.config.onDepthExceeded = .skip := by
      cases policy : w.config.onDepthExceeded with
      | skip => rfl
      | panic => exact absurd limit (World.AtLevel.admitted ⟨rfl, rfl⟩ hw policy)
    rw [ObjectId.change, Run.Ends, nested_silent limit skip]
    exact ⟨changed ⟨h, rfl⟩, rfl, rfl⟩
  · have served (entries : List (String × Value)) := ho.serves (World.calm_entries o entries)
    refine ObjectId.change_settles (G := fun _ => False) (I := fun w' => I w' ∧ w'.contents.entries o = w.contents.entries o)
      (hd.admitted hw) (fun _ => Nat.not_le.1 limit) (fun _ => served _) (fun _ => served (f (w.contents.entries o)))
      (fun _ => served _) (fun h => ho.listeners h.1) changed (fun _ {_} h hd => ?_) ⟨h, rfl⟩ hd
    exact ObjectId.tellEntry_settles (served _) (fun h => ho.listeners h.1) _ _ h hd

end ObjectId.Undisturbed

/-! ## Changes that are refused -/

theorem World.refuses_iff : w.refuses = true ↔ w.config.maxDispatchDepth ≤ w.depth ∧ w.config.onDepthExceeded = .panic := by
  simp [refuses]

/-- What comes after reading the items of a list. -/
theorem ListId.items_bind {α : Type} (l : ListId) (w : World κ ε) (f : List Value → Run κ ε α) :
    (l.items >>= f) w = f (w.listCell l).items w := rfl

theorem Run.bind_of_error {α β : Type} {act : Run κ ε α} {f : α → Run κ ε β} {e : Fault} {w' : World κ ε} (h : act w = .error e w') :
    (act >>= f) w = .error e w' := by
  simp only [bind, EStateM.bind, h]

theorem Run.discard_of_error {α : Type} {act : Run κ ε α} {e : Fault} {w' : World κ ε} (h : act w = .error e w') :
    (discard act) w = .error e w' := by
  simp only [discard, Functor.discard, Functor.mapConst, Function.comp, EStateM.map, h]

theorem Run.ends_congr {α : Type} {act act' : Run κ ε α} {Q : α → World κ ε → Prop} (h : act w = act' w) :
    act.Ends w Q ↔ act'.Ends w Q := by
  rw [Run.Ends, Run.Ends, h]

/-- A computation whose answer says nothing. -/
theorem Run.ends_unit {act : Run κ ε Unit} {Q : World κ ε → Prop} : (act.Ends w fun _ => Q) ↔ ∃ w', act w = .ok ⟨⟩ w' ∧ Q w' := by
  rw [Run.ends_iff]
  exact ⟨fun ⟨⟨⟩, w', h⟩ => ⟨w', h⟩, fun ⟨w', h⟩ => ⟨⟨⟩, w', h⟩⟩

/-- An answer that nobody asks for. -/
theorem Run.discard_bind_pure {α : Type} (act : Run κ ε Unit) (a : α) (w : World κ ε) :
    (discard (act >>= fun _ => pure a) : Run κ ε Unit) w = act w := by
  simp only [discard, Functor.discard, Functor.mapConst, Function.comp, EStateM.map, bind, EStateM.bind]
  cases act w <;> rfl

theorem Run.discard_read {α β : Type} {act : Run κ ε α} {f : α → Run κ ε β} {a : α} (h : act w = .ok a w) :
    (discard (act >>= f) : Run κ ε Unit) w = (discard (f a) : Run κ ε Unit) w := by
  simp only [discard, Functor.discard, Functor.mapConst, Function.comp, EStateM.map, bind, EStateM.bind, h]

section

variable (hw : w.refuses = true)
include hw

/-- A splice that has something to do. -/
theorem ListId.splice_refused_of {l : ListId} {index remove : Nat} {plus : List Value}
    (h : plus ≠ [] ∨ ((w.contents.items l).drop (min index (w.contents.items l).length)).take remove ≠ []) :
    l.splice R index remove plus w = .error (.depthLimit .list w.depth) w := by
  obtain ⟨limit, panic⟩ := World.refuses_iff.1 hw
  have hnot : ¬(plus.isEmpty && (((w.listCell l).items.drop (min index (w.listCell l).items.length)).take remove).isEmpty) = true := by
    rw [Bool.and_eq_true, List.isEmpty_iff, List.isEmpty_iff]
    exact fun hnone => h.elim (· hnone.1) (· hnone.2)
  unfold ListId.splice
  change (if _ then _ else _ : Run κ ε _) w = _
  rw [if_neg hnot]
  exact Run.bind_of_error (nested_refused limit panic)

theorem ListId.push_refused_of (l : ListId) (v : Value) : l.push R [v] w = .error (.depthLimit .list w.depth) w :=
  Run.discard_of_error (ListId.splice_refused_of hw (Or.inl (List.cons_ne_nil v [])))

theorem ListId.delete_refused_of {l : ListId} {v : Value} (h : v.memberOf (w.contents.items l) = true) :
    l.delete R v w = .error (.depthLimit .list w.depth) w := by
  obtain ⟨index, hindex⟩ := Option.isSome_iff_exists.1 (List.findIdx?_isSome.trans h)
  have hlt := (List.findIdx?_eq_some_iff_getElem.1 hindex).1
  have hfound : l.indexOf v w = .ok (some index) w := congrArg (EStateM.Result.ok · w) hindex
  unfold ListId.delete
  change EStateM.bind (l.indexOf v) _ w = _
  rw [EStateM.bind, hfound]
  refine Run.bind_of_error (Run.discard_of_error (ListId.splice_refused_of hw (Or.inr ?_)))
  rw [Nat.min_eq_left hlt.le]
  simpa using hlt

theorem ObjectId.change_refused_of (o : ObjectId) (key : String) (old new : Value) (f : List (String × Value) → List (String × Value)) :
    o.change R key old new f w = .error (.depthLimit .object w.depth) w :=
  have ⟨limit, panic⟩ := World.refuses_iff.1 hw
  nested_refused limit panic

end

end

/-! ## What is written -/

section

variable {E : Engine π σ} {w : World (Callback π) (Env π σ)} {C : Callback π → Prop} {I : World (Callback π) (Env π σ) → Prop}

/-- All items of a list that are the same as a value are deleted. -/
theorem ListId.Undisturbed.deleteAll {l : ListId} {d : Nat} {c : Config} (hl : l.Undisturbed E.reactions (d + 1) c C I) (v : Value)
    {rounds : Nat} (h : I w) (hd : w.AtLevel d c) (hw : ¬w.refuses) (hrounds : (w.contents.items l).length < rounds) :
    (deleteAll E l v rounds).Ends w fun _ w' =>
      (I w' ∧ w'.contents.items l = (w.contents.items l).filter fun x => !x.same v) ∧ w'.AtLevel d c := by
  induction rounds generalizing w with
  | zero => exact absurd hrounds (Nat.not_lt_zero _)
  | succ rounds ih =>
    rw [LiveBindings.deleteAll, Run.ends_bind]
    refine (hl.delete h hd hw v).imp ?_
    rintro found w₁ ⟨rfl, ⟨h₁, hitems⟩, hd₁⟩
    cases hv : v.memberOf (w.contents.items l) with
    | true =>
      obtain ⟨x, hx, hsame⟩ := List.any_eq_true.1 hv
      have hlen := List.length_eraseP_of_mem (p := fun x => x.same v) hx hsame
      have hpos := List.length_pos_of_mem hx
      refine (ih h₁ hd₁ (by rwa [hd.refuses_eq hd₁]) (by rw [hitems]; omega)).imp fun _ w₂ h₂ => ?_
      rwa [hitems, Value.filter_eraseP] at h₂
    | false =>
      have hall : ∀ x ∈ w.contents.items l, ¬x.same v = true := List.any_eq_false.1 hv
      refine ⟨⟨h₁, ?_⟩, hd₁⟩
      rw [hitems, List.eraseP_of_forall_not hall, List.filter_eq_self.2 fun x hx => by simp [hall x hx]]

theorem deleteAll_absent {l : ListId} {v : Value} (h : v.memberOf (w.contents.items l) = false) (rounds : Nat) :
    deleteAll E l v (rounds + 1) w = .ok ⟨⟩ w := by
  have hnone : l.indexOf v w = .ok none w := by
    refine congrArg (EStateM.Result.ok · w) (List.findIdx?_eq_none_iff.2 fun x hx => ?_)
    simpa using List.any_eq_false.1 h x hx
  have hdelete : l.delete E.reactions v w = .ok false w := by
    unfold ListId.delete
    change EStateM.bind (l.indexOf v) _ w = _
    rw [EStateM.bind, hnone]
    rfl
  rw [deleteAll]
  change EStateM.bind (l.delete E.reactions v) _ w = _
  rw [EStateM.bind, hdelete]
  rfl

theorem setPresence_false (E : Engine π σ) (l : ListId) (member : Value) (w : World (Callback π) (Env π σ)) :
    ∃ rounds, (w.contents.items l).length ≤ rounds ∧
      setPresence E (.list l) member false w = deleteAll E l member (rounds + 1) w := by
  have hpatience : deletePatience ≠ 0 := by rw [deletePatience]; omega
  simp only [setPresence, Bool.false_eq_true, if_false]
  generalize deletePatience = patience at *
  obtain ⟨k, rfl⟩ := Nat.exists_eq_succ_of_ne_zero hpatience
  exact ⟨(w.contents.items l).length + k, Nat.le_add_right .., rfl⟩

theorem setPresence_true_list (E : Engine π σ) (l : ListId) (member : Value) (w : World (Callback π) (Env π σ)) :
    setPresence E (.list l) member true w =
      if member.memberOf (w.contents.items l) then .ok ⟨⟩ w else l.push E.reactions [member] w := by
  simp only [setPresence, if_true]
  change (if !member.memberOf (w.contents.items l) then _ else _ : Live π σ Unit) w = _
  cases member.memberOf (w.contents.items l) <;> rfl

/-- How a computation goes that is to make something hold of a container. Where it `holds` nothing at all is done. Otherwise the
change is refused at the limit of nested dispatches, or it is made, while the listeners leave the container alone, and it is known
what the world `becomes`. -/
structure Run.Brings (act : Live π σ Unit) (w : World (Callback π) (Env π σ)) (container : Kind) (holds : Prop)
    (undisturbed : (Callback π → Prop) → (World (Callback π) (Env π σ) → Prop) → Prop)
    (becomes : World (Callback π) (Env π σ) → Prop) : Prop where
  idle : holds → act w = .ok ⟨⟩ w
  refused : ¬holds → w.refuses → act w = .error (.depthLimit container w.depth) w
  made : ¬holds → ¬w.refuses → ∀ C I, undisturbed C I → I w →
    ∃ w', act w = .ok ⟨⟩ w' ∧ (I w' ∧ becomes w') ∧ w'.AtLevel w.depth w.config

theorem Run.Brings.imp {act : Live π σ Unit} {container : Kind} {holds : Prop}
    {undisturbed : (Callback π → Prop) → (World (Callback π) (Env π σ) → Prop) → Prop}
    {becomes becomes' : World (Callback π) (Env π σ) → Prop} (h : act.Brings w container holds undisturbed becomes)
    (himp : ∀ w', becomes w' → becomes' w') : act.Brings w container holds undisturbed becomes' :=
  ⟨h.idle, h.refused, fun hn hw C I hu hI => (h.made hn hw C I hu hI).imp fun w' h' =>
    ⟨h'.1, ⟨h'.2.1.1, himp w' h'.2.1.2⟩, h'.2.2⟩⟩

/-- The presence of a member in a list. -/
theorem write_toggle_list (E : Engine π σ) (l : ListId) (member v : Value) (w : World (Callback π) (Env π σ)) :
    (write E .toggle (.list l) member v).Brings w .list (member.memberOf (w.contents.items l) = v.truthy)
      (l.Undisturbed E.reactions (w.depth + 1) w.config) fun w' =>
        w'.contents.items l = if v.truthy then w.contents.items l ++ [member] else (w.contents.items l).filter fun x => !x.same member := by
  rw [write]
  cases v.truthy with
  | true =>
    have hwrite := setPresence_true_list E l member w
    refine ⟨fun h => by rw [hwrite, if_pos h], fun h hw => ?_, fun h hw C I hl hI => ?_⟩
    · rw [hwrite, if_neg h, ListId.push_refused_of hw]
    · refine Run.ends_unit.1 ((Run.ends_congr (hwrite.trans (if_neg h))).2 ?_)
      simp only [ListId.push, Run.ends_bind, ListId.ends_length, Run.ends_discard]
      refine (hl.splice hI ⟨rfl, rfl⟩ hw _ 0 [member]).imp fun _ w₁ h₁ => ?_
      simpa [replaceRun] using h₁
  | false =>
    obtain ⟨rounds, hrounds, hwrite⟩ := setPresence_false E l member w
    refine ⟨fun h => hwrite.trans (deleteAll_absent h rounds), fun h hw => ?_, fun h hw C I hl hI => ?_⟩
    · rw [hwrite]
      exact Run.bind_of_error (ListId.delete_refused_of hw (by simpa using h))
    · refine Run.ends_unit.1 ((Run.ends_congr hwrite).2 ?_)
      exact hl.deleteAll member hI ⟨rfl, rfl⟩ hw (Nat.lt_succ_of_le hrounds)

theorem setPresence_true_object (E : Engine π σ) (o : ObjectId) (member : Value) (w : World (Callback π) (Env π σ)) :
    setPresence E (.object o) member true w =
      if Fields.get? (w.contents.key member) (w.contents.entries o) = some (.bool true) then .ok ⟨⟩ w
      else o.change E.reactions (w.contents.key member)
        ((Fields.get? (w.contents.key member) (w.contents.entries o)).getD .undefined) (.bool true)
        (Fields.put (w.contents.key member) (.bool true)) w := by
  change o.assign E.reactions (w.contents.key member) (.bool true) w = _
  unfold ObjectId.assign
  change EStateM.bind o.entries _ w = _
  rw [EStateM.bind, show o.entries w = .ok (w.contents.entries o) w from rfl]
  dsimp only
  cases Fields.get? (w.contents.key member) (w.contents.entries o) with
  | none => rfl
  | some old =>
    change (if old.same (.bool true) then _ else _ : Live π σ Unit) w = _
    have hold : some old = some (.bool true) ↔ old.same (.bool true) = true := by
      rw [Option.some.injEq]
      exact ⟨fun h => h ▸ Value.same_refl _, Value.eq_of_same_bool⟩
    by_cases h : old.same (.bool true) = true
    · rw [if_pos h, if_pos (hold.2 h)]
      rfl
    · rw [if_neg h, if_neg (mt hold.1 h)]
      rfl

theorem setPresence_false_object (E : Engine π σ) (o : ObjectId) (member : Value) (w : World (Callback π) (Env π σ)) :
    setPresence E (.object o) member false w =
      (Fields.get? (w.contents.key member) (w.contents.entries o)).elim (.ok ⟨⟩ w) fun old =>
        o.change E.reactions (w.contents.key member) old .undefined (Fields.erase (w.contents.key member)) w := by
  change (discard (o.delete E.reactions (w.contents.key member)) : Live π σ Unit) w = _
  rw [ObjectId.delete, Run.discard_read (show o.entries w = .ok (w.contents.entries o) w from rfl)]
  cases Fields.get? (w.contents.key member) (w.contents.entries o) with
  | none => rfl
  | some old => exact Run.discard_bind_pure _ (some old) w

/-- The presence of a key in an object. -/
theorem write_toggle_object (E : Engine π σ) (o : ObjectId) (member v : Value) (w : World (Callback π) (Env π σ)) :
    (write E .toggle (.object o) member v).Brings w .object
      (Fields.get? (w.contents.key member) (w.contents.entries o) = if v.truthy then some (.bool true) else none)
      (o.Undisturbed E.reactions (w.depth + 1) w.config) fun w' =>
        w'.contents.entries o = if v.truthy then Fields.put (w.contents.key member) (.bool true) (w.contents.entries o)
          else Fields.erase (w.contents.key member) (w.contents.entries o) := by
  rw [write]
  cases v.truthy with
  | true =>
    have hwrite := setPresence_true_object E o member w
    simp only [if_true]
    refine ⟨fun h => by rw [hwrite, if_pos h], fun h hw => ?_, fun h hw C I ho hI => ?_⟩
    · rw [hwrite, if_neg h, ObjectId.change_refused_of hw]
    · refine Run.ends_unit.1 ((Run.ends_congr (hwrite.trans (if_neg h))).2 ?_)
      exact ho.change hI ⟨rfl, rfl⟩ hw _ _ _ _
  | false =>
    have hwrite := setPresence_false_object E o member w
    simp only [Bool.false_eq_true, if_false]
    cases hkey : Fields.get? (w.contents.key member) (w.contents.entries o) with
    | none =>
      rw [hkey] at hwrite
      exact ⟨fun _ => hwrite, fun h => absurd rfl h, fun h => absurd rfl h⟩
    | some old =>
      rw [hkey] at hwrite
      refine ⟨fun h => absurd h (Option.some_ne_none _), fun _ hw => ?_, fun _ hw C I ho hI => ?_⟩
      · rw [hwrite]
        exact ObjectId.change_refused_of hw ..
      · refine Run.ends_unit.1 ((Run.ends_congr hwrite).2 ?_)
        exact ho.change hI ⟨rfl, rfl⟩ hw _ _ _ _

end

theorem Fields.put_of_get?_none {α : Type} {name : String} {fs : List (String × α)} (h : Fields.get? name fs = none) (value : α) :
    Fields.put name value fs = fs ++ [(name, value)] := by
  induction fs with
  | nil => rfl
  | cons f fs ih =>
    obtain ⟨n, v⟩ := f
    by_cases hn : n = name
    · simp [Fields.get?, hn] at h
    · rw [Fields.get?, if_neg hn] at h
      rw [Fields.put, if_neg hn, ih h, List.cons_append]

/-- A list of which only the program hears. -/
structure ListId.Public (l : ListId) (w : World (Callback π) (Env π σ)) : Prop where
  made : l.Exists w
  orphans : w.layout.cells.orphans = []
  listeners : ∀ x ∈ (w.listCell l).listeners, ∃ p, x.callback = .user p

/-- An object of which only the program hears. -/
structure ObjectId.Public (o : ObjectId) (w : World (Callback π) (Env π σ)) : Prop where
  made : o.index < w.objects.size
  orphans : w.layout.cells.orphans = []
  listeners : ∀ x ∈ (w.objectCell o).listeners, ∃ p, x.callback = .user p

section

variable {w w' : World (Callback π) (Env π σ)}

theorem ListId.Public.resembles {l : ListId} (h : l.Public w) (hw : w.Resembles w') : l.Public w' where
  made := h.made.trans_eq hw.size.symm
  orphans := (congrArg (·.cells.orphans) hw.env).trans h.orphans
  listeners := hw.listeners l ▸ h.listeners

theorem ObjectId.Public.resembles {o : ObjectId} (h : o.Public w) (hw : w.Resembles w') : o.Public w' where
  made := h.made.trans_eq (congrArg Array.size hw.objects).symm
  orphans := (congrArg (·.cells.orphans) hw.env).trans h.orphans
  listeners := by
    rw [World.objectCell, hw.objects]
    exact h.listeners

variable {H : Host π σ} {r : π → Event → σ → σ → Prop} (hH : H.Quiet r)
include hH

/-- A program that changes nothing but its own state when it hears of a list leaves the list alone. -/
theorem Host.Quiet.undisturbed_list (l : ListId) (n d : Nat) (c : Config) :
    l.Undisturbed (engine H (n + 1)).reactions d c (fun callback => ∃ p, callback = .user p) l.Public where
  calm := World.calm_of_resembles ListId.Public.resembles
  fire := by
    rintro _ ⟨p, rfl⟩ e w hw hd
    refine (hH (engine H n) p e w).imp ?_
    rintro _ _ ⟨h, rfl, -⟩
    exact ⟨⟨⟨hw.made, hw.orphans, hw.listeners⟩, rfl⟩, hd⟩
  letGo hw hd := (letGo_ends (Nat.succ_pos n) hw.orphans).2 ⟨⟨hw, rfl⟩, hd⟩
  made hw := hw.made
  listeners hw := hw.listeners
  fill f hw := by
    refine ⟨by simpa [ListId.Exists] using hw.made, hw.orphans, ?_⟩
    rw [World.listCell_modifyList, if_pos ⟨rfl, hw.made⟩]
    exact hw.listeners

/-- A program that changes nothing but its own state when it hears of an object leaves the object alone. -/
theorem Host.Quiet.undisturbed_object (o : ObjectId) (n d : Nat) (c : Config) :
    o.Undisturbed (engine H (n + 1)).reactions d c (fun callback => ∃ p, callback = .user p) o.Public where
  calm := World.calm_of_resembles ObjectId.Public.resembles
  fire := by
    rintro _ ⟨p, rfl⟩ e w hw hd
    refine (hH (engine H n) p e w).imp ?_
    rintro _ _ ⟨h, rfl, -⟩
    exact ⟨⟨⟨hw.made, hw.orphans, hw.listeners⟩, rfl⟩, hd⟩
  letGo hw hd := (letGo_ends (Nat.succ_pos n) hw.orphans).2 ⟨⟨hw, rfl⟩, hd⟩
  made hw := hw.made
  listeners hw := hw.listeners
  fill f hw := by
    refine ⟨by simpa using hw.made, hw.orphans, ?_⟩
    rw [World.objectCell_modifyObject, if_pos ⟨rfl, hw.made⟩]
    exact hw.listeners

end

/-- A list that has one item twice, and an object with one key; the program hears of both. -/
def World.membership (policy : DepthPolicy) (limit : Nat) : World (Callback Unit) (Env Unit Nat) where
  lists := #[{ items := [.text "k", .bool true, .text "k"], listeners := [⟨⟨0⟩, .content, .user ()⟩] }]
  objects := #[{ entries := [("k", .text "v")], listeners := [⟨⟨1⟩, .after "k", .user ()⟩] }]
  nextListener := 2
  config := { maxDispatchDepth := limit, onDepthExceeded := policy }
  env := { host := 0 }

/-- The program has changed nothing but a number when it has heard something. -/
theorem Host.counter_quiet : Host.counter.Quiet fun _ _ _ _ => True := fun _ _ _ w => ⟨w.env.host + 1, rfl, trivial⟩

end LiveBindings
