import LiveBindings.Proofs.Phases

/-!
# Programs that listen to containers

A program changes containers, registers and removes listeners, and does the same whenever one of its listeners is called
(`Errand`). It keeps a chronicle of it. Whatever it does, and whatever its listeners do inside each other, the chronicle goes on
by what `Growth.Program` allows: each pass calls exactly the listeners who were registered when it captured them and have not
been removed before their turn, in the order of registration, once in each round; and at every moment it accounts for the
listeners that there are (`Errand.run_lawful`). This holds of runs that are abandoned up to where they are, and of those that go
on after a part of them was abandoned.
-/

namespace LiveBindings

variable {β τ : Type}

/-! ## Registering and removing -/

namespace Channel

variable {κ ε : Type}

def register (callback : κ) : Channel → Run κ ε ListenerId
  | list l topic => l.listen topic callback
  | object o topic => o.listen topic callback

def unregister (id : ListenerId) : Channel → Run κ ε Unit
  | list l topic => l.unlisten topic id
  | object o topic => o.unlisten topic id

end Channel

/-- Notes what happened. -/
def note (what : Occurrence) : Run (ListenerId × β) (Diary τ) Unit := modify (World.noted what)

/-- Notes that something begins, does it, and notes that it is over, also when it was abandoned. -/
def noting {α : Type} (first last : Occurrence) (act : Run (ListenerId × β) (Diary τ) α) : Run (ListenerId × β) (Diary τ) α := do
  note first
  restoring (World.noted last) act

/-- Goes on after a computation whether it was abandoned or not. -/
def attempting {κ ε α : Type} (act : Run κ ε α) : Run κ ε Unit := fun w =>
  match act w with
  | .ok _ w' | .error _ w' => .ok ⟨⟩ w'

/-- Where a computation ends or is abandoned, and whether it ends. -/
def Run.left {κ ε α : Type} (act : Run κ ε α) (w : World κ ε) : World κ ε × Bool :=
  match act w with
  | .ok _ w' => (w', true)
  | .error _ w' => (w', false)

/-! ## Programs -/

/-- What a program does, one thing after the other; `β` are its callbacks and `τ` is its own state. It may go on as it sees fit
after every answer and wherever it looks at the world. -/
inductive Errand (β τ : Type)
  | done
  | giveUp (e : Fault)
  | change (op : Operation (ListenerId × β) (Diary τ)) (next : op.Answer → Errand β τ)
  /-- Registers a listener on a container that has been made. -/
  | listen (c : Channel) (callback : β) (next : ListenerId → Errand β τ)
  | unlisten (c : Channel) (id : ListenerId) (next : Errand β τ)
  | makeList (items : List Value) (next : ListId → Errand β τ)
  | makeObject (entries : List (String × Value)) (next : ObjectId → Errand β τ)
  /-- Sets the limit on nested dispatches and what happens there. -/
  | configure (config : Config) (next : Errand β τ)
  | update (f : τ → τ) (next : Errand β τ)
  | look (next : Chronicled β τ → Errand β τ)
  /-- Does something that may be abandoned, and then goes on in any case. -/
  | attempt (inner next : Errand β τ)

namespace Errand

def run (R : Reactions (ListenerId × β) (Diary τ)) : Errand β τ → Run (ListenerId × β) (Diary τ) Unit
  | done => pure ()
  | giveUp e => throw e
  | change op next => do
    let w ← get
    let a ← noting (.begun (op.schedule w)) .ended (op.run R)
    run R (next a)
  | listen c callback next => do
    let w ← get
    if c.isMade w then
      let id ← c.register (⟨w.nextListener⟩, callback)
      note (.added c id)
    run R (next ⟨w.nextListener⟩)
  | unlisten c id next => do
    c.unregister id
    note (.removed c id)
    run R next
  | makeList items next => do
    let l ← ListId.create items
    run R (next l)
  | makeObject entries next => do
    let o ← ObjectId.create entries
    run R (next o)
  | configure config next => do
    modify fun w => { w with config }
    run R next
  | update f next => do
    modify fun w => { w with env := { w.env with own := f w.env.own } }
    run R next
  | look next => do
    let w ← get
    run R (next w)
  | attempt inner next => do
    attempting (run R inner)
    run R next

/-- Callbacks run their errands, at most `nesting` of them inside each other. -/
def reactions (body : ListenerId × β → Event → Errand β τ) (nesting : Nat) : Reactions (ListenerId × β) (Diary τ) where
  fire x e := noting (.called x.1 e.index?) (.returned x.1) <|
    match nesting with
    | 0 => throw .exhausted
    | nesting + 1 => (body x e).run (reactions body nesting)

end Errand

/-! ## What may happen in a program -/

namespace Growth

/-- What may happen while a program runs, when `call` is what may happen while one of its callbacks is called. -/
inductive Program (call : Growth) : Chronicle → Chronicle → Bool → Prop
  | rest (h : Chronicle) : Program call h h true
  | giveUp (h : Chronicle) : Program call h h false
  | added {c id counts h h' whole} (new : id ∉ Chronicle.ids h) (next : Program call (⟨.added c id, counts⟩ :: h) h' whole) :
    Program call h h' whole
  | removed {c id counts h h' whole} (next : Program call (⟨.removed c id, counts⟩ :: h) h' whole) : Program call h h' whole
  | change {s h h₁ h' whole} (changed : around (.begun s) .ended (change call s) h h₁ true) (next : Program call h₁ h' whole) :
    Program call h h' whole
  | cut {s h h'} (changed : around (.begun s) .ended (change call s) h h' false) : Program call h h' false
  | attempt {h h₁ h' part whole} (inner : Program call h h₁ part) (next : Program call h₁ h' whole) : Program call h h' whole

/-- What may happen in a call with at most so many calls inside. -/
def calls : Nat → Growth
  | 0 => broken
  | nesting + 1 => Program (calls nesting)

end Growth

/-- What becomes of a world by a run: its passes call exactly the right listeners, and the listeners are accounted for at every
moment of it and now. -/
structure World.Lawful (nesting : Nat) (w w' : Chronicled β τ) (whole : Bool) : Prop where
  passes : Growth.Program (Growth.calls nesting) w.chronicle w'.chronicle whole
  moments : ∀ m h, m :: h <:+ w'.chronicle → Chronicle.Accounts (m :: h) m.counts
  now : w'.chronicle.Accounts w'.counts

/-! ## The chronicle is kept -/

section

variable {κ ε : Type}

theorem Listeners.on_append {T : Type} [DecidableEq T] (topic : T) (ls : List (Listener T κ)) (x : Listener T κ) :
    Listeners.on topic (ls ++ [x]) = Listeners.on topic ls ++ if x.topic = topic then [x] else [] := by
  rw [on, List.filter_append, on, List.filter_singleton]
  split <;> simp_all

theorem Listeners.on_remove {T : Type} [DecidableEq T] (topic topic' : T) (id : ListenerId) (ls : List (Listener T κ)) :
    Listeners.on topic' (Listeners.remove topic id ls) =
      if topic = topic' then (Listeners.on topic' ls).filter (·.id ≠ id) else Listeners.on topic' ls := by
  rw [on, remove, List.filter_filter]
  split
  · rename_i h
    subst h
    rw [on, List.filter_filter]
    refine List.filter_congr fun x _ => ?_
    by_cases hx : x.topic = topic <;> simp [hx]
  · rename_i h
    refine List.filter_congr fun x _ => ?_
    by_cases hx : x.topic = topic'
    · simp [hx, Ne.symm h]
    · simp [hx]

/-- A listener is registered under the next number, at the end of its topic. -/
theorem Channel.register_spec (c : Channel) (callback : κ) (w : World κ ε) :
    ∃ w', c.register callback w = .ok ⟨w.nextListener⟩ w' ∧ w'.nextListener = w.nextListener + 1 ∧ w'.env = w.env ∧
      ∀ c', w'.audience c' =
        if c = c' ∧ c.isMade w then w.audience c' ++ [(⟨w.nextListener⟩, callback)] else w.audience c' := by
  cases c with
  | list l topic =>
    refine ⟨_, rfl, rfl, rfl, fun c' => ?_⟩
    cases c' with
    | object o topic' =>
      rw [if_neg (by simp)]
      rfl
    | list l' topic' =>
      simp only [World.audience, World.listCell_modifyList, Channel.isMade, Channel.list.injEq, decide_eq_true_eq]
      by_cases hl : l' = l ∧ l.index < w.lists.size
      · obtain ⟨rfl, hmade⟩ := hl
        rw [if_pos ⟨rfl, hmade⟩, Listeners.on_append, List.map_append]
        by_cases ht : topic = topic'
        · simp [ht, hmade, World.listCell]
        · simp [ht, World.listCell]
      · rw [if_neg hl, if_neg fun h => hl ⟨h.1.1.symm, h.2⟩]
        rfl
  | object o topic =>
    refine ⟨_, rfl, rfl, rfl, fun c' => ?_⟩
    cases c' with
    | list l topic' =>
      rw [if_neg (by simp)]
      rfl
    | object o' topic' =>
      simp only [World.audience, World.objectCell_modifyObject, Channel.isMade, Channel.object.injEq, decide_eq_true_eq]
      by_cases ho : o' = o ∧ o.index < w.objects.size
      · obtain ⟨rfl, hmade⟩ := ho
        rw [if_pos ⟨rfl, hmade⟩, Listeners.on_append, List.map_append]
        by_cases ht : topic = topic'
        · simp [ht, hmade, World.objectCell]
        · simp [ht, World.objectCell]
      · rw [if_neg ho, if_neg fun h => ho ⟨h.1.1.symm, h.2⟩]
        rfl

/-- A listener is removed from its topic. -/
theorem Channel.unregister_spec (c : Channel) (id : ListenerId) (w : World κ ε) :
    ∃ w', c.unregister id w = .ok ⟨⟩ w' ∧ w'.nextListener = w.nextListener ∧ w'.env = w.env ∧
      ∀ c', w'.audience c' = if c = c' then (w.audience c').filter (·.1 ≠ id) else w.audience c' := by
  cases c with
  | list l topic =>
    refine ⟨_, rfl, rfl, rfl, fun c' => ?_⟩
    cases c' with
    | object o topic' =>
      rw [if_neg (by simp)]
      rfl
    | list l' topic' =>
      simp only [World.audience, World.listCell_modifyList, Channel.list.injEq]
      by_cases hl : l' = l ∧ l.index < w.lists.size
      · rw [if_pos hl, Listeners.on_remove, hl.1]
        by_cases ht : topic = topic' <;> simp [ht, List.filter_map, Function.comp_def]
      · rw [if_neg hl]
        split
        · rename_i h
          obtain ⟨rfl, rfl⟩ := h
          have hnone : (w.listCell l).listeners = [] := by
            rw [World.listCell, Array.getD_eq_getD_getElem?, Array.getElem?_eq_none (by simpa using hl)]
            rfl
          rw [hnone]
          rfl
        · rfl
  | object o topic =>
    refine ⟨_, rfl, rfl, rfl, fun c' => ?_⟩
    cases c' with
    | list l topic' =>
      rw [if_neg (by simp)]
      rfl
    | object o' topic' =>
      simp only [World.audience, World.objectCell_modifyObject, Channel.object.injEq]
      by_cases ho : o' = o ∧ o.index < w.objects.size
      · rw [if_pos ho, Listeners.on_remove, ho.1]
        by_cases ht : topic = topic' <;> simp [ht, List.filter_map, Function.comp_def]
      · rw [if_neg ho]
        split
        · rename_i h
          obtain ⟨rfl, rfl⟩ := h
          have hnone : (w.objectCell o).listeners = [] := by
            rw [World.objectCell, Array.getD_eq_getD_getElem?, Array.getElem?_eq_none (by simpa using ho)]
            rfl
          rw [hnone]
          rfl
        · rfl

theorem World.modifyList_same {w : World κ ε} {l : ListId} {f : ListCell κ → ListCell κ}
    (h : f (w.listCell l) = w.listCell l) : w.modifyList l f = w := by
  have : w.lists.modify l.index f = w.lists := by
    refine Array.ext (by simp) fun i hi _ => ?_
    rw [Array.getElem_modify]
    split
    · rename_i he
      subst he
      have hcell : w.listCell l = w.lists[l.index] := by
        rw [World.listCell, Array.getD_eq_getD_getElem?, Array.getElem?_eq_getElem (by simpa using hi)]
        rfl
      rwa [hcell] at h
    · rfl
  rw [World.modifyList, this]

theorem World.modifyObject_same {w : World κ ε} {o : ObjectId} {f : ObjectCell κ → ObjectCell κ}
    (h : f (w.objectCell o) = w.objectCell o) : w.modifyObject o f = w := by
  have : w.objects.modify o.index f = w.objects := by
    refine Array.ext (by simp) fun i hi _ => ?_
    rw [Array.getElem_modify]
    split
    · rename_i he
      subst he
      have hcell : w.objectCell o = w.objects[o.index] := by
        rw [World.objectCell, Array.getD_eq_getD_getElem?, Array.getElem?_eq_getElem (by simpa using hi)]
        rfl
      rwa [hcell] at h
    · rfl
  rw [World.modifyObject, this]

theorem Listeners.remove_unknown {T : Type} [DecidableEq T] {topic : T} {id : ListenerId} {ls : List (Listener T κ)}
    (h : id ∉ (Listeners.on topic ls).map (·.id)) : Listeners.remove topic id ls = ls := by
  refine List.filter_eq_self.2 fun x hx => ?_
  by_contra hn
  have hx' : x.topic = topic ∧ x.id = id := by simpa using hn
  exact h (List.mem_map.2 ⟨x, mem_on.2 ⟨hx, hx'.1⟩, hx'.2⟩)

/-- The removal of a listener that is not there changes nothing. -/
theorem Channel.unregister_unknown {c : Channel} {id : ListenerId} {w : World κ ε} (h : id ∉ (w.audience c).map (·.1)) :
    c.unregister id w = .ok ⟨⟩ w := by
  cases c with
  | list l topic =>
    rw [World.audience, List.map_map] at h
    exact congrArg (EStateM.Result.ok PUnit.unit) (World.modifyList_same (by rw [Listeners.remove_unknown h]))
  | object o topic =>
    rw [World.audience, List.map_map] at h
    exact congrArg (EStateM.Result.ok PUnit.unit) (World.modifyObject_same (by rw [Listeners.remove_unknown h]))

end

section

variable {w w' : Chronicled β τ} {c : Channel} {id : ListenerId}

/-- A listener was registered. -/
theorem World.Kept.added (h : w.Kept) {callback : β} (next : w'.nextListener = w.nextListener + 1) (env : w'.env = w.env)
    (audience : ∀ c', w'.audience c' =
      if c = c' then w.audience c' ++ [(⟨w.nextListener⟩, (⟨w.nextListener⟩, callback))] else w.audience c') :
    (w'.noted (.added c ⟨w.nextListener⟩)).Kept ∧ ⟨w.nextListener⟩ ∉ w.chronicle.ids := by
  have new : ⟨w.nextListener⟩ ∉ w.chronicle.ids := fun hid => Nat.lt_irrefl _ (h.numbered _ hid)
  refine ⟨h.after (congrArg Diary.chronicle env) (fun c' => ?_) (fun c' x hx => ?_) (List.nodup_cons.2 ⟨new, h.unique⟩) ?_, new⟩
  · rw [audience, Occurrence.alters, ← h.listed]
    split <;> simp
  · rw [audience] at hx
    split at hx
    · rcases List.mem_append.1 hx with hx | hx
      · exact h.known c' x hx
      · rw [List.mem_singleton.1 hx]
    · exact h.known c' x hx
  · rw [next]
    exact List.forall_mem_cons.2 ⟨Nat.lt_succ_self _, fun id hid => (h.numbered id hid).trans (Nat.lt_succ_self _)⟩

/-- A listener was removed, if it was there. -/
theorem World.Kept.removed (h : w.Kept) (next : w'.nextListener = w.nextListener) (env : w'.env = w.env)
    (audience : ∀ c', w'.audience c' = if c = c' then (w.audience c').filter (·.1 ≠ id) else w.audience c') :
    (w'.noted (.removed c id)).Kept := by
  refine h.after (congrArg Diary.chronicle env) (fun c' => ?_) (fun c' x hx => ?_) h.unique (next ▸ h.numbered)
  · rw [audience, Occurrence.alters, (Chronicle.nodup_standing h.unique).erase_eq_filter, ← h.listed, List.filter_map]
    split
    · exact congrArg _ (List.filter_congr fun x _ => by simp only [Function.comp_apply, bne, decide_not, beq_eq_decide])
    · rfl
  · rw [audience] at hx
    split at hx
    · exact h.known c' x (List.mem_of_mem_filter hx)
    · exact h.known c' x hx

end

/-! ## Runs -/

section

variable {α : Type} {w w' : Chronicled β τ} {g call : Growth} {act : Run (ListenerId × β) (Diary τ) α}

theorem Run.Follows.noting {first last : Occurrence} (hw : w.Kept) (hfirst : first.Neutral) (hlast : last.Neutral)
    (h : (w.noted first).Kept → Run.Follows g act (w.noted first)) :
    Run.Follows (.around first last g) (LiveBindings.noting first last act) w := by
  have hact := h (hw.noted hfirst)
  change w.Reaches _ (LiveBindings.restoring (World.noted last) act (w.noted first))
  rw [Run.Follows] at hact
  rw [LiveBindings.restoring]
  have later : ∀ u : Chronicled β τ, (w.noted first).chronicle <:+ u.chronicle → w.chronicle <:+ (u.noted last).chronicle :=
    fun u hu => ((List.suffix_cons _ _).trans hu).trans (List.suffix_cons _ _)
  cases he : act (w.noted first) with
  | ok a u =>
    rw [he] at hact
    exact ⟨(World.Grown.kept hact).noted hlast, later u (World.Grown.later hact), _, _, _, World.Grown.growth hact, rfl⟩
  | error e u =>
    rw [he] at hact
    exact ⟨(World.Grown.kept hact).noted hlast, later u (World.Grown.later hact), _, _, _, World.Grown.growth hact, rfl⟩

/-- A comparison decides about the order of the items, not about what is told of it. -/
theorem ListOperation.edit?_change {κ ε : Type} (op : ListOperation κ ε) (w w' : World κ ε) (items : List Value) :
    (op.edit? w items).map (·.change items) = (op.edit? w' items).map (·.change items) := by
  cases op with
  | sortBy compare =>
    simp only [edit?, Edit.reordering?]
    split
    · rfl
    · simp only [Option.map_some, Edit.change, List.length_mergeSort]
  | _ => rfl

/-- What an operation is told by does not depend on what has happened. -/
theorem Operation.schedule_noted (op : Operation (ListenerId × β) (Diary τ)) (w : Chronicled β τ) (what : Occurrence) :
    op.schedule (w.noted what) = op.schedule w := by
  cases op with
  | object o op => rfl
  | list l op => exact congrArg (l.schedule w) (op.edit?_change _ _ _)

/-- A program follows what may happen in programs, if its callbacks do. -/
theorem Errand.run_follows {R : Reactions (ListenerId × β) (Diary τ)} (hR : R.Honest call) (errand : Errand β τ) (hw : w.Kept) :
    Run.Follows (.Program call) (errand.run R) w := by
  induction errand generalizing w with
  | done => exact (Run.Follows.pure hw _).mono fun _ _ ⟨he, hw⟩ => he ▸ hw ▸ .rest _
  | giveUp e => exact (Run.Follows.throw hw e).mono fun _ _ ⟨he, hw⟩ => he ▸ hw ▸ .giveUp _
  | change op next ih =>
    have changed : Run.Follows (.around (.begun (op.schedule w)) .ended (.change call (op.schedule w)))
        (LiveBindings.noting (.begun (op.schedule w)) .ended (op.run R)) w :=
      .noting hw ⟨rfl, fun _ _ => rfl⟩ ⟨rfl, fun _ _ => rfl⟩ fun hk => by
        have := Operation.run_follows hR hk op
        rwa [op.schedule_noted] at this
    refine .read rfl ((changed.bind fun a _ h' => ih a h'.kept).mono fun h' whole hg => ?_)
    rcases hg with ⟨h₁, changed, next⟩ | ⟨rfl, changed⟩
    · exact .change changed next
    · exact .cut changed
  | listen c callback next ih =>
    refine .read rfl ?_
    by_cases made : c.isMade w
    · obtain ⟨w', he, hnext, env, audience⟩ := c.register_spec (⟨w.nextListener⟩, callback) w
      have chronicle : w'.chronicle = w.chronicle := congrArg Diary.chronicle env
      simp only [made, and_true] at audience
      obtain ⟨hk, new⟩ := hw.added hnext env audience
      rw [if_pos made]
      refine .onward he (chronicle ▸ List.suffix_rfl) ?_ fun _ _ hg => chronicle ▸ hg
      exact .onward rfl (List.suffix_cons _ _) (ih _ hk) fun h' whole hg => .added (chronicle ▸ new) hg
    · rw [if_neg made]
      exact .read rfl (ih _ hw)
  | unlisten c id next ih =>
    obtain ⟨w', he, hnext, env, audience⟩ := c.unregister_spec id w
    have chronicle : w'.chronicle = w.chronicle := congrArg Diary.chronicle env
    refine .onward he (chronicle ▸ List.suffix_rfl) ?_ fun _ _ hg => chronicle ▸ hg
    exact .onward rfl (List.suffix_cons _ _) (ih (hw.removed hnext env audience)) fun h' whole hg => .removed hg
  | makeList items next ih =>
    have made : w.Agrees { w with lists := w.lists.push { items } } := .makeList w items
    exact .step rfl made (ih _ (hw.congr made))
  | makeObject entries next ih =>
    have made : w.Agrees { w with objects := w.objects.push { entries } } := .makeObject w entries
    exact .step rfl made (ih _ (hw.congr made))
  | configure config next ih =>
    have set : w.Agrees { w with config } := ⟨rfl, rfl, rfl⟩
    exact .step rfl set (ih (hw.congr set))
  | update f next ih =>
    have updated : w.Agrees { w with env := { w.env with own := f w.env.own } } := ⟨rfl, rfl, rfl⟩
    exact .step rfl updated (ih (hw.congr updated))
  | look next ih => exact .read rfl (ih w hw)
  | attempt inner next ih ih' =>
    have hinner := ih hw
    rw [Run.Follows] at hinner
    cases he : run R inner w with
    | ok a w' =>
      rw [he] at hinner
      have attempted : attempting (run R inner) w = .ok ⟨⟩ w' := by rw [attempting, he]
      refine .onward attempted (World.Grown.later hinner) (ih' (World.Grown.kept hinner)) fun h' whole hg => ?_
      exact .attempt (World.Grown.growth hinner) hg
    | error e w' =>
      rw [he] at hinner
      have attempted : attempting (run R inner) w = .ok ⟨⟩ w' := by rw [attempting, he]
      refine .onward attempted (World.Grown.later hinner) (ih' (World.Grown.kept hinner)) fun h' whole hg => ?_
      exact .attempt (World.Grown.growth hinner) hg

end

/-- Callbacks that run errands follow what may happen in calls. -/
theorem Errand.reactions_honest (body : ListenerId × β → Event → Errand β τ) (nesting : Nat) :
    (Errand.reactions body nesting).Honest (.calls nesting) := by
  induction nesting with
  | zero =>
    refine ⟨fun x e w hw => ?_, rfl⟩
    exact .noting hw ⟨rfl, fun _ _ => rfl⟩ ⟨rfl, fun _ _ => rfl⟩ fun hk => .throw hk .exhausted
  | succ nesting ih =>
    refine ⟨fun x e w hw => ?_, rfl⟩
    exact .noting hw ⟨rfl, fun _ _ => rfl⟩ ⟨rfl, fun _ _ => rfl⟩ fun hk => Errand.run_follows ih (body x e) hk

theorem World.Kept.accounts {w : Chronicled β τ} (h : w.Kept) {m : Moment} {t : Chronicle} (ht : m :: t <:+ w.chronicle) :
    Chronicle.Accounts (m :: t) m.counts := by
  obtain ⟨later, hl⟩ := ht
  have unique := h.unique
  rw [← hl, Chronicle.ids, List.filterMap_append] at unique
  rw [show m.counts = fun c => (Chronicle.standing c (m :: t)).length from funext (h.counted m t ⟨later, hl⟩)]
  exact Chronicle.accounts unique.of_append_right

theorem World.Kept.accounts_now {w : Chronicled β τ} (h : w.Kept) : w.chronicle.Accounts w.counts := by
  have : w.counts = fun c => (w.chronicle.standing c).length := funext fun c => by rw [← h.listed, List.length_map, World.counts]
  exact this ▸ Chronicle.accounts h.unique

theorem World.Grown.lawful {w w' : Chronicled β τ} {nesting : Nat} {whole : Bool}
    (h : w.Grown (.Program (.calls nesting)) w' whole) : w.Lawful nesting w' whole where
  passes := h.growth
  moments _ _ ht := h.kept.accounts ht
  now := h.kept.accounts_now

/-- Whatever a program does, and whatever its callbacks do inside each other, each pass calls exactly the right listeners and at
every moment the listeners are accounted for by what has happened, whether the run comes to its end or is abandoned. The removal
of a listener that is not there changes nothing in any world. -/
theorem Errand.run_lawful (body : ListenerId × β → Event → Errand β τ) (nesting : Nat) (errand : Errand β τ)
    {w : Chronicled β τ} (hw : w.Kept) :
    w.Lawful nesting ((errand.run (Errand.reactions body nesting)).left w).1
        ((errand.run (Errand.reactions body nesting)).left w).2 ∧
      ∀ (u : Chronicled β τ) (c : Channel) (id : ListenerId), id ∉ (u.audience c).map (·.1) → c.unregister id u = .ok ⟨⟩ u := by
  refine ⟨?_, fun _ _ _ => Channel.unregister_unknown⟩
  have h := Errand.run_follows (Errand.reactions_honest body nesting) errand hw
  rw [Run.Follows] at h
  rw [Run.left]
  cases he : errand.run (Errand.reactions body nesting) w with
  | ok a w' =>
    rw [he] at h
    exact World.Grown.lawful h
  | error e w' =>
    rw [he] at h
    exact World.Grown.lawful h

/-! ### A listener that removes the next -/

/-- Nobody listens, and nothing has happened. -/
theorem World.Kept.of_unheard {w : Chronicled β τ} (h : ∀ c, w.audience c = []) (hc : w.chronicle = []) : w.Kept where
  listed c := by rw [h, hc]; rfl
  known c x hx := by rw [h] at hx; cases hx
  unique := by rw [hc]; exact List.nodup_nil
  numbered id hid := by rw [hc] at hid; cases hid
  counted m t ht := by rw [hc] at ht; cases List.suffix_nil.1 ht

/-- One list, and nobody listens to it. -/
def World.oneList : Chronicled Bool Unit where
  lists := #[{}]
  env := { own := () }

/-- When one of two kinds of listeners is called, it removes the second listener and registers another one. -/
def Errand.unseating : ListenerId × Bool → Event → Errand Bool Unit
  | (_, true), _ => .unlisten (.list ⟨0⟩ .content) ⟨1⟩ (.listen (.list ⟨0⟩ .content) false fun _ => .done)
  | (_, false), _ => .done

/-- Two listeners are registered, and an item is added to the list. -/
def Errand.seating : Errand Bool Unit :=
  .listen (.list ⟨0⟩ .content) true fun _ => .listen (.list ⟨0⟩ .content) false fun _ =>
    .change (.list ⟨0⟩ (.push [.null])) fun _ => .done

/-- The pass calls neither the listener that was removed before its turn nor the one that was registered in the course of it. -/
theorem Errand.run_lawful_unseating :
    World.oneList.Kept ∧
      ((Errand.seating.run (Errand.reactions Errand.unseating 1)).left World.oneList).1.chronicle.reverse.map Moment.what =
        [.added (.list ⟨0⟩ .content) ⟨0⟩, .added (.list ⟨0⟩ .content) ⟨1⟩,
          .begun (.told (ListId.phases ⟨0⟩ { index := 0, spanLength := 1, oldLength := 0, newLength := 1 })),
          .called ⟨0⟩ none, .removed (.list ⟨0⟩ .content) ⟨1⟩, .added (.list ⟨0⟩ .content) ⟨2⟩, .returned ⟨0⟩, .ended] ∧
      World.oneList.Lawful 1 ((Errand.seating.run (Errand.reactions Errand.unseating 1)).left World.oneList).1
        ((Errand.seating.run (Errand.reactions Errand.unseating 1)).left World.oneList).2 := by
  have unheard : ∀ c, World.oneList.audience c = []
    | .list ⟨0⟩ _ | .list ⟨_ + 1⟩ _ | .object _ _ => rfl
  have kept : World.oneList.Kept := .of_unheard unheard rfl
  exact ⟨kept, by decide +kernel, (Errand.run_lawful Errand.unseating 1 Errand.seating kept).1⟩

end LiveBindings
