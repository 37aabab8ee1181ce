import LiveBindings.Proofs.Dispatch

/-!
# Changes of containers that observers watch

What a change of a list or object does, phase by phase, when nobody changes a container in turn except through observers:
before the change only the embedding program is told; the change itself alters what one container holds; then the listeners
that observers have are told. The phases are joined by invariants that a user of these lemmas chooses.
-/

namespace LiveBindings

variable {π σ : Type}

/-- The contents with other entries of one object. -/
def Contents.setEntries (c : Contents) (o : ObjectId) (es : List (String × Value)) : Contents :=
  { c with entries := fun o' => if o' = o then es else c.entries o' }

/-- The contents with other items of one list. -/
def Contents.setItems (c : Contents) (l : ListId) (vs : List Value) : Contents :=
  { c with items := fun l' => if l' = l then vs else c.items l' }

namespace World

variable {w w' : World (Callback π) (Env π σ)}

theorem layout_modifyObject {o : ObjectId} {f : ObjectCell (Callback π) → ObjectCell (Callback π)}
    (hf : ∀ c, (f c).listeners = c.listeners) : (w.modifyObject o f).layout = w.layout := by
  have hl : ∀ o', ((w.modifyObject o f).objectCell o').listeners = (w.objectCell o').listeners := by
    intro o'
    rw [objectCell_modifyObject]
    split
    · rename_i h
      rw [hf, h.1]
    · rfl
  simp only [World.layout, hl, objects_size_modifyObject]
  rfl

theorem layout_modifyList {l : ListId} {f : ListCell (Callback π) → ListCell (Callback π)}
    (hf : ∀ c, (f c).listeners = c.listeners) : (w.modifyList l f).layout = w.layout := by
  have hl : ∀ l', ((w.modifyList l f).listCell l').listeners = (w.listCell l').listeners := by
    intro l'
    rw [listCell_modifyList]
    split
    · rename_i h
      rw [hf, h.1]
    · rfl
  simp only [World.layout, hl, lists_size_modifyList]
  rfl

/-- What the containers hold after the entries of an object have been changed; an object that was never made stays empty. -/
theorem contents_modifyEntries {o : ObjectId} {f : List (String × Value) → List (String × Value)} :
    (w.modifyObject o fun c => { c with entries := f c.entries }).contents =
      if o.index < w.layout.objects then w.contents.setEntries o (f (w.contents.entries o)) else w.contents := by
  have ho : w.layout.objects = w.objects.size := rfl
  have he : ∀ o', ((w.modifyObject o fun c => { c with entries := f c.entries }).objectCell o').entries =
      if o' = o ∧ o.index < w.layout.objects then f (w.contents.entries o) else w.contents.entries o' := by
    intro o'
    rw [objectCell_modifyObject, ho]
    split <;> rfl
  simp only [World.contents, he, objects_size_modifyObject]
  split
  · rename_i h
    simp [h, Contents.setEntries]
    rfl
  · rename_i h
    simp [h]
    rfl

theorem contents_modifyItems {l : ListId} {vs : List Value} :
    (w.modifyList l fun c => { c with items := vs }).contents =
      if l.index < w.layout.lists then w.contents.setItems l vs else w.contents := by
  have hl : w.layout.lists = w.lists.size := rfl
  have he : ∀ l', ((w.modifyList l fun c => { c with items := vs }).listCell l').items =
      if l' = l ∧ l.index < w.layout.lists then vs else w.contents.items l' := by
    intro l'
    rw [listCell_modifyList, hl]
    split <;> rfl
  simp only [World.contents, he, lists_size_modifyList]
  split
  · rename_i h
    simp [h, Contents.setItems]
    rfl
  · rename_i h
    simp [h]
    rfl

end World

/-- In the course of a dispatch that began in `w` the containers hold `c`; observers are as they were. -/
structure World.Amid (c : Contents) (w w' : World (Callback π) (Env π σ)) : Prop where
  layout : w'.layout = w.layout
  contents : w'.contents = c
  depth : w'.depth = w.depth + 1
  config : w'.config = w.config

/-- What is registered for a topic of an object. -/
def Post.OfObject (o : ObjectId) (topic : ObjectTopic) (q : Post π) : Prop := ∃ callback, q = .object o topic callback

/-- What is registered for a topic of a list. -/
def Post.OfList (l : ListId) (topic : ListTopic) (q : Post π) : Prop := ∃ callback, q = .list l topic callback

/-- The listeners over posts `S` that a pass that begins now is over. -/
def Layout.Due (K : Layout π) (S : Post π → Prop) (l : Leaf π) : Prop := S l.post ∧ ∃ q, S q ∧ K.Posted l.id q

/-! ## Passes over the listeners of a topic -/

section

variable {H : Host π σ} {r : π → Event → σ → σ → Prop} {n : Nat} {e : Event}
  {I : (Leaf π → Prop) → List ListenerId → World (Callback π) (Env π σ) → Prop} {P : Leaf π → Prop} {w w₁ : World (Callback π) (Env π σ)}

theorem ObjectId.posted_of_mem {o : ObjectId} {topic : ObjectTopic} {lst : Listener ObjectTopic (Callback π)}
    (h : lst ∈ Listeners.on topic (w.objectCell o).listeners) :
    w.layout.Posted lst.id (o.post lst) ∧ Post.OfObject o topic (o.post lst) := by
  obtain ⟨hl, rfl⟩ := mem_on.1 h
  exact ⟨hl, _, rfl⟩

theorem ListId.posted_of_mem {l : ListId} {topic : ListTopic} {lst : Listener ListTopic (Callback π)}
    (h : lst ∈ Listeners.on topic (w.listCell l).listeners) :
    w.layout.Posted lst.id (l.post lst) ∧ Post.OfList l topic (l.post lst) := by
  obtain ⟨hl, rfl⟩ := mem_on.1 h
  exact ⟨hl, _, rfl⟩

theorem ObjectId.waiting_of_due {o : ObjectId} {topic : ObjectTopic} {l : Leaf π}
    (h : w.layout.Due (Post.OfObject o topic) l) :
    Waiting (Post.OfObject o topic) (Listeners.on topic (w.objectCell o).listeners) l := by
  obtain ⟨hl, q, ⟨callback, rfl⟩, hq⟩ := h
  exact ⟨⟨⟨l.id, topic, callback⟩, mem_on.2 ⟨hq, rfl⟩, rfl⟩, hl⟩

theorem ListId.waiting_of_due {l : ListId} {topic : ListTopic} {lf : Leaf π} (h : w.layout.Due (Post.OfList l topic) lf) :
    Waiting (Post.OfList l topic) (Listeners.on topic (w.listCell l).listeners) lf := by
  obtain ⟨hl, q, ⟨callback, rfl⟩, hq⟩ := h
  exact ⟨⟨⟨lf.id, topic, callback⟩, mem_on.2 ⟨hq, rfl⟩, rfl⟩, hl⟩

/-- Letting callbacks go at the end changes nothing. -/
theorem Attends.holding {S : Post π → Prop} (hA : Attends H r n S e I) {callbacks : List (Callback π)} {act : Live π σ Unit}
    (h : ∀ held, act.Ends { w with held } fun _ w' => I P [] w') :
    (LiveBindings.holding (engine H (n + 2)).reactions callbacks act).Ends w fun _ w' => I P [] w' := by
  rw [Run.ends_holding]
  refine (h _).imp fun _ w' hI => ?_
  have hI' : I P [] { w' with held := w.held } := hA.apart hI ⟨rfl, rfl, rfl, rfl⟩ rfl
  exact (letGo_ends (by omega) (hA.orphans hI')).2 hI'

theorem Listeners.nodup_on {τ κ : Type} [DecidableEq τ] {topic : τ} {ls : List (Listener τ κ)}
    (h : (ls.map (·.id)).Nodup) : ((Listeners.on topic ls).map (·.id)).Nodup :=
  h.sublist (List.Sublist.map _ List.filter_sublist)

/-- The pass over the listeners that a topic of an object had when they were captured. -/
theorem ObjectId.pass_of_due {o : ObjectId} {topic : ObjectTopic} (hA : Attends H r n (Post.OfObject o topic) e I)
    (hw : w₁.layout = w.layout) (hI : ∀ ids, I (fun l => P l ∨ w.layout.Due (Post.OfObject o topic) l) ids w₁) :
    Attends.Pass (Post.OfObject o topic) o.post I P (Listeners.on topic (w.objectCell o).listeners) w₁ := by
  have ht : w.layout.Tidy := hw ▸ hA.tidy (hI [])
  refine ⟨fun lst hl => (posted_of_mem hl).2, Listeners.nodup_on (ht.objectOnce o), ?_,
    hA.mono (hI _) fun l hl => hl.imp_right waiting_of_due⟩
  rw [hw]
  exact .of_posted ht fun lst hl => (posted_of_mem hl).1

/-- The pass over the listeners that a topic of a list had when they were captured. -/
theorem ListId.pass_of_due {l : ListId} {topic : ListTopic} (hA : Attends H r n (Post.OfList l topic) e I)
    (hw : w₁.layout = w.layout) (hI : ∀ ids, I (fun lf => P lf ∨ w.layout.Due (Post.OfList l topic) lf) ids w₁) :
    Attends.Pass (Post.OfList l topic) l.post I P (Listeners.on topic (w.listCell l).listeners) w₁ := by
  have ht : w.layout.Tidy := hw ▸ hA.tidy (hI [])
  refine ⟨fun lst hl => (posted_of_mem hl).2, Listeners.nodup_on (ht.listOnce l), ?_,
    hA.mono (hI _) fun lf hl => hl.imp_right waiting_of_due⟩
  rw [hw]
  exact .of_posted ht fun lst hl => (posted_of_mem hl).1

theorem Attends.onObject {o : ObjectId} {topic : ObjectTopic} (hA : Attends H r n (Post.OfObject o topic) e I)
    (hH : H.Quiet r) (hw : w₁.layout = w.layout)
    (hI : ∀ ids, I (fun l => P l ∨ w.layout.Due (Post.OfObject o topic) l) ids w₁) :
    (tellAll (engine H (n + 2)).reactions o.registered e (Listeners.on topic (w.objectCell o).listeners)).Ends w₁
      fun _ w' => I P [] w' :=
  hA.tellAll_ends hH (o.audience fun _ hq => ⟨topic, hq⟩) (ObjectId.pass_of_due hA hw hI)

/-- The listeners of all entries of an object are told about one. -/
theorem Attends.tellEntry {o : ObjectId} {key : String} {v : Value}
    (hA : Attends H r n (Post.OfObject o .entries) (.entry key v) I) (hH : H.Quiet r)
    (hI : ∀ ids, I (fun l => P l ∨ w.layout.Due (Post.OfObject o .entries) l) ids w) :
    (o.tellEntry (engine H (n + 2)).reactions key v).Ends w fun _ w' => I P [] w' := by
  simp only [ObjectId.tellEntry, ObjectId.listeners, Run.ends_bind, Run.ends_stateGet, Run.ends_pure]
  exact hA.holding fun held =>
    hA.onObject (w := w) hH rfl fun ids => hA.apart (hI ids) ⟨rfl, rfl, rfl, rfl⟩ rfl

/-- The listeners of a length are told it. -/
theorem Attends.tellLength {l : ListId} {topic : ListTopic} {length : Nat}
    (hA : Attends H r n (Post.OfList l topic) (.value (Value.ofNat length)) I) (hH : H.Quiet r)
    (hI : ∀ ids, I (fun lf => P lf ∨ w.layout.Due (Post.OfList l topic) lf) ids w) :
    (l.tellLength (engine H (n + 2)).reactions topic length).Ends w fun _ w' => I P [] w' := by
  simp only [ListId.tellLength, ListId.listeners, Run.ends_bind, Run.ends_stateGet, Run.ends_pure]
  exact hA.holding fun held =>
    hA.tellAll_ends hH (l.audience fun _ hq => ⟨topic, hq⟩)
      (ListId.pass_of_due (w := w) hA rfl fun ids => hA.apart (hI ids) ⟨rfl, rfl, rfl, rfl⟩ rfl)

/-- The listeners of the content of a list are told how it changed. -/
theorem Attends.tellContent {l : ListId} {topic : ListTopic} {report : ListReport}
    (hA : Attends H r n (Post.OfList l topic) (.content report.added report.removed report.index) I) (hH : H.Quiet r)
    (hI : ∀ ids, I (fun lf => P lf ∨ w.layout.Due (Post.OfList l topic) lf) ids w) :
    (l.tellContent (engine H (n + 2)).reactions topic report).Ends w fun _ w' => I P [] w' := by
  simp only [ListId.tellContent, ListId.listeners, Run.ends_bind, Run.ends_stateGet, Run.ends_pure]
  exact hA.tellInTurn_ends hH (l.audience fun _ hq => ⟨topic, hq⟩) (ListId.pass_of_due hA rfl hI)

end

/-! ## The change of an object -/

section

variable {H : Host π σ} {r : π → Event → σ → σ → Prop} {n : Nat} {I J : (Leaf π → Prop) → List ListenerId → World (Callback π) (Env π σ) → Prop}
  {P : Leaf π → Prop} {U : π → Prop} {K : σ → Prop} {w : World (Callback π) (Env π σ)} {o : ObjectId} {key : String}
  {old new : Value} {f : List (String × Value) → List (String × Value)} {Q : PUnit → World (Callback π) (Env π σ) → Prop}

/-- What the containers hold after the entries of an object have been changed by `f`. -/
def World.changed (w : World (Callback π) (Env π σ)) (o : ObjectId) (f : List (String × Value) → List (String × Value)) :
    Contents :=
  if o.index < w.layout.objects then w.contents.setEntries o (f (w.contents.entries o)) else w.contents

/-- A change of a key, below the limit of nested dispatches: when only the program listens before the change, what holds
right after it is carried over by the pass over the listeners of the key, then by the pass over those of all entries. -/
theorem ObjectId.change_ends (hH : H.Quiet r) (hd : w.depth < w.config.maxDispatchDepth)
    (hu : ∀ id callback, w.layout.Posted id (.object o (.before key) callback) → ∃ p, callback = .user p ∧ U p)
    (hK : Host.Keeps r U (.value old) K) (h : K w.env.host)
    (hA : Attends H r n (Post.OfObject o (.after key)) (.value new) I)
    (hA' : Attends H r n (Post.OfObject o .entries) (.entry key new) J)
    (start : ∀ w₁ ids, w.Amid (w.changed o f) w₁ → K w₁.env.host →
      I (fun l => P l ∨ w₁.layout.Due (Post.OfObject o (.after key)) l) ids w₁)
    (switch : ∀ w₂ ids, I P [] w₂ → J (fun l => w₂.layout.Due (Post.OfObject o .entries) l) ids w₂)
    (done : ∀ w₃, J (fun _ => False) [] w₃ → Q ⟨⟩ { w₃ with depth := w₃.depth - 1 }) :
    (o.change (engine H (n + 2)).reactions key old new f).Ends w Q := by
  simp only [ObjectId.change, ObjectId.listeners, Run.ends_nested hd, Run.ends_bind, Run.ends_stateGet, Run.ends_pure]
  refine Run.Ends.imp (hA'.holding fun held => ?_) fun _ w₃ hI₃ => done w₃ hI₃
  simp only [ObjectId.modifyEntries, Run.ends_bind, Run.ends_modify]
  have hbefore : ∀ lst ∈ Listeners.on (.before key) (w.objectCell o).listeners, ∃ p, lst.callback = .user p ∧ U p := by
    intro lst hl
    obtain ⟨hl, htopic⟩ := mem_on.1 hl
    exact hu lst.id lst.callback (htopic ▸ hl)
  refine Run.Ends.imp (tellAll_users _ hH hK hbefore h) ?_
  rintro _ w₁ ⟨ha, h₁⟩
  have hw₁ : w.Amid (w.changed o f) (w₁.modifyObject o fun c => { c with entries := f c.entries }) := by
    have hl : (w₁.modifyObject o fun c => { c with entries := f c.entries }).layout = w₁.layout :=
      World.layout_modifyObject fun _ => rfl
    refine ⟨hl.trans ha.layout, ?_, ha.depth, ha.config⟩
    rw [World.contents_modifyEntries, ha.layout, ha.contents]
    rfl
  have hI := fun ids => start _ ids hw₁ h₁
  rw [hw₁.layout] at hI
  refine (hA.onObject (w := w) hH hw₁.layout hI).imp fun _ w₂ hI₂ => ?_
  exact hA'.tellEntry hH fun ids => hA'.mono (switch w₂ ids hI₂) fun _ => Or.inr

/-- A key that is new with the value `undefined`: only the listeners of all entries are told. -/
theorem ObjectId.fresh_ends (hH : H.Quiet r) (hd : w.depth < w.config.maxDispatchDepth)
    (hA' : Attends H r n (Post.OfObject o .entries) (.entry key new) J)
    (start : ∀ w₁ ids, w.Amid (w.changed o f) w₁ → w₁.env.host = w.env.host →
      J (fun l => w₁.layout.Due (Post.OfObject o .entries) l) ids w₁)
    (done : ∀ w₂, J (fun _ => False) [] w₂ → Q ⟨⟩ { w₂ with depth := w₂.depth - 1 }) :
    (do o.modifyEntries f; nested .object (pure ()) (o.tellEntry (engine H (n + 2)).reactions key new)).Ends w Q := by
  obtain ⟨w₀, h₀⟩ : ∃ w₀, w₀ = w.modifyObject o fun c => { c with entries := f c.entries } := ⟨_, rfl⟩
  have hl : w₀.layout = w.layout := h₀ ▸ World.layout_modifyObject fun _ => rfl
  have hc : w₀.contents = w.changed o f := h₀ ▸ World.contents_modifyEntries
  have hdepth : w₀.depth = w.depth ∧ w₀.config = w.config ∧ w₀.env.host = w.env.host := by
    rw [h₀]
    exact ⟨rfl, rfl, rfl⟩
  simp only [ObjectId.modifyEntries, Run.ends_bind, Run.ends_modify, ← h₀]
  rw [Run.ends_nested (by rw [hdepth.1, hdepth.2.1]; exact hd)]
  have hI := fun ids => start { w₀ with depth := w₀.depth + 1 } ids ⟨hl, hc, by rw [hdepth.1], hdepth.2.1⟩ hdepth.2.2
  exact (hA'.tellEntry hH fun ids => hA'.mono (hI ids) fun _ => Or.inr).imp fun _ w₂ => done w₂

/-- An assignment changes nothing, or makes a key with the value `undefined`, or changes the value of the key. -/
theorem ObjectId.assign_ends {R : Reactions (Callback π) (Env π σ)} {v : Value}
    (same : ∀ u, Fields.get? key (w.contents.entries o) = some u → u.same v = true → Q ⟨⟩ w)
    (fresh : Fields.get? key (w.contents.entries o) = none → v = .undefined →
      (do o.modifyEntries (Fields.put key .undefined); nested .object (pure ()) (o.tellEntry R key .undefined)).Ends w Q)
    (change : ((Fields.get? key (w.contents.entries o)).getD .undefined).same v = false →
      (o.change R key ((Fields.get? key (w.contents.entries o)).getD .undefined) v (Fields.put key v)).Ends w Q) :
    (o.assign R key v).Ends w Q := by
  simp only [ObjectId.assign, ObjectId.entries, Run.ends_bind, Run.ends_stateGet, Run.ends_pure]
  have hes : (w.objectCell o).entries = w.contents.entries o := rfl
  rw [hes]
  cases hg : Fields.get? key (w.contents.entries o) with
  | some u =>
    rw [hg] at change
    simp only [Option.getD_some] at change ⊢
    split
    · rename_i h
      exact same u hg h
    · rename_i h
      exact change (by simpa using h)
  | none =>
    rw [hg] at change
    simp only [Option.getD_none] at change ⊢
    split
    · rename_i h
      exact fresh hg (by simpa [Value.isUndefined] using h)
    · rename_i h
      refine change ?_
      cases v <;> simp_all [Value.isUndefined, Value.same]

/-- A deletion changes nothing, or takes away the value of the key. -/
theorem ObjectId.delete_ends {R : Reactions (Callback π) (Env π σ)}
    {Q : Option Value → World (Callback π) (Env π σ) → Prop}
    (absent : Fields.get? key (w.contents.entries o) = none → Q none w)
    (change : ∀ u, Fields.get? key (w.contents.entries o) = some u →
      (o.change R key u .undefined (Fields.erase key)).Ends w fun _ => Q (some u)) :
    (o.delete R key).Ends w Q := by
  simp only [ObjectId.delete, ObjectId.entries, Run.ends_bind, Run.ends_stateGet, Run.ends_pure]
  have hes : (w.objectCell o).entries = w.contents.entries o := rfl
  rw [hes]
  cases hg : Fields.get? key (w.contents.entries o) with
  | some u =>
    simp only [Run.ends_bind, Run.ends_pure]
    exact change u hg
  | none => exact absent hg

end

/-! ## The change of a list -/

section

variable {H : Host π σ} {r : π → Event → σ → σ → Prop} {n : Nat} {K : σ → Prop} {w w₁ : World (Callback π) (Env π σ)}
  {l : ListId} {topic : ListTopic}

/-- What the program's listeners leave behind. -/
def World.Heard (K : σ → Prop) (w w' : World (Callback π) (Env π σ)) : Prop := w.Apart w' ∧ K w'.env.host

theorem holding_users {callbacks : List (Callback π)} {act : Live π σ Unit} (ho : w.layout.cells.orphans = [])
    (h : ∀ held, act.Ends { w₁ with held } fun _ => w.Heard K) :
    (holding (engine H (n + 1)).reactions callbacks act).Ends w₁ fun _ => w.Heard K := by
  rw [Run.ends_holding]
  refine (h _).imp ?_
  rintro _ w' ⟨ha, hK⟩
  have hw' : w.Heard K { w' with held := w₁.held } := ⟨ha.trans ⟨rfl, rfl, rfl, rfl⟩, hK⟩
  exact (letGo_ends n.succ_pos (by rw [hw'.1.layout, ho])).2 hw'

/-- Only the program listens for a topic of a list. -/
def ListId.UserOnly (w : World (Callback π) (Env π σ)) (l : ListId) (topic : ListTopic) : Prop :=
  ∀ id callback, w.layout.Posted id (.list l topic callback) → ∃ p, callback = .user p

theorem ListId.UserOnly.callback (hu : l.UserOnly w topic) (hw : w₁.layout = w.layout) :
    ∀ lst ∈ Listeners.on topic (w₁.listCell l).listeners, ∃ p, lst.callback = .user p ∧ True := by
  intro lst hl
  obtain ⟨hm, rfl⟩ := mem_on.1 hl
  have hq : w.layout.Posted lst.id (.list l lst.topic lst.callback) := hw ▸ hm
  obtain ⟨p, hp⟩ := hu lst.id lst.callback hq
  exact ⟨p, hp, trivial⟩

variable (hH : H.Quiet r) (hK : ∀ e, Host.Keeps r (fun _ => True) e K) (ho : w.layout.cells.orphans = [])
  (hu : l.UserOnly w topic)
include hH hK ho hu

theorem ListId.tellLength_users (length : Nat) (hw : w.Heard K w₁) :
    (l.tellLength (engine H (n + 1)).reactions topic length).Ends w₁ fun _ => w.Heard K := by
  simp only [ListId.tellLength, ListId.listeners, Run.ends_bind, Run.ends_stateGet, Run.ends_pure]
  refine holding_users ho fun held => ?_
  have ha : w.Apart { w₁ with held } := hw.1.trans ⟨rfl, rfl, rfl, rfl⟩
  have key := tellAll_users (n := n) (w := { w₁ with held }) l.registered hH (hK (.value (Value.ofNat length)))
    (hu.callback hw.1.layout) hw.2
  refine key.imp ?_
  rintro _ w' ⟨ha', h⟩
  exact ⟨ha.trans ha', h⟩

theorem ListId.tellContent_users {report : ListReport} (hw : w.Heard K w₁) :
    (l.tellContent (engine H (n + 1)).reactions topic report).Ends w₁ fun _ => w.Heard K := by
  simp only [ListId.tellContent, ListId.listeners, Run.ends_bind, Run.ends_stateGet, Run.ends_pure]
  refine (tellInTurn_users hH (hK _) (by rw [hw.1.layout, ho]) (hu.callback hw.1.layout) hw.2).imp ?_
  rintro _ w' ⟨ha, h⟩
  exact ⟨hw.1.trans ha, h⟩

theorem ListId.tellSpan_users {change : ListChange} (hw : w.Heard K w₁) :
    (l.tellSpan (engine H (n + 1)).reactions topic change).Ends w₁ fun _ => w.Heard K := by
  have items : ∀ {ls : List (Listener ListTopic (Callback π))} (count index : Nat) {w₂ : World (Callback π) (Env π σ)},
      (∀ lst ∈ ls, ∃ p, lst.callback = .user p ∧ True) → w.Heard K w₂ →
        (ListId.tellItems (engine H (n + 1)).reactions l ls count index).Ends w₂ fun _ => w.Heard K := by
    intro ls count
    induction count with
    | zero => exact fun index w₂ _ hw => hw
    | succ count ih =>
      intro index w₂ hls hw
      simp only [ListId.tellItems, Run.ends_bind, ListId.ends_get]
      refine (tellAll_users _ hH (hK _) hls hw.2).imp ?_
      rintro _ w₃ ⟨ha, h⟩
      exact ih _ hls ⟨hw.1.trans ha, h⟩
  simp only [ListId.tellSpan, ListId.listeners, Run.ends_bind, Run.ends_stateGet, Run.ends_pure]
  split
  · exact hw
  · refine holding_users ho fun held => ?_
    exact items _ _ (hu.callback hw.1.layout) ⟨hw.1.trans ⟨rfl, rfl, rfl, rfl⟩, hw.2⟩

end

section

variable {H : Host π σ} {r : π → Event → σ → σ → Prop} {n : Nat} {I J : (Leaf π → Prop) → List ListenerId → World (Callback π) (Env π σ) → Prop}
  {P : Leaf π → Prop} {K : σ → Prop} {w : World (Callback π) (Env π σ)} {l : ListId} {c : Contents}

/-- The computation changes what the containers hold into `c`, and nothing else. -/
def Mutates {α : Type} (act : Live π σ α) (w : World (Callback π) (Env π σ)) (c : Contents) : Prop :=
  ∀ w₁, w₁.layout = w.layout → w₁.contents = w.contents → act.Ends w₁ fun _ w₂ =>
    w₂.layout = w₁.layout ∧ w₂.contents = c ∧ w₂.depth = w₁.depth ∧ w₂.config = w₁.config ∧ w₂.env.host = w₁.env.host

/-- The world in which a dispatch of a list is counted as begun or ended is not apart from the one before. -/
theorem World.apart_dispatching (f : Nat → Nat) :
    w.Apart (w.modifyList l fun c => { c with dispatching := f c.dispatching }) :=
  ⟨layout_modifyList fun _ => rfl, contents_modifyList fun _ => rfl, rfl, rfl⟩

/-- The dispatch of a content, up to the listeners of the content. -/
theorem ListId.dispatching_ends (change : ListChange) (before : ListReport) {mutate : Live π σ ListReport}
    {w₁ : World (Callback π) (Env π σ)} (hH : H.Quiet r) (hK : ∀ e, Host.Keeps r (fun _ => True) e K)
    (ho : w.layout.cells.orphans = []) (hu : ∀ topic, topic ≠ .content → topic ≠ .length → l.UserOnly w topic)
    (hw : w.Heard K w₁) (hm : Mutates mutate w c)
    (hA : ∀ added removed index, Attends H r n (Post.OfList l .content) (.content added removed index) I)
    (start : ∀ w₂ ids, w₂.layout = w.layout → w₂.contents = c → w₂.depth = w.depth → w₂.config = w.config →
      K w₂.env.host → I (fun lf => P lf ∨ w₂.layout.Due (Post.OfList l .content) lf) ids w₂) :
    (l.dispatching do
      l.tellContent (engine H (n + 2)).reactions .beforeContent before
      l.tellSpan (engine H (n + 2)).reactions .beforeEach change
      let after ← mutate
      l.tellSpan (engine H (n + 2)).reactions .each change
      l.tellContent (engine H (n + 2)).reactions .content after
      return after).Ends w₁ fun _ w₂ => I P [] w₂ := by
  simp only [ListId.dispatching, Run.ends_restoring, Run.ends_bind, Run.ends_modify, Run.ends_pure]
  -- Before the change only the program is told.
  have hw₂ := hw.1.trans (World.apart_dispatching (l := l) (w := w₁) (· + 1))
  refine Run.Ends.imp (ListId.tellContent_users hH hK ho (hu .beforeContent (by simp) (by simp)) ⟨hw₂, hw.2⟩) fun _ w₃ hw₃ => ?_
  refine Run.Ends.imp (ListId.tellSpan_users hH hK ho (hu .beforeEach (by simp) (by simp)) hw₃) fun _ w₄ hw₄ => ?_
  refine (hm w₄ hw₄.1.layout hw₄.1.contents).imp ?_
  rintro after w₅ ⟨hl, hc, hd, hcfg, hh⟩
  -- Then the items are told, to the program only, and then the content.
  have hl₅ := hl.trans hw₄.1.layout
  have hu₅ : l.UserOnly w₅ .each := by
    intro id callback hq
    exact hu .each (by simp) (by simp) id callback (hl₅ ▸ hq)
  have ho₅ : w₅.layout.cells.orphans = [] := by rw [hl₅, ho]
  refine Run.Ends.imp (ListId.tellSpan_users (w := w₅) hH hK ho₅ hu₅ ⟨.refl w₅, by rw [hh]; exact hw₄.2⟩) fun _ w₆ hw₆ => ?_
  have hI := fun ids => start w₆ ids (hw₆.1.layout.trans hl₅) (hw₆.1.contents.trans hc) (hw₆.1.depth.trans (hd.trans hw₄.1.depth))
    (hw₆.1.config.trans (hcfg.trans hw₄.1.config)) hw₆.2
  refine ((hA _ _ _).tellContent hH hI).imp fun _ w₇ hI => ?_
  exact (hA [] [] 0).apart hI (World.apart_dispatching (l := l) (w := w₇) (· - 1)) rfl

/-- A change of a list, below the limit of nested dispatches: when only the program listens to anything but the content and
the length, what holds right after it is carried over by the pass over the listeners of the content, then, if the length
changed, by the pass over those of the length. -/
theorem ListId.apply_through {change : ListChange} {before : ListReport} {mutate : Live π σ ListReport}
    {Q : ListReport → World (Callback π) (Env π σ) → Prop} (hH : H.Quiet r)
    (hd : w.depth < w.config.maxDispatchDepth) (ho : w.layout.cells.orphans = [])
    (hu : ∀ topic, topic ≠ .content → topic ≠ .length → l.UserOnly w topic) (hK : ∀ e, Host.Keeps r (fun _ => True) e K)
    (h : K w.env.host) (hm : Mutates mutate w c)
    (hA : ∀ added removed index, Attends H r n (Post.OfList l .content) (.content added removed index) I)
    (hA' : Attends H r n (Post.OfList l .length) (.value (Value.ofNat (c.items l).length)) J)
    (start : ∀ w₁ ids, w.Amid c w₁ → K w₁.env.host → I (fun lf => P lf ∨ w₁.layout.Due (Post.OfList l .content) lf) ids w₁)
    (switch : ∀ w₂ ids, I P [] w₂ → (w₂.contents.items l).length = (c.items l).length ∧
      J (fun lf => w₂.layout.Due (Post.OfList l .length) lf) ids w₂)
    (stay : change.oldLength = change.newLength → ∀ w₂, I P [] w₂ → J (fun _ => False) [] w₂)
    (done : ∀ a w₃, J (fun _ => False) [] w₃ → Q a { w₃ with depth := w₃.depth - 1 }) :
    (l.apply (engine H (n + 2)).reactions change before mutate).Ends w Q := by
  have hm' : Mutates mutate { w with depth := w.depth + 1 } c := hm
  have start' : ∀ (w₁ : World (Callback π) (Env π σ)) ids, w₁.layout = w.layout → w₁.contents = c →
      w₁.depth = w.depth + 1 → w₁.config = w.config → K w₁.env.host →
        I (fun lf => P lf ∨ w₁.layout.Due (Post.OfList l .content) lf) ids w₁ :=
    fun w₁ ids h₁ h₂ h₃ h₄ h₅ => start w₁ ids ⟨h₁, h₂, h₃, h₄⟩ h₅
  simp only [ListId.apply, Run.ends_nested hd]
  by_cases hlen : change.oldLength = change.newLength
  · simp only [hlen, bne_self_eq_false, Bool.false_eq_true, if_false, Run.ends_bind, Run.ends_pure]
    have key := ListId.dispatching_ends (w := { w with depth := w.depth + 1 }) change before hH hK ho hu ⟨.refl _, h⟩ hm' hA
      start'
    exact key.imp fun a w₂ hI => done a w₂ (stay hlen w₂ hI)
  · have hb : (change.oldLength != change.newLength) = true := by simpa using hlen
    simp only [hb, if_true, Run.ends_bind, Run.ends_pure]
    have key := ListId.tellLength_users (n := n + 1) (w := { w with depth := w.depth + 1 }) hH hK ho
      (hu .beforeLength (by simp) (by simp)) change.oldLength ⟨.refl _, h⟩
    refine key.imp fun _ w₁ hw₁ => ?_
    have key := ListId.dispatching_ends (w := { w with depth := w.depth + 1 }) change before hH hK ho hu hw₁ hm' hA start'
    refine key.imp fun a w₂ hI => ?_
    have hc := (switch w₂ [] hI).1
    rw [ListId.ends_length, hc]
    exact (hA'.tellLength hH fun ids => hA'.mono (switch w₂ ids hI).2 fun _ => Or.inr).imp fun _ w₃ => done a w₃

/-- The same when what containers hold stays as the change left it. -/
theorem ListId.apply_ends {change : ListChange} {before : ListReport} {mutate : Live π σ ListReport}
    {Q : ListReport → World (Callback π) (Env π σ) → Prop} (hH : H.Quiet r)
    (hd : w.depth < w.config.maxDispatchDepth) (ho : w.layout.cells.orphans = [])
    (hu : ∀ topic, topic ≠ .content → topic ≠ .length → l.UserOnly w topic) (hK : ∀ e, Host.Keeps r (fun _ => True) e K)
    (h : K w.env.host) (hm : Mutates mutate w c)
    (hA : ∀ added removed index, Attends H r n (Post.OfList l .content) (.content added removed index) I)
    (hA' : Attends H r n (Post.OfList l .length) (.value (Value.ofNat (c.items l).length)) J)
    (start : ∀ w₁ ids, w.Amid c w₁ → K w₁.env.host → I (fun lf => P lf ∨ w₁.layout.Due (Post.OfList l .content) lf) ids w₁)
    (switch : ∀ w₂ ids, I P [] w₂ → w₂.contents = c ∧ J (fun lf => w₂.layout.Due (Post.OfList l .length) lf) ids w₂)
    (stay : change.oldLength = change.newLength → ∀ w₂, I P [] w₂ → J (fun _ => False) [] w₂)
    (done : ∀ a w₃, J (fun _ => False) [] w₃ → Q a { w₃ with depth := w₃.depth - 1 }) :
    (l.apply (engine H (n + 2)).reactions change before mutate).Ends w Q := by
  refine apply_through hH hd ho hu hK h hm hA hA' start (fun w₂ ids hI => ?_) stay done
  obtain ⟨hc, hJ⟩ := switch w₂ ids hI
  exact ⟨by rw [hc], hJ⟩

end

end LiveBindings
