import LiveBindings.Proofs.Course
import LiveBindings.Proofs.Mutation
import LiveBindings.Proofs.Place

/-!
# What a binder writes

A binder that is handed one value makes one `Stroke`: it writes one value in one manner, to whatever place its target denotes by
then. Once nothing is registered that leads to anything else (`World.Serves`), every change of a container that comes of telling
listeners is such a stroke, however the place of the target moves meanwhile. So whatever survives the stroke, made anywhere,
survives every computation of the engine (`engine_serves`).
-/

namespace LiveBindings

variable {π σ : Type}

/-! ## Expressions that look up and compute -/

/-- Expressions that hand on what is found or computed, and make no containers. -/
inductive Expr.Computed : Expr → Prop
  | literal (v : Value) : Computed (.literal v)
  | value : Computed .value
  | parameters : Computed .parameters
  | element (id : String) : Computed (.element id)
  | component (label : String) : Computed (.component label)
  | property {a b : Expr} : Computed a → Computed b → Computed (.property a b)
  | membership {a b : Expr} : Computed a → Computed b → Computed (.membership a b)
  | within {a b : Expr} : Computed a → Computed b → Computed (.within a b)
  | choice {p a b : Expr} : Computed p → Computed a → Computed b → Computed (.choice p a b)
  | operator {xs : List Expr} (f : OperatorFunction) : (∀ x ∈ xs, Computed x) → Computed (.operator f xs)

/-! ## Strokes -/

/-- What is written, and in what manner. -/
structure Stroke where
  how : Writing
  value : Value

/-- The item of a list at an index; past the end the gap is filled with `undefined`. -/
def setItem (items : List Value) (index : Nat) (v : Value) : List Value :=
  if index < items.length then items.set index v
  else items ++ (List.replicate (index - items.length) .undefined ++ [v])

/-- What the containers hold after a stroke somewhere. -/
inductive Stroke.Turns (c : Contents) : Stroke → Contents → Prop
  | entry (v : Value) (o : ObjectId) (name : String) : Turns c ⟨.assign, v⟩ (c.setEntries o (Fields.put name v (c.entries o)))
  | item (v : Value) (l : ListId) (index : Nat) : Turns c ⟨.assign, v⟩ (c.setItems l (setItem (c.items l) index v))
  | keyed {v : Value} (o : ObjectId) (name : String) : v.truthy = true →
      Turns c ⟨.toggle, v⟩ (c.setEntries o (Fields.put name (.bool true) (c.entries o)))
  | unkeyed {v : Value} (o : ObjectId) (name : String) : v.truthy = false →
      Turns c ⟨.toggle, v⟩ (c.setEntries o (Fields.erase name (c.entries o)))
  | added {v : Value} (l : ListId) (member : Value) : v.truthy = true →
      Turns c ⟨.toggle, v⟩ (c.setItems l (c.items l ++ [member]))
  | removed {v : Value} (l : ListId) (index : Nat) : v.truthy = false →
      Turns c ⟨.toggle, v⟩ (c.setItems l ((c.items l).eraseIdx index))

/-- What is found where the stroke was made. -/
def Stroke.result : Stroke → Value
  | ⟨.assign, v⟩ => v
  | ⟨.toggle, v⟩ => .bool v.truthy

/-- What is followed to see a value written in this manner. -/
def Writing.followed : Writing → Followed
  | .assign => .property
  | .toggle => .membership

/-- What holds of containers survives the stroke wherever it is made. -/
def Stroke.Spares (k : Stroke) (G : Contents → Prop) : Prop := ∀ c c', G c → k.Turns c c' → G c'

/-! ## What leads to nothing but a stroke -/

/-- The value that a source hands on, if it is a constant passed back through inverses. -/
def Source.value? : Source → Option Value
  | .observe (.literal v) _ => some v
  | .inverse f s => s.value?.map f
  | _ => none

/-- The value that is handed to the sink makes the stroke, after it was passed back through inverses. -/
def Sink.Enters (k : Stroke) : Sink π → Value → Prop
  | .inverse f next, v => next.Enters k (f v)
  | .write how _ _, v => how = k.how ∧ v = k.value
  | _, _ => False

/-- The source, bound to the target, makes nothing but the stroke. -/
def Target.Writes (k : Stroke) : Target → Source → Prop
  | .property object key, source => object.Computed ∧ key.Computed ∧ k.how = .assign ∧ source.value? = some k.value
  | .membership collection member, source =>
    collection.Computed ∧ member.Computed ∧ k.how = .toggle ∧ source.value? = some k.value
  | .inverse f operand, source => operand.Writes k (.inverse f source)
  | .equals _ _, _ => False
  | .within context body, source => context.Computed ∧ body.Writes k source

/-- How many slots there were, and how many lists and objects there are. -/
structure Extent where
  slots : Nat
  lists : Nat
  objects : Nat

section

variable (k : Stroke) (b : Extent)

mutual

/-- Whatever is handed to the sink, nothing but the stroke is made. Slots are among those made after the first `base`. -/
def Sink.Serves : Sink π → Prop
  | .user _ => True
  | .distinct _ next | .truth next => next.Serves
  | .argument _ _ action => action.Serves
  | .switch s branch => b.slots ≤ s.index ∧ branch.Serves
  | _ => False

def ArgsAction.Serves : ArgsAction π → Prop
  | .compute _ next => next.Serves
  | .follow s _ next => b.slots ≤ s.index ∧ next.Serves
  | .writeTo s how source => b.slots ≤ s.index ∧ how = k.how ∧ source.value? = some k.value
  | _ => False

def Branch.Serves : Branch π → Prop
  | .body x _ next => x.Computed ∧ next.Serves
  | .either a b _ next => a.Computed ∧ b.Computed ∧ next.Serves
  | .target t source _ => t.Writes k source
  | _ => False

end

def Callback.Serves : Callback π → Prop
  | .forward next | .reread _ _ next | .listHas _ _ next | .objectHas _ _ next => next.Serves k b
  | .user _ => True
  | _ => False

/-- Nobody but the program hears of a change before it is made. -/
def Post.Serves : Post π → Prop
  | .list _ topic callback => callback.Serves k b ∧ (topic = .content ∨ topic = .length ∨ ∃ p, callback = .user p)
  | .object _ topic callback => callback.Serves k b ∧ ((∃ name, topic = .after name) ∨ topic = .entries ∨ ∃ p, callback = .user p)

mutual

/-- The handle takes down listeners, and slots among those made after the first `base`. -/
def Cancel.Plain : Cancel π → Prop
  | .done | .unlistenList _ _ _ | .unlistenObject _ _ _ => True
  | .closeSlot s => b.slots ≤ s.index
  | .join handles => Cancel.PlainAll handles
  | .release _ | .user _ => False

def Cancel.PlainAll : List (Cancel π) → Prop
  | [] => True
  | handle :: handles => handle.Plain ∧ Cancel.PlainAll handles

end

/-- Whatever is registered makes nothing but the stroke, and no view was given up. -/
structure Layout.Serves (K : Layout π) : Prop where
  posts : ∀ {id q}, K.Posted id q → q.Serves k b
  slots : ∀ s : Ref .slot, b.slots ≤ s.index → (K.cells.slot s).current.Plain b
  size : b.slots ≤ K.cells.slots.size
  orphans : K.cells.orphans = []
  lists : K.lists = b.lists
  objects : K.objects = b.objects

end

/-- The program changes nothing but its own state when it hears of something or is handed a value. -/
structure Host.Idle (H : Host π σ) : Prop where
  listener : H.Quiet fun _ _ _ _ => True
  observer : ∀ (E : Engine π σ) (p : π) (v : Value) (w : World (Callback π) (Env π σ)),
    (H.observer E p v).Ends w fun _ w' => ∃ h, w' = w.setHost h

/-- What holds of containers, where whatever is registered makes nothing but the stroke. -/
def World.Serves (k : Stroke) (b : Extent) (G : Contents → Prop) (w : World (Callback π) (Env π σ)) : Prop :=
  w.layout.Serves k b ∧ G w.contents

/-- What an engine does with what makes nothing but the stroke. -/
structure Engine.Serves (E : Engine π σ) (k : Stroke) (b : Extent) (G : Contents → Prop) : Prop where
  fire : ∀ {callback} e {w}, callback.Serves k b → w.Serves k b G →
    (E.fire callback e).Leads w fun _ => World.Serves k b G
  user : ∀ p e w, (E.fire (.user p) e).Leads w fun _ w' => ∃ h, w' = w.setHost h
  letGo : ∀ w, w.layout.cells.orphans = [] → E.letGo.Leads w fun _ w' => w' = w
  emit : ∀ {sink} v {w}, sink.Serves k b → w.Serves k b G → (E.emit sink v).Leads w fun _ => World.Serves k b G
  hand : ∀ {sink v w}, sink.Enters k v → w.Serves k b G → (E.emit sink v).Leads w fun _ => World.Serves k b G
  react : ∀ {action} vs {w}, action.Serves k b → w.Serves k b G →
    (E.react action vs).Leads w fun _ => World.Serves k b G
  start : ∀ {x sink} s {w}, x.Computed → sink.Serves k b → w.Serves k b G →
    (E.start x sink s).Leads w fun handle w' => handle.Plain b ∧ w'.Serves k b G
  cancel : ∀ {handle w}, handle.Plain b → w.Serves k b G →
    (E.cancel handle).Leads w fun _ => World.Serves k b G

section

variable {k : Stroke} {b : Extent} {G : Contents → Prop} {w w' : World (Callback π) (Env π σ)} {E : Engine π σ}

/-! ## What does not matter -/

theorem Layout.Serves.congr {K K' : Layout π} (h : K.Serves k b) (hc : K'.cells = K.cells) (hl : K'.lists = K.lists)
    (ho : K'.objects = K.objects) (hp : ∀ {id q}, K'.Posted id q → K.Posted id q ∨ q.Serves k b) : K'.Serves k b where
  posts hq := (hp hq).elim h.posts id
  slots := hc ▸ h.slots
  size := hc ▸ h.size
  orphans := hc ▸ h.orphans
  lists := hl.trans h.lists
  objects := ho.trans h.objects

theorem Layout.Serves.list {K : Layout π} (h : K.Serves k b) {l : ListId} {lst : Listener ListTopic (Callback π)}
    (hl : lst ∈ K.listListeners l) : (Post.list l lst.topic lst.callback).Serves k b :=
  h.posts (show K.Posted lst.id (.list l lst.topic lst.callback) from hl)

theorem Layout.Serves.object {K : Layout π} (h : K.Serves k b) {o : ObjectId} {lst : Listener ObjectTopic (Callback π)}
    (hl : lst ∈ K.objectListeners o) : (Post.object o lst.topic lst.callback).Serves k b :=
  h.posts (show K.Posted lst.id (.object o lst.topic lst.callback) from hl)

theorem World.Serves.of_eq (h : w.Serves k b G) (hl : w'.layout = w.layout) (hc : w'.contents = w.contents) :
    w'.Serves k b G := by
  refine ⟨hl ▸ h.1, ?_⟩
  rw [hc]
  exact h.2

theorem World.serves_calm : World.Calm (World.Serves (π := π) (σ := σ) k b G) where
  held _ _ h := h
  depth _ _ h := h
  dispatching _ _ _ h := h.of_eq (World.layout_modifyList fun _ => rfl) (World.contents_modifyList fun _ => rfl)

/-- Cells other than slots do not matter. -/
theorem World.Serves.cells (h : w.Serves k b G) {f : Cells π → Cells π} (hs : (f w.env.cells).slots = w.env.cells.slots)
    (ho : (f w.env.cells).orphans = w.env.cells.orphans) :
    (modifyCells f : Live π σ Unit).Leads w fun _ => World.Serves k b G := by
  refine ⟨⟨h.1.posts, fun s => ?_, ?_, ho.trans h.1.orphans, h.1.lists, h.1.objects⟩, h.2⟩
  · change b.slots ≤ s.index → ((f w.env.cells).slot s).current.Plain b
    rw [Cells.slot, hs]
    exact h.1.slots s
  · change b.slots ≤ (f w.env.cells).slots.size
    rw [hs]
    exact h.1.size

theorem newLast_serves (h : w.Serves k b G) : (newLast : Live π σ _).Leads w fun _ => World.Serves k b G :=
  h.cells (f := fun c => { c with lasts := c.lasts.push none }) rfl rfl

theorem newArgs_serves (count : Nat) (h : w.Serves k b G) :
    (newArgs count : Live π σ _).Leads w fun _ => World.Serves k b G :=
  h.cells (f := fun c => { c with args := c.args.push { values := List.replicate count .undefined } }) rfl rfl

theorem newSlot_serves (h : w.Serves k b G) :
    (newSlot : Live π σ _).Leads w fun s w' => b.slots ≤ s.index ∧ w'.Serves k b G := by
  refine ⟨h.1.size, ⟨h.1.posts, fun s hs => ?_, ?_, h.1.orphans, h.1.lists, h.1.objects⟩, h.2⟩
  · have := h.1.slots s hs
    simp only [World.layout, Cells.slot, Array.getD_eq_getD_getElem?, Array.getElem?_push] at this ⊢
    split
    · trivial
    · exact this
  · simp only [World.layout, Array.size_push]
    exact Nat.le_succ_of_le h.1.size

theorem modifySlot_serves {s : Ref .slot} {f : Slot π → Slot π} (h : w.Serves k b G)
    (hf : ∀ cell : Slot π, cell.current.Plain b → (f cell).current.Plain b) :
    (modifySlot s f : Live π σ _).Leads w fun _ => World.Serves k b G := by
  refine ⟨⟨h.1.posts, fun s' hs => ?_, ?_, h.1.orphans, h.1.lists, h.1.objects⟩, h.2⟩
  · have := h.1.slots s' hs
    simp only [World.layout, Cells.slot, Array.getD_eq_getD_getElem?, Array.getElem?_modify] at this ⊢
    split
    · cases hc : w.env.cells.slots[s'.index]? with
      | none => trivial
      | some cell =>
        rw [hc] at this
        exact hf _ this
    · exact this
  · simp only [World.layout, Array.size_modify]
    exact h.1.size

theorem World.Serves.announced (h : w.Serves k b G) (nextListener : Nat) :
    World.Serves k b G { w with nextListener } :=
  ⟨h.1.congr rfl rfl rfl Or.inl, h.2⟩

/-- The listeners of one list change. -/
theorem World.Serves.modifyList {l : ListId} {f : ListCell (Callback π) → ListCell (Callback π)} (h : w.Serves k b G)
    (hi : ∀ c, (f c).items = c.items)
    (hp : ∀ lst ∈ (f (w.listCell l)).listeners,
      lst ∈ (w.listCell l).listeners ∨ (Post.list l lst.topic lst.callback).Serves k b) :
    (w.modifyList l f).Serves k b G := by
  refine ⟨h.1.congr rfl (lists_size_modifyList ..) rfl fun {id q} hq => ?_, (congrArg G (contents_modifyList hi)).mpr h.2⟩
  cases q with
  | object => exact Or.inl hq
  | list l' topic callback =>
    change _ ∈ ((w.modifyList l f).listCell l').listeners at hq
    rw [listCell_modifyList] at hq
    split at hq
    · rename_i he
      rw [he.1]
      exact hp _ hq
    · exact Or.inl hq

/-- The listeners of one object change. -/
theorem World.Serves.modifyObject {o : ObjectId} {f : ObjectCell (Callback π) → ObjectCell (Callback π)} (h : w.Serves k b G)
    (he : ∀ c, (f c).entries = c.entries)
    (hp : ∀ lst ∈ (f (w.objectCell o)).listeners,
      lst ∈ (w.objectCell o).listeners ∨ (Post.object o lst.topic lst.callback).Serves k b) :
    (w.modifyObject o f).Serves k b G := by
  refine ⟨h.1.congr rfl rfl (objects_size_modifyObject ..) fun {id q} hq => ?_, (congrArg G (contents_modifyObject he)).mpr h.2⟩
  cases q with
  | list => exact Or.inl hq
  | object o' topic callback =>
    change _ ∈ ((w.modifyObject o f).objectCell o').listeners at hq
    rw [objectCell_modifyObject] at hq
    split at hq
    · rename_i he
      rw [he.1]
      exact hp _ hq
    · exact Or.inl hq

theorem ListId.listen_serves (l : ListId) (topic : ListTopic) {callback : Callback π}
    (hq : (Post.list l topic callback).Serves k b) (h : w.Serves k b G) :
    (l.listen topic callback : Live π σ _).Leads w fun _ => World.Serves k b G := by
  refine World.Serves.modifyList (h.announced _) (fun _ => rfl) fun lst hl => ?_
  refine (List.mem_append.1 hl).imp_right fun hl => ?_
  rw [List.mem_singleton.1 hl]
  exact hq

theorem ObjectId.listen_serves (o : ObjectId) (topic : ObjectTopic) {callback : Callback π}
    (hq : (Post.object o topic callback).Serves k b) (h : w.Serves k b G) :
    (o.listen topic callback : Live π σ _).Leads w fun _ => World.Serves k b G := by
  refine World.Serves.modifyObject (h.announced _) (fun _ => rfl) fun lst hl => ?_
  refine (List.mem_append.1 hl).imp_right fun hl => ?_
  rw [List.mem_singleton.1 hl]
  exact hq

theorem ListId.unlisten_serves (l : ListId) (topic : ListTopic) (id : ListenerId) (h : w.Serves k b G) :
    (l.unlisten topic id : Live π σ _).Leads w fun _ => World.Serves k b G :=
  h.modifyList (fun _ => rfl) fun _ hl => Or.inl (List.mem_of_mem_filter hl)

theorem ObjectId.unlisten_serves (o : ObjectId) (topic : ObjectTopic) (id : ListenerId) (h : w.Serves k b G) :
    (o.unlisten topic id : Live π σ _).Leads w fun _ => World.Serves k b G :=
  h.modifyObject (fun _ => rfl) fun _ hl => Or.inl (List.mem_of_mem_filter hl)

/-! ## Changes of containers -/

/-- What is registered is told of changes without making anything but the stroke. -/
theorem Engine.Serves.upholds (hE : E.Serves k b G) :
    E.reactions.Upholds (fun _ => True) (fun _ => True) (World.Serves k b G) where
  calm := World.serves_calm
  list h hl _ e _ := hE.fire e (h.1.list hl).1
  object h hl _ e _ := hE.fire e (h.1.object hl).1
  letGo w h := (hE.letGo w h.1.orphans).imp fun _ _ he => he ▸ h

/-- Before a change only the program is told, so that the containers hold what they held. -/
theorem Engine.Serves.upholds_before (hE : E.Serves k b G) (c : Contents) :
    E.reactions.Upholds (fun topic => topic ≠ .content ∧ topic ≠ .length)
      (fun topic => (∀ name, topic ≠ .after name) ∧ topic ≠ .entries) (World.Serves k b (· = c)) where
  calm := World.serves_calm
  list {w l lst} h hl ht e w' h' := by
    obtain ⟨-, hc | hc | ⟨p, hp⟩⟩ := h.1.list hl
    · exact absurd hc ht.1
    · exact absurd hc ht.2
    · rw [hp]
      refine (hE.user p e w').imp ?_
      rintro _ _ ⟨_, rfl⟩
      exact h'
  object {w o lst} h hl ht e w' h' := by
    obtain ⟨-, ⟨name, hc⟩ | hc | ⟨p, hp⟩⟩ := h.1.object hl
    · exact absurd hc (ht.1 name)
    · exact absurd hc ht.2
    · rw [hp]
      refine (hE.user p e w').imp ?_
      rintro _ _ ⟨_, rfl⟩
      exact h'
  letGo w h := (hE.letGo w h.1.orphans).imp fun _ _ he => he ▸ h

/-- A splice of items that are there, or of some new ones. -/
theorem ListId.splice_serves (hE : E.Serves k b G) (l : ListId) {index remove : Nat} {plus : List Value}
    (hr : index + remove ≤ (w.contents.items l).length) (hn : plus ≠ [] ∨ 0 < remove) (h : w.layout.Serves k b)
    (hG : G (w.replaced l (replaceRun (w.contents.items l) index remove plus))) :
    (l.splice E.reactions index remove plus).Leads w fun _ => World.Serves k b G := by
  have hitems : (w.listCell l).items = w.contents.items l := rfl
  have hminus : ((w.contents.items l).drop index |>.take remove).length = remove := by
    rw [List.length_take, List.length_drop]
    omega
  have hempty : (plus.isEmpty && ((w.contents.items l).drop index |>.take remove).isEmpty) = false := by
    rw [Bool.and_eq_false_iff, List.isEmpty_eq_false_iff, List.isEmpty_eq_false_iff]
    exact hn.imp_right fun hpos => List.ne_nil_of_length_pos (hminus.symm ▸ hpos)
  simp only [ListId.splice, ListId.items, Run.leads_bind, Run.leads_get, Run.leads_pure, hitems,
    Nat.min_eq_left (show index ≤ (w.contents.items l).length by omega), hempty, Bool.false_eq_true, if_false, hminus]
  refine ListId.apply_turns ((hE.upholds_before w.contents).on l) (hE.upholds.on l) (by simp) (by simp) (fun w₁ h₁ => ?_) ⟨h, rfl⟩
  have hitems₁ : (w₁.listCell l).items = w.contents.items l := congrArg (fun c : Contents => c.items l) h₁.2
  simp only [ListId.replaceItems, ListId.items, Run.leads_bind, Run.leads_get, Run.leads_pure, Run.leads_modify, hitems₁,
    Nat.min_eq_left (show index ≤ (w.contents.items l).length by omega), Nat.min_eq_left hr, Nat.add_sub_cancel_left]
  have hl : (w₁.modifyList l fun c => { c with items := replaceRun (w.contents.items l) index remove plus }).layout = w₁.layout :=
    World.layout_modifyList fun _ => rfl
  refine ⟨hl ▸ h₁.1, ?_⟩
  rw [World.contents_modifyItems, h₁.2, h₁.1.lists, ← h.lists]
  exact hG

/-- The listeners of all entries of an object are told about one. -/
theorem ObjectId.tellEntry_leads {R : Reactions (Callback π) (Env π σ)} {T : ListTopic → Prop} {T' : ObjectTopic → Prop}
    {I : World (Callback π) (Env π σ) → Prop} (hR : R.Upholds T T' I) (ht : T' .entries) (o : ObjectId) (key : String)
    (v : Value) (h : I w) : (o.tellEntry R key v).Leads w fun _ => I := by
  simp only [ObjectId.tellEntry, ObjectId.listeners, Run.leads_bind, Run.leads_stateGet, Run.leads_pure]
  refine holding_leads hR.calm.held hR.letGo (fun w₁ h₁ => tellAll_leads (fun lst hl => ?_) h₁) h
  obtain ⟨hl, he⟩ := mem_on.1 hl
  exact hR.object h hl (he ▸ ht) _

/-- The entries of an object are changed. -/
theorem ObjectId.modifyEntries_serves (o : ObjectId) {f : List (String × Value) → List (String × Value)}
    (h : w'.Serves k b (· = w.contents)) (hw : w.layout.Serves k b) (hG : G (w.changed o f)) :
    (o.modifyEntries f : Live π σ _).Leads w' fun _ => World.Serves k b G := by
  have hl : (w'.modifyObject o fun c => { c with entries := f c.entries }).layout = w'.layout :=
    World.layout_modifyObject fun _ => rfl
  refine ⟨hl ▸ h.1, ?_⟩
  rw [World.contents_modifyEntries, h.2, h.1.objects, ← hw.objects]
  exact hG

/-- A change of a key of an object. -/
theorem ObjectId.change_serves (hE : E.Serves k b G) (o : ObjectId) (key : String) (old new : Value)
    {f : List (String × Value) → List (String × Value)} (h : w.layout.Serves k b) (hG : G (w.changed o f)) :
    (o.change E.reactions key old new f).Leads w fun _ => World.Serves k b G := by
  have h₀ : w.Serves k b (· = w.contents) := ⟨h, rfl⟩
  have hbefore := hE.upholds_before w.contents
  refine Run.leads_nested (o.modifyEntries_serves h₀ h hG) ?_
  simp only [ObjectId.listeners, Run.leads_bind, Run.leads_stateGet, Run.leads_pure, Run.leads_holding]
  refine Run.Leads.imp (tellAll_leads (I := World.Serves k b (· = w.contents)) (fun lst hl => ?_) h₀) fun _ w₁ h₁ => ?_
  · obtain ⟨hl, he⟩ := mem_on.1 hl
    exact hbefore.object h₀ hl (he ▸ by simp) _
  refine (o.modifyEntries_serves h₁ h hG).imp fun _ w₂ h₂ => ?_
  refine Run.Leads.imp (tellAll_leads (fun lst hl => ?_) h₂) fun _ w₃ h₃ => ?_
  · obtain ⟨hl, -⟩ := mem_on.1 hl
    exact fun w' => hE.fire _ (h.object hl).1
  refine (ObjectId.tellEntry_leads hE.upholds trivial o key new h₃).imp fun _ w₄ h₄ => ?_
  exact hE.upholds.letGo _ h₄

end

/-! ## Writing -/

/-- A place in a container that there is. -/
def Place.Found (b : Extent) : Place → Prop
  | entry o _ | key o _ => o.index < b.objects
  | item l _ | element l _ => l.index < b.lists
  | length _ => False

theorem replaceRun_one {items : List Value} {index : Nat} (h : index < items.length) (v : Value) :
    replaceRun items index 1 [v] = setItem items index v := by
  rw [setItem, if_pos h, List.set_eq_take_append_cons_drop, if_pos h, replaceRun, List.append_assoc, List.singleton_append]

theorem replaceRun_end (items plus : List Value) : replaceRun items items.length 0 plus = items ++ plus := by
  simp [replaceRun]

theorem getD_setItem (items : List Value) (index : Nat) (v : Value) : (setItem items index v).getD index .undefined = v := by
  unfold setItem
  split
  · rename_i h
    simp [List.getD_eq_getElem?_getD, h]
  · rename_i h
    rw [List.getD_eq_getElem?_getD, List.getElem?_append_right (Nat.le_of_not_lt h), List.getElem?_append_right (by simp)]
    simp

section

variable {v : Value} {b : Extent} {G₀ G : Contents → Prop} {w w' : World (Callback π) (Env π σ)} {E : Engine π σ}

theorem World.contents_changed (h : G₀ w.contents) {o : ObjectId} {f : List (String × Value) → List (String × Value)} {k : Stroke}
    (hs : k.Spares G₀) (ht : k.Turns w.contents (w.contents.setEntries o (f (w.contents.entries o)))) : G₀ (w.changed o f) := by
  unfold World.changed
  split
  · exact hs _ _ h ht
  · exact h

theorem World.contents_replaced (h : G₀ w.contents) {l : ListId} {vs : List Value} {k : Stroke} (hs : k.Spares G₀)
    (ht : k.Turns w.contents (w.contents.setItems l vs)) : G₀ (w.replaced l vs) := by
  unfold World.replaced
  split
  · exact hs _ _ h ht
  · exact h

theorem World.entries_changed {o : ObjectId} {f : List (String × Value) → List (String × Value)} (ho : o.index < w.layout.objects) :
    (w.changed o f).entries o = f (w.contents.entries o) := by
  rw [World.changed, if_pos ho, Contents.setEntries]
  exact if_pos rfl

/-- A property is assigned. -/
theorem ObjectId.assign_serves (hE : E.Serves ⟨.assign, v⟩ b G) (hs : Stroke.Spares ⟨.assign, v⟩ G₀) (o : ObjectId)
    (name : String) (h : w.Serves ⟨.assign, v⟩ b G₀)
    (hdone : ∀ c, G₀ c → (o.index < b.objects → ((Place.entry o name).read c).same v = true) → G c) :
    (o.assign E.reactions name v).Leads w fun _ => World.Serves ⟨.assign, v⟩ b G := by
  have hput : ∀ es, (Fields.get? name (Fields.put name v es)).getD .undefined = v := fun es => by rw [Fields.get?_put_self]; rfl
  have made : G (w.changed o (Fields.put name v)) := by
    refine hdone _ (w.contents_changed h.2 hs (.entry v o name)) fun ho => ?_
    rw [Place.read, World.entries_changed (h.1.objects ▸ ho), hput]
    exact Value.same_refl v
  simp only [ObjectId.assign, ObjectId.entries, Run.leads_bind, Run.leads_stateGet, Run.leads_pure]
  split
  · rename_i old hold
    split
    · rename_i hsame
      refine ⟨h.1, hdone _ h.2 fun _ => ?_⟩
      rw [Place.read, show w.contents.entries o = _ from rfl]
      exact (congrArg (fun u : Option Value => (u.getD .undefined).same v = true) hold).mpr hsame
    · exact o.change_serves hE name old v h.1 made
  · split
    · rename_i hv
      obtain rfl : v = .undefined := by simpa [Value.isUndefined] using hv
      rw [Run.leads_bind]
      refine (o.modifyEntries_serves ⟨h.1, rfl⟩ h.1 made).imp fun _ w₁ h₁ => ?_
      refine Run.leads_nested h₁ ?_
      exact ObjectId.tellEntry_leads hE.upholds trivial o name .undefined h₁
    · exact o.change_serves hE name .undefined v h.1 made

/-- An item is assigned. -/
theorem ListId.assign_serves (hE : E.Serves ⟨.assign, v⟩ b G) (hs : Stroke.Spares ⟨.assign, v⟩ G₀) (l : ListId)
    (index : Nat) (h : w.Serves ⟨.assign, v⟩ b G₀)
    (hdone : ∀ c, G₀ c → (l.index < b.lists → ((Place.item l index).read c).same v = true) → G c) :
    (l.assign E.reactions index v).Leads w fun _ => World.Serves ⟨.assign, v⟩ b G := by
  have made : G (w.replaced l (setItem (w.contents.items l) index v)) := by
    refine hdone _ (w.contents_replaced h.2 hs (.item v l index)) fun hl => ?_
    rw [Place.read, World.replaced, if_pos (h.1.lists ▸ hl)]
    simp only [Contents.setItems, if_true, getD_setItem]
    exact Value.same_refl v
  have hitems : (w.listCell l).items = w.contents.items l := rfl
  simp only [ListId.assign, ListId.length, ListId.get, ListId.items, Run.leads_bind, Run.leads_get, Run.leads_pure, hitems]
  split
  · rename_i hlt
    rw [Run.leads_bind, Run.leads_bind, Run.leads_bind, Run.leads_get, Run.leads_pure, Run.leads_pure]
    split
    · rename_i hsame
      exact ⟨h.1, hdone _ h.2 fun _ => hsame⟩
    · rw [Run.leads_discard]
      refine l.splice_serves hE hlt (Or.inr Nat.one_pos) h.1 ?_
      rw [replaceRun_one hlt]
      exact made
  · rename_i hge
    rw [Run.leads_discard]
    refine l.splice_serves hE (Nat.le_refl _) (Or.inl (by simp)) h.1 ?_
    rw [replaceRun_end]
    rwa [setItem, if_neg hge] at made

/-- An item is deleted. -/
theorem ListId.delete_serves (hE : E.Serves ⟨.toggle, v⟩ b G) (hs : Stroke.Spares ⟨.toggle, v⟩ G) (hv : v.truthy = false)
    (l : ListId) (member : Value) (h : w.Serves ⟨.toggle, v⟩ b G) :
    (l.delete E.reactions member).Leads w fun found w' => w'.Serves ⟨.toggle, v⟩ b G ∧
      (found = false → member.memberOf (w'.contents.items l) = false) := by
  have hitems : (w.listCell l).items = w.contents.items l := rfl
  simp only [ListId.delete, ListId.indexOf, ListId.items, Run.leads_bind, Run.leads_get, Run.leads_pure, hitems]
  split
  · rename_i index hi
    obtain ⟨hlt, -⟩ := List.findIdx?_eq_some_iff_getElem.1 hi
    rw [Run.leads_bind, Run.leads_discard]
    have hremove : ([] : List Value) ≠ [] ∨ 0 < 1 := Or.inr Nat.one_pos
    refine Run.Leads.imp (l.splice_serves hE hlt hremove h.1 ?_) fun _ w₁ h₁ => ⟨h₁, fun h => by cases h⟩
    refine w.contents_replaced h.2 hs ?_
    rw [replaceRun, List.append_nil, ← List.eraseIdx_eq_take_drop_succ]
    exact .removed l index hv
  · rename_i hi
    refine ⟨h, fun _ => ?_⟩
    rw [Value.memberOf, List.any_eq_false]
    exact fun u hu => by simpa using List.findIdx?_eq_none_iff.1 hi u hu

theorem deleteAll_serves (hE : E.Serves ⟨.toggle, v⟩ b G) (hs : Stroke.Spares ⟨.toggle, v⟩ G) (hv : v.truthy = false)
    (l : ListId) (member : Value) (rounds : Nat) (h : w.Serves ⟨.toggle, v⟩ b G) :
    (deleteAll E l member rounds).Leads w fun _ w' => w'.Serves ⟨.toggle, v⟩ b G ∧
      member.memberOf (w'.contents.items l) = false := by
  induction rounds generalizing w with
  | zero => exact Run.leads_throw _
  | succ rounds ih =>
    rw [deleteAll, Run.leads_bind]
    refine (l.delete_serves hE hs hv member h).imp fun found w₁ h₁ => ?_
    split
    · exact ih h₁.1
    · rename_i hf
      exact ⟨h₁.1, h₁.2 (by simpa using hf)⟩

/-- The presence of a key is set. -/
theorem ObjectId.present_serves (hE : E.Serves ⟨.toggle, v⟩ b G) (hs : Stroke.Spares ⟨.toggle, v⟩ G₀) (o : ObjectId)
    (name : String) (h : w.Serves ⟨.toggle, v⟩ b G₀)
    (hdone : ∀ c, G₀ c → (o.index < b.objects → (Place.key o name).read c = .bool v.truthy) → G c) :
    (if v.truthy then o.assign E.reactions name (.bool true)
      else discard (o.delete E.reactions name)).Leads w fun _ => World.Serves ⟨.toggle, v⟩ b G := by
  have made : ∀ f : List (String × Value) → List (String × Value),
      Stroke.Turns w.contents ⟨.toggle, v⟩ (w.contents.setEntries o (f (w.contents.entries o))) →
      (∀ es, Fields.has name (f es) = v.truthy) → G (w.changed o f) := by
    refine fun f ht hf => hdone _ (w.contents_changed h.2 hs ht) fun ho => ?_
    rw [Place.read, World.entries_changed (h.1.objects ▸ ho), hf]
  cases hv : v.truthy with
  | true =>
    simp only [if_true, ObjectId.assign, ObjectId.entries, Run.leads_bind, Run.leads_stateGet, Run.leads_pure]
    have hput := made (Fields.put name (.bool true)) (.keyed o name hv) fun es => by simp [Fields.has, hv]
    split
    · rename_i old hold
      split
      · refine ⟨h.1, hdone _ h.2 fun _ => ?_⟩
        rw [Place.read, hv, Fields.has, show w.contents.entries o = _ from rfl]
        exact congrArg (fun u : Option Value => Value.bool u.isSome) hold
      · exact o.change_serves hE name old _ h.1 hput
    · exact o.change_serves hE name .undefined _ h.1 hput
  | false =>
    simp only [Bool.false_eq_true, if_false, Run.leads_discard, ObjectId.delete, ObjectId.entries, Run.leads_bind,
      Run.leads_stateGet, Run.leads_pure]
    split
    · rename_i old hold
      rw [Run.leads_bind]
      exact o.change_serves hE name old .undefined h.1
        (made (Fields.erase name) (.unkeyed o name hv) fun es => by simp [Fields.has, hv])
    · rename_i hnone
      refine ⟨h.1, hdone _ h.2 fun _ => ?_⟩
      rw [Place.read, hv, Fields.has, show w.contents.entries o = _ from rfl]
      exact congrArg (fun u : Option Value => Value.bool u.isSome) hnone

/-- The presence of an element is set. -/
theorem ListId.present_serves (hE₀ : E.Serves ⟨.toggle, v⟩ b G₀) (hE : E.Serves ⟨.toggle, v⟩ b G)
    (hs : Stroke.Spares ⟨.toggle, v⟩ G₀) (l : ListId) (member : Value) (h : w.Serves ⟨.toggle, v⟩ b G₀)
    (hdone : ∀ c, G₀ c → (l.index < b.lists → (Place.element l member).read c = .bool v.truthy) → G c) :
    (setPresence E (.list l) member v.truthy).Leads w fun _ => World.Serves ⟨.toggle, v⟩ b G := by
  have hitems : (w.listCell l).items = w.contents.items l := rfl
  cases hv : v.truthy with
  | true =>
    simp only [setPresence, ListId.contains, ListId.items, Run.leads_bind, Run.leads_get, Run.leads_pure, hitems, if_true]
    split
    · simp only [ListId.push, ListId.length, ListId.items, Run.leads_bind, Run.leads_get, Run.leads_pure, Run.leads_discard,
        hitems]
      refine l.splice_serves hE (Nat.le_refl _) (Or.inl (by simp)) h.1 ?_
      rw [replaceRun_end]
      refine hdone _ (w.contents_replaced h.2 hs (.added l member hv)) fun hl => ?_
      rw [Place.read, World.replaced, if_pos (h.1.lists ▸ hl), hv]
      simp [Contents.setItems, Value.memberOf]
    · rename_i hin
      refine ⟨h.1, hdone _ h.2 fun _ => ?_⟩
      rw [Place.read, hv]
      exact congrArg Value.bool (by simpa using hin)
  | false =>
    simp only [setPresence, Bool.false_eq_true, if_false, ListId.length, ListId.items, Run.leads_bind, Run.leads_get,
      Run.leads_pure]
    refine (deleteAll_serves hE₀ hs hv l member _ h).imp fun _ w₁ h₁ => ⟨h₁.1.1, hdone _ h₁.1.2 fun _ => ?_⟩
    rw [Place.read, h₁.2, hv]

theorem asksLength_of_asIndex {key : Value} {index : Nat} (h : key.asIndex = some index) : asksLength key = false := by
  by_contra hl
  obtain rfl : key = .text "length" := by simpa [asksLength] using hl
  cases h

/-- The stroke is made where a container has a key. -/
theorem write_serves {k : Stroke} (hE₀ : E.Serves k b G₀) (hE : E.Serves k b G) (hs : k.Spares G₀) (container key : Value)
    (h : w.Serves k b G₀)
    (hdone : ∀ c, G₀ c → (∀ p, k.how.followed.spot w.contents container key = .place p → p.Found b →
      (p.read c).same k.result = true) → G c) :
    (write E k.how container key k.value).Leads w fun _ => World.Serves k b G := by
  have idle : (∀ p, k.how.followed.spot w.contents container key = .place p → ¬p.Found b) → w.Serves k b G := fun hn =>
    ⟨h.1, hdone _ h.2 fun p hp hf => absurd hf (hn p hp)⟩
  obtain ⟨how, v⟩ := k
  cases how with
  | assign =>
    cases container with
    | object o =>
      simp only [write, assignUnder, contents, Run.leads_bind, Run.leads_get, Run.leads_pure]
      refine o.assign_serves hE hs _ h fun c hc hr => hdone c hc ?_
      rintro _ ⟨rfl⟩ hf
      exact hr hf
    | list l =>
      simp only [write, assignUnder]
      cases hi : key.asIndex with
      | none =>
        refine idle ?_
        simp only [Writing.followed, Followed.spot, hi]
        split
        · rintro _ ⟨rfl⟩
          exact id
        · rintro p hp
          cases hp
      | some index =>
        refine l.assign_serves hE hs index h fun c hc hr => hdone c hc ?_
        simp only [Writing.followed, Followed.spot, asksLength_of_asIndex hi, hi, Bool.false_eq_true, if_false]
        rintro _ ⟨rfl⟩ hf
        exact hr hf
    | undefined | null | bool | number | text => exact idle fun p hp => by cases hp
  | toggle =>
    cases container with
    | object o =>
      have key := o.present_serves hE hs (w.contents.key key) h fun c hc hr => hdone c hc (by
        rintro _ ⟨rfl⟩ hf
        rw [hr hf]
        exact Value.same_refl _)
      simp only [write, setPresence, contents, Run.leads_bind, Run.leads_get, Run.leads_pure]
      split
      · rename_i hv
        rwa [if_pos hv] at key
      · rename_i hv
        rwa [if_neg hv] at key
    | list l =>
      refine l.present_serves hE₀ hE hs key h fun c hc hr => hdone c hc ?_
      rintro _ ⟨rfl⟩ hf
      rw [hr hf]
      exact Value.same_refl _
    | undefined | null | bool | number | text => exact idle fun p hp => by cases hp

/-- Whatever survives the stroke survives it where a container has a key. -/
theorem write_spares {k : Stroke} (hE : E.Serves k b G) (hs : k.Spares G) (container key : Value) (h : w.Serves k b G) :
    (write E k.how container key k.value).Leads w fun _ => World.Serves k b G :=
  write_serves hE hE hs container key h fun _ hc _ => hc

end

end LiveBindings
