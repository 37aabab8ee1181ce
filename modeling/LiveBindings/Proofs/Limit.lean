import LiveBindings.Proofs.Mirror

/-!
# Changes at the limit of nested dispatches

A list or an object is changed while as many dispatches are in flight as the configuration allows. Under the policy that skips
dispatches the change is made as it would be made to a container that nobody listens to, with the same answer, and nobody is
called (`Operation.silent_at_limit`). Under the policy that refuses it nothing is changed (`Operation.refused_at_limit`), with
one exception: a key that is new with the value `undefined` is there before the limit is looked at, and stays when the rest is
refused (`ObjectId.assign_undefined_refused`).
-/

namespace LiveBindings

variable {κ ε α β : Type}

/-! ## Operations -/

/-- An operation that changes an object. -/
inductive ObjectOperation
  | set (key : String) (value : Value)
  | delete (key : String)

namespace ObjectOperation

/-- What an operation returns. -/
def Answer : ObjectOperation → Type
  | set _ _ => PUnit
  | delete _ => Option Value

def run (R : Reactions κ ε) (o : ObjectId) : (op : ObjectOperation) → Run κ ε op.Answer
  | set key value => o.assign R key value
  | delete key => o.delete R key

end ObjectOperation

/-- An operation that changes a list or an object. -/
inductive Operation (κ ε : Type)
  | list (l : ListId) (op : ListOperation κ ε)
  | object (o : ObjectId) (op : ObjectOperation)

namespace Operation

/-- What an operation returns. -/
def Answer : Operation κ ε → Type
  | list _ op => op.Answer
  | object _ op => op.Answer

def run (R : Reactions κ ε) : (op : Operation κ ε) → Run κ ε op.Answer
  | list l op => op.run R l
  | object o op => op.run R o

/-- The kind of the container that is changed. -/
def container : Operation κ ε → Kind
  | list _ _ => .list
  | object _ _ => .object

/-- A comparison of items looks at nothing but what containers hold. -/
def Impartial : Operation κ ε → Prop
  | list _ (.sortBy compare) => ∀ w w', w.contents = w'.contents → compare w = compare w'
  | _ => True

/-- The world with nobody listening to the container and no dispatch in flight. -/
def unheard (w : World κ ε) : Operation κ ε → World κ ε
  | list l _ => { w.modifyList l fun c => { c with listeners := [] } with depth := 0, config := {} }
  | object o _ => { w.modifyObject o fun c => { c with listeners := [] } with depth := 0, config := {} }

/-- The operation makes a key that is new with the value `undefined`. -/
def MakesUndefined (w : World κ ε) : Operation κ ε → Prop
  | object o (.set key value) => Fields.get? key (w.objectCell o).entries = none ∧ value.isUndefined
  | _ => False

end Operation

/-! ## Two runs side by side -/

/-- Two runs return the same, and leave worlds of which `P` holds. -/
def Run.Parallel (P : World κ ε → World κ ε → Prop) (act act' : Run κ ε α) (w w' : World κ ε) : Prop :=
  ∃ a w₁ w₁', act w = .ok a w₁ ∧ act' w' = .ok a w₁' ∧ P w₁ w₁'

namespace Run.Parallel

variable {P Q : World κ ε → World κ ε → Prop} {act act' : Run κ ε α} {f f' : α → Run κ ε β} {w w' : World κ ε}

theorem pure (h : P w w') (a : α) : Run.Parallel P (Pure.pure a) (Pure.pure a) w w' := ⟨a, w, w', rfl, rfl, h⟩

theorem bind (h : Run.Parallel P act act' w w') (hf : ∀ a w₁ w₁', P w₁ w₁' → Run.Parallel Q (f a) (f' a) w₁ w₁') :
    Run.Parallel Q (act >>= f) (act' >>= f') w w' := by
  obtain ⟨a, w₁, w₁', h₁, h₁', hP⟩ := h
  obtain ⟨b, w₂, w₂', h₂, h₂', hQ⟩ := hf a w₁ w₁' hP
  refine ⟨b, w₂, w₂', ?_, ?_, hQ⟩
  · change EStateM.bind act f w = _
    rw [EStateM.bind, h₁]
    exact h₂
  · change EStateM.bind act' f' w' = _
    rw [EStateM.bind, h₁']
    exact h₂'

/-- Both runs read the same. -/
theorem read {a : α} (h : act w = .ok a w) (h' : act' w' = .ok a w') (hf : Run.Parallel P (f a) (f' a) w w') :
    Run.Parallel P (act >>= f) (act' >>= f') w w' := by
  obtain ⟨b, w₁, w₁', h₁, h₁', hP⟩ := hf
  refine ⟨b, w₁, w₁', ?_, ?_, hP⟩
  · change EStateM.bind act f w = _
    rw [EStateM.bind, h]
    exact h₁
  · change EStateM.bind act' f' w' = _
    rw [EStateM.bind, h']
    exact h₁'

/-- What both runs return is made the same of. -/
theorem map (h : Run.Parallel P act act' w w') (g : α → β) :
    Run.Parallel P (act >>= fun a => Pure.pure (g a)) (act' >>= fun a => Pure.pure (g a)) w w' :=
  h.bind fun a _ _ hP => .pure hP (g a)

theorem discard (h : Run.Parallel P act act' w w') : Run.Parallel P (Functor.discard act) (Functor.discard act') w w' := by
  obtain ⟨a, w₁, w₁', h₁, h₁', hP⟩ := h
  refine ⟨⟨⟩, w₁, w₁', ?_, ?_, hP⟩
  · change EStateM.map _ act w = _
    rw [EStateM.map, h₁]
  · change EStateM.map _ act' w' = _
    rw [EStateM.map, h₁']

end Run.Parallel

section

variable {R R' : Reactions κ ε} {l : ListId} {o : ObjectId} {w w' : World κ ε} {P : World κ ε → World κ ε → Prop}

theorem ListId.items_congr (hc : w.contents = w'.contents) (l : ListId) :
    (w.listCell l).items = (w'.listCell l).items :=
  congrArg (fun c => Contents.items c l) hc

theorem ObjectId.entries_congr (hc : w.contents = w'.contents) (o : ObjectId) :
    (w.objectCell o).entries = (w'.objectCell o).entries :=
  congrArg (fun c => Contents.entries c o) hc

/-- A step sets the items of a list, to the same items wherever containers hold the same. -/
def ListId.Steps (l : ListId) (w : World κ ε) (mutate : Run κ ε ListReport) : Prop :=
  ∃ report items, ∀ u, u.contents = w.contents → mutate u = .ok report (u.modifyList l fun c => { c with items })

theorem ListId.replaceItems_steps (l : ListId) (w : World κ ε) (index remove : Nat) (plus : List Value) :
    l.Steps w (l.replaceItems index remove plus) := by
  let items := (w.listCell l).items
  let start := min index items.length
  let stop := min (index + remove) items.length
  refine ⟨⟨start, plus, (items.take stop).drop start⟩, replaceRun items start (stop - start) plus, fun u hu => ?_⟩
  simp only [items, start, stop, ← ListId.items_congr hu l]
  rfl

/-- Changes go side by side: each step that is made in one run is made in the other. -/
def ListId.Together (l : ListId) (P : World κ ε → World κ ε → Prop) (R R' : Reactions κ ε) (w w' : World κ ε) : Prop :=
  ∀ change before mutate, l.Steps w mutate →
    Run.Parallel P (l.apply R change before mutate) (l.apply R' change before mutate) w w'

theorem ListId.splice_parallel (hP : P w w') (hc : w.contents = w'.contents) (apply : l.Together P R R' w w')
    (index remove : Nat) (plus : List Value) :
    Run.Parallel P (l.splice R index remove plus) (l.splice R' index remove plus) w w' := by
  have hitems : (l.items : Run κ ε _) w' = .ok (w.listCell l).items w' := by
    rw [ListId.items_congr hc l]
    rfl
  unfold ListId.splice
  refine .read rfl hitems ?_
  dsimp only
  split
  · exact .pure hP []
  · exact (apply _ _ _ (l.replaceItems_steps w _ _ _)).map ListReport.removed

theorem ListId.reorder_parallel (hP : P w w') (hc : w.contents = w'.contents) (apply : l.Together P R R' w w')
    {order : World κ ε → List Value → List Value} (ho : ∀ u u', u.contents = u'.contents → order u = order u') :
    Run.Parallel P (l.reorder R order) (l.reorder R' order) w w' := by
  have hitems : (l.items : Run κ ε _) w' = .ok (w.listCell l).items w' := by
    rw [ListId.items_congr hc l]
    rfl
  unfold ListId.reorder
  refine .read rfl hitems ?_
  dsimp only
  split
  · exact .pure hP ()
  · refine (apply _ _ _ ?_).discard
    refine ⟨⟨0, order w (w.listCell l).items, order w (w.listCell l).items⟩, order w (w.listCell l).items, fun u hu => ?_⟩
    rw [← ho u w hu, ← ListId.items_congr hu l]
    rfl

/-- An operation on a list goes the same way in two worlds with the same contents when its change does. -/
theorem ListOperation.run_parallel (hP : P w w') (hc : w.contents = w'.contents) (apply : l.Together P R R' w w')
    {op : ListOperation κ ε} (hop : (Operation.list l op).Impartial) : Run.Parallel P (op.run R l) (op.run R' l) w w' := by
  have splice := fun index remove plus => l.splice_parallel hP hc apply index remove plus
  have hsort : ∀ compare : World κ ε → Value → Value → Ordering,
      (∀ u u', u.contents = u'.contents → compare u = compare u') →
        Run.Parallel P (l.sortBy R compare) (l.sortBy R' compare) w w' := by
    intro compare hcompare
    refine l.reorder_parallel hP hc apply fun u u' h => ?_
    rw [hcompare u u' h]
  have hi := ListId.items_congr hc l
  have hlength : (l.length : Run κ ε Nat) w' = .ok (w.listCell l).items.length w' := by rw [hi]; rfl
  cases op with
  | splice index remove plus => exact splice index remove plus
  | push values =>
    change Run.Parallel P (l.push R values) (l.push R' values) w w'
    unfold ListId.push
    exact .read rfl hlength (splice _ _ _).discard
  | pop =>
    change Run.Parallel P (l.pop R) (l.pop R') w w'
    unfold ListId.pop
    refine .read rfl hlength ?_
    split
    · exact .pure hP none
    · exact (splice _ _ _).map List.getLast?
  | shift =>
    change Run.Parallel P (l.shift R) (l.shift R') w w'
    unfold ListId.shift
    refine .read rfl hlength ?_
    split
    · exact .pure hP none
    · exact (splice _ _ _).map List.getLast?
  | unshift values => exact (splice 0 0 values).discard
  | set index value =>
    have hget : (l.get index : Run κ ε Value) w' = .ok ((w.listCell l).items.getD index .undefined) w' := by rw [hi]; rfl
    change Run.Parallel P (l.assign R index value) (l.assign R' index value) w w'
    unfold ListId.assign
    refine .read rfl hlength ?_
    split
    · refine .read rfl hget ?_
      split
      · exact .pure hP ()
      · exact (splice _ _ _).discard
    · exact (splice _ _ _).discard
  | delete value =>
    have hindex : (l.indexOf value : Run κ ε (Option Nat)) w' =
        .ok ((w.listCell l).items.findIdx? (·.same value)) w' := by rw [hi]; rfl
    change Run.Parallel P (l.delete R value) (l.delete R' value) w w'
    unfold ListId.delete
    refine .read rfl hindex ?_
    split
    · exact (splice _ _ _).discard.bind fun _ _ _ h => .pure h true
    · exact .pure hP false
  | wipe =>
    change Run.Parallel P (l.wipe R) (l.wipe R') w w'
    unfold ListId.wipe
    exact .read rfl hlength (splice _ _ _).discard
  | replaceAll values =>
    change Run.Parallel P (l.replaceAll R values) (l.replaceAll R' values) w w'
    unfold ListId.replaceAll
    exact .read rfl hlength (splice _ _ _).discard
  | reverse => exact l.reorder_parallel hP hc apply fun _ _ _ => rfl
  | sort => exact hsort (fun _ => Value.compare) fun _ _ _ => rfl
  | sortBy compare =>
    exact hsort compare hop

/-- An operation on an object goes the same way in two worlds with the same contents, when changes do. -/
theorem ObjectOperation.run_parallel (hP : P w w') (hc : w.contents = w'.contents)
    (change : ∀ key old new f, Run.Parallel P (o.change R key old new f) (o.change R' key old new f) w w')
    (fresh : ∀ key, Run.Parallel P
      (do o.modifyEntries (Fields.put key .undefined); nested .object (pure ()) (o.tellEntry R key .undefined))
      (do o.modifyEntries (Fields.put key .undefined); nested .object (pure ()) (o.tellEntry R' key .undefined)) w w')
    (op : ObjectOperation) : Run.Parallel P (op.run R o) (op.run R' o) w w' := by
  have hentries : (o.entries : Run κ ε _) w' = .ok (w.objectCell o).entries w' := by
    rw [ObjectId.entries_congr hc o]
    rfl
  cases op with
  | set key value =>
    change Run.Parallel P (o.assign R key value) (o.assign R' key value) w w'
    unfold ObjectId.assign
    refine .read rfl hentries ?_
    split
    · split
      · exact .pure hP ()
      · exact change _ _ _ _
    · split
      · exact fresh key
      · exact change _ _ _ _
  | delete key =>
    change Run.Parallel P (o.delete R key) (o.delete R' key) w w'
    unfold ObjectId.delete
    refine .read rfl hentries ?_
    split
    · exact (change _ _ _ _).bind fun _ _ _ h => .pure h (some _)
    · exact .pure hP none

end

/-- Whether a change of a container would be refused: the limit of nested dispatches is reached under the policy that panics. -/
def World.refuses (w : World κ ε) : Bool := decide (w.config.maxDispatchDepth ≤ w.depth) && w.config.onDepthExceeded == .panic

/-! ## Nobody is called at the limit -/

section

variable {R R' : Reactions κ ε} {l : ListId} {o : ObjectId} {w w' : World κ ε}

theorem nested_silent {container : Kind} {silent act : Run κ ε α} (limit : w.config.maxDispatchDepth ≤ w.depth)
    (skip : w.config.onDepthExceeded = .skip) : nested container silent act w = silent w := by
  change (if _ then _ else _ : Run κ ε α) w = _
  rw [if_pos limit, skip]

theorem nested_refused {container : Kind} {silent act : Run κ ε α} (limit : w.config.maxDispatchDepth ≤ w.depth)
    (panic : w.config.onDepthExceeded = .panic) :
    nested container silent act w = .error (.depthLimit container w.depth) w := by
  change (if _ then _ else _ : Run κ ε α) w = _
  rw [if_pos limit, panic]
  rfl

/-- A world in which nothing but the items of a list is another, if anything is. -/
def ListId.Sets (l : ListId) (w w' : World κ ε) : Prop := w' = w ∨ ∃ items, w' = w.modifyList l fun c => { c with items }

/-- A world in which nothing but the entries of an object are others, if anything is. -/
def ObjectId.Sets (o : ObjectId) (w w' : World κ ε) : Prop :=
  w' = w ∨ ∃ f : List (String × Value) → List (String × Value), w' = w.modifyObject o fun c => { c with entries := f c.entries }

/-- A world in which nothing but the contents of the container that is changed are others, if anything is. -/
def Operation.Sets (w w' : World κ ε) : Operation κ ε → Prop
  | .list l _ => l.Sets w w'
  | .object o _ => o.Sets w w'

section

variable (limit : w.config.maxDispatchDepth ≤ w.depth) (skip : w.config.onDepthExceeded = .skip)
include limit skip

/-- At the limit the listeners are not called, and what they would do makes no difference. -/
theorem ListId.together_silent : l.Together (fun u u' => u = u' ∧ l.Sets w u) R R' w w := by
  rintro change before mutate ⟨report, items, hstep⟩
  exact ⟨report, _, _, (nested_silent limit skip).trans (hstep w rfl), (nested_silent limit skip).trans (hstep w rfl), rfl,
    .inr ⟨items, rfl⟩⟩

theorem ObjectId.change_silent (key : String) (old new : Value) (f : List (String × Value) → List (String × Value)) :
    Run.Parallel (fun u u' => u = u' ∧ o.Sets w u) (o.change R key old new f) (o.change R' key old new f) w w :=
  ⟨(), _, _, nested_silent limit skip, nested_silent limit skip, rfl, .inr ⟨f, rfl⟩⟩

/-- An assignment of `undefined` to a new key. -/
theorem ObjectId.fresh_silent (key : String) :
    Run.Parallel (fun u u' => u = u' ∧ o.Sets w u)
      (do o.modifyEntries (Fields.put key .undefined); nested .object (pure ()) (o.tellEntry R key .undefined))
      (do o.modifyEntries (Fields.put key .undefined); nested .object (pure ()) (o.tellEntry R' key .undefined)) w w := by
  have hentered : Run.Parallel (fun u u' => u = u' ∧ o.Sets w u ∧ u.config = w.config ∧ u.depth = w.depth)
      (o.modifyEntries (Fields.put key .undefined)) (o.modifyEntries (Fields.put key .undefined)) w w :=
    ⟨(), _, _, rfl, rfl, rfl, .inr ⟨_, rfl⟩, rfl, rfl⟩
  refine hentered.bind ?_
  rintro _ u _ ⟨rfl, hsets, hconfig, hdepth⟩
  have limit' : u.config.maxDispatchDepth ≤ u.depth := by
    rw [hconfig, hdepth]
    exact limit
  have hnobody : ∀ R : Reactions κ ε, nested .object (pure ()) (o.tellEntry R key .undefined) u = .ok () u :=
    fun R => nested_silent limit' (hconfig ▸ skip)
  exact ⟨(), u, u, hnobody R, hnobody R', rfl, hsets⟩

end

/-! ## A container that nobody listens to -/

theorem World.contents_setItems {u : World κ ε} (hc : u.contents = w.contents) (hs : u.lists.size = w.lists.size)
    (l : ListId) (items : List Value) :
    (u.modifyList l fun c => { c with items }).contents = (w.modifyList l fun c => { c with items }).contents := by
  have hitems : ∀ l', ((u.modifyList l fun c => { c with items }).listCell l').items =
      ((w.modifyList l fun c => { c with items }).listCell l').items := by
    intro l'
    rw [World.listCell_modifyList, World.listCell_modifyList, hs]
    split
    · rfl
    · exact ListId.items_congr hc l'
  have hentries : ∀ o, ((u.modifyList l fun c => { c with items }).objectCell o).entries =
      ((w.modifyList l fun c => { c with items }).objectCell o).entries :=
    fun o => congrArg (fun c => Contents.entries c o) hc
  have hcount : u.lists.size + u.objects.size = w.lists.size + w.objects.size := congrArg Contents.count hc
  simp only [World.contents, hitems, hentries, World.lists_size_modifyList]
  rw [show (u.modifyList l fun c => { c with items }).objects = u.objects from rfl, hcount]
  rfl

/-- Nobody begins to listen when something else about a list changes. -/
theorem World.listeners_modifyList {f : ListCell κ → ListCell κ} (hf : ∀ c, (f c).listeners = c.listeners)
    (h : (w.listCell l).listeners = []) : ((w.modifyList l f).listCell l).listeners = [] := by
  rw [World.listCell_modifyList]
  split
  · rw [hf]
    exact h
  · exact h

/-- A change of a list that nobody listens to is only its step. -/
theorem ListId.apply_unheard (hR : R.letGo = pure ()) (hls : (w.listCell l).listeners = [])
    (hd : w.depth < w.config.maxDispatchDepth) {change : ListChange} {before report : ListReport} {items : List Value}
    {mutate : Run κ ε ListReport}
    (hstep : ∀ u, u.contents = w.contents → mutate u = .ok report (u.modifyList l fun c => { c with items })) :
    (l.apply R change before mutate).Ends w fun a w' =>
      a = report ∧ w'.contents = (w.modifyList l fun c => { c with items }).contents := by
  have hon : ∀ topic (u : World κ ε), (u.listCell l).listeners = [] → Listeners.on topic (u.listCell l).listeners = [] :=
    fun topic u hu => by rw [hu]; rfl
  -- Only how many dispatches are in flight is noted before the step.
  have hopened : (l.opening R change before).Ends w.deeper fun _ u =>
      u.contents = w.contents ∧ u.lists.size = w.lists.size ∧ (u.listCell l).listeners = [] := by
    have hcounted : ((w.deeper.modifyList l fun c => { c with dispatching := c.dispatching + 1 }).listCell l).listeners = [] :=
      World.listeners_modifyList (fun _ => rfl) hls
    have hrest : Run.Ends (do
        modify (World.modifyList l fun c => { c with dispatching := c.dispatching + 1 })
        l.tellContent R .beforeContent before
        l.tellSpan R .beforeEach change) w.deeper fun _ u =>
          u.contents = w.contents ∧ u.lists.size = w.lists.size ∧ (u.listCell l).listeners = [] := by
      rw [Run.ends_bind, Run.ends_modify, Run.ends_bind, ListId.tellContent_unheard (hon _ _ hcounted),
        ListId.tellSpan_unheard (hon _ _ hcounted)]
      exact ⟨World.contents_modifyList fun _ => rfl, World.lists_size_modifyList .., hcounted⟩
    unfold ListId.opening
    split
    · rw [Run.ends_bind, ListId.tellLength_unheard hR (hon _ w.deeper hls)]
      exact hrest
    · exact hrest
  rw [ListId.apply_ends_iff hd]
  refine hopened.imp ?_
  rintro _ u ⟨hc, hs, hnone⟩
  refine Run.ends_iff.2 ⟨report, _, hstep u hc, ?_⟩
  have hset := World.contents_setItems hc hs l items
  have hnone' : ((u.modifyList l fun c => { c with items }).listCell l).listeners = [] :=
    World.listeners_modifyList (fun _ => rfl) hnone
  unfold ListId.closing
  rw [Run.ends_bind, ListId.tellSpan_unheard (hon _ _ hnone'), Run.ends_bind, ListId.tellContent_unheard (hon _ _ hnone'),
    Run.ends_bind, Run.ends_modify]
  have hsettled : (World.modifyList l (fun c => { c with dispatching := c.dispatching - 1 })
      (u.modifyList l fun c => { c with items })).contents = (w.modifyList l fun c => { c with items }).contents :=
    Eq.trans (World.contents_modifyList fun _ => rfl) hset
  split
  · rw [Run.ends_bind, ListId.ends_length, ListId.tellLength_unheard hR]
    · exact ⟨rfl, hsettled⟩
    · exact hon _ _ (World.listeners_modifyList (fun _ => rfl) hnone')
  · exact ⟨rfl, hsettled⟩

theorem World.contents_setEntries {u : World κ ε} (hc : u.contents = w.contents) (hs : u.objects.size = w.objects.size)
    (o : ObjectId) (f : List (String × Value) → List (String × Value)) :
    (u.modifyObject o fun c => { c with entries := f c.entries }).contents =
      (w.modifyObject o fun c => { c with entries := f c.entries }).contents := by
  have hentries : ∀ o', ((u.modifyObject o fun c => { c with entries := f c.entries }).objectCell o').entries =
      ((w.modifyObject o fun c => { c with entries := f c.entries }).objectCell o').entries := by
    intro o'
    rw [World.objectCell_modifyObject, World.objectCell_modifyObject, hs]
    split
    · exact congrArg f (ObjectId.entries_congr hc o)
    · exact ObjectId.entries_congr hc o'
  have hitems : ∀ l, ((u.modifyObject o fun c => { c with entries := f c.entries }).listCell l).items =
      ((w.modifyObject o fun c => { c with entries := f c.entries }).listCell l).items :=
    fun l => congrArg (fun c => Contents.items c l) hc
  have hcount : u.lists.size + u.objects.size = w.lists.size + w.objects.size := congrArg Contents.count hc
  simp only [World.contents, hitems, hentries, World.objects_size_modifyObject]
  rw [show (u.modifyObject o fun c => { c with entries := f c.entries }).lists = u.lists from rfl, hcount]
  rfl

theorem World.listeners_modifyObject {f : ObjectCell κ → ObjectCell κ} (hf : ∀ c, (f c).listeners = c.listeners)
    (h : (w.objectCell o).listeners = []) : ((w.modifyObject o f).objectCell o).listeners = [] := by
  rw [World.objectCell_modifyObject]
  split
  · rw [hf]
    exact h
  · exact h

theorem ObjectId.tellEntry_unheard (hR : R.letGo = pure ()) (hls : (w.objectCell o).listeners = []) (key : String)
    (value : Value) {Q : Unit → World κ ε → Prop} : (o.tellEntry R key value).Ends w Q ↔ Q () w := by
  have hon : Listeners.on .entries (w.objectCell o).listeners = [] := by
    rw [hls]
    rfl
  simp only [ObjectId.tellEntry, Run.ends_bind, ObjectId.ends_listeners, hon, List.map_nil, Run.ends_holding, tellAll,
    Run.ends_pure, hR]

/-- A change of an object that nobody listens to is only the change of its entries. -/
theorem ObjectId.change_unheard (hR : R.letGo = pure ()) (hls : (w.objectCell o).listeners = [])
    (hd : w.depth < w.config.maxDispatchDepth) (key : String) (old new : Value)
    (f : List (String × Value) → List (String × Value)) :
    (o.change R key old new f).Ends w fun _ w' => w' = w.modifyObject o fun c => { c with entries := f c.entries } := by
  have hon : ∀ topic, Listeners.on topic (w.objectCell o).listeners = [] := fun topic => by rw [hls]; rfl
  have hon' : ∀ topic, Listeners.on topic (World.objectCell { w with depth := w.depth + 1 } o).listeners = [] := hon
  have hnone : ((World.modifyObject o (fun c => { c with entries := f c.entries })
      { w with depth := w.depth + 1, held := [] ++ w.held }).objectCell o).listeners = [] :=
    World.listeners_modifyObject (fun _ => rfl) hls
  unfold ObjectId.change
  rw [Run.ends_nested hd]
  simp only [Run.ends_bind, ObjectId.ends_listeners, hon', List.append_nil, List.map_nil, Run.ends_holding, tellAll,
    Run.ends_pure, ObjectId.modifyEntries, Run.ends_modify]
  rw [ObjectId.tellEntry_unheard hR hnone, hR, Run.ends_pure]
  rfl

/-- Nobody listens to a list whose listeners are removed. -/
theorem World.unheard_list (w : World κ ε) (l : ListId) :
    ((w.modifyList l fun c => { c with listeners := [] }).listCell l).listeners = [] := by
  rw [World.listCell_modifyList]
  split
  · rfl
  · rename_i h
    have hl : ¬l.index < w.lists.size := fun hl => h ⟨rfl, hl⟩
    simp [World.listCell, Array.getD_eq_getD_getElem?, hl]

theorem World.unheard_object (w : World κ ε) (o : ObjectId) :
    ((w.modifyObject o fun c => { c with listeners := [] }).objectCell o).listeners = [] := by
  rw [World.objectCell_modifyObject]
  split
  · rfl
  · rename_i h
    have ho : ¬o.index < w.objects.size := fun ho => h ⟨rfl, ho⟩
    simp [World.objectCell, Array.getD_eq_getD_getElem?, ho]

theorem Operation.unheard_contents (op : Operation κ ε) : (op.unheard w).contents = w.contents := by
  cases op with
  | list l op => exact World.contents_modifyList (w := w) (l := l) (f := fun c => { c with listeners := [] }) fun _ => rfl
  | object o op => exact World.contents_modifyObject (w := w) (o := o) (f := fun c => { c with listeners := [] }) fun _ => rfl

theorem Operation.unheard_below (op : Operation κ ε) : (op.unheard w).depth < (op.unheard w).config.maxDispatchDepth := by
  cases op <;> exact Nat.succ_pos 255

section

variable (limit : w.config.maxDispatchDepth ≤ w.depth) (skip : w.config.onDepthExceeded = .skip)
include limit skip

/-- A list that is changed at the limit and one that nobody listens to become the same. -/
theorem ListId.together_unheard (hR : R'.letGo = pure ()) (op : ListOperation κ ε) :
    l.Together (fun u u' => u.contents = u'.contents) R R' w ((Operation.list l op).unheard w) := by
  rintro change before mutate ⟨report, items, hstep⟩
  have hcontents : ((Operation.list l op).unheard w).contents = w.contents := Operation.unheard_contents _
  have hsize : ((Operation.list l op).unheard w).lists.size = w.lists.size := World.lists_size_modifyList ..
  have hnone : (((Operation.list l op).unheard w).listCell l).listeners = [] := w.unheard_list l
  have hends : (l.apply R' change before mutate).Ends ((Operation.list l op).unheard w) _ :=
    ListId.apply_unheard hR hnone (Operation.list l op).unheard_below fun u hu => hstep u (hu.trans hcontents)
  obtain ⟨a, w₁, hrun, rfl, hset⟩ := Run.ends_iff.1 hends
  refine ⟨a, _, w₁, (nested_silent limit skip).trans (hstep w rfl), hrun, ?_⟩
  exact (hset.trans (World.contents_setItems hcontents hsize l items)).symm

theorem ObjectId.change_both (hR : R'.letGo = pure ()) (op : ObjectOperation) (key : String) (old new : Value)
    (f : List (String × Value) → List (String × Value)) :
    Run.Parallel (fun u u' => u.contents = u'.contents) (o.change R key old new f) (o.change R' key old new f) w
      ((Operation.object o op).unheard w) := by
  have hcontents : ((Operation.object o op).unheard w).contents = w.contents := Operation.unheard_contents _
  have hsize : ((Operation.object o op).unheard w).objects.size = w.objects.size := World.objects_size_modifyObject ..
  have hends := ObjectId.change_unheard (w := (Operation.object o op).unheard w) hR (w.unheard_object o)
    (Operation.object o op).unheard_below key old new f
  obtain ⟨a, w₁, hrun, hset⟩ := Run.ends_iff.1 hends
  refine ⟨(), _, w₁, nested_silent limit skip, hrun, ?_⟩
  rw [hset]
  exact (World.contents_setEntries hcontents hsize o f).symm

theorem ObjectId.fresh_both (hR : R'.letGo = pure ()) (op : ObjectOperation) (key : String) :
    Run.Parallel (fun u u' => u.contents = u'.contents)
      (do o.modifyEntries (Fields.put key .undefined); nested .object (pure ()) (o.tellEntry R key .undefined))
      (do o.modifyEntries (Fields.put key .undefined); nested .object (pure ()) (o.tellEntry R' key .undefined)) w
      ((Operation.object o op).unheard w) := by
  have hcontents : ((Operation.object o op).unheard w).contents = w.contents := Operation.unheard_contents _
  have hsize : ((Operation.object o op).unheard w).objects.size = w.objects.size := World.objects_size_modifyObject ..
  let u := w.modifyObject o fun c => { c with entries := Fields.put key .undefined c.entries }
  let u' := ((Operation.object o op).unheard w).modifyObject o fun c =>
    { c with entries := Fields.put key .undefined c.entries }
  have hentered : Run.Parallel (fun v v' => v = u ∧ v' = u') (o.modifyEntries (Fields.put key .undefined))
      (o.modifyEntries (Fields.put key .undefined)) w ((Operation.object o op).unheard w) :=
    ⟨(), u, u', rfl, rfl, rfl, rfl⟩
  refine hentered.bind ?_
  rintro _ _ _ ⟨rfl, rfl⟩
  have hnone : (({ u' with depth := u'.depth + 1 } : World κ ε).objectCell o).listeners = [] :=
    World.listeners_modifyObject (fun _ => rfl) (w.unheard_object o)
  have hends : (nested .object (pure ()) (o.tellEntry R' key .undefined) : Run κ ε Unit).Ends u' fun _ v =>
      v.contents = u'.contents := by
    refine (Run.ends_nested (w := u') (Operation.unheard_below (w := w) (.object o op))).2 ?_
    exact (ObjectId.tellEntry_unheard hR hnone key .undefined).2 rfl
  obtain ⟨a, w₁, hrun, hset⟩ := Run.ends_iff.1 hends
  exact ⟨(), u, w₁, nested_silent (w := u) limit skip, hrun,
    (hset.trans (World.contents_setEntries hcontents hsize o _)).symm⟩

/-- A list or an object that is changed at the limit, and one that nobody listens to, come to hold the same, and the answer is
the same. -/
theorem Operation.as_unheard {op : Operation κ ε} (hop : op.Impartial) (hR : R'.letGo = pure ()) :
    Run.Parallel (fun u u' => u.contents = u'.contents) (op.run R) (op.run R') w (op.unheard w) := by
  have hcontents : w.contents = (op.unheard w).contents := op.unheard_contents.symm
  cases op with
  | list l op => exact ListOperation.run_parallel hcontents hcontents (ListId.together_unheard limit skip hR op) hop
  | object o op =>
    exact ObjectOperation.run_parallel hcontents hcontents (ObjectId.change_both limit skip hR op)
      (ObjectId.fresh_both limit skip hR op) op

/-- At the limit of nested dispatches a list or an object is changed without a word: whatever the listeners would do, the
answer and the world after it are the same, nothing but the items or the entries of the container are others, and both are
what they are when nobody listens to the container. -/
theorem Operation.silent_at_limit {op : Operation κ ε} (hop : op.Impartial) :
    ∃ a w', (∀ R, op.run R w = .ok a w') ∧ op.Sets w w' ∧
      ∀ R, R.letGo = pure () → ∃ w₀, op.run R (op.unheard w) = .ok a w₀ ∧ w₀.contents = w'.contents := by
  have silent : ∀ R R', Run.Parallel (fun u u' => u = u' ∧ op.Sets w u) (op.run R) (op.run R') w w := by
    intro R R'
    cases op with
    | list l op => exact ListOperation.run_parallel ⟨rfl, .inl rfl⟩ rfl (ListId.together_silent limit skip) hop
    | object o op =>
      exact ObjectOperation.run_parallel ⟨rfl, .inl rfl⟩ rfl (ObjectId.change_silent limit skip)
        (ObjectId.fresh_silent limit skip) op
  let idle : Reactions κ ε := { fire := fun _ _ => pure () }
  obtain ⟨a, w', _, hidle, -, -, hsets⟩ := silent idle idle
  have same : ∀ R, op.run R w = .ok a w' := by
    intro R
    obtain ⟨b, u, u', hrun, hrun', rfl, -⟩ := silent R idle
    rw [hrun, ← hrun', hidle]
  refine ⟨a, w', same, hsets, fun R hR => ?_⟩
  obtain ⟨b, u, w₀, hrun, hrun₀, hc⟩ := Operation.as_unheard (R := idle) limit skip hop hR
  obtain ⟨rfl, rfl⟩ : a = b ∧ w' = u := by
    have := hidle.symm.trans hrun
    injection this with h₁ h₂
    exact ⟨h₁, h₂⟩
  exact ⟨w₀, hrun₀, hc.symm⟩

end

/-! ## What is refused at the limit -/

/-- Nothing is changed: there is nothing to do, or it is refused for want of dispatches. -/
def Run.Refuses (container : Kind) (act : Run κ ε α) (w : World κ ε) : Prop :=
  (∃ a, act w = .ok a w) ∨ act w = .error (.depthLimit container w.depth) w

namespace Run.Refuses

variable {container : Kind} {act : Run κ ε α} {f : α → Run κ ε β}

theorem pure (a : α) : Run.Refuses container (Pure.pure a) w := .inl ⟨a, rfl⟩

theorem bind (h : Run.Refuses container act w) (hf : ∀ a, Run.Refuses container (f a) w) :
    Run.Refuses container (act >>= f) w := by
  unfold Run.Refuses
  rw [show (act >>= f) w = EStateM.bind act f w from rfl, EStateM.bind]
  rcases h with ⟨a, h⟩ | h
  · rw [h]
    exact hf a
  · rw [h]
    exact .inr rfl

/-- What is read is known. -/
theorem read {a : α} (h : act w = .ok a w) (hf : Run.Refuses container (f a) w) : Run.Refuses container (act >>= f) w := by
  unfold Run.Refuses
  rw [show (act >>= f) w = EStateM.bind act f w from rfl, EStateM.bind, h]
  exact hf

theorem discard (h : Run.Refuses container act w) : Run.Refuses container (Functor.discard act) w := by
  unfold Run.Refuses
  rw [show Functor.discard act w = EStateM.map _ act w from rfl, EStateM.map]
  rcases h with ⟨a, h⟩ | h
  · rw [h]
    exact .inl ⟨_, rfl⟩
  · rw [h]
    exact .inr rfl

end Run.Refuses

section

variable (limit : w.config.maxDispatchDepth ≤ w.depth) (panic : w.config.onDepthExceeded = .panic)
include limit panic

theorem ListId.splice_refused (index remove : Nat) (plus : List Value) :
    Run.Refuses .list (l.splice R index remove plus) w := by
  unfold ListId.splice
  refine .read rfl ?_
  dsimp only
  split
  · exact .pure []
  · exact .bind (.inr (nested_refused limit panic)) fun _ => .pure _

theorem ListId.reorder_refused (order : World κ ε → List Value → List Value) :
    Run.Refuses .list (l.reorder R order) w := by
  unfold ListId.reorder
  refine .read rfl ?_
  dsimp only
  split
  · exact .pure ()
  · exact .discard (.inr (nested_refused limit panic))

theorem ListOperation.refused_at_limit (op : ListOperation κ ε) : Run.Refuses .list (op.run R l) w := by
  have splice := fun index remove plus => l.splice_refused (R := R) limit panic index remove plus
  have reorder := l.reorder_refused (R := R) limit panic
  have sortBy : ∀ compare, Run.Refuses .list (l.sortBy R compare) w := fun compare => reorder _
  cases op with
  | splice index remove plus => exact splice index remove plus
  | push values =>
    change Run.Refuses .list (l.push R values) w
    unfold ListId.push
    exact .read rfl (splice _ _ _).discard
  | pop =>
    change Run.Refuses .list (l.pop R) w
    unfold ListId.pop
    refine .read rfl ?_
    split
    · exact .pure none
    · exact (splice _ _ _).bind fun _ => .pure _
  | shift =>
    change Run.Refuses .list (l.shift R) w
    unfold ListId.shift
    refine .read rfl ?_
    split
    · exact .pure none
    · exact (splice _ _ _).bind fun _ => .pure _
  | unshift values => exact (splice 0 0 values).discard
  | set index value =>
    change Run.Refuses .list (l.assign R index value) w
    unfold ListId.assign
    refine .read rfl ?_
    split
    · refine .read rfl ?_
      split
      · exact .pure ()
      · exact (splice _ _ _).discard
    · exact (splice _ _ _).discard
  | delete value =>
    change Run.Refuses .list (l.delete R value) w
    unfold ListId.delete
    refine .read rfl ?_
    split
    · exact (splice _ _ _).discard.bind fun _ => .pure true
    · exact .pure false
  | wipe =>
    change Run.Refuses .list (l.wipe R) w
    unfold ListId.wipe
    exact .read rfl (splice _ _ _).discard
  | replaceAll values =>
    change Run.Refuses .list (l.replaceAll R values) w
    unfold ListId.replaceAll
    exact .read rfl (splice _ _ _).discard
  | reverse => exact reorder fun _ items => items.reverse
  | sort => exact sortBy fun _ => Value.compare
  | sortBy compare => exact sortBy compare

/-- At the limit of nested dispatches nothing is changed under the policy that refuses it: there is nothing to do, or the
call ends with the limit as its reason, and the world is as it was. -/
theorem Operation.refused_at_limit {op : Operation κ ε} (hop : ¬op.MakesUndefined w) :
    Run.Refuses op.container (op.run R) w := by
  have change : ∀ (o : ObjectId) key old new f, Run.Refuses .object (o.change R key old new f) w :=
    fun o key old new f => .inr (nested_refused limit panic)
  cases op with
  | list l op => exact op.refused_at_limit limit panic
  | object o op =>
    cases op with
    | set key value =>
      change Run.Refuses .object (o.assign R key value) w
      unfold ObjectId.assign
      refine .read rfl ?_
      split
      · split
        · exact .pure ()
        · exact change _ _ _ _ _
      · rename_i hnew
        split
        · rename_i hundefined
          exact absurd ⟨hnew, hundefined⟩ hop
        · exact change _ _ _ _ _
    | delete key =>
      change Run.Refuses .object (o.delete R key) w
      unfold ObjectId.delete
      refine .read rfl ?_
      split
      · exact (change _ _ _ _ _).bind fun _ => .pure _
      · exact .pure none

/-- A key that is new with the value `undefined` is made before the limit is looked at: it is there when the call is refused. -/
theorem ObjectId.assign_undefined_refused {key : String} (hnew : Fields.get? key (w.objectCell o).entries = none) :
    o.assign R key .undefined w =
      .error (.depthLimit .object w.depth) (w.modifyObject o fun c => { c with entries := Fields.put key .undefined c.entries }) := by
  let u := w.modifyObject o fun c => { c with entries := Fields.put key .undefined c.entries }
  have hrefused : nested .object (pure ()) (o.tellEntry R key .undefined) u = .error (.depthLimit .object w.depth) u :=
    nested_refused (w := u) limit panic
  have hentries : (o.entries : Run κ ε _) w = .ok (w.objectCell o).entries w := rfl
  unfold ObjectId.assign
  change EStateM.bind o.entries _ w = _
  rw [EStateM.bind, hentries]
  dsimp only
  rw [hnew]
  exact hrefused

end

end

end LiveBindings
