import LiveBindings.Proofs.Mutation
import LiveBindings.Proofs.Yields

/-!
# The store keeps what there is

Making containers, reading and changing them leaves what leads to what, but for what the listeners do that are told
(`Mutation.keeps`). Registering a listener brings it to hand, and removing it takes it from there.
-/

namespace LiveBindings

open Estate

variable {π τ α : Type}

/-! ## Containers -/

section

variable {w w' : World (Callback π) (Env π (Ledger π τ))}

theorem World.estate_congr (hl : w'.layout = w.layout) (hh : w'.held = w.held) (he : w'.env.host = w.env.host) :
    w'.estate = w.estate := by
  have hc : w'.env.cells = w.env.cells := congrArg Layout.cells hl
  have hn : w'.nextListener = w.nextListener := congrArg Layout.nextListener hl
  simp only [World.estate, hl, hc, hn, hh, he]

theorem World.estate_modifyList {l : ListId} {f : ListCell (Callback π) → ListCell (Callback π)}
    (h : ∀ c, (f c).listeners = c.listeners) : (w.modifyList l f).estate = w.estate :=
  World.estate_congr (World.layout_modifyList h) rfl rfl

theorem World.estate_modifyObject {o : ObjectId} {f : ObjectCell (Callback π) → ObjectCell (Callback π)}
    (h : ∀ c, (f c).listeners = c.listeners) : (w.modifyObject o f).estate = w.estate :=
  World.estate_congr (World.layout_modifyObject h) rfl rfl

theorem ListId.create_quiet (items : List Value) : Quiet (ListId.create items) w := by
  have h : ∀ l : ListId, (World.listCell { w with lists := w.lists.push { items } } l).listeners =
      (w.listCell l).listeners := by
    intro l
    simp only [World.listCell, Array.getD_eq_getD_getElem?, Array.getElem?_push]
    split
    · rename_i hi
      simp [hi]
    · rfl
  change World.estate { w with lists := w.lists.push { items } } = w.estate
  simp only [World.estate, World.layout, h]
  rfl

theorem ObjectId.create_quiet (entries : List (String × Value)) : Quiet (ObjectId.create entries) w := by
  have h : ∀ o : ObjectId, (World.objectCell { w with objects := w.objects.push { entries } } o).listeners =
      (w.objectCell o).listeners := by
    intro o
    simp only [World.objectCell, Array.getD_eq_getD_getElem?, Array.getElem?_push]
    split
    · rename_i hi
      simp [hi]
    · rfl
  change World.estate { w with objects := w.objects.push { entries } } = w.estate
  simp only [World.estate, World.layout, h]
  rfl

end

/-! ## Listeners -/

section

variable {P : Set (Ref .block)} {w : World (Callback π) (Env π (Ledger π τ))} {rs : List (ListenerId × Post π)}

/-- What becomes of a world in which a listener of a list was registered. -/
theorem ListId.estate_listen (l : ListId) (topic : ListTopic) (callback : Callback π) :
    World.estate ({ w with nextListener := w.nextListener + 1 }.modifyList l
      fun c : ListCell (Callback π) => { c with listeners := c.listeners ++ [Listener.mk ⟨w.nextListener⟩ topic callback] }) =
      w.estate.post (decide (l.index < w.lists.size)) w.estate.registered (.list l topic callback) := by
  have h : (World.layout ({ w with nextListener := w.nextListener + 1 }.modifyList l fun c : ListCell (Callback π) =>
      { c with listeners := c.listeners ++ [Listener.mk ⟨w.nextListener⟩ topic callback] })).listListeners =
      if decide (l.index < w.lists.size) = true then
        Function.update w.layout.listListeners l (w.layout.listListeners l ++ [Listener.mk ⟨w.nextListener⟩ topic callback])
      else w.layout.listListeners := by
    funext l'
    rw [World.listListeners_modifyList]
    by_cases hs : l.index < w.lists.size
    · by_cases hl : l' = l
      · subst hl
        simp [World.layout, hs, World.listCell]
      · simp [World.layout, hs, hl, World.listCell]
    · simp [World.layout, hs, World.listCell]
  simp only [World.estate, h]
  rfl

theorem ObjectId.estate_listen (o : ObjectId) (topic : ObjectTopic) (callback : Callback π) :
    World.estate ({ w with nextListener := w.nextListener + 1 }.modifyObject o
      fun c : ObjectCell (Callback π) => { c with listeners := c.listeners ++ [Listener.mk ⟨w.nextListener⟩ topic callback] }) =
      w.estate.post (decide (o.index < w.objects.size)) w.estate.registered (.object o topic callback) := by
  have h : (World.layout ({ w with nextListener := w.nextListener + 1 }.modifyObject o fun c : ObjectCell (Callback π) =>
      { c with listeners := c.listeners ++ [Listener.mk ⟨w.nextListener⟩ topic callback] })).objectListeners =
      if decide (o.index < w.objects.size) = true then
        Function.update w.layout.objectListeners o (w.layout.objectListeners o ++ [Listener.mk ⟨w.nextListener⟩ topic callback])
      else w.layout.objectListeners := by
    funext o'
    rw [World.objectListeners_modifyObject]
    by_cases hs : o.index < w.objects.size
    · by_cases ho : o' = o
      · subst ho
        simp [World.layout, hs, World.objectCell]
      · simp [World.layout, hs, ho, World.objectCell]
    · simp [World.layout, hs, World.objectCell]
  simp only [World.estate, h]
  rfl

/-- What becomes of a world in which a listener of a list was removed. -/
theorem ListId.estate_unlisten (l : ListId) (topic : ListTopic) (id : ListenerId) :
    World.estate (w.modifyList l fun c => { c with listeners := Listeners.remove topic id c.listeners }) =
      w.estate.unpost w.estate.registered (.list l topic id) := by
  have h : (World.layout (w.modifyList l fun c =>
      { c with listeners := Listeners.remove topic id c.listeners })).listListeners =
      Function.update w.layout.listListeners l (Listeners.remove topic id (w.layout.listListeners l)) := by
    funext l'
    rw [World.listListeners_modifyList]
    by_cases hl : l' = l
    · subst hl
      by_cases hs : l'.index < w.lists.size
      · simp [World.layout, hs]
      · have : w.listCell l' = {} := by simp [World.listCell, hs]
        simp [World.layout, hs, this, Listeners.remove]
    · simp [hl]
  simp only [World.estate, unpost, h]
  rfl

theorem ObjectId.estate_unlisten (o : ObjectId) (topic : ObjectTopic) (id : ListenerId) :
    World.estate (w.modifyObject o fun c => { c with listeners := Listeners.remove topic id c.listeners }) =
      w.estate.unpost w.estate.registered (.object o topic id) := by
  have h : (World.layout (w.modifyObject o fun c =>
      { c with listeners := Listeners.remove topic id c.listeners })).objectListeners =
      Function.update w.layout.objectListeners o (Listeners.remove topic id (w.layout.objectListeners o)) := by
    funext o'
    rw [World.objectListeners_modifyObject]
    by_cases ho : o' = o
    · subst ho
      by_cases hs : o'.index < w.objects.size
      · simp [World.layout, hs]
      · have : w.objectCell o' = {} := by simp [World.objectCell, hs]
        simp [World.layout, hs, this, Listeners.remove]
    · simp [ho]
  simp only [World.estate, unpost, h]
  rfl

/-- The engine registers a listener. -/
theorem Yields.post {q : Post π} {made : Bool} {id : ListenerId} {w' : World (Callback π) (Env π (Ledger π τ))}
    {act : Live π (Ledger π τ) ListenerId} (hid : id = ⟨w.nextListener⟩) (ha : act w = .ok id w')
    (he : w'.estate = w.estate.post made w.estate.registered q)
    (hq : ¬q.IsUser) (hs : w.estate.AllSafe P q.callback.refs) :
    Yields P ∅ act (fun id => {q.asset id}) w := by
  subst hid
  intro R hR
  rw [Set.union_empty] at hR
  have hleads : act.Leads w fun id w₁ => id = ⟨w.nextListener⟩ ∧ w₁ = w' := by simp [Run.Leads, ha]
  refine hleads.imp ?_
  rintro _ _ ⟨rfl, rfl⟩
  rw [he]
  have htidy : (w.estate.post made w.estate.registered q).Tidy := hR.tidy.post hq
  obtain ⟨h₁, h₂⟩ := hR.post (X := {q.asset ⟨w.nextListener⟩}) htidy
    (fun a ha => (hs a ha).1) (fun _ => rfl) (by rintro _ rfl; exact ⟨rfl, hq⟩)
  refine ⟨h₁, h₂, ?_⟩
  rintro _ rfl
  exact Or.inr fun hh => Nat.lt_irrefl _ (has_asset.1 hh)

theorem ListId.listen_yields (l : ListId) (topic : ListTopic) {callback : Callback π} (hu : ∀ p, callback ≠ .user p)
    (hs : w.estate.AllSafe P callback.refs) :
    Yields P ∅ (l.listen topic callback) (fun id => {.list l topic id}) w :=
  .post (q := .list l topic callback) rfl rfl (l.estate_listen topic callback) (fun ⟨p, hp⟩ => hu p hp) hs

theorem ObjectId.listen_yields (o : ObjectId) (topic : ObjectTopic) {callback : Callback π} (hu : ∀ p, callback ≠ .user p)
    (hs : w.estate.AllSafe P callback.refs) :
    Yields P ∅ (o.listen topic callback) (fun id => {.object o topic id}) w :=
  .post (q := .object o topic callback) rfl rfl (o.estate_listen topic callback) (fun ⟨p, hp⟩ => hu p hp) hs

/-- A listener in hand is removed. -/
theorem ListId.unlisten_yields (l : ListId) (topic : ListTopic) (id : ListenerId) :
    Yields P {.list l topic id} (l.unlisten topic id) (fun _ => ∅) w := by
  intro R hR
  obtain ⟨h₁, h₂⟩ := hR.unlisten trivial
  rw [← l.estate_unlisten] at h₁ h₂
  exact ⟨(Set.union_empty R).symm ▸ h₁, h₂, fun _ hx => hx.elim⟩

theorem ObjectId.unlisten_yields (o : ObjectId) (topic : ObjectTopic) (id : ListenerId) :
    Yields P {.object o topic id} (o.unlisten topic id) (fun _ => ∅) w := by
  intro R hR
  obtain ⟨h₁, h₂⟩ := hR.unlisten trivial
  rw [← o.estate_unlisten] at h₁ h₂
  exact ⟨(Set.union_empty R).symm ▸ h₁, h₂, fun _ hx => hx.elim⟩

end

/-! ## Changes of lists -/

section

variable {P : Set (Ref .block)} {w : World (Callback π) (Env π (Ledger π τ))} {E : Engine π (Ledger π τ)}

/-- What captured listeners refer to has been made. -/
theorem ListId.found_of_captured {R : Set Asset} (hR : Sound P R w.estate) {l : ListId} {topic : ListTopic} :
    ∀ lst ∈ Listeners.on topic (w.listCell l).listeners, ∀ a ∈ lst.callback.refs, w.estate.Has a :=
  fun lst hl => hR.found (show w.estate.Posted lst.id (.list l lst.topic lst.callback) from (mem_on.1 hl).1)

theorem ObjectId.found_of_captured {R : Set Asset} (hR : Sound P R w.estate) {o : ObjectId} {topic : ObjectTopic} :
    ∀ lst ∈ Listeners.on topic (w.objectCell o).listeners, ∀ a ∈ lst.callback.refs, w.estate.Has a :=
  fun lst hl => hR.found (show w.estate.Posted lst.id (.object o lst.topic lst.callback) from (mem_on.1 hl).1)

/-- While captured listeners are held, the views that they refer to are not finished. -/
theorem allSafe_of_captured {κ : Type} {ls : List (Listener κ (Callback π))}
    (h : ∀ lst ∈ ls, ∀ a ∈ lst.callback.refs, w.estate.Has a) :
    ∀ lst ∈ ls, (World.estate { w with held := ls.map (·.callback) ++ w.held }).AllSafe P lst.callback.refs :=
  fun lst hl => allSafe_of_held (List.mem_append_left _ (List.mem_map_of_mem hl)) fun a ha => has_holds.2 (h lst hl a ha)

namespace ListId

variable {l : ListId}

theorem tellLength_keeps (hE : E.Sound) (topic : ListTopic) (length : Nat) :
    Keeps P (l.tellLength E.reactions topic length) w :=
  .of_sound fun hR => .read rfl (Settles.holding hE (.tellAll hE (allSafe_of_captured (found_of_captured hR)))).keeps

theorem tellContent_keeps (hE : E.Sound) (topic : ListTopic) (report : ListReport) :
    Keeps P (l.tellContent E.reactions topic report) w :=
  .of_sound fun hR => .read rfl (.tellInTurn hE (found_of_captured hR))

theorem tellSpan_keeps (hE : E.Sound) (topic : ListTopic) (change : ListChange) :
    Keeps P (l.tellSpan E.reactions topic change) w := by
  refine .of_sound fun hR => .read rfl ?_
  split
  · exact .pure _
  · exact (Settles.holding hE (.tellItems hE (allSafe_of_captured (found_of_captured hR)) _ _)).keeps

/-- A change whose step keeps what there is. -/
theorem apply_keeps (hE : E.Sound) {change : ListChange} {before : ListReport} {mutate : Live π (Ledger π τ) ListReport}
    (hm : ∀ w, Keeps P mutate w) : Keeps P (l.apply E.reactions change before mutate) w := by
  refine .nested (hm w) ?_
  -- The step, with what is announced around it.
  have step : ∀ w, Keeps P (l.dispatching do
      l.tellContent E.reactions .beforeContent before
      l.tellSpan E.reactions .beforeEach change
      let after ← mutate
      l.tellSpan E.reactions .each change
      l.tellContent E.reactions .content after
      return after) w := by
    intro w
    refine .restoring (fun w => World.estate_modifyList fun _ => rfl) (.modify ?_ fun w₁ => ?_)
    · exact World.estate_modifyList fun _ => rfl
    refine (tellContent_keeps hE _ _).bind fun _ w₂ _ => (tellSpan_keeps hE _ _).bind fun _ w₃ _ => ?_
    refine (hm w₃).bind fun after w₄ _ => (tellSpan_keeps hE _ _).bind fun _ w₅ _ => ?_
    exact (tellContent_keeps hE _ _).bind fun _ _ _ => .pure after
  dsimp only
  split
  · refine (tellLength_keeps hE _ _).bind fun _ w₁ _ => (step w₁).bind fun after w₂ _ => ?_
    exact .read rfl ((tellLength_keeps hE _ _).bind fun _ _ _ => .pure after)
  · exact (step _).bind fun after _ _ => .pure after

theorem replaceItems_keeps (index remove : Nat) (plus : List Value) : Keeps P (l.replaceItems index remove plus) w := by
  refine .read rfl (.modify ?_ fun _ => .pure _)
  exact World.estate_modifyList fun _ => rfl

theorem splice_keeps (hE : E.Sound) (index remove : Nat) (plus : List Value) :
    Keeps P (l.splice E.reactions index remove plus) w := by
  refine .read rfl ?_
  dsimp only
  split
  · exact .pure _
  · exact (apply_keeps hE fun _ => replaceItems_keeps _ _ _).bind fun _ _ _ => .pure _

theorem push_keeps (hE : E.Sound) (values : List Value) : Keeps P (l.push E.reactions values) w :=
  .read rfl (splice_keeps hE _ _ _).discard

theorem pop_keeps (hE : E.Sound) : Keeps P (l.pop E.reactions) w := by
  refine .read rfl ?_
  split
  · exact .pure _
  · exact (splice_keeps hE _ _ _).bind fun _ _ _ => .pure _

theorem shift_keeps (hE : E.Sound) : Keeps P (l.shift E.reactions) w := by
  refine .read rfl ?_
  split
  · exact .pure _
  · exact (splice_keeps hE _ _ _).bind fun _ _ _ => .pure _

theorem assign_keeps (hE : E.Sound) (index : Nat) (value : Value) : Keeps P (l.assign E.reactions index value) w := by
  refine .read rfl ?_
  split
  · refine .read rfl ?_
    split
    · exact .pure _
    · exact (splice_keeps hE _ _ _).discard
  · exact (splice_keeps hE _ _ _).discard

theorem delete_keeps (hE : E.Sound) (value : Value) : Keeps P (l.delete E.reactions value) w := by
  refine .read rfl ?_
  split
  · exact (splice_keeps hE _ _ _).discard.bind fun _ _ _ => .pure _
  · exact .pure _

theorem reorder_keeps (hE : E.Sound) (order : World (Callback π) (Env π (Ledger π τ)) → List Value → List Value) :
    Keeps P (l.reorder E.reactions order) w := by
  refine .read rfl ?_
  dsimp only
  split
  · exact .pure _
  · refine Keeps.discard (apply_keeps hE fun w => ?_)
    refine .read (a := w) rfl (.modify ?_ fun _ => .pure _)
    exact World.estate_modifyList fun _ => rfl

theorem replaceSpan_keeps (hE : E.Sound) (start length : Nat) (next : List Value) :
    Keeps P (l.replaceSpan E.reactions start length next) w :=
  .read rfl (splice_keeps hE _ _ _).discard

theorem reconcile_keeps (hE : E.Sound) (next : List Value) : Keeps P (l.reconcile E.reactions next) w :=
  .read rfl (replaceSpan_keeps hE _ _ _)

end ListId

/-! ## Changes of objects -/

namespace ObjectId

variable {o : ObjectId}

theorem tellEntry_keeps (hE : E.Sound) (key : String) (value : Value) : Keeps P (o.tellEntry E.reactions key value) w :=
  .of_sound fun hR => .read rfl (Settles.holding hE (.tellAll hE (allSafe_of_captured (found_of_captured hR)))).keeps

theorem modifyEntries_keeps (f : List (String × Value) → List (String × Value)) : Keeps P (o.modifyEntries f) w :=
  (Quiet.modify (World.estate_modifyObject (f := fun c => { c with entries := f c.entries }) fun _ => rfl)).keeps

theorem change_keeps (hE : E.Sound) (key : String) (old new : Value)
    (f : List (String × Value) → List (String × Value)) : Keeps P (o.change E.reactions key old new f) w := by
  refine .nested (modifyEntries_keeps f) (.of_sound fun hR => .read rfl (.read rfl ?_))
  -- The listeners before and after the change are captured together.
  have hfound : ∀ lst ∈ Listeners.on (.before key) (w.objectCell o).listeners ++
      Listeners.on (.after key) (w.objectCell o).listeners, ∀ a ∈ lst.callback.refs, (World.estate { w with depth := w.depth + 1 }).Has a :=
    fun lst hl => (List.mem_append.1 hl).elim (found_of_captured hR lst) (found_of_captured hR lst)
  have hsafe := allSafe_of_captured (P := P) hfound
  refine (Settles.holding hE ?_).keeps
  refine (Keeps.tellAll hE fun lst hl => hsafe lst (List.mem_append_left _ hl)).bind fun _ w₁ h₁ => ?_
  refine (modifyEntries_keeps f).bind fun _ w₂ h₂ => ?_
  refine (Keeps.tellAll hE fun lst hl => ?_).bind fun _ _ _ => tellEntry_keeps hE _ _
  exact (hsafe lst (List.mem_append_right _ hl)).stays (h₁.trans h₂)

theorem assign_keeps (hE : E.Sound) (key : String) (value : Value) : Keeps P (o.assign E.reactions key value) w := by
  refine .read rfl ?_
  split
  · split
    · exact .pure _
    · exact change_keeps hE _ _ _ _
  · split
    · exact (modifyEntries_keeps _).bind fun _ _ _ => .nested (.pure _) (tellEntry_keeps hE _ _)
    · exact change_keeps hE _ _ _ _

theorem delete_keeps (hE : E.Sound) (key : String) : Keeps P (o.delete E.reactions key) w := by
  refine .read rfl ?_
  split
  · exact (change_keeps hE _ _ _ _).bind fun _ _ _ => .pure _
  · exact .pure _

end ObjectId

/-- Whatever a program changes, what there is is kept. -/
theorem Mutation.keeps (hE : E.Sound) (m : Mutation) : Keeps P (m.run E) w := by
  cases m with
  | splice l index remove plus => exact (ListId.splice_keeps hE _ _ _).discard
  | push l values => exact ListId.push_keeps hE _
  | pop l => exact (ListId.pop_keeps hE).discard
  | shift l => exact (ListId.shift_keeps hE).discard
  | unshift l values => exact (ListId.splice_keeps hE _ _ _).discard
  | setItem l index value => exact ListId.assign_keeps hE _ _
  | deleteItem l value => exact (ListId.delete_keeps hE _).discard
  | wipe l | replaceAll l values =>
    refine Keeps.read rfl (Keeps.discard ?_)
    exact ListId.splice_keeps hE _ _ _
  | reverse l =>
    rw [Mutation.run, ListId.reverse]
    exact ListId.reorder_keeps hE _
  | sort l | sortBy l compare =>
    simp only [Mutation.run, ListId.sort, ListId.sortBy]
    exact ListId.reorder_keeps hE _
  | setEntry o key value => exact ObjectId.assign_keeps hE _ _
  | deleteEntry o key => exact (ObjectId.delete_keeps hE _).discard

end

end LiveBindings
