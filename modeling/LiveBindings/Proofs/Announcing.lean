import LiveBindings.Proofs.Limit
import LiveBindings.Proofs.Notice
import LiveBindings.Proofs.Same

/-!
# What the listeners of an object are told

Setting or deleting a key, when nobody else changes the object meanwhile, comes to its result (`ObjectOperation.result`), and is
told by notices (`ObjectOperation.notices`): to the listeners of the key if its value changes, and to those of all entries if
its value or its presence does. `ObjectOperation.announces` says that the listeners hear these notices, all of them and nothing
else.

A deletion does not compare: the listeners of a key that is there with the value `undefined` are told that it was `undefined`
and is `undefined` now, while a key that is made with this value is told to the listeners of all entries only.
-/

namespace LiveBindings

variable {κ ε : Type}

theorem Value.same_undefined (v : Value) : v.same .undefined = v.isUndefined := by
  cases v <;> simp [Value.same, Value.isUndefined]

/-! ## Notices -/

/-- The value under a key, `undefined` when there is none. -/
def Fields.valueAt (key : String) (entries : List (String × Value)) : Value := (get? key entries).getD .undefined

namespace ObjectOperation

/-- The key that is set or deleted. -/
def key : ObjectOperation → String
  | set key _ | delete key => key

/-- What becomes of the entries. -/
def result (entries : List (String × Value)) : ObjectOperation → List (String × Value)
  | set key value => if (Fields.get? key entries).any (·.same value) then entries else Fields.put key value entries
  | delete key => Fields.erase key entries

/-- A key that holds `undefined` is deleted. -/
def dropsUndefined (entries : List (String × Value)) : ObjectOperation → Bool
  | set _ _ => false
  | delete key => (Fields.get? key entries).any Value.isUndefined

/-- The value under the key before and after the operation are not the same. -/
def changesValue (entries : List (String × Value)) (op : ObjectOperation) : Bool :=
  !(Fields.valueAt op.key entries).same (Fields.valueAt op.key (op.result entries))

/-- The key comes or goes. -/
def changesPresence (entries : List (String × Value)) (op : ObjectOperation) : Bool :=
  Fields.has op.key entries != Fields.has op.key (op.result entries)

/-- What the listeners of the key are told, before and after. -/
def propertyNotices (entries : List (String × Value)) (op : ObjectOperation) : List (ObjectTopic × Event) :=
  [(.before op.key, .value (Fields.valueAt op.key entries)), (.after op.key, .value (Fields.valueAt op.key (op.result entries)))]

/-- What the listeners of all entries are told. -/
def entryNotice (entries : List (String × Value)) (op : ObjectOperation) : ObjectTopic × Event :=
  (.entries, .entry op.key (Fields.valueAt op.key (op.result entries)))

/-- What is told of an operation. -/
def notices (entries : List (String × Value)) (op : ObjectOperation) : List (ObjectTopic × Event) :=
  (if op.changesValue entries || op.dropsUndefined entries then op.propertyNotices entries else []) ++
    if op.changesValue entries || op.changesPresence entries then [op.entryNotice entries] else []

/-- The calls by which notices reach the listeners. -/
def calls (ls : List (Listener ObjectTopic κ)) (notices : List (ObjectTopic × Event)) : List (κ × Event) :=
  notices.flatMap fun n => (Listeners.on n.1 ls).map fun x => (x.callback, n.2)

variable {entries : List (String × Value)} {key : String} {value old : Value}

/-- A key that is set to the same value is not told of. -/
theorem notices_set_same (h : Fields.get? key entries = some old) (hs : old.same value = true) :
    (set key value).result entries = entries ∧ (set key value).notices entries = [] := by
  have hr : (set key value).result entries = entries := by simp [result, h, hs]
  refine ⟨hr, ?_⟩
  simp [notices, changesValue, changesPresence, dropsUndefined, hr]

/-- A key that is set to another value is told of to everybody. -/
theorem notices_set_other (h : Fields.get? key entries = some old) (hs : old.same value = false) :
    (set key value).result entries = Fields.put key value entries ∧ (set key value).notices entries =
      [(.before key, .value old), (.after key, .value value), (.entries, .entry key value)] := by
  have hr : (set key value).result entries = Fields.put key value entries := by simp [result, h, hs]
  refine ⟨hr, ?_⟩
  simp [notices, propertyNotices, entryNotice, changesValue, Fields.valueAt, ObjectOperation.key, hr, h, hs]

/-- A new key is told of to the listeners of all entries, and to its own unless it holds `undefined`. -/
theorem notices_set_new (value : Value) (h : Fields.get? key entries = none) :
    (set key value).result entries = Fields.put key value entries ∧ (set key value).notices entries =
      (if value.isUndefined then [] else [(.before key, .value .undefined), (.after key, .value value)]) ++
        [(.entries, .entry key value)] := by
  have hr : (set key value).result entries = Fields.put key value entries := by simp [result, h]
  refine ⟨hr, ?_⟩
  cases hu : value.isUndefined <;>
    simp [notices, propertyNotices, entryNotice, changesValue, changesPresence, dropsUndefined, Fields.valueAt, Fields.has,
      ObjectOperation.key, Value.same_comm .undefined value, Value.same_undefined, hr, h, hu]

/-- A deletion is told of to everybody. -/
theorem notices_delete (h : Fields.get? key entries = some old) :
    (delete key).notices entries =
      [(.before key, .value old), (.after key, .value .undefined), (.entries, .entry key .undefined)] := by
  cases hu : old.isUndefined <;>
    simp [notices, propertyNotices, entryNotice, changesValue, changesPresence, dropsUndefined, Fields.valueAt, Fields.has,
      ObjectOperation.key, result, Value.same_undefined, h, hu]

theorem notices_delete_absent (h : Fields.get? key entries = none) :
    (delete key).result entries = entries ∧ (delete key).notices entries = [] := by
  have hr : (delete key).result entries = entries := Fields.erase_of_get?_none h
  refine ⟨hr, ?_⟩
  simp [notices, changesValue, changesPresence, dropsUndefined, hr, h]

end ObjectOperation

/-! ## Listeners that leave the object alone -/

/-- Between two worlds the content of an object has gone through `cell`, and the log has become longer by `told`. -/
structure ObjectId.Heard (o : ObjectId) (log : ε → List (κ × Event)) (cell : ObjectCell κ → ObjectCell κ)
    (told : List (κ × Event)) (w w' : World κ ε) : Prop where
  cell : w'.objectCell o = cell (w.objectCell o)
  size : w.objects.size ≤ w'.objects.size
  depth : w'.depth = w.depth
  config : w'.config = w.config
  log : log w'.env = log w.env ++ told

/-- Every callback leaves an object alone, and is logged with what it is told. -/
structure Reactions.Logs (R : Reactions κ ε) (o : ObjectId) (log : ε → List (κ × Event)) : Prop where
  fire : ∀ callback e w, (R.fire callback e).Ends w fun _ => o.Heard log id [(callback, e)] w
  letGo : ∀ w, R.letGo.Ends w fun _ => o.Heard log id [] w

section

variable {R : Reactions κ ε} {o : ObjectId} {log : ε → List (κ × Event)} {w w' w'' : World κ ε} {told told' : List (κ × Event)}
  {cell cell' : ObjectCell κ → ObjectCell κ}

namespace ObjectId.Heard

theorem trans (h : o.Heard log cell told w w') (h' : o.Heard log cell' told' w' w'') :
    o.Heard log (fun c => cell' (cell c)) (told ++ told') w w'' where
  cell := h'.cell.trans (congrArg cell' h.cell)
  size := h.size.trans h'.size
  depth := h'.depth.trans h.depth
  config := h'.config.trans h.config
  log := by rw [h'.log, h.log, List.append_assoc]

/-- Nothing that counts has happened. -/
theorem of_eq (objects : w'.objects = w.objects) (depth : w'.depth = w.depth) (config : w'.config = w.config) (env : w'.env = w.env) :
    o.Heard log id [] w w' where
  cell := by rw [World.objectCell, objects, id, World.objectCell]
  size := objects ▸ le_rfl
  depth := depth
  config := config
  log := by rw [env, List.append_nil]

theorem modifyObject (h : o.index < w.objects.size) (cell : ObjectCell κ → ObjectCell κ) :
    o.Heard log cell [] w (w.modifyObject o cell) where
  cell := by rw [World.objectCell_modifyObject, if_pos ⟨rfl, h⟩]
  size := by simp [World.modifyObject]
  depth := rfl
  config := rfl
  log := (List.append_nil _).symm

end ObjectId.Heard

namespace Reactions.Logs

variable {xs : List (Listener ObjectTopic κ)} {e : Event}

/-- All listeners of a pass are told, since none is removed. -/
theorem tellAll (hR : R.Logs o log) (hx : ∀ x ∈ xs, x ∈ (w.objectCell o).listeners) :
    (LiveBindings.tellAll R o.registered e xs).Ends w fun _ => o.Heard log id (xs.map fun x => (x.callback, e)) w := by
  induction xs generalizing w with
  | nil => exact .of_eq rfl rfl rfl rfl
  | cons x xs ih =>
    have hr : o.registered w x.id = true := List.any_eq_true.2 ⟨x, hx x List.mem_cons_self, by simp⟩
    rw [LiveBindings.tellAll, LiveBindings.tell, Run.ends_bind, Run.ends_bind, Run.ends_get, if_pos hr]
    refine (hR.fire _ _ _).imp fun _ w₁ h₁ => ?_
    refine (ih fun y hy => ?_).imp fun _ w₂ h₂ => h₁.trans h₂
    rw [h₁.cell]
    exact hx y (List.mem_cons_of_mem _ hy)

/-- What a dispatch does while it holds callbacks. -/
theorem holding (hR : R.Logs o log) {callbacks : List κ} {act : Run κ ε Unit}
    (h : ∀ held, act.Ends { w with held } fun _ => o.Heard log cell told { w with held }) :
    (LiveBindings.holding R callbacks act).Ends w fun _ => o.Heard log cell told w := by
  rw [Run.ends_holding]
  refine (h _).imp fun _ w₁ h₁ => (hR.letGo _).imp fun _ w₂ h₂ => ?_
  have before : o.Heard log id [] w { w with held := callbacks ++ w.held } := .of_eq rfl rfl rfl rfl
  have after : o.Heard log id [] w₁ { w₁ with held := w.held } := .of_eq rfl rfl rfl rfl
  simpa using (before.trans h₁).trans (after.trans h₂)

end Reactions.Logs

/-- A dispatch below the limit. -/
theorem ObjectId.Heard.nested {silent act : Run κ ε Unit} (hd : w.depth < w.config.maxDispatchDepth)
    (h : act.Ends { w with depth := w.depth + 1 } fun _ => o.Heard log cell told { w with depth := w.depth + 1 }) :
    (LiveBindings.nested .object silent act).Ends w fun _ => o.Heard log cell told w := by
  rw [Run.ends_nested hd]
  exact h.imp fun _ w₁ h₁ => ⟨h₁.cell, h₁.size, by simp [h₁.depth], h₁.config, h₁.log⟩

variable {ls : List (Listener ObjectTopic κ)}

theorem ObjectId.tellEntry_logs (hR : R.Logs o log) (hls : (w.objectCell o).listeners = ls) (key : String) (value : Value) :
    (o.tellEntry R key value).Ends w fun _ =>
      o.Heard log id (ObjectOperation.calls ls [(.entries, .entry key value)]) w := by
  simp only [ObjectId.tellEntry, Run.ends_bind, ObjectId.ends_listeners, hls]
  refine hR.holding fun held => ?_
  simpa [ObjectOperation.calls] using hR.tellAll fun x hx => hls ▸ (List.mem_filter.1 hx).1

theorem ObjectId.change_logs (hR : R.Logs o log) (h : o.index < w.objects.size) (hls : (w.objectCell o).listeners = ls)
    (hd : w.depth < w.config.maxDispatchDepth) (key : String) (old new : Value)
    (f : List (String × Value) → List (String × Value)) :
    (o.change R key old new f).Ends w fun _ => o.Heard log (fun c => { c with entries := f c.entries })
      (ObjectOperation.calls ls [(.before key, .value old), (.after key, .value new), (.entries, .entry key new)]) w := by
  refine ObjectId.Heard.nested hd ?_
  have hls : (World.objectCell { w with depth := w.depth + 1 } o).listeners = ls := hls
  simp only [Run.ends_bind, ObjectId.ends_listeners, hls]
  refine hR.holding fun held => ?_
  simp only [Run.ends_bind]
  refine (hR.tellAll fun x hx => hls ▸ (List.mem_filter.1 hx).1).imp fun _ w₁ h₁ => ?_
  have h₂ := h₁.trans (.modifyObject (h.trans_le h₁.size) fun c => { c with entries := f c.entries })
  have captured : ∀ x ∈ Listeners.on (.after key) ls,
      x ∈ ((w₁.modifyObject o fun c => { c with entries := f c.entries }).objectCell o).listeners := by
    intro x hx
    rw [h₂.cell]
    exact hls ▸ (List.mem_filter.1 hx).1
  refine (hR.tellAll captured).imp fun _ w₃ h₃ => ?_
  have h₃ := h₂.trans h₃
  have hls₃ : (w₃.objectCell o).listeners = ls := by
    rw [h₃.cell]
    exact hls
  refine (tellEntry_logs hR hls₃ key new).imp fun _ w₄ h₄ => ?_
  simpa [ObjectOperation.calls] using h₃.trans h₄

/-! ## What is heard of an operation -/

namespace ObjectOperation

/-- An operation has come to its result and was told by its notices. -/
def Announced (o : ObjectId) (log : ε → List (κ × Event)) (op : ObjectOperation) (w w' : World κ ε) : Prop :=
  w'.objectCell o = { w.objectCell o with entries := op.result (w.objectCell o).entries } ∧
    log w'.env = log w.env ++ calls (w.objectCell o).listeners (op.notices (w.objectCell o).entries)

theorem Announced.idle {op : ObjectOperation} (hr : op.result (w.objectCell o).entries = (w.objectCell o).entries)
    (hn : op.notices (w.objectCell o).entries = []) : op.Announced o log w w :=
  ⟨by rw [hr], by rw [hn]; exact (List.append_nil _).symm⟩

theorem Announced.of_heard {op : ObjectOperation} {f : List (String × Value) → List (String × Value)}
    {ns : List (ObjectTopic × Event)} (hr : op.result (w.objectCell o).entries = f (w.objectCell o).entries)
    (hn : op.notices (w.objectCell o).entries = ns)
    (h : o.Heard log (fun c => { c with entries := f c.entries }) (calls (w.objectCell o).listeners ns) w w') :
    op.Announced o log w w' :=
  ⟨by rw [h.cell, hr], by rw [h.log, hn]⟩

theorem assign_announces (hR : R.Logs o log) (h : o.index < w.objects.size) (hd : w.depth < w.config.maxDispatchDepth)
    (key : String) (value : Value) : (o.assign R key value).Ends w fun _ => (set key value).Announced o log w := by
  have he : w.contents.entries o = (w.objectCell o).entries := rfl
  simp only [ObjectId.assign, Run.ends_bind, ObjectId.ends_entries, he]
  split
  · rename_i old hold
    split
    · rename_i hsame
      obtain ⟨hr, hn⟩ := notices_set_same hold hsame
      exact .idle hr hn
    · rename_i hsame
      obtain ⟨hr, hn⟩ := notices_set_other hold (by simpa using hsame)
      exact (ObjectId.change_logs hR h rfl hd ..).imp fun _ w' h' => .of_heard hr hn h'
  · rename_i hold
    obtain ⟨hr, hn⟩ := notices_set_new value hold
    split
    · rename_i hundefined
      obtain rfl : value = .undefined := by simpa [Value.isUndefined] using hundefined
      let w₁ := w.modifyObject o fun c => { c with entries := Fields.put key .undefined c.entries }
      have h₁ : o.Heard log _ [] w w₁ := .modifyObject h _
      have hls : (w₁.objectCell o).listeners = (w.objectCell o).listeners := by rw [h₁.cell]
      have told := ObjectId.tellEntry_logs (w := { w₁ with depth := w₁.depth + 1 }) hR hls key .undefined
      rw [Run.ends_bind]
      change (nested _ _ _).Ends w₁ _
      refine (ObjectId.Heard.nested (w := w₁) hd told).imp fun _ w₂ h₂ => ?_
      exact .of_heard hr hn (h₁.trans h₂)
    · rename_i hdefined
      refine (ObjectId.change_logs hR h rfl hd ..).imp fun _ w' h' => .of_heard hr hn ?_
      simpa [hdefined] using h'

theorem delete_announces (hR : R.Logs o log) (h : o.index < w.objects.size) (hd : w.depth < w.config.maxDispatchDepth)
    (key : String) : (o.delete R key).Ends w fun _ => (delete key).Announced o log w := by
  have he : w.contents.entries o = (w.objectCell o).entries := rfl
  simp only [ObjectId.delete, Run.ends_bind, ObjectId.ends_entries, he]
  split
  · rename_i old hold
    simp only [Run.ends_bind, Run.ends_pure]
    exact (ObjectId.change_logs hR h rfl hd ..).imp fun _ w' h' => .of_heard rfl (notices_delete hold) h'
  · rename_i hold
    obtain ⟨hr, hn⟩ := notices_delete_absent hold
    exact .idle hr hn

/-- An operation, made while the listeners leave the object alone, comes to its result and is told by its notices. -/
theorem announces (hR : R.Logs o log) (h : o.index < w.objects.size) (hd : w.depth < w.config.maxDispatchDepth)
    (op : ObjectOperation) : (op.run R o).Ends w fun _ => op.Announced o log w := by
  cases op with
  | set key value => exact assign_announces hR h hd key value
  | delete key => exact delete_announces hR h hd key

/-- A key is new at the end, or it leaves its place; the others keep their order. -/
theorem names_result (op : ObjectOperation) (entries : List (String × Value)) :
    (op.result entries).map (·.1) = match op with
      | set key _ => if key ∈ entries.map (·.1) then entries.map (·.1) else entries.map (·.1) ++ [key]
      | delete key => (entries.map (·.1)).filter (· != key) := by
  cases op with
  | set key value =>
    simp only [result]
    split
    · rename_i hsame
      obtain ⟨old, hold, -⟩ := (Option.any_eq_true _ _).1 hsame
      rw [if_pos (List.mem_map_of_mem (Fields.mem_of_get? hold))]
    · exact Fields.names_put ..
  | delete key => simp [result, Fields.erase, List.filter_map, Function.comp_def]

/-- A listener of another key is not called. -/
theorem calls_elsewhere (op : ObjectOperation) (entries : List (String × Value)) {x : Listener ObjectTopic κ} {key : String}
    (hkey : key ≠ op.key) (hx : x.topic = .before key ∨ x.topic = .after key) : calls [x] (op.notices entries) = [] := by
  have unheard : ∀ n ∈ op.notices entries, Listeners.on n.1 [x] = [] := by
    intro n hn
    have topic : n.1 = .before op.key ∨ n.1 = .after op.key ∨ n.1 = .entries := by
      simp only [notices, propertyNotices, entryNotice, List.mem_append, List.mem_ite_nil_right, List.mem_cons, List.not_mem_nil,
        or_false] at hn
      rcases hn with ⟨-, rfl | rfl⟩ | ⟨-, rfl⟩ <;> simp
    rcases hx with hx | hx <;> rcases topic with ht | ht | ht <;> simp [Listeners.on, hx, ht, hkey]
  exact List.flatMap_eq_nil_iff.2 fun n hn => by rw [unheard n hn, List.map_nil]

end ObjectOperation

end

theorem Reactions.logging_logs (o : ObjectId) : (logging : Reactions κ _).Logs o id :=
  ⟨fun _ _ _ => ⟨rfl, le_rfl, rfl, rfl, rfl⟩, fun _ => .of_eq rfl rfl rfl rfl⟩

/-- An object with a key that holds `undefined`, and a listener for every topic. -/
def World.undefinedKey : World ObjectTopic (List (ObjectTopic × Event)) where
  objects := #[{
    entries := [("k", .undefined)]
    listeners := [⟨⟨0⟩, .before "k", .before "k"⟩, ⟨⟨1⟩, .after "k", .after "k"⟩, ⟨⟨2⟩, .entries, .entries⟩] }]
  env := []

/-- The listeners of a key are told of a deletion that does not change its value. -/
theorem ObjectOperation.deletion_announced_unchanged :
    (Fields.valueAt "k" (World.undefinedKey.objectCell ⟨0⟩).entries).same .undefined = true ∧
      ((delete "k").run .logging ⟨0⟩).Ends World.undefinedKey fun _ w' =>
        (w'.objectCell ⟨0⟩).entries = [] ∧
        w'.env = [(.before "k", .value .undefined), (.after "k", .value .undefined), (.entries, .entry "k" .undefined)] := by
  have made : (⟨0⟩ : ObjectId).index < World.undefinedKey.objects.size := Nat.one_pos
  have below : World.undefinedKey.depth < World.undefinedKey.config.maxDispatchDepth := by decide
  refine ⟨rfl, (announces (Reactions.logging_logs ⟨0⟩) made below (delete "k")).imp fun _ w' ended => ?_⟩
  exact ⟨(congrArg ObjectCell.entries ended.1).trans (by rfl), ended.2.trans (by rfl)⟩

end LiveBindings
