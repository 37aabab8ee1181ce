import LiveBindings.Observe.Fire
import LiveBindings.Proofs.Entries

/-!
# Readers that write back

The listeners of the embedding program may answer to what they hear by setting and deleting keys of objects (`Host.WritesBack`),
also of the object whose entries a view lists. While the view is registered with the object, every such change ends with the view
up to date again (`EntryView.Serving`), by induction on the dispatches that may still be nested.
-/

namespace LiveBindings

variable {π σ : Type}

/-- A response changes objects as `P` allows. Besides that it works on nothing but the state of the embedding program. -/
def Response.WritesBack (P : ObjectId → ObjectOperation → Prop) : Response (Callback π) (Env π σ) → Prop
  | .done => True
  | .giveUp _ => False
  | .change (.object o op) next => P o op ∧ ∀ a w, (next a w).WritesBack P
  | .change (.list _ _) _ => False
  | .work f _ _ next => (∀ w : World (Callback π) (Env π σ), ∃ h, f w = w.setHost h) ∧ ∀ w, (next w).WritesBack P

/-- The listeners of the embedding program change objects as `P` allows. None of them does where the limit of nested dispatches has
the change made without a dispatch. -/
def Host.WritesBack (H : Host π σ) (P : ObjectId → ObjectOperation → Prop) : Prop :=
  ∀ p e (w : World (Callback π) (Env π σ)), ∃ r : Response (Callback π) (Env π σ), r.WritesBack P ∧
    (∀ E : Engine π σ, H.listener E p e w = r.run E.reactions w) ∧
    (w.config.onDepthExceeded = .skip → w.config.maxDispatchDepth ≤ w.depth → r = .done)

namespace EntryView

variable {v : EntryView} {link : Option Link} {shown : Option ObjectId} {K : Set String} {B : Prop} {E : Engine π σ} {H : Host π σ}
  {P : ObjectId → ObjectOperation → Prop} {d : Nat} {c : Config} {o : ObjectId} {w w' w'' : World (Callback π) (Env π σ)}

/-- The callbacks that may be told of an object, or of a change of the output that was made. -/
def Hears (v : EntryView) (link : Option Link) (callback : Callback π) : Prop :=
  callback.IsUser ∨ ∃ k, link = some k ∧ callback = v.callback k

/-- The view is registered with the object if that is the one to show. -/
def Attends (link : Option Link) (shown : Option ObjectId) (o : ObjectId) : Prop := shown = some o → ∃ id, link = some ⟨o, id⟩

/-- The operation does not delete one of the keys `K` of the object to show. -/
def Spares (shown : Option ObjectId) (K : Set String) (o : ObjectId) (op : ObjectOperation) : Prop :=
  shown = some o → ∀ key ∈ K, op ≠ .delete key

/-- In dispatches at a depth, the program's listeners follow the view, and the view is brought up to date when it hears of its
object. -/
structure Serving (v : EntryView) (link : Option Link) (shown : Option ObjectId) (K : Set String) (d : Nat) (c : Config)
    (E : Engine π σ) : Prop where
  letGo : LetsGo E
  user : ∀ {p e w}, v.Linked link w → w.AtLevel d c →
    (E.fire (.user p) e).Settles (Fault.IsRefusal c) w fun _ w' => v.Follows link shown K w w' ∧ w'.AtLevel d c
  entries : ∀ {k e w}, link = some k → v.Linked link w → w.AtLevel d c →
    (E.fire (v.callback k) e).Settles (Fault.IsRefusal c) w fun _ w' =>
      (v.Carries link shown K w w' ∧ v.Shows shown w') ∧ w'.AtLevel d c

theorem Serving.serves (h : v.Serving link shown K d c E) (B : Prop) (w : World (Callback π) (Env π σ)) :
    E.reactions.Serves (Fault.IsRefusal c) d c (v.Hears link) (v.Within link shown K B w) where
  calm := Within.calm w
  fire := by
    rintro callback hears e w₁ h₁ hd
    rcases hears with ⟨p, rfl⟩ | ⟨k, hk, rfl⟩
    · exact (h.user h₁.1.linked hd).imp fun _ _ h₂ => ⟨h₁.after h₂.1, h₂.2⟩
    · exact (h.entries hk h₁.1.linked hd).imp fun _ _ h₂ => ⟨⟨h₁.1.trans h₂.1.1, fun _ => h₂.1.2⟩, h₂.2⟩
  letGo h₁ hd := (Run.settles_of_eq (h.letGo h₁.1.linked.orphans)).2 ⟨h₁, hd⟩

/-! ## A change of an object -/

theorem hears_of_mem (h : v.Linked link w) {x : Listener ObjectTopic (Callback π)} (hx : x ∈ (w.objectCell o).listeners) :
    v.Hears link x.callback := by
  rcases h.told o x hx with huser | ⟨k, hk, -, rfl⟩
  · exact .inl huser
  · exact .inr ⟨k, hk, rfl⟩

/-- When those who hear of all entries of an object have been told of a change, the view shows what it should. -/
theorem tellEntry_within (hE : v.Serving link shown K d c E) (hattends : Attends link shown o) (key : String) (value : Value)
    (h : v.Within link shown K (shown ≠ some o ∧ B) w w') (hd : w'.AtLevel d c) :
    (o.tellEntry E.reactions key value).Settles (Fault.IsRefusal c) w' fun _ w'' =>
      v.Within link shown K B w w'' ∧ w''.AtLevel d c := by
  by_cases hshown : shown = some o
  · obtain ⟨id, hk⟩ := hattends hshown
    exact ObjectId.tellEntry_past (x := v.listener ⟨o, id⟩) (hE.serves _ w) (hE.serves B w)
      (fun hI _ hx => hears_of_mem hI.1.linked hx) rfl (fun hI => hI.1.linked.watched _ hk)
      (fun hI hd => (hE.entries hk hI.1.linked hd).imp fun _ _ h₁ => ⟨⟨hI.1.trans h₁.1.1, fun _ => h₁.1.2⟩, h₁.2⟩) key value h hd
  · refine (ObjectId.tellEntry_settles (hE.serves _ w) (fun hI _ hx => hears_of_mem hI.1.linked hx) key value h hd).imp
      fun _ _ h₁ => ⟨⟨h₁.1.1, fun hB => h₁.1.2 ⟨hshown, hB⟩⟩, h₁.2⟩

theorem objectListeners_modifyEntries {κ ε : Type} (w : World κ ε) (o o' : ObjectId)
    (f : List (String × Value) → List (String × Value)) :
    ((w.modifyObject o fun c => { c with entries := f c.entries }).objectCell o').listeners = (w.objectCell o').listeners := by
  rw [World.objectCell_modifyObject]
  split
  · rename_i h
    rw [h.1]
  · rfl

/-- Entries of an object are changed. -/
theorem Within.modifyEntries {f : List (String × Value) → List (String × Value)} (h : v.Within link shown K B w w')
    (hnodup : ∀ es : List (String × Value), (es.map (·.1)).Nodup → ((f es).map (·.1)).Nodup)
    (hkept : shown = some o → ∀ es, ∀ key ∈ K, key ∈ es.map (·.1) → key ∈ (f es).map (·.1)) :
    v.Within link shown K (shown ≠ some o ∧ B) w (w'.modifyObject o fun c => { c with entries := f c.entries }) := by
  have listeners (o' : ObjectId) :
      ((w'.modifyObject o fun c => { c with entries := f c.entries }).objectCell o').listeners = (w'.objectCell o').listeners :=
    objectListeners_modifyEntries w' o o' f
  refine ⟨h.1.trans ⟨?_, fun _ => rfl, listeners, by simp, rfl, fun key hK hkey => ⟨?_, fun _ => id⟩⟩, fun hB => ?_⟩
  · refine h.1.linked.of_cells rfl le_rfl (fun _ _ => rfl) (fun _ => rfl) listeners fun o' => ?_
    rw [World.objectCell_modifyObject]
    split
    · exact hnodup _ (h.1.linked.named o)
    · exact h.1.linked.named o'
  · cases shown with
    | none => exact hkey
    | some o' =>
      simp only [World.entriesOf, World.objectCell_modifyObject]
      split
      · rename_i he
        obtain ⟨rfl, -⟩ := he
        exact hkept rfl _ key hK hkey
      · exact hkey
  · have hentries : (w'.modifyObject o fun c => { c with entries := f c.entries }).entriesOf shown = w'.entriesOf shown := by
      cases shown with
      | none => rfl
      | some o' =>
        have hne : ¬(o' = o ∧ o.index < w'.objects.size) := fun he => hB.1 (congrArg some he.1)
        simp only [World.entriesOf, World.objectCell_modifyObject, if_neg hne]
    have hshows := h.2 hB.2
    unfold Shows at hshows ⊢
    rw [hentries]
    exact hshows

theorem Follows.of_within (h : v.Within link shown K (v.Shows shown w) w w') : v.Follows link shown K w w' := ⟨h.1, h.2⟩

theorem Follows.within (h : v.Follows link shown K w w') : v.Within link shown K (v.Shows shown w) w w' := ⟨h.toCarries, h.shows⟩

section

variable (hE : d < c.maxDispatchDepth → v.Serving link shown K (d + 1) c E)
  (room : c.onDepthExceeded = .skip → d < c.maxDispatchDepth) (hattends : Attends link shown o)

include hE room hattends

theorem change_follows {key : String} {old new : Value} {f : List (String × Value) → List (String × Value)}
    (hnodup : ∀ es : List (String × Value), (es.map (·.1)).Nodup → ((f es).map (·.1)).Nodup)
    (hkept : shown = some o → ∀ es, ∀ key ∈ K, key ∈ es.map (·.1) → key ∈ (f es).map (·.1)) (h : v.Linked link w)
    (hd : w.AtLevel d c) : (o.change E.reactions key old new f).Settles (Fault.IsRefusal c) w fun _ w' =>
      v.Follows link shown K w w' ∧ w'.AtLevel d c := by
  refine (ObjectId.change_settles (C := v.Hears link) (I := v.Within link shown K (v.Shows shown w) w)
    (J := v.Within link shown K (shown ≠ some o ∧ v.Shows shown w) w) (fun panic _ => panic) room
    (fun below => (hE below).serves _ w) (fun below => (hE below).serves _ w) (fun below => (hE below).serves _ w)
    (fun hI _ hx => hears_of_mem hI.1.linked hx) (fun hI => hI.modifyEntries hnodup hkept)
    (fun below => fun hI hd => tellEntry_within (hE below) hattends key new hI hd) (Follows.refl h _ _).within hd).imp
      fun _ _ h₁ => ⟨.of_within h₁.1, h₁.2⟩

theorem assign_follows (key : String) (value : Value) (h : v.Linked link w) (hd : w.AtLevel d c) :
    (o.assign E.reactions key value).Settles (Fault.IsRefusal c) w fun _ w' => v.Follows link shown K w w' ∧ w'.AtLevel d c := by
  have hnodup (value : Value) (es : List (String × Value)) (hes : (es.map (·.1)).Nodup) :
      ((Fields.put key value es).map (·.1)).Nodup := Fields.nodup_put hes key value
  have hput (value : Value) (es : List (String × Value)) :
      ∀ key' ∈ K, key' ∈ es.map (·.1) → key' ∈ (Fields.put key value es).map (·.1) := by
    intro key' _ hkey'
    rw [Fields.names_put]
    split
    · exact hkey'
    · exact List.mem_append_left _ hkey'
  simp only [ObjectId.assign, ObjectId.entries, Run.settles_bind, Run.settles_stateGet, Run.settles_pure]
  split
  · split
    · exact ⟨.refl h _ _, hd⟩
    · exact change_follows hE room hattends (hnodup value) (fun _ => hput value) h hd
  · split
    · -- the key is there before the limit is looked at
      simp only [Run.settles_bind, ObjectId.modifyEntries, Run.settles_modify]
      have h₁ := (Follows.refl h shown K).within.modifyEntries (o := o) (hnodup .undefined) fun _ => hput .undefined
      obtain ⟨rfl, rfl⟩ := hd
      refine Run.settles_nested (fun skip limit => absurd (room skip) (Nat.not_lt.2 limit)) (fun panic _ => panic) fun below => ?_
      have hdeep := (Within.calm w).depth _ (w.depth + 1) h₁
      exact (tellEntry_within (hE below) hattends key .undefined hdeep ⟨rfl, rfl⟩).imp
        fun _ w₂ h₂ => ⟨.of_within ((Within.calm w).depth _ _ h₂.1), Nat.sub_eq_of_eq_add h₂.2.1, h₂.2.2⟩
    · exact change_follows hE room hattends (hnodup value) (fun _ => hput value) h hd

theorem delete_follows {key : String} (hspares : Spares shown K o (.delete key)) (h : v.Linked link w) (hd : w.AtLevel d c) :
    (o.delete E.reactions key).Settles (Fault.IsRefusal c) w fun _ w' => v.Follows link shown K w w' ∧ w'.AtLevel d c := by
  simp only [ObjectId.delete, ObjectId.entries, Run.settles_bind, Run.settles_stateGet, Run.settles_pure]
  split
  · simp only [Run.settles_bind, Run.settles_pure]
    refine change_follows hE room hattends (fun _ hes => hes.sublist (List.filter_sublist.map _)) (fun hshown es key' hK hkey' => ?_)
      h hd
    obtain ⟨entry, hentry, rfl⟩ := List.mem_map.1 hkey'
    have hne : entry.1 ≠ key := fun he => hspares hshown _ hK (he ▸ rfl)
    exact List.mem_map_of_mem (List.mem_filter.2 ⟨hentry, by simpa using hne⟩)
  · exact ⟨.refl h _ _, hd⟩

/-- An object is written to. -/
theorem write_follows {op : ObjectOperation} (hspares : Spares shown K o op) (h : v.Linked link w) (hd : w.AtLevel d c) :
    (op.run E.reactions o).Settles (Fault.IsRefusal c) w fun _ w' => v.Follows link shown K w w' ∧ w'.AtLevel d c := by
  cases op with
  | set key value => exact assign_follows hE room hattends key value h hd
  | delete key => exact delete_follows hE room hattends hspares h hd

end

/-! ## What the program's listeners do -/

/-- What an operation must be so that the view can follow it. -/
def Admits (link : Option Link) (shown : Option ObjectId) (K : Set String) (o : ObjectId) (op : ObjectOperation) : Prop :=
  Attends link shown o ∧ Spares shown K o op

theorem response_follows (hE : d < c.maxDispatchDepth → v.Serving link shown K (d + 1) c E)
    (room : c.onDepthExceeded = .skip → d < c.maxDispatchDepth) (hP : ∀ o op, P o op → Admits link shown K o op)
    {r : Response (Callback π) (Env π σ)} (hr : r.WritesBack P) (h : v.Linked link w) (hd : w.AtLevel d c) :
    (r.run E.reactions).Settles (Fault.IsRefusal c) w fun _ w' => v.Follows link shown K w w' ∧ w'.AtLevel d c := by
  induction r generalizing w with
  | done => exact ⟨.refl h _ _, hd⟩
  | giveUp e => exact hr.elim
  | change op next ih =>
    cases op with
    | list l op => exact hr.elim
    | object o op =>
      obtain ⟨hop, hnext⟩ := hr
      simp only [Response.run, Run.settles_bind, Run.settles_get]
      refine (write_follows hE room (hP o op hop).1 (hP o op hop).2 h hd).imp fun a w₁ h₁ => ?_
      exact (ih a w₁ (hnext a w₁) h₁.1.linked h₁.2).imp fun _ _ h₂ => ⟨h₁.1.trans h₂.1, h₂.2⟩
  | work f depth config next ih =>
    obtain ⟨hf, hnext⟩ := hr
    obtain ⟨s, hs⟩ := hf w
    simp only [Response.run, Run.settles_bind, Run.settles_modify, Run.settles_get]
    have h₁ : v.Follows link shown K w (f w) := by
      rw [hs]
      exact .beside h (.setHost w s) _ _
    exact (ih (f w) (hnext _) h₁.linked ⟨(depth w).trans hd.1, (config w).trans hd.2⟩).imp fun _ _ h₂ => ⟨h₁.trans h₂.1, h₂.2⟩

theorem engine_letsGo {n : Nat} (hn : 0 < n) : LetsGo (engine H n) := by
  obtain ⟨n, rfl⟩ : ∃ m, n = m + 1 := ⟨n - 1, by omega⟩
  intro w ho
  have hsweep : (sweep (engine H n)).Ends w fun _ w' => w' = w := by
    simp only [sweep, Run.ends_bind, cells, Run.ends_get, Run.ends_pure, ho, List.length_nil, finishOrphans]
  obtain ⟨_, w', run, rfl⟩ := Run.ends_iff.1 hsweep
  exact run

/-- Up to the limit of nested dispatches, an engine that may make enough nested calls serves the view. -/
theorem engine_serving (hH : H.WritesBack P) (hP : ∀ o op, P o op → Admits link shown K o op)
    (hlink : ∀ k, link = some k → shown = some k.object) (n : Nat) (hd : d ≤ c.maxDispatchDepth) (hn : c.maxDispatchDepth < d + n) :
    v.Serving link shown K d c (engine H n) := by
  induction n generalizing d with
  | zero => exact absurd hn (Nat.not_lt.2 hd)
  | succ n ih =>
    have hE (below : d < c.maxDispatchDepth) : v.Serving link shown K (d + 1) c (engine H n) := ih below (by omega)
    refine ⟨engine_letsGo n.succ_pos, fun {p e w} h hw => ?_, fun {k e w} hk h hw => ?_⟩
    · obtain ⟨r, hr, hrun, hdone⟩ := hH p e w
      change (H.listener (engine H n) p e).Settles _ w _
      rw [Run.Settles, hrun]
      by_cases room : c.onDepthExceeded = .skip → d < c.maxDispatchDepth
      · exact response_follows hE room hP hr h hw
      · rw [Classical.not_imp, Nat.not_lt, ← hw.1, ← hw.2] at room
        rw [hdone room.1 room.2]
        exact ⟨.refl h _ _, hw⟩
    · change (refreshEntries (engine H n) v.projector (some k.object)).Settles _ w _
      rw [← hlink k hk]
      exact refresh_carries h (fun below => (hE below).letGo) (fun _ below => (hE below).serves True _)
        (fun x hx => .inl (h.readers x hx).2) hw

end EntryView

end LiveBindings
