import LiveBindings.Collection.Projection
import LiveBindings.Proofs.Dispatch
import LiveBindings.Proofs.Settling

/-!
# The entries of an object, listed

A view lists the keys, the values or the pairs of an object in insertion order (`EntryView.Shows`). What it needs between two
refreshes is `EntryView.Linked`: it hears of at most one object, nobody hears of its output before a change of it is made, and
nobody listens to its pairs. A refresh brings it up to date (`EntryView.refresh_carries`), and a key that was listed and still is
keeps its pair (`EntryView.Carries`). The readers of the output are told while the refresh is in progress, and may refresh the view
again; all that is asked of them is that they leave a view that shows its object in that state.
-/

namespace LiveBindings

variable {π σ : Type}

/-- A view of an object's entries: what it lists, the list that it fills, its cell and the slot of what runs for the object. -/
structure EntryView where
  what : Projection
  output : ListId
  projector : Ref .projector
  slot : Ref .slot
deriving DecidableEq

/-- The listener by which a view hears of an object. -/
structure Link where
  object : ObjectId
  id : ListenerId

/-- The entries of an object; there are none without an object. -/
def World.entriesOf {κ ε : Type} (w : World κ ε) : Option ObjectId → List (String × Value)
  | none => []
  | some o => (w.objectCell o).entries

/-- A callback is the embedding program's. -/
def Callback.IsUser (callback : Callback π) : Prop := ∃ p, callback = .user p

namespace EntryView

/-- The pairs of a view, by key. -/
def pairs (v : EntryView) (w : World (Callback π) (Env π σ)) : List (String × ListId) :=
  (w.env.cells.projector v.projector).pairs

/-- An item is what a view lists for an entry: its key, its value, or the pair of both. -/
def Lists (v : EntryView) (w : World (Callback π) (Env π σ)) (entry : String × Value) (item : Value) : Prop :=
  match v.what with
  | .keys => item.same (.text entry.1) = true
  | .values => item.same entry.2 = true
  | .items => ∃ pair value, item = .list pair ∧ Fields.get? entry.1 (v.pairs w) = some pair ∧
      (w.listCell pair).items = [.text entry.1, value] ∧ value.same entry.2 = true

/-- The output lists the entries of the object in insertion order. -/
def Shows (v : EntryView) (o : Option ObjectId) (w : World (Callback π) (Env π σ)) : Prop :=
  List.Forall₂ (v.Lists w) (w.entriesOf o) (w.listCell v.output).items

/-- The pairs of a view hold their keys, are different lists, and nobody listens to them. -/
structure Paired (v : EntryView) (pairs : List (String × ListId)) (w : World (Callback π) (Env π σ)) : Prop where
  names : (pairs.map (·.1)).Nodup
  apart : (pairs.map (·.2)).Nodup
  output : v.output ∉ pairs.map (·.2)
  made : ∀ p ∈ pairs, p.2.index < w.lists.size
  unheard : ∀ p ∈ pairs, (w.listCell p.2).listeners = []
  items : ∀ p ∈ pairs, ∃ value, (w.listCell p.2).items = [.text p.1, value]

def callback (v : EntryView) (k : Link) : Callback π := .entries v.projector k.object

def listener (v : EntryView) (k : Link) : Listener ObjectTopic (Callback π) := ⟨k.id, .entries, v.callback k⟩

/-- The handle of what runs for the object. -/
def handle : Option Link → Cancel π
  | none => .done
  | some k => .unlistenObject k.object .entries k.id

/-- A view that is not being refreshed and hears of the object that it is linked to. Besides it, only the embedding program listens
to objects and to the output, and to that only for what was changed. -/
structure Linked (v : EntryView) (link : Option Link) (w : World (Callback π) (Env π σ)) : Prop where
  cell : w.env.cells.projectors[v.projector.index]? = some ⟨v.what, v.output, v.pairs w, false⟩
  slot : ∃ generation, w.env.cells.slots[v.slot.index]? = some ⟨handle link, generation, false⟩
  output : v.output.index < w.lists.size
  paired : v.Paired (v.pairs w) w
  watched : ∀ k, link = some k → v.listener k ∈ (w.objectCell k.object).listeners
  told : ∀ o, ∀ x ∈ (w.objectCell o).listeners, x.callback.IsUser ∨ ∃ k, link = some k ∧ o = k.object ∧ x = v.listener k
  readers : ∀ x ∈ (w.listCell v.output).listeners, ¬x.topic.IsBefore ∧ x.callback.IsUser
  named : ∀ o, ((w.objectCell o).entries.map (·.1)).Nodup
  orphans : w.env.cells.orphans = []

/-- The view stays linked, no listener comes or goes, and among the keys `K` those that the object has stay and keep their pairs. -/
structure Carries (v : EntryView) (link : Option Link) (shown : Option ObjectId) (K : Set String)
    (w w' : World (Callback π) (Env π σ)) : Prop where
  linked : v.Linked link w'
  lists : ∀ l, (w'.listCell l).listeners = (w.listCell l).listeners
  objects : ∀ o, (w'.objectCell o).listeners = (w.objectCell o).listeners
  made : w'.objects.size = w.objects.size
  slots : w'.env.cells.slots = w.env.cells.slots
  kept : ∀ key ∈ K, key ∈ (w.entriesOf shown).map (·.1) → key ∈ (w'.entriesOf shown).map (·.1) ∧
    ∀ pair, Fields.get? key (v.pairs w) = some pair → Fields.get? key (v.pairs w') = some pair

/-- Moreover, the view still shows the object if it did. -/
structure Follows (v : EntryView) (link : Option Link) (shown : Option ObjectId) (K : Set String)
    (w w' : World (Callback π) (Env π σ)) : Prop extends v.Carries link shown K w w' where
  shows : v.Shows shown w → v.Shows shown w'

/-- From a world to a later one, in which the view shows the object if `B`. -/
def Within (v : EntryView) (link : Option Link) (shown : Option ObjectId) (K : Set String) (B : Prop)
    (w w' : World (Callback π) (Env π σ)) : Prop :=
  v.Carries link shown K w w' ∧ (B → v.Shows shown w')

variable {v : EntryView} {link : Option Link} {shown : Option ObjectId} {K : Set String} {B : Prop}
  {w w' w'' : World (Callback π) (Env π σ)}

/-! ## What is in progress does not matter -/

theorem entriesOf_of_objects (h : w'.objects = w.objects) (o : Option ObjectId) : w'.entriesOf o = w.entriesOf o := by
  cases o with
  | none => rfl
  | some o => simp only [World.entriesOf, World.objectCell, h]

theorem pairs_of_cells (h : w'.env.cells = w.env.cells) : v.pairs w' = v.pairs w := by
  simp only [pairs, h]

theorem lists_of {entry : String × Value} {item : Value} (hpairs : v.pairs w' = v.pairs w)
    (hitems : ∀ p ∈ v.pairs w, (w'.listCell p.2).items = (w.listCell p.2).items) (h : v.Lists w entry item) :
    v.Lists w' entry item := by
  unfold Lists at h ⊢
  split
  · rename_i hwhat
    rwa [hwhat] at h
  · rename_i hwhat
    rwa [hwhat] at h
  · rename_i hwhat
    rw [hwhat] at h
    obtain ⟨pair, value, hitem, hpair, hp, hv⟩ := h
    exact ⟨pair, value, hitem, hpairs ▸ hpair, (hitems _ (Fields.mem_of_get? hpair)).trans hp, hv⟩

/-- An item that cannot be told from a listed one is listed. -/
theorem Lists.of_same {entry : String × Value} {item item' : Value} (h : v.Lists w entry item) (hs : item'.same item = true) :
    v.Lists w entry item' := by
  unfold Lists at h ⊢
  split
  · rename_i hwhat
    rw [hwhat] at h
    exact Value.same_trans hs h
  · rename_i hwhat
    rw [hwhat] at h
    exact Value.same_trans hs h
  · rename_i hwhat
    rw [hwhat] at h
    obtain ⟨pair, value, rfl, hpair, hp, hv⟩ := h
    exact ⟨pair, value, Value.eq_of_same_list (Value.same_symm hs), hpair, hp, hv⟩

namespace Paired

variable {pairs : List (String × ListId)}

theorem of_items (h : v.Paired pairs w) (size : w.lists.size ≤ w'.lists.size)
    (items : ∀ p ∈ pairs, (w'.listCell p.2).items = (w.listCell p.2).items)
    (listeners : ∀ l, (w'.listCell l).listeners = (w.listCell l).listeners) : v.Paired pairs w' where
  names := h.names
  apart := h.apart
  output := h.output
  made p hp := Nat.lt_of_lt_of_le (h.made p hp) size
  unheard p hp := (listeners _).trans (h.unheard p hp)
  items p hp := by
    rw [items p hp]
    exact h.items p hp

theorem ne_output (h : v.Paired pairs w) {p : String × ListId} (hp : p ∈ pairs) : p.2 ≠ v.output :=
  fun he => h.output (he ▸ List.mem_map_of_mem hp)

end Paired

theorem Linked.of_cells (h : v.Linked link w) (cells : w'.env.cells = w.env.cells) (size : w.lists.size ≤ w'.lists.size)
    (items : ∀ p ∈ v.pairs w, (w'.listCell p.2).items = (w.listCell p.2).items)
    (lists : ∀ l, (w'.listCell l).listeners = (w.listCell l).listeners)
    (objects : ∀ o, (w'.objectCell o).listeners = (w.objectCell o).listeners)
    (named : ∀ o, ((w'.objectCell o).entries.map (·.1)).Nodup) : v.Linked link w' where
  cell := by rw [cells, pairs_of_cells cells, h.cell]
  slot := by rw [cells]; exact h.slot
  output := Nat.lt_of_lt_of_le h.output size
  paired := by rw [pairs_of_cells cells]; exact h.paired.of_items size items lists
  watched k hk := by rw [objects]; exact h.watched k hk
  told o x hx := h.told o x (objects o ▸ hx)
  readers x hx := h.readers x (lists _ ▸ hx)
  named := named
  orphans := by rw [cells]; exact h.orphans

/-- Only what is in progress, and what the embedding program works on, differs. -/
structure Beside (w w' : World (Callback π) (Env π σ)) : Prop where
  size : w'.lists.size = w.lists.size
  items : ∀ l, (w'.listCell l).items = (w.listCell l).items
  listeners : ∀ l, (w'.listCell l).listeners = (w.listCell l).listeners
  objects : w'.objects = w.objects
  cells : w'.env.cells = w.env.cells

theorem Beside.of_resembles (h : w.Resembles w') : Beside w w' :=
  ⟨h.size, h.items, h.listeners, h.objects, congrArg Env.cells h.env⟩

theorem Beside.setHost (w : World (Callback π) (Env π σ)) (h : σ) : Beside w (w.setHost h) :=
  ⟨rfl, fun _ => rfl, fun _ => rfl, rfl, rfl⟩

theorem Linked.beside (h : v.Linked link w) (hb : Beside w w') : v.Linked link w' := by
  have object (o : ObjectId) : w'.objectCell o = w.objectCell o := by simp only [World.objectCell, hb.objects]
  refine h.of_cells hb.cells hb.size.ge (fun p _ => hb.items p.2) hb.listeners (fun o => by rw [object]) fun o => ?_
  rw [object]
  exact h.named o

theorem Shows.beside (h : v.Shows shown w) (hb : Beside w w') : v.Shows shown w' := by
  unfold Shows at h ⊢
  rw [entriesOf_of_objects hb.objects, hb.items]
  exact h.imp fun _ _ => lists_of (pairs_of_cells hb.cells) fun p _ => hb.items p.2

namespace Carries

theorem refl (h : v.Linked link w) (shown : Option ObjectId) (K : Set String) : v.Carries link shown K w w :=
  ⟨h, fun _ => rfl, fun _ => rfl, rfl, rfl, fun _ _ hkey => ⟨hkey, fun _ => id⟩⟩

theorem trans (h : v.Carries link shown K w w') (h' : v.Carries link shown K w' w'') : v.Carries link shown K w w'' where
  linked := h'.linked
  lists l := (h'.lists l).trans (h.lists l)
  objects o := (h'.objects o).trans (h.objects o)
  made := h'.made.trans h.made
  slots := h'.slots.trans h.slots
  kept key hK hkey := by
    obtain ⟨hkey, hpair⟩ := h.kept key hK hkey
    obtain ⟨hkey, hpair'⟩ := h'.kept key hK hkey
    exact ⟨hkey, fun pair hp => hpair' pair (hpair pair hp)⟩

theorem beside (h : v.Linked link w) (hb : Beside w w') (shown : Option ObjectId) (K : Set String) :
    v.Carries link shown K w w' where
  linked := h.beside hb
  lists := hb.listeners
  objects o := by simp only [World.objectCell, hb.objects]
  made := by rw [hb.objects]
  slots := by rw [hb.cells]
  kept key _ hkey := by
    rw [entriesOf_of_objects hb.objects, pairs_of_cells hb.cells]
    exact ⟨hkey, fun _ => id⟩

end Carries

namespace Follows

theorem refl (h : v.Linked link w) (shown : Option ObjectId) (K : Set String) : v.Follows link shown K w w := ⟨.refl h _ _, id⟩

theorem trans (h : v.Follows link shown K w w') (h' : v.Follows link shown K w' w'') : v.Follows link shown K w w'' :=
  ⟨h.toCarries.trans h'.toCarries, fun hs => h'.shows (h.shows hs)⟩

theorem beside (h : v.Linked link w) (hb : Beside w w') (shown : Option ObjectId) (K : Set String) :
    v.Follows link shown K w w' := ⟨.beside h hb _ _, fun hs => hs.beside hb⟩

end Follows

namespace Within

theorem after (h : v.Within link shown K B w w') (h' : v.Follows link shown K w' w'') : v.Within link shown K B w w'' :=
  ⟨h.1.trans h'.toCarries, fun hB => h'.shows (h.2 hB)⟩

theorem calm (w : World (Callback π) (Env π σ)) : World.Calm (v.Within link shown K B w) :=
  World.calm_of_resembles fun h hr => h.after (.beside h.1.linked (.of_resembles hr) _ _)

end Within

/-! ## The output -/

/-- What the output is made to list shows the object. -/
theorem follows_output {next items : List Value} (h : v.Linked link w) (hnext : List.Forall₂ (v.Lists w) (w.entriesOf shown) next)
    (hitems : SameItems items next) (hs : World.SetsItems v.output items w w') :
    v.Carries link shown K w w' ∧ v.Shows shown w' := by
  have object (o : ObjectId) : w'.objectCell o = w.objectCell o := by simp only [World.objectCell, hs.objects]
  have hcells : w'.env.cells = w.env.cells := congrArg Env.cells hs.env
  have hpairs (p : String × ListId) (hp : p ∈ v.pairs w) : (w'.listCell p.2).items = (w.listCell p.2).items :=
    hs.items _ (h.paired.ne_output hp)
  refine ⟨⟨?_, hs.listeners, fun o => by rw [object], by rw [hs.objects], by rw [hcells], fun key _ hkey => ?_⟩, ?_⟩
  · refine h.of_cells hcells hs.size.ge hpairs hs.listeners (fun o => by rw [object]) fun o => ?_
    rw [object]
    exact h.named o
  · rw [entriesOf_of_objects hs.objects, pairs_of_cells hcells]
    exact ⟨hkey, fun _ => id⟩
  · unfold Shows
    rw [entriesOf_of_objects hs.objects, hs.own]
    have hsame : List.Forall₂ (v.Lists w) (w.entriesOf shown) items := by
      clear hs
      generalize w.entriesOf shown = entries at hnext
      induction hnext generalizing items with
      | nil =>
        cases hitems
        exact .nil
      | cons hl _ ih =>
        cases hitems with
        | cons hi hrest => exact .cons (hl.of_same hi) (ih hrest)
    exact hsame.imp fun _ _ => lists_of (pairs_of_cells hcells) hpairs

/-- When no view has been given up, letting go of what a dispatch has captured has no effect. -/
def LetsGo (E : Engine π σ) : Prop := ∀ {w : World (Callback π) (Env π σ)}, w.env.cells.orphans = [] → E.letGo w = .ok ⟨⟩ w

section

variable {E : Engine π σ} {d : Nat} {c : Config}

theorem reconcile_carries {C : Callback π → Prop} {next : List Value} (h : v.Linked link w)
    (hnext : List.Forall₂ (v.Lists w) (w.entriesOf shown) next) (letGo : d < c.maxDispatchDepth → LetsGo E)
    (serves : d < c.maxDispatchDepth → E.reactions.Serves (Fault.IsRefusal c) (d + 1) c C (v.Within link shown K True w))
    (readers : ∀ x ∈ (w.listCell v.output).listeners, C x.callback) (hd : w.AtLevel d c) :
    (v.output.reconcile E.reactions next).Settles (Fault.IsRefusal c) w fun _ w' =>
      (v.Carries link shown K w w' ∧ v.Shows shown w') ∧ w'.AtLevel d c := by
  simp only [ListId.reconcile, ListId.replaceSpan, ListId.slice, ListId.length, ListId.items, Run.settles_bind, Run.settles_get,
    Run.settles_pure, Run.settles_discard]
  refine (ListId.splice_settles (I := v.Within link shown K True w) (fun panic _ => panic) h.output (fun x hx => (h.readers x hx).1)
    (fun below => fun hr => letGo below (by rw [hr.env, h.orphans])) serves
    (fun hI x hx _ => readers x (hI.1.lists _ ▸ hx)) (fun hs => ?_) hd).imp fun _ _ hI => ⟨⟨hI.1.1, hI.1.2 trivial⟩, hI.2⟩
  have hspan := replaceRun_span (w.listCell v.output).items next 0 (w.listCell v.output).items.length
  rw [replaceRun_whole le_rfl next] at hspan
  have houtput : v.Carries link shown K w _ ∧ v.Shows shown _ := follows_output h hnext hspan hs
  exact ⟨houtput.1, fun _ => houtput.2⟩

/-! ## The pairs -/

/-- Of the lists that there were only some got other items, and apart from that and the cell of the view nothing changed. -/
structure Prepares (T : Set ListId) (w w' : World (Callback π) (Env π σ)) : Prop where
  size : w.lists.size ≤ w'.lists.size
  items : ∀ l, l.index < w.lists.size → l ∉ T → (w'.listCell l).items = (w.listCell l).items
  listeners : ∀ l, (w'.listCell l).listeners = (w.listCell l).listeners
  objects : w'.objects = w.objects
  slots : w'.env.cells.slots = w.env.cells.slots
  orphans : w'.env.cells.orphans = w.env.cells.orphans

theorem Prepares.trans {T T' : Set ListId} (h : Prepares T w w') (h' : Prepares T' w' w'') : Prepares (T ∪ T') w w'' where
  size := h.size.trans h'.size
  items l hl hT := by
    rw [Set.mem_union, not_or] at hT
    exact (h'.items l (Nat.lt_of_lt_of_le hl h.size) hT.2).trans (h.items l hl hT.1)
  listeners l := (h'.listeners l).trans (h.listeners l)
  objects := h'.objects.trans h.objects
  slots := h'.slots.trans h.slots
  orphans := h'.orphans.trans h.orphans

theorem Prepares.mono {T T' : Set ListId} (h : Prepares T w w') (hT : T ⊆ T') : Prepares T' w w' :=
  { h with items := fun l hl hn => h.items l hl fun hm => hn (hT hm) }

/-- The second item of a list that nobody listens to is set. -/
theorem assign_unheard {l : ListId} {a b : Value} (value : Value) (hl : l.index < w.lists.size)
    (hls : (w.listCell l).listeners = []) (hi : (w.listCell l).items = [a, b]) (ho : w.env.cells.orphans = [])
    (letGo : d < c.maxDispatchDepth → LetsGo E) (hd : w.AtLevel d c) :
    (l.assign E.reactions 1 value).Settles (Fault.IsRefusal c) w fun _ w' =>
      (∃ value', World.SetsItems l [a, value'] w w' ∧ value'.same value = true) ∧ w'.AtLevel d c := by
  simp only [ListId.assign, ListId.length, ListId.get, ListId.items, Run.settles_bind, Run.settles_get, Run.settles_pure, hi]
  rw [if_pos (show 1 < [a, b].length from Nat.one_lt_two)]
  simp only [Run.settles_bind, Run.settles_get, Run.settles_pure, hi]
  split
  · rename_i hsame
    exact ⟨⟨b, .of_resembles (.refl w) hi, hsame⟩, hd⟩
  · rw [Run.settles_discard]
    have hnone {w' : World (Callback π) (Env π σ)} (h : World.SetsItems l [a, value] w w') : (w'.listCell l).listeners = [] :=
      (h.listeners l).trans hls
    refine (ListId.splice_settles (I := World.SetsItems l [a, value] w) (C := fun _ => False) (fun panic _ => panic) hl
      (by simp [hls]) (fun below => fun hr => letGo below (by rw [hr.env, ho]))
      (fun below => .nobody (World.calm_of_resembles .resembles) fun hs => letGo below (by rw [hs.env, ho]))
      (fun hI x hx _ => by simp [hnone hI] at hx) (fun hs => ?_) hd).imp fun _ _ hI => ⟨⟨value, hI.1, Value.same_refl value⟩, hI.2⟩
    rwa [hi] at hs

/-- The pairs of a view for some entries: those whose keys were known are kept. -/
structure Renews (v : EntryView) (cache : List (String × ListId)) (entries : List (String × Value)) (pairs : List (String × ListId))
    (w w' : World (Callback π) (Env π σ)) : Prop where
  prepares : Prepares {l | l ∈ cache.map (·.2)} w w'
  paired : v.Paired pairs w'
  holds : List.Forall₂ (fun e p => p.1 = e.1 ∧ ∃ value, (w'.listCell p.2).items = [.text e.1, value] ∧ value.same e.2 = true)
    entries pairs
  known : ∀ key pair, Fields.get? key cache = some pair → key ∈ entries.map (·.1) → Fields.get? key pairs = some pair
  origin : ∀ p ∈ pairs, p ∈ cache ∨ w.lists.size ≤ p.2.index
  cell : ∃ rest, w'.env.cells.projectors[v.projector.index]? = some ⟨v.what, v.output, rest, true⟩

/-- A new list holds what it was made with, and the others are as they were. -/
theorem settles_create {G : Fault → Prop} (items : List Value) {Q : ListId → World (Callback π) (Env π σ) → Prop}
    (h : ∀ {w'}, Prepares ∅ w w' → w'.env = w.env → w'.config = w.config → w'.depth = w.depth →
      w.lists.size < w'.lists.size → (w'.listCell ⟨w.lists.size⟩).items = items → Q ⟨w.lists.size⟩ w') :
    (ListId.create items : Live π σ ListId).Settles G w Q := by
  have cell (l : ListId) (hl : l.index ≠ w.lists.size) :
      World.listCell { w with lists := w.lists.push { items } } l = w.listCell l := by
    simp only [World.listCell, Array.getD_eq_getD_getElem?, Array.getElem?_push, if_neg hl]
  refine h ⟨by simp, fun l hl _ => by rw [cell l hl.ne], fun l => ?_, rfl, rfl, rfl⟩ rfl rfl rfl (by simp) ?_
  · by_cases hl : l.index = w.lists.size
    · simp [World.listCell, Array.getD_eq_getD_getElem?, hl]
    · rw [cell l hl]
  · simp [World.listCell, Array.getD_eq_getD_getElem?]

theorem Paired.erase {cache : List (String × ListId)} (h : v.Paired cache w) (key : String) : v.Paired (Fields.erase key cache) w where
  names := h.names.sublist (List.filter_sublist.map _)
  apart := h.apart.sublist (List.filter_sublist.map _)
  output hm := h.output ((List.filter_sublist.map _).subset hm)
  made p hp := h.made p (List.mem_of_mem_filter hp)
  unheard p hp := h.unheard p (List.mem_of_mem_filter hp)
  items p hp := h.items p (List.mem_of_mem_filter hp)

theorem Renews.names_eq {cache pairs : List (String × ListId)} {entries : List (String × Value)}
    (h : v.Renews cache entries pairs w w') : entries.map (·.1) = pairs.map (·.1) := by
  rw [← List.forall₂_eq_eq_eq, List.forall₂_map_left_iff, List.forall₂_map_right_iff]
  exact h.holds.imp fun _ _ hp => hp.1.symm

/-- A pair is put before the pairs of the other entries. -/
theorem Renews.cons {cache : List (String × ListId)} {entries : List (String × Value)} {pairs : List (String × ListId)}
    {key : String} {value value' : Value} {pair : ListId} {T : Set ListId} (hcache : v.Paired cache w)
    (hnodup : (((key, value) :: entries).map (·.1)).Nodup) (hfirst : Prepares T w w') (hT : T ⊆ {l | l ∈ cache.map (·.2)})
    (hmade : pair.index < w'.lists.size) (houtput : pair ≠ v.output) (hls : (w'.listCell pair).listeners = [])
    (hi : (w'.listCell pair).items = [.text key, value']) (hv : value'.same value = true)
    (hknown : ∀ known, Fields.get? key cache = some known → known = pair)
    (horigin : (key, pair) ∈ cache ∨ w.lists.size ≤ pair.index) (h : v.Renews (Fields.erase key cache) entries pairs w' w'') :
    v.Renews cache ((key, value) :: entries) ((key, pair) :: pairs) w w'' := by
  have hnames := h.names_eq
  rw [List.map_cons, List.nodup_cons] at hnodup
  have herased : pair ∉ (Fields.erase key cache).map (·.2) := by
    intro hm
    obtain ⟨⟨name, l⟩, hp, rfl⟩ := List.mem_map.1 hm
    obtain ⟨hp, hne⟩ := List.mem_filter.1 hp
    rcases horigin with hin | hfresh
    · have hinj := (List.inj_on_of_nodup_map hcache.apart) hp hin rfl
      simp only [Prod.mk.injEq] at hinj
      simp [hinj.1] at hne
    · exact Nat.lt_irrefl _ (Nat.lt_of_lt_of_le (hcache.made _ hp) hfresh)
  have hnotin : pair ∉ pairs.map (·.2) := by
    intro hm
    obtain ⟨p, hp, he⟩ := List.mem_map.1 hm
    rcases h.origin p hp with hin | hfresh
    · exact herased (he ▸ List.mem_map_of_mem hin)
    · rw [he] at hfresh
      exact Nat.lt_irrefl _ (Nat.lt_of_lt_of_le hmade hfresh)
  have hkept : (w''.listCell pair).items = [.text key, value'] := (h.prepares.items pair hmade herased).trans hi
  refine ⟨(hfirst.trans h.prepares).mono ?_, ⟨?_, ?_, ?_, ?_, ?_, ?_⟩, .cons ⟨rfl, value', hkept, hv⟩ h.holds, ?_, ?_, h.cell⟩
  · exact Set.union_subset hT fun l hl => (List.filter_sublist.map _).subset hl
  · rw [List.map_cons, List.nodup_cons, ← hnames]
    exact ⟨hnodup.1, hnames ▸ h.paired.names⟩
  · rw [List.map_cons, List.nodup_cons]
    exact ⟨hnotin, h.paired.apart⟩
  · rw [List.map_cons, List.mem_cons, not_or]
    exact ⟨houtput.symm, h.paired.output⟩
  · rw [List.forall_mem_cons]
    exact ⟨Nat.lt_of_lt_of_le hmade h.prepares.size, h.paired.made⟩
  · rw [List.forall_mem_cons]
    exact ⟨(h.prepares.listeners _).trans hls, h.paired.unheard⟩
  · rw [List.forall_mem_cons]
    exact ⟨⟨value', hkept⟩, h.paired.items⟩
  · intro key' pair' hpair' hkey'
    rw [List.map_cons, List.mem_cons] at hkey'
    by_cases hkk : key' = key
    · subst hkk
      rw [Fields.get?, if_pos rfl, hknown pair' hpair']
    · rw [Fields.get?, if_neg (Ne.symm hkk)]
      exact h.known key' pair' (by rwa [Fields.get?_erase_of_ne hkk]) (hkey'.resolve_left hkk)
  · rw [List.forall_mem_cons]
    refine ⟨horigin, fun p hp => (h.origin p hp).imp List.mem_of_mem_filter fun hf => hfirst.size.trans hf⟩

/-- The cell of a view is changed. -/
theorem settles_modifyProjector {G : Fault → Prop} {cell : Projector} (f : Projector → Projector)
    (hcell : w.env.cells.projectors[v.projector.index]? = some cell) {Q : PUnit → World (Callback π) (Env π σ) → Prop}
    (h : ∀ {w'}, Prepares ∅ w w' → w'.lists = w.lists → w'.config = w.config → w'.depth = w.depth →
      w'.env.cells.projectors[v.projector.index]? = some (f cell) → Q ⟨⟩ w') :
    (modifyProjector v.projector f : Live π σ Unit).Settles G w Q :=
  h ⟨le_rfl, fun _ _ _ => rfl, fun _ => rfl, rfl, rfl, rfl⟩ rfl rfl rfl (by simp [Array.getElem?_modify, hcell])

/-- The pairs of all entries are found or made, and set. -/
theorem setPairs_renews (letGo : d < c.maxDispatchDepth → LetsGo E) {entries : List (String × Value)}
    {cache : List (String × ListId)} (hcell : w.env.cells.projectors[v.projector.index]? = some ⟨v.what, v.output, cache, true⟩)
    (hcache : v.Paired cache w) (houtput : v.output.index < w.lists.size) (hnodup : (entries.map (·.1)).Nodup)
    (ho : w.env.cells.orphans = []) (hd : w.AtLevel d c) :
    (setPairs E v.projector entries).Settles (Fault.IsRefusal c) w fun pairs w' =>
      v.Renews cache entries pairs w w' ∧ w'.AtLevel d c := by
  induction entries generalizing cache w with
  | nil =>
    refine ⟨⟨⟨le_rfl, fun _ _ _ => rfl, fun _ => rfl, rfl, rfl, rfl⟩, ?_, .nil, by simp, by simp, cache, hcell⟩, hd⟩
    exact ⟨.nil, .nil, by simp, by simp, by simp, by simp⟩
  | cons entry entries ih =>
    obtain ⟨key, value⟩ := entry
    have hrest : (entries.map (·.1)).Nodup := (List.nodup_cons.1 hnodup).2
    have hknown : Fields.get? key (w.env.cells.projector v.projector).pairs = Fields.get? key cache := by
      rw [Cells.projector, Array.getD_eq_getD_getElem?, hcell, Option.getD_some]
    simp only [setPairs, Run.settles_bind, cells, Run.settles_get, Run.settles_pure, hknown]
    refine settles_modifyProjector _ hcell fun {w₁} h₁ hlists hconfig hdepth hcell₁ => ?_
    have hcache₁ : v.Paired (Fields.erase key cache) w₁ :=
      (hcache.erase key).of_items h₁.size (fun p _ => by simp only [World.listCell, hlists]) h₁.listeners
    have hd₁ : w₁.AtLevel d c := ⟨hdepth.trans hd.1, hconfig.trans hd.2⟩
    have ho₁ : w₁.env.cells.orphans = [] := h₁.orphans.trans ho
    -- the other entries, when there is a pair for this one
    have others {T : Set ListId} {w₂ : World (Callback π) (Env π σ)} (h₂ : Prepares T w₁ w₂) (henv : w₂.env = w₁.env)
        (hapart : ∀ p ∈ Fields.erase key cache, (w₂.listCell p.2).items = (w₁.listCell p.2).items) (hd₂ : w₂.AtLevel d c) :
        (setPairs E v.projector entries).Settles (Fault.IsRefusal c) w₂ fun pairs w₃ =>
          v.Renews (Fields.erase key cache) entries pairs w₂ w₃ ∧ w₃.AtLevel d c :=
      ih (by rw [henv, hcell₁]) (hcache₁.of_items h₂.size hapart h₂.listeners)
        (Nat.lt_of_lt_of_le houtput (h₁.size.trans h₂.size)) hrest (h₂.orphans.trans ho₁) hd₂
    split
    · -- the pair that is listed for the key
      rename_i pair hpair
      have hin : (key, pair) ∈ cache := Fields.mem_of_get? hpair
      obtain ⟨before, hi⟩ := hcache.items _ hin
      simp only [Run.settles_bind, Run.settles_pure]
      have hcell' : w₁.listCell pair = w.listCell pair := by simp only [World.listCell, hlists]
      refine (assign_unheard value (hlists ▸ hcache.made _ hin) ((h₁.listeners _).trans (hcache.unheard _ hin))
        (by rw [hcell', hi]) ho₁ letGo hd₁).imp fun _ w₂ ended => ?_
      obtain ⟨⟨value', hs, hv⟩, hd₂⟩ := ended
      have h₂ : Prepares {pair} w₁ w₂ := by
        refine ⟨hs.size.ge, fun l _ hne => hs.items l hne, hs.listeners, hs.objects, ?_, ?_⟩ <;> rw [hs.env]
      have hapart : ∀ p ∈ Fields.erase key cache, (w₂.listCell p.2).items = (w₁.listCell p.2).items := by
        intro p hp
        obtain ⟨hp, hne⟩ := List.mem_filter.1 hp
        refine hs.items _ fun he => ?_
        have hinj := (List.inj_on_of_nodup_map hcache.apart) hp hin he
        simp [hinj] at hne
      refine (others h₂ hs.env hapart hd₂).imp fun pairs w₃ ended => ?_
      refine ⟨.cons hcache hnodup (h₁.trans h₂) ?_ ?_ (hcache.ne_output hin) ?_ hs.own hv (fun known hk => ?_) (.inl hin) ended.1,
        ended.2⟩
      · rw [Set.empty_union, Set.singleton_subset_iff]
        exact List.mem_map_of_mem (f := (·.2)) hin
      · exact Nat.lt_of_lt_of_le (hcache.made _ hin) (h₁.size.trans h₂.size)
      · exact (h₂.listeners _).trans ((h₁.listeners _).trans (hcache.unheard _ hin))
      · exact Option.some.inj (hk.symm.trans hpair)
    · -- a new pair
      rename_i hnone
      simp only [Run.settles_bind, Run.settles_pure]
      refine settles_create _ fun {w₂} h₂ henv hconfig₂ hdepth₂ hsize hi => ?_
      have hapart : ∀ p ∈ Fields.erase key cache, (w₂.listCell p.2).items = (w₁.listCell p.2).items :=
        fun p hp => h₂.items _ (hcache₁.made p hp) (Set.notMem_empty _)
      have hfresh : (w₁.listCell ⟨w₁.lists.size⟩).listeners = [] := by simp [World.listCell, Array.getD_eq_getD_getElem?]
      refine (others h₂ henv hapart ⟨hdepth₂.trans hd₁.1, hconfig₂.trans hd₁.2⟩).imp fun pairs w₃ ended => ?_
      refine ⟨.cons hcache hnodup (h₁.trans h₂) (by simp) hsize (fun he => ?_) ((h₂.listeners _).trans hfresh) hi
        (Value.same_refl value) (fun known hk => by rw [hnone] at hk; cases hk) (.inr h₁.size) ended.1, ended.2⟩
      have hindex : w₁.lists.size = v.output.index := congrArg ListId.index he
      exact absurd houtput (Nat.not_lt.2 (hindex ▸ h₁.size))

theorem Linked.prepared {T : Set ListId} (h : v.Linked link w) (hp : Prepares T w w')
    (cell : w'.env.cells.projectors[v.projector.index]? = some ⟨v.what, v.output, v.pairs w', false⟩)
    (paired : v.Paired (v.pairs w') w') : v.Linked link w' := by
  have object (o : ObjectId) : w'.objectCell o = w.objectCell o := by simp only [World.objectCell, hp.objects]
  refine ⟨cell, hp.slots ▸ h.slot, Nat.lt_of_lt_of_le h.output hp.size, paired, fun k hk => ?_, fun o x hx => h.told o x ?_,
    fun x hx => h.readers x (hp.listeners _ ▸ hx), fun o => ?_, hp.orphans.trans h.orphans⟩
  · rw [object]
    exact h.watched k hk
  · rwa [object] at hx
  · rw [object]
    exact h.named o

/-- The pairs are brought up to date with the object. -/
theorem refreshPairs_carries (h : v.Linked link w) (letGo : d < c.maxDispatchDepth → LetsGo E) (hwhat : v.what = .items)
    (hd : w.AtLevel d c) : (refreshPairs E v.projector (w.entriesOf shown)).Settles (Fault.IsRefusal c) w fun next w' =>
      (v.Carries link shown K w w' ∧ List.Forall₂ (v.Lists w') (w'.entriesOf shown) next) ∧ w'.AtLevel d c := by
  have hprojector : w.env.cells.projector v.projector = ⟨v.what, v.output, v.pairs w, false⟩ := by
    rw [Cells.projector, Array.getD_eq_getD_getElem?, h.cell, Option.getD_some]
  have hnodup : ((w.entriesOf shown).map (·.1)).Nodup := by
    cases shown with
    | none => exact .nil
    | some o => exact h.named o
  simp only [refreshPairs, Run.settles_bind, cells, Run.settles_get, Run.settles_pure, hprojector, Bool.false_eq_true, if_false,
    Run.settles_restoring]
  refine settles_modifyProjector _ h.cell fun {w₁} h₁ hlists hconfig hdepth hcell₁ => ?_
  refine (setPairs_renews letGo hcell₁ (h.paired.of_items h₁.size (fun p _ => by simp only [World.listCell, hlists]) h₁.listeners)
    (Nat.lt_of_lt_of_le h.output h₁.size) hnodup (h₁.orphans.trans h.orphans) ⟨hdepth.trans hd.1, hconfig.trans hd.2⟩).imp
      fun pairs w₂ ended => ?_
  obtain ⟨h₂, hd₂⟩ := ended
  obtain ⟨rest, hcell₂⟩ := h₂.cell
  refine settles_modifyProjector _ hcell₂ fun {w₃} h₃ hlists₃ hconfig₃ hdepth₃ hcell₃ => ?_
  -- the view is released
  generalize hreleased : World.mk w₃.lists w₃.objects w₃.nextListener w₃.depth w₃.config w₃.held _ = w₄
  have hcell : w₄.env.cells.projectors[v.projector.index]? = some ⟨v.what, v.output, pairs, false⟩ := by
    rw [← hreleased]
    simp [Array.getElem?_modify, hcell₃]
  have h₄ : Prepares ∅ w₃ w₄ := by
    rw [← hreleased]
    exact ⟨le_rfl, fun _ _ _ => rfl, fun _ => rfl, rfl, rfl, rfl⟩
  have hpairs : v.pairs w₄ = pairs := by
    rw [EntryView.pairs, Cells.projector, Array.getD_eq_getD_getElem?, hcell, Option.getD_some]
  have hsame (l : ListId) : w₄.listCell l = w₂.listCell l := by
    rw [← hreleased]
    simp only [World.listCell, hlists₃]
  have hall := ((h₁.trans h₂.prepares).trans h₃).trans h₄
  have hpaired : v.Paired (v.pairs w₄) w₄ := by
    rw [hpairs]
    exact h₂.paired.of_items (h₃.size.trans h₄.size) (fun p _ => by rw [hsame]) fun l => by rw [hsame]
  have hentries : w₄.entriesOf shown = w.entriesOf shown := entriesOf_of_objects hall.objects shown
  refine ⟨⟨⟨h.prepared hall (hpairs ▸ hcell) hpaired, hall.listeners, fun o => ?_, by rw [hall.objects], hall.slots,
    fun key _ hkey => ⟨hentries ▸ hkey, fun pair hpair => ?_⟩⟩, ?_⟩, ?_⟩
  · simp only [World.objectCell, hall.objects]
  · rw [hpairs]
    exact h₂.known key pair hpair hkey
  · rw [hentries, List.forall₂_map_right_iff]
    have hget : ∀ p ∈ pairs, Fields.get? p.1 (v.pairs w₄) = some p.2 :=
      fun p hp => hpairs ▸ Fields.get?_of_mem h₂.paired.names hp
    refine ((List.forall₂_and_left pairs (w.entriesOf shown)).2 ⟨hget, h₂.holds.flip⟩).flip.imp fun entry p hp => ?_
    obtain ⟨hpair, hname, value, hi, hv⟩ := hp
    simp only [Lists, hwhat]
    exact ⟨p.2, value, rfl, hname ▸ hpair, by rw [hsame, hi], hv⟩
  · rw [← hreleased]
    exact ⟨hdepth₃.trans hd₂.1, hconfig₃.trans hd₂.2⟩

/-- A refresh brings the view up to date with an object, whatever its readers do about it. -/
theorem refresh_carries {C : Callback π → Prop} (h : v.Linked link w) (letGo : d < c.maxDispatchDepth → LetsGo E)
    (serves : ∀ {w' : World (Callback π) (Env π σ)}, v.Linked link w' → d < c.maxDispatchDepth →
      E.reactions.Serves (Fault.IsRefusal c) (d + 1) c C (v.Within link shown K True w'))
    (readers : ∀ x ∈ (w.listCell v.output).listeners, C x.callback) (hd : w.AtLevel d c) :
    (refreshEntries E v.projector shown).Settles (Fault.IsRefusal c) w fun _ w' =>
      (v.Carries link shown K w w' ∧ v.Shows shown w') ∧ w'.AtLevel d c := by
  have hprojector : w.env.cells.projector v.projector = ⟨v.what, v.output, v.pairs w, false⟩ := by
    rw [Cells.projector, Array.getD_eq_getD_getElem?, h.cell, Option.getD_some]
  have reconcile {next : List Value} {w₁ : World (Callback π) (Env π σ)} (h₁ : v.Carries link shown K w w₁)
      (hnext : List.Forall₂ (v.Lists w₁) (w₁.entriesOf shown) next) (hd₁ : w₁.AtLevel d c) :
      (v.output.reconcile E.reactions next).Settles (Fault.IsRefusal c) w₁ fun _ w' =>
        (v.Carries link shown K w w' ∧ v.Shows shown w') ∧ w'.AtLevel d c :=
    (reconcile_carries h₁.linked hnext letGo (serves h₁.linked) (fun x hx => readers x (h₁.lists _ ▸ hx)) hd₁).imp
      fun _ _ h₂ => ⟨⟨h₁.trans h₂.1.1, h₂.1.2⟩, h₂.2⟩
  have named (hwhat : v.what = .keys) : List.Forall₂ (v.Lists w) (w.entriesOf shown) ((w.entriesOf shown).map fun e => .text e.1) := by
    simp only [List.forall₂_map_right_iff, List.forall₂_same, Lists, hwhat]
    exact fun _ _ => Value.same_refl _
  have valued (hwhat : v.what = .values) : List.Forall₂ (v.Lists w) (w.entriesOf shown) ((w.entriesOf shown).map (·.2)) := by
    simp only [List.forall₂_map_right_iff, List.forall₂_same, Lists, hwhat]
    exact fun _ _ => Value.same_refl _
  have paired (hwhat : v.what = .items) :
      (refreshPairs E v.projector (w.entriesOf shown)).Settles (Fault.IsRefusal c) w fun next w₁ =>
        (v.output.reconcile E.reactions next).Settles (Fault.IsRefusal c) w₁ fun _ w' =>
          (v.Carries link shown K w w' ∧ v.Shows shown w') ∧ w'.AtLevel d c :=
    (refreshPairs_carries h letGo hwhat hd).imp fun next w₁ h₁ => reconcile h₁.1.1 h₁.1.2 h₁.2
  have hview (Q : Cells π → World (Callback π) (Env π σ) → Prop) :
      (cells : Live π σ (Cells π)).Settles (Fault.IsRefusal c) w Q ↔ Q w.env.cells w := Iff.rfl
  unfold refreshEntries
  cases shown
  all_goals
    simp only [Run.settles_bind, Run.settles_pure, hview, hprojector, ObjectId.entries, Run.settles_stateGet]
    cases hwhat : v.what with
    | keys =>
      rw [Run.settles_bind, Run.settles_pure]
      exact reconcile (.refl h _ _) (named hwhat) hd
    | values =>
      rw [Run.settles_bind, Run.settles_pure]
      exact reconcile (.refl h _ _) (valued hwhat) hd
    | items =>
      rw [Run.settles_bind]
      exact paired hwhat

end

end EntryView

end LiveBindings
