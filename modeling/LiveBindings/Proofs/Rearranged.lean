import LiveBindings.Proofs.Window

/-!
# Numbering and reversing

A view that numbers has a ticket for each of its elements, a list of the number and the element. When some of the elements are
replaced, so are their tickets, and the numbers of those behind are set if the elements there have moved. A view that reverses makes
the same replacement, as it looks from the other end.

`Reaches.shows_moved` is the result, for both of them: the list of the view shows all elements with their numbers, or all in reverse
order, and is spliced at most once for what the view is told; an element that is not replaced keeps its ticket.
-/

namespace LiveBindings

variable {π σ : Type}

/-- What a view that shows its elements at other places is told. -/
inductive Move
  /-- Some of the elements were replaced. -/
  | content (index removed : Nat) (plus : List Value)
  /-- The collection became another value, whose items are the elements if it is a list. -/
  | replaced (collection : Value)

namespace Move

/-- What the view does about it. -/
def run (E : Engine π σ) (V : Pane) : Move → Live π σ Unit
  | content index removed plus => Block.splice E V.block index removed plus
  | replaced collection => do Block.reset E V.block (← elementsOf collection)

/-- It is about elements that there are. -/
def Valid (up : List Value) : Move → Prop
  | content index removed _ => index + removed ≤ up.length
  | replaced _ => True

instance (up : List Value) : (s : Move) → Decidable (s.Valid up)
  | content .. => inferInstanceAs (Decidable (_ ≤ _))
  | replaced _ => inferInstanceAs (Decidable True)

/-- The elements afterwards. -/
def after (w : World (Callback π) (Env π σ)) : Move → List Value → List Value
  | content index removed plus, up => replaceRun up index removed plus
  | replaced collection, _ => w.elements collection

end Move

namespace Rearrangement

/-- The first part of the start of an expression that shows its elements at other places: the view is made, and shows nothing. -/
def make (what : Rearrangement) : Live π σ Pane := do
  let output ← ListId.create []
  let b ← newBlock (what.block output)
  return ⟨b, output⟩

/-- A view that shows its elements at other places, as a machine. What it should know are the elements. -/
def machine (what : Rearrangement) (E : Engine π σ) (V : Pane) : Machine π σ (List Value) Move where
  made w up w' := up = [] ∧ what.make w = .ok V w'
  Valid _ := Move.Valid
  run := Move.run E V
  after := Move.after

end Rearrangement

theorem Expr.start_rearrange (E : Engine π σ) (what : Rearrangement) (collection : Expr) (next : Sink π) (scope : Scope) :
    Expr.start E (.rearrange what collection) next scope = do
      let V ← what.make
      let content ← watch V.block (collection.start E · scope)
      E.emit next (.list V.output)
      return .join [content, .release V.block] := by
  simp only [Expr.start, Rearrangement.make, bind_assoc, pure_bind]

/-- What a listener of a collection has the view do. -/
theorem Callback.fire_move (H : Host π σ) (E : Engine π σ) (V : Pane) (added removed : List Value) (index : Nat) :
    Callback.fire H E (.content V.block) (.content added removed index) = (Move.content index removed.length added).run E V := rfl

/-- What a new collection has the view do, before the view listens to it. -/
theorem Branch.start_move (E : Engine π σ) (V : Pane) (v : Value) : Branch.start E (.content V.block) v = do
    (Move.replaced v).run E V
    match v with
    | .list l => do
      let id ← l.listen .content (.content V.block)
      return .unlistenList l .content id
    | _ => return .done := by
  cases v <;> rfl

/-- The items are lists, and each is the number of its place and the element there. -/
def World.ShowsNumbered (w : World (Callback π) (Env π σ)) (items up : List Value) : Prop :=
  items.length = up.length ∧ ∀ (i : Nat) (v : Value), up[i]? = some v →
    ∃ ticket, items[i]? = some (.list ticket) ∧ SameItems (w.listCell ticket).items [.ofNat i, v]

/-- A replacement as it looks from the other end. -/
theorem reverse_replaceRun {items : List Value} {index removed : Nat} (h : index + removed ≤ items.length) (plus : List Value) :
    (replaceRun items index removed plus).reverse =
      replaceRun items.reverse (items.length - (index + removed)) removed plus.reverse := by
  rw [replaceRun, replaceRun, List.take_reverse, List.drop_reverse, Nat.sub_sub_self h]
  have hrest : items.length - (items.length - (index + removed) + removed) = index := by omega
  rw [hrest]
  simp

/-- A ticket of a view that numbers: a list, and the element that it shows. -/
structure Ticket where
  list : ListId
  input : Value
deriving DecidableEq

namespace Neighbours

variable {N : Neighbours π σ} {E : Engine π σ} {V : Pane} {t : Ticket} {ts us : List Ticket} {first : Nat} {up : List Value}
  {w w' : World (Callback π) (Env π σ)} {S T : Set Part}

/-! ## Tickets -/

/-- A ticket shows a number and its element. -/
structure Bears (N : Neighbours π σ) (t : Ticket) (number : Value) (w : World (Callback π) (Env π σ)) : Prop where
  owns : N.Owns w (.list t.list)
  items : SameItems (w.listCell t.list).items [number, t.input]

/-- Tickets show the numbers from a first one on. -/
def Numbered (N : Neighbours π σ) (first : Nat) (ts : List Ticket) (w : World (Callback π) (Env π σ)) : Prop :=
  ∀ (i : Nat) (t : Ticket), ts[i]? = some t → N.Bears t (.ofNat (first + i)) w

/-- The lists of tickets. -/
def ticketParts (ts : List Ticket) : Set Part := {p | ∃ t ∈ ts, p = .list t.list}

theorem ticketParts_cons : ticketParts (t :: ts) = {.list t.list} ∪ ticketParts ts := by
  ext p
  simp [ticketParts]

theorem list_notMem_ticketParts {l : ListId} (h : l ∉ ts.map (·.list)) : .list l ∉ ticketParts ts := by
  rintro ⟨u, hu, he⟩
  exact h (List.mem_map.2 ⟨u, hu, (Part.list.inj he).symm⟩)

@[simp] theorem block_notMem_ticketParts {b : Ref .block} : .block b ∉ ticketParts ts := nofun

theorem Bears.after {number : Value} (h : N.Bears t number w) (h' : N.Changes S T w w') (hn : .list t.list ∉ S) :
    N.Bears t number w' where
  owns := h'.owns _ h.owns
  items := by
    have hsame : (w'.listCell t.list).items = (w.listCell t.list).items := h'.same _ h.owns hn
    rw [hsame]
    exact h.items

namespace Numbered

theorem after (h : N.Numbered first ts w) (h' : N.Changes S T w w') (hn : ∀ t ∈ ts, .list t.list ∉ S) : N.Numbered first ts w' :=
  fun i t hi => (h i t hi).after h' (hn t (List.mem_of_getElem? hi))

theorem exists_bears (h : N.Numbered first ts w) (ht : t ∈ ts) : ∃ number, N.Bears t number w := by
  obtain ⟨i, hi⟩ := List.getElem?_of_mem ht
  exact ⟨_, h i t hi⟩

theorem owns (h : N.Numbered first ts w) (ht : t ∈ ts) : N.Owns w (.list t.list) := (h.exists_bears ht).choose_spec.owns

theorem cons (ht : N.Bears t (.ofNat first) w) (h : N.Numbered (first + 1) ts w) : N.Numbered first (t :: ts) w := by
  intro i u hi
  cases i with
  | zero =>
    cases hi
    exact ht
  | succ i =>
    rw [Nat.add_comm i, ← Nat.add_assoc]
    exact h i u hi

theorem append (h : N.Numbered first ts w) (h' : N.Numbered (first + ts.length) us w) : N.Numbered first (ts ++ us) w := by
  intro i t hi
  by_cases hlt : i < ts.length
  · exact h i t (by rwa [List.getElem?_append_left hlt] at hi)
  · rw [List.getElem?_append_right (Nat.le_of_not_lt hlt)] at hi
    have hbears := h' _ t hi
    rwa [Nat.add_assoc, Nat.add_sub_cancel' (Nat.le_of_not_lt hlt)] at hbears

theorem left (h : N.Numbered first (ts ++ us) w) : N.Numbered first ts w := fun i t hi =>
  h i t (by rw [List.getElem?_append_left (List.getElem?_eq_some_iff.1 hi).1, hi])

theorem right (h : N.Numbered first (ts ++ us) w) : N.Numbered (first + ts.length) us w := fun i t hi => by
  rw [Nat.add_assoc]
  exact h _ t (by rw [List.getElem?_append_right (Nat.le_add_right ..), Nat.add_sub_cancel_left, hi])

end Numbered

namespace Around

variable (hN : N.Around E)

include hN

/-- New tickets are made. -/
theorem enumeratePairs (hw : N.calm w) (first : Nat) (plus : List Value) :
    (LiveBindings.enumeratePairs first plus : Live π σ _).Ends w fun items w' => N.Changes ∅ ∅ w w' ∧
      ∃ fresh : List Ticket, items = fresh.map (.list ·.list) ∧ fresh.map (·.input) = plus ∧ (fresh.map (·.list)).Nodup ∧
        (∀ t ∈ fresh, ¬w.Made (.list t.list)) ∧ N.Numbered first fresh w' := by
  induction plus generalizing first w with
  | nil => exact ⟨.refl hw _ _, [], rfl, rfl, List.nodup_nil, nofun, nofun⟩
  | cons v vs ih =>
    simp only [LiveBindings.enumeratePairs, Run.ends_bind, Run.ends_pure]
    refine (hN.create hw _).imp fun l w₁ ended => ?_
    obtain ⟨⟨h₁, hl₁⟩, hn, hi₁⟩ := ended
    refine (ih h₁.calm (first + 1)).imp fun items w₂ ended => ?_
    obtain ⟨h₂, fresh, rfl, rfl, hnodup, hmade, hnumbered⟩ := ended
    have hbears : N.Bears ⟨l, v⟩ (.ofNat first) w₁ := ⟨hl₁, by rw [hi₁]; exact .refl _⟩
    refine ⟨h₁.trans h₂, ⟨l, v⟩ :: fresh, rfl, rfl, ?_, ?_, (hnumbered.cons (hbears.after h₂ (Set.notMem_empty _)))⟩
    · rw [List.map_cons, List.nodup_cons]
      refine ⟨fun hm => ?_, hnodup⟩
      obtain ⟨u, hu, he⟩ := List.mem_map.1 hm
      exact hmade u hu (he ▸ hl₁.made)
    · exact List.forall_mem_cons.2 ⟨hn, fun u hu hm => hmade u hu (h₁.made _ hm)⟩

/-- The tickets from a place on get the numbers of their places. -/
theorem renumberPairs {before : List Value} (hw : N.calm w) (room : w.Admits) (hl : N.Owns w (.list V.output))
    (hitems : (w.listCell V.output).items = before ++ ts.map (.list ·.list)) (hnodup : (ts.map (·.list)).Nodup)
    (hne : V.output ∉ ts.map (·.list)) (hts : ∀ t ∈ ts, ∃ number, N.Bears t number w) :
    (LiveBindings.renumberPairs E V.output ts.length before.length).Ends w fun _ w' =>
      N.Changes (ticketParts ts) (ticketParts ts) w w' ∧ N.Numbered before.length ts w' := by
  induction ts generalizing before w with
  | nil => exact ⟨.refl hw _ _, nofun⟩
  | cons t ts ih =>
    rw [List.map_cons, List.nodup_cons] at hnodup
    rw [List.map_cons, List.mem_cons, not_or] at hne
    rw [List.forall_mem_cons] at hts
    obtain ⟨⟨number, ht⟩, hts⟩ := hts
    have hget : (w.contents.items V.output).getD before.length .undefined = .list t.list := by
      simp [World.contents, hitems]
    simp only [List.length_cons, LiveBindings.renumberPairs, Run.ends_bind, ListId.ends_get, hget]
    have hlength : 0 < (w.listCell t.list).items.length := by simp [ht.items.length_eq]
    refine (hN.assignItem hw ht.owns room hlength _).imp fun _ w₁ ended => ?_
    obtain ⟨h₁, hset, _⟩ := ended
    have hbears : N.Bears t (.ofNat before.length) w₁ := ⟨h₁.owns _ ht.owns, hset.trans (ht.items.set_congr 0 _)⟩
    have hsame : (w₁.listCell V.output).items = (w.listCell V.output).items := h₁.same _ hl (by simpa using hne.1)
    have hts₁ : ∀ u ∈ ts, ∃ number, N.Bears u number w₁ := fun u hu => (hts u hu).imp fun _ hu' => hu'.after h₁ fun he =>
      hnodup.1 (Part.list.inj he ▸ List.mem_map_of_mem hu)
    have hitems₁ : (w₁.listCell V.output).items = (before ++ [.list t.list]) ++ ts.map (.list ·.list) := by simp [hsame, hitems]
    have hnext := ih h₁.calm (h₁.admits room) (h₁.owns _ hl) hitems₁ hnodup.2 hne.2 hts₁
    rw [List.length_append] at hnext
    refine hnext.imp fun _ w₂ ended => ?_
    obtain ⟨h₂, hnumbered⟩ := ended
    rw [ticketParts_cons]
    exact ⟨h₁.andThen h₂, hnumbered.cons (hbears.after h₂ (list_notMem_ticketParts hnodup.1))⟩

/-- A view that has been made keeps what it starts with, and its list is empty. -/
theorem make_rearrangement {what : Rearrangement} (hw : N.calm w) (run : what.make w = .ok V w') :
    N.calm w' ∧ N.Keeps V.block (what.block V.output) w' ∧ N.Owns w' (.list V.output) ∧ (w'.listCell V.output).items = [] := by
  suffices hmake : (what.make : Live π σ Pane).Ends w fun V w' => N.calm w' ∧ N.Keeps V.block (what.block V.output) w' ∧
      N.Owns w' (.list V.output) ∧ (w'.listCell V.output).items = [] by
    rwa [Run.ends_of_eq run] at hmake
  simp only [Rearrangement.make, Run.ends_bind, Run.ends_pure]
  refine (hN.create hw []).imp fun l w₁ ended => ?_
  obtain ⟨⟨h₁, hl₁⟩, -, hi₁⟩ := ended
  refine (hN.newBlock h₁.calm _).imp fun b w₂ ended => ?_
  obtain ⟨h₂, -, hk₂⟩ := ended
  have hsame : (w₂.listCell l).items = (w₁.listCell l).items := h₂.same _ hl₁ (Set.notMem_empty _)
  exact ⟨h₂.calm, hk₂, h₂.owns _ hl₁, hsame.trans hi₁⟩

end Around

/-! ## Numbering -/

/-- A view that numbers has a list that shows its tickets, whatever their numbers. -/
structure HasTickets (N : Neighbours π σ) (V : Pane) (ts : List Ticket) (w : World (Callback π) (Env π σ)) : Prop where
  view : N.Keeps V.block (.enumerate V.output) w
  owns : N.Owns w (.list V.output)
  nodup : (ts.map (·.list)).Nodup
  apart : V.output ∉ ts.map (·.list)
  items : (w.listCell V.output).items = ts.map (.list ·.list)

/-- A view that numbers is up to date: its tickets are numbered. -/
structure ShowsTickets (N : Neighbours π σ) (V : Pane) (ts : List Ticket) (w : World (Callback π) (Env π σ)) : Prop
    extends N.HasTickets V ts w where
  numbered : N.Numbered 0 ts w

namespace HasTickets

theorem after (h : N.HasTickets V ts w) (h' : N.Changes S T w w') (hb : .block V.block ∉ S) (hl : .list V.output ∉ S) :
    N.HasTickets V ts w' where
  view := h.view.after h' hb
  owns := h'.owns _ h.owns
  nodup := h.nodup
  apart := h.apart
  items := by
    have hsame : (w'.listCell V.output).items = (w.listCell V.output).items := h'.same _ h.owns hl
    rw [hsame, h.items]

/-- After some tickets have been exchanged, those behind are numbered anew if they have moved. -/
theorem renumber (hN : N.Around E) (hw : N.calm w) (room : w.Admits) (h : N.HasTickets V (ts ++ us) w) (hts : N.Numbered 0 ts w)
    {index removed n : Nat} (hus : N.Numbered (index + removed) us w) (hlength : ts.length = index + n) :
    Run.Ends (if removed ≠ n then do renumberPairs E V.output ((← V.output.length) - (index + n)) (index + n) else pure ()) w
      fun _ w' => N.calm w' ∧ N.Untouched V.output w w' ∧ N.ShowsTickets V (ts ++ us) w' := by
  have hnodup := h.nodup
  have hapart := h.apart
  rw [List.map_append, List.nodup_append] at hnodup
  rw [List.map_append, List.mem_append, not_or] at hapart
  split
  · have hcount : (w.contents.items V.output).length - (index + n) = us.length := by
      simp [World.contents, h.items, hlength]
    have hplace : (ts.map (Value.list ·.list)).length = index + n := by rw [List.length_map, hlength]
    simp only [Run.ends_bind, ListId.ends_length, hcount]
    rw [← hplace]
    refine (hN.renumberPairs hw room h.owns (by rw [h.items, List.map_append]) hnodup.2.1 hapart.2 fun t ht => hus.exists_bears ht).imp
      fun _ w' ended => ?_
    obtain ⟨h', hus'⟩ := ended
    have hout := list_notMem_ticketParts hapart.2
    refine ⟨h'.calm, h'.untouched h.owns hout hout, h.after h' (by simp) hout, (hts.after h' fun t ht => ?_).append ?_⟩
    · exact list_notMem_ticketParts fun hm => hnodup.2.2 _ (List.mem_map_of_mem ht) _ hm rfl
    · simpa using hus'
  · rename_i heq
    rw [not_not] at heq
    refine ⟨hw, ⟨rfl, rfl⟩, h, hts.append ?_⟩
    rwa [Nat.zero_add, hlength, ← heq]

end HasTickets

namespace ShowsTickets

theorem lasting (hN : N.Around E) : N.Lasting (N.ShowsTickets V ts) := by
  intro w w' q hw h hv
  have hnumbered : N.Numbered 0 ts (w.during q) := fun i t hi =>
    ⟨hN.owns_during hw (hv.numbered i t hi).owns q, (hv.numbered i t hi).items⟩
  have hhas : N.HasTickets V ts (w.during q) :=
    ⟨hv.view.during hN hw q, hN.owns_during hw hv.owns q, hv.nodup, hv.apart, hv.items⟩
  exact ⟨hhas.after h (Set.notMem_empty _) (Set.notMem_empty _), hnumbered.after h fun _ _ => Set.notMem_empty _⟩

theorem showsNumbered (h : N.ShowsTickets V ts w) : w.ShowsNumbered (w.listCell V.output).items (ts.map (·.input)) := by
  refine ⟨by simp [h.items], fun i v hi => ?_⟩
  obtain ⟨t, ht, rfl⟩ := Option.map_eq_some_iff.1 (List.getElem?_map (f := Ticket.input) ▸ hi)
  refine ⟨t.list, by rw [h.items, List.getElem?_map, ht, Option.map_some], ?_⟩
  have hbears := (h.numbered i t ht).items
  rwa [Nat.zero_add] at hbears

/-- New tickets take the place of some, and those behind them keep their numbers. -/
theorem exchange (hN : N.Around E) (hw : N.calm w) (room : w.Admits) (h : N.ShowsTickets V ts w) {index removed : Nat}
    (hin : index + removed ≤ ts.length) (plus : List Value) :
    Run.Ends (do V.output.splice E.reactions index removed (← enumeratePairs index plus)) w fun _ w' =>
      N.Changes {.list V.output} {.list V.output} w w' ∧ N.Spliced E V.output w w' ∧ ∃ fresh : List Ticket,
        fresh.map (·.input) = plus ∧ N.HasTickets V (ts.take index ++ fresh ++ ts.drop (index + removed)) w' ∧
          N.Numbered 0 (ts.take index ++ fresh) w' ∧ N.Numbered (index + removed) (ts.drop (index + removed)) w' := by
  simp only [Run.ends_bind]
  refine (hN.enumeratePairs hw index plus).imp fun items w₁ ended => ?_
  obtain ⟨h₁, fresh, rfl, hplus, hfresh, hmade, hnumbered₁⟩ := ended
  have hl₁ := h₁.owns _ h.owns
  refine (hN.splice_spliced h₁.calm hl₁ (h₁.admits room) _ _ _).imp fun _ w₂ ended => ?_
  obtain ⟨h₂, hs⟩ := ended
  have hne : V.output ∉ fresh.map (·.list) := fun hm => by
    obtain ⟨t, ht, he⟩ := List.mem_map.1 hm
    exact hmade t ht (he ▸ h.owns.made)
  have hu₁ : N.Untouched V.output w w₁ := h₁.untouched h.owns (Set.notMem_empty _) (Set.notMem_empty _)
  -- what is spliced is the list of the view, and none of the tickets
  have keep {us : List Ticket} {n : Nat} (hu : V.output ∉ us.map (·.list)) (hus : N.Numbered n us w₁) : N.Numbered n us w₂ :=
    hus.after h₂.changes fun t ht he => hu (Part.list.inj he ▸ List.mem_map_of_mem ht)
  obtain ⟨before, run, after, hcut⟩ := Cut.exists_cut ts index removed
  have hbefore : before.length = index := by rw [← hcut.start, Nat.min_eq_left (by omega)]
  have hrun : before.length + run.length = index + removed := by
    rw [← List.length_append, ← hcut.stop, hbefore, Nat.min_eq_left hin]
  have hnumbered := hcut.parts ▸ h.numbered
  have hnodup := hcut.parts ▸ h.nodup
  have hapart := hcut.parts ▸ h.apart
  simp only [List.map_append, List.mem_append, not_or] at hapart
  have hkept : N.Numbered 0 before w₁ ∧ N.Numbered (index + removed) after w₁ := by
    refine ⟨hnumbered.left.after h₁ fun _ _ => Set.notMem_empty _, ?_⟩
    rw [← hrun, ← Nat.zero_add (before.length + run.length), ← Nat.add_assoc]
    exact hnumbered.right.right.after h₁ fun _ _ => Set.notMem_empty _
  rw [hcut.take, hcut.drop]
  refine ⟨(h₁.mono (Set.empty_subset _) (Set.empty_subset _)).trans h₂.changes, .after hu₁ hs, fresh, hplus,
    ⟨(h.view.after h₁ (Set.notMem_empty _)).after h₂.changes (by simp), h₂.owns hl₁, ?_, by simp [hapart.1, hne, hapart.2.2], ?_⟩,
    (keep hapart.1 hkept.1).append (by simpa [hbefore] using keep hne hnumbered₁), keep hapart.2.2 hkept.2⟩
  · rw [List.append_assoc]
    refine nodup_map_insert (nodup_map_remove hnodup) hfresh fun t ht u hu he => hmade u hu (he ▸ ?_)
    have ht : t ∈ ts := by
      rw [hcut.parts]
      rcases List.mem_append.1 ht with ht | ht <;> simp [ht]
    exact (h.numbered.owns ht).made
  · rw [h₂.items, hu₁.items, h.items, replaceRun, ← List.map_take, ← List.map_drop, hcut.take, hcut.drop, List.map_append, List.map_append]

/-- Some of the elements were replaced: the others keep their tickets. -/
theorem splice (hN : N.Around E) (hw : N.calm w) (room : w.Admits) (h : N.ShowsTickets V ts w) {index removed : Nat}
    (hin : index + removed ≤ ts.length) (plus : List Value) :
    (Block.splice E V.block index removed plus).Ends w fun _ w' => N.calm w' ∧ N.Spliced E V.output w w' ∧
      ∃ fresh : List Ticket, fresh.map (·.input) = plus ∧
        N.ShowsTickets V (ts.take index ++ fresh ++ ts.drop (index + removed)) w' := by
  have hexchange := h.exchange hN hw room hin plus
  simp only [Run.ends_bind] at hexchange
  simp only [Block.splice, Run.ends_bind, ends_envCells, h.view.block?, Run.ends_discard]
  refine hexchange.imp fun items w₁ ended => ended.imp fun _ w₂ ended => ?_
  obtain ⟨h₂, hs, fresh, rfl, hhas, hfront, hbehind⟩ := ended
  have hlength : (ts.take index ++ fresh).length = index + (fresh.map (·.input)).length := by
    rw [List.length_append, List.length_take, List.length_map, Nat.min_eq_left (by omega)]
  refine (hhas.renumber hN h₂.calm (h₂.admits room) hfront hbehind hlength).imp fun _ w₃ ended => ?_
  obtain ⟨hw₃, hu, hv⟩ := ended
  exact ⟨hw₃, hs.andThen hu, fresh, rfl, hv⟩

/-- The collection became another one: all tickets are new. -/
theorem reset (hN : N.Around E) (hw : N.calm w) (room : w.Admits) (h : N.ShowsTickets V ts w) (items : List Value) :
    (Block.reset E V.block items).Ends w fun _ w' => N.calm w' ∧ N.Spliced E V.output w w' ∧
      ∃ fresh : List Ticket, fresh.map (·.input) = items ∧ N.ShowsTickets V fresh w' := by
  have hexchange := h.exchange hN hw room (show 0 + ts.length ≤ ts.length by simp) items
  simp only [Run.ends_bind, List.take_zero, Nat.zero_add, List.drop_length, List.nil_append, List.append_nil] at hexchange
  have hlength : (w.contents.items V.output).length = ts.length := by simp [World.contents, h.items]
  simp only [Block.reset, Run.ends_bind, ends_envCells, h.view.block?, Run.ends_discard, ListId.ends_length, hlength]
  refine hexchange.imp fun _ w₁ ended => ended.imp fun _ w₂ ended => ?_
  obtain ⟨h₂, hs, fresh, hitems, hhas, hnumbered, -⟩ := ended
  exact ⟨h₂.calm, hs, fresh, hitems, hhas, hnumbered⟩

/-- One step of a view that numbers. -/
theorem step (hN : N.Around E) (hw : N.calm w) (room : w.Admits) (h : N.ShowsTickets V ts w) (s : Move)
    (hs : s.Valid (ts.map (·.input))) : (s.run E V).Ends w fun _ w' => N.calm w' ∧ N.Spliced E V.output w w' ∧
      (∃ us : List Ticket, us.map (·.input) = s.after w (ts.map (·.input)) ∧ N.ShowsTickets V us w') ∧
        ∀ index removed plus, s = .content index removed plus → ∃ fresh : List Value, fresh.length = plus.length ∧
          (w'.listCell V.output).items = replaceRun (w.listCell V.output).items index removed fresh := by
  cases s with
  | content index removed plus =>
    rw [Move.Valid, List.length_map] at hs
    refine (h.splice hN hw room hs plus).imp fun _ w' ended => ?_
    obtain ⟨hw', hspliced, fresh, rfl, hv⟩ := ended
    refine ⟨hw', hspliced, ⟨_, ?_, hv⟩, ?_⟩
    · simp [Move.after, replaceRun, List.map_take, List.map_drop]
    · rintro _ _ _ ⟨⟩
      exact ⟨fresh.map (.list ·.list), by simp, by simp [hv.items, h.items, replaceRun, List.map_take, List.map_drop]⟩
  | replaced collection =>
    simp only [Move.run, Run.ends_bind, ends_elementsOf]
    refine (h.reset hN hw room _).imp fun _ w' ended => ?_
    obtain ⟨hw', hspliced, fresh, hitems, hv⟩ := ended
    exact ⟨hw', hspliced, ⟨fresh, hitems, hv⟩, nofun⟩

end ShowsTickets

/-- Wherever a view that numbers can get to, it is up to date with tickets for the elements that it has been told of. -/
theorem Reaches.numbered (hN : N.Around E) (h : N.Reaches (Rearrangement.enumerate.machine E V) up w) :
    N.calm w ∧ ∃ ts : List Ticket, ts.map (·.input) = up ∧ N.ShowsTickets V ts w := by
  refine h.keeps (I := fun up w => ∃ ts : List Ticket, ts.map (·.input) = up ∧ N.ShowsTickets V ts w) ?_ ?_ ?_
  · rintro w up w' hw ⟨rfl, run⟩
    obtain ⟨hw', hk, ho, hi⟩ := hN.make_rearrangement hw run
    exact ⟨hw', [], rfl, ⟨hk, ho, List.nodup_nil, List.not_mem_nil, hi⟩, nofun⟩
  · rintro up w w' q hw h' ⟨ts, hup, hv⟩
    exact ⟨ts, hup, hv.lasting hN q hw h'⟩
  · rintro _ w s hw room ⟨ts, rfl, hv⟩ hs
    exact (hv.step hN hw room s hs).imp fun _ w' ended => ⟨ended.1, ended.2.2.1⟩

/-! ## Reversing -/

/-- A view that reverses is up to date. -/
structure ShowsReversed (N : Neighbours π σ) (V : Pane) (up : List Value) (w : World (Callback π) (Env π σ)) : Prop where
  view : N.Keeps V.block (.reversed V.output) w
  owns : N.Owns w (.list V.output)
  items : SameItems (w.listCell V.output).items up.reverse

namespace ShowsReversed

theorem lasting (hN : N.Around E) : N.Lasting (N.ShowsReversed V up) := by
  intro w w' q hw h hv
  have hl := hN.owns_during hw hv.owns q
  have hsame : (w'.listCell V.output).items = (w.listCell V.output).items := h.same _ hl (Set.notMem_empty _)
  exact ⟨Keeps.lasting hN q hw h hv.view, h.owns _ hl, by rw [hsame]; exact hv.items⟩

/-- One step of a view that reverses. -/
theorem step (hN : N.Around E) (hw : N.calm w) (room : w.Admits) (h : N.ShowsReversed V up w) (s : Move) (hs : s.Valid up) :
    (s.run E V).Ends w fun _ w' => N.calm w' ∧ N.Spliced E V.output w w' ∧ N.ShowsReversed V (s.after w up) w' := by
  cases s with
  | content index removed plus =>
    have hlength : (w.contents.items V.output).length = up.length := h.items.length_eq.trans List.length_reverse
    simp only [Move.run, Block.splice, Run.ends_bind, ends_envCells, h.view.block?, ListId.ends_length, Run.ends_discard, hlength]
    refine (hN.splice_spliced hw h.owns room _ _ _).imp fun _ w' ended => ?_
    obtain ⟨h', hspliced⟩ := ended
    refine ⟨h'.changes.calm, hspliced, h.view.after h'.changes (by simp), h'.owns h.owns, ?_⟩
    rw [h'.items, Move.after, reverse_replaceRun hs]
    exact h.items.replaceRun _ _ (.refl _)
  | replaced collection =>
    simp only [Move.run, Run.ends_bind, ends_elementsOf, Block.reset, ends_envCells, h.view.block?]
    refine (hN.reconcile hw h.owns room _).imp fun _ w' ended => ?_
    obtain ⟨h', hitems, hspliced⟩ := ended
    exact ⟨h'.calm, hspliced, h.view.after h' (by simp), h'.owns _ h.owns, hitems⟩

end ShowsReversed

/-- Wherever a view that reverses can get to, it is up to date with the elements that it has been told of. -/
theorem Reaches.reversed (hN : N.Around E) (h : N.Reaches (Rearrangement.reversed.machine E V) up w) :
    N.calm w ∧ N.ShowsReversed V up w := by
  refine h.keeps (I := N.ShowsReversed V) ?_ (fun _ => ShowsReversed.lasting hN) ?_
  · rintro w up w' hw ⟨rfl, run⟩
    obtain ⟨hw', hk, ho, hi⟩ := hN.make_rearrangement hw run
    exact ⟨hw', hk, ho, by rw [hi]; exact .nil⟩
  · intro up w s hw room hv hs
    exact (hv.step hN hw room s hs).imp fun _ w' ended => ⟨ended.1, ended.2.2⟩

/-! ## The result -/

/-- Views that number and that reverse are exact. In every world that the one can get to, its list shows all elements with their
numbers, and in every world that the other can get to, its list shows them in reverse order. Whatever either of them is told next, it
comes to an end, its list shows the elements that there are then, and it has been spliced at most once; when elements are replaced,
the tickets of the others are the same lists as before. -/
theorem Reaches.shows_moved (hN : N.Around E) (h : N.Reaches (Rearrangement.enumerate.machine E V) up w) {V' : Pane} {up' : List Value}
    (h' : N.Reaches (Rearrangement.reversed.machine E V') up' w') :
    (w.ShowsNumbered (w.listCell V.output).items up ∧
        ∀ s : Move, s.Valid up → w.Admits → (s.run E V).Ends w fun _ w₁ =>
          w₁.ShowsNumbered (w₁.listCell V.output).items (s.after w up) ∧ N.Spliced E V.output w w₁ ∧
            ∀ index removed plus, s = .content index removed plus → ∃ fresh : List Value, fresh.length = plus.length ∧
              (w₁.listCell V.output).items = replaceRun (w.listCell V.output).items index removed fresh) ∧
      SameItems (w'.listCell V'.output).items up'.reverse ∧
        ∀ s : Move, s.Valid up' → w'.Admits → (s.run E V').Ends w' fun _ w₁ =>
          SameItems (w₁.listCell V'.output).items (s.after w' up').reverse ∧ N.Spliced E V'.output w' w₁ := by
  obtain ⟨hw, ts, rfl, hv⟩ := h.numbered hN
  obtain ⟨hw', hv'⟩ := h'.reversed hN
  refine ⟨⟨hv.showsNumbered, fun s hs room => ?_⟩, hv'.items, fun s hs room => ?_⟩
  · refine (hv.step hN hw room s hs).imp fun _ w₁ ended => ?_
    obtain ⟨-, hspliced, ⟨us, hup, hv₁⟩, hkept⟩ := ended
    exact ⟨hup ▸ hv₁.showsNumbered, hspliced, hkept⟩
  · exact (hv'.step hN hw' room s hs).imp fun _ w₁ ended => ⟨ended.2.2.items, ended.2.1⟩

/-- A view of a list that has been made and shown the list gets there. -/
theorem Reaches.recording_moved (what : Rearrangement) (up : List Value)
    {P : World (Callback ListId) (Env ListId (List ListId)) → Prop}
    (hrun : (what.make : Live ListId (List ListId) Pane).Ends (World.listing [up] []) fun V w₁ =>
      V = ⟨⟨0⟩, ⟨1⟩⟩ ∧ w₁.Admits ∧ w₁.elements (.list ⟨0⟩) = up ∧
        ((Move.replaced (.list ⟨0⟩)).run .recording ⟨⟨0⟩, ⟨1⟩⟩).Ends w₁ fun _ => P) :
    ∃ w, (recording ⟨0⟩ ∅).Reaches (what.machine .recording ⟨⟨0⟩, ⟨1⟩⟩) up w ∧ P w := by
  obtain ⟨_, w₁, run, rfl, room, hup, hP⟩ := Run.ends_iff.1 hrun
  have h : (recording ⟨0⟩ ∅).Reaches (what.machine .recording ⟨⟨0⟩, ⟨1⟩⟩) [] w₁ := .made (World.recorded_listing _ _ nofun) ⟨rfl, run⟩
  exact h.next (.replaced (.list ⟨0⟩)) trivial hup room hP

/-- When null is put before true and false, it gets the first number and the ticket of true the second one; in reverse order it comes
last. -/
theorem Reaches.shows_moved_flags : ∃ w w',
    (recording ⟨0⟩ ∅).Reaches (Rearrangement.enumerate.machine .recording ⟨⟨0⟩, ⟨1⟩⟩) [.bool true, .bool false] w ∧
      (recording ⟨0⟩ ∅).Reaches (Rearrangement.reversed.machine .recording ⟨⟨0⟩, ⟨1⟩⟩) [.bool true, .bool false] w' ∧
        ((Move.content 0 0 [.null]).run .recording ⟨⟨0⟩, ⟨1⟩⟩).Ends w (fun _ w₁ =>
          w₁.ShowsNumbered (w₁.listCell ⟨1⟩).items [.null, .bool true, .bool false] ∧
            (w₁.listCell ⟨1⟩).items[1]? = (w.listCell ⟨1⟩).items[0]?) ∧
          ((Move.content 0 0 [.null]).run .recording ⟨⟨0⟩, ⟨1⟩⟩).Ends w' fun _ w₁ =>
            SameItems (w₁.listCell ⟨1⟩).items [.bool false, .bool true, .null] := by
  obtain ⟨w, h, room⟩ := Reaches.recording_moved .enumerate [.bool true, .bool false] (P := (·.Admits)) (by decide +kernel)
  obtain ⟨w', h', room'⟩ := Reaches.recording_moved .reversed [.bool true, .bool false] (P := (·.Admits)) (by decide +kernel)
  obtain ⟨⟨-, hstep⟩, -, hstep'⟩ := Reaches.shows_moved (recording_around ⟨0⟩ ∅ 7) h h'
  refine ⟨w, w', h, h', (hstep (.content 0 0 [.null]) (by decide) room).imp fun _ w₁ ended => ?_,
    (hstep' (.content 0 0 [.null]) (by decide) room').imp fun _ _ ended => ended.1⟩
  obtain ⟨hnumbered, -, hkept⟩ := ended
  obtain ⟨fresh, hlength, hitems⟩ := hkept 0 0 [.null] rfl
  obtain ⟨v, rfl⟩ := List.length_eq_one_iff.1 hlength
  exact ⟨hnumbered, by rw [hitems]; rfl⟩

end Neighbours

end LiveBindings
