import LiveBindings.Proofs.Toggling
import Mathlib.Data.Finset.Prod

/-!
# Switches that are installed

Several switches on one panel, each with its three observers and its cells (`Installed`). Whatever the program does to lists or
to the flags, the switches stay installed and their observers up to date (`Installed.change_list`, `Installed.set_flag`), and then
every flag is as true as the presence of its value (`Installed.truthy`).
-/

namespace LiveBindings

variable {π σ : Type}

/-- The cells of a switch. -/
def Switch.pieces (t : Switch) : Multiset Piece := {.row t.row} + ({.slot t.slot} + ({.flag t.syncing} + {.flag t.ready}))

namespace Panel

/-- The cells of switches. -/
def pieces (ts : Finset Switch) : Multiset Piece := ∑ t ∈ ts, t.pieces

/-- The observers of switches. -/
def parts (ts : Finset Switch) : Finset (Switch × Role) := ts ×ˢ {.path, .flag, .member}

/-- Switches of a panel have flags of their own, which are not the key of the list, and stand for fixed values. -/
structure Wired (S : Panel) (ts : Finset Switch) : Prop where
  scope : S.scope.value = .object S.target
  fixed : ∀ t ∈ ts, (S.member t.flag).Fixed S.scope (S.value t.flag)
  apart : ∀ t ∈ ts, t.flag ≠ S.key
  distinct : ∀ t ∈ ts, ∀ t' ∈ ts, t.flag = t'.flag → t = t'

section

variable {ts : Finset Switch} {t t' : Switch} {r : Role} {p : Piece}

@[simp] theorem mem_parts : (t, r) ∈ parts ts ↔ t ∈ ts := by
  cases r <;> simp [parts]

theorem mem_pieces : p ∈ pieces ts ↔ ∃ t ∈ ts, p ∈ t.pieces := Multiset.mem_sum

theorem mem_switch_pieces : p ∈ t.pieces ↔ p = .row t.row ∨ p = .slot t.slot ∨ p = .flag t.syncing ∨ p = .flag t.ready := by
  simp only [Switch.pieces, Multiset.mem_add, Multiset.mem_singleton]

theorem plain_pieces (ts : Finset Switch) (id : ListenerId) : .listener id ∉ pieces ts := by
  rintro h
  obtain ⟨t, -, h⟩ := mem_pieces.1 h
  simp [Switch.pieces] at h

theorem pieces_split (ht : t ∈ ts) : pieces ts = t.pieces + pieces (ts.erase t) :=
  (Finset.add_sum_erase ts _ ht).symm

/-- The flag that a switch sets while it writes is nobody else's. -/
theorem flags_apart (hn : (pieces ts).Nodup) (ht : t ∈ ts) (ht' : t' ∈ ts) :
    (t' ≠ t → t'.syncing ≠ t.syncing) ∧ t'.ready ≠ t.syncing := by
  rw [pieces_split ht] at hn
  obtain ⟨h₁, -, h₃⟩ := Multiset.nodup_add.1 hn
  have hother : t' ≠ t → ∀ f, .flag f ∈ t'.pieces → f ≠ t.syncing := fun hne f hf he =>
    Multiset.disjoint_left.1 h₃ (mem_switch_pieces.2 (by simp [he])) (mem_pieces.2 ⟨t', Finset.mem_erase.2 ⟨hne, ht'⟩, hf⟩)
  refine ⟨fun hne => hother hne _ (by simp [Switch.pieces]), ?_⟩
  by_cases hne : t' = t
  · subst hne
    intro he
    simp [Switch.pieces, he] at h₁
  · exact hother hne _ (by simp [Switch.pieces])

end

/-- Some of the observers of switches, as they are now, with cells `E` around them. -/
def scene (Q : Finset (Switch × Role)) (D : Place → Prop) (E : Multiset Piece) (a : Switch → Aim) (R : Switch × Role → Running π)
    (w : World (Callback π) (Env π σ)) : Cast π where
  aim := a
  cells := w.layout
  handle t := (R (t, .flag)).handle
  parts := Q
  places := D
  extra := E
  config := w.config

/-- Switches are installed; the list `l` is under the key, and their observers are up to date except for listeners for the key
among `P`. -/
structure Installed (S : Panel) (ts : Finset Switch) (d : Nat) (l : ListId) (a : Switch → Aim) (P : Leaf π → Prop)
    (R : Switch × Role → Running π) (w : World (Callback π) (Env π σ)) : Prop where
  steady : Steady S (scene (parts ts) (fun _ => False) (pieces ts) a R w) d R w
  runs : Family.Run (S.reader a) (parts ts) R w.layout
  fits : w.Fits (Family.owned (parts ts) R + pieces ts)
  rows : ∀ t ∈ ts, w.layout.rowIs t.row { values := [.list (a t).list, (a t).member], ready := true }
  slots : ∀ t ∈ ts, ∃ g, w.layout.slotIs t.slot { current := (R (t, .flag)).handle, generation := g }
  idle : ∀ t ∈ ts, w.layout.flagIs t.syncing false ∧ w.layout.flagIs t.ready true
  members : ∀ t ∈ ts, (a t).member.same (S.value t.flag) = true
  found : l.index < w.layout.lists
  list : w.contents.under S.target S.key = .list l
  leaves : ∀ {lf}, Family.Has (parts ts) R lf → lf.Current w.contents ∨ (lf.place = .entry S.target S.key ∧ P lf)
  deep : 3 ≤ w.config.maxDispatchDepth

section

variable {S : Panel} {ts : Finset Switch} {H : Host π σ} {d n : Nat} {l : ListId} {a : Switch → Aim} {P P' : Leaf π → Prop}
  {R R' : Switch × Role → Running π} {w w' : World (Callback π) (Env π σ)} {t : Switch} {lf : Leaf π}
  {Q : Finset (Switch × Role)} {D : Place → Prop} {E : Multiset Piece} {C : Cast π}

theorem Around.now {K : Layout π} {config : Config} {G : Multiset Piece} (h : S.Around K d config D G E w) :
    S.Around w.layout d w.config D G E w :=
  ⟨h.found, h.orphans, h.depth, rfl, h.plain, fun p _ => .refl _ p, h.closed⟩

/-- What observers keep does not depend on how the cells were earlier. -/
theorem steady_now (h : Steady S C d R w) : Steady S (scene C.parts C.places C.extra C.aim R w) d R w :=
  ⟨h.around.now, fun _ => rfl, h.paths, h.list, h.even, h.lists, h.flags⟩

namespace Installed

theorem mono (h : S.Installed ts d l a P R w) (hP : ∀ lf, Family.Has (parts ts) R lf → P lf → P' lf) :
    S.Installed ts d l a P' R w :=
  { h with leaves := fun hl => (h.leaves hl).imp_right (And.imp_right (hP _ hl)) }

/-- A switch of its own reads the same. -/
theorem congr {d' : Nat} (h : S.Installed ts d l a P R w) (hl : w'.layout = w.layout)
    (hunder : ∀ key, w'.contents.under S.target key = w.contents.under S.target key)
    (hitems : w'.contents.items = w.contents.items) (hd : w'.depth = d') (hm : w'.config = w.config) :
    S.Installed ts d' l a P R w' := by
  have hread : ∀ {i}, i ∈ parts ts → ∀ lf ∈ (R i).leaves, lf.Current w.contents → lf.Current w'.contents := by
    intro i hi lf hlf hc
    have hp : S.Watched lf.place := watched_of_places ((h.runs i hi).placed lf hlf).place
    rw [Leaf.Current] at hc ⊢
    rcases hp with ⟨key, hp⟩ | ⟨l, v, hp⟩
    · rwa [hp, Place.read_entry, hunder, ← Place.read_entry, ← hp]
    · rwa [hp, Place.read, hitems, ← Place.read, ← hp]
  refine ⟨⟨?_, fun _ => rfl, h.steady.paths, ?_, fun ht ht' => ?_, h.steady.lists, fun ht lf hlf => ?_⟩, hl ▸ h.runs,
    ⟨hl ▸ h.fits.has, h.fits.nodup, hl ▸ h.fits.tidy⟩, hl ▸ h.rows, hl ▸ h.slots, hl ▸ h.idle, h.members, hl ▸ h.found, ?_,
    fun hlf => ?_, hm ▸ h.deep⟩
  · exact (h.steady.around.congr hl hd hm).now
  · rw [hunder]
    exact h.steady.list
  · rw [hunder, h.steady.even ht ht']
  · exact hread ht lf hlf (h.steady.flags ht lf hlf)
  · rw [hunder, h.list]
  · obtain ⟨i, hi, hlf⟩ := hlf
    exact (h.leaves ⟨i, hi, hlf⟩).imp_left (hread hi _ hlf)

theorem sound (hS : S.Wired ts) (h : S.Installed ts d l a P R w) :
    (scene (parts ts) (fun _ => False) (pieces ts) a R w).Sound S where
  scope := hS.scope
  fixed ht := hS.fixed _ (mem_parts.1 ht)
  apart ht := hS.apart _ (mem_parts.1 ht)
  distinct ht ht' := hS.distinct _ (mem_parts.1 ht) _ (mem_parts.1 ht')
  places := False.elim
  flags {t} ht := by
    have hm := mem_parts.1 ht
    refine ⟨mem_pieces.2 ⟨t, hm, ?_⟩, mem_pieces.2 ⟨t, hm, ?_⟩, (h.idle t hm).2⟩ <;> simp [Switch.pieces]
  writing {t} ht := Or.inr ⟨(h.idle t (mem_parts.1 ht)).1, mem_parts.2 (mem_parts.1 ht), id⟩

/-- Some of the observers, when what the others watch may be watched besides. -/
theorem among (h : S.Installed ts d l a P R w) (hQ : Q ⊆ parts ts) (hE : ∀ id, .listener id ∉ E)
    (hD : ∀ i ∈ parts ts, i ∉ Q → ∀ p, (S.reader (π := π) a i).places p → D p) : Steady S (scene Q D E a R w) d R w where
  around :=
    { h.steady.around with
      plain := hE
      frozen := fun p _ => .refl _ p
      closed := fun hq => by
        refine (h.steady.around.closed hq).imp_right fun hid => ?_
        obtain ⟨i, hi, lf, hlf, rfl⟩ := h.runs.leaf_of_owned (hid.resolve_right fun ⟨_, _, hf, _⟩ => hf)
        have hplaced := (h.runs i hi).placed lf hlf
        by_cases hiQ : i ∈ Q
        · exact Or.inl (Family.mem_owned.2 ⟨i, hiQ, hplaced.owned⟩)
        · exact Or.inr ⟨lf.place, lf.sink, hD i hi hiQ _ hplaced.place, hplaced.holds.only _ hq⟩ }
  handles _ := rfl
  paths ht := h.steady.paths (hQ ht)
  list := h.steady.list
  even ht ht' := h.steady.even (hQ ht) (hQ ht')
  lists hi := h.steady.lists (hQ hi)
  flags ht := h.steady.flags (hQ ht)

/-- Only listeners for the key of the list may be out of date. -/
theorem current_of_ne (h : S.Installed ts d l a P R w) (hl : Family.Has (parts ts) R lf)
    (hne : lf.place ≠ .entry S.target S.key) : lf.Current w.contents :=
  (h.leaves hl).resolve_right fun hp => hne hp.1

theorem current (h : S.Installed ts d l a (fun _ => False) R w) (hl : Family.Has (parts ts) R lf) : lf.Current w.contents :=
  (h.leaves hl).resolve_right And.right

/-- The flag of a switch that is installed is as true as the observer of its presence found it. -/
theorem even (h : S.Installed ts d l a P R w) (ht : t ∈ ts) :
    (w.contents.under S.target t.flag).truthy = (R (t, .member)).value.truthy :=
  h.steady.even (mem_parts.2 ht) (mem_parts.2 ht)

/-- The observer of a flag has handed on what the flag says. -/
theorem flag_value (hS : S.Wired ts) (h : S.Installed ts d l a P R w) (ht : t ∈ ts) :
    (R (t, .flag)).value.truthy = (w.contents.under S.target t.flag).truthy := by
  obtain ⟨lf, hlf, hp, hv⟩ := (h.runs _ (mem_parts.2 ht : (t, Role.flag) ∈ _)).key_leaf hS.scope
  have hc := h.steady.flags (mem_parts.2 ht) lf (by simp [hlf])
  rw [Leaf.Current, hp, Place.read_entry] at hc
  exact Value.truthy_eq_of_same (Value.same_trans hv hc)

/-- When all listeners are up to date every flag is as true as the presence of its value in the list. -/
theorem truthy (hS : S.Wired ts) (h : S.Installed ts d l a (fun _ => False) R w) (ht : t ∈ ts) :
    (w.contents.under S.target t.flag).truthy =
      turned (S.turns t.flag) ((S.value t.flag).memberOf (w.contents.items l)) := by
  obtain ⟨lk, le, list, m, hls, hp, hlist, hp', hm, hv⟩ := h.steady.presence hS.scope (hS.fixed t ht) h.runs (mem_parts.2 ht)
  have hcur : ∀ lf ∈ (R (t, .member)).leaves, lf.Current w.contents := fun lf hlf =>
    h.current ⟨_, mem_parts.2 ht, hlf⟩
  have hk := hcur lk (by simp [hls])
  rw [Leaf.Current, hp, Place.read_entry, h.list, hlist] at hk
  obtain rfl : l = list := by simpa using Value.eq_of_same_list hk
  have he := hcur le (by simp [hls])
  rw [Leaf.Current, hp', Place.read] at he
  rw [h.even ht, hv, Value.truthy_eq_of_same he, Value.memberOf_eq_of_same hm]
  rfl

/-- Passes over listeners leave the switches installed. -/
theorem passed {B : Outset π σ} {items : ListId → List Value} {P₀ : Leaf π → Prop} (hS : S.Wired ts) (h : S.Installed ts d l a P₀ R w)
    (hB : B.world = w)
    (h' : Passing S (scene (parts ts) (fun _ => False) (pieces ts) a R w) d B items P' R' w')
    (hleaves : ∀ {lf}, Family.Has (parts ts) R' lf → lf.Current w'.contents ∨ (lf.place = .entry S.target S.key ∧ P lf)) :
    S.Installed ts d l a P R' w' where
  steady := steady_now h'.toSteady
  runs := h'.runs
  fits := h'.fits
  rows t ht := (h.rows t ht).same (h'.around.frozen _ (mem_pieces.2 ⟨t, ht, by simp [Switch.pieces]⟩))
  slots t ht := by
    obtain ⟨g, hg⟩ := h.slots t ht
    rw [h'.handles (mem_parts.2 ht)]
    exact ⟨g, hg.same (h'.around.frozen _ (mem_pieces.2 ⟨t, ht, by simp [Switch.pieces]⟩))⟩
  idle t ht := by
    obtain ⟨h₁, h₂⟩ := h.idle t ht
    exact ⟨h₁.same (h'.around.frozen _ (mem_pieces.2 ⟨t, ht, by simp [Switch.pieces]⟩)),
      h₂.same (h'.around.frozen _ (mem_pieces.2 ⟨t, ht, by simp [Switch.pieces]⟩))⟩
  members := h.members
  found := by
    rw [h'.layout.lists, hB]
    exact h.found
  list := by
    rw [h'.kept fun t' ht' => (hS.apart t' (mem_parts.1 ht')).symm, hB, h.list]
  leaves := hleaves
  deep := by
    rw [h'.around.config]
    exact h.deep

/-- A list is changed. -/
theorem change_list (hS : S.Wired ts) (hH : H.Quiet fun _ _ _ _ => True) (hn : ∀ t ∈ ts, 2 * S.turns t.flag + 12 ≤ n)
    (h : S.Installed ts 0 l a (fun _ => False) R w) {l' : ListId} (hfound : l'.index < w.layout.lists) {vs : List Value}
    {change : ListChange} {before : ListReport} {mutate : Live π σ ListReport} (hm : Mutates mutate w (w.replaced l' vs)) :
    (l'.apply (engine H (n + 2)).reactions change before mutate).Ends w fun _ w' =>
      ∃ R', S.Installed ts 0 l a (fun _ => False) R' w' := by
  have hdeep := h.deep
  refine (Passing.apply_ends (h.sound hS) hH (d := 0) (by simp only [scene]; omega) (fun ht => hn _ (mem_parts.1 ht)) h.steady h.runs
    h.fits hfound hm).imp ?_
  rintro _ w' ⟨R', h'⟩
  refine ⟨R', h.passed hS rfl h' fun hlf => Or.inl ?_⟩
  rcases (h'.leaves hlf).resolve_right id with hc | ⟨hold, hr⟩
  · exact hc
  · rw [Leaf.Current, hr]
    exact h.current hold

/-- What an observer listens to. -/
theorem leaf_of_posted (h : S.Installed ts d l a P R w) {id : ListenerId} {q : Post π} (hq : w.layout.Posted id q)
    (hu : ¬q.IsUser) : ∃ i ∈ parts ts, ∃ lf ∈ (R i).leaves, lf.id = id ∧ q = lf.post ∧ S.Watched lf.place := by
  have hid := ((h.steady.around.closed hq).resolve_left hu).resolve_right fun ⟨_, _, hf, _⟩ => hf
  obtain ⟨i, hi, lf, hlf, rfl⟩ := h.runs.leaf_of_owned hid
  have hplaced := (h.runs i hi).placed lf hlf
  exact ⟨i, hi, lf, hlf, rfl, hplaced.holds.only _ hq, watched_of_places hplaced.place⟩

/-- Nobody but the program listens to an object for anything but what comes after a change of a key. -/
theorem users (h : S.Installed ts d l a P R w) {id : ListenerId} {o : ObjectId} {topic : ObjectTopic} {callback : Callback π}
    (hq : w.layout.Posted id (.object o topic callback)) (ht : ∀ key, topic ≠ .after key) :
    (Post.object o topic callback).IsUser := by
  by_contra hu
  obtain ⟨_, _, lf, _, _, he, hw⟩ := h.leaf_of_posted hq hu
  obtain ⟨key, -, hkey⟩ := hw.topic he
  exact ht key hkey

/-- A listener of the program is told something. -/
theorem user {id : ListenerId} {q : Post π} {p : π} {host : σ} (h : S.Installed ts d l a (fun lf => P lf ∨ lf.id = id) R w)
    (hq : w.layout.Posted id q) (hp : q.callback = .user p) : S.Installed ts d l a P R (w.setHost host) := by
  refine (h.mono fun lf ⟨i, hi, hlf⟩ hP => hP.resolve_right fun hid => ?_).congr rfl (fun _ => rfl) rfl h.steady.around.depth rfl
  have he := ((h.runs i hi).placed lf hlf).holds.only _ (hid ▸ hq)
  exact lf.place.not_isUser_post lf.sink ⟨p, (congrArg Post.callback he).symm.trans hp⟩

/-- A listener that has been removed before its turn was none. -/
theorem absent {id : ListenerId} {topic : ObjectTopic}
    (h : S.Installed ts d l a (fun lf => P lf ∨ (lf.id = id ∧ Post.OfObject S.target topic lf.post)) R w)
    (hn : ∀ q, Post.OfObject S.target topic q → ¬w.layout.Posted id q) : S.Installed ts d l a P R w := by
  refine h.mono fun lf ⟨i, hi, hlf⟩ hP => hP.resolve_right ?_
  rintro ⟨rfl, callback, hcb⟩
  refine hn _ ⟨callback, hcb⟩ (((h.runs i hi).placed lf hlf).holds.posted ?_)
  rw [hcb]
  exact h.steady.around.found

/-- The pass over those who listen to all entries of the object. -/
theorem attends_entries {e : Event} : Attends H (fun _ _ _ _ => True) n (Post.OfObject S.target .entries) e fun P _ w =>
    ∃ a R, S.Installed ts d l a P R w where
  mono := fun ⟨a, R, h⟩ hP => ⟨a, R, h.mono fun lf _ => hP lf⟩
  apart := fun ⟨a, R, h⟩ ha _ => ⟨a, R, h.congr ha.layout (fun _ => by rw [ha.contents]) (by rw [ha.contents])
    (ha.depth.trans h.steady.around.depth) ha.config⟩
  tidy := fun ⟨_, _, h⟩ => h.fits.tidy
  orphans := fun ⟨_, _, h⟩ => h.steady.around.orphans
  user := fun ⟨a, R, h⟩ _ _ hq hp _ => ⟨a, R, h.user hq hp⟩
  leaf := by
    rintro P w id ids q ⟨a, R, h⟩ ⟨callback, rfl⟩ hq hu
    exact absurd (h.users hq (by simp)) hu
  absent := fun ⟨a, R, h⟩ hn => ⟨a, R, h.absent hn⟩

/-- A switch aims at the list under the key. -/
theorem aimed (hS : S.Wired ts) (h : S.Installed ts d l a (fun _ => False) R w) (ht : t ∈ ts) : (a t).list = l := by
  obtain ⟨lf, hlf, hp, hv⟩ := (h.runs _ (mem_parts.2 ht : (t, Role.path) ∈ _)).key_leaf hS.scope
  have hm : Family.Has (parts ts) R lf := ⟨(t, .path), mem_parts.2 ht, by simp [hlf]⟩
  have hc := h.current hm
  rw [Leaf.Current, hp, Place.read_entry, h.list] at hc
  have hl := Value.same_trans hv hc
  rw [h.steady.paths (mem_parts.2 ht)] at hl
  exact (Value.list.inj (Value.eq_of_same_list hl)).symm

/-- A switch may write when the observer of its flag is set aside. -/
theorem lends (hS : S.Wired (insert t ts)) (h : S.Installed ts d l a P R w) (hQ : Q ⊆ parts ts) (habsent : (t, .flag) ∉ Q)
    (hothers : ∀ t' ∈ ts, t' ≠ t → (t', .flag) ∈ Q) (hE : ∀ t' ∈ ts, .flag t'.syncing ∈ E ∧ .flag t'.ready ∈ E)
    (hsync : .flag t.syncing ∈ E ∧ w.layout.flagIs t.syncing false)
    (hfree : ∀ t' ∈ ts, (t' ≠ t → t'.syncing ≠ t.syncing) ∧ t'.ready ≠ t.syncing) :
    (scene Q (S.reader (π := π) a (t, .flag)).places E a R w).Lends S t where
  scope := hS.scope
  fixed ht := hS.fixed _ (Finset.mem_insert_of_mem (mem_parts.1 (hQ ht)))
  apart ht := hS.apart _ (Finset.mem_insert_of_mem (mem_parts.1 (hQ ht)))
  distinct ht ht' := hS.distinct _ (Finset.mem_insert_of_mem (mem_parts.1 (hQ ht))) _
    (Finset.mem_insert_of_mem (mem_parts.1 (hQ ht')))
  places := rfl
  absent := habsent
  alone ht he := hS.distinct _ (Finset.mem_insert_of_mem (mem_parts.1 (hQ ht))) _ (Finset.mem_insert_self _ _) he
  syncing := hsync
  flags ht := by
    have hm := mem_parts.1 (hQ ht)
    exact ⟨(hE _ hm).1, (hE _ hm).2, (h.idle _ hm).2, (hfree _ hm).2⟩
  others ht hne := by
    have hm := mem_parts.1 (hQ ht)
    exact ⟨hothers _ hm hne, (h.idle _ hm).1, (hfree _ hm).1 hne⟩

end Installed

end

/-! ## Setting a flag -/

section

variable {S : Panel} {ts : Finset Switch} {H : Host π σ} {n : Nat} {l : ListId} {a : Switch → Aim} {P P' : Leaf π → Prop}
  {R₀ R R' : Switch × Role → Running π} {w₀ w w' : World (Callback π) (Env π σ)} {t : Switch} {lf : Leaf π} {v : Value}
  {C : Cast π}

/-- The flag of `t` has become `v`, and its observer is being told; the cast `C` are the other observers as they were. -/
structure Turning (S : Panel) (ts : Finset Switch) (t : Switch) (v : Value) (C : Cast π) (P : Leaf π → Prop)
    (R : Switch × Role → Running π) (w : World (Callback π) (Env π σ)) : Prop where
  runs : Family.Run (S.reader C.aim) (parts ts) R w.layout
  fits : w.Fits (Family.owned (parts ts) R + pieces ts)
  around : S.Around C.cells 1 C.config (fun _ => False) (Family.owned (parts ts) R) (pieces ts) w
  handle : (R (t, .flag)).handle = C.handle t
  toggling : Toggling S C 1 t (C.aim t).list v R (pieces ts) (some (R (t, .flag)).value) w
  leaves : ∀ {lf}, Family.Has (parts ts) R lf → lf.Current w.contents ∨ P lf

namespace Turning

theorem mono (h : S.Turning ts t v C P R w) (hP : ∀ lf, Family.Has (parts ts) R lf → P lf → P' lf) :
    S.Turning ts t v C P' R w :=
  { h with leaves := fun hl => (h.leaves hl).imp_right (hP _ hl) }

theorem congr (h : S.Turning ts t v C P R w) (hl : w'.layout = w.layout) (hc : w'.contents = w.contents)
    (hd : w'.depth = w.depth) (hm : w'.config = w.config) : S.Turning ts t v C P R w' where
  runs := hl ▸ h.runs
  fits := ⟨hl ▸ h.fits.has, h.fits.nodup, hl ▸ h.fits.tidy⟩
  around := h.around.congr hl (hd.trans h.around.depth) hm
  handle := h.handle
  toggling := by
    have ht := h.toggling
    exact ⟨ht.extra, ht.steady.congr (fun _ _ => rfl) hl hc (hd.trans h.around.depth) hm, hl ▸ ht.found, hc ▸ ht.list,
      hc ▸ ht.value, hc ▸ ht.current, ht.even, ht.follows, hc ▸ ht.written⟩
  leaves := hc ▸ h.leaves

/-- The observer of the flag is told. -/
theorem turn (hC : C.Lends S t) (hparts : C.parts = (parts ts).erase (t, .flag)) (hextra : C.extra = pieces ts)
    (hH : H.Quiet fun _ _ _ _ => True) (hd : 2 < C.config.maxDispatchDepth) (hn : ∀ t ∈ ts, 2 * S.turns t.flag + 12 ≤ n)
    (ht : t ∈ ts) (hm : (C.aim t).member.same (S.value t.flag) = true) (h : S.Turning ts t v C (fun lf' => P lf' ∨ lf'.id = lf.id) R w)
    (hl : lf ∈ (R (t, .flag)).leaves) :
    (lf.sink.emit (engine H (n + 2)) (H.observer (engine H (n + 2))) (lf.place.read w.contents)).Ends w fun _ w' =>
      (∃ R', S.Turning ts t v C P R' w') ∧ ∃ G G', Reshapes G G' w.layout w'.layout := by
  have hsub : C.parts ⊆ parts ts := hparts ▸ Finset.erase_subset _ _
  have hacc := hC.writes (d := 1) (l := (C.aim t).list) (u := v) hH hd (fun ht' => hn _ (mem_parts.1 (hsub ht'))) hm
  have hread : (lf.place.read w.contents).same v = true := by
    obtain ⟨l₀, hl₀, hp, -⟩ := (h.runs _ (mem_parts.2 ht : (t, Role.flag) ∈ _)).key_leaf hC.scope
    obtain rfl : lf = l₀ := by simpa [hl₀] using hl
    rw [hp, Place.read_entry, h.toggling.value]
    exact Value.same_refl v
  rw [hC.places] at hacc
  have htells : (S.reader (π := π) C.aim (t, .flag)).Tells H (n + 2) (Behind.family (S.reader C.aim) C.parts
      (Toggling S C 1 t (C.aim t).list v)) (R (t, .flag)) lf w := fun hJ hw =>
    keyExpr_told (h.runs _ (mem_parts.2 ht)) hacc hread le_rfl hJ hw hl
  refine (Family.turn_handled (mem_parts.2 ht) (hparts ▸ Finset.Subset.refl _) h.runs h.fits hl htells h.toggling
    Toggling.congr fun i hi hne hi' => absurd (hparts ▸ Finset.mem_erase.2 ⟨hne, hi⟩) hi').imp fun _ w' h' => ?_
  obtain ⟨R', E', hh, hrun, -, hJ, hm', hleaves⟩ := h'
  obtain rfl : E' = pieces ts := hJ.extra.trans hextra
  refine ⟨⟨R', hrun, hm'.fits h.fits, ?_, hh.trans h.handle, hJ, fun {l'} hl' => ?_⟩, _, _, hm'.layout⟩
  · exact h.around.reshape hm'.layout hm'.depth hm'.config fun p hp => hJ.steady.around.frozen p (hextra ▸ hp)
  · rcases hleaves l' hl' with hc | ⟨hold, hne, hr⟩
    · exact Or.inl hc
    · refine (h.leaves hold).imp (fun hc => ?_) fun hP => hP.resolve_right hne
      rw [Leaf.Current, hr]
      exact hc

/-- The pass over those who listen to the flag. -/
theorem attends (hS : S.Wired ts) (hC : C.Lends S t) (hparts : C.parts = (parts ts).erase (t, .flag)) (hextra : C.extra = pieces ts)
    (hH : H.Quiet fun _ _ _ _ => True) (hd : 2 < C.config.maxDispatchDepth) (hn : ∀ t ∈ ts, 2 * S.turns t.flag + 12 ≤ n)
    (ht : t ∈ ts) (hm : (C.aim t).member.same (S.value t.flag) = true) :
    Attends H (fun _ _ _ _ => True) (n + 2) (Post.OfObject S.target (.after t.flag)) (.value v) fun P _ w =>
      ∃ R, S.Turning ts t v C P R w where
  mono := fun ⟨R, h⟩ hP => ⟨R, h.mono fun lf _ => hP lf⟩
  apart := fun ⟨R, h⟩ ha _ => ⟨R, h.congr ha.layout ha.contents ha.depth ha.config⟩
  tidy := fun ⟨_, h⟩ => h.fits.tidy
  orphans := fun ⟨_, h⟩ => h.around.orphans
  user := by
    rintro P w id ids q p h' ⟨R, h⟩ - - hq hp -
    refine ⟨R, (h.mono fun lf ⟨i, hi, hlf⟩ hP => hP.resolve_right fun hid => ?_).congr rfl rfl rfl rfl⟩
    have he := ((h.runs i hi).placed lf hlf).holds.only _ (hid ▸ hq)
    exact lf.place.not_isUser_post lf.sink ⟨p, (congrArg Post.callback he).symm.trans hp⟩
  leaf := by
    rintro P w id ids q ⟨R, h⟩ ⟨callback, rfl⟩ hq hu
    have hid := ((h.around.closed hq).resolve_left hu).resolve_right fun ⟨_, _, hf, _⟩ => hf
    obtain ⟨⟨t', r⟩, hi, lf, hlf, rfl⟩ := h.runs.leaf_of_owned hid
    have hplaced := (h.runs _ hi).placed lf hlf
    have he : Post.object S.target (.after t.flag) callback = lf.post := hplaced.holds.only _ hq
    -- Only the observer of this flag listens to it.
    obtain ⟨key, hp, hkey⟩ := (watched_of_places hplaced.place).topic he
    obtain rfl : t.flag = key := by simpa using hkey
    have hself : (t', r) = (t, .flag) := by
      by_contra hne
      have hi' : (t', r) ∈ C.parts := hparts ▸ Finset.mem_erase.2 ⟨hne, hi⟩
      rcases h.toggling.steady.watches hC.scope (hC.fixed hi') (h.runs.subset (hparts ▸ Finset.erase_subset _ _)) hi' hlf with
        ⟨-, hp'⟩ | ⟨rfl, hp'⟩ | ⟨-, l, u, hp'⟩
      · exact hS.apart t ht (by simpa using hp.symm.trans hp')
      · have hf : t.flag = t'.flag := by simpa using hp.symm.trans hp'
        exact hne (by rw [hS.distinct t ht t' (mem_parts.1 hi) hf])
      · cases hp.symm.trans hp'
    obtain ⟨rfl, rfl⟩ : t' = t ∧ r = .flag := by simpa using hself
    refine ⟨lf, he, ?_, h.turn hC hparts hextra hH hd hn ht hm hlf⟩
    rw [hp]
    exact h.toggling.value.symm
  absent := by
    rintro P w id ids ⟨R, h⟩ hn
    refine ⟨R, h.mono fun lf ⟨i, hi, hlf⟩ hP => hP.resolve_right ?_⟩
    rintro ⟨rfl, callback, hcb⟩
    refine hn _ ⟨callback, hcb⟩ (((h.runs i hi).placed lf hlf).holds.posted ?_)
    rw [hcb]
    exact h.around.found

/-- All that listen to the flag have been told. -/
theorem settled (hS : S.Wired ts) (ht : t ∈ ts) (h₀ : S.Installed ts 0 l a (fun _ => False) R₀ w₀)
    (h : S.Turning ts t v (scene ((parts ts).erase (t, .flag)) (S.reader (π := π) a (t, .flag)).places (pieces ts) a R₀ w₀)
      (fun _ => False) R w) : S.Installed ts 1 l a (fun _ => False) R w := by
  have hst := h.toggling.steady
  have hcur : ∀ lf, Family.Has (parts ts) R lf → lf.Current w.contents := fun lf hlf => (h.leaves hlf).resolve_right id
  have hother : ∀ {t' r}, t' ∈ ts → (t', r) ≠ (t, .flag) → (t', r) ∈ (parts ts).erase (t, .flag) := fun hm hne =>
    Finset.mem_erase.2 ⟨hne, mem_parts.2 hm⟩
  have hcell : ∀ {t'} {p : Piece}, t' ∈ ts → p ∈ t'.pieces → w₀.layout.Same w.layout p := fun hm hp =>
    h.around.frozen _ (mem_pieces.2 ⟨_, hm, hp⟩)
  have hhandle : ∀ t' ∈ ts, (R (t', .flag)).handle = (R₀ (t', .flag)).handle := fun t' hm => by
    by_cases he : t' = t
    · subst he
      exact h.handle
    · exact hst.handles (hother hm (by simp [he]))
  obtain ⟨lf, hlf, hp, hv⟩ := (h.runs _ (mem_parts.2 ht : (t, Role.flag) ∈ _)).key_leaf hS.scope
  have hc := hcur lf ⟨(t, .flag), mem_parts.2 ht, by simp [hlf]⟩
  rw [Leaf.Current, hp, Place.read_entry] at hc
  refine ⟨⟨h.around.now, fun _ => rfl, fun hm => hst.paths (hother (mem_parts.1 hm) (by simp)), hst.list, fun {t'} hm _ => ?_,
    fun {i} hi l' hl' hp' => ?_, fun hm l' hl' => hcur l' ⟨_, hm, hl'⟩⟩, h.runs, h.fits, fun t' hm => ?_, fun t' hm => ?_,
    fun t' hm => ?_, h₀.members, h₀.aimed hS ht ▸ h.toggling.found, ?_, fun hl => Or.inl (hcur _ hl), ?_⟩
  · by_cases he : t' = t
    · subst he
      rw [← Value.truthy_eq_of_same (Value.same_trans hv hc)]
      exact h.toggling.even (hother ht (by simp)) _ rfl
    · exact hst.even (hother (mem_parts.1 hm) (by simp)) (hother (mem_parts.1 hm) (by simp [he]))
  · by_cases he : i = (t, .flag)
    · subst he
      obtain rfl : l' = lf := by simpa [hlf] using hl'
      exact absurd (by simpa using hp.symm.trans hp') (hS.apart t ht)
    · exact hst.lists (Finset.mem_erase.2 ⟨he, hi⟩) l' hl' hp'
  · exact (h₀.rows t' hm).same (hcell hm (by simp [Switch.pieces]))
  · obtain ⟨g, hg⟩ := h₀.slots t' hm
    rw [hhandle t' hm]
    exact ⟨g, hg.same (hcell hm (by simp [Switch.pieces]))⟩
  · obtain ⟨h₁, h₂⟩ := h₀.idle t' hm
    exact ⟨h₁.same (hcell hm (by simp [Switch.pieces])), h₂.same (hcell hm (by simp [Switch.pieces]))⟩
  · rw [h.toggling.list]
    exact congrArg Value.list (h₀.aimed hS ht)
  · rw [h.around.config]
    exact h₀.deep

end Turning

namespace Installed

/-- The flag has become another value. -/
theorem turning (hS : S.Wired ts) (ht : t ∈ ts) (h : S.Installed ts 0 l a (fun _ => False) R w) {c : Contents} (ha : w.Amid c w')
    (hflag : c.under S.target t.flag = v) (hother : ∀ key, key ≠ t.flag → c.under S.target key = w.contents.under S.target key)
    (hitems : c.items = w.contents.items) :
    S.Turning ts t v (scene ((parts ts).erase (t, .flag)) (S.reader (π := π) a (t, .flag)).places (pieces ts) a R w)
      (fun lf => lf ∈ (R (t, .flag)).leaves) R w' := by
  have hdepth : w'.depth = 1 := by rw [ha.depth, h.steady.around.depth]
  have hne : ∀ {t'}, t' ∈ ts → t' ≠ t → t'.flag ≠ t.flag := fun hm hne he => hne (hS.distinct _ hm t ht he)
  have hamong := h.among (D := (S.reader (π := π) a (t, .flag)).places) (Finset.erase_subset (t, .flag) (parts ts)) (plain_pieces ts)
    fun i hi hi' p hp => by
      obtain rfl : i = (t, .flag) := by simpa [hi] using hi'
      exact hp
  -- What the other observers watch reads as before.
  have hread : ∀ {i}, i ∈ (parts ts).erase (t, .flag) → ∀ lf ∈ (R i).leaves, lf.place.read c = lf.place.read w.contents := by
    rintro ⟨t', r⟩ hi lf hlf
    have hm := mem_parts.1 (Finset.mem_of_mem_erase hi)
    rcases hamong.watches hS.scope (hS.fixed t' hm) (h.runs.subset (Finset.erase_subset _ _)) hi hlf with
      ⟨-, hp⟩ | ⟨rfl, hp⟩ | ⟨-, l', v', hp⟩
    · rw [hp, Place.read_entry, Place.read_entry, hother _ (hS.apart t ht).symm]
    · have hne' : t' ≠ t := fun he => Finset.notMem_erase (t, Role.flag) (parts ts) (he ▸ hi)
      rw [hp, Place.read_entry, Place.read_entry, hother _ (hne hm hne')]
    · rw [hp, Place.read, Place.read, hitems]
  have hcur : ∀ {i}, i ∈ (parts ts).erase (t, .flag) → ∀ lf ∈ (R i).leaves, lf.Current w'.contents := by
    intro i hi lf hlf
    rw [Leaf.Current, ha.contents, hread hi lf hlf]
    exact h.current ⟨i, Finset.mem_of_mem_erase hi, hlf⟩
  have hlist : w'.contents.under S.target S.key = .list l := by rw [ha.contents, hother _ (hS.apart t ht).symm, h.list]
  obtain ⟨lk, le, list, m, hls, hp, hlk, -⟩ := h.steady.presence hS.scope (hS.fixed t ht) h.runs (mem_parts.2 ht)
  have hkey := hcur (i := (t, .member)) (by simp [ht]) lk (by simp [hls])
  rw [Leaf.Current, hp, Place.read_entry, hlist] at hkey
  have haim : (scene ((parts ts).erase (t, .flag)) (S.reader (π := π) a (t, .flag)).places (pieces ts) a R w).aim t =
    ⟨l, (a t).member⟩ := by rw [← h.aimed hS ht]; rfl
  refine ⟨ha.layout ▸ h.runs, ⟨ha.layout ▸ h.fits.has, h.fits.nodup, ha.layout ▸ h.fits.tidy⟩,
    h.steady.around.congr ha.layout hdepth ha.config, rfl, ⟨rfl, ⟨?_, hamong.handles, hamong.paths, ⟨l, hlist⟩, ?_, hamong.lists,
      fun hm lf hlf => hcur hm lf hlf⟩, ?_, ?_, by rw [ha.contents, hflag], ?_, ?_, ?_, ?_⟩, fun hhas => ?_⟩
  · exact hamong.around.congr ha.layout hdepth ha.config
  · intro t' hm hm'
    have hm₀ := mem_parts.1 (Finset.mem_of_mem_erase hm)
    rw [ha.contents, hother _ (hne hm₀ fun he => Finset.notMem_erase (t, Role.flag) (parts ts) (he ▸ hm')), h.even hm₀]
  · rw [haim, ha.layout]
    exact h.found
  · rw [haim, hlist]
  · rintro lf ⟨i, hi, hlf⟩ -
    exact hcur hi lf hlf
  · rintro - _ ⟨⟩
    rw [h.flag_value hS ht, h.even ht]
  · refine fun _ => Or.inl ⟨lk, by simp [hls], hp, ?_⟩
    rw [haim]
    exact Value.eq_of_same_list (Value.same_symm hkey)
  · exact fun hn => absurd (by simp [scene, ht]) hn
  · obtain ⟨i, hi, hlf⟩ := hhas
    by_cases he : i = (t, .flag)
    · exact Or.inr (he ▸ hlf)
    · exact Or.inl (hcur (Finset.mem_erase.2 ⟨he, hi⟩) _ hlf)

/-- A flag is set. -/
theorem set_flag (hS : S.Wired ts) (hH : H.Quiet fun _ _ _ _ => True) (hn : ∀ t ∈ ts, 2 * S.turns t.flag + 12 ≤ n) (ht : t ∈ ts)
    (h : S.Installed ts 0 l a (fun _ => False) R w) (v : Value) :
    (S.target.assign (engine H (n + 4)).reactions t.flag v).Ends w fun _ w' =>
      ∃ a R, S.Installed ts 0 l a (fun _ => False) R w' := by
  have hdeep := h.deep
  have hdepth := h.steady.around.depth
  have hfound := h.steady.around.found
  have hunder := World.under_put hfound t.flag v
  have hitems := World.items_changed w S.target (Fields.put t.flag v)
  have hd : w.depth < w.config.maxDispatchDepth := by omega
  have ended : ∀ {w₁ : World (Callback π) (Env π σ)}, (∃ a R, S.Installed ts 1 l a (fun _ => False) R w₁) →
      ∃ a R, S.Installed ts 0 l a (fun _ => False) R { w₁ with depth := w₁.depth - 1 } := by
    rintro w₁ ⟨a, R, h₁⟩
    exact ⟨a, R, h₁.congr rfl (fun _ => rfl) rfl (by simp [h₁.steady.around.depth]) rfl⟩
  refine ObjectId.assign_ends (fun _ _ _ => ⟨a, R, h⟩) (fun hnone hv => ?_) fun _ => ?_
  · -- The key is new, and nobody reads that.
    subst hv
    refine ObjectId.fresh_ends (J := fun P _ w => ∃ a R, S.Installed ts 1 l a P R w) hH hd attends_entries (fun w₁ ids ha _ => ?_)
      fun w₂ h₂ => ended h₂
    refine ⟨a, R, (h.congr ha.layout (fun key => ?_) (by rw [ha.contents, hitems]) (by rw [ha.depth, hdepth]) ha.config).mono
      fun _ _ => False.elim⟩
    rw [ha.contents, hunder]
    split
    · rename_i hk
      rw [hk, Contents.under, hnone]
      rfl
    · rfl
  · let C := scene ((parts ts).erase (t, .flag)) (S.reader (π := π) a (t, .flag)).places (pieces ts) a R w
    have hC : C.Lends S t := by
      refine h.lends (by rwa [Finset.insert_eq_self.2 ht]) (Finset.erase_subset _ _) (Finset.notMem_erase _ _)
        (fun t' hm hne => by simp [hm, hne]) (fun t' hm => ?_) ⟨?_, (h.idle t ht).1⟩ fun t' hm => flags_apart h.fits.right.nodup ht hm
      · exact ⟨mem_pieces.2 ⟨t', hm, by simp [Switch.pieces]⟩, mem_pieces.2 ⟨t', hm, by simp [Switch.pieces]⟩⟩
      · exact mem_pieces.2 ⟨t, ht, by simp [Switch.pieces]⟩
    have hA := Turning.attends (v := v) hS hC rfl rfl hH hdeep hn ht (h.members t ht)
    refine ObjectId.change_ends (P := fun _ => False) (U := fun _ => True) (K := fun _ => True)
      (J := fun P _ w => ∃ a R, S.Installed ts 1 l a P R w) hH hd (fun id callback hq => ?_) (fun _ _ _ => trivial) trivial hA
      attends_entries (fun w₁ ids ha _ => ?_) (fun w₂ ids h₂ => ?_) fun w₃ h₃ => ended h₃
    · obtain ⟨p, hp⟩ := h.users hq (by simp)
      exact ⟨p, hp, trivial⟩
    · have hturning := h.turning hS ht ha (v := v) (by rw [hunder, if_pos rfl]) (fun key hk => by rw [hunder, if_neg hk]) hitems
      refine ⟨R, hturning.mono fun lf _ hlf => Or.inr ?_⟩
      obtain ⟨l₀, hl₀, hp, -⟩ := (h.runs _ (mem_parts.2 ht : (t, Role.flag) ∈ _)).key_leaf hS.scope
      obtain rfl : lf = l₀ := by simpa [hl₀] using hlf
      have hpost : lf.post = .object S.target (.after t.flag) (.forward lf.sink) := by rw [Leaf.post, hp]; rfl
      refine ⟨⟨_, hpost⟩, lf.post, ⟨_, hpost⟩, ?_⟩
      rw [ha.layout]
      exact ((h.runs _ (mem_parts.2 ht : (t, Role.flag) ∈ _)).placed _ hlf).holds.posted (hpost ▸ hfound)
    · obtain ⟨R₂, h₂⟩ := h₂
      exact ⟨a, R₂, (h₂.settled hS ht h).mono fun _ _ => False.elim⟩

end Installed

end

end Panel

end LiveBindings
