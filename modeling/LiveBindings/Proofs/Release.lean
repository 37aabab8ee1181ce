import LiveBindings.Proofs.Current
import LiveBindings.Proofs.Deeds

/-!
# Cancelling leaves nothing behind

When nothing is in progress, every listener is the program's own or is led to by a handle that the program keeps
(`World.Idle.led_iff`), and whatever a program does leads from such a world to such a world (`World.Idle.routine`). So once
everything that was started under a name has been cancelled, and the outermost call has returned, every container has the
listeners that it had before, but for those of others (`Conduct.releases`).
-/

namespace LiveBindings

open Estate

variable {π τ : Type}

/-! ## Worlds in which nothing is in progress -/

/-- Nothing is in progress, and what leads to what is in order. -/
structure World.Idle (w : World (Callback π) (Env π (Ledger π τ))) : Prop where
  held : w.held = []
  heldBlocks : w.env.cells.heldBlocks = []
  orphans : w.env.cells.orphans = []
  sound : Sound ∅ ∅ w.estate

section

variable {w : World (Callback π) (Env π (Ledger π τ))} {e : Estate π}

theorem Estate.not_held {b : Ref .block} (hh : e.held = []) (hb : e.heldBlocks = []) : ¬e.Held b := by
  intro h
  induction h with
  | callback hm => exact absurd (hh ▸ hm) List.not_mem_nil
  | block hm => exact absurd (hb ▸ hm) List.not_mem_nil
  | through _ _ _ _ _ ih => exact ih

/-- What is left of a world in which nothing is in progress is such a world again. -/
theorem World.Idle.stays {w' : World (Callback π) (Env π (Ledger π τ))} (hw : w.Idle) (hsound : Sound ∅ ∅ w'.estate)
    (hs : Stays ∅ w.estate w'.estate) : w'.Idle := by
  have hheld : w'.held = [] := hs.held.trans hw.held
  have hblocks : w'.env.cells.heldBlocks = [] := hs.heldBlocks.trans hw.heldBlocks
  refine ⟨hheld, hblocks, List.eq_nil_iff_forall_not_mem.2 fun b hb => ?_, hsound⟩
  rcases hs.orphans hb with hb | hb
  · have hnone : w.estate.orphans = [] := hw.orphans
    exact absurd (hnone ▸ hb) List.not_mem_nil
  · exact not_held hheld hblocks hb

/-- A computation that keeps what there is leaves nothing in progress. -/
theorem World.Idle.leads {α : Type} {act : Live π (Ledger π τ) α} (hw : w.Idle) (h : Keeps ∅ act w) :
    act.Leads w fun _ w' => w'.Idle :=
  (h ∅ hw.sound).imp fun _ _ h' => hw.stays h'.1 h'.2

/-- Whatever a program does, nothing is in progress when it is done. -/
theorem World.Idle.routine (hw : w.Idle) (c : Conduct π τ) (calls : Nat) (r : Routine π τ) :
    (r.run (engine c.host calls)).Leads w fun _ w' => w'.Idle :=
  hw.leads (r.keeps (engine_sound c.host_sound calls))

/-- Where there is nothing, everything is in order. -/
theorem Estate.sound_empty (hl : ∀ l, e.listListeners l = []) (ho : ∀ o, e.objectListeners o = [])
    (hh : ∀ a, e.holder a = none) (hv : ∀ b, e.view b = none) (hk : e.kept = []) (horphans : e.orphans = [])
    (hr : e.registered = []) : Sound ∅ ∅ e := by
  have hpost : ∀ {id q}, ¬e.Posted id q := by
    rintro id (_ | _) hq <;> simp [Posted, hl, ho] at hq
  have hchildren : ∀ a, e.children a = [] := by
    intro a
    cases a <;> simp [children, hh, hv]
  have hnamed : ∀ {a}, ¬e.Named ∅ a := by
    rintro a ((h | ⟨handle, hm, -⟩ | ⟨b, hb, -⟩) | ⟨a', ha⟩)
    · exact h
    · exact List.not_mem_nil (hk ▸ hm)
    · exact List.not_mem_nil (horphans ▸ hb)
    · exact List.not_mem_nil (hchildren a' ▸ ha)
  have hneeds : ∀ {a}, ¬e.Needs a := by
    intro a ha
    cases a <;> simp [Needs, hh, hv, hpost] at ha
  have hnone : ∀ {b v}, e.view b ≠ some v := by simp [hv]
  exact
    { tidy :=
        { below := fun hq => absurd hq hpost
          listOnce := by simp [hl]
          objectOnce := by simp [ho]
          notedOnce := by simp [hr]
          users := fun _ => ⟨fun hq => absurd hq hpost, fun hm => absurd (hr ▸ hm) List.not_mem_nil⟩
          theirs := fun hm => absurd (hr ▸ hm) List.not_mem_nil }
      known := fun h => absurd h hnamed
      covered := fun h => absurd h hneeds
      found := fun h => absurd h hpost
      ours := fun h => absurd h hnamed
      sinks := fun h => absurd h hnone
      owners := fun h => absurd h hnone
      reserved := fun h => h.elim
      fenced := fun h => h.elim }

theorem World.idle_fresh (objects : List (List (String × Value))) (own : τ) :
    (World.fresh objects { own } : World (Callback π) (Env π (Ledger π τ))).Idle where
  held := rfl
  heldBlocks := rfl
  orphans := rfl
  sound :=
    sound_empty (fun _ => rfl) (World.objectListeners_fresh objects _) (fun a => by cases a <;> rfl) (fun _ => rfl) rfl rfl rfl

end

/-! ## Whose listeners there are -/

/-- The listeners on a topic of a container, in the order of registration. -/
def World.listeners (w : World (Callback π) (Env π (Ledger π τ))) : Channel → List (ListenerId × Post π)
  | .list l topic => (Listeners.on topic (w.listCell l).listeners).map fun lst => (lst.id, l.post lst)
  | .object o topic => (Listeners.on topic (w.objectCell o).listeners).map fun lst => (lst.id, o.post lst)

/-- Some handles lead to an asset, at once or through what they lead to. -/
def Estate.Led (e : Estate π) (handles : List (Cancel π)) (a : Asset) : Prop :=
  ∃ handle ∈ handles, ∃ b ∈ handle.assets, Relation.ReflTransGen (fun x y => y ∈ e.children x) b a

/-- The handles kept under a name. -/
def Ledger.under (name : String) (g : Ledger π τ) : List (Cancel π) := (g.named.filter (·.1 = name)).map (·.2)

/-- The handles kept under other names. -/
def Ledger.beside (name : String) (g : Ledger π τ) : List (Cancel π) := (g.named.filter (·.1 ≠ name)).map (·.2)

open scoped Classical in
/-- How many listeners on a topic are others' than of what is kept under a name: those that the program has noted as its own,
and those that handles under other names lead to. -/
noncomputable def World.others (w : World (Callback π) (Env π (Ledger π τ))) (name : String) (channel : Channel) : Nat :=
  (w.env.host.listeners.filter fun x => x.2.channel = channel).length +
    ((w.listeners channel).filter fun x => w.estate.Led (w.env.host.beside name) (x.2.asset x.1)).length

section

variable {w : World (Callback π) (Env π (Ledger π τ))} {e : Estate π} {name : String} {channel : Channel}

theorem World.mem_listeners {x : ListenerId × Post π} :
    x ∈ w.listeners channel ↔ w.estate.Posted x.1 x.2 ∧ x.2.channel = channel := by
  obtain ⟨id, q⟩ := x
  cases channel with
  | list l topic =>
    cases q with
    | list l' topic' callback =>
      simp only [listeners, List.mem_map, mem_on, ListId.post, Prod.mk.injEq, Post.list.injEq, Posted, Post.channel,
        Channel.list.injEq]
      constructor
      · rintro ⟨lst, ⟨hm, rfl⟩, rfl, rfl, rfl, rfl⟩
        exact ⟨hm, rfl, rfl⟩
      · rintro ⟨hm, rfl, rfl⟩
        exact ⟨_, ⟨hm, rfl⟩, rfl, rfl, rfl, rfl⟩
    | object o' topic' callback => simp [listeners, ListId.post, Post.channel]
  | object o topic =>
    cases q with
    | list l' topic' callback => simp [listeners, ObjectId.post, Post.channel]
    | object o' topic' callback =>
      simp only [listeners, List.mem_map, mem_on, ObjectId.post, Prod.mk.injEq, Post.object.injEq, Posted, Post.channel,
        Channel.object.injEq]
      constructor
      · rintro ⟨lst, ⟨hm, rfl⟩, rfl, rfl, rfl, rfl⟩
        exact ⟨hm, rfl, rfl⟩
      · rintro ⟨hm, rfl, rfl⟩
        exact ⟨_, ⟨hm, rfl⟩, rfl, rfl, rfl, rfl⟩

theorem Estate.Tidy.nodup_listeners (h : w.estate.Tidy) : (w.listeners channel).Nodup := by
  refine List.Nodup.of_map Prod.fst ?_
  cases channel with
  | list l topic =>
    rw [World.listeners, List.map_map]
    exact (h.listOnce l).sublist (List.filter_sublist.map _)
  | object o topic =>
    rw [World.listeners, List.map_map]
    exact (h.objectOnce o).sublist (List.filter_sublist.map _)

theorem Estate.led_iff_reach {handles : List (Cancel π)} (hk : ∀ handle, handle ∈ handles ↔ handle ∈ e.kept)
    (ho : e.orphans = []) {a : Asset} : e.Led handles a ↔ e.Reach ∅ a := by
  constructor
  · rintro ⟨handle, hm, b, hb, hpath⟩
    induction hpath with
    | refl => exact .root (Or.inr (Or.inl ⟨handle, (hk _).1 hm, hb⟩))
    | tail _ hc ih => exact .child ih hc
  · intro hreach
    induction hreach with
    | root h =>
      rcases h with h | ⟨handle, hm, ha⟩ | ⟨b, hb, -⟩
      · exact h.elim
      · exact ⟨handle, (hk _).2 hm, _, ha, .refl⟩
      · exact absurd (ho ▸ hb) List.not_mem_nil
    | child _ hc ih =>
      obtain ⟨handle, hm, b, hb, hpath⟩ := ih
      exact ⟨handle, hm, b, hb, hpath.tail hc⟩

theorem Ledger.mem_beside {g : Ledger π τ} (h : g.under name = []) (handle : Cancel π) :
    handle ∈ g.beside name ↔ handle ∈ g.kept := by
  refine ⟨fun hm => ?_, fun hm => ?_⟩
  · obtain ⟨x, hx, rfl⟩ := List.mem_map.1 hm
    exact List.mem_map.2 ⟨x, (List.mem_filter.1 hx).1, rfl⟩
  · obtain ⟨x, hx, rfl⟩ := List.mem_map.1 hm
    refine List.mem_map.2 ⟨x, List.mem_filter.2 ⟨hx, ?_⟩, rfl⟩
    by_contra hn
    have : x.2 ∈ g.under name := List.mem_map.2 ⟨x, List.mem_filter.2 ⟨hx, by simpa using hn⟩, rfl⟩
    rw [h] at this
    cases this

/-- While nothing is in progress a listener that is not the program's own is led to by a handle that the program keeps. -/
theorem World.Idle.led_iff (hw : w.Idle) (h : w.env.host.under name = []) {x : ListenerId × Post π}
    (hx : x ∈ w.listeners channel) : w.estate.Led (w.env.host.beside name) (x.2.asset x.1) ↔ ¬x.2.IsUser := by
  have hq := (World.mem_listeners.1 hx).1
  rw [led_iff_reach (Ledger.mem_beside h) hw.orphans]
  exact ⟨fun hr => hw.sound.ours hr.named hq, fun hu => hw.sound.covered (needs_of_post hq hu)⟩

/-- While nothing is in progress and nothing is kept under a name, all listeners are others'. -/
theorem World.Idle.length_listeners (hw : w.Idle) (h : w.env.host.under name = []) :
    (w.listeners channel).length = w.others name channel := by
  classical
  have hown : ((w.listeners channel).filter fun x => x.2.IsUser).Perm
      (w.env.host.listeners.filter fun x => x.2.channel = channel) := by
    have hnodup : (w.listeners channel).Nodup := hw.sound.tidy.nodup_listeners
    refine (List.perm_ext_iff_of_nodup (hnodup.filter _) (hw.sound.tidy.notedOnce.of_map.filter _)).2 fun x => ?_
    simp only [List.mem_filter, World.mem_listeners, decide_eq_true_eq]
    constructor
    · rintro ⟨⟨hq, hc⟩, hu⟩
      exact ⟨(hw.sound.tidy.users hu).1 hq, hc⟩
    · rintro ⟨hm, hc⟩
      have hu := hw.sound.tidy.theirs hm
      exact ⟨⟨(hw.sound.tidy.users hu).2 hm, hc⟩, hu⟩
  have hled : ((w.listeners channel).filter fun x => w.estate.Led (w.env.host.beside name) (x.2.asset x.1)) =
      (w.listeners channel).filter fun x => !decide x.2.IsUser := by
    refine List.filter_congr fun x hx => ?_
    simp [hw.led_iff h hx]
  rw [World.others, hled, ← hown.length_eq]
  exact List.length_eq_length_filter_add _

/-- Cancelling leaves nothing behind. Between two moments at which the program is not in the middle of anything it does whatever
it likes, and so it does inside of that whenever it is called. If nothing is kept under a name at either of them, because all
that was started under it, observers of any trees in any scopes and sets of any bindings, has been cancelled in the meantime,
then every topic of every list and object has as many listeners as before, but for those of others. -/
theorem Conduct.releases (c : Conduct π τ) (calls : Nat) (objects : List (List (String × Value))) (own : τ)
    (before during : Routine π τ) (name : String) {w₀ w₁ : World (Callback π) (Env π (Ledger π τ))}
    (h₀ : before.run (engine c.host calls) (World.fresh objects { own }) = .ok ⟨⟩ w₀) (hn₀ : w₀.env.host.under name = [])
    (h₁ : during.run (engine c.host calls) w₀ = .ok ⟨⟩ w₁) (hn₁ : w₁.env.host.under name = []) (channel : Channel) :
    (w₁.listeners channel).length + w₀.others name channel = (w₀.listeners channel).length + w₁.others name channel := by
  have hw₀ : w₀.Idle := ((World.idle_fresh objects own).routine c calls before).of_eq h₀
  have hw₁ : w₁.Idle := (hw₀.routine c calls during).of_eq h₁
  rw [hw₀.length_listeners hn₀, hw₁.length_listeners hn₁]
  exact Nat.add_comm ..

end

/-- A program that sets a property to every value that it receives. -/
def Conduct.noting : Conduct Unit Unit where
  hears _ _ := .done
  receives _ v := .deeds [.change (.setEntry ⟨0⟩ "seen" v)]

/-- An observer with branches that are switched, and a binding in both directions. -/
def Routine.switching : Routine Unit Unit := .deeds [
  .observe "o" .standard (.apply "if" [.property .value "a", .property .value "b", .property .value "c"])
    { value := .object ⟨0⟩ } true (),
  .makeSet "o" ⟨0⟩ { value := .object ⟨0⟩ } .standard,
  .define "o" (.property .value "d") (.twoWay (.property .value "b")),
  .change (.setEntry ⟨0⟩ "a" (.bool true)),
  .change (.setEntry ⟨0⟩ "d" (.text "x")),
  .cancel "o",
  .cancelAll "o"]

/-- Beside them the program listens to a property itself. -/
theorem Conduct.releases_switching : ∃ w₀ w₁,
    (Routine.deeds [.listen (.object ⟨0⟩ (.after "a")) ()]).run (engine Conduct.noting.host 40)
        (World.fresh [[]] { own := () }) = .ok ⟨⟩ w₀ ∧
      Routine.switching.run (engine Conduct.noting.host 40) w₀ = .ok ⟨⟩ w₁ ∧
        ∀ channel, (w₁.listeners channel).length + w₀.others "o" channel =
          (w₀.listeners channel).length + w₁.others "o" channel := by
  have hruns : ((Routine.deeds [.listen (.object ⟨0⟩ (.after "a")) ()]).run (engine Conduct.noting.host 40)).Ends
      (World.fresh [[]] { own := () }) fun _ w₀ => w₀.env.host.under "o" = [] ∧
        (Routine.switching.run (engine Conduct.noting.host 40)).Ends w₀ fun _ w₁ => w₁.env.host.under "o" = [] := by
    decide +kernel
  obtain ⟨_, w₀, h₀, hn₀, hruns⟩ := Run.ends_iff.1 hruns
  obtain ⟨_, w₁, h₁, hn₁⟩ := Run.ends_iff.1 hruns
  exact ⟨w₀, w₁, h₀, h₁, Conduct.releases _ _ _ _ _ _ _ h₀ hn₀ h₁ hn₁⟩

end LiveBindings
