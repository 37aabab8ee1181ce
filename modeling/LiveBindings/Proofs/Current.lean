import LiveBindings.Proofs.Compiling
import LiveBindings.Proofs.Mutation

/-!
# Observers that are always current

A program that only records what an observer reports has, after every operation on a list or object, the current value of the
observed expression as its last record (`Observing.run`). While an operation is announced some listeners of the observer are
out of date; the passes over the listeners of a topic bring them up to date, and what they start anew is up to date from the
beginning.
-/

namespace LiveBindings

variable {π σ : Type}

/-- What an observer that reports to a recording program leaves alone. -/
structure Setting where
  contents : Contents
  lists : Nat
  objects : Nat
  depth : Nat
  config : Config

def World.setting (w : World (Callback π) (Env π σ)) : Setting where
  contents := w.contents
  lists := w.layout.lists
  objects := w.layout.objects
  depth := w.depth
  config := w.config

/-- What the program is handed as `p` it appends to its record, and nothing else touches the record. -/
structure Host.Records (H : Host π σ) (p : π) (log : σ → List Value) : Prop where
  observer : ∀ (E : Engine π σ) (v : Value) (w : World (Callback π) (Env π σ)),
    (H.observer E p v).Ends w fun _ w' => ∃ h, w' = w.setHost h ∧ log h = log w.env.host ++ [v]
  listener : H.Quiet fun _ _ h h' => log h' = log h

section

variable {H : Host π σ} {p : π} {log : σ → List Value} {before : List Value} {b b' : Setting} {x : Expr} {s : Scope} {n : Nat}
  {w w' : World (Callback π) (Env π σ)} {P P' : Leaf π → Prop} {R : Running π}

theorem Touches.setting {N : Post π → Prop} {G G' : Multiset Piece} (h : Touches N G G' w w') : w'.setting = w.setting := by
  simp only [World.setting, h.contents, h.layout.lists, h.layout.objects, h.depth, h.config]

theorem World.Apart.setting (h : w.Apart w') : w'.setting = w.setting := by
  simp only [World.setting, h.contents, h.layout, h.depth, h.config]

/-- Nothing is registered in a container that does not exist. -/
theorem World.knows_of_posted {id : ListenerId} {q : Post π} (h : w.layout.Posted id q) : w.layout.Knows q := by
  cases q with
  | list l topic callback =>
    by_contra hl
    have hl' : w.lists.size ≤ l.index := Nat.not_lt.1 hl
    simp [Layout.Posted, World.layout, World.listCell, Array.getD_eq_getD_getElem?, hl'] at h
  | object o topic callback =>
    by_contra ho
    have ho' : w.objects.size ≤ o.index := Nat.not_lt.1 ho
    simp [Layout.Posted, World.layout, World.objectCell, Array.getD_eq_getD_getElem?, ho'] at h

/-- What is behind a sink that records: the record since `before` ends with the value handed over last. -/
def Behind.recorded (log : σ → List Value) (before : List Value) (b : Setting) : Behind π σ Value := fun F L o w =>
  F = 0 ∧ L = [] ∧ w.setting = b ∧
    ∃ later, log w.env.host = before ++ later ∧ ∀ v, o = some v → later.getLast? = some v

theorem Host.Records.accepts (h : H.Records p log) (before : List Value) (b : Setting) :
    Accepts H (fun _ => True) 0 (.user p) (fun _ => True) (Behind.recorded log before b) := by
  constructor
  · rintro F L o w G G' w' ⟨rfl, rfl, hb, later, hlog, hlast⟩ - ht
    exact ⟨rfl, rfl, ht.setting.trans hb, later, by rw [ht.host, hlog], hlast⟩
  · rintro n F L o w v - - ⟨rfl, rfl, hb, later, hlog, -⟩ -
    refine (h.observer (engine H n) v w).imp ?_
    rintro _ w' ⟨h', hw', hlog'⟩
    subst hw'
    refine ⟨0, [], ⟨rfl, rfl, hb, later ++ [v], ?_, fun u hu => ?_⟩, ⟨Reshapes.refl 0 _, fun _ _ => rfl, rfl, rfl⟩, nofun⟩
    · rw [← List.append_assoc, ← hlog, ← hlog']
      rfl
    · rw [← Option.some.inj hu]
      simp

/-- The expression is observed for a recording program; its listeners are up to date except some among `P`. Only the program
listens besides. -/
structure Observing (p : π) (log : σ → List Value) (before : List Value) (x : Expr) (s : Scope) (b : Setting)
    (P : Leaf π → Prop) (w : World (Callback π) (Env π σ)) (R : Running π) : Prop where
  runs : Runs (fun _ => True) w.layout x s (.user p) R
  fits : w.Fits R.owned
  recorded : Behind.recorded log before b 0 [] (some R.value) w
  due : ∀ l ∈ R.leaves, (P l ∧ w.layout.Knows l.post) ∨ l.Current b.contents
  closed : w.layout.Closed R.owned
  orphans : w.layout.cells.orphans = []

namespace Observing

theorem setting (h : Observing p log before x s b P w R) : w.setting = b := h.recorded.2.2.1

theorem contents (h : Observing p log before x s b P w R) : w.contents = b.contents := congrArg Setting.contents h.setting

theorem mono (h : Observing p log before x s b P w R) (hP : ∀ l ∈ R.leaves, w.layout.Knows l.post → P l → P' l) :
    Observing p log before x s b P' w R :=
  { h with due := fun l hl => (h.due l hl).imp_left fun ⟨hPl, hk⟩ => ⟨hP l hl hk hPl, hk⟩ }

/-- Worlds that differ only in what observers and the record do not look at. -/
theorem apart (h : Observing p log before x s b P w R) (hl : w'.layout = w.layout) (hs : w'.setting = b')
    (hc : b'.contents = b.contents) (hlog : log w'.env.host = log w.env.host) :
    Observing p log before x s b' P w' R := by
  obtain ⟨-, -, -, later, hr, hlast⟩ := h.recorded
  refine ⟨hl ▸ h.runs, ⟨?_, h.fits.nodup, hl ▸ h.fits.tidy⟩, ⟨rfl, rfl, hs, later, hlog.trans hr, hlast⟩, ?_, hl ▸ h.closed,
    hl ▸ h.orphans⟩
  · exact hl ▸ h.fits.has
  · rw [hl, hc]
    exact h.due

/-- The listener that is registered under an id that the observer owns. -/
theorem post_eq (h : Observing p log before x s b P w R) {l : Leaf π} (hl : l ∈ R.leaves) {q : Post π}
    (hq : w.layout.Posted l.id q) : q = l.post :=
  (h.runs.placed l hl).holds.only q hq

/-- In a pass over the posts `S` every listener of the observer is told what is at its place. -/
theorem attends {S : Post π → Prop} {e : Event} (hH : H.Records p log) (hx : x.Scalar) (hn : 2 * x.size ≤ n)
    (hS : ∀ (q : Place) (next : Sink π), S (q.post next) →
      (∀ K : Layout π, K.lists = b.lists → K.objects = b.objects → K.Knows (q.post next)) → q.Tells b.contents e) :
    Attends H (fun _ _ h h' => log h' = log h) n S e fun P _ w => ∃ R, Observing p log before x s b P w R where
  mono := fun ⟨R, h⟩ hP => ⟨R, h.mono fun l _ _ => hP l⟩
  apart := fun ⟨R, h⟩ ha hh => ⟨R, h.apart ha.layout (ha.setting.trans h.setting) rfl (by rw [hh])⟩
  tidy := fun ⟨_, h⟩ => h.fits.tidy
  orphans := fun ⟨_, h⟩ => h.orphans
  user := by
    rintro P w id ids q p' h' ⟨R, h⟩ - - hq hp hr
    refine ⟨R, (h.mono fun l hl hk hPl => ?_).apart rfl h.setting rfl hr⟩
    refine hPl.resolve_right fun hid => ?_
    subst hid
    obtain rfl := h.post_eq hl hq
    exact l.place.not_isUser_post l.sink ⟨p', hp⟩
  leaf := by
    rintro P w id ids q ⟨R, h⟩ hSq hq hu
    obtain ⟨l, hl, rfl⟩ := h.runs.leaf_of_owned ((h.closed hq).resolve_left hu)
    obtain rfl := h.post_eq hl hq
    have hknows : ∀ K : Layout π, K.lists = b.lists → K.objects = b.objects → K.Knows l.post := by
      intro K hK hK'
      refine (Layout.Knows.congr ?_ ?_).1 (World.knows_of_posted hq)
      · rw [hK, ← h.setting, World.setting]
      · rw [hK', ← h.setting, World.setting]
    refine ⟨l, rfl, h.contents ▸ hS _ _ hSq hknows, ?_⟩
    have hw : w.Fits (R.owned + 0) := by simpa using h.fits
    refine (h.runs.tell hx (hx.covered s) rfl hl (hH.accepts before b) (fun _ _ => trivial) (by omega) h.recorded hw).imp
      fun _ w' ⟨R', F', L', _, hR', hJ, hm, hr⟩ => ?_
    obtain ⟨hF, hL, hb, -⟩ := id hJ
    subst hF hL
    have hw' : w'.Fits R'.owned := by simpa using hm.fits hw
    refine ⟨⟨R', hR', hw', hJ, fun l' hl' => ?_, ?_, hm.layout.orphans.trans h.orphans⟩, _, _, hm.layout⟩
    · rw [← congrArg Setting.contents hb]
      rcases hr l' (List.mem_append_left _ hl') with hc | ⟨hm', hread⟩
      · exact Or.inr hc
      · rw [List.append_nil, mem_others] at hm'
        rcases h.due l' hm'.1 with ⟨hP, hk⟩ | hc
        · exact Or.inl ⟨hP.resolve_right hm'.2, (Layout.Knows.congr hm.layout.lists hm.layout.objects).2 hk⟩
        · refine Or.inr ?_
          rw [← h.contents] at hc
          exact (congrArg (fun u => l'.value.same u = true) hread).mpr hc
    · exact Layout.Closed.reshape h.closed (by simpa using hm.layout)
  absent := by
    rintro P w id ids ⟨R, h⟩ hS
    refine ⟨R, h.mono fun l hl hk hPl => hPl.resolve_right fun ⟨hid, hSl⟩ => ?_⟩
    subst hid
    exact hS _ hSl ((h.runs.placed l hl).holds.posted hk)

/-- While a change is announced, the listeners on places that changed are out of date. -/
theorem disturb (h : Observing p log before x s w.setting (fun _ => False) w R) {c : Contents} (ha : w.Amid c w')
    (hlog : log w'.env.host = log w.env.host)
    (hP : ∀ l ∈ R.leaves, l.place.read c = l.place.read w.contents ∨ (P l ∧ w.layout.Knows l.post)) :
    Observing p log before x s { w.setting with contents := c, depth := w.depth + 1 } P w' R := by
  obtain ⟨-, -, -, later, hr, hlast⟩ := h.recorded
  have hl := ha.layout
  have hb : w'.setting = { w.setting with contents := c, depth := w.depth + 1 } := by
    simp only [World.setting, hl, ha.contents, ha.depth, ha.config]
  refine ⟨hl ▸ h.runs, ⟨?_, h.fits.nodup, hl ▸ h.fits.tidy⟩, ⟨rfl, rfl, hb, later, hlog.trans hr, hlast⟩, fun l hlm => ?_,
    hl ▸ h.closed, hl ▸ h.orphans⟩
  · exact hl ▸ h.fits.has
  · rw [hl]
    rcases hP l hlm with hread | hP
    · have hc := (h.due l hlm).resolve_left fun hf => hf.1
      exact Or.inr ((congrArg (fun u => l.value.same u = true) hread).mpr hc)
    · exact Or.inl hP

/-- Only the program listens to what no observer watches. -/
theorem isUser (h : Observing p log before x s b P w R) {id : ListenerId} {q : Post π} (hq : w.layout.Posted id q)
    (hp : ∀ (place : Place) (next : Sink π), q ≠ place.post next) : q.IsUser := by
  refine (h.closed hq).resolve_right fun hid => ?_
  obtain ⟨l, hl, rfl⟩ := h.runs.leaf_of_owned hid
  exact hp _ _ (h.post_eq hl hq)

/-- What holds of an observer between two operations. -/
def Settled (p : π) (log : σ → List Value) (before : List Value) (x : Expr) (s : Scope) (w : World (Callback π) (Env π σ)) :
    Prop :=
  ∃ R, Observing p log before x s w.setting (fun _ => False) w R

theorem settle (h : Observing p log before x s b (fun _ => False) w R) (d : Nat) :
    Settled p log before x s { w with depth := d } := by
  refine ⟨R, h.apart rfl rfl ?_ rfl⟩
  rw [← h.setting]
  rfl

theorem Settled.isUser (h : Settled p log before x s w) {id : ListenerId} {q : Post π} (hq : w.layout.Posted id q)
    (hp : ∀ (place : Place) (next : Sink π), q ≠ place.post next) : q.IsUser := by
  obtain ⟨R, h⟩ := h
  exact Observing.isUser h hq hp

section

variable (hH : H.Records p log) (hx : x.Scalar) (hn : 2 * x.size ≤ n) (hd : w.depth < w.config.maxDispatchDepth)
  (h : Settled p log before x s w)
include hH hx hn hd h

/-- A change of a list. -/
theorem Settled.apply {l : ListId} {vs : List Value} {change : ListChange} {report : ListReport}
    {mutate : Live π σ ListReport} (hm : Mutates mutate w (w.replaced l vs))
    (hlen : change.oldLength = change.newLength → vs.length = (w.contents.items l).length) :
    (l.apply (engine H (n + 2)).reactions change report mutate).Ends w fun _ w' =>
      Settled p log before x s w' ∧ w'.depth = w.depth ∧ w'.config = w.config := by
  obtain ⟨R, h⟩ := h
  let b' : Setting := { w.setting with contents := w.replaced l vs, depth := w.depth + 1 }
  refine ListId.apply_ends (I := fun P _ w => ∃ R, Observing p log before x s b' P w R)
    (J := fun P _ w => ∃ R, Observing p log before x s b' P w R) (K := fun h => log h = log w.env.host)
    (P := fun lf => change.oldLength ≠ change.newLength ∧ Post.OfList l .length lf.post)
    hH.listener hd h.orphans ?_ (fun e _ _ _ _ hK hr => hr.trans hK) rfl hm ?_ ?_ ?_ ?_ ?_ ?_
  · intro topic hc hl id callback hq
    refine h.isUser hq fun place next he => ?_
    cases place <;> simp_all [Place.post]
  · intro added removed index
    refine attends hH hx hn ?_
    rintro q next ⟨callback, hq⟩ _
    cases q <;> simp_all [Place.post, Place.Tells]
  · refine attends hH hx hn ?_
    rintro q next ⟨callback, hq⟩ _
    cases q <;> simp_all [Place.post, Place.Tells, Place.read, b']
  · intro w₁ ids ha hK
    refine ⟨R, h.disturb ha hK fun lf hlf => ?_⟩
    by_cases hread : lf.place.read (w.replaced l vs) = lf.place.read w.contents
    · exact Or.inl hread
    have hlt : l.index < w.layout.lists := by
      by_contra hlt
      exact hread (by rw [World.replaced, if_neg hlt])
    refine Or.inr ?_
    by_cases hc : Post.OfList l .content lf.post
    · have hk : w.layout.Knows lf.post := by
        obtain ⟨callback, hq⟩ := hc
        exact hq ▸ hlt
      exact ⟨Or.inr ⟨hc, lf.post, hc, ha.layout ▸ (h.runs.placed lf hlf).holds.posted hk⟩, hk⟩
    · have hp : lf.place = .length l := by
        by_contra hp
        exact hread (Place.read_replaced (fun h => absurd h hp) hc)
      have hpost : lf.post = .list l .length (.forward lf.sink) := by rw [Leaf.post, hp]; rfl
      refine ⟨Or.inl ⟨fun he => hread (Place.read_replaced (fun _ => hlen he) hc), _, hpost⟩, ?_⟩
      rw [hpost]
      exact hlt
  · rintro w₂ ids ⟨R₂, h₂⟩
    refine ⟨h₂.contents, R₂, h₂.mono fun lf hlf hk hP => ⟨hP.2, _, hP.2, ?_⟩⟩
    exact (h₂.runs.placed lf hlf).holds.posted hk
  · rintro he w₂ ⟨R₂, h₂⟩
    exact ⟨R₂, h₂.mono fun _ _ _ hP => hP.1 he⟩
  · rintro - w₃ ⟨R₃, h₃⟩
    exact ⟨h₃.settle _, congrArg (fun b : Setting => b.depth - 1) h₃.setting, congrArg Setting.config h₃.setting⟩

/-- A change of a key of an object. -/
theorem Settled.change {o : ObjectId} {key : String} {old new : Value} {f : List (String × Value) → List (String × Value)}
    (hnew : ∀ es, (Fields.get? key (f es)).getD .undefined = new)
    (hf : ∀ es name, name ≠ key → Fields.get? name (f es) = Fields.get? name es) :
    (o.change (engine H (n + 2)).reactions key old new f).Ends w fun _ w' =>
      Settled p log before x s w' ∧ w'.depth = w.depth ∧ w'.config = w.config := by
  obtain ⟨R, h⟩ := h
  let b' : Setting := { w.setting with contents := w.changed o f, depth := w.depth + 1 }
  refine ObjectId.change_ends (I := fun P _ w => ∃ R, Observing p log before x s b' P w R)
    (J := fun P _ w => ∃ R, Observing p log before x s b' P w R) (K := fun h => log h = log w.env.host) (U := fun _ => True)
    (P := fun lf => Post.OfObject o .entries lf.post)
    hH.listener hd ?_ (fun _ hK hr => hr.trans hK) rfl ?_ ?_ ?_ ?_ ?_
  · intro id callback hq
    obtain ⟨p', hp⟩ := h.isUser hq fun place next he => by cases place <;> simp_all [Place.post]
    exact ⟨p', hp, trivial⟩
  · refine attends hH hx hn ?_
    rintro q next ⟨callback, hq⟩ hk
    have ho : o.index < w.layout.objects := by
      have := hk w.layout rfl rfl
      rwa [hq] at this
    cases q <;> simp only [Place.post, Post.object.injEq, ObjectTopic.after.injEq, reduceCtorEq, false_and, and_false] at hq
    obtain ⟨rfl, rfl, -⟩ := hq
    simp only [Place.Tells, Place.read, b', World.changed, if_pos ho, Contents.setEntries, if_true, hnew]
  · refine attends hH hx hn ?_
    rintro q next ⟨callback, hq⟩ _
    cases q <;> simp_all [Place.post, Place.Tells]
  · intro w₁ ids ha hK
    refine ⟨R, h.disturb ha hK fun lf hlf => ?_⟩
    by_cases hread : lf.place.read (w.changed o f) = lf.place.read w.contents
    · exact Or.inl hread
    have ho : o.index < w.layout.objects := by
      by_contra ho
      exact hread (by rw [World.changed, if_neg ho])
    refine Or.inr ?_
    by_cases hp : lf.place = .key o key
    · have hpost : lf.post = .object o .entries (.objectHas o key lf.sink) := by rw [Leaf.post, hp]; rfl
      refine ⟨Or.inl ⟨_, hpost⟩, ?_⟩
      rw [hpost]
      exact ho
    · have hp : lf.place = .entry o key := by
        by_contra he
        exact hread (Place.read_changed hf he hp)
      have hpost : lf.post = .object o (.after key) (.forward lf.sink) := by rw [Leaf.post, hp]; rfl
      have hk : w.layout.Knows lf.post := by
        rw [hpost]
        exact ho
      exact ⟨Or.inr ⟨⟨_, hpost⟩, lf.post, ⟨_, hpost⟩, ha.layout ▸ (h.runs.placed lf hlf).holds.posted hk⟩, hk⟩
  · rintro w₂ ids ⟨R₂, h₂⟩
    exact ⟨R₂, h₂.mono fun lf hlf hk hP => ⟨hP, _, hP, (h₂.runs.placed lf hlf).holds.posted hk⟩⟩
  · rintro w₃ ⟨R₃, h₃⟩
    exact ⟨h₃.settle _, congrArg (fun b : Setting => b.depth - 1) h₃.setting, congrArg Setting.config h₃.setting⟩

/-- A key that is new with the value `undefined`. -/
theorem Settled.fresh {o : ObjectId} {key : String} (hg : Fields.get? key (w.contents.entries o) = none) :
    (do o.modifyEntries (Fields.put key .undefined)
        nested .object (pure ()) (o.tellEntry (engine H (n + 2)).reactions key .undefined)).Ends w fun _ w' =>
      Settled p log before x s w' ∧ w'.depth = w.depth ∧ w'.config = w.config := by
  obtain ⟨R, h⟩ := h
  let b' : Setting := { w.setting with contents := w.changed o (Fields.put key .undefined), depth := w.depth + 1 }
  refine ObjectId.fresh_ends (J := fun P _ w => ∃ R, Observing p log before x s b' P w R) hH.listener hd ?_ ?_ ?_
  · refine attends hH hx hn ?_
    rintro q next ⟨callback, hq⟩ _
    cases q <;> simp_all [Place.post, Place.Tells]
  · intro w₁ ids ha hK
    refine ⟨R, h.disturb ha (by rw [hK]) fun lf hlf => ?_⟩
    by_cases hread : lf.place.read (w.changed o (Fields.put key .undefined)) = lf.place.read w.contents
    · exact Or.inl hread
    have ho : o.index < w.layout.objects := by
      by_contra ho
      exact hread (by rw [World.changed, if_neg ho])
    have hp : lf.place = .key o key := by
      by_contra hp
      refine hread ?_
      by_cases he : lf.place = .entry o key
      · simp [he, Place.read, World.changed, ho, Contents.setEntries, hg]
      · exact Place.read_changed (fun es name hn => Fields.get?_put_of_ne hn _ es) he hp
    have hpost : lf.post = .object o .entries (.objectHas o key lf.sink) := by rw [Leaf.post, hp]; rfl
    have hk : w.layout.Knows lf.post := by
      rw [hpost]
      exact ho
    exact Or.inr ⟨⟨⟨_, hpost⟩, lf.post, ⟨_, hpost⟩, ha.layout ▸ (h.runs.placed lf hlf).holds.posted hk⟩, hk⟩
  · rintro w₃ ⟨R₃, h₃⟩
    exact ⟨h₃.settle _, congrArg (fun b : Setting => b.depth - 1) h₃.setting, congrArg Setting.config h₃.setting⟩

/-- Every operation of the program leaves the observer up to date. -/
theorem Settled.mutation (m : Mutation) :
    (m.run (engine H (n + 2))).Ends w fun _ w' =>
      Settled p log before x s w' ∧ w'.depth = w.depth ∧ w'.config = w.config :=
  m.run_ends ⟨h, rfl, rfl⟩ (fun _ _ _ _ _ _ hm hlen => h.apply hH hx hn hd hm hlen) (fun _ _ _ hg => h.fresh hH hx hn hd hg)
    fun _ _ _ _ _ _ hnew hf => h.change hH hx hn hd hnew hf

/-- So does every sequence of operations. -/
theorem Settled.mutations (ms : List Mutation) :
    (Mutation.runAll (engine H (n + 2)) ms).Ends w fun _ w' => Settled p log before x s w' := by
  induction ms generalizing w with
  | nil => exact h
  | cons m ms ih =>
    rw [Mutation.runAll, Run.ends_bind]
    refine (h.mutation hH hx hn hd m).imp ?_
    rintro _ w₁ ⟨h₁, hd₁, hc₁⟩
    refine ih ?_ h₁
    rw [hd₁, hc₁]
    exact hd

end

end Observing

/-- The record since `before` is not empty, and its last value is that of an expression, evaluated from scratch on what the
containers hold, whenever the keys and members that the evaluation looks up in objects are scalars. -/
def World.Shows (log : σ → List Value) (before : List Value) (x : Expr) (s : Scope) (w : World (Callback π) (Env π σ)) :
    Prop :=
  ∃ later v, log w.env.host = before ++ later ∧ later.getLast? = some v ∧
    (x.ScalarKeys w.contents s → v.same (x.denote w.contents s) = true)

/-- The last value reported is the current one. -/
theorem Observing.Settled.shows (h : Settled p log before x s w) (hx : x.Scalar) : w.Shows log before x s := by
  obtain ⟨R, h⟩ := h
  obtain ⟨-, -, -, later, hlog, hlast⟩ := h.recorded
  refine ⟨later, R.value, hlog, hlast _ rfl, fun hk => h.runs.denote hx hk fun l hl => ?_⟩
  exact (h.due l hl).resolve_left fun hf => hf.1

/-- The program is not being told anything, only it listens to containers, and nothing was given up. -/
structure World.AtRest (w : World (Callback π) (Env π σ)) : Prop where
  tidy : w.layout.Tidy
  depth : w.depth < w.config.maxDispatchDepth
  orphans : w.layout.cells.orphans = []
  users : ∀ {id q}, w.layout.Posted id q → q.IsUser

/-- An observer that has been started is up to date. -/
theorem Observing.started (hH : H.Records p log) (hx : x.Scalar) (hn : 2 * x.size ≤ n) (hw : w.AtRest) :
    (x.start (engine H n) (.user p) s).Ends w fun _ w' =>
      Settled p log (log w.env.host) x s w' ∧ w'.depth < w'.config.maxDispatchDepth := by
  have hJ : Behind.recorded log (log w.env.host) w.setting 0 [] none w := ⟨rfl, rfl, rfl, [], by simp, nofun⟩
  have hF : w.Fits 0 := ⟨fun _ h => absurd h (Multiset.notMem_zero _), Multiset.nodup_zero, hw.tidy⟩
  refine (hx.starts (hx.covered s) (hH.accepts _ _) (fun _ _ => trivial) (by omega) hJ hF).imp
    fun _ w' ⟨R, F', L', _, hR, hJ', hm, hr⟩ => ?_
  obtain ⟨hF', hL', hb, -⟩ := id hJ'
  subst hF' hL'
  have hfits : w'.Fits R.owned := by simpa using hm.fits hF
  refine ⟨⟨R, hR, hfits, ?_, fun l hl => Or.inr ?_, ?_, hm.layout.orphans.trans hw.orphans⟩, ?_⟩
  · rw [hb]
    exact hJ'
  · refine (hr l (by simpa using hl)).resolve_right ?_
    rintro ⟨hm', _⟩
    cases hm'
  · exact Layout.Closed.reshape (fun hq => Or.inl (hw.users hq)) (by simpa using hm.layout)
  · rw [hm.depth, hm.config]
    exact hw.depth

theorem World.AtRest.adds (h : w.AtRest) (ha : w.Adds w') : w'.AtRest where
  tidy := ha.tidy h.tidy
  depth := by
    rw [ha.depth, ha.config]
    exact h.depth
  orphans := by rw [ha.cells, h.orphans]
  users hq := h.users (ha.posted.1 hq)

/-- A world of objects that no one listens to. -/
def World.fresh (objects : List (List (String × Value))) (host : σ) : World (Callback π) (Env π σ) where
  objects := (objects.map fun entries => { entries }).toArray
  env := { host }

@[simp] theorem World.objectListeners_fresh (objects : List (List (String × Value))) (host : σ) (o : ObjectId) :
    (World.fresh objects host : World (Callback π) (Env π σ)).layout.objectListeners o = [] := by
  simp only [World.fresh, World.layout, World.objectCell, Array.getD_eq_getD_getElem?, List.getElem?_toArray, List.getElem?_map]
  cases objects[o.index]? <;> rfl

theorem World.not_posted_fresh (objects : List (List (String × Value))) (host : σ) {id : ListenerId} {q : Post π} :
    ¬(World.fresh objects host : World (Callback π) (Env π σ)).layout.Posted id q := by
  cases q with
  | list l topic callback => exact List.not_mem_nil
  | object o topic callback => simp [Layout.Posted]

theorem World.atRest_fresh (objects : List (List (String × Value))) (host : σ) :
    (World.fresh objects host : World (Callback π) (Env π σ)).AtRest := by
  have hpost {id : ListenerId} {q : Post π} :
      ¬(World.fresh objects host : World (Callback π) (Env π σ)).layout.Posted id q :=
    World.not_posted_fresh objects host
  exact ⟨⟨fun hq => (hpost hq).elim, fun hq => (hpost hq).elim, fun _ => List.nodup_nil, fun o => by simp⟩,
    show 0 < 256 by decide, rfl, fun hq => (hpost hq).elim⟩

/-- The program may register a listener of its own. -/
theorem World.AtRest.listen {o : ObjectId} {topic : ObjectTopic} (h : w.AtRest) :
    (o.listen topic (.user p)).Ends w fun id w' => w'.AtRest ∧ w'.depth = w.depth ∧ w'.config = w.config ∧
      w'.layout.objects = w.layout.objects ∧
        ∀ {id' q}, w'.layout.Posted id' q → w.layout.Posted id' q ∨ (id' = id ∧ q = .object o topic (.user p)) := by
  refine ObjectId.listen_ends (N := Post.IsUser) h.tidy ⟨p, rfl⟩ fun id w' _ t hq => ?_
  refine ⟨⟨t.layout.tidy h.tidy, ?_, t.layout.orphans.trans h.orphans, fun hp => (t.posts hp).elim h.users fun hu => hu⟩,
    t.depth, t.config, t.layout.objects, fun {id' q} hp => ?_⟩
  · rw [t.depth, t.config]
    exact h.depth
  · by_cases he : id' = id
    · subst he
      exact Or.inr ⟨rfl, hq.only q hp⟩
    · exact Or.inl (t.layout.posted hp (by simpa using he)).1

/-- Compiles a tree, starts the expression and then makes changes. -/
def observeThrough (E : Engine π σ) (t : OperatorTable) (tree : Node) (p : π) (s : Scope) (ms : List Mutation) :
    Live π σ (Except CompileError Expr) := do
  match ← (compile t tree).run with
  | .error e => return .error e
  | .ok x =>
    discard <| x.start E (.user p) s
    Mutation.runAll E ms
    return .ok x

/-- An observer compiled from a tree of scalar nodes is always current. The tree compiles when it stands for an expression, and
then the observer reports before its start is over, and after the start and any sequence of changes to lists and objects its last
report is the value of the tree. -/
theorem Node.Scalar.always_current {t : OperatorTable} {tree : Node} (htree : tree.Scalar t) (hH : H.Records p log)
    (hn : 2 * tree.size + 2 ≤ n) (hw : w.AtRest) (s : Scope) (ms : List Mutation) :
    (observeThrough (engine H n) t tree p s ms).Ends w fun r w' =>
      match r with
      | .ok x => tree.Means t x ∧ w'.Shows log (log w.env.host) x s
      | .error _ => ¬∃ x, tree.Means t x := by
  obtain ⟨m, rfl⟩ : ∃ m, n = m + 2 := ⟨n - 2, by omega⟩
  rw [observeThrough, Run.ends_bind]
  refine (htree.compile_ends hw.depth).imp ?_
  rintro r w₁ ⟨ha, hr⟩
  cases r with
  | error e => exact hr
  | ok x =>
    have hx := hr.scalar htree
    have hsize := hr.size_le
    simp only [Run.ends_bind, Run.ends_discard, Run.ends_pure]
    refine (Observing.started hH hx (by omega) (hw.adds ha)).imp ?_
    rintro _ w₂ ⟨h₂, hd₂⟩
    rw [ha.host] at h₂
    exact (h₂.mutations hH hx (by omega) hd₂ ms).imp fun _ w₃ h₃ => ⟨hr, h₃.shows hx⟩

/-- The host that keeps the values reported to it and hears nothing else. -/
def Host.recorder : Host Unit (List Value) where
  listener _ _ _ := pure ()
  observer _ _ v := modifyHost (· ++ [v])
  teardown _ _ := pure ()

theorem Host.recorder_records : Host.recorder.Records () id where
  observer _ v w := ⟨w.env.host ++ [v], rfl, rfl⟩
  listener _ _ _ w := ⟨w.env.host, rfl, rfl⟩

/-- An observer of a property that is set and then deleted. -/
theorem Node.Scalar.always_current_property :
    ∃ x w', observeThrough (engine Host.recorder 8) .standard (.property .value "a") () { value := .object ⟨0⟩ }
      [.setEntry ⟨0⟩ "a" (.bool true), .deleteEntry ⟨0⟩ "a"] (World.fresh [[]] []) = .ok (.ok x) w' ∧
        w'.Shows id [] x { value := .object ⟨0⟩ } := by
  have htree : Node.Scalar .standard (.property .value "a") :=
    .call (Or.inl rfl) (by simpa using ⟨.leaf nofun, .leaf nofun⟩)
  have hrest := World.atRest_fresh (π := Unit) [[]] ([] : List Value)
  have hhost : (World.fresh [[]] [] : World (Callback Unit) (Env Unit (List Value))).env.host = [] := rfl
  generalize World.fresh [[]] ([] : List Value) = w at hrest hhost ⊢
  obtain ⟨r, w', hr, h⟩ := Run.ends_iff.1 (htree.always_current (n := 8) Host.recorder_records (by decide) hrest
    { value := .object ⟨0⟩ } [.setEntry ⟨0⟩ "a" (.bool true), .deleteEntry ⟨0⟩ "a"])
  cases r with
  | ok x => exact ⟨x, w', hr, by simpa [hhost] using h.2⟩
  | error e => exact absurd ⟨_, .property (Or.inl rfl) rfl (.value rfl) (.literal rfl rfl)⟩ h

end

end LiveBindings
