import LiveBindings.Proofs.Current
import LiveBindings.Proofs.Evaluation
import LiveBindings.Proofs.Targets

/-!
# One value through a binder, one through an observer

A binder that is handed a value writes it to the place where its target aims (`Target.bind_comes`). Afterwards that place reads
as what was written, whatever the listeners of the container have done meanwhile, if nothing is registered that makes more than
this stroke (`Target.bind_leaves`). An observer that is started reports what its expression denotes
(`Expr.Computed.reports`).
-/

namespace LiveBindings

variable {π σ : Type}

/-! ## Where a target writes -/

namespace Target

/-- The container and the key that a target writes to. -/
def aim (c : Contents) : Target → Scope → Value × Value
  | property object key, s => (object.denote c s, key.denote c s)
  | membership collection member, s => (collection.denote c s, member.denote c s)
  | inverse _ operand, s => operand.aim c s
  | equals left _, s => left.aim c s
  | within context body, s => body.aim c (s.nest (context.denote c s))

/-- How a target writes. -/
def writing : Target → Writing
  | property _ _ => .assign
  | membership _ _ => .toggle
  | inverse _ operand => operand.writing
  | equals left _ => left.writing
  | within _ body => body.writing

/-- What comes down to the place when a value is written. -/
def entered : Target → Value → Value
  | inverse f operand, v => operand.entered (f v)
  | within _ body, v => body.entered v
  | equals left _, v => left.entered v
  | property _ _, v | membership _ _, v => v

/-- What a target makes of a value. -/
def stroke (T : Target) (v : Value) : Stroke := ⟨T.writing, T.entered v⟩

/-- What the target writes to. -/
def spot (T : Target) (c : Contents) (s : Scope) : Spot := T.writing.followed.spot c (T.aim c s).1 (T.aim c s).2

/-- The number of nodes. -/
def size : Target → Nat
  | property a b | membership a b => a.size + b.size + 1
  | inverse _ operand => operand.size + 1
  | equals left right => left.size + right.size + 1
  | within context body => context.size + body.size + 1

end Target

section

variable {H : Host π σ} {k : Stroke} {b : Extent} {m n : Nat} {w : World (Callback π) (Env π σ)}

/-- A source that hands on one value. -/
theorem Source.start_comes {source : Source} {v : Value} (hs : source.value? = some v) {next : Sink π}
    (hw : w.layout.Serves k b) (hn : n ≤ m) :
    ComesTo k b n ∅ (Cancel.Plain b) (source.start (engine H (m + 1)) next) (handing H next v) w := by
  induction source generalizing next v with
  | observe x scope =>
    cases x <;> simp only [Source.value?, Option.some.injEq, reduceCtorEq] at hs
    subst hs
    exact constant_comes hn _ hw
  | inverse f source ih =>
    obtain ⟨u, hu, rfl⟩ := Option.map_eq_some_iff.1 hs
    exact ih hu
  | guarded | gated => cases hs

/-- A value is written where a container has a key. -/
theorem bindPlace_comes (hH : H.Idle) {x y : Expr} {scope : Scope} (hx : x.Computed) (hy : y.Computed) {source : Source}
    (hs : source.value? = some k.value) (hn : 2 * (x.size + y.size + 1) ≤ m) (hw : w.layout.Serves k b) :
    ComesTo k b 0 ∅ (Cancel.Plain b) (bindPlace (engine H m) k.how x y source scope)
      (fun l => write (engine H l) k.how (x.denote w.contents scope) (y.denote w.contents scope) k.value) w := by
  obtain ⟨m, rfl⟩ : ∃ m', m = m' + 1 := ⟨m - 1, by omega⟩
  refine newSlot_comes hw fun s w₁ _ hside₁ hw₁ hb hslot => ?_
  refine ComesTo.map ?_ fun outer h => plain_forEach hb h
  have ha : (ArgsAction.writeTo s k.how source : ArgsAction π).Serves k b := ⟨hb, rfl, hs⟩
  have htwo := startTwo_comes (n := 1) (m := m) hH (hx.comes hH scope) (hy.comes hH scope) ha (by omega) (by omega) (by omega) hw₁
  rw [hside₁.contents] at htwo
  refine htwo.through (fun p hp => ?_) fun l w₂ hl hside₂ hw₂ => ?_
  · rw [hp.resolve_right (Set.notMem_empty p)]
    exact hslot.has
  · obtain ⟨l, rfl⟩ : ∃ l', l = l' + 1 := ⟨l - 1, by omega⟩
    have hslot₂ := hslot.same (hside₂.same _ trivial hslot.has (Set.notMem_empty _))
    exact restart_comes hH hslot₂ hb (Set.notMem_empty _) hw₂ fun w₃ _ hw₃ => Source.start_comes hs hw₃ (Nat.zero_le _)

theorem Target.Writes.writing_eq {T : Target} {source : Source} (hT : T.Writes k source) : T.writing = k.how := by
  induction T generalizing source with
  | property | membership => exact hT.2.2.1.symm
  | inverse f operand ih => exact ih hT
  | equals => exact hT.elim
  | within context body ih => exact ih hT.2

/-- A value that is written through a target is written where the target aims. -/
theorem Target.bind_comes (hH : H.Idle) {T : Target} {source : Source} (hT : T.Writes k source) (scope : Scope)
    (hn : 2 * T.size ≤ m) (hw : w.layout.Serves k b) :
    ComesTo k b 0 ∅ (Cancel.Plain b) (T.bind (engine H m) source scope)
      (fun l => write (engine H l) k.how (T.aim w.contents scope).1 (T.aim w.contents scope).2 k.value) w := by
  induction T generalizing source scope m w with
  | property object key =>
    obtain ⟨ho, hk, hhow, hs⟩ := hT
    rw [bind, ← hhow]
    exact bindPlace_comes hH ho hk hs hn hw
  | membership collection member =>
    obtain ⟨ho, hk, hhow, hs⟩ := hT
    rw [bind, ← hhow]
    exact bindPlace_comes hH ho hk hs hn hw
  | inverse f operand ih => exact ih hT scope (Nat.le_trans (Nat.mul_le_mul_left 2 (Nat.le_succ _)) hn) hw
  | equals => exact hT.elim
  | within context body ih =>
    simp only [size] at hn
    have hbranch : (Branch.target body source scope : Branch π).Serves k b := hT.2
    refine forEach_comes (l := 2 * body.size) hH (hT.1.comes hH scope) hbranch (by omega) hw fun {m' w₁} hm' hcontents hw₁ => ?_
    have hbody := ih (m := m' + 1) hT.2 (scope.nest (context.denote w.contents scope)) (by omega) hw₁
    rwa [hcontents] at hbody

/-- A place that takes a value written in this manner. -/
def Place.Takes : Place → Writing → Prop
  | .entry _ _, .assign | .item _ _, .assign | .key _ _, .toggle | .element _ _, .toggle => True
  | _, _ => False

theorem Writing.takes {how : Writing} {c : Contents} {container key : Value} {p : Place}
    (h : how.followed.spot c container key = .place p) (hp : p.Found b) : p.Takes how := by
  cases how <;> cases container <;> simp only [followed, Followed.spot, reduceCtorEq, Spot.place.injEq] at h
  case assign.list l =>
    split at h
    · cases h
      exact hp.elim
    · split at h <;> cases h
      trivial
  all_goals subst h; trivial

theorem getD_setItem_of_ne (items : List Value) {index i : Nat} (v : Value) (h : i ≠ index) :
    (setItem items index v).getD i .undefined = items.getD i .undefined := by
  simp only [setItem, List.getD_eq_getElem?_getD]
  split
  · rw [List.getElem?_set_ne (Ne.symm h)]
  · rename_i hge
    by_cases hi : i < items.length
    · rw [List.getElem?_append_left hi]
    · -- The gap before the new item is filled with `undefined`, and nothing comes after it.
      have hi := Nat.le_of_not_lt hi
      rw [List.getElem?_append_right hi, List.getElem?_eq_none hi, Option.getD_none]
      by_cases hgap : i - items.length < index - items.length
      · rw [List.getElem?_append_left (by simpa using hgap), List.getElem?_replicate, if_pos hgap, Option.getD_some]
      · rw [List.getElem?_eq_none, Option.getD_none]
        simp only [List.length_append, List.length_replicate, List.length_singleton]
        omega

theorem Value.same_bool {t t' : Bool} : (bool t).same (.bool t') = true ↔ t = t' := by simp [same]

/-- The presence of a key survives a change that leaves it so if it is a change of that key. -/
theorem Place.key_spared {o o' : ObjectId} {name name' : String} {t : Bool} {c : Contents}
    {f : List (String × Value) → List (String × Value)} (hself : ∀ es, (Fields.get? name (f es)).isSome = t)
    (hother : ∀ es, name' ≠ name → Fields.get? name' (f es) = Fields.get? name' es)
    (h : ((Place.key o' name').read c).same (.bool t) = true) :
    ((Place.key o' name').read (c.setEntries o (f (c.entries o)))).same (.bool t) = true := by
  simp only [read, Contents.setEntries, Value.same_bool, Fields.has] at h ⊢
  split
  · rename_i ho
    by_cases hn : name' = name
    · rw [hn, hself]
    · rwa [hother _ hn, ← ho]
  · exact h

/-- What was written at a place survives the same stroke anywhere. -/
theorem Stroke.spares_read {p : Place} (hp : p.Takes k.how) : k.Spares fun c => (p.read c).same k.result = true := by
  intro c c' hc ht
  cases ht with
  | entry v o name =>
    cases p with
    | entry o' name' =>
      simp only [Place.read, Contents.setEntries] at hc ⊢
      split
      · rename_i ho
        by_cases hn : name' = name
        · rw [hn, Fields.get?_put_self]
          exact Value.same_refl v
        · rwa [Fields.get?_put_of_ne hn, ← ho]
      · exact hc
    | item => exact hc
    | _ => exact hp.elim
  | item v l index =>
    cases p with
    | item l' index' =>
      simp only [Place.read, Contents.setItems] at hc ⊢
      split
      · rename_i hl
        by_cases hn : index' = index
        · rw [hn, getD_setItem]
          exact Value.same_refl v
        · rwa [getD_setItem_of_ne _ _ hn, ← hl]
      · exact hc
    | entry => exact hc
    | _ => exact hp.elim
  | @keyed v o name hv =>
    cases p with
    | key o' name' =>
      simp only [result, hv] at hc ⊢
      exact Place.key_spared (fun es => by simp) (fun es hn => Fields.get?_put_of_ne hn _ es) hc
    | element => exact hc
    | _ => exact hp.elim
  | @unkeyed v o name hv =>
    cases p with
    | key o' name' =>
      simp only [result, hv] at hc ⊢
      exact Place.key_spared (fun es => by simp) (fun es hn => Fields.get?_erase_of_ne hn es) hc
    | element => exact hc
    | _ => exact hp.elim
  | @added v l member hv =>
    cases p with
    | element l' member' =>
      simp only [Place.read, Contents.setItems, result, hv, Value.same_bool, Value.memberOf] at hc ⊢
      split
      · rename_i hl
        rw [List.any_append, ← hl, hc, Bool.true_or]
      · exact hc
    | key => exact hc
    | _ => exact hp.elim
  | @removed v l index hv =>
    cases p with
    | element l' member' =>
      simp only [Place.read, Contents.setItems, result, hv, Value.same_bool, Value.memberOf, List.any_eq_false] at hc ⊢
      split
      · rename_i hl
        exact fun u hu => hc u (hl ▸ List.mem_of_mem_eraseIdx hu)
      · exact hc
    | key => exact hc
    | _ => exact hp.elim

/-- A place that reads as what was written. -/
theorem Target.bind_leaves (hH : H.Idle) {T : Target} {source : Source} (hT : T.Writes k source) {scope : Scope}
    (hn : 2 * T.size ≤ n) (hw : w.layout.Serves k b) {p : Place} (hp : T.spot w.contents scope = .place p) (hfound : p.Found b) :
    (T.bind (engine H n) source scope).Leads w fun _ w' => w'.Serves k b fun c => (p.read c).same k.result = true := by
  have hhow := hT.writing_eq
  have hs : k.Spares fun c => (p.read c).same k.result = true := Stroke.spares_read (hhow ▸ Writing.takes hp hfound)
  refine ((T.bind_comes hH hT scope hn hw).leads hs fun l w₁ _ hside hw₁ => ?_).imp fun _ _ h => h.2
  have hE₀ : (engine H l).Serves k b fun _ => True := engine_serves hH (fun _ _ _ _ => trivial) l
  refine write_serves hE₀ (engine_serves hH hs l) (fun _ _ _ _ => trivial) _ _ ⟨hw₁, trivial⟩ fun c _ h => h p ?_ hfound
  rw [hside.contents, ← hhow]
  exact hp

/-- An observer that is started reports what its expression denotes. -/
theorem Expr.Computed.reports {q : π} {log : σ → List Value} (hH : H.Idle) (hlog : H.Records q log) {x : Expr} (hx : x.Computed)
    (s : Scope) (hn : 2 * x.size ≤ n) (hw : w.layout.Serves k b) :
    (x.start (engine H n) (.user q) s).Ends w fun _ w' => log w'.env.host = log w.env.host ++ [x.denote w.contents s] := by
  have hsink : (Sink.user q).Serves k b := trivial
  obtain ⟨m, w₁, after, -, hact, hside, -, hafter⟩ := hx.comes hH s (n := 0) (m := n) hsink hw (by omega)
  obtain ⟨_, w₂, hrun, h, rfl, hh⟩ := Run.ends_iff.1 (hlog.observer (engine H m) (x.denote w.contents s) w₁)
  have hact' : x.start (engine H n) (.user q) s w = after (w₁.setHost h) := hact.trans (Run.bind_of_ok hrun)
  rw [Run.Ends, hact']
  refine (hafter.ends (w₁.setHost h) fun p _ _ _ => .refl _ p).imp fun _ w₃ h₃ => ?_
  rw [h₃.host, ← hside.host]
  exact hh

end

end LiveBindings
