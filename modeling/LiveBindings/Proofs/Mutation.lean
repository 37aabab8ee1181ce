import LiveBindings.Proofs.Change

/-!
# Changes that a program makes

The operations by which a program changes lists and objects. Each comes down to nothing, to one replacement or reordering of
the items of a list, or to one change of a key of an object (`Mutation.run_ends`), and what it changes is read at few places.
-/

namespace LiveBindings

variable {π σ : Type}

/-- An operation of a program on a list or an object. -/
inductive Mutation
  | splice (l : ListId) (index remove : Nat) (plus : List Value)
  | push (l : ListId) (values : List Value)
  | pop (l : ListId)
  | shift (l : ListId)
  | unshift (l : ListId) (values : List Value)
  | setItem (l : ListId) (index : Nat) (value : Value)
  | deleteItem (l : ListId) (value : Value)
  | wipe (l : ListId)
  | replaceAll (l : ListId) (values : List Value)
  | reverse (l : ListId)
  | sort (l : ListId)
  /-- The comparison may look at what containers hold. -/
  | sortBy (l : ListId) (compare : Contents → Value → Value → Ordering)
  | setEntry (o : ObjectId) (key : String) (value : Value)
  | deleteEntry (o : ObjectId) (key : String)

namespace Mutation

def run (E : Engine π σ) : Mutation → Live π σ Unit
  | splice l index remove plus => discard (l.splice E.reactions index remove plus)
  | push l values => l.push E.reactions values
  | pop l => discard (l.pop E.reactions)
  | shift l => discard (l.shift E.reactions)
  | unshift l values => l.unshift E.reactions values
  | setItem l index value => l.assign E.reactions index value
  | deleteItem l value => discard (l.delete E.reactions value)
  | wipe l => l.wipe E.reactions
  | replaceAll l values => l.replaceAll E.reactions values
  | reverse l => l.reverse E.reactions
  | sort l => l.sort E.reactions
  | sortBy l compare => l.sortBy E.reactions fun w => compare w.contents
  | setEntry o key value => o.assign E.reactions key value
  | deleteEntry o key => discard (o.delete E.reactions key)

/-- The list that an operation is on. -/
def list? : Mutation → Option ListId
  | splice l _ _ _ | push l _ | pop l | shift l | unshift l _ | setItem l _ _ | deleteItem l _ | wipe l | replaceAll l _ | reverse l
  | sort l | sortBy l _ => some l
  | setEntry _ _ _ | deleteEntry _ _ => none

/-- A sequence of operations. -/
def runAll (E : Engine π σ) : List Mutation → Live π σ Unit
  | [] => pure ()
  | m :: ms => do
    m.run E
    runAll E ms

end Mutation

/-! ## What a change comes down to -/

/-- What the containers hold after the items of a list have become others. -/
def World.replaced (w : World (Callback π) (Env π σ)) (l : ListId) (vs : List Value) : Contents :=
  if l.index < w.layout.lists then w.contents.setItems l vs else w.contents

section

variable {w : World (Callback π) (Env π σ)} {R : Reactions (Callback π) (Env π σ)} {l : ListId}
  {Q : World (Callback π) (Env π σ) → Prop}

theorem World.items_replaced (h : l.index < w.layout.lists) (vs : List Value) : (w.replaced l vs).items l = vs := by
  simp [World.replaced, h, Contents.setItems]

/-- Setting the items of a list. -/
theorem World.modifyItems_mutated {w₁ : World (Callback π) (Env π σ)} (hl : w₁.layout = w.layout)
    (hc : w₁.contents = w.contents) (vs : List Value) :
    (w₁.modifyList l fun c => { c with items := vs }).layout = w₁.layout ∧
      (w₁.modifyList l fun c => { c with items := vs }).contents = w.replaced l vs := by
  refine ⟨World.layout_modifyList fun _ => rfl, ?_⟩
  rw [World.contents_modifyItems, hl, hc]
  rfl

theorem ListId.replaceItems_mutates (index remove : Nat) (plus : List Value) :
    Mutates (l.replaceItems index remove plus) w (w.replaced l (replaceRun (w.contents.items l)
      (min index (w.contents.items l).length)
      (min (index + remove) (w.contents.items l).length - min index (w.contents.items l).length) plus)) := by
  intro w₁ hl hc
  simp only [ListId.replaceItems, Run.ends_bind, ListId.ends_items, Run.ends_modify, Run.ends_pure, hc]
  obtain ⟨h₁, h₂⟩ := World.modifyItems_mutated hl hc _
  exact ⟨h₁, h₂, rfl, rfl, rfl⟩

/-- A replacement of nothing by nothing is no change, any other replaces the items up to the end of the list. -/
theorem ListId.splice_items {index remove : Nat} {plus : List Value}
    (idle : plus = [] → min remove ((w.contents.items l).length - index) = 0 → Q w)
    (apply : ∀ change before mutate,
      Mutates mutate w (w.replaced l (replaceRun (w.contents.items l) (min index (w.contents.items l).length)
        (min remove ((w.contents.items l).length - index)) plus)) →
      (change.oldLength = change.newLength → plus.length = min remove ((w.contents.items l).length - index)) →
        (l.apply R change before mutate).Ends w fun _ => Q) :
    (l.splice R index remove plus).Ends w fun _ => Q := by
  simp only [ListId.splice, Run.ends_bind, ListId.ends_items]
  split
  · rename_i h
    simp only [Bool.and_eq_true, List.isEmpty_iff, ← List.length_eq_zero_iff, List.length_take, List.length_drop] at h
    exact idle (List.length_eq_zero_iff.1 h.1) (by omega)
  · simp only [Run.ends_bind, Run.ends_pure]
    refine apply _ _ _ ?_ fun hlen => ?_
    · have key := ListId.replaceItems_mutates (w := w) (l := l) (min index (w.contents.items l).length)
        (((w.contents.items l).drop (min index (w.contents.items l).length)).take remove).length plus
      simp only [List.length_take, List.length_drop] at key ⊢
      rwa [Nat.min_assoc, Nat.min_self, show min (min index (w.contents.items l).length +
        min remove ((w.contents.items l).length - min index (w.contents.items l).length)) (w.contents.items l).length -
        min index (w.contents.items l).length = min remove ((w.contents.items l).length - index) by omega] at key
    · simp only [List.length_take, List.length_drop] at hlen
      omega

/-- The same when only the length matters. -/
theorem ListId.splice_ends {index remove : Nat} {plus : List Value} (idle : Q w)
    (apply : ∀ vs change before mutate, Mutates mutate w (w.replaced l vs) →
      (change.oldLength = change.newLength → vs.length = (w.contents.items l).length) →
        (l.apply R change before mutate).Ends w fun _ => Q) :
    (l.splice R index remove plus).Ends w fun _ => Q := by
  refine ListId.splice_items (fun _ _ => idle) fun change before mutate hm hlen => apply _ _ _ _ hm fun he => ?_
  rw [replaceRun_length (by omega), hlen he]
  omega

/-- A value is appended. -/
theorem ListId.push_ends {v : Value}
    (apply : ∀ change before mutate, Mutates mutate w (w.replaced l (w.contents.items l ++ [v])) →
      (l.apply R change before mutate).Ends w fun _ => Q) : (l.push R [v]).Ends w fun _ => Q := by
  simp only [ListId.push, Run.ends_bind, ListId.ends_length, Run.ends_discard]
  refine ListId.splice_items (fun h => absurd h (by simp)) fun change before mutate hm _ => apply _ _ _ ?_
  simpa [replaceRun] using hm

/-- The first element that is the same as a value is deleted, if there is one. -/
theorem ListId.delete_ends {v : Value} {Q : Bool → World (Callback π) (Env π σ) → Prop}
    (absent : v.memberOf (w.contents.items l) = false → Q false w)
    (found : ∀ vs change before mutate, vs.length < (w.contents.items l).length → Mutates mutate w (w.replaced l vs) →
      (l.apply R change before mutate).Ends w fun _ => Q true) : (l.delete R v).Ends w Q := by
  simp only [ListId.delete, ListId.indexOf, Run.ends_bind, ListId.ends_items, Run.ends_pure]
  split
  · rename_i index hindex
    have hlt := (List.findIdx?_eq_some_iff_getElem.1 hindex).1
    simp only [Run.ends_bind, Run.ends_discard, Run.ends_pure]
    refine ListId.splice_items (fun _ h => absurd h (by omega)) fun change before mutate hm _ => found _ _ _ _ ?_ hm
    rw [replaceRun_length (by omega)]
    simp only [List.length_nil]
    omega
  · rename_i hnone
    refine absent ?_
    simpa [Value.memberOf] using hnone

/-- A reordering of no items is no change, any other makes one. -/
theorem ListId.reorder_ends {order : Contents → List Value → List Value} (ho : ∀ c vs, (order c vs).length = vs.length)
    (idle : Q w)
    (apply : ∀ vs change before mutate, Mutates mutate w (w.replaced l vs) →
      (change.oldLength = change.newLength → vs.length = (w.contents.items l).length) →
        (l.apply R change before mutate).Ends w fun _ => Q) :
    (l.reorder R fun w => order w.contents).Ends w fun _ => Q := by
  simp only [ListId.reorder, Run.ends_bind, ListId.ends_items]
  split
  · exact idle
  · simp only [Run.ends_discard]
    refine apply (order w.contents (w.contents.items l)) _ _ _ (fun w₁ hl hc => ?_) fun _ => ho _ _
    have hi : (w₁.listCell l).items = w.contents.items l := by rw [← hc]; rfl
    simp only [Run.ends_bind, Run.ends_stateGet, Run.ends_modify, Run.ends_pure, hc, hi]
    obtain ⟨h₁, h₂⟩ := World.modifyItems_mutated hl hc (order w.contents (w.contents.items l))
    exact ⟨h₁, h₂, rfl, rfl, rfl⟩

/-- What every operation comes down to. -/
theorem Mutation.run_ends {E : Engine π σ} (m : Mutation) (idle : Q w)
    (apply : ∀ l vs change before mutate, m.list? = some l → Mutates mutate w (w.replaced l vs) →
      (change.oldLength = change.newLength → vs.length = (w.contents.items l).length) →
        (ListId.apply E.reactions l change before mutate).Ends w fun _ => Q)
    (fresh : ∀ o key, m.list? = none → Fields.get? key (w.contents.entries o) = none →
      (do ObjectId.modifyEntries o (Fields.put key .undefined)
          nested .object (pure ()) (ObjectId.tellEntry E.reactions o key .undefined)).Ends w fun _ => Q)
    (change : ∀ o key old new f, m.list? = none → (∀ es, (Fields.get? key (f es)).getD .undefined = new) →
      (∀ es name, name ≠ key → Fields.get? name (f es) = Fields.get? name es) →
        (ObjectId.change E.reactions o key old new f).Ends w fun _ => Q) :
    (m.run E).Ends w fun _ => Q := by
  have splice : ∀ l index remove plus, m.list? = some l → (ListId.splice E.reactions l index remove plus).Ends w fun _ => Q :=
    fun l index remove plus hl => ListId.splice_ends idle fun vs change before mutate => apply l vs change before mutate hl
  have reorder : ∀ (order : Contents → List Value → List Value) l, m.list? = some l → (∀ c vs, (order c vs).length = vs.length) →
      (ListId.reorder E.reactions l fun w => order w.contents).Ends w fun _ => Q :=
    fun order l hl ho => ListId.reorder_ends ho idle fun vs change before mutate => apply l vs change before mutate hl
  cases m with
  | splice l index remove plus =>
    rw [Mutation.run, Run.ends_discard]
    exact splice l index remove plus rfl
  | push l values =>
    simp only [Mutation.run, ListId.push, Run.ends_bind, ListId.ends_length, Run.ends_discard]
    exact splice l _ _ _ rfl
  | pop l =>
    simp only [Mutation.run, ListId.pop, Run.ends_discard, Run.ends_bind, ListId.ends_length]
    split
    · exact idle
    · simp only [Run.ends_bind, Run.ends_pure]
      exact splice l _ _ _ rfl
  | shift l =>
    simp only [Mutation.run, ListId.shift, Run.ends_discard, Run.ends_bind, ListId.ends_length]
    split
    · exact idle
    · simp only [Run.ends_bind, Run.ends_pure]
      exact splice l _ _ _ rfl
  | unshift l values =>
    simp only [Mutation.run, ListId.unshift, Run.ends_discard]
    exact splice l _ _ _ rfl
  | setItem l index value =>
    simp only [Mutation.run, ListId.assign, Run.ends_bind, ListId.ends_length]
    split
    · simp only [Run.ends_bind, ListId.ends_get]
      split
      · exact idle
      · rw [Run.ends_discard]
        exact splice l _ _ _ rfl
    · rw [Run.ends_discard]
      exact splice l _ _ _ rfl
  | deleteItem l value =>
    simp only [Mutation.run, ListId.delete, ListId.indexOf, Run.ends_discard, Run.ends_bind, ListId.ends_items, Run.ends_pure]
    split
    · simp only [Run.ends_bind, Run.ends_discard, Run.ends_pure]
      exact splice l _ _ _ rfl
    · exact idle
  | wipe l =>
    simp only [Mutation.run, ListId.wipe, Run.ends_bind, ListId.ends_length, Run.ends_discard]
    exact splice l _ _ _ rfl
  | replaceAll l values =>
    simp only [Mutation.run, ListId.replaceAll, Run.ends_bind, ListId.ends_length, Run.ends_discard]
    exact splice l _ _ _ rfl
  | reverse l => exact reorder (fun _ items => items.reverse) l rfl fun _ _ => List.length_reverse
  | sort l => exact reorder (fun _ items => items.mergeSort fun a b => a.compare b != .gt) l rfl fun _ _ => List.length_mergeSort _
  | sortBy l compare =>
    exact reorder (fun c items => items.mergeSort fun a b => compare c a b != .gt) l rfl fun _ _ => List.length_mergeSort _
  | setEntry o key value =>
    exact ObjectId.assign_ends (fun _ _ _ => idle) (fun h _ => fresh o key rfl h) fun _ =>
      change o key _ value _ rfl (fun es => by simp) fun es name hn => Fields.get?_put_of_ne hn value es
  | deleteEntry o key =>
    rw [Mutation.run, Run.ends_discard]
    exact ObjectId.delete_ends (fun _ => idle) fun u _ =>
      change o key u .undefined _ rfl (fun es => by simp) fun es name hn => Fields.get?_erase_of_ne hn es

/-! ## Where a change is read -/

/-- A change of one key of an object is read at two places at most. -/
theorem Place.read_changed {p : Place} {o : ObjectId} {key : String} {f : List (String × Value) → List (String × Value)}
    (hf : ∀ es name, name ≠ key → Fields.get? name (f es) = Fields.get? name es) (he : p ≠ .entry o key)
    (hk : p ≠ .key o key) : p.read (w.changed o f) = p.read w.contents := by
  have hget : ∀ o' name, (o', name) ≠ (o, key) →
      Fields.get? name ((w.changed o f).entries o') = Fields.get? name (w.contents.entries o') := by
    intro o' name hne
    simp only [World.changed]
    split
    · simp only [Contents.setEntries]
      split
      · rename_i ho
        rw [ho]
        exact hf _ name fun hn => hne (by rw [ho, hn])
      · rfl
    · rfl
  have hitems : (w.changed o f).items = w.contents.items := by
    simp only [World.changed]
    split <;> rfl
  cases p with
  | entry o' name => simp only [read, hget o' name fun h => he (by cases h; rfl)]
  | key o' name => simp only [read, Fields.has, hget o' name fun h => hk (by cases h; rfl)]
  | length | item | element => simp only [read, hitems]

/-- Other items of a list are read only where its content or its length is watched. -/
theorem Place.read_replaced {p : Place} {next : Sink π} {vs : List Value}
    (hlen : p = .length l → vs.length = (w.contents.items l).length) (hc : ¬Post.OfList l .content (p.post next)) :
    p.read (w.replaced l vs) = p.read w.contents := by
  have hentries : (w.replaced l vs).entries = w.contents.entries := by
    simp only [World.replaced]
    split <;> rfl
  have hitems : ∀ l', l' ≠ l → (w.replaced l vs).items l' = w.contents.items l' := by
    intro l' hne
    simp only [World.replaced]
    split
    · simp [Contents.setItems, hne]
    · rfl
  cases p with
  | entry | key => simp only [read, hentries]
  | length l' =>
    by_cases hl : l' = l
    · subst hl
      simp only [read, World.replaced]
      split
      · simp [Contents.setItems, hlen rfl]
      · rfl
    · simp only [read, hitems l' hl]
  | item l' index =>
    by_cases hl : l' = l
    · subst hl
      exact absurd ⟨_, rfl⟩ hc
    · simp only [read, hitems l' hl]
  | element l' value =>
    by_cases hl : l' = l
    · subst hl
      exact absurd ⟨_, rfl⟩ hc
    · simp only [read, hitems l' hl]

end

end LiveBindings
