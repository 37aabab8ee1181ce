import LiveBindings.Proofs.Mesh

/-!
# Observers of the presence of a value

An expression that asks whether the list under a key has a fixed value, its answer negated any number of times
(`presenceExpr`). While there is a list under the key its observer has two listeners, one for the key and one for the presence
of the value in the list found there, and the value handed on last is what the second listener says (`Runs.presence`). A
listener of such an observer can be told as long as there is a list under the key (`Runs.presence_tells`).
-/

namespace LiveBindings

variable {π σ : Type}

/-- Truth and falsehood exchanged. -/
def Value.negated (v : Value) : Value := .bool !v.truthy

/-- The operator that negates its operand. -/
def negation : OperatorFunction := fun _ args => (Operator.operand args 0).negated

/-- Whether the list under a key of the value in scope has the value of an expression, negated a number of times. -/
def presenceExpr (key : String) (x : Expr) : Nat → Expr
  | 0 => .membership (keyExpr key) x
  | turns + 1 => .operator negation [presenceExpr key x turns]

/-- An answer negated a number of times. -/
def turned : Nat → Bool → Bool
  | 0, b => b
  | turns + 1, b => !turned turns b

/-- A wanted value carried back through the negations in front of a test. -/
def turnedBack : Nat → Value → Value
  | 0, v => v
  | turns + 1, v => turnedBack turns v.negated

/-- An expression whose value is known once and for all. -/
inductive Expr.Fixed (s : Scope) : Expr → Value → Prop
  | literal (v : Value) : Fixed s (.literal v) v
  | value : Fixed s .value s.value
  | parameters : Fixed s .parameters s.parameters

@[simp] theorem Value.truthy_negated (v : Value) : v.negated.truthy = !v.truthy := rfl

/-- A test says what was wanted of it when it is as it had to be for that. -/
theorem turned_turnedBack (turns : Nat) (v : Value) : turned turns (turnedBack turns v).truthy = v.truthy := by
  induction turns generalizing v with
  | zero => rfl
  | succ turns ih => rw [turned, turnedBack, ih, Value.truthy_negated, Bool.not_not]

theorem negation_respectsSame : OperatorFunction.RespectsSame negation := by
  intro c c' vs vs' hvs
  cases hvs with
  | nil => exact Value.same_refl _
  | cons h _ =>
    simp only [negation, Operator.operand, List.getD_cons_zero, Value.negated, Value.truthy_eq_of_same h]
    exact Value.same_refl _

section

variable {D D' : Place → Prop} {K : Layout π} {x : Expr} {s : Scope} {next : Sink π} {R : Running π} {m v : Value}
  {target : ObjectId} {key : String} {turns : Nat}

namespace Expr.Fixed

theorem scalar (hx : x.Fixed s m) : x.Scalar := by
  cases hx with
  | literal => exact .literal _
  | value => exact .value
  | parameters => exact .parameters

theorem size (hx : x.Fixed s m) : x.size = 1 := by
  cases hx <;> rfl

theorem start {σ : Type} (hx : x.Fixed s m) (E : Engine π σ) (next : Sink π) : x.start E next s = constant E m next := by
  cases hx <;> rfl

/-- The observer of a fixed value has no listeners. -/
theorem runs (hx : x.Fixed s m) (h : Runs D K x s next R) : R.leaves = [] ∧ R.value = m := by
  generalize hy : x = y at h
  cases h with
  | literal | value | parameters =>
    subst hy
    cases hx
    exact ⟨rfl, rfl⟩
  | @following what =>
    subst hy
    cases what <;> cases hx
  | _ =>
    subst hy
    cases hx

end Expr.Fixed

theorem presenceExpr_size (key : String) (hx : x.Fixed s m) (turns : Nat) : (presenceExpr key x turns).size = turns + 5 := by
  induction turns with
  | zero => simp [presenceExpr, Expr.size, hx.size]
  | succ turns ih =>
    simp only [presenceExpr, Expr.size, Expr.sizeAll, ih]

theorem presenceExpr_scalar (key : String) (hx : x.Fixed s m) (turns : Nat) : (presenceExpr key x turns).Scalar := by
  induction turns with
  | zero => exact .membership (.property .value (.literal _)) hx.scalar
  | succ turns ih => exact .operator negation_respectsSame (by simpa using ih)

/-- What a test says of the list under the key. -/
theorem presenceExpr_denote {c : Contents} {l : ListId} (hs : s.value = .object target) (hx : x.Fixed s m)
    (hl : (Place.entry target key).read c = .list l) (turns : Nat) :
    ((presenceExpr key x turns).denote c s).truthy = turned turns (m.memberOf (c.items l)) := by
  induction turns with
  | zero =>
    have hm : x.denote c s = m := by cases hx <;> rfl
    have hk : (keyExpr key).denote c s = .list l := by
      rw [← hl, Place.read_entry]
      simp [Expr.denote, hs, Contents.property, Contents.under]
    rw [presenceExpr, Expr.denote, hm, hk]
    rfl
  | succ turns ih =>
    rw [turned, ← ih]
    rfl

/-- An observer that watches nothing but places among `D'`. -/
theorem Runs.narrow (h : Runs D K x s next R) (hD : ∀ l ∈ R.leaves, D' l.place) : Runs D' K x s next R := by
  have spot : ∀ {next : Sink π} {spot : Spot} {R : Running π}, Watches D K next spot R → (∀ l ∈ R.leaves, D' l.place) →
      Watches D' K next spot R := by
    rintro next spot R (v | ⟨-, hK⟩) hD
    · exact .constant v
    · exact .place (hD _ (List.mem_singleton_self _)) hK
  induction h with
  | literal => exact .literal
  | value => exact .value
  | parameters => exact .parameters
  | element h => exact .element (spot h hD)
  | component h => exact .component (spot h hD)
  | following _ _ hc hrow hslot hlast hx hy hv iha ihb =>
    exact .following (iha fun l hl => hD l (by simp [hl])) (ihb fun l hl => hD l (by simp [hl]))
      (spot hc fun l hl => hD l (by simp [hl])) hrow hslot hlast hx hy hv
  | within _ _ hslot iha ihb =>
    exact .within (iha fun l hl => hD l (by simp [hl])) (ihb fun l hl => hD l (by simp [hl])) hslot
  | choice _ _ hslot hlast iha ihb =>
    exact .choice (iha fun l hl => hD l (by simp [hl])) (ihb fun l hl => hD l (by simp [hl])) hslot hlast
  | operator hlen _ hvs hrow hlast hv ih =>
    refine .operator hlen (fun i x R hx hR => ih i x R hx hR fun l hl => hD l ?_) hvs hrow hlast hv
    exact mem_flatten_leaves.2 ⟨R, List.mem_of_getElem? hR, hl⟩

/-- The observer of a key has one listener, for the key. -/
theorem Runs.key_leaf (hs : s.value = .object target) (h : Runs D K (keyExpr key) s next R) :
    ∃ l : Leaf π, R.leaves = [l] ∧ l.place = .entry target key ∧ R.value.same l.value = true := by
  generalize hx : keyExpr key = x at h
  cases h with
  | @following what a b _ _ row slot last c g x y v Ra Rb Rc hRa hRb hRc hrow hslot hlast hxa hyb hv =>
    cases what with
    | membership => cases hx
    | property =>
      obtain ⟨rfl, rfl⟩ : Expr.value = a ∧ .literal (.text key) = b := by simpa [keyExpr, Followed.expr] using hx
      obtain ⟨hla, hva⟩ := Expr.Fixed.value.runs hRa
      obtain ⟨hlb, hvb⟩ := (Expr.Fixed.literal (.text key)).runs hRb
      obtain rfl : x = .object target := Value.eq_of_same_object (by rw [← hs, ← hva]; exact Value.same_symm hxa)
      obtain rfl : y = .text key := Value.eq_of_same_text (by rw [← hvb]; exact Value.same_symm hyb)
      simp only [Followed.spot, Contents.key_text] at hRc
      cases hRc with
      | @place _ id v' => exact ⟨⟨.entry target key, id, .distinct last next, v'⟩, by simp [hla, hlb], rfl, hv⟩
  | _ => cases hx

/-- The observer of the presence of a value in the list under a key has a listener for the key. If it found a list there it has
one for the presence of the value in that list, and no other. -/
theorem Runs.presence (hs : s.value = .object target) (hx : x.Fixed s m) (h : Runs D K (presenceExpr key x turns) s next R) :
    ∃ (l : Leaf π) (ls : List (Leaf π)), R.leaves = l :: ls ∧ l.place = .entry target key ∧ ∀ list, l.value = .list list →
      ∃ (l' : Leaf π) (m' : Value), ls = [l'] ∧ l'.place = .element list m' ∧ m'.same m = true ∧
        R.value.truthy = turned turns l'.value.truthy := by
  induction turns generalizing next R with
  | zero =>
    rw [presenceExpr] at h
    generalize hy : Expr.membership (keyExpr key) x = y at h
    cases h with
    | @following what a b _ _ row slot last c g u u' v Ra Rb Rc hRa hRb hRc hrow hslot hlast hxa hyb hv =>
      cases what with
      | property => cases hy
      | membership =>
        obtain ⟨rfl, rfl⟩ : keyExpr key = a ∧ x = b := by simpa [Followed.expr] using hy
        obtain ⟨l, hl, hplace, hvalue⟩ := hRa.key_leaf hs
        obtain ⟨hlb, hvb⟩ := hx.runs hRb
        refine ⟨l, Rc.leaves, by simp [hl, hlb], hplace, fun list hlist => ?_⟩
        obtain rfl : u = .list list := by
          refine Value.eq_of_same_list (Value.same_symm ?_)
          rw [← hlist]
          exact Value.same_trans hxa hvalue
        simp only [Followed.spot] at hRc
        cases hRc with
        | place => exact ⟨_, u', rfl, rfl, hvb ▸ hyb, by rw [turned, Value.truthy_eq_of_same hv]⟩
    | _ => cases hy
  | succ turns ih =>
    rw [presenceExpr] at h
    generalize hy : Expr.operator negation [presenceExpr key x turns] = y at h
    cases h with
    | @operator f xs _ _ row last c vs v Rs hlen hRs hvs hrow hlast hv =>
      obtain ⟨rfl, rfl⟩ : negation = f ∧ [presenceExpr key x turns] = xs := by simpa using hy
      obtain ⟨R', rfl⟩ : ∃ R', Rs = [R'] := List.length_eq_one_iff.1 (by simpa using hlen)
      obtain ⟨u, vs, hu, hvs, rfl⟩ := List.forall₂_cons_right_iff.1 hvs
      obtain ⟨l, ls, hl, hplace, hrest⟩ := ih (hRs 0 _ R' rfl rfl)
      refine ⟨l, ls, by simp [hl], hplace, fun list hlist => ?_⟩
      obtain ⟨l', m', hls, hplace', hm', htruth⟩ := hrest list hlist
      refine ⟨l', m', hls, hplace', hm', ?_⟩
      rw [Value.truthy_eq_of_same hv, turned, ← htruth, ← Value.truthy_eq_of_same hu]
      rfl
    | @following what => cases what <;> cases hy
    | _ => cases hy

end

/-! ## Telling a listener -/

section

variable {H : Host π σ} {D : Place → Prop} {w : World (Callback π) (Env π σ)} {n : Nat} {l : Leaf π} {act : Live π σ Unit}
  {x : Expr} {s : Scope} {next : Sink π} {R : Running π} {m : Value} {target : ObjectId} {key : String}

/-- A listener of an observer of the presence of a value in the list under a key, not negated, is told. -/
theorem Runs.membership_tells (hs : s.value = .object target) (hx : x.Fixed s m)
    (hR : Runs D w.layout (.membership (keyExpr key) x) s next R)
    (hact : act = l.sink.emit (engine H n) (H.observer (engine H n)) (l.place.read w.contents)) (hl : l ∈ R.leaves)
    (hlist : ∃ list, w.contents.under target key = .list list) (hD : ∀ list v, D (.element list v)) :
    (Expr.membership (keyExpr key) x).Tells H D n w l act s next R := by
  intro V J need F L h hV hn hJ hw
  rw [hact]
  simp only [Expr.size] at hn
  replace hV : ∀ v, V v := fun v => hV v trivial
  generalize hy : Expr.membership (keyExpr key) x = y at hR
  cases hR with
  | @following what a b _ _ row slot last c g u y v Ra Rb Rc hRa hRb hRc hrow hslot hlast hxa hyb hv =>
    cases what with
    | property => cases hy
    | membership =>
      obtain ⟨rfl, rfl⟩ : keyExpr key = a ∧ x = b := by simpa [Followed.expr] using hy
      obtain ⟨la, hla, hplace, -⟩ := hRa.key_leaf hs
      obtain ⟨hlb, -⟩ := hx.runs hRb
      rcases List.mem_append.1 hl with hl | hl
      · -- Another list is followed from now on.
        have hd := h.distinct last
        have hf := hd.follow slot .membership
        have hJd : (J.distinct last) ({.last last} + F) L (some Rc.value) w := ⟨F, v, rfl, hlast, hv, hJ⟩
        have hJf : (J.distinct last).follow D (.distinct last next) slot .membership
            ({.slot slot} + Rc.owned + ({.last last} + F)) (Rc.leaves ++ L) (some [u, y]) w :=
          ⟨_, _, Rc, g, rfl, rfl, hslot, ⟨c, hRc⟩, hJd⟩
        have hacc := hf.argument (fun v => ∃ list, v = .list list) row 0 [u, y] true (by simp) (by
          rintro - v ⟨list, rfl⟩
          exact ⟨by rintro c p ⟨⟩; exact hD _ _, fun _ _ _ _ _ _ => hV _⟩)
        have hJr : Behind.argument _ row 0 [u, y] true _ _ (some Ra.value) w :=
          ⟨_, u, some [u, y], rfl, hrow, fun _ h => Option.some.inj h ▸ hxa, fun _ => rfl, hJf⟩
        have hwa : w.Fits (Rb.owned + (Ra.owned + ({.row row} + ({.slot slot} + Rc.owned + ({.last last} + F))))) :=
          hw.of_le (le_of_eq (by simp only; abel))
        have hread : ∃ list, l.place.read w.contents = .list list := by
          obtain rfl : l = la := by simpa [hla] using hl
          rwa [hplace]
        refine (keyExpr_told hRa hacc hread (by omega) hJr hwa.right hl).imp fun _ w' h' => ?_
        obtain ⟨Ra', -, L₁, hh, hRa', ⟨F₁, u', o', rfl, hrow', hu', ho', hJ₁⟩, hm, hr⟩ := h'
        obtain rfl := ho' rfl
        obtain ⟨-, L', Rc', g', rfl, rfl, hslot', ⟨c', hRc'⟩, ⟨F', v', rfl, hlast', hv', hJ'⟩⟩ := hJ₁
        refine ⟨followingRunning row slot last v' Ra' Rb Rc', F', L', by simp only [hh],
          .following hRa' (hRb.after hm hwa) hRc' hrow' hslot' hlast' (hu' _ rfl) hyb hv', hJ',
          (hm.frame hwa).cast (by simp only; abel) (by simp only; abel), ?_⟩
        have hcp : ∀ l' ∈ Rc.leaves, l'.Placed D w.layout ({.row row} + ({.slot slot} + Rc.owned + ({.last last} + F))) :=
          fun l' hl' => (hRc.placed l' hl').mono fun p hp => by simp [hp]
        exact hr.beside (M := []) (by simp) (by simp) (ids_ne hwa.right (hRa.placed l hl).owned hcp)
          (fun l' => by simp [hlb]) fun l' => by simp [hlb]
      · exact followed_told hRa hRb hRc hrow hslot hlast hxa hyb hv h (hV _) (by omega) hJ hw (by simpa [hlb] using hl)
  | _ => cases hy

/-- A listener of an observer of the presence of a value in the list under a key is told. -/
theorem Runs.presence_tells {turns : Nat} (hs : s.value = .object target) (hx : x.Fixed s m)
    (hR : Runs D w.layout (presenceExpr key x turns) s next R)
    (hact : act = l.sink.emit (engine H n) (H.observer (engine H n)) (l.place.read w.contents)) (hl : l ∈ R.leaves)
    (hlist : ∃ list, w.contents.under target key = .list list) (hD : ∀ list v, D (.element list v)) :
    (presenceExpr key x turns).Tells H D n w l act s next R := by
  induction turns generalizing next R with
  | zero => exact hR.membership_tells hs hx hact hl hlist hD
  | succ turns ih =>
    rw [presenceExpr] at hR ⊢
    generalize hy : Expr.operator negation [presenceExpr key x turns] = y at hR
    cases hR with
    | @operator f xs _ _ row last c vs v Rs hlen hRs hvs hrow hlast hv =>
      obtain ⟨rfl, rfl⟩ : negation = f ∧ [presenceExpr key x turns] = xs := by simpa using hy
      obtain ⟨R', rfl⟩ : ∃ R', Rs = [R'] := List.length_eq_one_iff.1 (by simpa using hlen)
      obtain ⟨u, vs, hu, hnil, rfl⟩ := List.forall₂_cons_right_iff.1 hvs
      obtain rfl : vs = [] := List.forall₂_nil_right_iff.1 hnil
      have hl' : l ∈ R'.leaves := by simpa using hl
      have hnone : List.Forall₂ (fun (v : Value) (R : Running π) => v.same R.value = true) [] [] := .nil
      refine operator_tells hlen hRs hnone hu hnone hrow hlast hv (fun y hy => ?_) hl'
      obtain rfl : presenceExpr key x turns = y := by simpa using hy
      exact ih (hRs 0 _ R' rfl rfl) hl'
    | @following what => cases what <;> cases hy
    | _ => cases hy

end

end LiveBindings
