import LiveBindings.Proofs.Notice

/-!
# Following a list by its items

A copy of a list is kept from two kinds of calls alone: each new value of the affected span is written at its index, and a
new length cuts the copy off. `Replica.follows` says that this is enough: after every operation the copy is the contents.
The reason is that the affected span covers every place where the contents differ (`Edit.Covered`).

A length is told as a number, and beyond `2 ^ 53` numbers leave naturals out; up to there it arrives exactly
(`Value.asIndex_ofNat`).
-/

namespace LiveBindings

/-! ## Lengths as numbers -/

namespace Number

theorem roundToEven_one (n : Nat) : roundToEven n 1 = n := by
  simp [roundToEven, Nat.mod_one]

/-- A positive natural number below `2 ^ 53`, moved to the top of fifty-three places, is a leading one and a fraction. -/
theorem exists_fraction {n : Nat} (h₀ : n ≠ 0) (h : n < 2 ^ 53) :
    n.log2 ≤ 52 ∧ ∃ fraction < 2 ^ 52, n * 2 ^ (52 - n.log2) = 2 ^ 52 + fraction := by
  have hlog : n.log2 ≤ 52 := Nat.le_of_lt_succ ((Nat.log2_lt h₀).2 h)
  have hlow : 2 ^ n.log2 ≤ n := Nat.log2_self_le h₀
  have hhigh : n < 2 ^ (n.log2 + 1) := Nat.lt_log2_self
  generalize n.log2 = k at *
  have hfull : 2 ^ k * 2 ^ (52 - k) = 2 ^ 52 := by rw [← Nat.pow_add, Nat.add_sub_cancel' hlog]
  have hge : 2 ^ 52 ≤ n * 2 ^ (52 - k) := hfull ▸ Nat.mul_le_mul_right _ hlow
  have hlt : n * 2 ^ (52 - k) < 2 ^ 53 :=
    calc n * 2 ^ (52 - k) < 2 ^ (k + 1) * 2 ^ (52 - k) := Nat.mul_lt_mul_of_pos_right hhigh (Nat.two_pow_pos _)
      _ = 2 ^ 53 := by rw [← Nat.pow_add]; congr 1; omega
  obtain ⟨fraction, hf⟩ := Nat.exists_eq_add_of_le hge
  exact ⟨hlog, fraction, by omega, hf⟩

/-- Such a number needs no rounding: its exponent is that of its leading one. -/
theorem nearestMagnitude_one {n fraction : Nat} (h₀ : n ≠ 0) (hlog : n.log2 ≤ 52) (hf : fraction < 2 ^ 52)
    (hn : n * 2 ^ (52 - n.log2) = 2 ^ 52 + fraction) :
    nearestMagnitude n 1 = (n.log2 + 1023) * 2 ^ 52 + fraction := by
  have hone : Nat.log2 1 = 0 := by decide
  unfold nearestMagnitude
  rw [if_neg h₀, hone]
  generalize n.log2 = k at *
  -- The first guess of the exponent keeps fifty-four places, one too many; the next one keeps fifty-three.
  have hguess : max (-1074) ((k : Int) - ((0 : Nat) : Int) - 53) = (k : Int) - 53 := by omega
  have hwide : n * Nat.pow 2 (53 - k) = 2 * (2 ^ 52 + fraction) := by
    rw [← hn, Nat.pow_eq, show 53 - k = 52 - k + 1 by omega, Nat.pow_succ]
    ac_rfl
  have hexact : n * Nat.pow 2 (52 - k) = 2 ^ 52 + fraction := hn
  have hover : ¬ 2 * (2 ^ 52 + fraction) < Nat.pow 2 53 := by rw [Nat.pow_eq]; omega
  have hfits : 2 ^ 52 + fraction < Nat.pow 2 53 := by rw [Nat.pow_eq]; omega
  have e₁ : (-((k : Int) - 53)).toNat = 53 - k := by omega
  have e₂ : (-((k : Int) - 53 + 1)).toNat = 52 - k := by omega
  have e₃ : ((k : Int) - 53).toNat = 0 := by omega
  have e₄ : ((k : Int) - 53 + 1).toNat = 0 := by omega
  have e₅ : ((k : Int) - 53 + 1 + 1074).toNat = k + 1022 := by omega
  have hunit : 1 * Nat.pow 2 0 = 1 := by decide
  simp only [hguess, e₁, e₂, e₃, e₄, hunit, hwide, hexact, Nat.div_one, hover, hfits, decide_false, decide_true,
    Bool.false_eq_true, if_false, if_true, e₅, roundToEven_one]
  rw [infiniteMagnitude, Nat.pow_eq, Nat.min_eq_right (by omega)]
  omega

theorem two_pow_units {e : Nat} (h : e = 1074) : 2 ^ e = unitsPerOne := by
  unfold unitsPerOne
  rw [← h, Nat.pow_eq]

theorem unitsPerOne_pos : 0 < unitsPerOne := by
  obtain ⟨e, he⟩ : ∃ e, e = 1074 := ⟨_, rfl⟩
  rw [← two_pow_units he]
  exact Nat.two_pow_pos e

/-- A natural number below `2 ^ 53` is a number. -/
theorem ofNat_exact {n : Nat} (h : n < 2 ^ 53) :
    (ofNat n).isFinite = true ∧ (ofNat n).negative = false ∧ (ofNat n).absUnits = n * unitsPerOne := by
  rcases Nat.eq_zero_or_pos n with rfl | h₀
  · rw [Nat.zero_mul]
    decide
  obtain ⟨hlog, fraction, hf, hn⟩ := exists_fraction h₀.ne' h
  have hbits : (ofNat n).bits.toNat = (n.log2 + 1023) * 2 ^ 52 + fraction := by
    rw [ofNat, ofRatio, ofMagnitude, nearestMagnitude_one h₀.ne' hlog hf hn]
    simp only [Bool.false_eq_true, if_false, UInt64.toNat_ofNat']
    exact Nat.mod_eq_of_lt (by omega)
  generalize n.log2 = k at *
  have hmagnitude : (ofNat n).magnitude = (k + 1023) * 2 ^ 52 + fraction := by
    rw [magnitude, hbits, Nat.pow_eq]
    exact Nat.mod_eq_of_lt (by omega)
  refine ⟨?_, ?_, ?_⟩
  · rw [isFinite, hmagnitude, infiniteMagnitude, decide_eq_true_eq, Nat.pow_eq]
    omega
  · rw [negative, hbits, decide_eq_false_iff_not, Nat.pow_eq]
    omega
  · have hexponent : ((k + 1023) * 2 ^ 52 + fraction) / 2 ^ 52 = k + 1023 := by omega
    have hfraction : ((k + 1023) * 2 ^ 52 + fraction) % 2 ^ 52 = fraction := by omega
    have hunits : 52 - k + (k + 1023 - 1) = 1074 := by omega
    simp only [absUnits, hmagnitude, Nat.pow_eq, hexponent, hfraction]
    rw [if_neg (Nat.succ_ne_zero _), ← hn, Nat.mul_assoc, ← Nat.pow_add, two_pow_units hunits]

end Number

/-- A length below `2 ^ 53` is read off the value that tells it. -/
theorem Value.asIndex_ofNat {n : Nat} (h : n < 2 ^ 53) : (Value.ofNat n).asIndex = some n := by
  obtain ⟨hfinite, hsign, hunits⟩ := Number.ofNat_exact h
  have hwhole : (Number.ofNat n).isWhole = true := by
    rw [Number.isWhole, hfinite, hunits, Nat.mul_mod_left]
    rfl
  have hpart : (Number.ofNat n).wholePart = n := by rw [Number.wholePart, hunits, Nat.mul_div_cancel _ Number.unitsPerOne_pos]
  have hmax : n ≤ maxIndex := by
    rw [maxIndex, Nat.pow_eq]
    omega
  simp [Value.ofNat, Value.asIndex, hwhole, hsign, hpart, hmax]

/-! ## The span covers what changes -/

/-- The contents differ at most within the affected span, and the span ends within the longer of the two; when the length
stays, within both. -/
structure Edit.Covered (items : List Value) (e : Edit) : Prop where
  index_le : e.announced.index ≤ items.length
  before : e.result.take e.announced.index = items.take e.announced.index
  after : e.result.drop (e.announced.index + (e.change items).spanLength) =
    items.drop (e.announced.index + (e.change items).spanLength)
  within : e.result.length = items.length → e.announced.index + (e.change items).spanLength ≤ e.result.length

/-- The affected span of a replacement covers every place where the contents differ. -/
theorem Edit.Replaces.covered {items : List Value} {e : Edit} (h : e.Replaces items) : e.Covered items := by
  have hlength : e.result.length = _ := h.result ▸ replaceRun_length h.fits e.reported.added
  have hfits := h.fits
  have hindex : (items.take e.announced.index).length = e.announced.index := List.length_take_of_le (by rw [h.index]; omega)
  refine ⟨by rw [h.index]; omega, ?_, ?_, fun hsame => ?_⟩
  · rw [h.result, ← h.index, replaceRun, List.append_assoc, List.take_append_of_le_length hindex.ge, List.take_take,
      Nat.min_self]
  · simp only [Edit.change]
    split
    · rename_i hsame
      -- As much came in as went out, so the rest stands where it stood.
      have hadded : e.announced.added.length = e.reported.removed.length := by rw [h.added]; omega
      rw [hadded, h.result, ← h.index, replaceRun]
      refine List.drop_left' ?_
      rw [List.length_append, hindex, ← h.added, hadded]
    · rw [List.drop_eq_nil_of_le (by omega), List.drop_eq_nil_of_le (by omega)]
  · rw [Edit.change, if_pos hsame, h.added, h.index]
    dsimp only
    omega

/-! ## The copy -/

namespace Replica

/-- A value is written at an index; a copy that is too short grows. -/
def write (index : Nat) (value : Value) (copy : List Value) : List Value :=
  (copy ++ List.replicate (index + 1 - copy.length) Value.undefined).set index value

/-- The copy is cut off at a length that is told. -/
def truncate (length : Value) (copy : List Value) : List Value := copy.take (length.asIndex.getD copy.length)

/-- What becomes of the copy by a notice: new values are written, a new length cuts off, everything else is passed over. -/
def follow (copy : List Value) (n : Notice) : List Value :=
  match n.topic, n.event with
  | .each, .item value index => write index value copy
  | .length, .value length => truncate length copy
  | _, _ => copy

theorem write_eq {index : Nat} {copy : List Value} (h : index ≤ copy.length) (value : Value) :
    write index value copy = copy.take index ++ value :: copy.drop (index + 1) := by
  have hgrown : index < (copy ++ List.replicate (index + 1 - copy.length) Value.undefined).length := by
    rw [List.length_append, List.length_replicate]
    omega
  rw [write, List.set_eq_take_append_cons_drop, if_pos hgrown, List.take_append_of_le_length h, List.drop_append,
    List.drop_replicate, Nat.sub_self, List.replicate_zero, List.append_nil]

theorem length_write (index : Nat) (value : Value) (copy : List Value) :
    (write index value copy).length = max copy.length (index + 1) := by
  rw [write, List.length_set, List.length_append, List.length_replicate]
  omega

theorem write_write (index : Nat) (value : Value) (copy : List Value) :
    write index value (write index value copy) = write index value copy := by
  have hgrown : index + 1 - (write index value copy).length = 0 := by rw [length_write]; omega
  conv_lhs => rw [write, hgrown, List.replicate_zero, List.append_nil]
  rw [write, List.set_set]

theorem truncate_truncate (length : Value) (copy : List Value) :
    truncate length (truncate length copy) = truncate length copy := by
  unfold truncate
  cases length.asIndex with
  | none => simp
  | some n => simp [List.take_take]

/-- Writing a run of values from a place within the copy puts them in the place of as many. -/
theorem follow_ofSpan (items copy : List Value) (index count : Nat) (h : index ≤ copy.length) :
    (Notice.ofSpan .each items index count).foldl follow copy =
      copy.take index ++ (List.range' index count).map (items.getD · .undefined) ++ copy.drop (index + count) := by
  induction count generalizing index copy with
  | zero => simp [Notice.ofSpan]
  | succ count ih =>
    have hstep : follow copy ⟨.each, .item (items.getD index .undefined) index⟩ =
        copy.take index ++ [items.getD index .undefined] ++ copy.drop (index + 1) :=
      (write_eq h _).trans (List.append_cons ..)
    have hwritten : (copy.take index ++ [items.getD index .undefined]).length = index + 1 := by
      rw [List.length_append, List.length_take_of_le h, List.length_singleton]
    rw [Notice.ofSpan_succ, List.foldl_cons, hstep, ih _ _ (by rw [List.length_append, hwritten]; omega),
      List.take_left' hwritten, List.drop_append, List.drop_eq_nil_of_le (by omega), List.nil_append, hwritten,
      Nat.add_sub_cancel_left, List.drop_drop, List.range'_succ, List.map_cons]
    simp only [List.append_assoc, List.singleton_append, Nat.add_assoc, Nat.add_comm 1 count]

/-- The values at a run of indices are a part of the list, and past its end there is nothing. -/
theorem map_getD_range' {items : List Value} {index : Nat} (h : index ≤ items.length) (count : Nat) :
    (List.range' index count).map (items.getD · .undefined) =
      (items.drop index).take count ++ List.replicate (index + count - items.length) .undefined := by
  refine List.ext_getElem ?_ fun i hi _ => ?_
  · simp only [List.length_map, List.length_range', List.length_append, List.length_take, List.length_drop,
      List.length_replicate]
    omega
  · rw [List.length_map, List.length_range'] at hi
    simp only [List.getElem_map, List.getElem_range', Nat.one_mul, List.getD_eq_getElem?_getD, List.getElem_append,
      List.length_take, List.length_drop, List.getElem_take, List.getElem_drop, List.getElem_replicate]
    split
    · rw [List.getElem?_eq_getElem (by omega), Option.getD_some]
    · rw [List.getElem?_eq_none (by omega), Option.getD_none]

/-- Where a list differs from the copy within a span only, writing the span makes the copy the list, and what the span
reaches further. -/
theorem follow_span {items copy : List Value} {index count : Nat} (hindex : index ≤ items.length)
    (hcopy : index ≤ copy.length) (before : items.take index = copy.take index)
    (after : items.drop (index + count) = copy.drop (index + count)) :
    (Notice.ofSpan .each items index count).foldl follow copy =
      items ++ List.replicate (index + count - items.length) .undefined := by
  rw [follow_ofSpan items copy index count hcopy, map_getD_range' hindex, ← before, ← after]
  rcases Nat.le_total items.length (index + count) with hlong | hshort
  · have hrest : (items.drop index).length ≤ count := by
      rw [List.length_drop]
      omega
    rw [List.drop_eq_nil_of_le hlong, List.append_nil, List.take_of_length_le hrest, ← List.append_assoc,
      List.take_append_drop]
  · rw [Nat.sub_eq_zero_of_le hshort, List.replicate_zero, List.append_nil, List.append_nil, ← List.drop_drop,
      List.append_assoc, List.take_append_drop, List.take_append_drop]

/-- What is told before an edit leaves the copy alone. -/
theorem follow_opening (items copy : List Value) (e : Edit) : (e.opening items).foldl follow copy = copy := by
  have span : ∀ index count, (Notice.ofSpan .beforeEach items index count).foldl follow copy = copy := by
    intro index count
    induction count generalizing index with
    | zero => rfl
    | succ count ih =>
      rw [Notice.ofSpan_succ]
      exact ih _
  rw [Edit.opening, List.foldl_append, List.foldl_cons, Notice.ofLength]
  split <;> exact span _ _

/-- What is told of an edit makes a copy of the items one of the result. -/
theorem follow_notices {items : List Value} {e : Edit} (hc : e.Covered items) (hsize : e.result.length < 2 ^ 53) :
    (e.notices items).foldl follow items = e.result := by
  have hindex : e.announced.index ≤ e.result.length := by
    have htake := congrArg List.length hc.before
    rw [List.length_take, List.length_take] at htake
    have := hc.index_le
    omega
  have hspan : (Notice.ofSpan .each e.result (e.change items).index _).foldl follow items = _ :=
    follow_span hindex hc.index_le hc.before hc.after
  rw [Edit.notices, List.foldl_append, follow_opening, Edit.closing, List.foldl_append, List.foldl_cons, hspan,
    Notice.ofLength]
  by_cases hsame : (e.change items).oldLength = (e.change items).newLength
  · have hpad : (e.change items).index + (e.change items).spanLength - e.result.length = 0 :=
      Nat.sub_eq_zero_of_le (hc.within hsame.symm)
    rw [if_pos hsame, hpad]
    exact List.append_nil _
  · rw [if_neg hsame]
    change truncate (Value.ofNat e.result.length) _ = _
    rw [truncate, Value.asIndex_ofNat hsize, Option.getD_some]
    exact List.take_left

/-! ## The listeners that keep the copy -/

section

variable {κ ε σ : Type}

/-- A callback listens to a topic, and to no other. -/
structure ListensTo (who : κ) (topic : ListTopic) (ls : List (Listener ListTopic κ)) : Prop where
  registered : ∃ x ∈ ls, x.callback = who
  only : ∀ x ∈ ls, x.callback = who → x.topic = topic

/-- The callbacks of a notice are those of its topic, and what each is told is its event. -/
theorem calls_eq (ls : List (Listener ListTopic κ)) (n : Notice) :
    n.calls ls = ((Listeners.on n.topic ls).map (·.callback)).map (·, n.event) := by
  rw [Notice.calls, List.map_map]
  rfl

theorem ListensTo.called_iff {who : κ} {own : ListTopic} {ls : List (Listener ListTopic κ)} (h : ListensTo who own ls)
    (topic : ListTopic) : who ∈ (Listeners.on topic ls).map (·.callback) ↔ topic = own := by
  simp only [List.mem_map, Listeners.on, List.mem_filter, decide_eq_true_eq]
  constructor
  · rintro ⟨x, ⟨hx, rfl⟩, hwho⟩
    exact h.only x hx hwho
  · rintro rfl
    obtain ⟨x, hx, hwho⟩ := h.registered
    exact ⟨x, ⟨hx, h.only x hx hwho⟩, hwho⟩

variable [DecidableEq κ]

/-- The callback `item` writes what it is told of items, the callback `size` cuts off at what it is told of the length. -/
def hear (item size callback : κ) (e : Event) (copy : List Value) : List Value :=
  match e with
  | .item value index => if callback = item then write index value copy else copy
  | .value length => if callback = size then truncate length copy else copy
  | _ => copy

/-- Several calls of one callback do what one does, when doing it twice is doing it once. -/
theorem callAll_once {k : κ} {e : Event} {hear : κ → Event → σ → σ} {g : σ → σ} (hg : ∀ s, g (g s) = g s)
    (hhear : ∀ callback s, hear callback e s = if callback = k then g s else s) (callbacks : List κ) (s : σ) :
    Notice.callAll hear (callbacks.map (·, e)) s = if k ∈ callbacks then g s else s := by
  induction callbacks generalizing s with
  | nil => rfl
  | cons callback callbacks ih =>
    have hstep : Notice.callAll hear ((callback :: callbacks).map (·, e)) s =
        Notice.callAll hear (callbacks.map (·, e)) (hear callback e s) := rfl
    rw [hstep, ih, hhear]
    by_cases hc : callback = k
    · subst hc
      by_cases hm : callback ∈ callbacks <;> simp [hm, hg]
    · simp [hc, Ne.symm hc]

variable {item size : κ} {ls : List (Listener ListTopic κ)}

/-- What becomes of the copy when the listeners hear a notice. -/
theorem callAll_hear (hitem : ListensTo item .each ls) (hsize : ListensTo size .length ls) (n : Notice)
    (copy : List Value) : Notice.callAll (hear item size) (n.calls ls) copy = follow copy n := by
  obtain ⟨topic, event⟩ := n
  rw [calls_eq]
  cases event with
  | item value index =>
    rw [callAll_once (write_write index value) fun _ _ => rfl, if_congr (hitem.called_iff topic) rfl rfl]
    cases topic <;> rfl
  | value length =>
    rw [callAll_once (truncate_truncate length) fun _ _ => rfl, if_congr (hsize.called_iff topic) rfl rfl]
    cases topic <;> rfl
  | content added removed index =>
    rw [callAll_once (k := item) (g := id) (fun _ => rfl) fun _ _ => (ite_self _).symm, id, ite_self]
    cases topic <;> rfl
  | entry key value =>
    rw [callAll_once (k := item) (g := id) (fun _ => rfl) fun _ _ => (ite_self _).symm, id, ite_self]
    cases topic <;> rfl

theorem heard_hear (hitem : ListensTo item .each ls) (hsize : ListensTo size .length ls) (ns : List Notice)
    (copy : List Value) : Notice.heard (hear item size) ls ns copy = ns.foldl follow copy := by
  induction ns generalizing copy with
  | nil => rfl
  | cons n ns ih =>
    rw [List.foldl_cons, ← callAll_hear hitem hsize]
    exact ih _

/-! ## The copy is the contents -/

/-- After every operation the copy is the contents, and from there on it goes on like this; as long as the length is told
exactly. -/
def Follows (R : Reactions κ ε) (l : ListId) (copy : ε → List Value) : List (ListOperation κ ε) → World κ ε → Prop
  | [], _ => True
  | op :: ops, w => (op.run R l).Ends w fun _ w' => (w'.listCell l).items.length < 2 ^ 53 →
      copy w'.env = (w'.listCell l).items ∧ Follows R l copy ops w'

/-- One operation. -/
theorem follows_step {R : Reactions κ ε} {l : ListId} {copy : ε → List Value} {w : World κ ε}
    (hR : R.Watches l copy (hear item size)) (h : l.Exists w) (hd : w.depth < w.config.maxDispatchDepth)
    (hitem : ListensTo item .each (w.listCell l).listeners) (hsize : ListensTo size .length (w.listCell l).listeners)
    (start : copy w.env = (w.listCell l).items) (op : ListOperation κ ε) :
    (op.run R l).Ends w fun _ w' => l.Exists w' ∧ w'.depth = w.depth ∧ w'.config = w.config ∧
      (w'.listCell l).listeners = (w.listCell l).listeners ∧
      ((w'.listCell l).items.length < 2 ^ 53 → copy w'.env = (w'.listCell l).items) := by
  refine (op.run_notices hR h rfl rfl hd).imp ?_
  rintro _ w' ⟨w₁, -, t⟩
  have hitems : (w'.listCell l).items = op.result w₁ (w.listCell l).items := congrArg ListCell.items t.cell
  refine ⟨t.stays h, t.depth, t.config, by rw [t.cell], fun hlength => ?_⟩
  rw [t.view, heard_hear hitem hsize, start, hitems]
  rw [hitems] at hlength
  unfold ListOperation.notices ListOperation.result at *
  cases he : op.edit? w₁ (w.listCell l).items with
  | none => rfl
  | some e =>
    rw [he] at hlength
    exact follow_notices (ListOperation.edit?_replaces he).covered hlength

/-- A copy that writes the values it is told at their indices, and cuts off at the lengths it is told, is the contents
after every one of any operations, when no listener changes the list. -/
theorem follows {R : Reactions κ ε} {l : ListId} {copy : ε → List Value} {w : World κ ε}
    (hR : R.Watches l copy (hear item size)) (h : l.Exists w) (hd : w.depth < w.config.maxDispatchDepth)
    (hitem : ListensTo item .each (w.listCell l).listeners) (hsize : ListensTo size .length (w.listCell l).listeners)
    (start : copy w.env = (w.listCell l).items) (ops : List (ListOperation κ ε)) : Follows R l copy ops w := by
  induction ops generalizing w with
  | nil => trivial
  | cons op ops ih =>
    refine (follows_step hR h hd hitem hsize start op).imp ?_
    rintro _ w' ⟨h', hdepth, hconfig, hls, hcopy⟩ hlength
    refine ⟨hcopy hlength, ih h' ?_ ?_ ?_ (hcopy hlength)⟩
    · rw [hdepth, hconfig]
      exact hd
    · rw [hls]
      exact hitem
    · rw [hls]
      exact hsize

end

/-- Callbacks that are named by a topic, and keep a copy in what they are told of items and of the length. -/
def reactions : Reactions ListTopic (List Value) where
  fire callback e := modify fun w => { w with env := hear .each .length callback e w.env }

theorem reactions_watches (l : ListId) : reactions.Watches l id (hear .each .length) :=
  ⟨fun _ _ _ => ⟨rfl, id, rfl, rfl, rfl⟩, fun _ => ⟨rfl, id, rfl, rfl, rfl⟩⟩

/-- A list of three items that is followed, with a listener for every topic, two for new values. -/
def followed : World ListTopic (List Value) where
  lists := #[{
    items := [.bool true, .bool false, .null]
    listeners := [⟨⟨0⟩, .each, .each⟩, ⟨⟨1⟩, .content, .content⟩, ⟨⟨2⟩, .beforeEach, .beforeEach⟩, ⟨⟨3⟩, .each, .each⟩,
      ⟨⟨4⟩, .beforeContent, .beforeContent⟩, ⟨⟨5⟩, .length, .length⟩, ⟨⟨6⟩, .beforeLength, .beforeLength⟩] }]
  env := [.bool true, .bool false, .null]

/-- The contents shrink, grow past their end and are turned round. -/
theorem follows_three :
    (⟨0⟩ : ListId).Exists followed ∧ followed.depth < followed.config.maxDispatchDepth ∧
      ListensTo .each .each (followed.listCell ⟨0⟩).listeners ∧
      ListensTo .length .length (followed.listCell ⟨0⟩).listeners ∧ id followed.env = (followed.listCell ⟨0⟩).items ∧
      Follows reactions ⟨0⟩ id [.splice 1 5 [.undefined], .set 3 (.bool true), .reverse] followed := by
  have exists₀ : (⟨0⟩ : ListId).Exists followed := Nat.one_pos
  have below : followed.depth < followed.config.maxDispatchDepth := by decide
  have item : ListensTo .each .each (followed.listCell ⟨0⟩).listeners := ⟨by decide, by decide⟩
  have size : ListensTo .length .length (followed.listCell ⟨0⟩).listeners := ⟨by decide, by decide⟩
  have start : id followed.env = (followed.listCell ⟨0⟩).items := rfl
  refine ⟨exists₀, below, item, size, start, ?_⟩
  generalize followed = w at exists₀ below item size start ⊢
  exact follows (reactions_watches ⟨0⟩) exists₀ below item size start _

end Replica

end LiveBindings
