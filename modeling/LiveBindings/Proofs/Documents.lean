import LiveBindings.Json.Document
import LiveBindings.Json.Printer
import Mathlib.Data.List.TakeWhile
import Mathlib.Tactic.SplitIfs

/-!
# Reading back JSON text

What the compact printer writes is read as one document, whatever follows it (`Document.Written`). Texts are written and read
back character by character, numbers in one piece: a number that reads back on its own reads back inside a document, since
the characters that may follow it there do not extend it (`Document.Closes`). Judging that document gives the value that was
written, exactly when its nesting is within the limit (`Json.toJson?_document`).
-/

namespace LiveBindings

namespace Document

variable {cs rest : List Char} {c : Char}

/-! ## Numbers -/

/-- Nothing follows, or a character that extends no number. -/
def Closes (rest : List Char) : Prop :=
  ∀ c ∈ rest.head?, c.isDigit = false ∧ c ≠ '.' ∧ c ≠ 'e' ∧ c ≠ 'E' ∧ c ≠ '-' ∧ c ≠ '+'

theorem closes_nil : Closes [] := by simp [Closes]

theorem closes_cons : Closes (c :: cs) ↔ Closes [c] := by simp [Closes]

theorem closes_mark (h : c = ',' ∨ c = ']' ∨ c = '}') : Closes (c :: cs) := by
  rw [closes_cons]
  rcases h with rfl | rfl | rfl <;> simp [Closes]

theorem spanDigits_append (hr : Closes rest) :
    Number.spanDigits (cs ++ rest) = ((Number.spanDigits cs).1, (Number.spanDigits cs).2 ++ rest) := by
  induction cs with
  | nil =>
    cases rest with
    | nil => rfl
    | cons c rest => simp [Number.spanDigits, (hr c rfl).1]
  | cons c cs ih =>
    simp only [Number.spanDigits, Prod.mk.injEq] at ih
    cases hc : c.isDigit with
    | true => simp [Number.spanDigits, hc, ih]
    | false => simp [Number.spanDigits, hc]

theorem spanDigits_eq (h : ∀ c ∈ cs, c.isDigit = true) : Number.spanDigits cs = (cs, []) :=
  Prod.ext (List.takeWhile_eq_self_iff.2 h) (List.dropWhile_eq_nil_iff.2 h)

theorem splitSign_append (hcs : cs ≠ []) :
    splitSign (cs ++ rest) = ((splitSign cs).1, (splitSign cs).2 ++ rest) := by
  cases cs with
  | nil => exact absurd rfl hcs
  | cons c cs => by_cases h : c = '-' <;> simp [splitSign, h]

theorem splitWhole_append (hr : Closes rest) :
    splitWhole (cs ++ rest) = ((splitWhole cs).1, (splitWhole cs).2 ++ rest) := by
  cases cs with
  | nil =>
    cases rest with
    | nil => rfl
    | cons c rest =>
      have hd := (hr c rfl).1
      have hc : c ≠ '0' := by rintro rfl; cases hd
      simp [splitWhole, hc, Number.spanDigits, hd]
  | cons c cs =>
    by_cases h : c = '0'
    · simp [splitWhole, h]
    · have hspan : Number.spanDigits (c :: cs ++ rest) = _ := spanDigits_append hr
      simpa [splitWhole, h] using hspan

theorem readFraction?_append (hr : Closes rest) :
    readFraction? (cs ++ rest) = (readFraction? cs).map fun p => (p.1, p.2 ++ rest) := by
  cases cs with
  | nil =>
    cases rest with
    | nil => rfl
    | cons c rest => simp [readFraction?, (hr c rfl).2.1]
  | cons c cs =>
    by_cases h : c = '.'
    · subst h
      simp only [List.cons_append, readFraction?, spanDigits_append hr]
      split <;> simp
    · simp [readFraction?, h]

theorem splitDirection_append (hr : Closes rest) :
    splitDirection (cs ++ rest) = ((splitDirection cs).1, (splitDirection cs).2 ++ rest) := by
  cases cs with
  | nil =>
    cases rest with
    | nil => rfl
    | cons c rest => simp [splitDirection, (hr c rfl).2.2.2.2.1, (hr c rfl).2.2.2.2.2]
  | cons c cs =>
    by_cases h : c = '-'
    · simp [splitDirection, h]
    · by_cases h' : c = '+' <;> simp [splitDirection, h, h']

theorem readExponent?_append (hr : Closes rest) :
    readExponent? (cs ++ rest) = (readExponent? cs).map fun p => (p.1, p.2 ++ rest) := by
  cases cs with
  | nil =>
    cases rest with
    | nil => rfl
    | cons c rest => simp [readExponent?, (hr c rfl).2.2.1, (hr c rfl).2.2.2.1]
  | cons c cs =>
    by_cases h : c = 'e' ∨ c = 'E'
    · have hm : (decide (c = 'e') || decide (c = 'E')) = true := by simpa using h
      simp only [List.cons_append, readExponent?, hm, if_true, splitDirection_append hr, spanDigits_append hr]
      split <;> rfl
    · simp [readExponent?, h]

/-- What follows a number is left alone. -/
theorem readNumber_append (hcs : cs ≠ []) (hr : Closes rest) :
    readNumber (cs ++ rest) = (readNumber cs).map fun p => (p.1, p.2 ++ rest) := by
  have hhead (r : List Char) : (r ++ rest).head?.any Char.isDigit = r.head?.any Char.isDigit := by
    cases r with
    | nil =>
      cases rest with
      | nil => rfl
      | cons c rest => simp [(hr c rfl).1]
    | cons c r => rfl
  simp only [readNumber, splitSign_append hcs, splitWhole_append hr, hhead, readFraction?_append hr]
  split
  · rfl
  · cases readFraction? (splitWhole (splitSign cs).2).2 with
    | none => rfl
    | some fraction =>
      simp only [Option.map_some, Option.bind_some, readExponent?_append hr, Option.map_map]
      rfl

/-- A number starts with a digit or a minus sign. -/
theorem head_of_readNumber {p : NumberText × List Char} (h : readNumber (c :: cs) = some p) :
    c = '-' ∨ c.isDigit = true := by
  by_contra hc
  obtain ⟨hm, hd⟩ := not_or.1 hc
  have h0 : c ≠ '0' := by rintro rfl; exact hd rfl
  have hs : splitSign (c :: cs) = (false, c :: cs) := by simp [splitSign, hm]
  have hw : (splitWhole (c :: cs)).1 = [] := by simp [splitWhole, h0, Number.spanDigits, hd]
  rw [readNumber, hs] at h
  simp [hw] at h

end Document

/-! ## Numbers that read back -/

namespace JsonNumber

/-- Reads a number from the whole of a text. -/
def read? (cs : List Char) : Option JsonNumber :=
  (Document.readNumber cs).bind fun p => if p.2.isEmpty then p.1.toJson? else none

/-- A number that the format has: an integer in its range, or a double whose text reads back as it. -/
def Legible : JsonNumber → Prop
  | natural n => n < NumberText.digitBound
  | negative n => 0 < n ∧ n ≤ Nat.pow 2 63
  | float x => read? (float x).render = some (float x)

/-- The digits in which a number is written. -/
def written (n : JsonNumber) : NumberText :=
  match Document.readNumber n.render with
  | some p => p.1
  | none => ⟨false, [], [], none⟩

theorem le_ofDigitChars (cs : List Char) (acc : Nat) : acc ≤ Nat.ofDigitChars 10 cs acc := by
  induction cs generalizing acc with
  | nil => simp
  | cons c cs ih =>
    rw [Nat.ofDigitChars_cons]
    exact le_trans (by omega) (ih _)

/-- Digits whose value is in range are all collected. -/
theorem collect_eq {cs : List Char} {acc : Nat} (h : Nat.ofDigitChars 10 cs acc < NumberText.digitBound) :
    NumberText.collect acc cs = (Nat.ofDigitChars 10 cs acc, []) := by
  induction cs generalizing acc with
  | nil => simp [NumberText.collect]
  | cons c cs ih =>
    rw [Nat.ofDigitChars_cons] at h ⊢
    have hz : '0'.toNat = 48 := rfl
    have hacc : acc * 10 + (c.toNat - '0'.toNat) = 10 * acc + (c.toNat - '0'.toNat) := by omega
    have hlt := lt_of_le_of_lt (le_ofDigitChars cs _) h
    simp only [NumberText.collect, hacc, hlt, if_true]
    exact ih h

theorem isDigit_of_mem_toDigits {n : Nat} {c : Char} (h : c ∈ Nat.toDigits 10 n) : c.isDigit = true :=
  Nat.isDigit_of_mem_toDigits (by decide) (by decide) h

/-- Only zero is written with a leading zero. -/
theorem head_toDigits {n : Nat} (h : 0 < n) : (Nat.toDigits 10 n).head? ≠ some '0' := by
  induction n using Nat.strongRecOn with
  | _ n ih =>
    by_cases hn : n < 10
    · rw [Nat.toDigits_of_lt_base hn]
      simp only [List.head?_cons, ne_eq, Option.some.injEq, Nat.digitChar_eq_zero]
      omega
    · rw [Nat.toDigits_of_base_le (by decide) (by omega), List.head?_append, Option.or_of_isSome]
      · exact ih (n / 10) (by omega) (by omega)
      · exact List.isSome_head?.2 Nat.toDigits_ne_nil

theorem splitWhole_toDigits (n : Nat) : Document.splitWhole (Nat.toDigits 10 n) = (Nat.toDigits 10 n, []) := by
  rcases Nat.eq_zero_or_pos n with rfl | hn
  · rw [Nat.toDigits_zero]
    rfl
  · have hspan := Document.spanDigits_eq fun c hc => isDigit_of_mem_toDigits (n := n) hc
    have hhead := head_toDigits hn
    cases hd : Nat.toDigits 10 n with
    | nil => exact absurd hd Nat.toDigits_ne_nil
    | cons c cs =>
      rw [hd] at hspan hhead
      have hc : c ≠ '0' := fun h => hhead (congrArg some h)
      simp [Document.splitWhole, hc, hspan]

theorem splitSign_toDigits (n : Nat) : Document.splitSign (Nat.toDigits 10 n) = (false, Nat.toDigits 10 n) := by
  cases hd : Nat.toDigits 10 n with
  | nil => rfl
  | cons c cs =>
    have hc : c ≠ '-' := by
      rintro rfl
      exact absurd (isDigit_of_mem_toDigits (n := n) (hd ▸ List.mem_cons_self)) (by decide)
    simp [Document.splitSign, hc]

/-- An integer is read as its digits. -/
theorem readNumber_signed {cs : List Char} {b : Bool} {n : Nat}
    (h : Document.splitSign cs = (b, Nat.toDigits 10 n)) :
    Document.readNumber cs = some (⟨b, Nat.toDigits 10 n, [], none⟩, []) := by
  simp [Document.readNumber, h, splitWhole_toDigits, Document.readFraction?, Document.readExponent?,
    Nat.toDigits_ne_nil]

theorem collect_toDigits {n : Nat} (h : n < NumberText.digitBound) :
    NumberText.collect 0 (Nat.toDigits 10 n) = (n, []) := by
  rw [collect_eq (by simpa using h), Nat.ofDigitChars_ten_toDigits]

theorem Legible.read?_render {n : JsonNumber} (h : n.Legible) : read? n.render = some n := by
  cases n with
  | natural n =>
    simp [read?, render, readNumber_signed (splitSign_toDigits n), NumberText.toJson?, collect_toDigits h]
  | negative n =>
    obtain ⟨hpos, hle⟩ := h
    have hlt : n < NumberText.digitBound := lt_of_le_of_lt hle (by decide)
    have hsign : Document.splitSign ('-' :: Nat.toDigits 10 n) = (true, Nat.toDigits 10 n) := rfl
    simp [read?, render, readNumber_signed hsign, NumberText.toJson?, collect_toDigits hlt, hpos.ne', not_lt.2 hle]
  | float x => exact h

/-- The digits of a number are read from its text, and make the number. -/
theorem Legible.written {n : JsonNumber} (h : n.Legible) :
    Document.readNumber n.render = some (n.written, []) ∧ n.written.toJson? = some n := by
  have hr := h.read?_render
  unfold JsonNumber.written
  unfold read? at hr
  cases hn : Document.readNumber n.render with
  | none => simp [hn] at hr
  | some p =>
    obtain ⟨t, rest⟩ := p
    simp only [hn, Option.bind_some] at hr
    cases rest with
    | nil => exact ⟨rfl, by simpa using hr⟩
    | cons c rest => simp at hr

end JsonNumber

namespace Document

variable {cs v rest : List Char} {d : Document}

/-! ## Texts -/

/-- How a character is read that was written in a text. -/
def pieceOf (c : Char) : Piece :=
  if c.toNat < 0x20 && !(c.toNat = 0x8 || c.toNat = 0x9 || c.toNat = 0xA || c.toNat = 0xC || c.toNat = 0xD) then
    .unit c.toNat
  else .char c

theorem hexDigit?_digitChar : ∀ n < 16, hexDigit? (Nat.digitChar n) = some n := by decide

theorem readPieces_escape {e c : Char} (he : shortEscape? e = some c) (cs : List Char) :
    readPieces ('\\' :: e :: cs) = (readPieces cs).map fun p => (.char c :: p.1, p.2) := by
  have hu : e ≠ 'u' := by rintro rfl; cases he
  rw [readPieces]
  · cases readPieces cs <;> simp [he]
  · rintro a b c d cs' rfl; exact absurd rfl hu

theorem readPieces_char {c : Char} (hq : c ≠ '"') (hb : c ≠ '\\') (hc : ¬c.toNat < 0x20) (cs : List Char) :
    readPieces (c :: cs) = (readPieces cs).map fun p => (.char c :: p.1, p.2) := by
  rw [readPieces]
  · cases readPieces cs <;> simp [hb, hc]
  all_goals simp [hq, hb]

theorem readPieces_control (c : Char) (hc : c.toNat < 0x20) (cs : List Char) :
    readPieces (Json.controlEscape c.toNat ++ cs) = (readPieces cs).map fun p => (.unit c.toNat :: p.1, p.2) := by
  have hhigh := hexDigit?_digitChar (c.toNat / 16) (by omega)
  have hlow := hexDigit?_digitChar (c.toNat % 16) (by omega)
  have hzero : hexDigit? '0' = some 0 := rfl
  have hn : c.toNat / 16 * 16 + c.toNat % 16 = c.toNat := Nat.div_add_mod' _ _
  simp only [Json.controlEscape, List.cons_append, List.nil_append, readPieces, hhigh, hlow, hzero]
  cases readPieces cs <;> simp [hn]

theorem readPieces_escapeChar (c : Char) (cs : List Char) :
    readPieces (Json.escapeChar c ++ cs) = (readPieces cs).map fun p => (pieceOf c :: p.1, p.2) := by
  have hchar (n : Nat) (e : Char) (h : c.toNat = n) (he : e.toNat = n) : c = e :=
    Char.toNat_inj.1 (h.trans he.symm) 
  unfold Json.escapeChar
  split_ifs with hq hb hc h8 h9 hA hC hD
  · subst hq; exact readPieces_escape rfl cs
  · subst hb; exact readPieces_escape rfl cs
  · obtain rfl := hchar 8 '\x08' h8 rfl
    exact readPieces_escape rfl cs
  · obtain rfl := hchar 9 '\x09' h9 rfl
    exact readPieces_escape rfl cs
  · obtain rfl := hchar 10 '\x0A' hA rfl
    exact readPieces_escape rfl cs
  · obtain rfl := hchar 12 '\x0C' hC rfl
    exact readPieces_escape rfl cs
  · obtain rfl := hchar 13 '\x0D' hD rfl
    exact readPieces_escape rfl cs
  · have hp : pieceOf c = .unit c.toNat := by simp [pieceOf, hc, h8, h9, hA, hC, hD]
    rw [hp, readPieces_control c hc]
  · have hp : pieceOf c = .char c := by simp [pieceOf, hc]
    rw [hp]
    exact readPieces_char hq hb hc cs

theorem joinPieces_pieceOf (c : Char) (ps : List Piece) :
    joinPieces (pieceOf c :: ps) = (joinPieces ps).map (c :: ·) := by
  unfold pieceOf
  split_ifs with h
  · have hc : c.toNat < 0xD800 := by
      simp only [Bool.and_eq_true, decide_eq_true_eq] at h
      omega
    rcases ps with _ | ⟨_ | _, ps⟩ <;> simp [joinPieces, hc]
  · rfl

theorem readPieces_text (s : List Char) (cs : List Char) :
    readPieces (s.flatMap Json.escapeChar ++ '"' :: cs) = some (s.map pieceOf, cs) := by
  induction s with
  | nil => rfl
  | cons c s ih =>
    rw [List.flatMap_cons, List.append_assoc, readPieces_escapeChar, ih]
    rfl

theorem joinPieces_text (s : List Char) : joinPieces (s.map pieceOf) = some s := by
  induction s with
  | nil => rfl
  | cons c s ih => rw [List.map_cons, joinPieces_pieceOf, ih, Option.map_some]

/-- A text is read back after its opening quote. -/
theorem readText_text (s : String) (cs : List Char) :
    readText (s.toList.flatMap Json.escapeChar ++ '"' :: cs) = some (some s, cs) := by
  simp [readText, readPieces_text, joinPieces_text]

theorem renderText_append (s : String) (cs : List Char) :
    Json.renderText s ++ cs = '"' :: (s.toList.flatMap Json.escapeChar ++ '"' :: cs) := by
  simp [Json.renderText]

/-! ## Values -/

/-- A text starts with a character that neither is skipped nor closes anything. -/
def Opens (cs : List Char) : Prop := ∃ c r, cs = c :: r ∧ isBlank c = false ∧ c ≠ ']' ∧ c ≠ '}'

/-- A text is read as a document, whatever follows it. -/
structure Written (cs : List Char) (d : Document) : Prop where
  opens : Opens cs
  reads : ∀ fuel rest, cs.length ≤ fuel → Closes rest → readValue fuel (cs ++ rest) = some (d, rest)

/-- A text is read as the items of an array, up to its closing bracket. -/
def WrittenItems (cs : List Char) (ds : List Document) : Prop :=
  ∀ fuel rest, cs.length ≤ fuel → readItems fuel (cs ++ rest) = some (ds, rest)

/-- A text is read as the members of an object, up to its closing brace. -/
def WrittenMembers (cs : List Char) (ms : List (Option String × Document)) : Prop :=
  ∀ fuel rest, cs.length ≤ fuel → readMembers fuel (cs ++ rest) = some (ms, rest)

theorem skipBlanks_cons {c : Char} (h : isBlank c = false) (cs : List Char) : skipBlanks (c :: cs) = c :: cs := by
  simp [skipBlanks, h]

theorem exists_fuel {n fuel : Nat} (h : n + 1 ≤ fuel) : ∃ m, fuel = m + 1 ∧ n ≤ m :=
  ⟨fuel - 1, by omega, by omega⟩

theorem written_null : Written "null".toList .null where
  opens := ⟨'n', "ull".toList, rfl, rfl, by decide, by decide⟩
  reads fuel rest hf _ := by
    obtain ⟨fuel, rfl, -⟩ := exists_fuel (n := 3) hf
    simp [readValue, skipBlanks, isBlank, dropWord?]

theorem written_bool (b : Bool) : Written (Json.render (.bool b)) (.bool b) := by
  cases b with
  | true =>
    refine ⟨⟨'t', "rue".toList, rfl, rfl, by decide, by decide⟩, fun fuel rest hf _ => ?_⟩
    obtain ⟨fuel, rfl, -⟩ := exists_fuel (n := 3) hf
    simp [Json.render, readValue, skipBlanks, isBlank, dropWord?]
  | false =>
    refine ⟨⟨'f', "alse".toList, rfl, rfl, by decide, by decide⟩, fun fuel rest hf _ => ?_⟩
    obtain ⟨fuel, rfl, -⟩ := exists_fuel (n := 4) hf
    simp [Json.render, readValue, skipBlanks, isBlank, dropWord?]

theorem written_text (s : String) : Written (Json.renderText s) (.text (some s)) where
  opens := ⟨'"', _, rfl, rfl, by decide, by decide⟩
  reads fuel rest hf _ := by
    obtain ⟨fuel, rfl, -⟩ := exists_fuel (n := 0) (le_trans (by simp [Json.renderText]) hf)
    rw [renderText_append, readValue, skipBlanks_cons rfl]
    simp [readText_text]

/-- A number starts with none of the characters that mean something else. -/
theorem ne_of_numeric {c e : Char} (hc : c = '-' ∨ c.isDigit = true) (he : e ≠ '-' ∧ e.isDigit = false) : c ≠ e := by
  rintro rfl
  rcases hc with rfl | hc
  · exact he.1 rfl
  · exact absurd hc (by simp [he.2])

theorem opens_number {c : Char} (hc : c = '-' ∨ c.isDigit = true) (cs : List Char) : Opens (c :: cs) := by
  have hne {e : Char} (he : e ≠ '-' ∧ e.isDigit = false) : c ≠ e := ne_of_numeric hc he
  refine ⟨c, cs, rfl, ?_, hne (by decide), hne (by decide)⟩
  simp only [isBlank, Bool.or_eq_false_iff, decide_eq_false_iff_not]
  exact ⟨⟨⟨hne (by decide), hne (by decide)⟩, hne (by decide)⟩, hne (by decide)⟩

theorem readValue_number {c : Char} (hc : c = '-' ∨ c.isDigit = true) (fuel : Nat) (cs : List Char) :
    readValue (fuel + 1) (c :: cs) = (readNumber (c :: cs)).map fun p => (.number p.1, p.2) := by
  have hne {e : Char} (he : e ≠ '-' ∧ e.isDigit = false) : c ≠ e := ne_of_numeric hc he
  obtain ⟨c', cs', h, hb, -⟩ := opens_number hc cs
  obtain ⟨rfl, rfl⟩ := List.cons.inj h
  rw [readValue, skipBlanks_cons hb]
  simp [hne (e := 'n') (by decide), hne (e := 't') (by decide), hne (e := 'f') (by decide), hne (e := '"') (by decide),
    hne (e := '[') (by decide), hne (e := '\x7b') (by decide)]

theorem written_number {cs : List Char} {t : NumberText} (h : readNumber cs = some (t, [])) :
    Written cs (.number t) := by
  cases cs with
  | nil => cases h
  | cons c cs =>
    have hc := head_of_readNumber h
    refine ⟨opens_number hc cs, fun fuel rest hf hr => ?_⟩
    obtain ⟨fuel, rfl, -⟩ := exists_fuel (n := cs.length) hf
    rw [List.cons_append, readValue_number hc, ← List.cons_append, readNumber_append (List.cons_ne_nil _ _) hr, h]
    rfl

theorem written_nothing : Written ['[', ']'] (.array []) where
  opens := ⟨'[', _, rfl, rfl, by decide, by decide⟩
  reads fuel rest hf _ := by
    obtain ⟨fuel, rfl, -⟩ := exists_fuel (n := 1) hf
    exact readValue_brackets fuel rest

theorem Opens.append (h : Opens cs) (rest : List Char) : Opens (cs ++ rest) := by
  obtain ⟨c, r, rfl, hc⟩ := h
  exact ⟨c, r ++ rest, rfl, hc⟩

theorem WrittenItems.last (h : Written v d) : WrittenItems (v ++ [']']) [d] := by
  intro fuel rest hf
  rw [List.length_append, List.length_singleton] at hf
  obtain ⟨fuel, rfl, hn⟩ := exists_fuel hf
  rw [List.append_assoc, readItems, List.cons_append, h.reads fuel _ hn (closes_mark (by simp))]
  simp [skipBlanks, isBlank]

theorem WrittenItems.cons {ds : List Document} (h : Written v d) (hs : WrittenItems cs ds) :
    WrittenItems (v ++ ',' :: cs) (d :: ds) := by
  intro fuel rest hf
  rw [List.length_append, List.length_cons] at hf
  obtain ⟨fuel, rfl, hn⟩ := exists_fuel (show v.length + cs.length + 1 ≤ fuel by omega)
  rw [List.append_assoc, readItems, List.cons_append, h.reads fuel _ (by omega) (closes_mark (by simp))]
  simp [skipBlanks, isBlank, hs fuel rest (by omega)]

theorem WrittenItems.array {ds : List Document} (ho : Opens cs) (hs : WrittenItems cs ds) :
    Written ('[' :: cs) (.array ds) := by
  refine ⟨⟨'[', _, rfl, rfl, by decide, by decide⟩, fun fuel rest hf _ => ?_⟩
  obtain ⟨fuel, rfl, hn⟩ := exists_fuel (n := cs.length) hf
  have hread := hs fuel rest hn
  obtain ⟨c, r, rfl, hb, hc, -⟩ := ho
  rw [List.cons_append, readValue, skipBlanks_cons rfl]
  rw [List.cons_append] at hread ⊢
  simp [skipBlanks_cons hb, hc, hread]

theorem written_empty : Written ['\x7b', '\x7d'] (.object []) where
  opens := ⟨'\x7b', _, rfl, rfl, by decide, by decide⟩
  reads fuel rest hf _ := by
    obtain ⟨fuel, rfl, -⟩ := exists_fuel (n := 1) hf
    exact readValue_braces fuel rest

/-- A member is read up to what follows its value. -/
theorem readMembers_member {fuel : Nat} (k : String) (h : Written v d) (hf : v.length ≤ fuel) (hr : Closes rest) :
    readMembers (fuel + 1) (Json.renderText k ++ ':' :: (v ++ rest)) =
      match skipBlanks rest with
      | '\x7d' :: rest => some ([(some k, d)], rest)
      | ',' :: rest => (readMembers fuel rest).bind fun p => some ((some k, d) :: p.1, p.2)
      | _ => none := by
  have hcolon (cs : List Char) : skipBlanks (':' :: cs) = ':' :: cs := skipBlanks_cons rfl cs
  rw [renderText_append, readMembers, skipBlanks_cons rfl]
  simp only [readText_text, Option.bind_eq_bind, Option.bind_some, hcolon, h.reads fuel rest hf hr] <;> rfl

theorem WrittenMembers.last (k : String) (h : Written v d) :
    WrittenMembers (Json.renderText k ++ ':' :: (v ++ ['\x7d'])) [(some k, d)] := by
  intro fuel rest hf
  simp only [List.length_append, List.length_cons, List.length_nil] at hf
  obtain ⟨fuel, rfl, hn⟩ := exists_fuel (show v.length + 1 ≤ fuel by omega)
  simp only [List.append_assoc, List.cons_append, List.nil_append]
  rw [readMembers_member k h hn (closes_mark (by simp)), skipBlanks_cons rfl]
  rfl

theorem WrittenMembers.cons {ms : List (Option String × Document)} (k : String) (h : Written v d)
    (hs : WrittenMembers cs ms) :
    WrittenMembers (Json.renderText k ++ ':' :: (v ++ ',' :: cs)) ((some k, d) :: ms) := by
  intro fuel rest hf
  simp only [List.length_append, List.length_cons] at hf
  obtain ⟨fuel, rfl, hn⟩ := exists_fuel (show v.length + cs.length + 1 ≤ fuel by omega)
  simp only [List.append_assoc, List.cons_append]
  rw [readMembers_member k h (by omega) (closes_mark (by simp)), skipBlanks_cons rfl]
  simp [hs fuel rest (by omega)]

theorem WrittenMembers.object {k : String} {ms : List (Option String × Document)}
    (hs : WrittenMembers (Json.renderText k ++ cs) ms) : Written ('\x7b' :: (Json.renderText k ++ cs)) (.object ms) := by
  refine ⟨⟨'\x7b', _, rfl, rfl, by decide, by decide⟩, fun fuel rest hf _ => ?_⟩
  obtain ⟨fuel, rfl, hn⟩ := exists_fuel (n := (Json.renderText k ++ cs).length) hf
  have hread := hs fuel rest hn
  rw [List.cons_append, readValue, skipBlanks_cons rfl]
  rw [List.append_assoc, renderText_append] at hread ⊢
  simp [skipBlanks, isBlank, hread]

end Document

/-! ## JSON values -/

namespace Json

mutual

/-- The document that a value is written as. -/
def document : Json → Document
  | null => .null
  | bool b => .bool b
  | number n => .number n.written
  | text s => .text (some s)
  | array vs => .array (documents vs)
  | object ms => .object (memberDocuments ms)

def documents : List Json → List Document
  | [] => []
  | v :: vs => v.document :: documents vs

def memberDocuments : List (String × Json) → List (Option String × Document)
  | [] => []
  | (k, v) :: ms => (some k, v.document) :: memberDocuments ms

end

mutual

/-- The format has the value: its numbers are legible, and the members of its objects are in ascending order, one per
key. -/
def Legible : Json → Prop
  | number n => n.Legible
  | array vs => LegibleItems vs
  | object ms => (ms.map (·.1)).Pairwise (fun j k => Ord.compare j k = .lt) ∧ LegibleMembers ms
  | _ => True

def LegibleItems : List Json → Prop
  | [] => True
  | v :: vs => v.Legible ∧ LegibleItems vs

def LegibleMembers : List (String × Json) → Prop
  | [] => True
  | (_, v) :: ms => v.Legible ∧ LegibleMembers ms

end

mutual

/-- How deep arrays and objects are nested in each other. -/
def nesting : Json → Nat
  | array vs => nestingItems vs + 1
  | object ms => nestingMembers ms + 1
  | _ => 0

def nestingItems : List Json → Nat
  | [] => 0
  | v :: vs => max v.nesting (nestingItems vs)

def nestingMembers : List (String × Json) → Nat
  | [] => 0
  | (_, v) :: ms => max v.nesting (nestingMembers ms)

end

open Document

mutual

/-- The compact text of a value is read as its document. -/
theorem written : ∀ {v : Json}, v.Legible → Written v.render v.document
  | null, _ => written_null
  | bool b, _ => written_bool b
  | number _, h => by
    rw [Legible] at h
    rw [render, document]
    exact written_number h.written.1
  | text s, _ => written_text s
  | array [], _ => written_nothing
  | array (v :: vs), h => by
    simp only [Legible, LegibleItems] at h
    rw [render, document]
    exact (writtenItems (written h.1) h.2).array ((written h.1).opens.append _)
  | object [], _ => written_empty
  | object ((k, v) :: ms), h => by
    simp only [Legible, LegibleMembers] at h
    rw [render, document]
    exact (writtenMembers k (written h.2.1) h.2.2).object

theorem writtenItems {cs : List Char} {d : Document} (h : Written cs d) : ∀ {vs : List Json}, LegibleItems vs →
    WrittenItems (cs ++ renderItems vs) (d :: documents vs)
  | [], _ => .last h
  | v :: vs, hs => by
    rw [LegibleItems] at hs
    rw [renderItems, documents]
    exact .cons h (writtenItems (written hs.1) hs.2)

theorem writtenMembers {cs : List Char} {d : Document} (k : String) (h : Written cs d) :
    ∀ {ms : List (String × Json)}, LegibleMembers ms →
      WrittenMembers (renderText k ++ ':' :: (cs ++ renderMembers ms)) ((some k, d) :: memberDocuments ms)
  | [], _ => .last k h
  | (k', v) :: ms, hs => by
    rw [LegibleMembers] at hs
    rw [renderMembers, memberDocuments]
    exact .cons k h (writtenMembers k' (written hs.1) hs.2)

end

/-! ## Judging what was read -/

/-- A member whose key is the greatest goes to the end. -/
theorem insertMember_end {k : String} {ms : List (String × Json)} (h : ∀ m ∈ ms, Ord.compare m.1 k = .lt) (v : Json) :
    insertMember k v ms = ms ++ [(k, v)] := by
  induction ms with
  | nil => rfl
  | cons m ms ih =>
    obtain ⟨j, u⟩ := m
    have hgt : Ord.compare k j = .gt := Std.OrientedCmp.gt_of_lt (h (j, u) List.mem_cons_self)
    simp [insertMember, hgt, ih fun m hm => h m (List.mem_cons_of_mem _ hm)]

theorem foldl_insertMember {acc ms : List (String × Json)}
    (h : ((acc ++ ms).map (·.1)).Pairwise fun j k => Ord.compare j k = .lt) :
    ms.foldl (fun acc m => insertMember m.1 m.2 acc) acc = acc ++ ms := by
  induction ms generalizing acc with
  | nil => simp
  | cons m ms ih =>
    obtain ⟨k, v⟩ := m
    have hk : ∀ m ∈ acc, Ord.compare m.1 k = .lt := by
      rw [List.map_append, List.pairwise_append] at h
      exact fun m hm => h.2.2 _ (List.mem_map_of_mem hm) k (by simp)
    rw [List.foldl_cons, insertMember_end hk, ih (by simpa using h)]
    simp

theorem ofMembers_sorted {ms : List (String × Json)}
    (h : (ms.map (·.1)).Pairwise fun j k => Ord.compare j k = .lt) : ofMembers ms = object ms := by
  rw [ofMembers, foldl_insertMember (by simpa using h), List.nil_append]

mutual

/-- Judging the document of a value gives the value, if its nesting is within the limit, and nothing otherwise. -/
theorem toJson?_document : ∀ {v : Json} (depth : Nat), v.Legible →
    v.document.toJson? depth = if v.nesting ≤ depth then some v else none
  | null, depth, _ => by simp [document, Document.toJson?, nesting]
  | bool b, depth, _ => by simp [document, Document.toJson?, nesting]
  | number _, depth, h => by
    rw [Legible] at h
    simp [document, Document.toJson?, nesting, h.written.2]
  | text s, depth, _ => by simp [document, Document.toJson?, nesting]
  | array vs, 0, _ => by simp [document, Document.toJson?, nesting]
  | array vs, depth + 1, h => by
    rw [Legible] at h
    simp only [document, Document.toJson?, nesting, Nat.add_le_add_iff_right, toJsonItems?_documents depth h]
    split <;> rfl
  | object ms, 0, _ => by simp [document, Document.toJson?, nesting]
  | object ms, depth + 1, h => by
    rw [Legible] at h
    simp only [document, Document.toJson?, nesting, Nat.add_le_add_iff_right, toJsonMembers?_documents depth h.2]
    split <;> simp [ofMembers_sorted h.1]

theorem toJsonItems?_documents : ∀ {vs : List Json} (depth : Nat), LegibleItems vs →
    toJsonItems? depth (documents vs) = if nestingItems vs ≤ depth then some vs else none
  | [], depth, _ => by simp [documents, toJsonItems?, nestingItems]
  | v :: vs, depth, h => by
    rw [LegibleItems] at h
    simp only [documents, toJsonItems?, nestingItems, toJson?_document depth h.1, toJsonItems?_documents depth h.2,
      Nat.max_le]
    by_cases h1 : v.nesting ≤ depth <;> by_cases h2 : nestingItems vs ≤ depth <;> simp [h1, h2]

theorem toJsonMembers?_documents : ∀ {ms : List (String × Json)} (depth : Nat), LegibleMembers ms →
    toJsonMembers? depth (memberDocuments ms) = if nestingMembers ms ≤ depth then some ms else none
  | [], depth, _ => by simp [memberDocuments, toJsonMembers?, nestingMembers]
  | (k, v) :: ms, depth, h => by
    rw [LegibleMembers] at h
    simp only [memberDocuments, toJsonMembers?, nestingMembers, toJson?_document depth h.1,
      toJsonMembers?_documents depth h.2, Nat.max_le]
    by_cases h1 : v.nesting ≤ depth <;> by_cases h2 : nestingMembers ms ≤ depth <;> simp [h1, h2]

end

end Json

end LiveBindings
