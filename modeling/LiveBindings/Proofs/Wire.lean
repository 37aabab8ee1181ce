import LiveBindings.Node.Wire
import LiveBindings.Proofs.Documents
import Mathlib.Data.List.Forall2

/-!
# Trees read back from the wire

Reading the text of a tree gives the tree, whatever mixture of sequences and named children it is made of: the members of a
node are told apart by their names, and its children by their bracket. Only a literal that is `null` cannot be told from an
absent one (`Node.withoutNulls`). The main statement is `Node.read_back`; `Node.read?_text` says beside it that nesting
beyond the limit is refused.
-/

namespace LiveBindings

open Document

namespace Node

/-! ## Trees that the format has -/

mutual

/-- Something holds of every node of a tree. -/
def All (p : Node → Prop) : Node → Prop
  | leaf h => p (leaf h)
  | call h ns => p (call h ns) ∧ AllArgs p ns
  | fields h fs => p (fields h fs) ∧ AllFields p fs

def AllArgs (p : Node → Prop) : List Node → Prop
  | [] => True
  | n :: ns => n.All p ∧ AllArgs p ns

def AllFields (p : Node → Prop) : List (String × Node) → Prop
  | [] => True
  | (_, n) :: fs => n.All p ∧ AllFields p fs

end

/-- The literal of a node is a JSON value, and no name occurs twice among its children. -/
def LegibleHere (n : Node) : Prop := (∀ v ∈ n.head.value, v.Legible) ∧ ((n.named.getD []).map (·.1)).Nodup

/-- The format has the tree. -/
def Legible (n : Node) : Prop := n.All LegibleHere

/-- No node has the literal `null`. -/
def NullFree (n : Node) : Prop := n.All fun m => m.head.value ≠ some .null

end Node

/-- A literal value as it is read: `null` stands for none. -/
def Json.present : Option Json → Option Json
  | some .null => none
  | v => v

namespace Node

mutual

/-- The tree with absent literals for those that are `null`. -/
def withoutNulls : Node → Node
  | leaf h => leaf { h with value := Json.present h.value }
  | call h ns => call { h with value := Json.present h.value } (argsWithoutNulls ns)
  | fields h fs => fields { h with value := Json.present h.value } (fieldsWithoutNulls fs)

def argsWithoutNulls : List Node → List Node
  | [] => []
  | n :: ns => n.withoutNulls :: argsWithoutNulls ns

def fieldsWithoutNulls : List (String × Node) → List (String × Node)
  | [] => []
  | (name, n) :: fs => (name, n.withoutNulls) :: fieldsWithoutNulls fs

end

/-- How deep the literal of a node is nested. -/
def literalNesting (h : Head) : Nat := h.value.elim 0 Json.nesting

mutual

/-- How deep arrays and objects are nested in each other in the text of a tree. -/
def nesting : Node → Nat
  | leaf h => literalNesting h + 1
  | call h ns => max (literalNesting h) (nestingArgs ns + 1) + 1
  | fields h fs => max (literalNesting h) (nestingFields fs + 1) + 1

def nestingArgs : List Node → Nat
  | [] => 0
  | n :: ns => max n.nesting (nestingArgs ns)

def nestingFields : List (String × Node) → Nat
  | [] => 0
  | (_, n) :: fs => max n.nesting (nestingFields fs)

end

theorem Json.present_eq {v : Option Json} (h : v ≠ some .null) : Json.present v = v := by
  unfold Json.present
  split
  · exact absurd rfl h
  · rfl

mutual

theorem NullFree.withoutNulls : ∀ {n : Node}, n.NullFree → n.withoutNulls = n
  | leaf h, hn => by
    simp only [NullFree, All, head] at hn
    simp only [Node.withoutNulls, Json.present_eq hn]
  | call h ns, hn => by
    simp only [NullFree, All, head] at hn
    simp only [Node.withoutNulls, Json.present_eq hn.1, argsWithoutNulls_eq hn.2]
  | fields h fs, hn => by
    simp only [NullFree, All, head] at hn
    simp only [Node.withoutNulls, Json.present_eq hn.1, fieldsWithoutNulls_eq hn.2]

theorem argsWithoutNulls_eq : ∀ {ns : List Node}, AllArgs (fun m => m.head.value ≠ some .null) ns →
    argsWithoutNulls ns = ns
  | [], _ => rfl
  | n :: ns, hn => by
    rw [AllArgs] at hn
    rw [argsWithoutNulls, NullFree.withoutNulls hn.1, argsWithoutNulls_eq hn.2]

theorem fieldsWithoutNulls_eq : ∀ {fs : List (String × Node)}, AllFields (fun m => m.head.value ≠ some .null) fs →
    fieldsWithoutNulls fs = fs
  | [], _ => rfl
  | (name, n) :: fs, hn => by
    rw [AllFields] at hn
    rw [fieldsWithoutNulls, NullFree.withoutNulls hn.1, fieldsWithoutNulls_eq hn.2]

end

/-! ## The document of a tree -/

/-- A member that may be absent. -/
def optional {α : Type} (name : String) (content : Option α) : List (Option String × α) :=
  content.toList.map fun a => (some name, a)

/-- The members of a node apart from its kind. -/
def membersOf (h : Head) (args : Option Document) : List (Option String × Document) :=
  optional "value" (h.value.map Json.document) ++ optional "id" (h.id.map fun s => .text (some s))
    ++ optional "label" (h.label.map fun s => .text (some s)) ++ optional "args" args

/-- The document of a node whose children are written as `args`. -/
def documentOf (h : Head) (args : Option Document) : Document :=
  .object ((some "type", .text (some h.kind)) :: membersOf h args)

mutual

/-- The document that a tree is written as. -/
def document : Node → Document
  | leaf h => documentOf h none
  | call h ns => documentOf h (some (.array (argDocuments ns)))
  | fields h fs => documentOf h (some (.object (fieldDocuments fs)))

def argDocuments : List Node → List Document
  | [] => []
  | n :: ns => n.document :: argDocuments ns

def fieldDocuments : List (String × Node) → List (Option String × Document)
  | [] => []
  | (name, n) :: fs => (some name, n.document) :: fieldDocuments fs

end

theorem members?_documentOf (h : Head) (args : Option Document) :
    members? (documentOf h args) = some ⟨.text (some h.kind), (h.value.map Json.document).getD .null,
      (h.id.map fun s => .text (some s)).getD .null, (h.label.map fun s => .text (some s)).getD .null, args.getD .null⟩ := by
  obtain ⟨kind, value, id, label⟩ := h
  cases value <;> cases id <;> cases label <;> cases args <;> simp [members?, documentOf, membersOf, optional, member?]

/-! ## Writing -/

/-- The members that follow in a node, and its closing brace. -/
def closing : List (String × List Char) → List Char
  | [] => ['}']
  | (k, cs) :: ms => ',' :: (Json.renderText k ++ ':' :: (cs ++ closing ms))

/-- The texts of the members of a node between its kind and its children. -/
def textsOf (h : Head) : List (String × List Char) :=
  (h.value.toList.map fun v => ("value", v.render)) ++ (h.id.toList.map fun s => ("id", Json.renderText s))
    ++ (h.label.toList.map fun s => ("label", Json.renderText s))

theorem renderHead_closing (h : Head) (ms : List (String × List Char)) :
    renderHead h ++ closing ms =
      '\x7b' :: (Json.renderText "type" ++ ':' :: (Json.renderText h.kind ++ closing (textsOf h ++ ms))) := by
  have htype : "\x7b\"type\":".toList = '\x7b' :: (Json.renderText "type" ++ [':']) := by decide
  have hvalue : ",\"value\":".toList = ',' :: (Json.renderText "value" ++ [':']) := by decide
  have hid : ",\"id\":".toList = ',' :: (Json.renderText "id" ++ [':']) := by decide
  have hlabel : ",\"label\":".toList = ',' :: (Json.renderText "label" ++ [':']) := by decide
  obtain ⟨kind, value, id, label⟩ := h
  unfold renderHead
  cases value <;> cases id <;> cases label <;> simp [textsOf, closing, htype, hvalue, hid, hlabel]

/-- Texts are read as the contents of members of the same names. -/
abbrev MembersWritten (ms : List (String × List Char)) (ds : List (Option String × Document)) : Prop :=
  List.Forall₂ (fun m d => d.1 = some m.1 ∧ Written m.2 d.2) ms ds

/-- Members that are written one after the other are read as such. -/
theorem writtenMembers_closing {v : List Char} {d : Document} (k : String) (h : Written v d)
    {ms : List (String × List Char)} {ds : List (Option String × Document)}
    (hs : MembersWritten ms ds) :
    WrittenMembers (Json.renderText k ++ ':' :: (v ++ closing ms)) ((some k, d) :: ds) := by
  induction hs generalizing k v d with
  | nil => exact .last k h
  | @cons m m' _ _ hm _ ih =>
    obtain ⟨name, cs⟩ := m
    obtain ⟨_, d'⟩ := m'
    obtain ⟨rfl, hw⟩ := hm
    rw [closing]
    exact .cons k h (ih name hw)

theorem membersWritten {h : Head} (hh : ∀ v ∈ h.value, v.Legible) {args : List (String × List Char)}
    {document : Option Document}
    (ha : MembersWritten args (optional "args" document)) : MembersWritten (textsOf h ++ args) (membersOf h document) := by
  obtain ⟨kind, value, id, label⟩ := h
  rw [membersOf]
  refine List.rel_append (List.rel_append (List.rel_append ?_ ?_) ?_) ha
  · cases value with
    | none => exact .nil
    | some v => exact .cons ⟨rfl, Json.written (hh v rfl)⟩ .nil
  · cases id with
    | none => exact .nil
    | some s => exact .cons ⟨rfl, written_text s⟩ .nil
  · cases label with
    | none => exact .nil
    | some s => exact .cons ⟨rfl, written_text s⟩ .nil

/-- The text of a node is read as its document if that of its children is. -/
theorem written_closing {h : Head} (hh : ∀ v ∈ h.value, v.Legible) {args : List (String × List Char)}
    {document : Option Document}
    (ha : MembersWritten args (optional "args" document)) :
    Written (renderHead h ++ closing args) (documentOf h document) := by
  rw [renderHead_closing]
  exact (writtenMembers_closing "type" (written_text h.kind) (membersWritten hh ha)).object

theorem written_args {h : Head} (hh : ∀ v ∈ h.value, v.Legible) {cs : List Char} {d : Document} (hd : Written cs d) :
    Written (renderHead h ++ closing [("args", cs)]) (documentOf h (some d)) :=
  written_closing hh (.cons ⟨rfl, hd⟩ .nil)

mutual

/-- The compact text of a tree is read as its document. -/
theorem written : ∀ {n : Node}, n.Legible → Written n.render n.document
  | leaf h, hn => by
    have hargs : MembersWritten [] (optional "args" none) := .nil
    simp only [Legible, All] at hn
    rw [render, document]
    exact written_closing (h := h) hn.1 hargs
  | call h [], hn => by
    have hargs : ",\"args\":[]".toList = ',' :: (Json.renderText "args" ++ [':', '[', ']']) := by decide
    simp only [Legible, All] at hn
    rw [render, document, hargs, argDocuments]
    simpa [closing] using written_args (h := h) hn.1.1 written_nothing
  | call h (n :: ns), hn => by
    have hargs : ",\"args\":[".toList = ',' :: (Json.renderText "args" ++ [':', '[']) := by decide
    simp only [Legible, All, AllArgs] at hn
    have hn' := written hn.2.1
    rw [render, document, hargs, argDocuments]
    simpa [closing] using written_args (h := h) hn.1.1 ((writtenArgs hn' hn.2.2).array (hn'.opens.append _))
  | fields h [], hn => by
    have hargs : ",\"args\":".toList = ',' :: (Json.renderText "args" ++ [':']) := by decide
    simp only [Legible, All] at hn
    rw [render, document, hargs, fieldDocuments]
    simpa [closing] using written_args (h := h) hn.1.1 written_empty
  | fields h ((name, n) :: fs), hn => by
    have hargs : ",\"args\":".toList = ',' :: (Json.renderText "args" ++ [':']) := by decide
    simp only [Legible, All, AllFields] at hn
    have hn' := written hn.2.1
    rw [render, document, hargs, fieldDocuments]
    simpa [closing] using written_args (h := h) hn.1.1 (writtenFields name hn' hn.2.2).object

theorem writtenArgs {cs : List Char} {d : Document} (h : Written cs d) : ∀ {ns : List Node},
    AllArgs LegibleHere ns →
      WrittenItems (cs ++ renderArgs ns) (d :: argDocuments ns)
  | [], _ => .last h
  | n :: ns, hn => by
    rw [AllArgs] at hn
    rw [renderArgs, argDocuments]
    exact .cons h (writtenArgs (written hn.1) hn.2)

theorem writtenFields {cs : List Char} {d : Document} (name : String) (h : Written cs d) :
    ∀ {fs : List (String × Node)},
      AllFields LegibleHere fs →
        WrittenMembers (Json.renderText name ++ ':' :: (cs ++ renderFields fs)) ((some name, d) :: fieldDocuments fs)
  | [], _ => .last name h
  | (name', n) :: fs, hn => by
    rw [AllFields] at hn
    rw [renderFields, fieldDocuments]
    exact .cons name h (writtenFields name' (written hn.1) hn.2)

end

/-! ## Judging -/

theorem isSome_toJsonItems? (depth : Nat) (ds : List Document) :
    (toJsonItems? depth ds).isSome = ds.all fun d => (d.toJson? depth).isSome := by
  induction ds with
  | nil => rfl
  | cons d ds ih =>
    rw [List.all_cons, ← ih, toJsonItems?]
    cases d.toJson? depth <;> cases toJsonItems? depth ds <;> rfl

theorem isSome_toJsonMembers? (depth : Nat) (ms : List (Option String × Document)) :
    (toJsonMembers? depth ms).isSome = ms.all fun m => m.1.isSome && (m.2.toJson? depth).isSome := by
  induction ms with
  | nil => rfl
  | cons m ms ih =>
    obtain ⟨k, d⟩ := m
    rw [List.all_cons, ← ih, toJsonMembers?]
    cases k <;> cases d.toJson? depth <;> cases toJsonMembers? depth ms <;> rfl

/-- A literal is judged by its nesting. -/
theorem isSome_literal {h : Head} (hh : ∀ v ∈ h.value, v.Legible) (depth : Nat) :
    (((h.value.map Json.document).getD .null).toJson? depth).isSome = decide (literalNesting h ≤ depth) := by
  unfold literalNesting
  cases hv : h.value with
  | none => simp [Document.toJson?]
  | some v =>
    simp only [Option.map_some, Option.getD_some, Json.toJson?_document depth (hh v hv), Option.elim_some]
    split <;> rename_i hle <;> simp [hle]

theorem isSome_documentOf {h : Head} (hh : ∀ v ∈ h.value, v.Legible) (args : Option Document) (depth : Nat) :
    ((documentOf h args).toJson? (depth + 1)).isSome =
      (decide (literalNesting h ≤ depth) && ((args.getD .null).toJson? depth).isSome) := by
  rw [← isSome_literal hh, documentOf, Document.toJson?, Option.isSome_map, isSome_toJsonMembers?]
  obtain ⟨kind, value, id, label⟩ := h
  cases value <;> cases id <;> cases label <;> cases args <;> simp [membersOf, optional, Document.toJson?]

mutual

/-- A tree is judged by its nesting. -/
theorem isSome_document : ∀ {n : Node} (depth : Nat), n.Legible →
    (n.document.toJson? depth).isSome = decide (n.nesting ≤ depth)
  | leaf h, 0, hn => by
    simp [document, documentOf, Document.toJson?, nesting]
  | leaf h, depth + 1, hn => by
    simp only [Legible, All] at hn
    rw [document, isSome_documentOf (h := h) hn.1]
    simp [Document.toJson?, nesting]
  | call h ns, 0, hn => by
    simp [document, documentOf, Document.toJson?, nesting]
  | call h ns, depth + 1, hn => by
    simp only [Legible, All] at hn
    rw [document, isSome_documentOf (h := h) hn.1.1]
    cases depth with
    | zero => simp [Document.toJson?, nesting]
    | succ depth => simp [Document.toJson?, nesting, isSome_toJsonItems?, isSome_argDocuments depth hn.2, Nat.max_le]
  | fields h fs, 0, hn => by
    simp [document, documentOf, Document.toJson?, nesting]
  | fields h fs, depth + 1, hn => by
    simp only [Legible, All] at hn
    rw [document, isSome_documentOf (h := h) hn.1.1]
    cases depth with
    | zero => simp [Document.toJson?, nesting]
    | succ depth => simp [Document.toJson?, nesting, isSome_toJsonMembers?, isSome_fieldDocuments depth hn.2, Nat.max_le]

theorem isSome_argDocuments : ∀ {ns : List Node} (depth : Nat),
    AllArgs LegibleHere ns →
      ((argDocuments ns).all fun d => (d.toJson? depth).isSome) = decide (nestingArgs ns ≤ depth)
  | [], depth, _ => by simp [argDocuments, nestingArgs]
  | n :: ns, depth, hn => by
    rw [AllArgs] at hn
    simp [argDocuments, nestingArgs, isSome_document depth hn.1, isSome_argDocuments depth hn.2, Nat.max_le]

theorem isSome_fieldDocuments : ∀ {fs : List (String × Node)} (depth : Nat),
    AllFields LegibleHere fs →
      ((fieldDocuments fs).all fun m => m.1.isSome && (m.2.toJson? depth).isSome) = decide (nestingFields fs ≤ depth)
  | [], depth, _ => by simp [fieldDocuments, nestingFields]
  | (name, n) :: fs, depth, hn => by
    rw [AllFields] at hn
    simp [fieldDocuments, nestingFields, isSome_document depth hn.1, isSome_fieldDocuments depth hn.2, Nat.max_le]

end

/-! ## Building -/

theorem readValue?_literal {h : Head} (hh : ∀ v ∈ h.value, v.Legible) {depth : Nat} (hd : literalNesting h ≤ depth) :
    readValue? depth ((h.value.map Json.document).getD .null) = some (Json.present h.value) := by
  cases hv : h.value with
  | none => rfl
  | some v =>
    have hd : v.nesting ≤ depth := by simpa [literalNesting, hv] using hd
    have hread := Json.toJson?_document depth (hh v hv)
    rw [if_pos hd] at hread
    cases v with
    | null => rfl
    | _ => simpa [readValue?, Json.document, Json.present] using hread

theorem readOptional?_text (s : Option String) : readOptional? ((s.map fun s => .text (some s)).getD .null) = some s := by
  cases s <;> rfl

/-- A named child of a document. -/
def buildField? (fuel : Nat) (f : Option String × Document) : Option (String × Node) := do
  some ((← f.1), (← build? fuel f.2))

/-- A node is built from its literal and its children. -/
theorem build?_documentOf {h : Head} (hh : ∀ v ∈ h.value, v.Legible) (hd : literalNesting h ≤ maxNesting)
    (args : Option Document) (fuel : Nat) :
    build? (fuel + 1) (documentOf h args) =
      match args.getD .null with
      | .null => some (leaf { h with value := Json.present h.value })
      | .array ds => (ds.mapM (build? fuel)).map (call { h with value := Json.present h.value })
      | .object ms => (ms.mapM (buildField? fuel)).bind fun fs =>
          some (fields { h with value := Json.present h.value } (Fields.ofList fs))
      | _ => none := by
  rw [build?, members?_documentOf]
  simp only [Option.bind_eq_bind, Option.bind_some, readText?, readValue?_literal hh hd, readOptional?_text]
  rfl

end Node

namespace Fields

variable {α : Type}

theorem put_of_notMem {name : String} {fs : List (String × α)} (h : name ∉ fs.map (·.1)) (value : α) :
    put name value fs = fs ++ [(name, value)] := by
  induction fs with
  | nil => rfl
  | cons f fs ih =>
    obtain ⟨n, v⟩ := f
    simp only [List.map_cons, List.mem_cons, not_or] at h
    simp [put, Ne.symm h.1, ih h.2]

theorem foldl_put {acc fs : List (String × α)} (h : ((acc ++ fs).map (·.1)).Nodup) :
    fs.foldl (fun acc p => put p.1 p.2 acc) acc = acc ++ fs := by
  induction fs generalizing acc with
  | nil => simp
  | cons f fs ih =>
    obtain ⟨name, value⟩ := f
    have hname : name ∉ acc.map (·.1) := by
      rw [List.map_append, List.nodup_append] at h
      exact fun hm => h.2.2 name hm name (by simp) rfl
    rw [List.foldl_cons, put_of_notMem hname, ih (by simpa using h)]
    simp

/-- Fields with different names stay as they are. -/
theorem ofList_nodup {fs : List (String × α)} (h : (fs.map (·.1)).Nodup) : ofList fs = fs := by
  rw [ofList, foldl_put (by simpa using h), List.nil_append]

end Fields

namespace Node

theorem names_fieldsWithoutNulls (fs : List (String × Node)) :
    (fieldsWithoutNulls fs).map (·.1) = fs.map (·.1) := by
  induction fs with
  | nil => rfl
  | cons f fs ih =>
    obtain ⟨name, n⟩ := f
    simp [fieldsWithoutNulls, ih]

mutual

/-- The tree that is built from the document of a tree. -/
theorem build?_document : ∀ {n : Node} {fuel : Nat}, n.Legible → n.nesting ≤ fuel → n.nesting ≤ maxNesting →
    build? fuel n.document = some n.withoutNulls
  | leaf h, 0, _, hf, _ => by simp [nesting] at hf
  | leaf h, fuel + 1, hn, hf, hm => by
    simp only [Legible, All] at hn
    simp only [nesting] at hm
    rw [document, build?_documentOf (h := h) hn.1 (by omega)]
    rfl
  | call h ns, 0, _, hf, _ => by simp [nesting] at hf
  | call h ns, fuel + 1, hn, hf, hm => by
    simp only [Legible, All] at hn
    simp only [nesting] at hf hm
    rw [document, build?_documentOf (h := h) hn.1.1 (by omega)]
    simp [build?_argDocuments hn.2 (show nestingArgs ns ≤ fuel by omega) (by omega), withoutNulls]
  | fields h fs, 0, _, hf, _ => by simp [nesting] at hf
  | fields h fs, fuel + 1, hn, hf, hm => by
    simp only [Legible, All] at hn
    simp only [nesting] at hf hm
    have hnodup : ((fieldsWithoutNulls fs).map (·.1)).Nodup := by
      rw [names_fieldsWithoutNulls]
      exact hn.1.2
    rw [document, build?_documentOf (h := h) hn.1.1 (by omega)]
    simp [build?_fieldDocuments hn.2 (show nestingFields fs ≤ fuel by omega) (by omega), withoutNulls,
      Fields.ofList_nodup hnodup]

theorem build?_argDocuments : ∀ {ns : List Node} {fuel : Nat}, AllArgs LegibleHere ns → nestingArgs ns ≤ fuel →
    nestingArgs ns ≤ maxNesting → (argDocuments ns).mapM (build? fuel) = some (argsWithoutNulls ns)
  | [], _, _, _, _ => rfl
  | n :: ns, fuel, hn, hf, hm => by
    rw [AllArgs] at hn
    rw [nestingArgs, Nat.max_le] at hf hm
    simp [argDocuments, argsWithoutNulls, build?_document hn.1 hf.1 hm.1, build?_argDocuments hn.2 hf.2 hm.2]

theorem build?_fieldDocuments : ∀ {fs : List (String × Node)} {fuel : Nat}, AllFields LegibleHere fs →
    nestingFields fs ≤ fuel → nestingFields fs ≤ maxNesting →
      (fieldDocuments fs).mapM (buildField? fuel) = some (fieldsWithoutNulls fs)
  | [], _, _, _, _ => rfl
  | (name, n) :: fs, fuel, hn, hf, hm => by
    rw [AllFields] at hn
    rw [nestingFields, Nat.max_le] at hf hm
    have hfield : buildField? fuel (some name, n.document) = some (name, n.withoutNulls) := by
      simp [buildField?, build?_document hn.1 hf.1 hm.1]
    simp [fieldDocuments, fieldsWithoutNulls, hfield, build?_fieldDocuments hn.2 hf.2 hm.2]

end

/-! ## Reading -/

theorem judged_documentOf {h : Head} (hh : ∀ v ∈ h.value, v.Legible) (args : Option Document) (inner : Nat) :
    judged (inner + 1) (documentOf h args) = ((documentOf h args).toJson? (inner + 1)).isSome := by
  have htext (s : Option String) : (((s.map fun s => Document.text (some s)).getD .null).toJson? inner).isSome = true := by
    cases s <;> simp [Document.toJson?]
  rw [isSome_documentOf hh]
  unfold judged
  simp [members?_documentOf, htext, isSome_literal hh]

theorem judged_document {n : Node} (h : n.Legible) (inner : Nat) :
    judged (inner + 1) n.document = decide (n.nesting ≤ inner + 1) := by
  rw [← isSome_document _ h]
  cases n with
  | leaf head =>
    simp only [Legible, All] at h
    rw [document, judged_documentOf (h := head) h.1]
  | call head ns =>
    simp only [Legible, All] at h
    rw [document, judged_documentOf (h := head) h.1.1]
  | fields head fs =>
    simp only [Legible, All] at h
    rw [document, judged_documentOf (h := head) h.1.1]

/-- Reading the text of a tree gives the tree, exactly when it is not nested too deep. -/
theorem read?_text {n : Node} (h : n.Legible) :
    read? n.text = if n.nesting ≤ maxNesting then some n.withoutNulls else none := by
  have hdocument : Document.read? n.render = some n.document := by
    have hread := (written h).reads (n.render.length + 1) [] (by omega) closes_nil
    rw [List.append_nil] at hread
    simp [Document.read?, hread, skipBlanks]
  have hjudged : judged maxNesting n.document = decide (n.nesting ≤ maxNesting) := judged_document h 126
  rw [read?, text, String.toList_ofList, hdocument, Option.bind_some, ofDocument?, hjudged]
  simp only [decide_eq_true_eq]
  split
  · rename_i hd
    exact build?_document h hd hd
  · rfl

/-- The text of a tree is read back as the tree, with its named children in the same order; a literal that is `null` is
read as absent, and all else stays as it was. -/
theorem read_back {n : Node} (h : n.Legible) (hd : n.nesting ≤ maxNesting) :
    read? n.text = some n.withoutNulls ∧ (n.NullFree → read? n.text = some n) := by
  have hread := (read?_text h).trans (if_pos hd)
  exact ⟨hread, fun hn => by rw [hread, hn.withoutNulls]⟩

/-- A tree with children of either kind, empty ones of both, and literals of all kinds. -/
def mixed : Node :=
  fields ⟨"record", none, some "root", some "a \"label\"\n"⟩
    [("b", call ⟨"add", none, none, some ""⟩
        [leaf ⟨"literal", some (.number (.float ⟨0x3FF8000000000000⟩)), none, none⟩, leaf ⟨"literal", some .null, none, none⟩]),
      ("a", call ⟨"list", none, none, none⟩ []),
      ("", fields ⟨"record", some (.object [("k", .array [.number (.natural 0), .number (.negative 7)]), ("l", .bool true)]),
        none, none⟩ [])]

theorem read_back_mixed :
    (mixed.Legible ∧ mixed.nesting ≤ maxNesting) ∧
      (read? mixed.text = some mixed.withoutNulls ∧ (mixed.NullFree → read? mixed.text = some mixed)) := by
  have hfloat : JsonNumber.read? (JsonNumber.float ⟨0x3FF8000000000000⟩).render = some (.float ⟨0x3FF8000000000000⟩) := by
    decide +kernel
  have h : mixed.Legible := by
    have hnumbers : (0 : Nat) < NumberText.digitBound ∧ 7 ≤ Nat.pow 2 63 := by decide
    have hkeys : Ord.compare "k" "l" = .lt := by decide
    simp [mixed, Legible, All, AllArgs, AllFields, LegibleHere, head, named, Json.Legible, Json.LegibleItems,
      Json.LegibleMembers, JsonNumber.Legible, hfloat, hnumbers, hkeys]
  have hd : mixed.nesting ≤ maxNesting := by decide
  exact ⟨⟨h, hd⟩, read_back h hd⟩

end Node

end LiveBindings
