import LiveBindings.Proofs.Ascending
import LiveBindings.Proofs.Growing

/-!
# Values to JSON and back

Making a value of JSON makes one container for every array and every object, each for itself and none of them there before
(`Contents.Built`, `World.Fresh`, `fromJson_makes`). What is made of the JSON form of a value is a copy of it, with null in place of
what JSON has not and the keys in ascending order (`Contents.Built.copies`), and the JSON form of what is made of JSON is that JSON
with its numbers as doubles (`Contents.Built.json`). `json_round_trip` puts the two together.
-/

namespace LiveBindings

variable {κ ε : Type}

/-! ## What is made of JSON -/

mutual

/-- A value shows a JSON value, and `cs` are its containers, one for each place where the JSON has an array or an object. -/
inductive Contents.Built (c : Contents) : Json → Value → List Value → Prop
  | null : Built c .null .null []
  | bool (b : Bool) : Built c (.bool b) (.bool b) []
  | number (n : JsonNumber) : Built c (.number n) (.number n.toNumber) []
  | text (s : String) : Built c (.text s) (.text s) []
  | array {js : List Json} {l : ListId} {cs : List Value} : BuiltItems c js (c.items l) cs → Built c (.array js) (.list l) (.list l :: cs)
  | object {ms : List (String × Json)} {o : ObjectId} {cs : List Value} :
      BuiltMembers c ms (c.entries o) cs → Built c (.object ms) (.object o) (.object o :: cs)

inductive Contents.BuiltItems (c : Contents) : List Json → List Value → List Value → Prop
  | nil : BuiltItems c [] [] []
  | cons {j : Json} {js : List Json} {v : Value} {vs cs cs' : List Value} :
      Built c j v cs → BuiltItems c js vs cs' → BuiltItems c (j :: js) (v :: vs) (cs ++ cs')

inductive Contents.BuiltMembers (c : Contents) : List (String × Json) → List (String × Value) → List Value → Prop
  | nil : BuiltMembers c [] [] []
  | cons {k : String} {j : Json} {ms : List (String × Json)} {v : Value} {es : List (String × Value)} {cs cs' : List Value} :
      Built c j v cs → BuiltMembers c ms es cs' → BuiltMembers c ((k, j) :: ms) ((k, v) :: es) (cs ++ cs')

end

namespace Contents

mutual

/-- Only the containers of the value matter. -/
theorem Built.congr {c c' : Contents} {j : Json} {v : Value} {cs : List Value} (h : c.Built j v cs)
    (agree : ∀ u ∈ cs, c.Agree c' u) : c'.Built j v cs := by
  cases h with
  | null => exact .null
  | bool b => exact .bool b
  | number n => exact .number n
  | text s => exact .text s
  | array h =>
    have hitems := agree _ List.mem_cons_self
    have hrest := BuiltItems.congr h fun u hu => agree u (List.mem_cons_of_mem _ hu)
    rw [← hitems] at hrest
    exact .array hrest
  | object h =>
    have hentries := agree _ List.mem_cons_self
    have hrest := BuiltMembers.congr h fun u hu => agree u (List.mem_cons_of_mem _ hu)
    rw [← hentries] at hrest
    exact .object hrest

theorem BuiltItems.congr {c c' : Contents} {js : List Json} {vs cs : List Value} (h : c.BuiltItems js vs cs)
    (agree : ∀ u ∈ cs, c.Agree c' u) : c'.BuiltItems js vs cs := by
  cases h with
  | nil => exact .nil
  | cons h hs =>
    exact .cons (Built.congr h fun u hu => agree u (List.mem_append_left _ hu))
      (BuiltItems.congr hs fun u hu => agree u (List.mem_append_right _ hu))

theorem BuiltMembers.congr {c c' : Contents} {ms : List (String × Json)} {es : List (String × Value)} {cs : List Value}
    (h : c.BuiltMembers ms es cs) (agree : ∀ u ∈ cs, c.Agree c' u) : c'.BuiltMembers ms es cs := by
  cases h with
  | nil => exact .nil
  | cons h hs =>
    exact .cons (Built.congr h fun u hu => agree u (List.mem_append_left _ hu))
      (BuiltMembers.congr hs fun u hu => agree u (List.mem_append_right _ hu))

end

end Contents

mutual

/-- A value is made of JSON, and of containers that are all new. -/
theorem fromJson_makes : ∀ (j : Json) {w : World κ ε}, ¬w.refuses →
    (fromJson j).Ends w fun v w' => ∃ cs, w'.contents.Built j v cs ∧ w.Fresh w' cs
  | .null, w, _ => by
    rw [fromJson]
    exact ⟨[], .null, .nil w⟩
  | .bool b, w, _ => by
    rw [fromJson]
    exact ⟨[], .bool b, .nil w⟩
  | .number n, w, _ => by
    rw [fromJson]
    exact ⟨[], .number n, .nil w⟩
  | .text s, w, _ => by
    rw [fromJson]
    exact ⟨[], .text s, .nil w⟩
  | .array js, w, hw => by
    rw [fromJson, Run.ends_bind]
    refine (fromJsonItems_makes js hw).imp fun items w₁ h => ?_
    obtain ⟨cs, hbuilt, hfresh⟩ := h
    rw [Run.ends_bind]
    simp only [ListId.create, Run.ends_bind, Run.ends_get, Run.ends_set, Run.ends_pure]
    obtain ⟨hmade, hitems⟩ := hfresh.list items
    refine ⟨_, .array ?_, hmade⟩
    rw [hitems]
    exact hbuilt.congr fun u hu => (World.Grows.pushList w₁ _).agree (hfresh.fresh u hu).2
  | .object ms, w, hw => by
    rw [fromJson, Run.ends_bind]
    refine (fromJsonMembers_makes ms hw).imp fun entries w₁ h => ?_
    obtain ⟨cs, hbuilt, hfresh⟩ := h
    have hcreate : (do return Value.object (← ObjectId.create entries)).Ends w₁ fun v w' =>
        ∃ cs, w'.contents.Built (.object ms) v cs ∧ w.Fresh w' cs := by
      simp only [ObjectId.create, Run.ends_bind, Run.ends_stateGet, Run.ends_set, Run.ends_pure]
      obtain ⟨hmade, hentries⟩ := hfresh.object entries
      refine ⟨_, .object ?_, hmade⟩
      rw [hentries]
      exact hbuilt.congr fun u hu => (World.Grows.pushObject w₁ _).agree (hfresh.fresh u hu).2
    -- An object without entries is made without a dispatch; where there are some, the dispatches come to nothing.
    split
    · rw [Run.ends_bind, Run.ends_of_eq (nested_idle (by rwa [hfresh.grows.refuses]) .object)]
      exact hcreate
    · exact hcreate

theorem fromJsonItems_makes : ∀ (js : List Json) {w : World κ ε}, ¬w.refuses →
    (fromJsonItems js).Ends w fun vs w' => ∃ cs, w'.contents.BuiltItems js vs cs ∧ w.Fresh w' cs
  | [], w, _ => by
    rw [fromJsonItems]
    exact ⟨[], .nil, .nil w⟩
  | j :: js, w, hw => by
    rw [fromJsonItems, Run.ends_bind]
    refine (fromJson_makes j hw).imp fun v w₁ h => ?_
    obtain ⟨cs, hbuilt, hfresh⟩ := h
    rw [Run.ends_bind]
    refine (fromJsonItems_makes js (by rwa [hfresh.grows.refuses])).imp fun vs w₂ h => ?_
    obtain ⟨cs', hbuilt', hfresh'⟩ := h
    exact ⟨cs ++ cs', .cons (hbuilt.congr fun u hu => hfresh'.grows.agree (hfresh.fresh u hu).2) hbuilt', hfresh.append hfresh'⟩

theorem fromJsonMembers_makes : ∀ (ms : List (String × Json)) {w : World κ ε}, ¬w.refuses →
    (fromJsonMembers ms).Ends w fun es w' => ∃ cs, w'.contents.BuiltMembers ms es cs ∧ w.Fresh w' cs
  | [], w, _ => by
    rw [fromJsonMembers]
    exact ⟨[], .nil, .nil w⟩
  | (k, j) :: ms, w, hw => by
    rw [fromJsonMembers, Run.ends_bind]
    refine (fromJson_makes j hw).imp fun v w₁ h => ?_
    obtain ⟨cs, hbuilt, hfresh⟩ := h
    rw [Run.ends_bind]
    refine (fromJsonMembers_makes ms (by rwa [hfresh.grows.refuses])).imp fun vs w₂ h => ?_
    obtain ⟨cs', hbuilt', hfresh'⟩ := h
    exact ⟨cs ++ cs', .cons (hbuilt.congr fun u hu => hfresh'.grows.agree (hfresh.fresh u hu).2) hbuilt', hfresh.append hfresh'⟩

end

/-! ## There and back -/

/-- A value in `c'` is structurally that in `c`, with null for what is absent and for numbers that are not finite, and with the keys of
every object in ascending order. -/
inductive Contents.Copies (c c' : Contents) : Value → Value → Prop
  | undefined : Copies c c' .undefined .null
  | null : Copies c c' .null .null
  | bool (b : Bool) : Copies c c' (.bool b) (.bool b)
  | notFinite {x : Number} : x.isFinite = false → Copies c c' (.number x) .null
  | finite {x : Number} : x.isFinite = true → Copies c c' (.number x) (.number x)
  | text (s : String) : Copies c c' (.text s) (.text s)
  | list {l l' : ListId} : (c'.items l').length = (c.items l).length →
      (∀ (i : Nat) v v', (c.items l)[i]? = some v → (c'.items l')[i]? = some v' → Copies c c' v v') → Copies c c' (.list l) (.list l')
  | object {o o' : ObjectId} : Json.Ascending (c'.entries o') → ((c'.entries o').map (·.1)).Perm ((c.entries o).map (·.1)) →
      (∀ k v v', (k, v) ∈ c.entries o → (k, v') ∈ c'.entries o' → Copies c c' v v') → Copies c c' (.object o) (.object o')

namespace Contents

section

variable {c c' : Contents}

theorem BuiltItems.get {js : List Json} {vs cs : List Value} (h : c.BuiltItems js vs cs) :
    vs.length = js.length ∧ ∀ (i : Nat) (j : Json) (v : Value), js[i]? = some j → vs[i]? = some v → ∃ cs, c.Built j v cs := by
  induction js generalizing vs cs with
  | nil =>
    cases h
    exact ⟨rfl, fun i j v hj => by cases hj⟩
  | cons j js ih =>
    cases h with
    | cons h hs =>
      obtain ⟨hlength, hget⟩ := ih hs
      refine ⟨congrArg (· + 1) hlength, ?_⟩
      intro i j' v' hj hv
      cases i with
      | zero =>
        cases hj
        cases hv
        exact ⟨_, h⟩
      | succ i => exact hget i j' v' hj hv

theorem BuiltMembers.get {ms : List (String × Json)} {es : List (String × Value)} {cs : List Value} (h : c.BuiltMembers ms es cs) :
    es.map (·.1) = ms.map (·.1) ∧ ∀ k v, (k, v) ∈ es → ∃ j cs, (k, j) ∈ ms ∧ c.Built j v cs := by
  induction ms generalizing es cs with
  | nil =>
    cases h
    exact ⟨rfl, fun k v hv => by cases hv⟩
  | cons m ms ih =>
    cases h with
    | cons h hs =>
      obtain ⟨hkeys, hget⟩ := ih hs
      refine ⟨by rw [List.map_cons, List.map_cons, hkeys], ?_⟩
      intro k v hv
      rcases List.mem_cons.1 hv with hv | hv
      · cases hv
        exact ⟨_, _, List.mem_cons_self, h⟩
      · obtain ⟨j, cs, hj, hbuilt⟩ := hget k v hv
        exact ⟨j, cs, List.mem_cons_of_mem _ hj, hbuilt⟩

theorem jsonWithin_scalar {n : Nat} {v : Value} (hv : v.isScalar = true) : c.jsonWithin n v = c.jsonWithin 0 v := by
  cases v with
  | list l => cases hv
  | object o => cases hv
  | _ => cases n <;> rfl

theorem Built.copies_scalar {n : Nat} {v v' : Value} {cs : List Value} (hv : v.isScalar = true)
    (h : c'.Built (c.jsonWithin n v) v' cs) : c.Copies c' v v' := by
  rw [jsonWithin_scalar hv] at h
  cases v with
  | undefined =>
    change c'.Built .null v' cs at h
    cases h
    exact .undefined
  | null =>
    change c'.Built .null v' cs at h
    cases h
    exact .null
  | bool b =>
    change c'.Built (.bool b) v' cs at h
    cases h
    exact .bool b
  | text s =>
    change c'.Built (.text s) v' cs at h
    cases h
    exact .text s
  | number x =>
    change c'.Built (if x.isFinite then .number (.float x) else .null) v' cs at h
    by_cases hx : x.isFinite = true
    · rw [if_pos hx] at h
      cases h
      exact .finite hx
    · rw [if_neg hx] at h
      cases h
      exact .notFinite (Bool.eq_false_iff.2 hx)
  | list l => cases hv
  | object o => cases hv

/-- What is made of the JSON form of a value is a copy of the value. -/
theorem Built.copies (named : ∀ o, ((c.entries o).map (·.1)).Nodup) {n : Nat} {v v' : Value} {cs : List Value} (hn : c.Nests n v)
    (h : c'.Built (c.jsonWithin n v) v' cs) : c.Copies c' v v' := by
  induction n generalizing v v' cs with
  | zero => exact Built.copies_scalar hn h
  | succ n ih =>
    cases v with
    | list l =>
      rw [jsonWithin] at h
      cases h with
      | array h =>
        obtain ⟨hlength, hget⟩ := h.get
        refine .list (hlength.trans (List.length_map _)) ?_
        intro i v v' hv hv'
        obtain ⟨cs, hbuilt⟩ := hget i (c.jsonWithin n v) v' (by rw [List.getElem?_map, hv, Option.map_some]) hv'
        exact ih (hn v (List.mem_of_getElem? hv)) hbuilt
    | object o =>
      have hkeys : (((c.entries o).map fun e => (e.1, c.jsonWithin n e.2)).map (·.1)) = (c.entries o).map (·.1) := by
        rw [List.map_map]
        rfl
      have hnodup : (((c.entries o).map fun e => (e.1, c.jsonWithin n e.2)).map (·.1)).Nodup := by
        rw [hkeys]
        exact named o
      obtain ⟨ms, hms, hascending, hmem⟩ := Json.exists_ofMembers hnodup
      rw [jsonWithin, hms] at h
      cases h with
      | object h =>
        obtain ⟨hnames, hget⟩ := h.get
        refine .object (by rw [Json.Ascending, hnames]; exact hascending) ?_ ?_
        · -- The same members have the same keys.
          rw [hnames, ← hkeys]
          refine (List.perm_ext_iff_of_nodup hascending.nodup hnodup).2 fun k => ?_
          rw [List.mem_map, List.mem_map]
          simp only [hmem]
        · intro k v v' hv hv'
          obtain ⟨j, cs, hj, hbuilt⟩ := hget k v' hv'
          obtain ⟨⟨k', u⟩, hu, he⟩ := List.mem_map.1 ((hmem (k, j)).1 hj)
          cases he
          have huv : u = v := Option.some.inj ((Fields.get?_of_mem (named o) hu).symm.trans (Fields.get?_of_mem (named o) hv))
          subst huv
          exact ih (hn u (List.mem_map_of_mem hu)) hbuilt
    | _ => exact Built.copies_scalar rfl h

end

mutual

/-- The JSON form of what is made of JSON is that JSON with its numbers as doubles. -/
theorem Built.json {c : Contents} {j : Json} {v : Value} {cs : List Value} {n : Nat} (h : c.Built j v cs) (hj : j.WellFormed)
    (hn : cs.length ≤ n) : c.jsonWithin n v = j.rounded := by
  cases h with
  | null => cases n <;> rfl
  | bool b => cases n <;> rfl
  | text s => cases n <;> rfl
  | number x =>
    rw [Json.WellFormed] at hj
    have hjson : c.jsonWithin n (.number x.toNumber) = if x.toNumber.isFinite then .number (.float x.toNumber) else .null := by
      cases n <;> rfl
    rw [hjson, if_pos (JsonNumber.toNumber_nearest hj).finite, Json.rounded]
  | array h =>
    obtain ⟨n, rfl⟩ : ∃ m, n = m + 1 := ⟨n - 1, by rw [List.length_cons] at hn; omega⟩
    rw [Json.WellFormed] at hj
    rw [jsonWithin, Json.rounded, BuiltItems.json h hj (Nat.le_of_succ_le_succ hn)]
  | object h =>
    obtain ⟨n, rfl⟩ : ∃ m, n = m + 1 := ⟨n - 1, by rw [List.length_cons] at hn; omega⟩
    rw [Json.WellFormed] at hj
    rw [jsonWithin, Json.rounded, BuiltMembers.json h hj.2 (Nat.le_of_succ_le_succ hn)]
    refine Json.ofMembers_sorted ?_
    rw [Json.keys_roundedMembers]
    exact hj.1

theorem BuiltItems.json {c : Contents} {js : List Json} {vs cs : List Value} {n : Nat} (h : c.BuiltItems js vs cs)
    (hj : Json.WellFormedItems js) (hn : cs.length ≤ n) : vs.map (c.jsonWithin n) = Json.roundedItems js := by
  cases h with
  | nil => rfl
  | cons h hs =>
    rw [List.length_append] at hn
    rw [Json.WellFormedItems] at hj
    rw [List.map_cons, Json.roundedItems, Built.json h hj.1 (by omega), BuiltItems.json hs hj.2 (by omega)]

theorem BuiltMembers.json {c : Contents} {ms : List (String × Json)} {es : List (String × Value)} {cs : List Value} {n : Nat}
    (h : c.BuiltMembers ms es cs) (hj : Json.WellFormedMembers ms) (hn : cs.length ≤ n) :
    es.map (fun e => (e.1, c.jsonWithin n e.2)) = Json.roundedMembers ms := by
  cases h with
  | nil => rfl
  | cons h hs =>
    rw [List.length_append] at hn
    rw [Json.WellFormedMembers] at hj
    rw [List.map_cons, Json.roundedMembers, Built.json h hj.1 (by omega), BuiltMembers.json hs hj.2 (by omega)]

end

end Contents

/-- Where changes are not refused, whatever the depth of dispatches: the JSON form of a value whose containers do not contain
themselves is made into a copy of it, a tree of containers of its own; and the JSON form of what is made of JSON is that JSON, every
number replaced by the nearest double. An object of the tree comes out as one whose entries were assigned one by one. -/
theorem json_round_trip {w : World κ ε} (hw : ¬w.refuses) (named : ∀ o, ((w.contents.entries o).map (·.1)).Nodup) :
    (∀ v, w.contents.Grounded v → (fromJson (w.contents.toJson v)).Ends w fun v' w' =>
      w.contents.Copies w'.contents v v' ∧ ∃ cs, w'.contents.Built (w.contents.toJson v) v' cs ∧ w.Fresh w' cs) ∧
    (∀ j : Json, j.WellFormed → (fromJson j).Ends w fun v w' =>
      w'.contents.toJson v = j.rounded ∧ ∃ cs, w'.contents.Built j v cs ∧ w.Fresh w' cs) ∧
    (∀ n : JsonNumber, n.InRange → n.toNumber.IsNearest n.units) ∧
    ∀ (R : Reactions κ ε) (entries : List (String × Value)), R.letGo = pure () → (entries.map (·.1)).Nodup →
      (∀ e ∈ entries, e.2 ≠ .undefined) →
      (do let o ← ObjectId.create []; o.fill R entries; return o) w = ObjectId.create entries w := by
  refine ⟨?_, ?_, fun n => JsonNumber.toNumber_nearest, fun R entries hR => ObjectId.create_filled hR hw⟩
  · intro v hv
    refine (fromJson_makes _ hw).imp ?_
    rintro v' w' ⟨cs, hbuilt, hfresh⟩
    exact ⟨hbuilt.copies named (World.nests hv), cs, hbuilt, hfresh⟩
  · intro j hj
    refine (fromJson_makes j hw).imp ?_
    rintro v w' ⟨cs, hbuilt, hfresh⟩
    exact ⟨hbuilt.json hj (Nat.le_succ_of_le hfresh.length_le), cs, hbuilt, hfresh⟩

/-- An object with a list in it and an object in that, at the limit of nested dispatches. -/
def World.boxes : World Unit Unit where
  lists := #[{ items := [.number .nan, .object ⟨1⟩] }]
  objects := #[{ entries := [("b", .list ⟨0⟩), ("a", .undefined)] }, {}]
  depth := 3
  config := { maxDispatchDepth := 3, onDepthExceeded := .skip }
  env := ()

/-- Every container of the boxes holds only what comes after it: the first object, the list, the other object. -/
def Value.boxRank : Value → Nat
  | .object ⟨0⟩ => 2
  | .list _ => 1
  | _ => 0

/-- A copy of three containers inside each other. -/
theorem json_round_trip_boxes :
    ¬World.boxes.refuses ∧ (∀ o, ((World.boxes.contents.entries o).map (·.1)).Nodup) ∧
      World.boxes.contents.Grounded (.object ⟨0⟩) ∧
      ∃ v w', fromJson (World.boxes.contents.toJson (.object ⟨0⟩)) World.boxes = .ok v w' ∧
        World.boxes.contents.Copies w'.contents (.object ⟨0⟩) v := by
  have hw : ¬World.boxes.refuses := by decide
  have named : ∀ o, ((World.boxes.contents.entries o).map (·.1)).Nodup := by
    rintro ⟨_ | _ | i⟩
    · decide
    · decide
    · exact List.nodup_nil
  have grounded : World.boxes.contents.Grounded (.object ⟨0⟩) := by
    refine .of_rank Value.boxRank ?_ _
    intro v u hu
    have hparts : u ∈ World.boxes.contents.parts v := hu
    rcases v with _ | _ | _ | _ | _ | ⟨_ | _⟩ | ⟨_ | _ | _⟩
    case list.zero =>
      change u ∈ [Value.number .nan, .object ⟨1⟩] at hparts
      simp only [List.mem_cons, List.not_mem_nil, or_false] at hparts
      rcases hparts with rfl | rfl <;> decide
    case object.zero =>
      change u ∈ [Value.list ⟨0⟩, .undefined] at hparts
      simp only [List.mem_cons, List.not_mem_nil, or_false] at hparts
      rcases hparts with rfl | rfl <;> decide
    all_goals cases hparts
  refine ⟨hw, named, grounded, ?_⟩
  obtain ⟨v, w', hrun, hcopies, -⟩ := Run.ends_iff.1 ((json_round_trip hw named).1 _ grounded)
  exact ⟨v, w', hrun, hcopies⟩

end LiveBindings
