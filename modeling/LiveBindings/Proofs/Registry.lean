import LiveBindings.Proofs.Deeds

/-!
# Who is registered, by what has happened

A chronicle tells what happened to listeners: which were registered and removed, which were called and returned, and which
changes of containers began and ended. From it follows who is registered under a topic (`Chronicle.standing`), with which
descriptors: a descriptor is made for the first listener of a list's content, of a list's length or of a property, and dropped
with the last (`Registry`). `Chronicle.accounts` says that in every chronicle that never registers a listener twice, additions
less effective removals are as many as the descriptors hold, and a descriptor is there exactly as long as it has a listener.
-/

namespace LiveBindings

/-! ## What happens -/

/-- A pass over the listeners of a topic: each is told once in every round. A round is about one index, or about no single
one. -/
structure Pass where
  channel : Channel
  rounds : List (Option Nat)
deriving DecidableEq

/-- The passes over listeners that are captured at the same moment. -/
abbrev Phase := List Pass

/-- How a change of a container is to be told. -/
inductive Schedule
  /-- Nobody is told. -/
  | silent
  /-- The change is refused. -/
  | refused
  | told (phases : List Phase)
deriving DecidableEq

/-- What happens to listeners. -/
inductive Occurrence
  | added (c : Channel) (id : ListenerId)
  /-- A removal; it has no effect when the listener is not there. -/
  | removed (c : Channel) (id : ListenerId)
  | called (id : ListenerId) (round : Option Nat)
  | returned (id : ListenerId)
  | begun (schedule : Schedule)
  | ended
deriving DecidableEq

/-- What happened, and how many listeners there were on each topic then. -/
structure Moment where
  what : Occurrence
  counts : Channel → Nat

/-- What has happened, the latest first. -/
abbrev Chronicle := List Moment

namespace Occurrence

variable (c : Channel)

/-- The listener that is registered on a topic. -/
def enrols? : Occurrence → Option ListenerId
  | added c' id => if c' = c then some id else none
  | _ => none

/-- The listener that is registered on any topic. -/
def newcomer? : Occurrence → Option ListenerId
  | added _ id => some id
  | _ => none

/-- What becomes of those who are registered on a topic. -/
def alters (ids : List ListenerId) : Occurrence → List ListenerId
  | added c' id => if c' = c then ids ++ [id] else ids
  | removed c' id => if c' = c then ids.erase id else ids
  | _ => ids

/-- Whether a listener is removed from a topic on which it is registered. -/
def dismisses (ids : List ListenerId) : Occurrence → Bool
  | removed c' id => c' = c && ids.contains id
  | _ => false

end Occurrence

namespace Chronicle

/-- The listeners that have been registered on a topic, in the order of registration. -/
def enrolled (c : Channel) (h : Chronicle) : List ListenerId := h.reverse.filterMap (·.what.enrols? c)

/-- The listeners that have been registered on any topic. -/
def ids (h : Chronicle) : List ListenerId := h.filterMap (·.what.newcomer?)

/-- The listeners that are registered on a topic, in the order of registration. -/
def standing (c : Channel) : Chronicle → List ListenerId
  | [] => []
  | m :: h => m.what.alters c (standing c h)

/-- How many listeners have been removed from a topic on which they were registered. -/
def removals (c : Channel) : Chronicle → Nat
  | [] => 0
  | m :: h => removals c h + if m.what.dismisses c (standing c h) then 1 else 0

/-- A listener has been removed from a topic since an earlier moment. -/
def RemovedSince (h₀ h : Chronicle) (c : Channel) (id : ListenerId) : Prop :=
  ∃ recent, h = recent ++ h₀ ∧ ∃ m ∈ recent, m.what = .removed c id

/-! ## Who is registered -/

variable {h h₀ : Chronicle} {c c' : Channel} {id : ListenerId}

theorem enrolled_cons (c : Channel) (m : Moment) (h : Chronicle) :
    enrolled c (m :: h) = enrolled c h ++ (m.what.enrols? c).toList := by
  rw [enrolled, List.reverse_cons, List.filterMap_append, enrolled]
  cases hm : m.what.enrols? c <;> simp [hm]

theorem ids_cons (m : Moment) (h : Chronicle) : ids (m :: h) = m.what.newcomer?.toList ++ ids h := by
  rw [ids, List.filterMap_cons, ids]
  cases m.what.newcomer? <;> rfl

theorem mem_enrolled : id ∈ enrolled c h ↔ ∃ m ∈ h, m.what = .added c id := by
  simp only [enrolled, List.mem_filterMap, List.mem_reverse]
  refine exists_congr fun m => and_congr_right fun _ => ?_
  cases m.what <;> simp [Occurrence.enrols?]

theorem mem_ids : id ∈ ids h ↔ ∃ c, id ∈ enrolled c h := by
  simp only [mem_enrolled, ids, List.mem_filterMap]
  constructor
  · rintro ⟨m, hm, hid⟩
    cases hw : m.what with
    | added c id' =>
      rw [hw] at hid
      obtain rfl : id' = id := Option.some.inj hid
      exact ⟨c, m, hm, hw⟩
    | removed | called | returned | begun | ended =>
      rw [hw] at hid
      cases hid
  · rintro ⟨c, m, hm, hw⟩
    exact ⟨m, hm, by rw [hw]; rfl⟩

/-- Those who are registered have been, in this order. -/
theorem standing_sublist (c : Channel) (h : Chronicle) : (standing c h).Sublist (enrolled c h) := by
  induction h with
  | nil => exact List.Sublist.slnil
  | cons m h ih =>
    rw [enrolled_cons, standing]
    cases m.what with
    | added c' id =>
      by_cases hc : c' = c
      · simpa [Occurrence.alters, Occurrence.enrols?, hc] using ih
      · simpa [Occurrence.alters, Occurrence.enrols?, hc] using ih
    | removed c' id =>
      simp only [Occurrence.alters, Occurrence.enrols?, Option.toList_none, List.append_nil]
      split
      · exact List.erase_sublist.trans ih
      · exact ih
    | called | returned | begun | ended => simpa [Occurrence.alters, Occurrence.enrols?] using ih

/-- Additions less effective removals are as many as are registered. -/
theorem standing_balance (c : Channel) (h : Chronicle) : (standing c h).length + removals c h = (enrolled c h).length := by
  induction h with
  | nil => rfl
  | cons m h ih =>
    rw [enrolled_cons, standing, removals, List.length_append, ← ih]
    cases m.what with
    | added c' id =>
      by_cases hc : c' = c
      · simp only [Occurrence.alters, Occurrence.enrols?, Occurrence.dismisses, if_pos hc, List.length_append,
          Option.toList_some, List.length_singleton, Bool.false_eq_true, if_false]
        omega
      · simp [Occurrence.alters, Occurrence.enrols?, Occurrence.dismisses, hc]
    | removed c' id =>
      by_cases hc : c' = c
      · by_cases hid : id ∈ standing c h
        · have hpos := List.length_pos_of_mem hid
          simp only [Occurrence.alters, Occurrence.enrols?, Occurrence.dismisses, hc, if_true, List.length_erase_of_mem hid,
            decide_true, Bool.true_and, List.contains_iff_mem.2 hid, Option.toList_none, List.length_nil]
          omega
        · simp [Occurrence.alters, Occurrence.enrols?, Occurrence.dismisses, hc, List.erase_of_not_mem hid, hid]
      · simp [Occurrence.alters, Occurrence.enrols?, Occurrence.dismisses, hc]
    | called | returned | begun | ended => simp [Occurrence.alters, Occurrence.enrols?, Occurrence.dismisses]

/-- When nobody is registered twice, everybody is registered on one topic at most. -/
theorem channel_unique (hn : (ids h).Nodup) (hc : id ∈ enrolled c h) (hc' : id ∈ enrolled c' h) : c = c' := by
  induction h with
  | nil => simp [enrolled] at hc
  | cons m h ih =>
    rw [enrolled_cons, List.mem_append] at hc hc'
    cases hw : m.what with
    | added c₀ id₀ =>
      simp only [ids_cons, hw, Occurrence.newcomer?, Option.toList_some, List.singleton_append, List.nodup_cons] at hn
      have new : ∀ {c}, id ∈ (Occurrence.enrols? c (.added c₀ id₀)).toList → c₀ = c ∧ id₀ = id := by
        intro c hid
        rw [Option.mem_toList, Occurrence.enrols?] at hid
        split at hid
        · exact ⟨‹_›, Option.some.inj hid⟩
        · cases hid
      rw [hw] at hc hc'
      have old : ∀ {c}, id ∈ enrolled c h → id₀ ≠ id := fun hid he => hn.1 (mem_ids.2 ⟨_, he ▸ hid⟩)
      rcases hc with hc | hc <;> rcases hc' with hc' | hc'
      · exact ih hn.2 hc hc'
      · exact absurd (new hc').2 (old hc)
      · exact absurd (new hc).2 (old hc')
      · exact (new hc).1.symm.trans (new hc').1
    | removed | called | returned | begun | ended =>
      simp only [ids_cons, hw, Occurrence.newcomer?, Option.toList_none, List.nil_append] at hn
      simp only [hw, Occurrence.enrols?, Option.toList_none, List.not_mem_nil, or_false] at hc hc'
      exact ih hn hc hc'

theorem nodup_enrolled (hn : (ids h).Nodup) : (enrolled c h).Nodup := by
  induction h with
  | nil => exact List.nodup_nil
  | cons m h ih =>
    rw [enrolled_cons]
    cases hw : m.what with
    | added c' id =>
      simp only [ids_cons, hw, Occurrence.newcomer?, Option.toList_some, List.singleton_append, List.nodup_cons] at hn
      rw [Occurrence.enrols?]
      split
      · exact List.Nodup.append (ih hn.2) (List.nodup_singleton id)
          (List.disjoint_singleton.2 fun hid => hn.1 (mem_ids.2 ⟨c, hid⟩))
      · simpa using ih hn.2
    | removed | called | returned | begun | ended =>
      simp only [ids_cons, hw, Occurrence.newcomer?, Option.toList_none, List.nil_append] at hn
      simpa [Occurrence.enrols?] using ih hn

theorem nodup_standing (hn : (ids h).Nodup) : (standing c h).Nodup := (nodup_enrolled hn).sublist (standing_sublist c h)

theorem removedSince_append {recent : Chronicle} :
    RemovedSince h₀ (recent ++ h₀) c id ↔ ∃ m ∈ recent, m.what = .removed c id :=
  ⟨fun ⟨_, he, hr⟩ => List.append_cancel_right he ▸ hr, fun hr => ⟨recent, rfl, hr⟩⟩

/-- Who was registered once still is unless removed since, and on no other topic. -/
theorem mem_standing_since {recent : Chronicle} (hn : (ids (recent ++ h₀)).Nodup) (hid : id ∈ standing c h₀) :
    id ∈ standing c' (recent ++ h₀) ↔ c' = c ∧ ¬∃ m ∈ recent, m.what = .removed c id := by
  induction recent with
  | nil =>
    refine ⟨fun hid' => ⟨?_, by simp⟩, fun ⟨hc, _⟩ => hc ▸ hid⟩
    exact channel_unique hn ((standing_sublist c' h₀).subset hid') ((standing_sublist c h₀).subset hid)
  | cons m recent ih =>
    rw [List.cons_append] at hn ⊢
    have hids : id ∈ ids (recent ++ h₀) := by
      have := mem_ids.2 ⟨c, (standing_sublist c h₀).subset hid⟩
      rw [ids, List.filterMap_append]
      exact List.mem_append_right _ this
    simp only [List.exists_mem_cons_iff, standing]
    cases hw : m.what with
    | added c₀ id₀ =>
      simp only [ids_cons, hw, Occurrence.newcomer?, Option.toList_some, List.singleton_append, List.nodup_cons] at hn
      have hne : id ≠ id₀ := fun he => hn.1 (he ▸ hids)
      rw [Occurrence.alters]
      split <;> simp [ih hn.2, hne]
    | removed c₀ id₀ =>
      simp only [ids_cons, hw, Occurrence.newcomer?, Option.toList_none, List.nil_append] at hn
      have hnodup : (standing c' (recent ++ h₀)).Nodup := nodup_standing hn
      rw [Occurrence.alters]
      by_cases hc : c₀ = c'
      · rw [if_pos hc, hnodup.mem_erase_iff, ih hn]
        subst hc
        simp only [Occurrence.removed.injEq]
        grind
      · rw [if_neg hc, ih hn]
        simp only [Occurrence.removed.injEq]
        grind
    | called | returned | begun | ended =>
      simp only [ids_cons, hw, Occurrence.newcomer?, Option.toList_none, List.nil_append] at hn
      simp [Occurrence.alters, ih hn]

end Chronicle

/-! ## Descriptors -/

/-- What a descriptor describes. -/
inductive Described
  | content (l : ListId)
  | length (l : ListId)
  | property (o : ObjectId) (key : String)
deriving DecidableEq

/-- What the descriptor with the listeners of a topic describes; those of all entries of an object are in none. -/
def Channel.described : Channel → Option Described
  | list l .beforeLength | list l .length => some (.length l)
  | list l _ => some (.content l)
  | object o (.before key) | object o (.after key) => some (.property o key)
  | object _ .entries => none

/-- The topics whose listeners are in a descriptor. -/
def Described.channels : Described → List Channel
  | content l => [.list l .beforeContent, .list l .content, .list l .beforeEach, .list l .each]
  | length l => [.list l .beforeLength, .list l .length]
  | property o key => [.object o (.before key), .object o (.after key)]

theorem Described.mem_channels {d : Described} {c : Channel} : c ∈ d.channels ↔ c.described = some d := by
  cases c with
  | list l topic => cases d <;> cases topic <;> simp [channels, Channel.described, eq_comm]
  | object o topic => cases d <;> cases topic <;> simp [channels, Channel.described, eq_comm]

/-- The descriptors that there are, each with the listeners of its topics, and the listeners that are in no descriptor. -/
structure Registry where
  descriptors : Described → Option (Channel → List ListenerId) := fun _ => none
  bare : Channel → List ListenerId := fun _ => []

namespace Registry

/-- The listeners of a topic. -/
def listed (r : Registry) (c : Channel) : List ListenerId :=
  match c.described with
  | some d => ((r.descriptors d).map (· c)).getD []
  | none => r.bare c

/-- Adds a listener at the end, to a new descriptor if there is none. -/
def add (r : Registry) (c : Channel) (id : ListenerId) : Registry :=
  match c.described with
  | some d =>
    let lists := (r.descriptors d).getD fun _ => []
    { r with descriptors := Function.update r.descriptors d (some (Function.update lists c (lists c ++ [id]))) }
  | none => { r with bare := Function.update r.bare c (r.bare c ++ [id]) }

/-- A descriptor, dropped when it has no listener left. -/
def trimmed (d : Described) (lists : Channel → List ListenerId) : Option (Channel → List ListenerId) :=
  if d.channels.all fun c => (lists c).isEmpty then none else some lists

/-- Removes a listener, if it is there, and with the last one the descriptor. -/
def remove (r : Registry) (c : Channel) (id : ListenerId) : Registry :=
  match c.described with
  | some d =>
    match r.descriptors d with
    | some lists =>
      { r with descriptors := Function.update r.descriptors d (trimmed d (Function.update lists c ((lists c).erase id))) }
    | none => r
  | none => { r with bare := Function.update r.bare c ((r.bare c).erase id) }

/-- Every descriptor has a listener. -/
def Trim (r : Registry) : Prop := ∀ d lists, r.descriptors d = some lists → ∃ c ∈ d.channels, lists c ≠ []

variable {r : Registry} {c : Channel} {d : Described} {id : ListenerId} {lists : Channel → List ListenerId}

theorem listed_bare (hc : c.described = none) : r.listed c = r.bare c := by
  rw [listed, hc]

theorem listed_described (hc : c.described = some d) : r.listed c = ((r.descriptors d).map (· c)).getD [] := by
  rw [listed, hc]

/-- A descriptor that is dropped listed nobody. -/
theorem trimmed_listed (hc : c ∈ d.channels) (lists : Channel → List ListenerId) :
    ((trimmed d lists).map (· c)).getD [] = lists c := by
  unfold trimmed
  split
  · rename_i hall
    rw [List.all_eq_true] at hall
    exact (List.isEmpty_iff.1 (hall c hc)).symm
  · rfl

theorem trimmed_eq_some {lists' : Channel → List ListenerId} :
    trimmed d lists = some lists' ↔ lists = lists' ∧ ∃ c ∈ d.channels, lists c ≠ [] := by
  unfold trimmed
  split
  · rename_i hall
    rw [List.all_eq_true] at hall
    simp only [reduceCtorEq, false_iff, not_and, not_exists, not_not]
    exact fun _ c hc => List.isEmpty_iff.1 (hall c hc)
  · rename_i hall
    simp only [List.all_eq_true, List.isEmpty_iff, not_forall, exists_prop] at hall
    simp [hall]

theorem remove_found (hc : c.described = some d) (hd : r.descriptors d = some lists) (id : ListenerId) :
    r.remove c id = { r with
      descriptors := Function.update r.descriptors d (trimmed d (Function.update lists c ((lists c).erase id))) } := by
  simp only [remove, hc, hd]

theorem remove_absent (hc : c.described = some d) (hd : r.descriptors d = none) (id : ListenerId) : r.remove c id = r := by
  simp only [remove, hc, hd]

theorem remove_bare (hc : c.described = none) (id : ListenerId) :
    r.remove c id = { r with bare := Function.update r.bare c ((r.bare c).erase id) } := by
  simp only [remove, hc]

theorem listed_add (r : Registry) (c : Channel) (id : ListenerId) (c' : Channel) :
    (r.add c id).listed c' = if c = c' then r.listed c' ++ [id] else r.listed c' := by
  unfold add listed
  cases hc : c.described with
  | none =>
    by_cases hcc : c = c'
    · subst hcc
      simp [hc]
    · cases hc' : c'.described <;> simp [hcc, Function.update_of_ne (Ne.symm hcc)]
  | some d =>
    by_cases hcc : c = c'
    · subst hcc
      cases hd : r.descriptors d <;> simp [hc, hd]
    · cases hc' : c'.described with
      | none => simp [hcc]
      | some d' =>
        by_cases hdd : d' = d
        · subst hdd
          cases hd : r.descriptors d' <;> simp [hcc, hd, Function.update_of_ne (Ne.symm hcc)]
        · simp [hcc, Function.update_of_ne hdd]

theorem listed_remove (r : Registry) (c : Channel) (id : ListenerId) (c' : Channel) :
    (r.remove c id).listed c' = if c = c' then (r.listed c').erase id else r.listed c' := by
  cases hc : c.described with
  | none =>
    rw [remove_bare hc]
    by_cases hcc : c = c'
    · subst hcc
      simp [listed_bare hc]
    · cases hc' : c'.described with
      | none => simp [listed_bare hc', hcc, Function.update_of_ne (Ne.symm hcc)]
      | some d' => simp [listed_described hc', hcc]
  | some d =>
    cases hd : r.descriptors d with
    | none =>
      rw [remove_absent hc hd]
      by_cases hcc : c = c'
      · subst hcc
        simp [listed_described hc, hd]
      · rw [if_neg hcc]
    | some lists =>
      rw [remove_found hc hd]
      cases hc' : c'.described with
      | none =>
        have hcc : c ≠ c' := fun he => by simp [he, hc'] at hc
        rw [if_neg hcc, listed_bare hc', listed_bare hc']
      | some d' =>
        rw [listed_described hc', listed_described hc']
        by_cases hdd : d' = d
        · subst hdd
          dsimp only
          rw [Function.update_self, trimmed_listed (Described.mem_channels.2 hc'), hd]
          by_cases hcc : c = c'
          · subst hcc
            simp
          · simp [hcc, Function.update_of_ne (Ne.symm hcc)]
        · have hcc : c ≠ c' := fun he => hdd (by rw [he, hc'] at hc; exact Option.some.inj hc)
          dsimp only
          rw [if_neg hcc, Function.update_of_ne hdd]

theorem trim_add (hr : r.Trim) (c : Channel) (id : ListenerId) : (r.add c id).Trim := by
  unfold add
  cases hc : c.described with
  | none => exact hr
  | some d =>
    intro d' lists hd'
    by_cases hdd : d' = d
    · subst hdd
      simp only [Function.update_self, Option.some.injEq] at hd'
      exact ⟨c, Described.mem_channels.2 hc, by simp [← hd']⟩
    · exact hr d' lists (by simpa [Function.update_of_ne hdd] using hd')

theorem trim_remove (hr : r.Trim) (c : Channel) (id : ListenerId) : (r.remove c id).Trim := by
  cases hc : c.described with
  | none =>
    rw [remove_bare hc]
    exact hr
  | some d =>
    cases hd : r.descriptors d with
    | none =>
      rw [remove_absent hc hd]
      exact hr
    | some lists =>
      rw [remove_found hc hd]
      intro d' lists' hd'
      dsimp only at hd'
      by_cases hdd : d' = d
      · subst hdd
        rw [Function.update_self, trimmed_eq_some] at hd'
        exact hd'.1 ▸ hd'.2
      · rw [Function.update_of_ne hdd] at hd'
        exact hr d' lists' hd'

/-- A listener that is not there is not removed. -/
theorem remove_unknown (hr : r.Trim) (hid : id ∉ r.listed c) : r.remove c id = r := by
  cases hc : c.described with
  | none =>
    rw [listed_bare hc] at hid
    rw [remove_bare hc, List.erase_of_not_mem hid, Function.update_eq_self]
  | some d =>
    cases hd : r.descriptors d with
    | none => exact remove_absent hc hd id
    | some lists =>
      rw [listed_described hc, hd, Option.map_some, Option.getD_some] at hid
      have kept : trimmed d lists = some lists := trimmed_eq_some.2 ⟨rfl, hr d lists hd⟩
      rw [remove_found hc hd, List.erase_of_not_mem hid, Function.update_eq_self, kept, ← hd, Function.update_eq_self]

end Registry

/-! ## Accounts -/

namespace Chronicle

/-- The descriptors after all that has happened. -/
def registry : Chronicle → Registry
  | [] => {}
  | m :: h =>
    match m.what with
    | .added c id => (registry h).add c id
    | .removed c id => (registry h).remove c id
    | _ => registry h

theorem registry_trim (h : Chronicle) : h.registry.Trim := by
  induction h with
  | nil => exact fun d lists hd => by simp [registry] at hd
  | cons m h ih =>
    rw [registry]
    split
    · exact Registry.trim_add ih _ _
    · exact Registry.trim_remove ih _ _
    · exact ih

/-- The descriptors list those who are registered. -/
theorem registry_listed (h : Chronicle) (c : Channel) : h.registry.listed c = standing c h := by
  induction h with
  | nil =>
    rw [registry, Registry.listed]
    cases c.described <;> rfl
  | cons m h ih =>
    rw [registry, standing]
    cases m.what with
    | added c' id => rw [Occurrence.alters, Registry.listed_add, ih]
    | removed c' id => rw [Occurrence.alters, Registry.listed_remove, ih]
    | called | returned | begun | ended => exact ih

/-- How many listeners there are on each topic is accounted for by what has happened: additions less effective removals are as
many, the descriptors hold as many, and a descriptor is there exactly when it has one. Those who are registered on a topic are
so once, in the order in which they came, and the removal of one who is not leaves the descriptors as they are. -/
structure Accounts (h : Chronicle) (counts : Channel → Nat) : Prop where
  balance : ∀ c, counts c + removals c h = (enrolled c h).length
  held : ∀ c, (h.registry.listed c).length = counts c
  present : ∀ d, (h.registry.descriptors d).isSome ↔ ∃ c ∈ d.channels, 0 < counts c
  inOrder : ∀ c, (h.registry.listed c).Sublist (enrolled c h)
  once : ∀ c, (h.registry.listed c).Nodup
  unknown : ∀ c id, id ∉ h.registry.listed c → h.registry.remove c id = h.registry

theorem accounts {h : Chronicle} (hn : (ids h).Nodup) : h.Accounts fun c => (standing c h).length where
  balance c := standing_balance c h
  held c := by rw [registry_listed]
  present d := by
    simp only [List.length_pos_iff, ← registry_listed h]
    constructor
    · intro hd
      obtain ⟨lists, hd⟩ := Option.isSome_iff_exists.1 hd
      obtain ⟨c, hc, hne⟩ := registry_trim h d lists hd
      refine ⟨c, hc, ?_⟩
      simpa [Registry.listed, Described.mem_channels.1 hc, hd] using hne
    · rintro ⟨c, hc, hne⟩
      cases hd : h.registry.descriptors d with
      | none => simp [Registry.listed, Described.mem_channels.1 hc, hd] at hne
      | some lists => rfl
  inOrder c := registry_listed h c ▸ standing_sublist c h
  once c := registry_listed h c ▸ nodup_standing hn
  unknown _ _ hid := Registry.remove_unknown (registry_trim h) hid

end Chronicle

end LiveBindings
