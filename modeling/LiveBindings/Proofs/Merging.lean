import LiveBindings.Proofs.Buckets

/-!
# Buckets by name

Keys that are written alike share an entry of the object that a view fills, and the buckets of such keys are merged into a list of
the view. `bucketsByName` collects the buckets of each name; `Around.mergeBuckets` follows how the list of every name is found or
filled, and `Around.publishGroupMap` how the object gets an entry for every name and loses those of all others.
-/

namespace LiveBindings

/-! ## The buckets of a name -/

section

variable {c : Contents} {bs : List Bucket} {name : String}

theorem bucketsByName_concat (c : Contents) (bs : List Bucket) (b : Bucket) : bucketsByName c (bs ++ [b]) =
    Fields.put (c.key b.key) ((Fields.get? (c.key b.key) (bucketsByName c bs)).getD [] ++ [b]) (bucketsByName c bs) := by
  simp [bucketsByName, List.foldl_append]

theorem nodup_bucketsByName (c : Contents) (bs : List Bucket) : ((bucketsByName c bs).map (·.1)).Nodup := by
  induction bs using List.reverseRecOn with
  | nil => exact List.nodup_nil
  | append_singleton bs b ih =>
    rw [bucketsByName_concat]
    exact Fields.nodup_put ih _ _

/-- The buckets of a name are those whose keys are written so, in their order. -/
theorem getD_bucketsByName (c : Contents) (bs : List Bucket) (name : String) :
    (Fields.get? name (bucketsByName c bs)).getD [] = bs.filter fun b => c.key b.key == name := by
  induction bs using List.reverseRecOn with
  | nil => rfl
  | append_singleton bs b ih =>
    rw [bucketsByName_concat, List.filter_append]
    by_cases h : c.key b.key = name
    · subst h
      rw [Fields.get?_put_self, ih]
      simp
    · rw [Fields.get?_put_of_ne (Ne.symm h), ih]
      simp [h]

theorem mem_names_bucketsByName : name ∈ (bucketsByName c bs).map (·.1) ↔ ∃ b ∈ bs, c.key b.key = name := by
  induction bs using List.reverseRecOn with
  | nil => simp [bucketsByName]
  | append_singleton bs b ih =>
    rw [bucketsByName_concat, Fields.names_put]
    by_cases h : c.key b.key = name
    · split
      · rename_i hm
        rw [h] at hm
        exact iff_of_true hm ⟨b, by simp, h⟩
      · exact iff_of_true (by simp [h]) ⟨b, by simp, h⟩
    · split
      · simp only [ih, List.mem_append, List.mem_singleton, or_and_right, exists_or, exists_eq_left, h, or_false]
      · simp only [List.mem_append, List.mem_singleton, Ne.symm h, or_false, ih, or_and_right, exists_or, exists_eq_left, h]

theorem eq_filter_of_mem_bucketsByName {buckets : List Bucket} (h : (name, buckets) ∈ bucketsByName c bs) :
    buckets = bs.filter fun b => c.key b.key == name := by
  rw [← getD_bucketsByName, Fields.get?_of_mem (nodup_bucketsByName c bs) h, Option.getD_some]

end

variable {π σ : Type}

/-- The items of a list of a name are those of the members of its buckets. -/
def World.Joins (w : World (Callback π) (Env π σ)) : List (String × List Bucket) → List (String × ListId) → Prop :=
  List.Forall₂ fun g f => f.1 = g.1 ∧ SameItems (w.listCell f.2).items (g.2.flatMap fun b => (w.listCell b.members).items)

namespace Neighbours

variable {N : Neighbours π σ} {E : Engine π σ} {S T : Set Part} {w w' w₁ : World (Callback π) (Env π σ)} {b : Ref .block}
  {output : ObjectId} {r : Ref .relations} {bs bs' : List Bucket} {merged : List (String × ListId)} {name : String} {names : List String}

/-- The lists in which buckets are merged are the view's, one for each name, and apart from those of the buckets. -/
structure Merges (N : Neighbours π σ) (bs : List Bucket) (merged : List (String × ListId)) (w : World (Callback π) (Env π σ)) : Prop where
  owns : ∀ n l, Fields.get? n merged = some l → N.Owns w (.list l)
  inj : ∀ n n' l, Fields.get? n merged = some l → Fields.get? n' merged = some l → n = n'
  apart : ∀ n l, Fields.get? n merged = some l → ∀ b ∈ bs, l ≠ b.members ∧ l ≠ b.pair

/-- The merged lists of some names. -/
def mergedLists (merged : List (String × ListId)) (names : List String) : Set Part :=
  {p | ∃ n ∈ names, ∃ l, Fields.get? n merged = some l ∧ p = .list l}

@[simp] theorem block_notMem_mergedLists {b : Ref .block} : .block b ∉ mergedLists merged names := by simp [mergedLists]

@[simp] theorem object_notMem_mergedLists {o : ObjectId} : .object o ∉ mergedLists merged names := by simp [mergedLists]

theorem mergedLists_mono {names' : List String} (h : names ⊆ names') : mergedLists merged names ⊆ mergedLists merged names' :=
  fun _ ⟨n, hn, hp⟩ => ⟨n, h hn, hp⟩

@[simp] theorem disjoint_mergedLists {D : Desk} {xs : List Row} : Disjoint (rowParts D xs) (mergedLists merged names) :=
  Set.disjoint_right.2 fun _ ⟨_, _, _, _, hp⟩ => hp ▸ list_notMem_rowParts

theorem mergedLists_filter_subset (p : String → Bool) : mergedLists (merged.filter fun m => p m.1) names ⊆ mergedLists merged names := by
  rintro _ ⟨n, hn, l, hl, rfl⟩
  rw [Fields.get?_filter] at hl
  split at hl
  · exact ⟨n, hn, l, hl, rfl⟩
  · cases hl

namespace Merges

/-- The lists of a bucket are not among those in which buckets are merged. -/
theorem notMem (h : N.Merges bs merged w) {bucket : Bucket} (hb : bucket ∈ bs) :
    .list bucket.members ∉ mergedLists merged names ∧ .list bucket.pair ∉ mergedLists merged names :=
  ⟨fun ⟨n, _, l, hl, he⟩ => (h.apart n l hl bucket hb).1 (Part.list.inj he).symm,
    fun ⟨n, _, l, hl, he⟩ => (h.apart n l hl bucket hb).2 (Part.list.inj he).symm⟩

theorem after (h : N.Merges bs merged w) (h' : N.Changes S T w w') : N.Merges bs merged w' :=
  ⟨fun n l hl => h'.owns _ (h.owns n l hl), h.inj, h.apart⟩

/-- Only some names keep their lists. -/
theorem filter (h : N.Merges bs merged w) (p : String → Bool) : N.Merges bs (merged.filter fun m => p m.1) w := by
  have hget {n : String} {l : ListId} (hl : Fields.get? n (merged.filter fun m => p m.1) = some l) : Fields.get? n merged = some l := by
    rw [Fields.get?_filter] at hl
    split at hl
    · exact hl
    · cases hl
  exact ⟨fun n l hl => h.owns n l (hget hl), fun n n' l hl hl' => h.inj n n' l (hget hl) (hget hl'), fun n l hl => h.apart n l (hget hl)⟩

/-- A name gets a new list. -/
theorem put {l : ListId} (h : N.Merges bs merged w) (hs : N.Sorted bs w) (h' : N.Changes S T w w') (hl : N.Owns w' (.list l))
    (hn : ¬w.Made (.list l)) : N.Merges bs (Fields.put name l merged) w' := by
  have hget {n : String} {l' : ListId} (h : Fields.get? n (Fields.put name l merged) = some l') :
      (n = name ∧ l' = l) ∨ Fields.get? n merged = some l' := by
    by_cases hn : n = name
    · subst hn
      rw [Fields.get?_put_self] at h
      exact .inl ⟨rfl, (Option.some.inj h).symm⟩
    · rw [Fields.get?_put_of_ne hn] at h
      exact .inr h
  have hmade {n : String} (hg : Fields.get? n merged = some l) : False := hn (h.owns n l hg).made
  constructor
  · intro n l' hg
    rcases hget hg with ⟨-, rfl⟩ | hg
    · exact hl
    · exact h'.owns _ (h.owns n l' hg)
  · intro n n' l' hg hg'
    rcases hget hg with ⟨rfl, rfl⟩ | hg₀ <;> rcases hget hg' with ⟨rfl, hl'⟩ | hg'
    · rfl
    · exact (hmade hg').elim
    · exact (hmade (hl' ▸ hg₀)).elim
    · exact h.inj n n' l' hg₀ hg'
  · intro n l' hg b hb
    rcases hget hg with ⟨-, rfl⟩ | hg
    · exact ⟨fun he => hn (he ▸ (hs.stands b hb).members.made), fun he => hn (he ▸ (hs.stands b hb).pair.made)⟩
    · exact h.apart n l' hg b hb

end Merges

/-- The view has a list for every name. -/
structure Joined (N : Neighbours π σ) (named : List (String × List Bucket)) (lists : List (String × ListId))
    (w : World (Callback π) (Env π σ)) : Prop where
  owns : ∀ f ∈ lists, N.Owns w (.list f.2)
  joins : w.Joins named lists

namespace Joined

variable {named : List (String × List Bucket)} {lists : List (String × ListId)}

theorem map_names (h : N.Joined named lists w) : lists.map (·.1) = named.map (·.1) := by
  obtain ⟨-, hjoins⟩ := h
  induction hjoins with
  | nil => rfl
  | cons hfg _ ih => rw [List.map_cons, List.map_cons, hfg.1, ih]

/-- The lists are still there after what touches no list. -/
theorem after (h : N.Joined named lists w) (hs : N.Sorted bs w) (hsub : ∀ g ∈ named, g.2 ⊆ bs) (h' : N.Changes S T w w')
    (hn : ∀ l, .list l ∉ S) : N.Joined named lists w' := by
  obtain ⟨howns, hjoins⟩ := h
  refine ⟨fun f hf => h'.owns _ (howns f hf), ?_⟩
  induction hjoins with
  | nil => exact .nil
  | @cons g f _ _ hfg _ ih =>
    rw [List.forall_mem_cons] at howns hsub
    have hlist : (w'.listCell f.2).items = (w.listCell f.2).items := h'.same _ howns.1 (hn _)
    have hmembers : (g.2.flatMap fun b => (w'.listCell b.members).items) = g.2.flatMap fun b => (w.listCell b.members).items :=
      List.flatMap_congr fun b hb => h'.same _ (hs.stands b (hsub.1 hb)).members (hn _)
    exact .cons ⟨hfg.1, by rw [hlist, hmembers]; exact hfg.2⟩ (ih hsub.2 howns.2)

end Joined

/-- The object of a view has the entries of its buckets, whose keys were written as they are in some contents. -/
structure Publishes (N : Neighbours π σ) (output : ObjectId) (bs : List Bucket) (c : Contents) (lists : List (String × ListId))
    (w : World (Callback π) (Env π σ)) : Prop where
  joined : N.Joined (bucketsByName c bs) lists w
  nodup : ((w.objectCell output).entries.map (·.1)).Nodup
  entries : ∀ n, Fields.get? n (w.objectCell output).entries = (Fields.get? n lists).map Value.list

theorem subset_of_mem_bucketsByName {c : Contents} : ∀ g ∈ bucketsByName c bs, g.2 ⊆ bs := fun g hg => by
  rw [eq_filter_of_mem_bucketsByName hg]
  exact List.filter_sublist.subset

/-- The entries are still there after what touches neither the object nor any list. -/
theorem Publishes.after {c : Contents} {lists : List (String × ListId)} (h : N.Publishes output bs c lists w) (hs : N.Sorted bs w)
    (ho : N.Owns w (.object output)) (h' : N.Changes S T w w') (hl : ∀ l, .list l ∉ S) (hn : .object output ∉ S) :
    N.Publishes output bs c lists w' := by
  have hsame : (w'.objectCell output).entries = (w.objectCell output).entries := h'.same _ ho hn
  exact ⟨h.joined.after hs subset_of_mem_bucketsByName h' hl, by rw [hsame]; exact h.nodup, by rw [hsame]; exact h.entries⟩

theorem Keeps.ends_mergedOf (h : N.Keeps b (.groupMap output r bs merged) w)
    (Q : List (String × ListId) → World (Callback π) (Env π σ) → Prop) : (mergedOf b).Ends w Q ↔ Q merged w := by
  simp only [mergedOf, Run.ends_bind, ends_envCells, h.block?, Run.ends_pure]

theorem ends_concatItems (ls : List ListId) (Q : List Value → World (Callback π) (Env π σ) → Prop) :
    (concatItems ls : Live π σ _).Ends w Q ↔ Q (ls.flatMap fun l => (w.listCell l).items) w := by
  induction ls generalizing Q with
  | nil => rfl
  | cons l ls ih =>
    simp only [concatItems, Run.ends_bind, ListId.ends_items, ih, Run.ends_pure, List.flatMap_cons]
    rfl

/-- What is found for a name when names without a list have been deleted and all others have got theirs. -/
theorem get?_published (lists : List (String × ListId)) (entries : List (String × Value)) (n : String) :
    ((Fields.get? n lists).map Value.list).or (Fields.get? n (entries.filter fun f =>
      !(entries.map (·.1)).contains f.1 || (lists.map (·.1)).contains f.1)) = (Fields.get? n lists).map Value.list := by
  rw [Fields.get?_filter fun n => !(entries.map (·.1)).contains n || (lists.map (·.1)).contains n]
  cases hl : Fields.get? n lists with
  | some l => rfl
  | none =>
    have hname := Fields.get?_eq_none_iff.1 hl
    by_cases hentry : n ∈ entries.map (·.1)
    · rw [if_neg (by rw [List.contains_iff_mem.2 hentry]; simpa using hname)]
      rfl
    · simp [Fields.get?_eq_none_iff.2 hentry]

/-- What merging the buckets of one name comes to. -/
structure MergedOne (N : Neighbours π σ) (b : Ref .block) (output : ObjectId) (r : Ref .relations) (bs : List Bucket)
    (merged : List (String × ListId)) (name : String) (next : List Value) (members : ListId) (merged' : List (String × ListId))
    (w w' : World (Callback π) (Env π σ)) : Prop where
  changes : N.Changes (insert (.block b) (mergedLists merged [name])) (mergedLists merged [name]) w w'
  keeps : N.Keeps b (.groupMap output r [] merged') w'
  merges : N.Merges bs merged' w'
  others : ∀ n, n ≠ name → Fields.get? n merged' = Fields.get? n merged
  own : (∃ bucket ∈ bs, members = bucket.members) ∨ Fields.get? name merged' = some members
  items : SameItems (w'.listCell members).items next

namespace MergedOne

variable {buckets : List Bucket} {members : ListId} {merged₁ : List (String × ListId)} {named : List (String × List Bucket)}
  {lists : List (String × ListId)}

theorem sorted (h : N.MergedOne b output r bs merged name (buckets.flatMap fun b => (w.listCell b.members).items) members merged₁ w w₁)
    (hs : N.Sorted bs w) (hm : N.Merges bs merged w) : N.Sorted bs w₁ :=
  hs.after h.changes fun bucket hb => by simpa using (hm.notMem hb).2

/-- What has been merged for one name stays as it is while the buckets of the other names are merged. -/
theorem joined (h : N.MergedOne b output r bs merged name (buckets.flatMap fun b => (w.listCell b.members).items) members merged₁ w w₁)
    (hs : N.Sorted bs w) (hm : N.Merges bs merged w) (hn : name ∉ named.map (·.1)) (hsub : buckets ⊆ bs)
    (h' : N.Changes (insert (.block b) (mergedLists merged₁ (named.map (·.1)))) (mergedLists merged₁ (named.map (·.1))) w₁ w')
    (hj : N.Joined named lists w') :
    N.Changes (insert (.block b) (mergedLists merged (name :: named.map (·.1)))) (mergedLists merged (name :: named.map (·.1))) w w' ∧
      N.Joined ((name, buckets) :: named) ((name, members) :: lists) w' := by
  have hne : ∀ n ∈ named.map (·.1), n ≠ name := fun n hm he => hn (he ▸ hm)
  have hs₁ := h.sorted hs hm
  have hkept : (w'.listCell members).items = (w₁.listCell members).items := by
    rcases h.own with ⟨bucket, hb, rfl⟩ | hown
    · exact h'.same _ (hs₁.stands bucket hb).members (by simpa using (h.merges.notMem hb).1)
    · refine h'.same _ (h.merges.owns _ _ hown) ?_
      rintro (he | ⟨n, hmem, l, hl, he⟩)
      · cases he
      · cases he
        exact hne n hmem (h.merges.inj n name _ hl hown)
  have hmembers : (buckets.flatMap fun b => (w'.listCell b.members).items) = buckets.flatMap fun b => (w.listCell b.members).items := by
    refine List.flatMap_congr fun bucket hb => ?_
    have hbs := hsub hb
    have hlater : (w'.listCell bucket.members).items = (w₁.listCell bucket.members).items :=
      h'.same _ (hs₁.stands bucket hbs).members (by simpa using (h.merges.notMem hbs).1)
    exact hlater.trans (h.changes.same _ (hs.stands bucket hbs).members (by simpa using (hm.notMem hbs).1))
  have hlists : mergedLists merged₁ (named.map (·.1)) = mergedLists merged (named.map (·.1)) := by
    refine Set.ext fun p => exists_congr fun n => and_congr_right fun hmem => ?_
    rw [h.others n (hne n hmem)]
  refine ⟨?_, ⟨List.forall_mem_cons.2 ⟨?_, hj.owns⟩, .cons ⟨rfl, ?_⟩ hj.joins⟩⟩
  · rw [hlists] at h'
    refine (h.changes.mono (Set.insert_subset_insert ?_) ?_).trans (h'.mono (Set.insert_subset_insert ?_) ?_)
    all_goals exact mergedLists_mono (by simp)
  · rcases h.own with ⟨bucket, hb, rfl⟩ | hown
    · exact h'.owns _ (hs₁.stands bucket hb).members
    · exact h'.owns _ (h.merges.owns _ _ hown)
  · simp only [hkept, hmembers]
    exact h.items

end MergedOne

namespace Around

variable (hN : N.Around E)

include hN

/-- Merging the buckets of one name in its list, which was there or has just been made. -/
theorem mergeInto {merged' : List (String × ListId)} {members : ListId} {buckets : List Bucket} (room : w.Admits) (hs : N.Sorted bs w)
    (hsub : buckets ⊆ bs) (h₁ : N.Changes {.block b} ∅ w w₁) (hk : N.Keeps b (.groupMap output r [] merged') w₁)
    (hm : N.Merges bs merged' w₁) (hothers : ∀ n, n ≠ name → Fields.get? n merged' = Fields.get? n merged)
    (hown : Fields.get? name merged' = some members)
    (hfresh : ¬w.Made (.list members) ∨ Fields.get? name merged = some members) :
    (concatItems (buckets.map (·.members))).Ends w₁ fun next w₁ => (members.reconcile E.reactions next).Ends w₁ fun _ w' =>
      N.MergedOne b output r bs merged name (buckets.flatMap fun b => (w.listCell b.members).items) members merged' w w' := by
  rw [ends_concatItems, List.flatMap_map]
  refine (hN.reconcile h₁.calm (hm.owns _ _ hown) (h₁.admits room) _).imp fun _ w₂ ⟨h₂, hitems, _⟩ => ?_
  refine ⟨(h₁.andThen h₂).fresh ?_ ?_, hk.after h₂ (by simp), hm.after h₂, hothers, .inr hown, ?_⟩
  · rintro p (rfl | rfl) hmade
    · exact .inl rfl
    · exact .inr ⟨name, List.mem_singleton_self _, members, hfresh.resolve_left (· hmade), rfl⟩
  · rintro p (hp | rfl) hmade
    · cases hp
    · exact ⟨name, List.mem_singleton_self _, members, hfresh.resolve_left (· hmade), rfl⟩
  · have hsame : (buckets.flatMap fun b => (w₁.listCell b.members).items) = buckets.flatMap fun b => (w.listCell b.members).items :=
      List.flatMap_congr fun b hb => h₁.same _ (hs.stands b (hsub hb)).members (by simp)
    rwa [← hsame]

/-- A name gets a list for its buckets. -/
theorem newMerged (hw : N.calm w) (hk : N.Keeps b (.groupMap output r [] merged) w) (hs : N.Sorted bs w) (hm : N.Merges bs merged w)
    (name : String) :
    (ListId.create [] : Live π σ ListId).Ends w fun members w₁ => (setMerged b (Fields.put name members merged)).Ends w₁ fun _ w' =>
      N.Changes {.block b} ∅ w w' ∧ N.Keeps b (.groupMap output r [] (Fields.put name members merged)) w' ∧
        N.Merges bs (Fields.put name members merged) w' ∧ ¬w.Made (.list members) := by
  refine (hN.create hw []).imp fun members w₁ ⟨⟨h₁, hl₁⟩, hn, _⟩ => ?_
  refine ((hk.after h₁ (Set.notMem_empty _)).modify hN h₁.calm _).imp fun _ w₂ ⟨h₂, hk₂⟩ => ?_
  have h := (h₁.mono (Set.empty_subset _) subset_rfl).trans h₂
  exact ⟨h, hk₂, hm.put hs h (h₂.owns _ hl₁) hn, hn⟩

/-- The list of every name is found or filled. -/
theorem mergeBuckets (hw : N.calm w) (room : w.Admits) (hk : N.Keeps b (.groupMap output r [] merged) w) (hs : N.Sorted bs w)
    (hm : N.Merges bs merged w) {named : List (String × List Bucket)} (hn : (named.map (·.1)).Nodup)
    (hsub : ∀ g ∈ named, g.2 ⊆ bs) :
    (LiveBindings.mergeBuckets E b named).Ends w fun lists w' =>
      N.Changes (insert (.block b) (mergedLists merged (named.map (·.1)))) (mergedLists merged (named.map (·.1))) w w' ∧
        N.Joined named lists w' ∧ ∃ merged', N.Keeps b (.groupMap output r [] merged') w' ∧ N.Merges bs merged' w' := by
  induction named generalizing merged w with
  | nil => exact ⟨.refl hw _ _, ⟨by simp, .nil⟩, merged, hk, hm⟩
  | cons g named ih =>
    obtain ⟨name, buckets⟩ := g
    rw [List.map_cons, List.nodup_cons] at hn
    rw [List.forall_mem_cons] at hsub
    have rest {members : ListId} {merged₁ : List (String × ListId)} {w₁ : World (Callback π) (Env π σ)}
        (h₁ : N.MergedOne b output r bs merged name (buckets.flatMap fun b => (w.listCell b.members).items) members merged₁ w w₁) :
        (LiveBindings.mergeBuckets E b named).Ends w₁ fun lists w' =>
          N.Changes (insert (.block b) (mergedLists merged (name :: named.map (·.1)))) (mergedLists merged (name :: named.map (·.1)))
            w w' ∧
            N.Joined ((name, buckets) :: named) ((name, members) :: lists) w' ∧
              ∃ merged', N.Keeps b (.groupMap output r [] merged') w' ∧ N.Merges bs merged' w' := by
      refine (ih h₁.changes.calm (h₁.changes.admits room) h₁.keeps (h₁.sorted hs hm) h₁.merges hn.2 hsub.2).imp
        fun lists w' ended => ?_
      obtain ⟨h', hj, merged', hk', hm'⟩ := ended
      obtain ⟨hall, hjoined⟩ := h₁.joined hs hm hn.1 hsub.1 h' hj
      exact ⟨hall, hjoined, merged', hk', hm'⟩
    rw [List.map_cons]
    unfold LiveBindings.mergeBuckets
    dsimp only
    split
    · -- a name with one bucket has the list of that bucket
      rename_i only
      simp only [Run.ends_bind, Run.ends_pure]
      exact rest ⟨.refl hw _ _, hk, hm, fun _ _ => rfl, .inl ⟨only, hsub.1 (List.mem_singleton_self _), rfl⟩, by simp⟩
    simp only [Run.ends_bind, hk.ends_mergedOf]
    split
    · rename_i members hown
      simp only [Run.ends_bind, Run.ends_pure]
      refine (hN.mergeInto room hs hsub.1 (.refl hw _ _) hk hm (fun _ _ => rfl) hown (.inr hown)).imp
        fun next w₁ h => h.imp fun _ w₂ h₂ => ?_
      exact rest h₂
    · simp only [Run.ends_bind, Run.ends_pure]
      refine (hN.newMerged hw hk hs hm name).imp fun members w₁ h => h.imp fun _ w₂ ended => ?_
      obtain ⟨h₂, hk₂, hm₂, hn₂⟩ := ended
      refine (hN.mergeInto room hs hsub.1 h₂ hk₂ hm₂ (fun n hne => Fields.get?_put_of_ne hne ..) (Fields.get?_put_self ..)
        (.inl hn₂)).imp fun next w₃ h => h.imp fun _ w₄ h₄ => ?_
      exact rest h₄

/-- Only the entries with one of the names are left of those that have been gone through. -/
theorem deleteOthers (hw : N.calm w) (ho : N.Owns w (.object output)) (room : w.Admits) (names keys : List String) :
    (LiveBindings.deleteOthers E output names keys).Ends w fun _ w' =>
      N.Enters output (·.filter fun f => !keys.contains f.1 || names.contains f.1) w w' := by
  induction keys generalizing w with
  | nil => exact ⟨.refl hw _ _, by simp⟩
  | cons key keys ih =>
    unfold LiveBindings.deleteOthers
    split
    · rename_i hkey
      simp only [Run.ends_bind, Run.ends_discard]
      refine (hN.delete hw ho room key).imp fun _ w₁ h₁ => ?_
      refine (ih h₁.changes.calm (h₁.owns ho) (h₁.changes.admits room)).imp fun _ w₂ h₂ => ?_
      refine ⟨(h₁.comp h₂).changes, (h₁.comp h₂).entries.trans ?_⟩
      simp only [Function.comp_apply, Fields.erase, List.filter_filter]
      refine List.filter_congr fun f _ => ?_
      by_cases hf : f.1 = key
      · simp_all
      · simp [hf]
    · rename_i hkey
      refine (ih hw ho room).imp fun _ w₁ h₁ => ⟨h₁.changes, h₁.entries.trans (List.filter_congr fun f _ => ?_)⟩
      by_cases hf : f.1 = key
      · simp_all
      · simp [hf]

/-- Every name of some lists has its list as its entry; the other entries stay. -/
theorem assignLists (hw : N.calm w) (ho : N.Owns w (.object output)) (room : w.Admits) {lists : List (String × ListId)}
    (hn : (lists.map (·.1)).Nodup) :
    (LiveBindings.assignLists E output lists).Ends w fun _ w' => N.Changes {.object output} ∅ w w' ∧
      (((w.objectCell output).entries.map (·.1)).Nodup → ((w'.objectCell output).entries.map (·.1)).Nodup) ∧
        ∀ n, Fields.get? n (w'.objectCell output).entries =
          ((Fields.get? n lists).map Value.list).or (Fields.get? n (w.objectCell output).entries) := by
  induction lists generalizing w with
  | nil => exact ⟨.refl hw _ _, id, fun n => by simp [Fields.get?]⟩
  | cons f lists ih =>
    obtain ⟨name, l⟩ := f
    rw [List.map_cons, List.nodup_cons] at hn
    simp only [LiveBindings.assignLists, Run.ends_bind]
    refine (hN.assign hw ho room name (.list l)).imp fun _ w₁ h₁ => ?_
    refine (ih h₁.changes.calm (h₁.owns ho) (h₁.changes.admits room) hn.2).imp fun _ w₂ ended => ?_
    obtain ⟨h₂, hnodup, hget⟩ := ended
    have hentries := h₁.entries
    have hsame : Fields.get? name (w₁.objectCell output).entries = some (.list l) := by
      rw [hentries]
      split
      · rename_i hs
        obtain ⟨v, hv, hvl⟩ := (Option.any_eq_true _ _).1 hs
        rw [hv, Value.eq_of_same_list (Value.same_symm hvl)]
      · exact Fields.get?_put_self ..
    have hothers : ∀ n, n ≠ name → Fields.get? n (w₁.objectCell output).entries = Fields.get? n (w.objectCell output).entries := by
      intro n hne
      rw [hentries]
      split
      · rfl
      · exact Fields.get?_put_of_ne hne ..
    refine ⟨h₁.changes.trans h₂, fun hnd => hnodup ?_, fun n => ?_⟩
    · rw [hentries]
      split
      · exact hnd
      · exact Fields.nodup_put hnd ..
    · rw [hget]
      by_cases hne : n = name
      · subst hne
        rw [Fields.get?_eq_none_iff.2 hn.1, hsame]
        simp [Fields.get?]
      · rw [hothers n hne]
        simp [Fields.get?, Ne.symm hne]

/-- The object gets an entry for every name, and loses those of all others. -/
theorem publishGroupMap (hw : N.calm w) (room : w.Admits) (ho : N.Owns w (.object output))
    (hk : N.Keeps b (.groupMap output r [] merged) w) (hs : N.Sorted bs w) (hm : N.Merges bs merged w)
    (hnd : ((w.objectCell output).entries.map (·.1)).Nodup) :
    (LiveBindings.publishGroupMap E b output bs).Ends w fun _ w' =>
      (∃ names, N.Changes (insert (.object output) (insert (.block b) (mergedLists merged names))) Set.univ w w') ∧
        ∃ merged', (N.Keeps b (.groupMap output r [] merged') w' ∧ N.Merges bs merged' w') ∧
          ∃ c lists, N.Publishes output bs c lists w' := by
  have hcontents (Q : Contents → World (Callback π) (Env π σ) → Prop) : (contents : Live π σ Contents).Ends w Q ↔ Q w.contents w := Iff.rfl
  have hsub : ∀ g ∈ bucketsByName w.contents bs, g.2 ⊆ bs := subset_of_mem_bucketsByName
  simp only [LiveBindings.publishGroupMap, Run.ends_bind, hcontents, hk.ends_mergedOf, setMerged]
  -- the merged lists that are still needed
  refine (hk.modify hN hw _).imp fun _ w₁ ended => ?_
  obtain ⟨h₁, hk₁⟩ := ended
  have hm₁ := (hm.filter fun n => ((Fields.get? n (bucketsByName w.contents bs)).getD []).length > 1).after h₁
  have hs₁ := hs.after h₁ fun _ _ => by simp
  refine (hN.mergeBuckets h₁.calm (h₁.admits room) hk₁ hs₁ hm₁ (nodup_bucketsByName _ _) hsub).imp
    fun lists w₂ ended => ?_
  obtain ⟨h₂, hj₂, merged', hk₂, hm₂⟩ := ended
  have hs₂ := hs₁.after h₂ fun bucket hb => by simpa using (hm₁.notMem hb).2
  have h := h₁.andThen h₂
  have room₂ := h.admits room
  have ho₂ := h.owns _ ho
  have hentries₂ : (w₂.objectCell output).entries = (w.objectCell output).entries := h.same _ ho (by simp)
  have hread : w₂.contents.entries output = (w.objectCell output).entries := hentries₂
  simp only [ObjectId.ends_entries, hread]
  refine (hN.deleteOthers h.calm ho₂ room₂ _ _).imp fun _ w₃ h₃ => ?_
  have hj₃ := hj₂.after hs₂ hsub h₃.changes (by simp)
  have hs₃ := hs₂.after h₃.changes (by simp)
  have hlists : (lists.map (·.1)).Nodup := by
    rw [hj₂.map_names]
    exact nodup_bucketsByName _ _
  refine (hN.assignLists h₃.changes.calm (h₃.owns ho₂) (h₃.changes.admits room₂) hlists).imp fun _ w₄ ended => ?_
  obtain ⟨h₄, hnodup, hget⟩ := ended
  have hentries₃ := h₃.entries
  rw [hentries₂] at hentries₃
  have hparts : ({.block b} ∪ insert (.block b) (mergedLists (merged.filter fun m =>
      ((Fields.get? m.1 (bucketsByName w.contents bs)).getD []).length > 1) ((bucketsByName w.contents bs).map (·.1))) : Set Part) ⊆
      insert (.object output) (insert (.block b) (mergedLists merged ((bucketsByName w.contents bs).map (·.1)))) := by
    refine Set.union_subset ?_ ((Set.insert_subset_insert (mergedLists_filter_subset fun n =>
      ((Fields.get? n (bucketsByName w.contents bs)).getD []).length > 1)).trans (Set.subset_insert _ _))
    exact Set.singleton_subset_iff.2 (.inr (.inl rfl))
  have hobject : ({.object output} : Set Part) ⊆
      insert (.object output) (insert (.block b) (mergedLists merged ((bucketsByName w.contents bs).map (·.1)))) :=
    Set.singleton_subset_iff.2 (.inl rfl)
  refine ⟨⟨_, ((h.mono hparts (Set.subset_univ _)).trans (h₃.changes.mono hobject (Set.subset_univ _))).trans
    (h₄.mono hobject (Set.subset_univ _))⟩, merged', ⟨(hk₂.after h₃.changes (by simp)).after h₄ (by simp),
      (hm₂.after h₃.changes).after h₄⟩, w.contents, lists, hj₃.after hs₃ hsub h₄ (by simp), ?_, fun n => ?_⟩
  · refine hnodup ?_
    rw [hentries₃]
    exact (List.filter_sublist.map _).nodup hnd
  · rw [hget n, hentries₃, ← hj₂.map_names]
    exact get?_published lists _ n

end Around

end Neighbours

end LiveBindings
