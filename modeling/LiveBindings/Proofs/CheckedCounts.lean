import LiveBindings.Proofs.Counts
import LiveBindings.Value
import Mathlib.Algebra.Order.BigOperators.Group.Finset

/-!
# Counting with every step checked

The operations of `KeptCounts` once more, with every step checked: a walk gives up where it would touch a cell that the tree does not
have, or would lower a count of zero (`KeptCounts.change?`), and the tree is built from nothing but zeros. `KeptCounts.counts_always`
says that along every sequence of operations no check fails, that the flags are those of the operations on a plain list, and that
the counts are right.

Every walk ends: upwards because the lowest bit of a cell is not zero, downwards because the rest without it is less.
-/

namespace LiveBindings.KeptCounts

/-! ## Checked operations -/

/-- The count of a cell is changed; nothing where there is no such cell or its count cannot be changed so. -/
def change? (f : Nat → Option Nat) (tree : Array Nat) (i : Nat) : Option (Array Nat) :=
  tree[i]?.bind fun count => (f count).map (tree.set! i ·)

/-- One more, or one less than a count that is not zero. -/
def step? (kept : Bool) (count : Nat) : Option Nat :=
  if kept then some (count + 1) else if count = 0 then none else some (count - 1)

def adjust? (n : Nat) (kept : Bool) (tree : Array Nat) (i : Nat) : Option (Array Nat) :=
  if _h : 0 < i ∧ i ≤ n then (change? (step? kept) tree i).bind fun tree => adjust? n kept tree (i + lowBit i) else some tree
termination_by n + 1 - i
decreasing_by
  have := lowBit_pos _h.1
  omega

def total? (tree : Array Nat) : Nat → Option Nat
  | 0 => some 0
  | i + 1 => tree[i + 1]?.bind fun count => (total? tree ((i + 1) &&& i)).map (count + ·)
termination_by i => i
decreasing_by exact and_pred_lt (Nat.succ_pos i)

def propagate? (n : Nat) (tree : Array Nat) (i : Nat) : Option (Array Nat) :=
  tree[i]?.bind fun count => if i + lowBit i ≤ n then change? (some <| · + count) tree (i + lowBit i) else some tree

/-- A flag is counted in its own cell, which is complete then and handed on to the next. -/
def enter? (flags : List Bool) (tree : Array Nat) (i : Nat) : Option (Array Nat) :=
  flags[i - 1]?.bind fun flag =>
    (change? (some <| · + flag.toNat) tree i).bind fun tree => propagate? flags.length tree i

/-- The tree is built from zeros, one flag after the other. -/
def build? (flags : List Bool) : Option (Array Nat) :=
  (List.range' 1 flags.length).foldlM (enter? flags) (Array.replicate (flags.length + 1) 0)

def before? (k : KeptCounts) (stop : Nat) : Option Nat := total? k.tree (min stop k.flags.length)

def replace? (k : KeptCounts) (index removed : Nat) (plus : List Bool) : Option KeptCounts :=
  let stop := min (index + removed) k.flags.length
  let flags := k.flags.take (min index stop) ++ plus ++ k.flags.drop stop
  (build? flags).map fun tree => { flags, tree }

def set? (k : KeptCounts) (index : Nat) (kept : Bool) : Option (KeptCounts × Bool) :=
  match k.flags[index]? with
  | some flag =>
    if flag = kept then some (k, false)
    else (adjust? k.flags.length kept k.tree (index + 1)).map fun tree => ({ flags := k.flags.set index kept, tree }, true)
  | none => some (k, false)

/-- An operation that changes the counts. The flags that come in are the truth of values. -/
inductive Operation
  | replace (index removed : Nat) (plus : List Value)
  | set (index : Nat) (kept : Bool)

namespace Operation

/-- The counts after an operation. -/
def run : Operation → KeptCounts → KeptCounts
  | replace index removed plus, k => k.replace index removed (plus.map Value.truthy)
  | set index kept, k => (k.set index kept).1

/-- The counts after an operation with every step checked. -/
def run? : Operation → KeptCounts → Option KeptCounts
  | replace index removed plus, k => k.replace? index removed (plus.map Value.truthy)
  | set index kept, k => (k.set? index kept).map (·.1)

/-- What an operation does to a plain list of flags. -/
def onFlags : Operation → List Bool → List Bool
  | replace index removed plus, flags => flags.take index ++ plus.map Value.truthy ++ flags.drop (index + removed)
  | set index kept, flags => flags.set index kept

end Operation

/-! ## No check fails -/

variable {tree : Array Nat} {n i : Nat}

theorem getElem?_cell (hi : i < tree.size) : tree[i]? = some (tree.getD i 0) := by
  simp [Array.getD_eq_getD_getElem?, hi]

theorem change?_eq {f : Nat → Option Nat} {g : Nat → Nat} (hi : i < tree.size)
    (hf : f (tree.getD i 0) = some (g (tree.getD i 0))) : change? f tree i = some (tree.modify i g) := by
  have hset : tree.set! i (g (tree.getD i 0)) = tree.modify i g := by
    apply Array.ext_getElem?
    intro j
    rw [Array.set!_eq_setIfInBounds, Array.getElem?_setIfInBounds, Array.getElem?_modify]
    by_cases hij : i = j
    · subst hij
      rw [if_pos rfl, if_pos rfl, if_pos hi, getElem?_cell hi, Option.map_some]
    · rw [if_neg hij, if_neg hij]
  unfold change?
  rw [getElem?_cell hi, Option.bind_some, hf, Option.map_some, hset]

/-- A walk upwards stays in the tree. One that lowers counts must not meet a count of zero. -/
theorem adjust?_eq (kept : Bool) (hi : 0 < i) (hn : tree.size = n + 1)
    (hlower : kept = false → ∀ c, Spans c i → c ≤ n → tree.getD c 0 ≠ 0) :
    adjust? n kept tree i = some (adjust n (fun count => if kept then count + 1 else count - 1) tree i) := by
  induction hd : n + 1 - i using Nat.strongRecOn generalizing tree i with
  | ind d ih =>
    subst hd
    have hpos := lowBit_pos hi
    unfold adjust? adjust
    by_cases h : 0 < i ∧ i ≤ n
    · have hstep : step? kept (tree.getD i 0) = some (if kept then tree.getD i 0 + 1 else tree.getD i 0 - 1) := by
        unfold step?
        cases kept with
        | true => rfl
        | false => rw [if_neg Bool.false_ne_true, if_neg (hlower rfl i (spans_self hi) h.2), if_neg Bool.false_ne_true]
      rw [dif_pos h, dif_pos h, change?_eq (g := fun count => if kept then count + 1 else count - 1) (by omega) hstep,
        Option.bind_some]
      refine ih (n + 1 - (i + lowBit i)) (by omega) (by omega) (by rw [Array.size_modify, hn]) ?_ rfl
      intro hkept c hs hc
      -- What spans the next flag lies above this cell, and spans its end.
      have hlt : i < c := by
        have := hs.2
        omega
      rw [getD_modify _ _ (by omega), if_neg (Nat.ne_of_gt hlt)]
      exact hlower hkept c ((spans_next hi hlt).2 hs) hc
    · rw [dif_neg h, dif_neg h]

/-- A walk downwards stays in the tree. -/
theorem total?_eq (i : Nat) (hi : i < tree.size) : total? tree i = some (total tree i) := by
  induction i using Nat.strongRecOn with
  | ind i ih =>
    cases i with
    | zero => simp [total?, total]
    | succ i =>
      have hlt : (i + 1) &&& i < i + 1 := and_pred_lt (Nat.succ_pos i)
      unfold total? total
      rw [ih _ hlt (by omega), getElem?_cell hi, Option.bind_some, Option.map_some]

theorem propagate?_eq (hi : i < tree.size) (hn : tree.size = n + 1) :
    propagate? n tree i = some (propagate n tree i) := by
  unfold propagate? propagate
  rw [getElem?_cell hi, Option.bind_some]
  by_cases hparent : i + lowBit i ≤ n
  · simp only [if_pos hparent]
    exact change?_eq (g := (· + tree.getD i 0)) (by omega) rfl
  · simp only [if_neg hparent]

/-! ## Building the tree from zeros -/

theorem size_propagate (n : Nat) (tree : Array Nat) (i : Nat) : (propagate n tree i).size = tree.size := by
  by_cases hparent : i + lowBit i ≤ n
  · simp only [propagate, if_pos hparent, Array.size_modify]
  · simp only [propagate, if_neg hparent]

/-- Only the next cell changes. -/
theorem getD_propagate (hn : tree.size = n + 1) {c : Nat} (hc : c ≤ n) :
    (propagate n tree i).getD c 0 = if c = i + lowBit i then tree.getD c 0 + tree.getD i 0 else tree.getD c 0 := by
  by_cases hparent : i + lowBit i ≤ n
  · simp only [propagate, if_pos hparent]
    exact getD_modify _ _ (by omega)
  · simp only [propagate, if_neg hparent]
    rw [if_neg (by omega)]

theorem toNat_flag {flags : List Bool} {done : Nat} (h : done < flags.length) :
    flags[done].toNat = weight flags (done + 1) := by
  unfold weight
  rw [Nat.add_sub_cancel, List.getElem?_eq_getElem h]
  cases flags[done] <;> rfl

/-- While the tree is built from zeros it lacks, of the tree that starts from the flags, the flags that are still to come. -/
theorem entered (flags : List Bool) {done : Nat} (h : done ≤ flags.length) :
    let whole := (List.range' 1 done).foldl (propagate flags.length) (#[0] ++ (flags.map fun b => if b then 1 else 0).toArray)
    ∃ tree, (List.range' 1 done).foldlM (enter? flags) (Array.replicate (flags.length + 1) 0) = some tree ∧
      tree.size = flags.length + 1 ∧
      ∀ i ≤ flags.length, tree.getD i 0 + (if done < i then weight flags i else 0) = whole.getD i 0 := by
  induction done with
  | zero =>
    refine ⟨_, rfl, by simp, ?_⟩
    intro i hi
    cases i with
    | zero => simp [Array.getD_eq_getD_getElem?]
    | succ i =>
      have hlt : i < flags.length := hi
      simp [weight, Array.getD_eq_getD_getElem?, hlt]
  | succ done ih =>
    obtain ⟨tree, hrun, hsize, hcells⟩ := ih (Nat.le_of_succ_le h)
    obtain ⟨hwhole, -⟩ := built flags (Nat.le_of_succ_le h)
    have hlt : done < flags.length := h
    rw [List.range'_1_concat, List.foldl_append, List.foldlM_append, hrun]
    generalize (List.range' 1 done).foldl (propagate flags.length) _ = whole at hwhole hcells
    simp only [List.foldl_cons, List.foldl_nil, Nat.add_comm 1 done]
    -- The flag is counted in its own cell, which then holds what the other tree has there.
    have hown : change? (some <| · + flags[done].toNat) tree (done + 1) = some (tree.modify (done + 1) (· + flags[done].toNat)) :=
      change?_eq (g := (· + flags[done].toNat)) (by omega) rfl
    have hcells' : ∀ i ≤ flags.length, (tree.modify (done + 1) (· + flags[done].toNat)).getD i 0 +
        (if done + 1 < i then weight flags i else 0) = whole.getD i 0 := by
      intro i hi
      have hold := hcells i hi
      rw [getD_modify _ _ (by omega)]
      by_cases he : i = done + 1
      · subst he
        rw [if_pos (Nat.lt_succ_self done)] at hold
        rw [if_pos rfl, if_neg (Nat.lt_irrefl _), toNat_flag hlt, Nat.add_zero]
        exact hold
      · rw [if_neg he]
        have hiff : done + 1 < i ↔ done < i := by omega
        rw [if_congr hiff rfl rfl]
        exact hold
    have hsize' : (tree.modify (done + 1) (· + flags[done].toNat)).size = flags.length + 1 := by
      rw [Array.size_modify, hsize]
    have henter : enter? flags tree (done + 1) =
        some (propagate flags.length (tree.modify (done + 1) (· + flags[done].toNat)) (done + 1)) := by
      unfold enter?
      rw [Nat.add_sub_cancel, List.getElem?_eq_getElem hlt, Option.bind_some, hown, Option.bind_some]
      exact propagate?_eq (by omega) hsize'
    generalize tree.modify (done + 1) (· + flags[done].toNat) = tree' at henter hcells' hsize'
    refine ⟨propagate flags.length tree' (done + 1), by simp [henter], ?_, ?_⟩
    · rw [size_propagate, hsize']
    · intro i hi
      have hsame : tree'.getD (done + 1) 0 = whole.getD (done + 1) 0 := by
        have := hcells' (done + 1) h
        rwa [if_neg (Nat.lt_irrefl _), Nat.add_zero] at this
      have hcell := hcells' i hi
      rw [getD_propagate hsize' hi, getD_propagate hwhole hi, hsame, ← hcell]
      by_cases he : i = done + 1 + lowBit (done + 1)
      · rw [if_pos he, if_pos he, Nat.add_right_comm]
      · rw [if_neg he, if_neg he]

/-- The tree that is built from zeros is the tree of the flags. -/
theorem build?_eq (flags : List Bool) : build? flags = some (ofFlags flags).tree := by
  obtain ⟨tree, hrun, hsize, hcells⟩ := entered flags (Nat.le_refl _)
  have hsize' : (ofFlags flags).tree.size = flags.length + 1 := (correct_ofFlags flags).size
  unfold build?
  rw [hrun, Option.some.injEq]
  refine Array.ext (by rw [hsize, hsize']) ?_
  intro i hi hi'
  have hcell := hcells i (by omega)
  rw [if_neg (by omega), Nat.add_zero] at hcell
  change tree.getD i 0 = (ofFlags flags).tree.getD i 0 at hcell
  simpa [Array.getD_eq_getD_getElem?, hi, hi'] using hcell

/-! ## Sequences of operations -/

variable {k : KeptCounts}

/-- There are no flags, or the tree counts them. -/
def Sound (k : KeptCounts) : Prop := k.flags = [] ∨ k.Correct

theorem replace?_eq (k : KeptCounts) (index removed : Nat) (plus : List Bool) :
    k.replace? index removed plus = some (k.replace index removed plus) := by
  unfold replace?
  simp only [build?_eq, Option.map_some]
  rfl

theorem set?_eq (h : k.Sound) (index : Nat) (kept : Bool) : k.set? index kept = some (k.set index kept) := by
  unfold set? set
  cases hf : k.flags[index]? with
  | none => rfl
  | some flag =>
    by_cases hne : flag = kept
    · simp only [if_pos hne]
    · simp only [if_neg hne]
      obtain ⟨hlt, hget⟩ := List.getElem?_eq_some_iff.1 hf
      rcases h with h | h
      · rw [h] at hlt
        exact absurd hlt (Nat.not_lt_zero _)
      · rw [adjust?_eq kept (Nat.succ_pos index) h.size]
        · rfl
        · -- The flag that is cleared is counted by every cell that spans it.
          intro hkept c hs hc
          have hc₀ : 0 < c := Nat.lt_of_lt_of_le (Nat.succ_pos index) hs.2
          have hset : flag = true := by
            cases flag with
            | true => rfl
            | false => exact absurd hkept.symm hne
          have hone : weight k.flags (index + 1) = 1 := by
            simp [weight, hf, hset]
          have hle : weight k.flags (index + 1) ≤ spanned k.flags c :=
            Finset.single_le_sum (fun p _ => Nat.zero_le (weight k.flags p)) (Finset.mem_Ioc.2 hs)
          rw [h.cell c hc₀ hc]
          omega

theorem before?_eq (h : k.Sound) (stop : Nat) : k.before? stop = some (k.before stop) := by
  unfold before? before
  rcases h with h | h
  · simp [h, total?, total]
  · have hsize := h.size
    exact total?_eq _ (by omega)

theorem before_eq_count (h : k.Sound) (stop : Nat) : k.before stop = (k.flags.take (min stop k.flags.length)).count true := by
  rcases h with h | h
  · simp [before, h, total]
  · rw [h.before_eq, List.take_eq_take_min]

theorem Operation.run?_eq (h : k.Sound) (op : Operation) : op.run? k = some (op.run k) := by
  cases op with
  | replace index removed plus => exact replace?_eq k index removed _
  | set index kept =>
    change (k.set? index kept).map (·.1) = some (k.set index kept).1
    rw [set?_eq h, Option.map_some]

/-- An operation keeps the counts right. -/
theorem Operation.run_sound (h : k.Sound) (op : Operation) : (op.run k).Sound := by
  cases op with
  | replace index removed plus => exact .inr (correct_ofFlags _)
  | set index kept =>
    rcases h with h | h
    · left
      unfold run
      rw [flags_set, h, List.set_nil]
    · exact .inr (h.set index kept)

/-- An operation changes the flags as it changes a plain list. -/
theorem Operation.flags_run (op : Operation) (k : KeptCounts) : (op.run k).flags = op.onFlags k.flags := by
  cases op with
  | replace index removed plus =>
    have htake : k.flags.take (min index (min (index + removed) k.flags.length)) = k.flags.take index :=
      List.take_eq_take_iff.2 (by omega)
    have hdrop : k.flags.drop (min (index + removed) k.flags.length) = k.flags.drop (index + removed) :=
      List.drop_eq_drop_iff.2 (by omega)
    change (k.replace index removed _).flags = _
    unfold KeptCounts.replace onFlags
    rw [flags_ofFlags, htake, hdrop]
  | set index kept => exact flags_set index kept

/-- Whatever sequence of operations starts from no flags, with any tree: no step of it reads or writes a cell that the tree does not
have or lowers a count of zero, the flags are those of a plain list, and so are the counts of the first of them. Setting one more
flag says whether there was one that changed. -/
theorem counts_always (tree : Array Nat) (ops : List Operation) :
    ∃ k, ops.foldlM (fun k op => op.run? k) ⟨[], tree⟩ = some k ∧ ops.foldl (fun k op => op.run k) ⟨[], tree⟩ = k ∧
      k.flags = ops.foldl (fun flags op => op.onFlags flags) [] ∧
      (∀ stop, k.before? stop = some (k.before stop) ∧
        k.before stop = (k.flags.take (min stop k.flags.length)).count true) ∧
      ∀ index kept, k.set? index kept = some (k.set index kept) ∧
        ((k.set index kept).2 = true ↔ ∃ flag, k.flags[index]? = some flag ∧ flag ≠ kept) := by
  suffices h : ∀ k : KeptCounts, k.Sound → ∃ k', ops.foldlM (fun k op => op.run? k) k = some k' ∧
      ops.foldl (fun k op => op.run k) k = k' ∧ k'.flags = ops.foldl (fun flags op => op.onFlags flags) k.flags ∧ k'.Sound by
    obtain ⟨k, hrun?, hrun, hflags, hsound⟩ := h ⟨[], tree⟩ (.inl rfl)
    refine ⟨k, hrun?, hrun, hflags, fun stop => ⟨before?_eq hsound stop, before_eq_count hsound stop⟩, ?_⟩
    intro index kept
    refine ⟨set?_eq hsound index kept, ?_⟩
    rw [set_changed]
    cases kept <;> simp
  induction ops with
  | nil =>
    intro k h
    exact ⟨k, rfl, rfl, rfl, h⟩
  | cons op ops ih =>
    intro k h
    obtain ⟨k', hrun?, hrun, hflags, hsound⟩ := ih (op.run k) (op.run_sound h)
    refine ⟨k', ?_, hrun, ?_, hsound⟩
    · rw [List.foldlM_cons, op.run?_eq h]
      exact hrun?
    · rw [hflags, op.flags_run]
      rfl

end LiveBindings.KeptCounts
