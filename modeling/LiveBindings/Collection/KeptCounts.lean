/-!
# Prefix counts of flags

Which elements of a collection are kept, with the number kept among the first `n` found in logarithmic time. Cell `i` of
the tree, counted from one, holds the number of kept flags among the `lowBit i` flags that end at flag `i`.
-/

namespace LiveBindings

/-- The lowest bit of a number. -/
def lowBit (i : Nat) : Nat := i - (i &&& (i - 1))

theorem and_pred_lt {i : Nat} (h : 0 < i) : i &&& (i - 1) < i :=
  Nat.lt_of_le_of_lt Nat.and_le_right (by omega)

theorem lowBit_pos {i : Nat} (h : 0 < i) : 0 < lowBit i := by
  have := and_pred_lt h
  unfold lowBit
  omega

/-- Flags with a tree of partial counts; the tree has one cell more than there are flags. -/
structure KeptCounts where
  flags : List Bool := []
  tree : Array Nat := #[0]

namespace KeptCounts

/-- Adds the count of cell `i` to the cell that covers it next, for every cell in ascending order. -/
def propagate (n : Nat) (tree : Array Nat) (i : Nat) : Array Nat :=
  let parent := i + lowBit i
  if parent ≤ n then tree.modify parent (· + tree.getD i 0) else tree

/-- The counts of flags. -/
def ofFlags (flags : List Bool) : KeptCounts where
  flags
  tree := (List.range' 1 flags.length).foldl (propagate flags.length)
    (#[0] ++ (flags.map fun b => if b then 1 else 0).toArray)

/-- Replaces `removed` flags at an index, both cut off at the number of flags. -/
def replace (k : KeptCounts) (index removed : Nat) (plus : List Bool) : KeptCounts :=
  let stop := min (index + removed) k.flags.length
  ofFlags (k.flags.take (min index stop) ++ plus ++ k.flags.drop stop)

/-- The total of the cells that make up the first `i` flags. -/
def total (tree : Array Nat) : Nat → Nat
  | 0 => 0
  | i + 1 => tree.getD (i + 1) 0 + total tree ((i + 1) &&& i)
termination_by i => i
decreasing_by exact and_pred_lt (Nat.succ_pos i)

/-- The number of kept flags among the first `stop`. -/
def before (k : KeptCounts) (stop : Nat) : Nat := total k.tree (min stop k.flags.length)

/-- Changes the count of every cell that covers flag `i`, counted from one. -/
def adjust (n : Nat) (f : Nat → Nat) (tree : Array Nat) (i : Nat) : Array Nat :=
  if _h : 0 < i ∧ i ≤ n then adjust n f (tree.modify i f) (i + lowBit i) else tree
termination_by n + 1 - i
decreasing_by
  have := lowBit_pos _h.1
  omega

/-- Sets a flag, and says whether it changed. -/
def set (k : KeptCounts) (index : Nat) (kept : Bool) : KeptCounts × Bool :=
  match k.flags[index]? with
  | some flag =>
    if flag = kept then (k, false)
    else
      ({ flags := k.flags.set index kept
         tree := adjust k.flags.length (fun n => if kept then n + 1 else n - 1) k.tree (index + 1) }, true)
  | none => (k, false)

end KeptCounts

end LiveBindings
