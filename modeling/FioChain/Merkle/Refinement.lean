import FioChain.Merkle.Depth

/-! `incremental_merkle` computes `merkle`. After the digests `leaves`, `_active_nodes` holds
one node for every set bit of the count below the root's level (the complete left node that
a later append pairs with), and the root last. `append` of leaf `n` walks up the `n.size`
levels above it: at a clear bit of `n` the new leaf's node has no partner and is paired with
itself, at a set bit it is paired with the next stored left node. The loop keeps the node
over the new leaf, the nodes stored for the levels walked, and whether the node is still
partial; the loop lemma follows it level by level. Below `2 ^ 64` digests the root is
`merkle` of them and no append reads past the stored nodes; at `2 ^ 64` the count wraps and
`get_root` returns the default digest. -/

namespace Fio.Chain

namespace IncrementalMerkle

open MerkleLevels

variable {D P : Type} (hash : P → D) (makeCanonicalPair : D → D → P)

/-- The parent of two nodes, as both `append` and `merkle` hash it. -/
abbrev parentOf (l r : D) : D := hash (makeCanonicalPair l r)

/-- The left node a tree of `count` leaves keeps at level `i`: when bit `i` of `count` is set,
the complete node before the one that holds leaf `count`. -/
def leftNodeAt (leaves : List D) (count i : Nat) : Option D :=
  if count.testBit i then (level (parentOf hash makeCanonicalPair) leaves i)[(count >>> i) - 1]?
  else none

/-- The left nodes kept at the levels `levels`. -/
def leftNodes (leaves : List D) (count : Nat) (levels : List Nat) : List D :=
  levels.filterMap (leftNodeAt hash makeCanonicalPair leaves count)

/-- `_active_nodes` after the digests `leaves`: the left nodes below the root's level and the
root. -/
def Represents (m : IncrementalMerkle D) (leaves : List D) : Prop :=
  m.nodeCount = leaves.length ∧
    m.activeNodes = leftNodes hash makeCanonicalPair leaves leaves.length
      (List.range (leaves.length - 1).size) ++ (top (parentOf hash makeCanonicalPair) leaves).toList

theorem leftNodes_cons (leaves : List D) (count i : Nat) (levels : List Nat) :
    leftNodes hash makeCanonicalPair leaves count (i :: levels) =
      (leftNodeAt hash makeCanonicalPair leaves count i).toList ++
        leftNodes hash makeCanonicalPair leaves count levels := by
  simp only [leftNodes, List.filterMap_cons]
  cases leftNodeAt hash makeCanonicalPair leaves count i <;> rfl

theorem leftNodes_append (leaves : List D) (count : Nat) (levels levels' : List Nat) :
    leftNodes hash makeCanonicalPair leaves count (levels ++ levels') =
      leftNodes hash makeCanonicalPair leaves count levels ++
        leftNodes hash makeCanonicalPair leaves count levels' :=
  List.filterMap_append

/-! ### The levels over one more leaf -/

section Snoc

variable {hash makeCanonicalPair} {leaves : List D} {digest : D} {j : Nat}

theorem length_level_snoc :
    (level (parentOf hash makeCanonicalPair) (leaves ++ [digest]) j).length = leaves.length >>> j + 1 := by
  rw [length_level _ (by simp)]
  simp

/-- Nodes before the one over the new leaf are complete nodes of the old leaves. -/
theorem getElem?_level_snoc_of_lt {p : Nat} (before : p < leaves.length >>> j) :
    (level (parentOf hash makeCanonicalPair) (leaves ++ [digest]) j)[p]? =
      (level (parentOf hash makeCanonicalPair) leaves j)[p]? := by
  apply getElem?_level_append
  rw [Nat.shiftRight_eq_div_pow] at before
  calc (p + 1) * 2 ^ j ≤ leaves.length / 2 ^ j * 2 ^ j := Nat.mul_le_mul_right _ before
    _ ≤ leaves.length := Nat.div_mul_le_self _ _

/-- At a clear bit the node over the new leaf is the last of its level and is paired with
itself. -/
theorem getElem?_level_succ_snoc_of_clear {t : D} (clear : leaves.length.testBit j = false)
    (current : (level (parentOf hash makeCanonicalPair) (leaves ++ [digest]) j)[leaves.length >>> j]? = some t) :
    (level (parentOf hash makeCanonicalPair) (leaves ++ [digest]) (j + 1))[leaves.length >>> (j + 1)]? =
      some (hash (makeCanonicalPair t t)) := by
  have halve := NatBits.two_mul_shiftRight_succ leaves.length j
  rw [clear, if_neg Bool.false_ne_true, Nat.add_zero] at halve
  have past : (level (parentOf hash makeCanonicalPair) (leaves ++ [digest]) j)[2 * (leaves.length >>> (j + 1)) + 1]? =
      none := List.getElem?_eq_none (by rw [length_level_snoc]; omega)
  rw [level_succ, getElem?_pairUp, past, halve, current]
  rfl

/-- At a set bit the node over the new leaf is paired with the node before it. -/
theorem getElem?_level_succ_snoc_of_set {l t : D} (set : leaves.length.testBit j = true)
    (previous : (level (parentOf hash makeCanonicalPair) (leaves ++ [digest]) j)[(leaves.length >>> j) - 1]? = some l)
    (current : (level (parentOf hash makeCanonicalPair) (leaves ++ [digest]) j)[leaves.length >>> j]? = some t) :
    (level (parentOf hash makeCanonicalPair) (leaves ++ [digest]) (j + 1))[leaves.length >>> (j + 1)]? =
      some (hash (makeCanonicalPair l t)) := by
  have halve := NatBits.two_mul_shiftRight_succ leaves.length j
  rw [set, if_pos rfl] at halve
  rw [show (leaves.length >>> j) - 1 = 2 * (leaves.length >>> (j + 1)) by omega] at previous
  rw [← halve] at current
  rw [level_succ, getElem?_pairUp, previous, current]
  rfl

theorem leftNodeAt_of_clear {count : Nat} (clear : count.testBit j = false) :
    leftNodeAt hash makeCanonicalPair leaves count j = none := by
  simp [leftNodeAt, clear]

/-- When adding the new leaf carries into bit `j`, the bit flips: a set bit leaves no left
node, a clear one makes the node over the new leaf the left node. -/
theorem leftNodeAt_snoc_of_carry (carry : (leaves.length + 1) % 2 ^ j = 0) :
    leftNodeAt hash makeCanonicalPair (leaves ++ [digest]) (leaves.length + 1) j =
      if leaves.length.testBit j then none
      else (level (parentOf hash makeCanonicalPair) (leaves ++ [digest]) j)[leaves.length >>> j]? := by
  have shifted : (leaves.length + 1) >>> j = leaves.length >>> j + 1 := by
    simp only [Nat.shiftRight_eq_div_pow]
    exact NatBits.add_one_div_of_carry carry
  rw [leftNodeAt, NatBits.testBit_add_one_of_carry carry, shifted, Nat.add_sub_cancel]
  cases leaves.length.testBit j <;> rfl

/-- Without a carry into bit `j` the bit and the node position stay. -/
theorem leftNodeAt_snoc_of_no_carry (noCarry : (leaves.length + 1) % 2 ^ j ≠ 0) :
    leftNodeAt hash makeCanonicalPair (leaves ++ [digest]) (leaves.length + 1) j =
      if leaves.length.testBit j then
        (level (parentOf hash makeCanonicalPair) (leaves ++ [digest]) j)[(leaves.length >>> j) - 1]?
      else none := by
  have shifted : (leaves.length + 1) >>> j = leaves.length >>> j := by
    simp only [Nat.shiftRight_eq_div_pow]
    exact NatBits.add_one_div_of_no_carry noCarry
  rw [leftNodeAt, NatBits.testBit_add_one_of_no_carry noCarry, shifted]

end Snoc

/-! ### The loop of `append` -/

section Collapse

/-- The loop lemma. Appending leaf `n` to `leaves` (of length `n`), the loop at level `j`
holds the node over the new leaf, reads the stored left nodes of the levels from `j` up and
has kept the new left nodes of the levels below `j`; it ends with the root of the new tree
and its left nodes. -/
theorem collapse_eq (leaves : List D) (digest : D) (tail : List D) :
    ∀ d j (t : D), j + d = leaves.length.size →
      (level (parentOf hash makeCanonicalPair) (leaves ++ [digest]) j)[leaves.length >>> j]? = some t →
      collapse hash makeCanonicalPair d (leaves.length >>> j) t (decide ((leaves.length + 1) % 2 ^ j ≠ 0))
          (leftNodes hash makeCanonicalPair leaves leaves.length (List.range' j d) ++ tail)
          (leftNodes hash makeCanonicalPair (leaves ++ [digest]) (leaves.length + 1) (List.range j)) =
        (level (parentOf hash makeCanonicalPair) (leaves ++ [digest]) (j + d))[0]?.map fun root =>
          (root, leftNodes hash makeCanonicalPair (leaves ++ [digest]) (leaves.length + 1)
            (List.range (j + d))) := by
  intro d
  induction d with
  | zero =>
    -- every bit of the old count is walked: the node over the new leaf is the root
    intro j t walked current
    simp only [Nat.add_zero] at walked ⊢
    rw [Nat.shiftRight_eq_zero _ _ (walked ▸ Nat.lt_size_self _)] at current ⊢
    rw [current]
    rfl
  | succ d ih =>
    intro j t walked current
    rw [show j + (d + 1) = (j + 1) + d by omega]
    have kept : leftNodes hash makeCanonicalPair (leaves ++ [digest]) (leaves.length + 1) (List.range (j + 1)) =
        leftNodes hash makeCanonicalPair (leaves ++ [digest]) (leaves.length + 1) (List.range j) ++
          (leftNodeAt hash makeCanonicalPair (leaves ++ [digest]) (leaves.length + 1) j).toList := by
      rw [List.range_succ, leftNodes_append, leftNodes, leftNodes, List.filterMap_cons, List.filterMap_nil]
      cases leftNodeAt hash makeCanonicalPair (leaves ++ [digest]) (leaves.length + 1) j <;> rfl
    rw [List.range'_succ, leftNodes_cons]
    simp only [collapse]
    rw [NatBits.shiftRight_and_one, ← Nat.shiftRight_add]
    cases set : leaves.length.testBit j with
    | false =>
      -- a clear bit: no partner yet, the node is hashed with itself and is partial from now on
      have partialNode : decide ((leaves.length + 1) % 2 ^ (j + 1) ≠ 0) = true :=
        decide_eq_true (NatBits.add_one_mod_ne_zero_of_testBit_false set)
      have updated : (if decide ((leaves.length + 1) % 2 ^ j ≠ 0) = true then
            leftNodes hash makeCanonicalPair (leaves ++ [digest]) (leaves.length + 1) (List.range j)
          else leftNodes hash makeCanonicalPair (leaves ++ [digest]) (leaves.length + 1) (List.range j) ++ [t]) =
          leftNodes hash makeCanonicalPair (leaves ++ [digest]) (leaves.length + 1) (List.range (j + 1)) := by
        rw [kept]
        by_cases carry : (leaves.length + 1) % 2 ^ j = 0
        · rw [leftNodeAt_snoc_of_carry carry, set, if_neg Bool.false_ne_true, current]
          simp [carry]
        · rw [leftNodeAt_snoc_of_no_carry carry, set, if_neg Bool.false_ne_true]
          simp [carry]
      rw [leftNodeAt_of_clear set, Option.toList_none, List.nil_append, if_neg Bool.false_ne_true, if_pos rfl,
        updated, ← partialNode]
      exact ih (j + 1) _ (by omega) (getElem?_level_succ_snoc_of_clear set current)
    | true =>
      -- a set bit: the stored left node of this level is the partner, read from the old nodes
      have inside : (leaves.length >>> j) - 1 <
          (level (parentOf hash makeCanonicalPair) (leaves ++ [digest]) j).length := by
        rw [length_level_snoc]
        exact Nat.lt_succ_of_le (Nat.sub_le _ _)
      obtain ⟨l, previous⟩ : ∃ l,
          (level (parentOf hash makeCanonicalPair) (leaves ++ [digest]) j)[(leaves.length >>> j) - 1]? = some l :=
        ⟨_, List.getElem?_eq_getElem inside⟩
      have atLeastOne := NatBits.two_mul_shiftRight_succ leaves.length j
      rw [set, if_pos rfl] at atLeastOne
      have stored : leftNodeAt hash makeCanonicalPair leaves leaves.length j = some l := by
        have before : (leaves.length >>> j) - 1 < leaves.length >>> j := by omega
        rw [leftNodeAt, if_pos set, ← getElem?_level_snoc_of_lt before]
        exact previous
      have partialNode : decide ((leaves.length + 1) % 2 ^ (j + 1) ≠ 0) =
          decide ((leaves.length + 1) % 2 ^ j ≠ 0) := by
        rw [decide_eq_decide]
        exact not_congr (NatBits.add_one_mod_succ_eq_zero_iff set)
      have updated : (if decide ((leaves.length + 1) % 2 ^ j ≠ 0) = true then
            leftNodes hash makeCanonicalPair (leaves ++ [digest]) (leaves.length + 1) (List.range j) ++ [l]
          else leftNodes hash makeCanonicalPair (leaves ++ [digest]) (leaves.length + 1) (List.range j)) =
          leftNodes hash makeCanonicalPair (leaves ++ [digest]) (leaves.length + 1) (List.range (j + 1)) := by
        rw [kept]
        by_cases carry : (leaves.length + 1) % 2 ^ j = 0
        · rw [leftNodeAt_snoc_of_carry carry, set, if_pos rfl]
          simp [carry]
        · rw [leftNodeAt_snoc_of_no_carry carry, set, if_pos rfl, previous]
          simp [carry]
      rw [stored, Option.toList_some, List.singleton_append, List.cons_append, if_pos rfl,
        if_neg Nat.one_ne_zero]
      dsimp only
      rw [updated, ← partialNode]
      exact ih (j + 1) _ (by omega) (getElem?_level_succ_snoc_of_set set previous current)

end Collapse

/-! ### Runs of `append` -/

section Run

/-- The stored nodes start with the left nodes that the next append reads: those of the levels
below the root's, and when the count is a power of two the root itself, which is the left
node of the next level. -/
theorem exists_tail_leftNodes (leaves : List D) :
    ∃ tail, leftNodes hash makeCanonicalPair leaves leaves.length (List.range (leaves.length - 1).size) ++
        (top (parentOf hash makeCanonicalPair) leaves).toList =
      leftNodes hash makeCanonicalPair leaves leaves.length (List.range' 0 leaves.length.size) ++ tail := by
  rw [← List.range_eq_range']
  rcases Nat.eq_zero_or_pos leaves.length with empty | positive
  · rw [List.length_eq_zero_iff.mp empty]
    exact ⟨[], by simp [leftNodes, top]⟩
  have nonempty : leaves ≠ [] := List.ne_nil_of_length_pos positive
  have grows : (leaves.length - 1).size ≤ leaves.length.size := Nat.size_le_size (Nat.sub_le _ _)
  have bounded : leaves.length.size ≤ (leaves.length - 1).size + 1 := by
    apply Nat.size_le.mpr
    have := Nat.lt_size_self (leaves.length - 1)
    rw [Nat.pow_succ]
    omega
  rcases Nat.lt_or_eq_of_le grows with more | same
  · -- a power of two: the root is the left node of the next level
    have next : leaves.length.size = (leaves.length - 1).size + 1 := by omega
    have top' : leaves.length.testBit (leaves.length - 1).size = true := by
      have := NatBits.testBit_size_sub_one (Nat.pos_iff_ne_zero.mp positive)
      rwa [next, Nat.add_sub_cancel] at this
    have one : leaves.length >>> (leaves.length - 1).size = 1 := by
      have lower : 2 ^ (leaves.length - 1).size ≤ leaves.length := Nat.lt_size.mp (by omega)
      have upper := Nat.lt_size_self leaves.length
      rw [next, Nat.pow_succ] at upper
      rw [Nat.shiftRight_eq_div_pow]
      exact Nat.div_eq_of_lt_le (by omega) (by omega)
    refine ⟨[], ?_⟩
    rw [next, List.range_succ, leftNodes_append, List.append_nil, leftNodes, leftNodes, List.filterMap_cons,
      List.filterMap_nil, leftNodeAt, if_pos top', one, top_eq_level _ nonempty]
    rfl
  · exact ⟨_, by rw [same]⟩

theorem represents_empty : (empty : IncrementalMerkle D).Represents hash makeCanonicalPair [] :=
  ⟨rfl, by simp [empty, leftNodes, top]⟩

variable {hash makeCanonicalPair}

/-- The step lemma: below the wrap-around, `append` returns the root of the digests so far
and keeps the representation. -/
theorem Represents.append {m : IncrementalMerkle D} {leaves : List D}
    (represents : m.Represents hash makeCanonicalPair leaves) (room : leaves.length + 1 < 2 ^ 64) (digest : D) :
    ∃ m' root, m.append hash makeCanonicalPair digest = some (m', root) ∧
      top (parentOf hash makeCanonicalPair) (leaves ++ [digest]) = some root ∧
      m'.Represents hash makeCanonicalPair (leaves ++ [digest]) := by
  obtain ⟨count, active⟩ := represents
  obtain ⟨tail, split⟩ := exists_tail_leftNodes hash makeCanonicalPair leaves
  have walk := collapse_eq hash makeCanonicalPair leaves digest tail leaves.length.size 0 digest (Nat.zero_add _)
    (by rw [level_zero, Nat.shiftRight_zero, List.getElem?_append_right le_rfl, Nat.sub_self]; rfl)
  rw [Nat.shiftRight_zero, Nat.pow_zero, Nat.mod_one, List.range_zero, Nat.zero_add,
    show decide ((0 : Nat) ≠ 0) = false by decide,
    show leftNodes hash makeCanonicalPair (leaves ++ [digest]) (leaves.length + 1) [] = [] from rfl] at walk
  -- the loop ends at the one node of the top level, the new root
  have single : 0 < (level (parentOf hash makeCanonicalPair) (leaves ++ [digest]) leaves.length.size).length := by
    rw [length_level_snoc]
    exact Nat.succ_pos _
  obtain ⟨root, rootAt⟩ : ∃ root,
      (level (parentOf hash makeCanonicalPair) (leaves ++ [digest]) leaves.length.size)[0]? = some root :=
    ⟨_, List.getElem?_eq_getElem single⟩
  have topIs : top (parentOf hash makeCanonicalPair) (leaves ++ [digest]) = some root := by
    rw [top_eq_level _ (by simp), List.length_append, List.length_singleton, Nat.add_sub_cancel, rootAt]
  refine ⟨⟨leaves.length + 1, leftNodes hash makeCanonicalPair (leaves ++ [digest]) (leaves.length + 1)
    (List.range leaves.length.size) ++ [root]⟩, root, ?_, topIs, by simp, ?_⟩
  · rw [append_eq hash makeCanonicalPair (count ▸ room), count, active, split, walk, rootAt]
    rfl
  · rw [topIs, List.length_append, List.length_singleton, Nat.add_sub_cancel]
    rfl

/-- The run lemma: appending digests one by one, fewer than `2 ^ 64` in all, never reads past
the stored nodes and keeps the representation. -/
theorem Represents.appendEach {m : IncrementalMerkle D} {leaves : List D}
    (represents : m.Represents hash makeCanonicalPair leaves) (more : List D)
    (room : leaves.length + more.length < 2 ^ 64) :
    ∃ m', m.appendEach hash makeCanonicalPair more = some m' ∧
      m'.Represents hash makeCanonicalPair (leaves ++ more) := by
  induction more generalizing m leaves with
  | nil => exact ⟨m, rfl, by rwa [List.append_nil]⟩
  | cons digest rest ih =>
    rw [List.length_cons] at room
    obtain ⟨m', root, appended, -, represents'⟩ := represents.append (by omega) digest
    obtain ⟨m'', ran, represents''⟩ := ih represents' (by rw [List.length_append, List.length_singleton]; omega)
    refine ⟨m'', ?_, by rwa [List.append_assoc, List.singleton_append] at represents''⟩
    simp only [IncrementalMerkle.appendEach, appended]
    exact ran

/-- `get_root` of a tree holding some digests is `merkle` of them. -/
theorem Represents.getRoot [Inhabited D] {m : IncrementalMerkle D} {leaves : List D}
    (represents : m.Represents hash makeCanonicalPair leaves) :
    m.getRoot = some (merkle hash makeCanonicalPair leaves) := by
  obtain ⟨count, active⟩ := represents
  cases leaves with
  | nil => simp [IncrementalMerkle.getRoot, count, merkle, top]
  | cons first rest =>
    obtain ⟨root, topIs⟩ := exists_top_eq_some (parentOf hash makeCanonicalPair) (List.cons_ne_nil first rest)
    have positive : m.nodeCount > 0 := by
      rw [count]
      exact Nat.succ_pos _
    rw [IncrementalMerkle.getRoot, if_pos positive, active, topIs, merkle]
    simp only [Option.toList_some, List.getLast?_append, List.getLast?_singleton, Option.some_or]
    rw [show (fun l r => hash (makeCanonicalPair l r)) = parentOf hash makeCanonicalPair from rfl, topIs]
    rfl

end Run

theorem appendEach_append (m : IncrementalMerkle D) (first second : List D) :
    m.appendEach hash makeCanonicalPair (first ++ second) =
      (m.appendEach hash makeCanonicalPair first).bind fun m' => m'.appendEach hash makeCanonicalPair second := by
  induction first generalizing m with
  | nil => rfl
  | cons digest rest ih =>
    simp only [List.cons_append, IncrementalMerkle.appendEach]
    cases m.append hash makeCanonicalPair digest with
    | none => rfl
    | some result => exact ih result.1

/-- Fewer than `2 ^ 64` digests appended one by one to an empty tree: no append reads past
the stored nodes, and `get_root` is `merkle` of the digests. -/
theorem appendEach_getRoot_eq_merkle [Inhabited D] (leaves : List D) (room : leaves.length < 2 ^ 64) :
    ∃ m, (empty : IncrementalMerkle D).appendEach hash makeCanonicalPair leaves = some m ∧
      m.getRoot = some (merkle hash makeCanonicalPair leaves) := by
  obtain ⟨m, ran, represents⟩ := (represents_empty hash makeCanonicalPair).appendEach leaves
    (by rwa [List.length_nil, Nat.zero_add])
  exact ⟨m, ran, represents.getRoot⟩

theorem threeDigests_getRoot_eq_merkle :
    ∃ m, (empty : IncrementalMerkle Nat).appendEach (fun p : Nat × Nat => p.1 + 2 * p.2) Prod.mk [1, 2, 3] =
        some m ∧
      m.getRoot = some (merkle (fun p : Nat × Nat => p.1 + 2 * p.2) Prod.mk [1, 2, 3]) :=
  appendEach_getRoot_eq_merkle _ _ [1, 2, 3] (by decide)

/-- At `2 ^ 64` digests the count wraps to zero and `get_root` returns the default digest,
while `merkle` of them is a hash: with a hash that is constantly 1 the root is 0 and `merkle`
is 1. -/
theorem appendEach_getRoot_of_wrap :
    ∃ m, (empty : IncrementalMerkle Nat).appendEach (fun _ : Nat × Nat => 1) Prod.mk
        (List.replicate (2 ^ 64) 0) = some m ∧
      m.getRoot ≠ some (merkle (fun _ : Nat × Nat => 1) Prod.mk (List.replicate (2 ^ 64) 0)) := by
  -- the count and lengths are only ever compared, never unfolded into a list of `2 ^ 64` digests
  have below : 2 ^ 64 - 1 + 1 = 2 ^ 64 := Nat.sub_add_cancel Nat.one_le_two_pow
  obtain ⟨m, ran, represents⟩ := (represents_empty (fun _ : Nat × Nat => (1 : Nat)) Prod.mk).appendEach
    (List.replicate (2 ^ 64 - 1) 0) (by rw [List.length_nil, List.length_replicate]; omega)
  have full : m.nodeCount + 1 = 2 ^ 64 := by
    rw [represents.1, List.nil_append, List.length_replicate, below]
  have split : List.replicate (2 ^ 64) 0 = List.replicate (2 ^ 64 - 1) 0 ++ [0] := by
    rw [← List.replicate_succ', below]
  have two : 2 ≤ (List.replicate (2 ^ 64) 0).length := by
    rw [List.length_replicate]
    exact Nat.le_self_pow (by decide) 2
  have hashed : merkle (fun _ : Nat × Nat => 1) Prod.mk (List.replicate (2 ^ 64) 0) = 1 := by
    rw [merkle]
    exact congrArg (fun root => root.getD 0) (MerkleLevels.top_const 1 two)
  refine ⟨⟨0, [0]⟩, ?_, ?_⟩
  · rw [split, appendEach_append, ran, Option.bind_some, IncrementalMerkle.appendEach,
      append_of_wrap _ _ full]
    rfl
  · rw [hashed, IncrementalMerkle.getRoot, if_neg (Nat.lt_irrefl 0)]
    exact fun same => Nat.zero_ne_one (Option.some.inj same)

end IncrementalMerkle

end Fio.Chain
