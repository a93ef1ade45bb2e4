import Mathlib.Logic.Function.Iterate
import FioChain.Lib.NatBits

/-! Merkle roots computed level by level. One level up, neighbours are combined in pairs and
a last element without a partner is combined with itself; the root is what is left when a
level has one element. A list of `N ≥ 1` leaves has `((N - 1) >>> j) + 1` nodes at level
`j`, the root at level `(N - 1).size`, and a node whose leaves all lie in a prefix does not
change when leaves are appended. -/

namespace MerkleLevels

variable {α : Type} (node : α → α → α)

/-- One level up. -/
def pairUp : List α → List α
  | a :: b :: rest => node a b :: pairUp rest
  | [a] => [node a a]
  | [] => []

/-- The nodes `j` levels up. -/
def level (l : List α) (j : Nat) : List α := (pairUp node)^[j] l

theorem length_pairUp (l : List α) : (pairUp node l).length = (l.length + 1) / 2 := by
  fun_induction pairUp node l with
  | case1 a b rest ih => simp only [List.length_cons, ih]; omega
  | case2 a => simp
  | case3 => simp

/-- The root: levels are formed until one node is left. -/
def top : List α → Option α
  | [] => none
  | [a] => some a
  | a :: b :: rest => top (pairUp node (a :: b :: rest))
termination_by l => l.length
decreasing_by simp only [length_pairUp, List.length_cons]; omega

/-- Node `p` one level up combines nodes `2p` and `2p + 1`, or node `2p` with itself when it is
the last. -/
theorem getElem?_pairUp (l : List α) (p : Nat) :
    (pairUp node l)[p]? = l[2 * p]?.map fun a => node a (l[2 * p + 1]?.getD a) := by
  induction l using pairUp.induct generalizing p with
  | case1 a b rest ih =>
    cases p with
    | zero => rfl
    | succ p =>
      simp only [pairUp, List.getElem?_cons_succ, ih]
      rw [show 2 * (p + 1) = 2 * p + 1 + 1 by omega]
      rfl
  | case2 a => cases p <;> rfl
  | case3 => rfl

@[simp] theorem level_zero (l : List α) : level node l 0 = l := rfl

theorem level_succ (l : List α) (j : Nat) : level node l (j + 1) = pairUp node (level node l j) :=
  Function.iterate_succ_apply' _ _ _

theorem level_succ' (l : List α) (j : Nat) : level node l (j + 1) = level node (pairUp node l) j :=
  Function.iterate_succ_apply _ _ _

/-- Level `j` of `N ≥ 1` leaves has `((N - 1) >>> j) + 1` nodes. -/
theorem length_level {l : List α} (nonempty : l ≠ []) (j : Nat) :
    (level node l j).length = (l.length - 1) >>> j + 1 := by
  have positive : 0 < l.length := List.length_pos_iff.mpr nonempty
  induction j with
  | zero => simp only [level_zero, Nat.shiftRight_zero]; omega
  | succ j ih =>
    rw [level_succ, length_pairUp, ih, Nat.shiftRight_succ]
    omega

/-- A node whose `2 ^ j` leaves all lie in `l` is the same over `l ++ rest`. -/
theorem getElem?_level_append (l rest : List α) (j p : Nat) (complete : (p + 1) * 2 ^ j ≤ l.length) :
    (level node (l ++ rest) j)[p]? = (level node l j)[p]? := by
  induction j generalizing p with
  | zero =>
    simp only [level_zero]
    exact List.getElem?_append_left (by simp at complete; omega)
  | succ j ih =>
    -- both children of the node are complete one level down
    have double : (2 * p + 1 + 1) * 2 ^ j = (p + 1) * 2 ^ (j + 1) := by
      rw [show 2 * p + 1 + 1 = (p + 1) * 2 by omega, Nat.mul_assoc, Nat.mul_comm 2, ← Nat.pow_succ]
    have right := ih (2 * p + 1) (double ▸ complete)
    have left := ih (2 * p) (le_trans (Nat.mul_le_mul_right _ (Nat.le_succ _)) (double ▸ complete))
    rw [level_succ, level_succ, getElem?_pairUp, getElem?_pairUp, left, right]

/-- The root of `N ≥ 1` leaves is the one node at level `(N - 1).size`. -/
theorem top_eq_level {l : List α} (nonempty : l ≠ []) :
    top node l = (level node l (l.length - 1).size)[0]? := by
  induction l using top.induct node with
  | case1 => exact absurd rfl nonempty
  | case2 a => simp [top]
  | case3 a b rest ih =>
    rw [top, ih (by simp [pairUp]), ← level_succ']
    -- one level up halves the index of the last leaf, which drops one bit
    congr 3
    simp only [length_pairUp, List.length_cons]
    rw [show (rest.length + 1 + 1 + 1) / 2 - 1 = (rest.length + 1) / 2 by omega,
      show rest.length + 1 + 1 - 1 = rest.length + 1 by omega]
    exact NatBits.size_div_two_add_one (Nat.succ_ne_zero _)

theorem exists_top_eq_some {l : List α} (nonempty : l ≠ []) : ∃ root, top node l = some root := by
  have inside : 0 < (level node l (l.length - 1).size).length := by
    rw [length_level node nonempty]
    exact Nat.succ_pos _
  exact ⟨_, (top_eq_level node nonempty).trans (List.getElem?_eq_getElem inside)⟩

/-- With a constant combination, the root of two or more leaves is that constant. -/
theorem top_const (c : α) {l : List α} (two : 2 ≤ l.length) : top (fun _ _ => c) l = some c := by
  induction l using top.induct (fun _ _ => c) with
  | case1 => simp at two
  | case2 a => simp at two
  | case3 a b rest ih =>
    rw [top]
    rcases Nat.lt_or_ge (pairUp (fun _ _ => c) (a :: b :: rest)).length 2 with one | more
    · -- a single node is left, and it is the constant
      rw [pairUp] at one ⊢
      cases paired : pairUp (fun _ _ => c) rest with
      | nil => rw [top]
      | cons x xs =>
        rw [paired, List.length_cons, List.length_cons] at one
        omega
    · exact ih more

end MerkleLevels
