import Mathlib.Data.List.Sort
import Mathlib.Order.Bounds.Defs

/-! The `k`-th smallest element of a list, read off its sorted permutation: what
`std::nth_element` leaves at position `k`. It does not depend on the order of the list,
and it can only grow when every element grows. Both facts come from one count: in a
sorted list the element at `k` is at most `x` exactly when more than `k` elements are.
Counted from above, it is the largest element that at least `length - k` elements reach. -/

namespace OrderStat

variable {α : Type} [LinearOrder α]

/-- The element at position `k` of the sorted list, `default` past its end. -/
def kth (default : α) (l : List α) (k : Nat) : α :=
  (l.insertionSort (· ≤ ·)).getD k default

/-- How many elements are at most `x`. -/
def countLE (l : List α) (x : α) : Nat :=
  (l.filter (· ≤ x)).length

/-- How many elements are at least `x`. -/
def countGE (l : List α) (x : α) : Nat :=
  (l.filter (x ≤ ·)).length

theorem countLE_cons (a : α) (l : List α) (x : α) :
    countLE (a :: l) x = (if a ≤ x then 1 else 0) + countLE l x := by
  by_cases le : a ≤ x <;> simp [countLE, le, Nat.add_comm]

theorem countLE_perm {l l' : List α} (perm : l.Perm l') (x : α) : countLE l x = countLE l' x :=
  (perm.filter _).length_eq

/-- Raising elements one for one can only lower the count below `x`. -/
theorem countLE_le_of_forall₂ {l l' : List α} (le : List.Forall₂ (· ≤ ·) l l') (x : α) :
    countLE l' x ≤ countLE l x := by
  induction le with
  | nil => simp [countLE]
  | @cons a b _ _ head _ ih =>
    rw [countLE_cons, countLE_cons]
    split_ifs with bx ax ax
    · omega
    · exact absurd (head.trans bx) ax
    · omega
    · omega

/-- In a sorted list the element at `k` is at most `x` exactly when more than `k` elements
are: those at most `x` form a prefix. -/
theorem getElem_le_iff_lt_countLE {s : List α} (sorted : s.Pairwise (· ≤ ·)) {k : Nat}
    (bound : k < s.length) (x : α) : s[k] ≤ x ↔ k < countLE s x := by
  induction s generalizing k with
  | nil => simp at bound
  | cons a t ih =>
    obtain ⟨least, rest⟩ := List.pairwise_cons.mp sorted
    rw [countLE_cons]
    by_cases ax : a ≤ x
    · cases k with
      | zero =>
        simp only [List.getElem_cons_zero, ax, if_true, true_iff]
        omega
      | succ k =>
        simp only [List.getElem_cons_succ, ax, if_true]
        rw [ih rest (by simpa using bound)]
        omega
    · -- every element lies above `a`, so above `x`: none is counted
      have none : countLE t x = 0 := by
        simp only [countLE, List.length_eq_zero_iff, List.filter_eq_nil_iff, decide_eq_true_eq]
        exact fun b mem bx => ax ((least b mem).trans bx)
      have above : x < (a :: t)[k] := by
        rw [not_le] at ax
        cases k with
        | zero => exact ax
        | succ k => exact ax.trans_le (least _ (List.getElem_mem _))
      simp only [ax, if_false, none, Nat.add_zero, Nat.not_lt_zero, iff_false, not_le]
      exact above

theorem sorted_insertionSort (l : List α) : (l.insertionSort (· ≤ ·)).Pairwise (· ≤ ·) :=
  List.pairwise_insertionSort _ l

/-- The `k`-th smallest element does not depend on the order of the list. -/
theorem kth_perm {l l' : List α} (perm : l.Perm l') (default : α) (k : Nat) :
    kth default l k = kth default l' k := by
  have same : l.insertionSort (· ≤ ·) = l'.insertionSort (· ≤ ·) :=
    ((List.perm_insertionSort _ l).trans (perm.trans (List.perm_insertionSort _ l').symm)).eq_of_pairwise'
      (sorted_insertionSort l) (sorted_insertionSort l')
  simp only [kth, same]

theorem kth_eq_getElem {l : List α} {k : Nat} (inside : k < (l.insertionSort (· ≤ ·)).length)
    (default : α) : kth default l k = (l.insertionSort (· ≤ ·))[k] := by
  rw [kth, List.getD_eq_getElem?_getD, List.getElem?_eq_getElem inside]
  rfl

theorem kth_eq_default {l : List α} {k : Nat} (past : l.length ≤ k) (default : α) :
    kth default l k = default := by
  simp [kth, List.getD_eq_getElem?_getD, past]

/-- Raising every element one for one raises the `k`-th smallest: more than `k` elements
of the lowered list lie at or below the raised list's `k`-th. -/
theorem kth_mono {l l' : List α} (le : List.Forall₂ (· ≤ ·) l l') (default : α) (k : Nat) :
    kth default l k ≤ kth default l' k := by
  have length : l.length = l'.length := le.length_eq
  by_cases inside : k < l.length
  · rw [kth_eq_getElem (by simpa using inside), kth_eq_getElem (by simpa [← length] using inside)]
    apply (getElem_le_iff_lt_countLE (sorted_insertionSort l) _ _).mpr
    calc k < countLE (l'.insertionSort (· ≤ ·)) _ :=
          (getElem_le_iff_lt_countLE (sorted_insertionSort l') _ _).mp le_rfl
      _ = countLE l' _ := countLE_perm (List.perm_insertionSort _ l') _
      _ ≤ countLE l _ := countLE_le_of_forall₂ le _
      _ = countLE (l.insertionSort (· ≤ ·)) _ := (countLE_perm (List.perm_insertionSort _ l) _).symm
  · rw [kth_eq_default (not_lt.mp inside), kth_eq_default (length ▸ not_lt.mp inside)]

/-- The `k`-th smallest element is one of the elements, or `default`. -/
theorem kth_mem_or_default (default : α) (l : List α) (k : Nat) :
    kth default l k ∈ l ∨ kth default l k = default := by
  unfold kth
  rw [List.getD_eq_getElem?_getD]
  cases found : (l.insertionSort (· ≤ ·))[k]? with
  | none => exact .inr rfl
  | some v => exact .inl ((List.perm_insertionSort _ l).mem_iff.mp (List.mem_of_getElem? found))

theorem countGE_perm {l l' : List α} (perm : l.Perm l') (x : α) : countGE l x = countGE l' x :=
  (perm.filter _).length_eq

/-- No element is both at least `y` and at most `x` below it. -/
theorem countGE_add_countLE_le {x y : α} (lt : x < y) (l : List α) : countGE l y + countLE l x ≤ l.length := by
  have above : l.countP (fun a => y ≤ a) ≤ l.countP (fun a => ¬ a ≤ x) :=
    List.countP_mono_left fun a _ le => by simpa using lt.trans_le (of_decide_eq_true le)
  have split := List.length_eq_countP_add_countP (fun a => decide (a ≤ x)) (l := l)
  simp only [countGE, countLE, ← List.countP_eq_length_filter, decide_eq_true_eq, decide_not] at above split ⊢
  omega

/-- In a sorted list the suffix from position `k` is at least its first element. -/
theorem le_countGE_getElem {s : List α} (sorted : s.Pairwise (· ≤ ·)) {k : Nat} (bound : k < s.length) :
    s.length - k ≤ countGE s s[k] := by
  have least : ∀ a ∈ s.drop k, s[k] ≤ a := by
    have tail : (s.drop k).Pairwise (· ≤ ·) := sorted.sublist (List.drop_sublist k s)
    rw [List.drop_eq_getElem_cons bound] at tail ⊢
    intro a mem
    rcases List.mem_cons.mp mem with rfl | mem
    · exact le_rfl
    · exact List.rel_of_pairwise_cons tail mem
  calc s.length - k = (s.drop k).length := (List.length_drop ..).symm
    _ = ((s.drop k).filter (s[k] ≤ ·)).length := by
      rw [List.filter_eq_self.mpr fun a mem => decide_eq_true (least a mem)]
    _ ≤ countGE s s[k] := ((List.drop_sublist k s).filter _).length_le

/-- The `k`-th smallest element is the largest element that at least `length - k` elements
reach: the suffix of the sorted list from `k` reaches it, and an element above it is
reached only by elements past every copy of it. -/
theorem kth_isGreatest {l : List α} {k : Nat} (inside : k < l.length) (default : α) :
    IsGreatest {v | v ∈ l ∧ l.length - k ≤ countGE l v} (kth default l k) := by
  have perm : (l.insertionSort (· ≤ ·)).Perm l := List.perm_insertionSort _ l
  have length := perm.length_eq
  have bound : k < (l.insertionSort (· ≤ ·)).length := length ▸ inside
  rw [kth_eq_getElem bound]
  refine ⟨⟨perm.mem_iff.mp (List.getElem_mem bound), ?_⟩, ?_⟩
  · rw [← countGE_perm perm, ← length]
    exact le_countGE_getElem (sorted_insertionSort l) bound
  · rintro v ⟨-, many⟩
    by_contra above
    rw [not_le] at above
    have atMost := (getElem_le_iff_lt_countLE (sorted_insertionSort l) bound _).mp le_rfl
    have apart := countGE_add_countLE_le above l
    rw [← countLE_perm perm] at apart
    omega

end OrderStat
