import Mathlib

/-! Reversing a list in place: step `t` swaps the elements at `t` and `length - 1 - t`, and
`length / 2` steps reverse it, the middle element of an odd length staying where it is. -/

namespace SwapReverse

variable {α : Type} [Inhabited α]

/-- Swap the elements at `t` and `l.length - 1 - t`. -/
def swapEnds (l : List α) (t : Nat) : List α :=
  (l.set (l.length - 1 - t) (l.getD t default)).set t (l.getD (l.length - 1 - t) default)

@[simp] theorem length_swapEnds (l : List α) (t : Nat) : (swapEnds l t).length = l.length := by
  simp [swapEnds]

theorem length_foldl_swapEnds (l : List α) (T : Nat) : ((List.range T).foldl swapEnds l).length = l.length := by
  induction T with
  | zero => rfl
  | succ T ih => rw [List.range_succ, List.foldl_append, List.foldl_cons, List.foldl_nil, length_swapEnds, ih]

theorem getD_swapEnds (l : List α) {t k : Nat} (hk : k < l.length) :
    (swapEnds l t).getD k default =
      if k = t then l.getD (l.length - 1 - t) default
      else if k = l.length - 1 - t then l.getD t default else l.getD k default := by
  simp only [swapEnds, List.getD_eq_getElem?_getD, List.getElem?_set, List.length_set]
  by_cases front : k = t
  · subst front
    simp [hk]
  · by_cases back : k = l.length - 1 - t
    · subst back
      simp [hk, Ne.symm front, front]
    · simp [Ne.symm front, Ne.symm back, front, back]

/-- After the first `T` swaps, the ends of length `T` are reversed and the middle is as it was. -/
theorem getD_foldl_swapEnds (l : List α) {T : Nat} (half : 2 * T ≤ l.length) {k : Nat} (hk : k < l.length) :
    ((List.range T).foldl swapEnds l).getD k default =
      if k < T ∨ l.length - 1 - k < T then l.getD (l.length - 1 - k) default else l.getD k default := by
  induction T generalizing k with
  | zero => simp
  | succ T ih =>
    rw [List.range_succ, List.foldl_append, List.foldl_cons, List.foldl_nil,
      getD_swapEnds _ (by rwa [length_foldl_swapEnds]), length_foldl_swapEnds]
    -- step `T` moves positions `T` and `length - 1 - T`, which differ as `2 * (T + 1) ≤ length`
    by_cases front : k = T
    · subst front
      rw [if_pos rfl, ih (by omega) (by omega), if_neg (by omega), if_pos (by omega)]
    by_cases back : k = l.length - 1 - T
    · subst back
      rw [if_neg front, if_pos rfl, ih (by omega) (by omega), if_neg (by omega), if_pos (by omega),
        show l.length - 1 - (l.length - 1 - T) = T by omega]
    · rw [if_neg front, if_neg back, ih (by omega) hk]
      congr 1
      apply propext
      omega

/-- `length / 2` swaps reverse the list. -/
theorem foldl_swapEnds_eq_reverse (l : List α) : (List.range (l.length / 2)).foldl swapEnds l = l.reverse := by
  apply List.ext_getElem
  · rw [length_foldl_swapEnds, List.length_reverse]
  · intro k inLeft inRight
    have each := getD_foldl_swapEnds l (T := l.length / 2) (by omega) (k := k) (by simpa using inRight)
    rw [List.getD_eq_getElem _ _ inLeft] at each
    rw [each, List.getElem_reverse]
    split
    · exact List.getD_eq_getElem _ _ _
    · -- the middle of an odd length
      rw [List.getD_eq_getElem _ _ (by simpa using inRight)]
      congr 1
      simp at inRight
      omega

end SwapReverse
