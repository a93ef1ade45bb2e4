import Mathlib

/-! An ordered unique index read as the list of its elements sorted by key. `lower_bound(k)`
is the first position whose key is at least `k`; the elements whose keys lie in `[a, b)` are
those between the two bounds, in key order; and sorting a list whose keys are distinct gives
such an index. -/

namespace SortedIndex

variable {α β : Type} [LinearOrder β] (key : α → β)

/-- Keys increase strictly along the list. -/
def Sorted (l : List α) : Prop := l.Pairwise fun x y => key x < key y

/-- `lower_bound(k)`: the first position whose key is at least `k`, the length if none is. -/
def lowerBound (l : List α) (k : β) : Nat := l.findIdx fun x => k ≤ key x

/-- The list sorted by key, as the index holds it. -/
def sort (l : List α) : List α := l.insertionSort fun x y => key x ≤ key y

variable {key} {l : List α}

theorem lowerBound_le_length (k : β) : lowerBound key l k ≤ l.length := List.findIdx_le_length

theorem key_lt_of_lt_lowerBound {k : β} {i : Nat} (inside : i < l.length) (before : i < lowerBound key l k) :
    key l[i] < k := by
  simpa using List.not_of_lt_findIdx before

theorem le_key_of_lowerBound_le (sorted : Sorted key l) {k : β} {i : Nat} (inside : i < l.length)
    (after : lowerBound key l k ≤ i) : k ≤ key l[i] := by
  have found : lowerBound key l k < l.length := by omega
  have bound : k ≤ key l[lowerBound key l k] :=
    of_decide_eq_true (List.findIdx_getElem (p := fun x => decide (k ≤ key x)) (w := found))
  rcases Nat.eq_or_lt_of_le after with same | later
  · simpa only [same] using bound
  · exact bound.trans (List.pairwise_iff_getElem.1 sorted _ _ found inside later).le

theorem lowerBound_mono {a b : β} (ordered : a ≤ b) : lowerBound key l a ≤ lowerBound key l b :=
  List.findIdx_le_findIdx fun x _ above => by
    simp only [decide_eq_true_eq] at above ⊢
    exact ordered.trans above

/-- A position lies between the bounds of `[a, b)` exactly when its key lies in `[a, b)`. -/
theorem window_iff (sorted : Sorted key l) {a b : β} {i : Nat} (inside : i < l.length) :
    (lowerBound key l a ≤ i ∧ i < lowerBound key l b) ↔ (a ≤ key l[i] ∧ key l[i] < b) := by
  constructor
  · rintro ⟨after, before⟩
    exact ⟨le_key_of_lowerBound_le sorted inside after, key_lt_of_lt_lowerBound inside before⟩
  · rintro ⟨low, high⟩
    constructor
    · by_contra below
      exact not_le.2 (key_lt_of_lt_lowerBound inside (not_le.1 below)) low
    · by_contra above
      exact not_lt.2 (le_key_of_lowerBound_le sorted inside (not_lt.1 above)) high

/-- `lower_bound` of an element's own key finds the element. -/
theorem getElem?_lowerBound_of_mem (sorted : Sorted key l) {x : α} (mem : x ∈ l) :
    l[lowerBound key l (key x)]? = some x := by
  obtain ⟨i, inside, rfl⟩ := List.getElem_of_mem mem
  have found : lowerBound key l (key l[i]) = i := by
    refine (List.findIdx_eq inside).2 ⟨decide_eq_true le_rfl, fun j before => decide_eq_false ?_⟩
    exact not_le.2 (List.pairwise_iff_getElem.1 sorted j i (by omega) inside before)
  rw [found, List.getElem?_eq_getElem inside]

/-- The element before `lower_bound(k)` is the greatest one below `k`. -/
theorem pred_lowerBound (sorted : Sorted key l) {k : β} {x : α} (mem : x ∈ l) (below : key x < k) :
    ∃ inside : lowerBound key l k - 1 < l.length, 0 < lowerBound key l k ∧
      key x ≤ key l[lowerBound key l k - 1] ∧ key l[lowerBound key l k - 1] < k := by
  obtain ⟨j, inside, rfl⟩ := List.getElem_of_mem mem
  have before : j < lowerBound key l k := by
    by_contra after
    exact not_le.2 below (le_key_of_lowerBound_le sorted inside (not_lt.1 after))
  have bound : lowerBound key l k ≤ l.length := lowerBound_le_length k
  refine ⟨by omega, by omega, ?_, key_lt_of_lt_lowerBound (by omega) (by omega)⟩
  rcases Nat.eq_or_lt_of_le (show j ≤ lowerBound key l k - 1 by omega) with same | earlier
  · simp only [same, le_refl]
  · exact (List.pairwise_iff_getElem.1 sorted _ _ inside (by omega) earlier).le

theorem exists_of_mem_drop_take {m n : Nat} {x : α} (mem : x ∈ (l.drop m).take n) :
    ∃ i, m ≤ i ∧ i < m + n ∧ ∃ inside : i < l.length, l[i] = x := by
  obtain ⟨j, bound, rfl⟩ := List.getElem_of_mem mem
  simp only [List.length_take, List.length_drop] at bound
  exact ⟨m + j, by omega, by omega, by omega, by simp⟩

/-- The elements with keys in `[a, b)` are those between the two bounds, in order. -/
theorem filter_window (sorted : Sorted key l) {a b : β} (ordered : a ≤ b) :
    l.filter (fun x => a ≤ key x ∧ key x < b) =
      (l.drop (lowerBound key l a)).take (lowerBound key l b - lowerBound key l a) := by
  have bounds := @lowerBound_mono α β _ key l a b ordered
  have tail : (l.drop (lowerBound key l a)).drop (lowerBound key l b - lowerBound key l a) =
      l.drop (lowerBound key l b) := by
    rw [List.drop_drop]
    congr 1
    omega
  conv_lhs => rw [← List.take_append_drop (lowerBound key l a) l,
    ← List.take_append_drop (lowerBound key l b - lowerBound key l a) (l.drop (lowerBound key l a)), tail]
  rw [List.filter_append, List.filter_append, List.filter_eq_nil_iff.2, List.filter_eq_self.2,
    List.filter_eq_nil_iff.2, List.nil_append, List.append_nil]
  · -- past the upper bound every key is at least `b`
    intro x mem
    obtain ⟨i, after, -, inside, rfl⟩ := exists_of_mem_drop_take (l := l) (m := lowerBound key l b) (n := l.length)
      (by rwa [List.take_of_length_le (by simp)])
    have := le_key_of_lowerBound_le sorted inside after
    simp only [decide_eq_true_eq, not_and, not_lt]
    exact fun _ => this
  · intro x mem
    obtain ⟨i, after, before, inside, rfl⟩ := exists_of_mem_drop_take mem
    simpa using (window_iff sorted inside).1 ⟨after, by omega⟩
  · -- before the lower bound every key is below `a`
    intro x mem
    obtain ⟨i, -, before, inside, rfl⟩ := exists_of_mem_drop_take (l := l) (m := 0) (by rwa [List.drop_zero])
    have := key_lt_of_lt_lowerBound inside (show i < lowerBound key l a by omega)
    simp only [decide_eq_true_eq, not_and, not_lt]
    exact fun below => absurd below (not_le.2 this)

theorem perm_sort (l : List α) : (sort key l).Perm l := List.perm_insertionSort _ l

/-- Sorting a list whose keys are distinct gives a strictly sorted index. -/
theorem sorted_sort (distinct : (l.map key).Nodup) : Sorted key (sort key l) := by
  have : Std.Total fun x y : α => key x ≤ key y := ⟨fun x y => le_total _ _⟩
  have : IsTrans α fun x y => key x ≤ key y := ⟨fun _ _ _ => le_trans⟩
  have ordered := List.pairwise_insertionSort (fun x y : α => key x ≤ key y) l
  have apart : (sort key l).Pairwise fun x y => key x ≠ key y :=
    List.pairwise_map.1 (((perm_sort l).map key).nodup_iff.2 distinct)
  exact (ordered.and apart).imp fun ⟨le, ne⟩ => lt_of_le_of_ne le ne

end SortedIndex
