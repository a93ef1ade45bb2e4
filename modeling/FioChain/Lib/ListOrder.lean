import Mathlib

/-! The lexicographic order of lists under two changes of representation: mapping the
elements by a function that is strictly monotone and injective on them, and padding lists
to a common length with the least element, for lists that do not end with it. -/

namespace ListOrder

variable {α β : Type}

section Map

variable [LT α] [LT β] {f : α → β} {S : α → Prop}

theorem map_lt_map_iff (lt_iff : ∀ x y, S x → S y → (f x < f y ↔ x < y))
    (inj : ∀ x y, S x → S y → f x = f y → x = y) :
    ∀ {l₁ l₂ : List α}, (∀ x ∈ l₁, S x) → (∀ x ∈ l₂, S x) → (l₁.map f < l₂.map f ↔ l₁ < l₂)
  | [], [], _, _ => by simp
  | [], _ :: _, _, _ => by simp
  | _ :: _, [], _, _ => by simp
  | a :: l₁, b :: l₂, in₁, in₂ => by
    have inA := in₁ a List.mem_cons_self
    have inB := in₂ b List.mem_cons_self
    have same : f a = f b ↔ a = b := ⟨inj a b inA inB, fun equal => equal ▸ rfl⟩
    rw [List.map_cons, List.map_cons, List.cons_lt_cons_iff, List.cons_lt_cons_iff, lt_iff a b inA inB, same,
      map_lt_map_iff lt_iff inj (fun x mem => in₁ x (List.mem_cons_of_mem a mem))
        (fun x mem => in₂ x (List.mem_cons_of_mem b mem))]

end Map

theorem getLast?_ne_of_cons {p a : α} {l : List α} (last : (a :: l).getLast? ≠ some p) :
    l.getLast? ≠ some p := by
  cases l with
  | nil => exact fun found => nomatch found
  | cons b l => rwa [List.getLast?_cons_cons] at last

/-- Trimming the padding character from the right undoes the padding of a list that does not
end with it. -/
theorem rdropWhile_append_replicate [DecidableEq α] {l : List α} {x : α} (last : l.getLast? ≠ some x) (k : Nat) :
    (l ++ List.replicate k x).rdropWhile (· = x) = l := by
  induction k with
  | zero =>
    rw [List.replicate_zero, List.append_nil, List.rdropWhile_eq_self_iff]
    intro nonempty padded
    exact last (by rw [List.getLast?_eq_some_getLast nonempty, of_decide_eq_true padded])
  | succ k ih =>
    rw [List.replicate_succ', ← List.append_assoc, List.rdropWhile_concat_pos _ _ x (decide_eq_true rfl), ih]

/-- A list is its right-trimmed part followed by as many padding characters as were
trimmed. -/
theorem rdropWhile_append_replicate_eq [DecidableEq α] (l : List α) (x : α) :
    l.rdropWhile (· = x) ++ List.replicate (l.length - (l.rdropWhile (· = x)).length) x = l := by
  have whole : (l.rdropWhile (· = x) ++ l.rtakeWhile (· = x)).length = l.length := by
    rw [List.rdropWhile_append_rtakeWhile]
  rw [List.length_append] at whole
  have trimmed : l.rtakeWhile (· = x) = List.replicate (l.length - (l.rdropWhile (· = x)).length) x := by
    rw [List.eq_replicate_iff]
    refine ⟨by omega, fun b mem => ?_⟩
    have padding := List.mem_rtakeWhile_imp mem
    exact of_decide_eq_true padding
  rw [← trimmed]
  exact List.rdropWhile_append_rtakeWhile

section Pad

variable [LinearOrder α] {p : α} (bottom : ∀ x, p ≤ x)
include bottom

/-- A list that does not end with the least element is above the padding alone. -/
theorem replicate_lt_append_replicate {l : List α} {n : Nat} (fits : l.length ≤ n) (last : l.getLast? ≠ some p)
    (nonempty : l ≠ []) : List.replicate n p < l ++ List.replicate (n - l.length) p := by
  induction l generalizing n with
  | nil => exact absurd rfl nonempty
  | cons b l ih =>
    obtain ⟨m, rfl⟩ : ∃ m, n = m + 1 := ⟨n - 1, by simp at fits; omega⟩
    rw [List.replicate_succ, List.cons_append, List.length_cons, Nat.add_sub_add_right, List.cons_lt_cons_iff]
    by_cases padded : b = p
    · -- a padding character on both sides: the rest of the list decides
      subst padded
      have rest : l ≠ [] := by
        rintro rfl
        exact last rfl
      exact .inr ⟨rfl, ih (by simp at fits; omega) (getLast?_ne_of_cons last) rest⟩
    · exact .inl (lt_of_le_of_ne (bottom b) (Ne.symm padded))

theorem not_append_replicate_lt_replicate {l : List α} {n : Nat} (fits : l.length ≤ n) :
    ¬ l ++ List.replicate (n - l.length) p < List.replicate n p := by
  induction l generalizing n with
  | nil => simp
  | cons a l ih =>
    obtain ⟨m, rfl⟩ : ∃ m, n = m + 1 := ⟨n - 1, by simp at fits; omega⟩
    rw [List.replicate_succ, List.cons_append, List.length_cons, Nat.add_sub_add_right, List.cons_lt_cons_iff]
    rintro (below | ⟨-, rest⟩)
    · exact absurd below (not_lt_of_ge (bottom a))
    · exact ih (by simp at fits; omega) rest

/-- Padding with the least element keeps the order of lists that do not end with it. -/
theorem append_replicate_lt_iff {l₁ l₂ : List α} {n : Nat} (fits₁ : l₁.length ≤ n) (fits₂ : l₂.length ≤ n)
    (last₁ : l₁.getLast? ≠ some p) (last₂ : l₂.getLast? ≠ some p) :
    l₁ ++ List.replicate (n - l₁.length) p < l₂ ++ List.replicate (n - l₂.length) p ↔ l₁ < l₂ := by
  induction l₁ generalizing l₂ n with
  | nil =>
    rw [List.nil_append, List.length_nil, Nat.sub_zero]
    cases l₂ with
    | nil => simp
    | cons b l₂ =>
      exact ⟨fun _ => List.nil_lt_cons b l₂,
        fun _ => replicate_lt_append_replicate bottom fits₂ last₂ (List.cons_ne_nil b l₂)⟩
  | cons a l₁ ih =>
    cases l₂ with
    | nil =>
      rw [List.nil_append, List.length_nil, Nat.sub_zero]
      exact ⟨fun below => absurd below (not_append_replicate_lt_replicate bottom fits₁),
        fun below => absurd below (List.not_lt_nil _)⟩
    | cons b l₂ =>
      obtain ⟨m, rfl⟩ : ∃ m, n = m + 1 := ⟨n - 1, by simp at fits₁; omega⟩
      rw [List.cons_append, List.cons_append, List.length_cons, List.length_cons, Nat.add_sub_add_right,
        Nat.add_sub_add_right, List.cons_lt_cons_iff, List.cons_lt_cons_iff,
        ih (by simp at fits₁; omega) (by simp at fits₂; omega) (getLast?_ne_of_cons last₁)
          (getLast?_ne_of_cons last₂)]

end Pad

end ListOrder
