import Mathlib

/-! A list of records with a unique key, read as the finite map that an ordered unique index
of a database holds: look a record up by its key, erase it, or rewrite it in place. What a sum
or a count over the records does under each of these, when the keys are unique. -/

namespace KeyedList

variable {α κ : Type} [DecidableEq κ] (key : α → κ)

/-- The record with key `k`. -/
def find (l : List α) (k : κ) : Option α :=
  l.find? fun x => key x = k

/-- The records without key `k`. -/
def erase (l : List α) (k : κ) : List α :=
  l.filter fun x => key x ≠ k

/-- Rewrite the record with key `k` by `g`, in place. -/
def modify (l : List α) (k : κ) (g : α → α) : List α :=
  l.map fun x => if key x = k then g x else x

variable {key} {l : List α} {k : κ} {x : α}

theorem find_eq_some (found : find key l k = some x) : x ∈ l ∧ key x = k := by
  unfold find at found
  exact ⟨List.mem_of_find?_eq_some found, by simpa using List.find?_some found⟩

theorem find_eq_none : find key l k = none ↔ ∀ x ∈ l, key x ≠ k := by
  simp [find]

theorem find_of_mem (keys : (l.map key).Nodup) (mem : x ∈ l) : find key l (key x) = some x := by
  induction l with
  | nil => cases mem
  | cons y ys ih =>
    rw [List.map_cons, List.nodup_cons] at keys
    rcases List.mem_cons.mp mem with rfl | mem
    · simp [find]
    · -- `y` has another key than every record after it, `x` among them
      have other : key y ≠ key x := fun same => keys.1 (same ▸ List.mem_map_of_mem mem)
      simpa [find, other] using ih keys.2 mem

theorem mem_erase {y : α} : y ∈ erase key l k ↔ y ∈ l ∧ key y ≠ k := by
  simp [erase]

theorem nodup_erase (keys : (l.map key).Nodup) : ((erase key l k).map key).Nodup :=
  keys.sublist ((List.filter_sublist).map key)

/-- A record whose key no record has can be added. -/
theorem nodup_append_of_find (keys : (l.map key).Nodup) (absent : find key l (key x) = none) :
    ((l ++ [x]).map key).Nodup := by
  rw [List.map_append, List.nodup_append]
  refine ⟨keys, by simp, ?_⟩
  intro a mem b single same
  obtain ⟨y, present, rfl⟩ := List.mem_map.mp mem
  rw [List.map_singleton, List.mem_singleton] at single
  exact find_eq_none.mp absent y present (same.trans single)

theorem mem_modify {g : α → α} {y : α} (mem : y ∈ modify key l k g) :
    ∃ x ∈ l, y = if key x = k then g x else x := by
  simp only [modify, List.mem_map] at mem
  obtain ⟨x, mem, rfl⟩ := mem
  exact ⟨x, mem, rfl⟩

theorem map_modify {β : Type} {g : α → α} (f : α → β) (same : ∀ x, key x = k → f (g x) = f x) :
    (modify key l k g).map f = l.map f := by
  simp only [modify, List.map_map]
  apply List.map_congr_left
  intro x _
  by_cases hit : key x = k
  · simp [hit, same x hit]
  · simp [hit]

theorem nodup_modify {g : α → α} (keeps : ∀ x, key (g x) = key x) (keys : (l.map key).Nodup) :
    ((modify key l k g).map key).Nodup := by
  rw [map_modify key fun x _ => keeps x]
  exact keys

variable {M : Type} [AddCommMonoid M] (f : α → M)

/-- Erasing the record with `x`'s key takes exactly `x`'s share out of a sum. -/
theorem sum_erase (keys : (l.map key).Nodup) (mem : x ∈ l) :
    (l.map f).sum = ((erase key l (key x)).map f).sum + f x := by
  induction l with
  | nil => cases mem
  | cons y ys ih =>
    rw [List.map_cons, List.nodup_cons] at keys
    rcases List.mem_cons.mp mem with rfl | mem
    · -- the erased record heads the list, and no later record has its key
      have rest : erase key (x :: ys) (key x) = ys := by
        rw [erase, List.filter_cons_of_neg (by simp), List.filter_eq_self]
        intro z mem
        exact decide_eq_true fun same => keys.1 (same ▸ List.mem_map_of_mem mem)
      rw [rest, List.map_cons, List.sum_cons, add_comm]
    · have other : key y ≠ key x := fun same => keys.1 (same ▸ List.mem_map_of_mem mem)
      have kept : erase key (y :: ys) (key x) = y :: erase key ys (key x) := by
        simp [erase, other]
      rw [kept, List.map_cons, List.sum_cons, List.map_cons, List.sum_cons, ih keys.2 mem, add_assoc]

/-- Rewriting the record `x` in place trades its share of a sum for the share of its rewrite. -/
theorem sum_modify {g : α → α} (keys : (l.map key).Nodup) (mem : x ∈ l) :
    ((modify key l (key x) g).map f).sum + f x = (l.map f).sum + f (g x) := by
  induction l with
  | nil => cases mem
  | cons y ys ih =>
    rw [List.map_cons, List.nodup_cons] at keys
    rcases List.mem_cons.mp mem with rfl | mem
    · have rest : modify key (x :: ys) (key x) g = g x :: ys := by
        have others : ∀ z ∈ ys, (if key z = key x then g z else z) = id z := by
          intro z mem
          have other : key z ≠ key x := fun same => keys.1 (same ▸ List.mem_map_of_mem mem)
          simp [other]
        rw [modify, List.map_cons, if_pos rfl, List.map_congr_left others, List.map_id]
      rw [rest, List.map_cons, List.sum_cons, List.map_cons, List.sum_cons]
      ac_rfl
    · have other : key y ≠ key x := fun same => keys.1 (same ▸ List.mem_map_of_mem mem)
      have step : modify key (y :: ys) (key x) g = y :: modify key ys (key x) g := by
        simp [modify, other]
      rw [step, List.map_cons, List.sum_cons, List.map_cons, List.sum_cons, add_assoc,
        ih keys.2 mem, add_assoc]

theorem countP_eq_sum (p : α → Bool) (l : List α) :
    l.countP p = (l.map fun x => if p x then 1 else 0).sum := by
  induction l with
  | nil => rfl
  | cons y ys ih =>
    rw [List.countP_cons, ih, List.map_cons, List.sum_cons]
    split <;> omega

theorem countP_erase (p : α → Bool) (keys : (l.map key).Nodup) (mem : x ∈ l) :
    l.countP p = (erase key l (key x)).countP p + if p x then 1 else 0 := by
  rw [countP_eq_sum, countP_eq_sum]
  exact sum_erase _ keys mem

/-- A rewrite that keeps a record's standing under `p` keeps the count of `p`. -/
theorem countP_modify (p : α → Bool) {g : α → α} (keeps : ∀ x, p (g x) = p x) :
    (modify key l k g).countP p = l.countP p := by
  rw [countP_eq_sum, countP_eq_sum, map_modify]
  intro x _
  rw [keeps x]

end KeyedList
