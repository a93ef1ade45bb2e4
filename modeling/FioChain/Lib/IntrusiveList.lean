import Mathlib.Data.List.Basic

/-! A singly linked list threaded through an array: each entry holds the index of the next,
and a sentinel index ends the list. `Links entries start l` says that following the links
from `start` visits exactly the indices `l` and then reaches the sentinel. Writing an entry
off the list keeps the list; writing a new head in front of it extends it. -/

namespace IntrusiveList

variable {E : Type} [Inhabited E] (next : E → Nat) (sentinel : Nat)

def Links (entries : List E) : Nat → List Nat → Prop
  | start, [] => start = sentinel
  | start, i :: rest => start = i ∧ i < entries.length ∧ Links entries (next (entries.getD i default)) rest

variable {next sentinel}

@[simp] theorem links_nil {entries : List E} {start : Nat} : Links next sentinel entries start [] ↔ start = sentinel :=
  Iff.rfl

theorem links_cons {entries : List E} {start i : Nat} {rest : List Nat} :
    Links next sentinel entries start (i :: rest) ↔
      start = i ∧ i < entries.length ∧ Links next sentinel entries (next (entries.getD i default)) rest :=
  Iff.rfl

theorem lt_of_links {entries : List E} {start : Nat} {l : List Nat} (links : Links next sentinel entries start l) :
    ∀ i ∈ l, i < entries.length := by
  induction l generalizing start with
  | nil => intro i absent; cases absent
  | cons j rest ih =>
    obtain ⟨-, bound, links⟩ := links
    intro i mem
    rcases List.mem_cons.mp mem with rfl | mem
    · exact bound
    · exact ih links i mem

/-- Writing an entry that is not on the list keeps the list. -/
theorem links_set_of_notMem {entries : List E} {start i : Nat} {e : E} {l : List Nat}
    (links : Links next sentinel entries start l) (absent : i ∉ l) :
    Links next sentinel (entries.set i e) start l := by
  induction l generalizing start with
  | nil => exact links
  | cons j rest ih =>
    obtain ⟨rfl, bound, links⟩ := links
    have other : i ≠ start := fun same => absent (same ▸ List.mem_cons_self)
    refine ⟨rfl, by simpa using bound, ?_⟩
    rw [List.getD_eq_getElem?_getD, List.getElem?_set_ne other, ← List.getD_eq_getElem?_getD]
    exact ih links fun mem => absent (List.mem_cons_of_mem start mem)

/-- A new head in front of the list: its entry links to the old start. -/
theorem links_push {entries : List E} {start i : Nat} {e : E} {l : List Nat}
    (links : Links next sentinel entries start l) (absent : i ∉ l) (bound : i < entries.length)
    (linked : next e = start) : Links next sentinel (entries.set i e) i (i :: l) := by
  refine ⟨rfl, by simpa using bound, ?_⟩
  rw [List.getD_eq_getElem?_getD, List.getElem?_set_self bound, Option.getD_some, linked]
  exact links_set_of_notMem links absent

/-- The part of the list after a prefix starts where the prefix ends. -/
theorem links_append_right {entries : List E} {start : Nat} {l₁ l₂ : List Nat}
    (links : Links next sentinel entries start (l₁ ++ l₂)) :
    Links next sentinel entries (l₂.head?.getD sentinel) l₂ := by
  induction l₁ generalizing start with
  | nil =>
    cases l₂ with
    | nil => rfl
    | cons j rest =>
      obtain ⟨rfl, bound, links⟩ := links
      exact ⟨rfl, bound, links⟩
  | cons j rest ih => exact ih links.2.2

/-- Writing the same entry at indices off the list keeps the list. -/
theorem links_foldl_set {entries : List E} {start : Nat} {e : E} {l indices : List Nat}
    (links : Links next sentinel entries start l) (absent : ∀ i ∈ indices, i ∉ l) :
    Links next sentinel (indices.foldl (fun es i => es.set i e) entries) start l := by
  induction indices generalizing entries with
  | nil => exact links
  | cons i rest ih =>
    exact ih (links_set_of_notMem links (absent i List.mem_cons_self))
      fun j mem => absent j (List.mem_cons_of_mem i mem)

omit [Inhabited E] in
theorem length_foldl_set (entries : List E) (e : E) (indices : List Nat) :
    (indices.foldl (fun es i => es.set i e) entries).length = entries.length := by
  induction indices generalizing entries with
  | nil => rfl
  | cons i rest ih => rw [List.foldl_cons, ih, List.length_set]

theorem getD_foldl_set_of_notMem {entries : List E} {e : E} {indices : List Nat} {j : Nat}
    (absent : j ∉ indices) :
    (indices.foldl (fun es i => es.set i e) entries).getD j default = entries.getD j default := by
  induction indices generalizing entries with
  | nil => rfl
  | cons i rest ih =>
    have other : i ≠ j := fun same => absent (same ▸ List.mem_cons_self)
    rw [List.foldl_cons, ih fun mem => absent (List.mem_cons_of_mem i mem), List.getD_eq_getElem?_getD,
      List.getElem?_set_ne other, ← List.getD_eq_getElem?_getD]

theorem getD_foldl_set_of_mem {entries : List E} {e : E} {indices : List Nat} {j : Nat}
    (present : j ∈ indices) (bound : j < entries.length) :
    (indices.foldl (fun es i => es.set i e) entries).getD j default = e := by
  induction indices generalizing entries with
  | nil => cases present
  | cons i rest ih =>
    rw [List.foldl_cons]
    by_cases later : j ∈ rest
    · exact ih later (by simpa using bound)
    · -- the last write at `j` is this one
      have same : j = i := by simpa [later] using present
      rw [getD_foldl_set_of_notMem later, List.getD_eq_getElem?_getD, same, List.getElem?_set_self (same ▸ bound),
        Option.getD_some]

end IntrusiveList
