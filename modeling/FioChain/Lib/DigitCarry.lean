import Mathlib

/-! Little-endian digit lists in base `b` (`Nat.ofDigits`), multiplied by `m` with a carry
added in, one digit at a time from the low end: the inner loop of every schoolbook base
conversion. The digits written and the carry left over spell `m * value + carry`. A value is
kept either in a buffer of fixed length, whose digits above the value are zero, or in as many
digits as it needs (`padded`: `Nat.digits b`, and one zero digit for zero); multiplying the
latter and writing out the carry gives the same form again. -/

namespace DigitCarry

/-- Multiply little-endian digits by `m` and add `carry`: each digit becomes the low digit of
`carry + m * d`, and the rest is carried to the next. Returns the digits and the carry left. -/
def mulAdd (b m : Nat) : Nat → List Nat → List Nat × Nat
  | carry, [] => ([], carry)
  | carry, d :: ds =>
    let total := carry + m * d
    ((total % b) :: (mulAdd b m (total / b) ds).1, (mulAdd b m (total / b) ds).2)

/-- A value in as many digits as it needs, and zero as one zero digit. -/
def padded (b v : Nat) : List Nat := if v = 0 then [0] else Nat.digits b v

variable {b m : Nat}

@[simp] theorem length_mulAdd (carry : Nat) (ds : List Nat) : (mulAdd b m carry ds).1.length = ds.length := by
  induction ds generalizing carry with
  | nil => rfl
  | cons d ds ih => simp [mulAdd, ih]

theorem lt_of_mem_mulAdd (hb : 0 < b) {carry d : Nat} {ds : List Nat} (mem : d ∈ (mulAdd b m carry ds).1) :
    d < b := by
  induction ds generalizing carry with
  | nil => cases mem
  | cons e ds ih =>
    rcases List.mem_cons.1 mem with rfl | later
    · exact Nat.mod_lt _ hb
    · exact ih later

/-- The digits written and the carry left spell `m` times the value plus the carry. -/
theorem mulAdd_spec (carry : Nat) (ds : List Nat) :
    Nat.ofDigits b (mulAdd b m carry ds).1 + b ^ ds.length * (mulAdd b m carry ds).2 =
      m * Nat.ofDigits b ds + carry := by
  induction ds generalizing carry with
  | nil => simp [mulAdd, Nat.ofDigits]
  | cons d ds ih =>
    have split := Nat.mod_add_div (carry + m * d) b
    have rest := ih ((carry + m * d) / b)
    simp only [mulAdd, Nat.ofDigits_cons, List.length_cons, pow_succ]
    calc (carry + m * d) % b + b * Nat.ofDigits b (mulAdd b m ((carry + m * d) / b) ds).1 +
          b ^ ds.length * b * (mulAdd b m ((carry + m * d) / b) ds).2
        = (carry + m * d) % b + b * (Nat.ofDigits b (mulAdd b m ((carry + m * d) / b) ds).1 +
            b ^ ds.length * (mulAdd b m ((carry + m * d) / b) ds).2) := by ring
      _ = m * (d + b * Nat.ofDigits b ds) + carry := by rw [rest]; linarith

/-- The carry left is zero when the result fits in the digits. -/
theorem mulAdd_carry_eq_zero {carry : Nat} {ds : List Nat}
    (fits : m * Nat.ofDigits b ds + carry < b ^ ds.length) : (mulAdd b m carry ds).2 = 0 := by
  have spec := mulAdd_spec (b := b) (m := m) carry ds
  by_contra left
  have : b ^ ds.length ≤ b ^ ds.length * (mulAdd b m carry ds).2 := Nat.le_mul_of_pos_right _ (Nat.pos_of_ne_zero left)
  omega

/-- Zero digits multiply to zero digits. -/
theorem mulAdd_replicate_zero (n : Nat) : mulAdd b m 0 (List.replicate n 0) = (List.replicate n 0, 0) := by
  induction n with
  | zero => rfl
  | succ n ih => simp [List.replicate_succ, mulAdd, ih]

/-- Digits whose last digit is zero spell less than the digits below it can. -/
theorem ofDigits_lt_of_getLast_eq_zero (hb : 1 < b) {ds : List Nat} (below : ∀ d ∈ ds, d < b) (nonempty : ds ≠ [])
    (top : ds.getLast nonempty = 0) : Nat.ofDigits b ds < b ^ (ds.length - 1) := by
  obtain ⟨low, rfl⟩ : ∃ low, ds = low ++ [0] := ⟨ds.dropLast, by rw [← top, List.dropLast_append_getLast]⟩
  rw [Nat.ofDigits_append_zero, List.length_append, List.length_singleton, Nat.add_sub_cancel]
  exact Nat.ofDigits_lt_base_pow_length hb fun d mem => below d (List.mem_append_left _ mem)

/-- A value written in as many digits as it needs, multiplied by `m ≥ 1` with a carry, and the
carry left written out after it, is the result in as many digits as it needs. -/
theorem mulAdd_append_digits_padded (hb : 1 < b) (hm : 0 < m) (carry v : Nat) :
    (mulAdd b m carry (padded b v)).1 ++ Nat.digits b (mulAdd b m carry (padded b v)).2 =
      padded b (m * v + carry) := by
  unfold padded
  by_cases zero : v = 0
  · -- from one zero digit: the carry itself
    subst zero
    by_cases none : carry = 0
    · subst none
      simp [mulAdd]
    · rw [if_pos rfl, if_neg (by omega)]
      simp only [mulAdd, Nat.mul_zero, Nat.add_zero, Nat.zero_add, List.singleton_append]
      exact (Nat.digits_def' hb (Nat.pos_of_ne_zero none)).symm
  · rw [if_neg zero, if_neg (by positivity)]
    have below : ∀ d ∈ Nat.digits b v, d < b := fun d mem => Nat.digits_lt_base hb mem
    have spec := mulAdd_spec (b := b) (m := m) carry (Nat.digits b v)
    rw [Nat.ofDigits_digits] at spec
    set out := mulAdd b m carry (Nat.digits b v) with hout
    have outBelow : ∀ d ∈ out.1, d < b := fun d mem => lt_of_mem_mulAdd (by omega) mem
    -- the written digits spell the result, so they are its digits once the last is nonzero
    have spells : Nat.ofDigits b (out.1 ++ Nat.digits b out.2) = m * v + carry := by
      rw [Nat.ofDigits_append, Nat.ofDigits_digits, length_mulAdd, spec]
    rw [← spells]
    refine (Nat.digits_ofDigits b hb _ ?_ ?_).symm
    · intro d mem
      rcases List.mem_append.1 mem with written | left
      · exact outBelow d written
      · exact Nat.digits_lt_base hb left
    · intro nonempty
      by_cases none : out.2 = 0
      · -- no carry left: the top written digit is nonzero, as the result is at least `v`
        simp only [none, Nat.digits_zero, List.append_nil] at nonempty ⊢
        intro top
        have small := ofDigits_lt_of_getLast_eq_zero hb outBelow nonempty top
        have large := Nat.base_pow_length_digits_le b v hb zero
        rw [length_mulAdd] at small
        have least : b ^ ((Nat.digits b v).length - 1) ≤ v := by
          have positive : 0 < (Nat.digits b v).length := List.length_pos_iff.2 (Nat.digits_ne_nil_iff_ne_zero.2 zero)
          have scaled : b * b ^ ((Nat.digits b v).length - 1) ≤ b * v := by
            rw [← pow_succ', Nat.sub_add_cancel positive]
            exact large
          exact Nat.le_of_mul_le_mul_left scaled (by omega)
        have : Nat.ofDigits b out.1 = m * v + carry := by simpa [none] using spec
        have : v ≤ m * v := Nat.le_mul_of_pos_left v hm
        omega
      · rw [List.getLast_append_of_ne_nil _ (Nat.digits_ne_nil_iff_ne_zero.2 none)]
        exact Nat.getLast_digit_ne_zero b none

/-- Digits with their trailing zeros removed are the digits of their value. -/
theorem digits_ofDigits_eq_rdropWhile (hb : 1 < b) (ds : List Nat) (below : ∀ d ∈ ds, d < b) :
    Nat.digits b (Nat.ofDigits b ds) = ds.rdropWhile (· = 0) := by
  obtain ⟨n, split⟩ : ∃ n, ds = ds.rdropWhile (· = 0) ++ List.replicate n 0 := by
    refine ⟨(ds.rtakeWhile (· = 0)).length, ?_⟩
    conv_lhs => rw [← List.rdropWhile_append_rtakeWhile (p := (· = 0)) (l := ds)]
    congr 1
    exact List.eq_replicate_iff.2 ⟨rfl, fun d mem => by simpa using List.mem_rtakeWhile_imp mem⟩
  rw [split, Nat.ofDigits_append_replicate_zero, ← split]
  refine Nat.digits_ofDigits b hb _ (fun d mem => below d ((List.rdropWhile_prefix _ _).subset mem)) ?_
  intro nonempty
  simpa using List.rdropWhile_last_not _ _ nonempty

end DigitCarry
