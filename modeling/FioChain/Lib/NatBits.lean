import Mathlib.Data.Nat.Size
import Mathlib.Data.Nat.Bitwise

/-! Bit facts about natural numbers: the number of bits, the highest bit, filling every bit
below the highest with shifted ors, and what adding one does to the bits and to the shifts
of a number. -/

namespace NatBits

/-- Halving drops one bit. -/
theorem size_div_two_add_one {m : Nat} (nonzero : m ≠ 0) : (m / 2).size + 1 = m.size := by
  apply le_antisymm
  · -- `m` has at least one bit more than its half
    apply Nat.lt_size.mpr
    rcases Nat.eq_zero_or_pos (m / 2) with zero | positive
    · rw [zero, Nat.size_zero]
      omega
    · have half : 2 ^ ((m / 2).size - 1) ≤ m / 2 := Nat.lt_size.mp (by
        have := Nat.size_pos.mpr positive
        omega)
      have pos := Nat.size_pos.mpr positive
      calc 2 ^ (m / 2).size = 2 ^ ((m / 2).size - 1 + 1) := by rw [Nat.sub_add_cancel pos]
        _ = 2 * 2 ^ ((m / 2).size - 1) := Nat.pow_succ'
        _ ≤ m := by omega
  · apply Nat.size_le.mpr
    have half := Nat.lt_size_self (m / 2)
    rw [Nat.pow_succ]
    omega

/-- The highest bit of a non-zero number is set. -/
theorem testBit_size_sub_one {m : Nat} (nonzero : m ≠ 0) : m.testBit (m.size - 1) = true := by
  have positive : 0 < m.size := Nat.size_pos.mpr (Nat.pos_of_ne_zero nonzero)
  have lower : 2 ^ (m.size - 1) ≤ m := Nat.lt_size.mp (by omega)
  have upper : m < 2 ^ (m.size - 1) * 2 :=
    calc m < 2 ^ m.size := Nat.lt_size_self m
      _ = 2 ^ (m.size - 1 + 1) := by rw [Nat.sub_add_cancel positive]
      _ = 2 ^ (m.size - 1) * 2 := Nat.pow_succ 2 _
  have quotient : m / 2 ^ (m.size - 1) = 1 :=
    Nat.div_eq_of_lt_le (by omega) (by omega)
  rw [Nat.testBit_eq_decide_div_mod_eq, quotient]
  rfl

theorem testBit_lt_size {m i : Nat} (set : m.testBit i = true) : i < m.size := by
  by_contra outside
  have below : m < 2 ^ i :=
    lt_of_lt_of_le (Nat.lt_size_self m) (Nat.pow_le_pow_right (by decide) (not_lt.mp outside))
  rw [Nat.testBit_eq_false_of_lt below] at set
  exact Bool.false_ne_true set

/-! ### Filling the bits below the highest -/

/-- The bits of `y` lie below `m`, and the `s` bits just below `m` are set. -/
def TopFilled (m s y : Nat) : Prop :=
  (∀ i, y.testBit i = true → i < m) ∧ ∀ i, m - s ≤ i → i < m → y.testBit i = true

/-- An or with the number shifted by `s` doubles the filled bits below the highest. -/
theorem TopFilled.or_shiftRight {m s y : Nat} (filled : TopFilled m s y) :
    TopFilled m (2 * s) (y ||| y >>> s) := by
  obtain ⟨below, set⟩ := filled
  constructor
  · intro i bit
    rw [Nat.testBit_or, Nat.testBit_shiftRight, Bool.or_eq_true] at bit
    rcases bit with bit | bit
    · exact below i bit
    · have := below (s + i) bit
      omega
  · intro i lower upper
    rw [Nat.testBit_or, Nat.testBit_shiftRight, Bool.or_eq_true]
    by_cases high : m - s ≤ i
    · exact .inl (set i high upper)
    · exact .inr (set (s + i) (by omega) (by omega))

theorem topFilled_self (m : Nat) : TopFilled m.size 1 m := by
  constructor
  · intro i bit
    exact testBit_lt_size bit
  · intro i lower upper
    have nonzero : m ≠ 0 := by
      rintro rfl
      simp at upper
    rw [show i = m.size - 1 by omega]
    exact testBit_size_sub_one nonzero

/-- Once the filled bits reach the bottom the number is all ones below its highest bit. -/
theorem TopFilled.eq {m s y : Nat} (filled : TopFilled m s y) (enough : m ≤ s) : y = 2 ^ m - 1 := by
  apply Nat.eq_of_testBit_eq
  intro i
  rw [Nat.testBit_two_pow_sub_one]
  by_cases inside : i < m
  · rw [filled.2 i (by omega) inside, decide_eq_true inside]
  · rw [decide_eq_false inside]
    cases bit : y.testBit i with
    | false => rfl
    | true => exact absurd (filled.1 i bit) inside

/-! ### Adding one -/

theorem mod_two_pow_succ (m j : Nat) : m % 2 ^ (j + 1) = m % 2 ^ j + 2 ^ j * (m / 2 ^ j % 2) := by
  rw [Nat.pow_succ, Nat.mod_mul]

theorem testBit_iff_div_mod (m j : Nat) : m.testBit j = true ↔ m / 2 ^ j % 2 = 1 := by
  rw [Nat.testBit_eq_decide_div_mod_eq, decide_eq_true_iff]

/-- `m + 1` is a multiple of `2 ^ j` exactly when the `j` lowest bits of `m` are set. -/
theorem add_one_mod_two_pow (m j : Nat) :
    (m + 1) % 2 ^ j = if m % 2 ^ j + 1 = 2 ^ j then 0 else m % 2 ^ j + 1 := by
  have below := Nat.mod_lt m (Nat.two_pow_pos j)
  have parts := Nat.div_add_mod m (2 ^ j)
  split
  · -- the sum is the next multiple of `2 ^ j`
    have multiple : m + 1 = 2 ^ j * (m / 2 ^ j + 1) := by rw [Nat.mul_add, Nat.mul_one]; omega
    rw [multiple, Nat.mul_mod_right]
  · have shifted : m + 1 = (m % 2 ^ j + 1) + 2 ^ j * (m / 2 ^ j) := by omega
    rw [shifted, Nat.add_mul_mod_self_left, Nat.mod_eq_of_lt (by omega)]

/-- Adding one to a number whose bit `j` is clear never makes `2 ^ (j + 1)` divide it. -/
theorem add_one_mod_ne_zero_of_testBit_false {m j : Nat} (clear : m.testBit j = false) :
    (m + 1) % 2 ^ (j + 1) ≠ 0 := by
  have digit : m / 2 ^ j % 2 = 0 := by
    have := Nat.mod_two_eq_zero_or_one (m / 2 ^ j)
    have := (testBit_iff_div_mod m j).not.mp (by simp [clear])
    omega
  have low := Nat.mod_lt m (Nat.two_pow_pos j)
  rw [add_one_mod_two_pow, mod_two_pow_succ, digit, Nat.pow_succ]
  split <;> omega

/-- With bit `j` of `m` set, `2 ^ (j + 1)` divides `m + 1` exactly when `2 ^ j` does. -/
theorem add_one_mod_succ_eq_zero_iff {m j : Nat} (set : m.testBit j = true) :
    (m + 1) % 2 ^ (j + 1) = 0 ↔ (m + 1) % 2 ^ j = 0 := by
  have digit : m / 2 ^ j % 2 = 1 := (testBit_iff_div_mod m j).mp set
  have low := Nat.mod_lt m (Nat.two_pow_pos j)
  rw [add_one_mod_two_pow, add_one_mod_two_pow, mod_two_pow_succ, digit, Nat.pow_succ]
  constructor <;> intro zero <;> split at zero <;> split <;> omega

/-- Adding one carries into bit `j` exactly when `2 ^ j` divides the sum: the quotient by
`2 ^ j` goes up by one, so bit `j` flips. -/
theorem add_one_div_of_carry {m j : Nat} (carry : (m + 1) % 2 ^ j = 0) :
    (m + 1) / 2 ^ j = m / 2 ^ j + 1 := by
  rw [Nat.succ_div, if_pos (Nat.dvd_of_mod_eq_zero carry)]

theorem add_one_div_of_no_carry {m j : Nat} (noCarry : (m + 1) % 2 ^ j ≠ 0) :
    (m + 1) / 2 ^ j = m / 2 ^ j := by
  rw [Nat.succ_div, if_neg (fun divides => noCarry (Nat.mod_eq_zero_of_dvd divides))]
  rfl

theorem testBit_add_one_of_carry {m j : Nat} (carry : (m + 1) % 2 ^ j = 0) :
    (m + 1).testBit j = !m.testBit j := by
  rw [Nat.testBit_eq_decide_div_mod_eq, Nat.testBit_eq_decide_div_mod_eq, add_one_div_of_carry carry]
  rcases Nat.mod_two_eq_zero_or_one (m / 2 ^ j) with even | odd <;> simp [Nat.add_mod, *]

theorem testBit_add_one_of_no_carry {m j : Nat} (noCarry : (m + 1) % 2 ^ j ≠ 0) :
    (m + 1).testBit j = m.testBit j := by
  rw [Nat.testBit_eq_decide_div_mod_eq, Nat.testBit_eq_decide_div_mod_eq,
    add_one_div_of_no_carry noCarry]

/-- The quotient by `2 ^ j` halves to the quotient by `2 ^ (j + 1)`, keeping bit `j` as the
remainder. -/
theorem two_mul_shiftRight_succ (m j : Nat) :
    2 * (m >>> (j + 1)) + (if m.testBit j then 1 else 0) = m >>> j := by
  rw [Nat.shiftRight_succ, Nat.shiftRight_eq_div_pow]
  have := Nat.mod_two_eq_zero_or_one (m / 2 ^ j)
  split
  · rename_i set
    have := (testBit_iff_div_mod m j).mp set
    omega
  · rename_i clear
    have := (testBit_iff_div_mod m j).not.mp clear
    omega

theorem shiftRight_and_one (m j : Nat) : (m >>> j) &&& 1 = if m.testBit j then 1 else 0 := by
  rw [Nat.and_one_is_mod, Nat.shiftRight_eq_div_pow]
  split
  · exact (testBit_iff_div_mod m j).mp (by assumption)
  · rename_i clear
    have := (testBit_iff_div_mod m j).not.mp clear
    have := Nat.mod_two_eq_zero_or_one (m / 2 ^ j)
    omega

end NatBits
