import Mathlib.Tactic.Ring
import Mathlib.Data.List.Induction

/-! Strings of decimal digits: the number a string spells, accumulated from the left as a
parser reads it, and how it meets `Nat.toDigits 10`, which prints a number. Reading back what
was printed gives the number, and the digits of `10 ^ d + r` after the first spell `r` with
`d` digits, leading zeros included. -/

namespace Decimal

/-- The digit a character stands for. -/
def digitValue (c : Char) : Nat := c.toNat - '0'.toNat

/-- One step of reading digits from the left. -/
def step (acc : Nat) (c : Char) : Nat := 10 * acc + digitValue c

/-- The number a string of digits spells. -/
def value (ds : List Char) : Nat := ds.foldl step 0

/-- Every character is a decimal digit. -/
def AllDigits (ds : List Char) : Prop := ∀ c ∈ ds, c.isDigit = true

/-- Decided along the list; a decision over every `Char` would also apply. -/
instance (ds : List Char) : Decidable (AllDigits ds) := List.decidableBAll (fun c : Char => c.isDigit = true) ds

theorem digitValue_lt {c : Char} (digit : c.isDigit = true) : digitValue c < 10 := by
  simp only [Char.isDigit, Bool.and_eq_true, decide_eq_true_eq, UInt32.le_iff_toNat_le] at digit
  have zero : '0'.val.toNat = 48 := rfl
  have nine : '9'.val.toNat = 57 := rfl
  simp only [digitValue, Char.toNat]
  omega

theorem digitValue_digitChar {n : Nat} (small : n < 10) : digitValue n.digitChar = n :=
  Nat.toNat_digitChar_sub_48_of_lt_ten small

/-- Reading from an accumulator shifts it left by the digits read. -/
theorem foldl_step (acc : Nat) (ds : List Char) : ds.foldl step acc = acc * 10 ^ ds.length + value ds := by
  induction ds generalizing acc with
  | nil => simp [value]
  | cons c ds ih =>
    have first : value (c :: ds) = digitValue c * 10 ^ ds.length + value ds := by
      rw [value, List.foldl_cons, ih, step]
      ring
    rw [List.foldl_cons, ih, first, step, List.length_cons, pow_succ]
    ring

@[simp]
theorem value_nil : value [] = 0 := rfl

theorem value_append (l₁ l₂ : List Char) : value (l₁ ++ l₂) = value l₁ * 10 ^ l₂.length + value l₂ := by
  rw [value, List.foldl_append, foldl_step]
  rfl

theorem value_singleton (c : Char) : value [c] = digitValue c := by
  simp [value, step]

theorem value_lt {ds : List Char} (digits : AllDigits ds) : value ds < 10 ^ ds.length := by
  induction ds using List.reverseRecOn with
  | nil => simp
  | append_singleton ds c ih =>
    have last := digitValue_lt (digits c (List.mem_append_right _ (List.mem_singleton_self c)))
    have before := ih fun d mem => digits d (List.mem_append_left _ mem)
    have shifted : (value ds + 1) * 10 ≤ 10 ^ ds.length * 10 := Nat.mul_le_mul_right 10 before
    rw [value_append, value_singleton, List.length_append, List.length_singleton, pow_one, pow_succ]
    omega

theorem allDigits_toDigits (n : Nat) : AllDigits (Nat.toDigits 10 n) :=
  fun _ mem => Nat.isDigit_of_mem_toDigits (by decide) (by decide) mem

/-- Reading back a printed number gives the number. -/
theorem value_toDigits (n : Nat) : value (Nat.toDigits 10 n) = n := by
  induction n using Nat.strong_induction_on with
  | _ n ih =>
    rw [Nat.toDigits_eq_if (by decide)]
    split
    case isTrue small => rw [value_singleton, digitValue_digitChar small]
    case isFalse large =>
      rw [value_append, ih (n / 10) (by omega), List.length_singleton, value_singleton,
        digitValue_digitChar (Nat.mod_lt n (by decide))]
      omega

theorem length_toDigits_of_le_of_lt {d n : Nat} (low : 10 ^ d ≤ n) (high : n < 10 ^ (d + 1)) :
    (Nat.toDigits 10 n).length = d + 1 := by
  have atMost := (Nat.length_toDigits_le_iff (by decide) (Nat.succ_pos d)).mpr high
  rcases Nat.eq_zero_or_pos d with rfl | positive
  · have := @Nat.length_toDigits_pos 10 n
    omega
  · have notBelow : ¬(Nat.toDigits 10 n).length ≤ d := fun below =>
      absurd ((Nat.length_toDigits_le_iff (by decide) positive).mp below) (Nat.not_lt.mpr low)
    omega

/-- The fraction `asset::to_string` prints: `10 ^ d + r` printed, its first digit dropped,
is `d` digits spelling `r`. -/
theorem toDigits_drop_one {d r : Nat} (small : r < 10 ^ d) :
    ((Nat.toDigits 10 (10 ^ d + r)).drop 1).length = d ∧ value ((Nat.toDigits 10 (10 ^ d + r)).drop 1) = r := by
  set printed := Nat.toDigits 10 (10 ^ d + r)
  have length : printed.length = d + 1 :=
    length_toDigits_of_le_of_lt (Nat.le_add_right _ _) (by rw [pow_succ]; omega)
  have length_drop : (printed.drop 1).length = d := by
    rw [List.length_drop, length]
    omega
  have whole := value_append (printed.take 1) (printed.drop 1)
  rw [List.take_append_drop, value_toDigits, length_drop] at whole
  have below := @value_lt (printed.drop 1) fun c mem => allDigits_toDigits _ c (List.mem_of_mem_drop mem)
  rw [length_drop] at below
  refine ⟨length_drop, ?_⟩
  have mod := congrArg (· % 10 ^ d) whole
  simp only [Nat.add_mod_left, Nat.mul_add_mod_self_right, Nat.mod_eq_of_lt small, Nat.mod_eq_of_lt below] at mod
  exact mod.symm

end Decimal
