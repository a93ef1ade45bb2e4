import Mathlib.Algebra.BigOperators.Group.List.Basic
import Mathlib.Data.List.Forall2

/-! Numbers written with big-endian digits, each position with a radix of its own. A list
of digits below their radices spells a number below the product of the radices; reading
the digits of that number back gives the list, and comparing two such numbers is comparing
their digit lists lexicographically. -/

namespace MixedRadix

/-- The number that big-endian digits spell under their radices. -/
def value : List Nat → List Nat → Nat
  | _ :: radices, d :: ds => d * radices.prod + value radices ds
  | _, _ => 0

/-- The big-endian digits of a number under the radices, the number taken modulo their
product. -/
def digits : List Nat → Nat → List Nat
  | [], _ => []
  | r :: radices, v => v / radices.prod % r :: digits radices v

variable {radices ds ds₁ ds₂ : List Nat}

/-- Every digit is below the radix of its position. -/
abbrev Valid (radices ds : List Nat) : Prop := List.Forall₂ (· < ·) ds radices

theorem valid_append {radices' ds' : List Nat} (valid : Valid radices ds) (valid' : Valid radices' ds') :
    Valid (radices ++ radices') (ds ++ ds') :=
  List.rel_append valid valid'

theorem valid_replicate {r : Nat} (below : ∀ d ∈ ds, d < r) : Valid (List.replicate ds.length r) ds := by
  induction ds with
  | nil => exact .nil
  | cons d ds ih => exact .cons (below d List.mem_cons_self) (ih fun d' mem => below d' (List.mem_cons_of_mem d mem))

theorem value_lt (valid : Valid radices ds) : value radices ds < radices.prod := by
  induction valid with
  | nil => exact Nat.one_pos
  | @cons d r ds radices lt _ ih =>
    rw [value, List.prod_cons]
    calc d * radices.prod + value radices ds < d * radices.prod + radices.prod := by omega
      _ = (d + 1) * radices.prod := (Nat.succ_mul d _).symm
      _ ≤ r * radices.prod := Nat.mul_le_mul_right _ lt

/-- Below a common bound, `d * P + v` compares as the pair `(d, v)`. -/
theorem mul_add_lt_mul_add_iff {d₁ d₂ v₁ v₂ P : Nat} (below₁ : v₁ < P) (below₂ : v₂ < P) :
    d₁ * P + v₁ < d₂ * P + v₂ ↔ d₁ < d₂ ∨ d₁ = d₂ ∧ v₁ < v₂ := by
  rcases Nat.lt_trichotomy d₁ d₂ with lower | same | higher
  · have step := Nat.mul_le_mul_right P (Nat.succ_le_of_lt lower)
    rw [Nat.succ_mul] at step
    exact ⟨fun _ => .inl lower, fun _ => by omega⟩
  · subst same
    omega
  · have step := Nat.mul_le_mul_right P (Nat.succ_le_of_lt higher)
    rw [Nat.succ_mul] at step
    constructor
    · intro less
      omega
    · rintro (less | ⟨same, -⟩) <;> omega

theorem value_lt_value_iff (valid₁ : Valid radices ds₁) (valid₂ : Valid radices ds₂) :
    value radices ds₁ < value radices ds₂ ↔ ds₁ < ds₂ := by
  induction valid₁ generalizing ds₂ with
  | nil =>
    cases valid₂
    exact ⟨fun less => absurd less (Nat.lt_irrefl 0), fun less => absurd less (List.not_lt_nil _)⟩
  | @cons d₁ r ds₁ radices _ rest₁ ih =>
    cases valid₂ with
    | cons _ rest₂ =>
      rw [value, value, mul_add_lt_mul_add_iff (value_lt rest₁) (value_lt rest₂), List.cons_lt_cons_iff,
        ih rest₂]

theorem value_injective (valid₁ : Valid radices ds₁) (valid₂ : Valid radices ds₂)
    (same : value radices ds₁ = value radices ds₂) : ds₁ = ds₂ := by
  induction valid₁ generalizing ds₂ with
  | nil =>
    cases valid₂
    rfl
  | @cons d₁ r ds₁ radices _ rest₁ ih =>
    cases valid₂ with
    | @cons d₂ _ ds₂ _ _ rest₂ =>
      rw [value, value] at same
      have below₁ := value_lt rest₁
      have below₂ := value_lt rest₂
      -- neither side is below the other, so the leading digits agree, then the rests
      have lead : d₁ = d₂ := by
        rcases Nat.lt_trichotomy d₁ d₂ with lower | equal | higher
        · have := (mul_add_lt_mul_add_iff below₁ below₂).mpr (.inl lower)
          omega
        · exact equal
        · have := (mul_add_lt_mul_add_iff below₂ below₁).mpr (.inl higher)
          omega
      subst lead
      rw [ih rest₂ (by omega)]

theorem value_append {radices' ds' : List Nat} (aligned : ds.length = radices.length) :
    value (radices ++ radices') (ds ++ ds') = value radices ds * radices'.prod + value radices' ds' := by
  induction radices generalizing ds with
  | nil =>
    rw [List.length_eq_zero_iff.mp aligned]
    simp [value]
  | cons r radices ih =>
    cases ds with
    | nil => exact absurd aligned (by simp)
    | cons d ds =>
      rw [List.cons_append, List.cons_append, value, value, ih (by simpa using aligned), List.prod_append]
      rw [Nat.add_mul, Nat.mul_assoc, Nat.add_assoc]

theorem value_replicate_zero (n : Nat) : value radices (List.replicate n 0) = 0 := by
  induction n generalizing radices with
  | zero => cases radices <;> rfl
  | succ n ih =>
    cases radices with
    | nil => rfl
    | cons r radices => rw [List.replicate_succ, value, ih, Nat.zero_mul]

@[simp] theorem length_digits (v : Nat) : (digits radices v).length = radices.length := by
  induction radices with
  | nil => rfl
  | cons r radices ih => rw [digits, List.length_cons, ih, List.length_cons]

section Positive

variable (positive : ∀ r ∈ radices, 0 < r)
include positive

theorem valid_digits (v : Nat) : Valid radices (digits radices v) := by
  induction radices with
  | nil => exact .nil
  | cons r radices ih =>
    exact .cons (Nat.mod_lt _ (positive r List.mem_cons_self))
      (ih fun r' mem => positive r' (List.mem_cons_of_mem r mem))

theorem value_digits (v : Nat) : value radices (digits radices v) = v % radices.prod := by
  induction radices with
  | nil => exact (Nat.mod_one v).symm
  | cons r radices ih =>
    rw [digits, value, ih fun r' mem => positive r' (List.mem_cons_of_mem r mem), List.prod_cons,
      Nat.mul_comm r, Nat.mod_mul, Nat.mul_comm (v / radices.prod % r)]
    omega

theorem digits_value (valid : Valid radices ds) : digits radices (value radices ds) = ds :=
  value_injective (valid_digits positive _) valid
    ((value_digits positive _).trans (Nat.mod_eq_of_lt (value_lt valid)))

end Positive

theorem lt_of_mem_digits_replicate {n r v d : Nat} (positive : 0 < r)
    (mem : d ∈ digits (List.replicate n r) v) : d < r := by
  induction n with
  | zero => exact absurd mem List.not_mem_nil
  | succ n ih =>
    rw [List.replicate_succ, digits, List.mem_cons] at mem
    rcases mem with rfl | mem
    · exact Nat.mod_lt _ positive
    · exact ih mem

/-- Reading the last digit first: the others are the digits of the quotient. -/
theorem digits_append_singleton (r v : Nat) :
    digits (radices ++ [r]) v = digits radices (v / r) ++ [v % r] := by
  induction radices with
  | nil => simp [digits]
  | cons r₀ radices ih =>
    rw [List.cons_append, digits, ih, digits, List.prod_append, List.prod_singleton, Nat.div_div_eq_div_mul,
      Nat.mul_comm r, List.cons_append]

end MixedRadix
