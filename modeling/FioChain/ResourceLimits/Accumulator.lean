import FioChain.Types
import FioChain.Lib.ExceptFold

/-! `exponential_moving_average_accumulator` of `resource_limits_private.hpp`, with its helpers
`operator*(T, ratio<T>)`, `integer_divide_ceil` and `downgrade_cast`. The fields are the
machine words of the source; a `uint128_t` is a `Nat`, its product reduced modulo `2^128`.
`add` runs all of its checks before it writes, and its one throw after them, in `operator*`,
comes before the assignment it computes: a call that throws leaves the accumulator as it was.
A call that returns computes exactly: no word wraps. -/

namespace Fio.Chain

namespace Config

/-- `config::rate_limiting_precision`, the `Precision` of `usage_accumulator`. -/
def rateLimitingPrecision : Nat := 1000 * 1000

end Config

namespace ResourceLimits

/-- `std::numeric_limits<uint64_t>::max()`. -/
def uint64Max : UInt64 := 18446744073709551615

/-- `ratio<uint64_t>`. -/
structure Ratio where
  numerator : UInt64
  denominator : UInt64

/-- `operator*(uint64_t value, const ratio<uint64_t>& r)`. -/
def mulRatio (value : UInt64) (r : Ratio) : Except Exception UInt64 :=
  if r.numerator = 0 ∨ uint64Max / r.numerator ≥ value then
    .ok (value * r.numerator / r.denominator)
  else
    .error (.rateLimitingStateInconsistent
      "Usage exceeds maximum value representable after extending for precision")

/-- `integer_divide_ceil`, over any unsigned integer type. -/
def integerDivideCeil {α : Type} [Div α] [Mod α] [Add α] [LT α] [OfNat α 0] [OfNat α 1]
    [DecidableRel (α := α) (· < ·)] (num den : α) : α :=
  num / den + (if num % den > 0 then 1 else 0)

/-- `downgrade_cast<uint64_t>` of a `uint128_t`. -/
def downgradeCast (val : Nat) : Except Exception UInt64 :=
  if val ≤ uint64Max.toNat then .ok (UInt64.ofNat val)
  else .error (.rateLimitingStateInconsistent
    ("Casting a higher bit integer value ${v} to a lower bit integer value which cannot contain " ++
      "the value, valid range is [${min}, ${max}]"))

/-! ### The helpers compute exactly when their checks pass -/

theorem toNat_uint64Max : uint64Max.toNat = 2 ^ 64 - 1 := rfl

/-- When its check passes, `operator*` multiplies without wrapping. -/
theorem mulRatio_ok {value v : UInt64} {r : Ratio} (ok : mulRatio value r = .ok v) :
    v.toNat = value.toNat * r.numerator.toNat / r.denominator.toNat := by
  unfold mulRatio at ok
  split at ok
  · rename_i fits
    cases ok
    have within : value.toNat * r.numerator.toNat < 2 ^ 64 := by
      by_cases zero : r.numerator.toNat = 0
      · simp [zero]
      · -- `value ≤ max / numerator`, so the product is at most `max`
        have below : value.toNat ≤ (2 ^ 64 - 1) / r.numerator.toNat := by
          rcases fits with zero' | le
          · exact absurd (by simp [zero']) zero
          · have le := UInt64.le_iff_toNat_le.mp le
            rwa [UInt64.toNat_div, toNat_uint64Max] at le
        have := (Nat.le_div_iff_mul_le (Nat.pos_of_ne_zero zero)).mp below
        omega
    rw [UInt64.toNat_div, UInt64.toNat_mul, Nat.mod_eq_of_lt within]
  · cases ok

/-- `integer_divide_ceil` is the ceiling of the quotient. -/
theorem integerDivideCeil_nat {num den : Nat} (pos : 0 < den) :
    integerDivideCeil num den = (num + den - 1) / den := by
  have rem := Nat.mod_lt num pos
  have cut : num + den - 1 = (num % den + den - 1) + den * (num / den) := by
    have := Nat.mod_add_div num den
    omega
  rw [cut, Nat.add_mul_div_left _ _ pos, integerDivideCeil]
  split
  · rename_i some
    have up : (num % den + den - 1) / den = 1 := Nat.div_eq_of_lt_le (by omega) (by omega)
    rw [up]
    omega
  · rename_i none
    have down : (num % den + den - 1) / den = 0 := Nat.div_eq_of_lt (by omega)
    rw [down]
    omega

/-- On words, the rounding up cannot wrap: a quotient with a remainder is at most half. -/
theorem toNat_integerDivideCeil {num den : UInt64} (pos : 0 < den.toNat) :
    (integerDivideCeil num den).toNat = (num.toNat + den.toNat - 1) / den.toNat := by
  rw [← integerDivideCeil_nat pos]
  unfold integerDivideCeil
  have remainder : (num % den).toNat = num.toNat % den.toNat := UInt64.toNat_mod num den
  have quotient : (num / den).toNat = num.toNat / den.toNat := UInt64.toNat_div num den
  by_cases some : 0 < num.toNat % den.toNat
  · have some' : num % den > 0 := UInt64.lt_iff_toNat_lt.mpr (by simpa [remainder] using some)
    -- a remainder needs a divisor of at least 2, which halves the quotient
    have half : num.toNat / den.toNat + 1 < 2 ^ 64 := by
      have two : 2 ≤ den.toNat := by
        by_contra one
        have : den.toNat = 1 := by omega
        rw [this, Nat.mod_one] at some
        exact Nat.lt_irrefl 0 some
      have := Nat.div_le_div_left two (by omega : 0 < 2) (a := num.toNat)
      have : num.toNat < 2 ^ 64 := num.toNat_lt_size
      omega
    rw [if_pos some', if_pos some, UInt64.toNat_add, quotient, UInt64.toNat_one, Nat.mod_eq_of_lt half]
  · have none' : ¬ num % den > 0 := fun pos' => some (by simpa [remainder] using UInt64.lt_iff_toNat_lt.mp pos')
    rw [if_neg none', if_neg some, UInt64.add_zero, quotient]
    rfl

/-- Rounded up over at least one period, a share is at most the whole. -/
theorem ceil_div_le_self {x w : Nat} (positive : 0 < w) : (x + w - 1) / w ≤ x := by
  have spread := Nat.le_mul_of_pos_right x positive
  apply Nat.le_of_lt_succ
  rw [Nat.div_lt_iff_lt_mul positive, Nat.succ_mul]
  omega

theorem le_uint64Max (x : UInt64) : x ≤ uint64Max := by
  rw [UInt64.le_iff_toNat_le, toNat_uint64Max]
  have : x.toNat < 2 ^ 64 := x.toNat_lt_size
  omega

/-- The room a check `max - x ≥ y` leaves is exact: `x + y` fits a word. -/
theorem add_le_of_room {x y : UInt64} (room : uint64Max - x ≥ y) : x.toNat + y.toNat ≤ 2 ^ 64 - 1 := by
  have room := UInt64.le_iff_toNat_le.mp room
  rw [UInt64.toNat_sub_of_le _ _ (le_uint64Max x), toNat_uint64Max] at room
  have : x.toNat < 2 ^ 64 := x.toNat_lt_size
  omega

theorem downgradeCast_of_le {val : Nat} (fits : val ≤ 2 ^ 64 - 1) : downgradeCast val = .ok (UInt64.ofNat val) := by
  rw [downgradeCast, toNat_uint64Max, if_pos fits]

structure ExponentialMovingAverageAccumulator where
  lastOrdinal : UInt32
  valueEx : UInt64
  consumed : UInt64
  deriving DecidableEq, Repr

/-- An accumulator operation: the state reached is kept when an exception is thrown. -/
abbrev AccumulatorOp (α : Type) := EStateM Exception ExponentialMovingAverageAccumulator α

namespace ExponentialMovingAverageAccumulator

variable (precision : Nat)

/-- `max_raw_value`. -/
def maxRawValue : UInt64 := uint64Max / UInt64.ofNat precision

def average (a : ExponentialMovingAverageAccumulator) : UInt64 :=
  integerDivideCeil a.valueEx (UInt64.ofNat precision)

/-- The `last_ordinal != ordinal` block of `add`: decay the average to the new ordinal, move
`last_ordinal`, and restart `consumed` from the average. It throws before it writes. -/
def advance (ordinal windowSize : UInt32) (a : ExponentialMovingAverageAccumulator) :
    Except Exception ExponentialMovingAverageAccumulator :=
  if a.lastOrdinal ≠ ordinal then
    if ordinal > a.lastOrdinal then
      let valueEx : Except Exception UInt64 :=
        if a.lastOrdinal.toUInt64 + windowSize.toUInt64 > ordinal.toUInt64 then
          let delta := ordinal - a.lastOrdinal
          mulRatio a.valueEx ⟨windowSize.toUInt64 - delta.toUInt64, windowSize.toUInt64⟩
        else .ok 0
      valueEx.map fun valueEx =>
        let a := { a with valueEx := valueEx, lastOrdinal := ordinal }
        { a with consumed := a.average precision }
    else .error (.resourceLimitException "new ordinal cannot be less than the previous ordinal")
  else .ok a

def add (units : UInt64) (ordinal windowSize : UInt32) : AccumulatorOp Unit := fun a =>
  if ¬ units ≤ maxRawValue precision then
    .error (.rateLimitingStateInconsistent
      "Usage exceeds maximum value representable after extending for precision") a
  else if ¬ uint64Max - a.consumed ≥ units then
    .error (.rateLimitingStateInconsistent "Overflow in tracked usage when adding usage!") a
  else
    match downgradeCast (integerDivideCeil (units.toNat * precision % 2 ^ 128) windowSize.toNat) with
    | .error e => .error e a
    | .ok valueExContrib =>
      if ¬ uint64Max - a.valueEx ≥ valueExContrib then
        .error (.rateLimitingStateInconsistent "Overflow in accumulated value when adding usage!") a
      else
        match advance precision ordinal windowSize a with
        | .error e => .error e a
        | .ok a => .ok () { a with consumed := a.consumed + units, valueEx := a.valueEx + valueExContrib }

/-! ### What `add` computes -/

/-- The accumulated value `delta` periods later, in exact arithmetic: kept at no distance,
scaled by `(windowSize - delta) / windowSize` inside the window, and gone past it. -/
def decayedValue (valueEx delta windowSize : Nat) : Nat :=
  if delta = 0 then valueEx
  else if delta < windowSize then valueEx * (windowSize - delta) / windowSize
  else 0

theorem decayedValue_le (valueEx delta windowSize : Nat) : decayedValue valueEx delta windowSize ≤ valueEx := by
  unfold decayedValue
  split
  · exact le_rfl
  · split
    · exact Nat.div_le_of_le_mul (Nat.mul_le_mul_left _ (Nat.sub_le _ _) |>.trans (Nat.mul_comm _ _).le)
    · exact Nat.zero_le _

variable {precision}

/-- The `last_ordinal != ordinal` block moves to `ordinal`, decays the value exactly, and
restarts `consumed` from the average when it moved. -/
theorem advance_ok {ordinal windowSize : UInt32} {a a₁ : ExponentialMovingAverageAccumulator}
    (ok : advance precision ordinal windowSize a = .ok a₁) :
    a₁.lastOrdinal = ordinal ∧
      a₁.valueEx.toNat = decayedValue a.valueEx.toNat (ordinal.toNat - a.lastOrdinal.toNat) windowSize.toNat ∧
      a₁.consumed = if ordinal = a.lastOrdinal then a.consumed else a₁.average precision := by
  unfold advance at ok
  split at ok
  · rename_i moved
    split at ok
    · rename_i later
      have lt := UInt32.lt_iff_toNat_lt.mp later
      obtain ⟨valueEx, decayed, rfl⟩ := ExceptFold.map_eq_ok ok
      refine ⟨rfl, ?_, by simp [Ne.symm moved]; rfl⟩
      have apart : ordinal.toNat - a.lastOrdinal.toNat ≠ 0 := by omega
      split at decayed
      · -- inside the window: `operator*` by `(windowSize - delta) / windowSize`
        rename_i within
        have within := UInt64.lt_iff_toNat_lt.mp within
        have delta : (ordinal - a.lastOrdinal).toNat = ordinal.toNat - a.lastOrdinal.toNat :=
          UInt32.toNat_sub_of_le _ _ (UInt32.le_iff_toNat_le.mpr lt.le)
        simp only [UInt64.toNat_add, UInt32.toNat_toUInt64] at within
        have inside : ordinal.toNat - a.lastOrdinal.toNat < windowSize.toNat := by
          have : a.lastOrdinal.toNat < 2 ^ 32 := a.lastOrdinal.toNat_lt_size
          have : windowSize.toNat < 2 ^ 32 := windowSize.toNat_lt_size
          omega
        have deltaNat : (ordinal - a.lastOrdinal).toUInt64.toNat = ordinal.toNat - a.lastOrdinal.toNat := by
          rw [UInt32.toNat_toUInt64, delta]
        have numerator : (windowSize.toUInt64 - (ordinal - a.lastOrdinal).toUInt64).toNat =
            windowSize.toNat - (ordinal.toNat - a.lastOrdinal.toNat) := by
          have le : (ordinal - a.lastOrdinal).toUInt64 ≤ windowSize.toUInt64 := by
            rw [UInt64.le_iff_toNat_le, deltaNat, UInt32.toNat_toUInt64]
            omega
          rw [UInt64.toNat_sub_of_le _ _ le, deltaNat, UInt32.toNat_toUInt64]
        rw [mulRatio_ok decayed, numerator, UInt32.toNat_toUInt64, decayedValue, if_neg apart, if_pos inside]
      · -- past the window the value is dropped
        rename_i past
        cases decayed
        have past := UInt64.not_lt.mp past
        rw [UInt64.le_iff_toNat_le] at past
        simp only [UInt64.toNat_add, UInt32.toNat_toUInt64] at past
        have outside : ¬ ordinal.toNat - a.lastOrdinal.toNat < windowSize.toNat := by
          have : a.lastOrdinal.toNat < 2 ^ 32 := a.lastOrdinal.toNat_lt_size
          have : windowSize.toNat < 2 ^ 32 := windowSize.toNat_lt_size
          omega
        rw [decayedValue, if_neg apart, if_neg outside]
        rfl
    · cases ok
  · rename_i same
    cases ok
    have same := (not_not.mp same).symm
    refine ⟨same.symm, ?_, by simp [same]⟩
    rw [same, Nat.sub_self, decayedValue, if_pos rfl]

/-- Moving back to an earlier ordinal is rejected. -/
theorem advance_error_of_lt {ordinal windowSize : UInt32} {a : ExponentialMovingAverageAccumulator}
    (earlier : ordinal < a.lastOrdinal) : ∃ e, advance precision ordinal windowSize a = .error e := by
  have moved : a.lastOrdinal ≠ ordinal := fun same => UInt32.lt_irrefl _ (same ▸ earlier)
  have notLater : ¬ ordinal > a.lastOrdinal := UInt32.not_lt.mpr (UInt32.le_of_lt earlier)
  exact ⟨_, by rw [advance, if_pos moved, if_neg notLater]⟩

/-- Every check of `add` comes before its writes: a call that throws leaves the accumulator. -/
theorem add_error {units : UInt64} {ordinal windowSize : UInt32} {a a' : ExponentialMovingAverageAccumulator}
    {e : Exception} (failed : add precision units ordinal windowSize a = .error e a') : a' = a := by
  unfold add at failed
  repeat' split at failed
  all_goals (cases failed <;> rfl)

/-- What a call of `add` that returns checked, and what it wrote. -/
theorem add_ok {units : UInt64} {ordinal windowSize : UInt32} {a a' : ExponentialMovingAverageAccumulator}
    (ok : add precision units ordinal windowSize a = .ok () a') :
    units ≤ maxRawValue precision ∧ uint64Max - a.consumed ≥ units ∧
      ∃ valueExContrib a₁,
        downgradeCast (integerDivideCeil (units.toNat * precision % 2 ^ 128) windowSize.toNat) = .ok valueExContrib ∧
        uint64Max - a.valueEx ≥ valueExContrib ∧ advance precision ordinal windowSize a = .ok a₁ ∧
        a' = { a₁ with consumed := a₁.consumed + units, valueEx := a₁.valueEx + valueExContrib } := by
  unfold add at ok
  split at ok
  · cases ok
  rename_i fits
  split at ok
  · cases ok
  rename_i room
  split at ok
  · cases ok
  rename_i valueExContrib cast
  split at ok
  · cases ok
  rename_i room'
  split at ok
  · cases ok
  rename_i a₁ advanced
  cases ok
  exact ⟨not_not.mp fits, not_not.mp room, valueExContrib, a₁, cast, not_not.mp room', advanced, rfl⟩

/-- Moving back to an earlier ordinal is rejected, at the latest by the ordinal check. -/
theorem add_error_of_lt {units : UInt64} {ordinal windowSize : UInt32} {a : ExponentialMovingAverageAccumulator}
    (earlier : ordinal < a.lastOrdinal) : ∃ e, add precision units ordinal windowSize a = .error e a := by
  obtain ⟨e, rejected⟩ : ∃ e, advance precision ordinal windowSize a = .error e := advance_error_of_lt earlier
  unfold add
  split
  · exact ⟨_, rfl⟩
  split
  · exact ⟨_, rfl⟩
  split
  · exact ⟨_, rfl⟩
  split
  · exact ⟨_, rfl⟩
  rw [rejected]
  exact ⟨_, rfl⟩

section Words

variable (pos : 0 < precision)
include pos

omit pos in
theorem toNat_maxRawValue (small : precision < 2 ^ 64) :
    (maxRawValue precision).toNat = (2 ^ 64 - 1) / precision := by
  rw [maxRawValue, UInt64.toNat_div, toNat_uint64Max, UInt64.toNat_ofNat_of_lt' small]

theorem toNat_average (small : precision < 2 ^ 64) (a : ExponentialMovingAverageAccumulator) :
    (average precision a).toNat = (a.valueEx.toNat + precision - 1) / precision := by
  have den : (UInt64.ofNat precision).toNat = precision := UInt64.toNat_ofNat_of_lt' small
  rw [average, toNat_integerDivideCeil (by rw [den]; exact pos), den]

/-- Once `units ≤ max_raw_value`, the product fits a word, so its rounded-up share does too:
`downgrade_cast` passes. -/
theorem downgradeCast_contribution {units : UInt64} {windowSize : UInt32} (positive : 0 < windowSize.toNat)
    (fits : units.toNat ≤ (2 ^ 64 - 1) / precision) :
    downgradeCast (integerDivideCeil (units.toNat * precision % 2 ^ 128) windowSize.toNat) =
      .ok (UInt64.ofNat ((units.toNat * precision + windowSize.toNat - 1) / windowSize.toNat)) := by
  have product : units.toNat * precision ≤ 2 ^ 64 - 1 := (Nat.le_div_iff_mul_le pos).mp fits
  have share := ceil_div_le_self (x := units.toNat * precision) positive
  rw [Nat.mod_eq_of_lt (by omega), integerDivideCeil_nat positive, downgradeCast_of_le (by omega)]

end Words

end ExponentialMovingAverageAccumulator

open ExponentialMovingAverageAccumulator

/-- `add` on a `usage_accumulator` with a positive window: a call that throws leaves the
accumulator as it was; `downgrade_cast` passes once `units ≤ max_raw_value`; an earlier ordinal
is rejected; and a call that returns moves to `ordinal` with the exact decayed value plus the
rounded-up share of `units`, and `consumed` exactly the previous usage (or the average, on a
new ordinal) plus `units`: no word wraps. -/
theorem exponential_moving_average_add_exact (a : ExponentialMovingAverageAccumulator) (units : UInt64)
    (ordinal windowSize : UInt32) (positive : 0 < windowSize) :
    (∀ e a', add Config.rateLimitingPrecision units ordinal windowSize a = .error e a' → a' = a) ∧
      (units.toNat ≤ (2 ^ 64 - 1) / Config.rateLimitingPrecision →
        downgradeCast (integerDivideCeil (units.toNat * Config.rateLimitingPrecision % 2 ^ 128) windowSize.toNat) =
          .ok (UInt64.ofNat
            ((units.toNat * Config.rateLimitingPrecision + windowSize.toNat - 1) / windowSize.toNat))) ∧
      (ordinal < a.lastOrdinal → ∃ e, add Config.rateLimitingPrecision units ordinal windowSize a = .error e a) ∧
      ∀ a', add Config.rateLimitingPrecision units ordinal windowSize a = .ok () a' →
        a'.lastOrdinal = ordinal ∧
        a'.valueEx.toNat = decayedValue a.valueEx.toNat (ordinal.toNat - a.lastOrdinal.toNat) windowSize.toNat +
          (units.toNat * Config.rateLimitingPrecision + windowSize.toNat - 1) / windowSize.toNat ∧
        a'.consumed.toNat = (if ordinal = a.lastOrdinal then a.consumed.toNat
          else (decayedValue a.valueEx.toNat (ordinal.toNat - a.lastOrdinal.toNat) windowSize.toNat +
            Config.rateLimitingPrecision - 1) / Config.rateLimitingPrecision) + units.toNat := by
  have pos : 0 < Config.rateLimitingPrecision := by decide
  have small : Config.rateLimitingPrecision < 2 ^ 64 := by decide
  have positive' : 0 < windowSize.toNat := UInt32.lt_iff_toNat_lt.mp positive
  refine ⟨fun e a' failed => add_error failed, downgradeCast_contribution pos positive',
    fun earlier => add_error_of_lt earlier, fun a' ok => ?_⟩
  obtain ⟨fits, room, contrib, a₁, cast, room', advanced, rfl⟩ := add_ok ok
  obtain ⟨last, valueEx₁, consumed₁⟩ := advance_ok advanced
  have fits := UInt64.le_iff_toNat_le.mp fits
  rw [toNat_maxRawValue small] at fits
  rw [downgradeCast_contribution pos positive' fits] at cast
  cases cast
  -- every check in exact arithmetic
  have shareLe := ceil_div_le_self (x := units.toNat * Config.rateLimitingPrecision) positive'
  have product := (Nat.le_div_iff_mul_le pos).mp fits
  have contrib : (UInt64.ofNat ((units.toNat * Config.rateLimitingPrecision + windowSize.toNat - 1) /
      windowSize.toNat)).toNat = (units.toNat * Config.rateLimitingPrecision + windowSize.toNat - 1) /
        windowSize.toNat :=
    UInt64.toNat_ofNat_of_lt' (by simp only [UInt64.size]; omega)
  have consumedRoom := add_le_of_room room
  have valueRoom := add_le_of_room room'
  rw [contrib] at valueRoom
  have decayed := decayedValue_le a.valueEx.toNat (ordinal.toNat - a.lastOrdinal.toNat) windowSize.toNat
  refine ⟨last, ?_, ?_⟩
  · show (a₁.valueEx + _).toNat = _
    rw [UInt64.toNat_add, valueEx₁, contrib, Nat.mod_eq_of_lt (by omega)]
  · show (a₁.consumed + units).toNat = _
    rw [UInt64.toNat_add, consumed₁]
    split
    · rw [Nat.mod_eq_of_lt (by omega)]
    · -- the average of at most a word, plus at most a word over the precision, fits a word
      rw [toNat_average pos small, valueEx₁, Nat.mod_eq_of_lt]
      have : a.valueEx.toNat < 2 ^ 64 := a.valueEx.toNat_lt_size
      unfold Config.rateLimitingPrecision at fits ⊢
      omega

/-- Two periods into a window of four, a value of three units decays to one and a half, two
new units add half a unit each period, and `consumed` restarts from the rounded-up average. -/
theorem exponential_moving_average_add_two_periods :
    (0 : UInt32) < 4 ∧ (∃ a', add Config.rateLimitingPrecision 2 7 4 ⟨5, 3000000, 3⟩ = .ok () a') ∧
      ∀ a', add Config.rateLimitingPrecision 2 7 4 ⟨5, 3000000, 3⟩ = .ok () a' →
        a'.lastOrdinal = 7 ∧ a'.valueEx.toNat = 2000000 ∧ a'.consumed.toNat = 4 := by
  refine ⟨by decide, ⟨_, rfl⟩, fun a' ok => ?_⟩
  obtain ⟨-, -, -, returns⟩ := exponential_moving_average_add_exact ⟨5, 3000000, 3⟩ 2 7 4 (by decide)
  obtain ⟨last, valueEx, consumed⟩ := returns a' ok
  refine ⟨last, ?_, ?_⟩
  · rw [valueEx]
    decide
  · rw [consumed]
    decide

end ResourceLimits

end Fio.Chain
