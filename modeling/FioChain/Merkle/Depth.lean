import FioChain.Merkle.Model

/-! The depth `append` walks. `next_power_of_2` rounds a count up to `2 ^ (count - 1).size`,
wrapping to zero past `2 ^ 63`, and `clz_power_2` reads the exponent back, with 64 for zero;
so `append` runs its loop once for every bit of the old node count. At a count of
`2 ^ 64 - 1` the new count wraps to zero and the loop does not run. -/

namespace Fio.Chain

namespace Detail

theorem clzPower2_two_pow : ∀ k < 64, clzPower2 (2 ^ k) = k := by decide

theorem clzPower2_zero : clzPower2 0 = 64 := by decide

/-- `next_power_of_2` fills the bits below the highest bit of `value - 1` and adds one. -/
theorem nextPowerOf2_eq {value : Nat} (positive : 0 < value) (bounded : value < 2 ^ 64) :
    nextPowerOf2 value = 2 ^ (value - 1).size % 2 ^ 64 := by
  have decremented : (value + 2 ^ 64 - 1) % 2 ^ 64 = value - 1 := by omega
  have fits : (value - 1).size ≤ 64 := Nat.size_le.mpr (by omega)
  -- six shifted ors fill 1, 2, 4, ..., 64 bits below the highest
  have filled := (((((NatBits.topFilled_self (value - 1)).or_shiftRight.or_shiftRight).or_shiftRight
    ).or_shiftRight).or_shiftRight).or_shiftRight
  have ones := filled.eq fits
  simp only [nextPowerOf2, decremented]
  rw [ones, Nat.sub_add_cancel (Nat.one_le_two_pow)]

/-- One less than the depth is the number of bits of `nodeCount - 1`. -/
theorem calcluateMaxDepth_sub_one {nodeCount : Nat} (positive : 0 < nodeCount)
    (bounded : nodeCount < 2 ^ 64) : calcluateMaxDepth nodeCount - 1 = (nodeCount - 1).size := by
  have fits : (nodeCount - 1).size ≤ 64 := Nat.size_le.mpr (by omega)
  rw [calcluateMaxDepth, if_neg (by omega), nextPowerOf2_eq positive bounded]
  rcases Nat.lt_or_eq_of_le fits with below | top
  · rw [Nat.mod_eq_of_lt (Nat.pow_lt_pow_right (by decide) below), clzPower2_two_pow _ below]
    rfl
  · rw [top, Nat.mod_self, clzPower2_zero]

end Detail

namespace IncrementalMerkle

variable {D P : Type} (hash : P → D) (makeCanonicalPair : D → D → P)

/-- Below the wrap-around, `append` runs its loop once for every bit of the old count. -/
theorem append_eq {m : IncrementalMerkle D} (room : m.nodeCount + 1 < 2 ^ 64) (digest : D) :
    m.append hash makeCanonicalPair digest =
      (collapse hash makeCanonicalPair m.nodeCount.size m.nodeCount digest false m.activeNodes []).map
        fun result => (⟨m.nodeCount + 1, result.2 ++ [result.1]⟩, result.1) := by
  have depth := Detail.calcluateMaxDepth_sub_one (by omega : 0 < m.nodeCount + 1) room
  rw [Nat.add_sub_cancel] at depth
  simp only [append, Nat.mod_eq_of_lt room, depth]
  cases collapse hash makeCanonicalPair m.nodeCount.size m.nodeCount digest false m.activeNodes [] <;> rfl

/-- At `2 ^ 64 - 1` nodes the count wraps to zero and the new digest is the only active
node. -/
theorem append_of_wrap {m : IncrementalMerkle D} (full : m.nodeCount + 1 = 2 ^ 64) (digest : D) :
    m.append hash makeCanonicalPair digest = some (⟨0, [digest]⟩, digest) := by
  simp only [append, full, Nat.mod_self, Detail.calcluateMaxDepth]
  rfl

end IncrementalMerkle

end Fio.Chain
