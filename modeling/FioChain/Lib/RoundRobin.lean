import Mathlib

/-! Owners that take turns over a line of slots: `n` owners hold `r` consecutive slots each,
in order, so slot `s` belongs to owner `s / r % n`. The first slot at or after `m` that owner
`p` holds is `m` itself when `m` is already `p`'s, and otherwise the first slot of the turn
that lies `(p - owner m) mod n` turns after `m`'s. -/

namespace RoundRobin

/-- The owner of slot `s`. -/
def owner (n r s : Nat) : Nat := s / r % n

/-- The turns forward from owner `q` to owner `p`. -/
def distance (n q p : Nat) : Nat := (p + n - q) % n

/-- The first slot at or after `m` that owner `p` holds. -/
def nextSlot (n r p m : Nat) : Nat :=
  if owner n r m = p then m else r * (m / r + distance n (owner n r m) p)

variable {n r p q m s : Nat}

theorem owner_lt (hn : 0 < n) (s : Nat) : owner n r s < n := Nat.mod_lt _ hn

/-- Owners of `n * r` slots in a row: the owner read through the remainder of a whole round. -/
theorem owner_eq_mod_div (s : Nat) : s % (n * r) / r = owner n r s :=
  Nat.mod_mul_left_div_self s r n

theorem owner_of_div_eq {j : Nat} (turn : s / r = m / r + j) : owner n r s = (owner n r m + j) % n := by
  unfold owner
  rw [turn, Nat.mod_add_mod]

theorem distance_lt (hn : 0 < n) : distance n q p < n := Nat.mod_lt _ hn

/-- Going `distance` turns forward from `q` reaches `p`. -/
theorem add_distance_mod (hq : q < n) (hp : p < n) : (q + distance n q p) % n = p := by
  unfold distance
  rw [Nat.add_mod_mod, show q + (p + n - q) = p + n by omega, Nat.add_mod_right, Nat.mod_eq_of_lt hp]

theorem distance_pos (hq : q < n) (hp : p < n) (other : q ≠ p) : 0 < distance n q p := by
  apply Nat.pos_of_ne_zero
  intro none
  have reached := add_distance_mod hq hp
  rw [none, Nat.add_zero, Nat.mod_eq_of_lt hq] at reached
  exact other reached

/-- Fewer turns than the distance reach another owner. -/
theorem add_mod_ne_of_lt_distance (hn : 0 < n) (hq : q < n) (hp : p < n) {j : Nat}
    (short : j < distance n q p) : (q + j) % n ≠ p := by
  intro reached
  have same : q + j ≡ q + distance n q p [MOD n] := by
    rw [Nat.ModEq, reached, add_distance_mod hq hp]
  have equal := (Nat.ModEq.add_left_cancel' q same).eq_of_lt_of_lt
    (lt_trans short (distance_lt hn)) (distance_lt hn)
  omega

/-- The distance as unsigned `w`-bit words compute it: `p - q`, wrapped, and `n` added back
when the difference wrapped past `p`. -/
theorem wrapped_distance {w : Nat} (hn : 2 * n < 2 ^ w) (hq : q < n) (hp : p < n) :
    (if p < (2 ^ w - q + p) % 2 ^ w then ((2 ^ w - q + p) % 2 ^ w + n) % 2 ^ w
      else (2 ^ w - q + p) % 2 ^ w) = distance n q p := by
  unfold distance
  by_cases below : q ≤ p
  · -- no wrap: the difference is `p - q`, at most `p`
    have exact : (2 ^ w - q + p) % 2 ^ w = p - q := by
      rw [show 2 ^ w - q + p = (p - q) + 2 ^ w by omega, Nat.add_mod_right, Nat.mod_eq_of_lt (by omega)]
    rw [exact, if_neg (by omega), show p + n - q = (p - q) + n by omega, Nat.add_mod_right,
      Nat.mod_eq_of_lt (by omega)]
  · -- wrapped: `2 ^ w - (q - p)` lies above `p`, and adding `n` wraps back to `n - (q - p)`
    have wrapped : (2 ^ w - q + p) % 2 ^ w = 2 ^ w - q + p := Nat.mod_eq_of_lt (by omega)
    rw [wrapped, if_pos (by omega), show 2 ^ w - q + p + n = (p + n - q) + 2 ^ w by omega,
      Nat.add_mod_right, Nat.mod_eq_of_lt (by omega), Nat.mod_eq_of_lt (by omega)]

/-- The next slot of `p` from `m` is the least slot at or after `m` that `p` owns. -/
theorem nextSlot_isLeast (hn : 0 < n) (hr : 0 < r) (hp : p < n) :
    IsLeast {s | m ≤ s ∧ owner n r s = p} (nextSlot n r p m) := by
  unfold nextSlot
  split
  case isTrue owns => exact ⟨⟨le_rfl, owns⟩, fun s member => member.1⟩
  case isFalse other =>
    have hq : owner n r m < n := owner_lt hn m
    have positive := distance_pos hq hp other
    refine ⟨⟨?_, ?_⟩, ?_⟩
    · calc m ≤ r * (m / r + 1) := (Nat.lt_mul_div_succ m hr).le
        _ ≤ r * (m / r + distance n (owner n r m) p) := Nat.mul_le_mul_left r (by omega)
    · rw [owner_of_div_eq (j := distance n (owner n r m) p) (Nat.mul_div_cancel_left _ hr)]
      exact add_distance_mod hq hp
    · -- a slot before the next turn of `p` lies in one of the turns in between
      rintro s ⟨above, owns⟩
      by_contra! early
      have lo : m / r ≤ s / r := Nat.div_le_div_right above
      have hi : s / r < m / r + distance n (owner n r m) p :=
        (Nat.div_lt_iff_lt_mul hr).2 (by rwa [Nat.mul_comm] at early)
      rw [owner_of_div_eq (show s / r = m / r + (s / r - m / r) by omega)] at owns
      exact add_mod_ne_of_lt_distance hn hq hp (by omega) owns

end RoundRobin
