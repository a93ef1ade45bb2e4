import FioChain.Fioio.Base58

/-! Both base58 decoders on a string of base58 characters. The `fio_common_validator`
decoder keeps the value in its fixed buffer with the bytes above `length` zero, and the buffer
is large enough (`58 ^ n < 256 ^ (n * 733 / 1000 + 1)`), so its assertion holds. The `keyops`
decoder keeps the value in as many bytes as it needs, its carry never leaves 16 bits, and the
swap loop reverses the bytes. Each refines `DigitCarry.mulAdd`. -/

namespace Fio.Chain

namespace Fioio

open DigitCarry

/-! ### Characters and values -/

-- each decided along the alphabet, not over every `Char`

theorem not_isSpace_of_mem : ∀ c ∈ base58Alphabet, isSpace c = false :=
  @of_decide_eq_true _ (List.decidableBAll _ _) rfl

theorem base58Digit_lt : ∀ c ∈ base58Alphabet, base58Digit c < 58 :=
  @of_decide_eq_true _ (List.decidableBAll _ _) rfl

theorem mapBase58_of_mem : ∀ c ∈ base58Alphabet, mapBase58 c = base58Digit c :=
  @of_decide_eq_true _ (List.decidableBAll _ _) rfl

theorem base58Digit_eq_zero_iff : ∀ c ∈ base58Alphabet, base58Digit c = 0 ↔ c = '1' :=
  @of_decide_eq_true _ (List.decidableBAll _ _) rfl

theorem base58Value_nil : base58Value [] = 0 := rfl

theorem base58Value_cons (c : Char) (ds : List Char) :
    base58Value (c :: ds) = base58Digit c * 58 ^ ds.length + base58Value ds := by
  simp only [base58Value, List.map_cons, List.reverse_cons, Nat.ofDigits_append, List.length_reverse,
    List.length_map, Nat.ofDigits_singleton]
  ring

theorem base58Value_lt {ds : List Char} (base58 : IsBase58 ds) : base58Value ds < 58 ^ ds.length := by
  have below : ∀ d ∈ (ds.map base58Digit).reverse, d < 58 := by
    intro d member
    obtain ⟨c, mem, rfl⟩ := List.mem_map.1 (List.mem_reverse.1 member)
    exact base58Digit_lt c (base58 c mem)
  have bound := Nat.ofDigits_lt_base_pow_length (by norm_num) below
  simpa [base58Value] using bound

/-- Leading `1`s are leading zero digits. -/
theorem base58Value_dropWhile_one {t : List Char} (base58 : IsBase58 t) :
    base58Value (t.dropWhile (· = '1')) = base58Value t := by
  induction t with
  | nil => rfl
  | cons c rest ih =>
    by_cases one : c = '1'
    · have rest58 : IsBase58 rest := fun d mem => base58 d (List.mem_cons_of_mem _ mem)
      rw [List.dropWhile_cons_of_pos (by simpa using one), ih rest58, base58Value_cons,
        (base58Digit_eq_zero_iff c (base58 c List.mem_cons_self)).2 one, Nat.zero_mul, Nat.zero_add]
    · rw [List.dropWhile_cons_of_neg (by simpa using one)]

/-- A string with a character other than `1` spells a positive number. -/
theorem base58Value_pos {t : List Char} (base58 : IsBase58 t) (other : ∃ c ∈ t, c ≠ '1') : 0 < base58Value t := by
  induction t with
  | nil => simp at other
  | cons c rest ih =>
    rw [base58Value_cons]
    by_cases one : c = '1'
    · obtain ⟨d, mem, notOne⟩ := other
      have later : d ∈ rest := (List.mem_cons.1 mem).resolve_left (by rintro rfl; exact notOne one)
      have := ih (fun e mem => base58 e (List.mem_cons_of_mem _ mem)) ⟨d, later, notOne⟩
      omega
    · have digit : 0 < base58Digit c :=
        Nat.pos_of_ne_zero fun zero => one ((base58Digit_eq_zero_iff c (base58 c List.mem_cons_self)).1 zero)
      have : 0 < base58Digit c * 58 ^ rest.length := Nat.mul_pos digit (by positivity)
      omega

/-- The buffer of `strlen * 733 / 1000 + 1` bytes holds every value of `strlen` digits:
`log 58 / log 256 < 0.733`. -/
theorem pow58_lt_bufferSize (n : Nat) : 58 ^ n < 256 ^ (n * 733 / 1000 + 1) := by
  -- `58 ^ 71 < 256 ^ 52`, and `52 / 71 < 0.733`
  have key : 58 ^ 71 < 256 ^ 52 := by norm_num
  have exponent : 52 * n < 71 * (n * 733 / 1000 + 1) := by omega
  have raised : (58 ^ n) ^ 71 < (256 ^ (n * 733 / 1000 + 1)) ^ 71 :=
    calc (58 ^ n) ^ 71 = (58 ^ 71) ^ n := by rw [← pow_mul, ← pow_mul, Nat.mul_comm]
      _ ≤ (256 ^ 52) ^ n := Nat.pow_le_pow_left key.le n
      _ = 256 ^ (52 * n) := by rw [← pow_mul]
      _ < 256 ^ (71 * (n * 733 / 1000 + 1)) := Nat.pow_lt_pow_right (by norm_num) exponent
      _ = (256 ^ (n * 733 / 1000 + 1)) ^ 71 := by rw [← pow_mul, Nat.mul_comm]
  exact lt_of_pow_lt_pow_left₀ 71 (by positivity) raised

/-- A string of `1`s only stands for as many zero bytes. -/
theorem base58Bytes_of_value_eq_zero {t : List Char} (base58 : IsBase58 t) (zero : base58Value t = 0) :
    base58Bytes t = List.replicate t.length 0 := by
  have ones : ∀ c ∈ t, c = '1' := fun c mem => by
    by_contra other
    have := base58Value_pos base58 ⟨c, mem, other⟩
    omega
  rw [base58Bytes, List.takeWhile_eq_self_iff.2 (by simpa using ones), zero, Nat.digits_zero]
  simp

/-! ### `DecodeBase58(psz, vch)` -/

/-- The buffer `b256` holds `v`, least significant byte last, and its bytes above `length`
are zero. -/
structure Holds (b256 : List UInt8) (length v : Nat) : Prop where
  value : Nat.ofDigits 256 (b256.reverse.map UInt8.toNat) = v
  above : ∀ x ∈ b256.reverse.drop length, x = 0

theorem map_toNat_eq_replicate_zero {bytes : List UInt8} (zero : ∀ x ∈ bytes, x = 0) :
    bytes.map UInt8.toNat = List.replicate bytes.length 0 :=
  List.eq_replicate_iff.2 ⟨by simp, fun d member => by
    obtain ⟨x, mem, rfl⟩ := List.mem_map.1 member
    rw [zero x mem]
    rfl⟩

/-- The loop over `b256` from its end is `mulAdd` on the bytes, when the bytes it leaves alone
are zero; the bytes past those it visited stay zero. -/
theorem mulAddFromEnd_spec (length : Nat) (bytes : List UInt8) (carry i : Nat)
    (zeroAbove : ∀ x ∈ bytes.drop (length - i), x = 0) :
    (mulAddFromEnd length carry i bytes).1.map UInt8.toNat = (mulAdd 256 58 carry (bytes.map UInt8.toNat)).1 ∧
      (mulAddFromEnd length carry i bytes).2.1 = (mulAdd 256 58 carry (bytes.map UInt8.toNat)).2 ∧
      i ≤ (mulAddFromEnd length carry i bytes).2.2 ∧
      ∀ x ∈ (mulAddFromEnd length carry i bytes).1.drop ((mulAddFromEnd length carry i bytes).2.2 - i), x = 0 := by
  induction bytes generalizing carry i with
  | nil => simp [mulAddFromEnd, mulAdd]
  | cons byte rest ih =>
    unfold mulAddFromEnd
    split
    case isTrue visit =>
      dsimp only
      -- the bytes of `rest` past `length - (i + 1)` are zero as well
      have restAbove : ∀ x ∈ rest.drop (length - (i + 1)), x = 0 := by
        by_cases inside : i < length
        · rw [show length - i = length - (i + 1) + 1 by omega, List.drop_succ_cons] at zeroAbove
          exact zeroAbove
        · have all : ∀ x ∈ byte :: rest, x = 0 := by simpa [show length - i = 0 by omega] using zeroAbove
          exact fun x mem => all x (List.mem_cons_of_mem _ (List.mem_of_mem_drop mem))
      obtain ⟨written, left, visited, zero⟩ := ih ((carry + 58 * byte.toNat) / 256) (i + 1) restAbove
      refine ⟨?_, left, by omega, ?_⟩
      · simp [mulAdd, written]
      · rw [show (mulAddFromEnd length ((carry + 58 * byte.toNat) / 256) (i + 1) rest).2.2 - i =
            (mulAddFromEnd length ((carry + 58 * byte.toNat) / 256) (i + 1) rest).2.2 - (i + 1) + 1 by omega,
          List.drop_succ_cons]
        exact zero
    case isFalse stop =>
      -- nothing left to carry and past `length`: the bytes are zero and stay as they are
      have all : ∀ x ∈ byte :: rest, x = 0 := by simpa [show length - i = 0 by omega] using zeroAbove
      have zeros := map_toNat_eq_replicate_zero all
      obtain rfl : carry = 0 := by omega
      rw [zeros, mulAdd_replicate_zero]
      exact ⟨rfl, rfl, le_rfl, by simpa using all⟩

theorem holds_replicate (size : Nat) : Holds (List.replicate size 0) 0 0 where
  value := by simp
  above x mem := by simpa using List.eq_of_mem_replicate (List.mem_reverse.1 (List.mem_of_mem_drop mem))

/-- One character: with room for the result, the loop leaves no carry, and the buffer holds
`58 * v + d` with the bytes past the new `length` zero. -/
theorem Holds.mulAddFromEnd {b256 : List UInt8} {length v : Nat} (holds : Holds b256 length v) {d : Nat}
    (fits : 58 * v + d < 256 ^ b256.length) :
    (mulAddFromEnd length d 0 b256.reverse).2.1 = 0 ∧
      Holds (mulAddFromEnd length d 0 b256.reverse).1.reverse (mulAddFromEnd length d 0 b256.reverse).2.2
        (58 * v + d) ∧
      (mulAddFromEnd length d 0 b256.reverse).1.reverse.length = b256.length := by
  obtain ⟨written, left, -, zero⟩ := mulAddFromEnd_spec length b256.reverse d 0 (by simpa using holds.above)
  have spec := mulAdd_spec (b := 256) (m := 58) d (b256.reverse.map UInt8.toNat)
  have value := holds.value
  simp only [List.map_reverse] at value spec
  have carryZero : (mulAdd 256 58 d (b256.map UInt8.toNat).reverse).2 = 0 :=
    mulAdd_carry_eq_zero (by simpa [value] using fits)
  have sameLength := congrArg List.length written
  simp only [List.length_map, length_mulAdd, List.length_reverse] at sameLength
  refine ⟨by simpa [carryZero] using left, ⟨?_, ?_⟩, by simpa using sameLength⟩
  · rw [List.reverse_reverse, written]
    simpa [value, carryZero] using spec
  · simpa using zero

/-- The loop over a string of base58 characters, from a buffer holding `v`, with room for the
result: it reads every character and the buffer holds `v` followed by their digits. -/
theorem decodeLoop_spec (ds : List Char) (base58 : IsBase58 ds) :
    ∀ (b256 : List UInt8) (length v : Nat), Holds b256 length v →
      v * 58 ^ ds.length + base58Value ds < 256 ^ b256.length →
      ∃ b256' length', decodeLoop b256 length ds = .ok (some (b256', length', [])) ∧
        Holds b256' length' (v * 58 ^ ds.length + base58Value ds) ∧ b256'.length = b256.length := by
  induction ds with
  | nil =>
    intro b256 length v holds _
    exact ⟨b256, length, rfl, by simpa [base58Value_nil] using holds, rfl⟩
  | cons c rest ih =>
    intro b256 length v holds fits
    have mem : c ∈ base58Alphabet := base58 c List.mem_cons_self
    have digit := base58Digit_lt c mem
    -- the value so far fits, as it is at most the whole
    have total : v * 58 ^ (c :: rest).length + base58Value (c :: rest) =
        (58 * v + base58Digit c) * 58 ^ rest.length + base58Value rest := by
      rw [base58Value_cons, List.length_cons, pow_succ]
      ring
    have prefixFits : 58 * v + base58Digit c < 256 ^ b256.length := by
      have : 58 * v + base58Digit c ≤ (58 * v + base58Digit c) * 58 ^ rest.length :=
        Nat.le_mul_of_pos_right _ (by positivity)
      omega
    obtain ⟨noCarry, holds', sameLength⟩ := holds.mulAddFromEnd prefixFits
    obtain ⟨b256', length', loop, holdsRest, sameLength'⟩ :=
      ih (fun d mem => base58 d (List.mem_cons_of_mem _ mem)) _ _ _ holds' (by rw [sameLength]; omega)
    refine ⟨b256', length', ?_, total ▸ holdsRest, sameLength'.trans sameLength⟩
    simp only [decodeLoop, not_isSpace_of_mem c mem, mapBase58_of_mem c mem, Bool.false_eq_true, if_false,
      Int.toNat_natCast, noCarry, ne_eq, not_true_eq_false]
    rw [if_neg (by omega)]
    exact loop

/-- Dropping a prefix of bytes that would be skipped anyway. -/
theorem dropWhile_drop_of_take {l : List UInt8} {k : Nat} {p : UInt8 → Bool} (skipped : ∀ x ∈ l.take k, p x) :
    (l.drop k).dropWhile p = l.dropWhile p := by
  conv_rhs => rw [← List.take_append_drop k l]
  rw [List.dropWhile_append_of_pos skipped]

/-- The bytes the decoder copies out: those below `length`, without leading zeros, are the
value's bytes. -/
theorem Holds.extract {b256 : List UInt8} {length v : Nat} (holds : Holds b256 length v) :
    (b256.drop (b256.length - length)).dropWhile (· = 0) = (Nat.digits 256 v).reverse.map Nat.toUInt8 := by
  have skipped : ∀ x ∈ b256.take (b256.length - length), x = 0 := by
    intro x mem
    exact holds.above x (by rw [List.drop_reverse]; exact List.mem_reverse.2 mem)
  rw [dropWhile_drop_of_take (by simpa using skipped)]
  -- the leading zero bytes of `b256` are the trailing zero digits of the value
  have digits := digits_ofDigits_eq_rdropWhile (b := 256) (by norm_num) (b256.reverse.map UInt8.toNat)
    (by simpa using fun (x : UInt8) (_ : x ∈ b256) => x.toNat_lt)
  rw [holds.value] at digits
  have bytes : (b256.dropWhile (· = 0)).map UInt8.toNat = (Nat.digits 256 v).reverse := by
    rw [digits, List.rdropWhile, List.reverse_reverse, ← List.map_reverse, List.reverse_reverse, List.dropWhile_map]
    congr 2
    funext x
    simp [Function.comp, ← UInt8.toNat_inj]
  rw [← bytes, List.map_map]
  conv_lhs => rw [← List.map_id (b256.dropWhile (· = 0))]
  congr 1
  funext x
  simp

/-- On a string of base58 characters, `DecodeBase58(psz, vch)` returns `true` with the bytes
the string stands for. -/
theorem decodeBase58_eq {t : List Char} (base58 : IsBase58 t) : decodeBase58 t = .ok (some (base58Bytes t)) := by
  have noSpace : t.dropWhile isSpace = t := by
    cases t with
    | nil => rfl
    | cons c rest => exact List.dropWhile_cons_of_neg (by simp [not_isSpace_of_mem c (base58 c List.mem_cons_self)])
  have restBase58 : IsBase58 (t.dropWhile (· = '1')) :=
    fun c mem => base58 c ((List.dropWhile_suffix _).subset mem)
  have fits : 0 * 58 ^ (t.dropWhile (· = '1')).length + base58Value (t.dropWhile (· = '1')) <
      256 ^ (List.replicate ((t.dropWhile (· = '1')).length * 733 / 1000 + 1) (0 : UInt8)).length := by
    rw [List.length_replicate, Nat.zero_mul, Nat.zero_add]
    exact lt_trans (base58Value_lt restBase58) (pow58_lt_bufferSize _)
  obtain ⟨b256, length, loop, holds, sameLength⟩ :=
    decodeLoop_spec _ restBase58 _ 0 0 (holds_replicate _) fits
  rw [Nat.zero_mul, Nat.zero_add, base58Value_dropWhile_one base58] at holds
  rw [List.length_replicate] at sameLength
  unfold decodeBase58
  simp only [noSpace, loop, bind, Except.bind, pure, Except.pure, List.dropWhile_nil, ne_eq, not_true_eq_false,
    if_false]
  rw [← sameLength, holds.extract]
  rfl

/-! ### `DecodeBase58(str, len, result)` of `keyops` -/

namespace Keyops

theorem alphabetMap_of_mem : ∀ c ∈ base58Alphabet, alphabetMap c = (base58Digit c).toUInt32 :=
  @of_decide_eq_true _ (List.decidableBAll _ _) rfl

theorem toNat_low_byte (x : UInt32) : (x &&& 0xff).toUInt8.toNat = x.toNat % 256 := by
  have mask : x.toNat &&& 255 = x.toNat % 256 := Nat.and_two_pow_sub_one_eq_mod x.toNat 8
  rw [UInt32.toNat_toUInt8, UInt32.toNat_and]
  simp [mask]

theorem toNat_shiftRight_eight (x : UInt32) : (x >>> 8).toNat = x.toNat / 256 := by
  rw [UInt32.toNat_shiftRight]
  simp [Nat.shiftRight_eq_div_pow]

/-- The inner loop is `mulAdd` while the carry stays within 16 bits, which it does. -/
theorem mulAddResult_spec (result : List UInt8) :
    ∀ carry : UInt32, carry.toNat < 2 ^ 16 →
      (mulAddResult carry result).1.map UInt8.toNat = (mulAdd 256 58 carry.toNat (result.map UInt8.toNat)).1 ∧
        (mulAddResult carry result).2.toNat = (mulAdd 256 58 carry.toNat (result.map UInt8.toNat)).2 ∧
        (mulAddResult carry result).2.toNat < 2 ^ 16 := by
  induction result with
  | nil => intro carry small; exact ⟨rfl, rfl, small⟩
  | cons r rest ih =>
    intro carry small
    have byte := r.toNat_lt
    -- `carry + result[j] * 58` stays far below `2 ^ 32`
    have exact : (carry + r.toUInt32 * 58).toNat = carry.toNat + 58 * r.toNat := by
      rw [UInt32.toNat_add, UInt32.toNat_mul]
      simp
      omega
    have carried : ((carry + r.toUInt32 * 58) >>> 8).toNat < 2 ^ 16 := by
      rw [toNat_shiftRight_eight, exact]
      omega
    obtain ⟨written, left, bound⟩ := ih _ carried
    rw [toNat_shiftRight_eight, exact] at written left
    refine ⟨?_, left, bound⟩
    simp only [mulAddResult, List.map_cons, mulAdd, toNat_low_byte, exact, written]

/-- The carry loop writes the carry's bytes, least significant first. -/
theorem pushCarry_spec : ∀ (rounds : Nat) (carry : UInt32), carry.toNat < 256 ^ rounds →
    (pushCarry rounds carry).map UInt8.toNat = Nat.digits 256 carry.toNat
  | 0, carry, small => by
    have : carry.toNat = 0 := by simpa using small
    simp [pushCarry, this]
  | rounds + 1, carry, small => by
    unfold pushCarry
    split
    case isTrue positive =>
      have nonzero : 0 < carry.toNat := by simpa [UInt32.lt_iff_toNat_lt] using positive
      rw [List.map_cons, toNat_low_byte, pushCarry_spec rounds _ (by rw [toNat_shiftRight_eight, pow_succ] at *; omega),
        toNat_shiftRight_eight, Nat.digits_def' (by norm_num) nonzero]
    case isFalse zero =>
      have : carry.toNat = 0 := by simpa [UInt32.lt_iff_toNat_lt] using zero
      simp [this]

theorem pushCarry_four_spec (carry : UInt32) : (pushCarry 4 carry).map UInt8.toNat = Nat.digits 256 carry.toNat :=
  pushCarry_spec 4 carry (by simpa using carry.toNat_lt)

/-- From `result` holding `v` in as many bytes as it needs, the loop over base58 characters
leaves `v` followed by their digits, in as many bytes as it needs. -/
theorem decodeLoop_spec (ds : List Char) (base58 : IsBase58 ds) :
    ∀ (result : List UInt8) (v : Nat), result.map UInt8.toNat = padded 256 v →
      (decodeLoop result ds).map UInt8.toNat = padded 256 (v * 58 ^ ds.length + base58Value ds) := by
  induction ds with
  | nil => intro result v holds; simpa [decodeLoop, base58Value_nil] using holds
  | cons c rest ih =>
    intro result v holds
    have mem : c ∈ base58Alphabet := base58 c List.mem_cons_self
    have digit := base58Digit_lt c mem
    have small : (alphabetMap c).toNat < 2 ^ 16 := by
      rw [alphabetMap_of_mem c mem]
      simp
      omega
    obtain ⟨written, left, -⟩ := mulAddResult_spec result (alphabetMap c) small
    have digitValue : (alphabetMap c).toNat = base58Digit c := by
      rw [alphabetMap_of_mem c mem]
      simp
      omega
    -- one character: `58 * v + digit` in as many bytes as it needs
    have step : ((mulAddResult (alphabetMap c) result).1 ++ pushCarry 4 (mulAddResult (alphabetMap c) result).2).map
        UInt8.toNat = padded 256 (58 * v + base58Digit c) := by
      rw [List.map_append, written, pushCarry_four_spec, left, holds, digitValue]
      exact mulAdd_append_digits_padded (by norm_num) (by norm_num) _ _
    rw [decodeLoop, ih (fun d mem => base58 d (List.mem_cons_of_mem _ mem)) _ _ step, base58Value_cons,
      List.length_cons, pow_succ]
    ring_nf

/-- On a string of base58 characters, the `keyops` decoder writes the bytes the string stands
for, and one zero byte more when the string spells zero: the loop starts from `result[0] = 0`
and only drops it once a digit is nonzero. -/
theorem decodeBase58_eq_append {t : List Char} (base58 : IsBase58 t) :
    decodeBase58 t t.length = base58Bytes t ++ if base58Value t = 0 then [0] else [] := by
  have looped := decodeLoop_spec t base58 [0] 0 (by simp [padded])
  rw [Nat.zero_mul, Nat.zero_add] at looped
  -- the loop leaves the value's bytes, least significant first
  have bytes : decodeLoop [0] t = (padded 256 (base58Value t)).map Nat.toUInt8 := by
    rw [← looped, List.map_map]
    conv_lhs => rw [← List.map_id (decodeLoop [0] t)]
    congr 1
    funext x
    simp
  have half : ∀ n : Nat, n - ((n >>> 1) + (n &&& 1)) = n / 2 := by
    intro n
    rw [Nat.shiftRight_one, Nat.and_one_is_mod]
    omega
  unfold decodeBase58
  simp only [List.take_length, half, bytes]
  rw [SwapReverse.foldl_swapEnds_eq_reverse, List.reverse_append, List.reverse_replicate, ← List.map_reverse,
    base58Bytes, List.append_assoc]
  congr 1
  unfold padded
  split
  case isTrue zero => simp [zero]
  case isFalse positive => simp [positive]

end Keyops

/-! ### Both decoders, and the encoding they invert -/

theorem takeWhile_ne_nul {t : List Char} (base58 : IsBase58 t) : t.takeWhile (· ≠ '\x00') = t := by
  have absent : '\x00' ∉ base58Alphabet := by decide
  refine List.takeWhile_eq_self_iff.2 fun c mem => ?_
  have notNul : c ≠ '\x00' := fun nul => absent (nul ▸ base58 c mem)
  simpa using notNul

theorem decodeBase58String_eq {t : List Char} (base58 : IsBase58 t) :
    decodeBase58String t = .ok (some (base58Bytes t)) := by
  rw [decodeBase58String, takeWhile_ne_nul base58, decodeBase58_eq base58]

/-- On every string of base58 characters, `decode_base58` returns `true` with the bytes the
string stands for, and `keyops` writes the same bytes, with one zero byte more when the string
spells zero. -/
theorem base58_decoders_agree {t : List Char} (base58 : IsBase58 t) :
    decodeBase58String t = .ok (some (base58Bytes t)) ∧
      Keyops.decodeBase58 t t.length = base58Bytes t ++ if base58Value t = 0 then [0] else [] :=
  ⟨decodeBase58String_eq base58, Keyops.decodeBase58_eq_append base58⟩

theorem base58_decoders_agree_on_abcd :
    decodeBase58String "13VNr6P".toList = .ok (some [0, 0x61, 0x62, 0x63, 0x64]) ∧
      Keyops.decodeBase58 "13VNr6P".toList 7 = [0, 0x61, 0x62, 0x63, 0x64] := by
  have agree := base58_decoders_agree (t := "13VNr6P".toList) (by decide)
  have bytes : base58Bytes "13VNr6P".toList = [0, 0x61, 0x62, 0x63, 0x64] := by decide
  have positive : base58Value "13VNr6P".toList ≠ 0 := by decide
  rw [bytes, if_neg positive, List.append_nil] at agree
  exact agree

theorem getD_alphabet_mem (d : Nat) : base58Alphabet.getD d '1' ∈ base58Alphabet := by
  by_cases inside : d < base58Alphabet.length
  · rw [List.getD_eq_getElem _ _ inside]
    exact List.getElem_mem inside
  · rw [List.getD_eq_default _ _ (by omega)]
    decide

theorem base58Digit_getD : ∀ d < 58, base58Digit (base58Alphabet.getD d '1') = d := by decide

theorem getD_alphabet_ne_one : ∀ d < 58, 0 < d → base58Alphabet.getD d '1' ≠ '1' := by decide

/-- The digits of a number as characters, most significant first: none is a leading `1`. -/
theorem takeWhile_digitChars (v : Nat) :
    ((Nat.digits 58 v).reverse.map fun d => base58Alphabet.getD d '1').takeWhile (· = '1') = [] := by
  rcases Nat.eq_zero_or_pos v with rfl | positive
  · simp
  · have nonempty : Nat.digits 58 v ≠ [] := Nat.digits_ne_nil_iff_ne_zero.2 (by omega)
    have top := Nat.getLast_digit_ne_zero 58 (m := v) (by omega)
    have below := Nat.digits_lt_base (b := 58) (by norm_num) (List.getLast_mem nonempty)
    rw [← List.dropLast_append_getLast nonempty, List.reverse_append, List.reverse_singleton,
      List.singleton_append, List.map_cons, List.takeWhile_cons_of_neg]
    simpa using getD_alphabet_ne_one _ below (Nat.pos_of_ne_zero top)

theorem dropWhile_digitChars (v : Nat) :
    ((Nat.digits 58 v).reverse.map fun d => base58Alphabet.getD d '1').dropWhile (· = '1') =
      (Nat.digits 58 v).reverse.map fun d => base58Alphabet.getD d '1' := by
  conv_rhs => rw [← List.takeWhile_append_dropWhile (p := fun c => decide (c = '1'))
    (l := (Nat.digits 58 v).reverse.map fun d => base58Alphabet.getD d '1')]
  rw [takeWhile_digitChars, List.nil_append]

theorem base58Value_digitChars (v : Nat) :
    base58Value ((Nat.digits 58 v).reverse.map fun d => base58Alphabet.getD d '1') = v := by
  have back : ∀ d ∈ (Nat.digits 58 v).reverse, base58Digit (base58Alphabet.getD d '1') = d :=
    fun d mem => base58Digit_getD d (Nat.digits_lt_base (by norm_num) (List.mem_reverse.1 mem))
  rw [base58Value, List.map_map, List.map_congr_left (f := base58Digit ∘ fun d => base58Alphabet.getD d '1') (g := id)
    back, List.map_id, List.reverse_reverse, Nat.ofDigits_digits]

section Encode

variable (bytes : List UInt8)

theorem isBase58_encodeBase58 : IsBase58 (encodeBase58 bytes) := by
  intro c mem
  rcases List.mem_append.1 mem with ones | digit
  · rw [List.eq_of_mem_replicate ones]
    decide
  · obtain ⟨d, -, rfl⟩ := List.mem_map.1 digit
    exact getD_alphabet_mem d

/-- The bytes after the leading zeros are the digits of the number they spell. -/
theorem digits_dropWhile_zero :
    Nat.digits 256 (Nat.ofDigits 256 ((bytes.dropWhile (· = 0)).map UInt8.toNat).reverse) =
      ((bytes.dropWhile (· = 0)).map UInt8.toNat).reverse := by
  apply Nat.digits_ofDigits 256 (by norm_num)
  · intro d mem
    obtain ⟨x, -, rfl⟩ := List.mem_map.1 (List.mem_reverse.1 mem)
    exact x.toNat_lt
  · intro nonempty
    have rest : bytes.dropWhile (· = 0) ≠ [] := by simpa using nonempty
    have head := List.head_dropWhile_not (fun x : UInt8 => decide (x = 0)) rest
    rw [List.getLast_reverse, List.head_map]
    simpa [← UInt8.toNat_inj] using head

theorem base58Value_encodeBase58 :
    base58Value (encodeBase58 bytes) = Nat.ofDigits 256 ((bytes.dropWhile (· = 0)).map UInt8.toNat).reverse := by
  rw [← base58Value_dropWhile_one (isBase58_encodeBase58 bytes), encodeBase58]
  rw [List.dropWhile_append, List.dropWhile_replicate, if_pos (by simp), dropWhile_digitChars,
    base58Value_digitChars]

/-- The strings `encodeBase58` writes stand for the bytes encoded. -/
theorem base58Bytes_encodeBase58 : base58Bytes (encodeBase58 bytes) = bytes := by
  have zeros : bytes.takeWhile (· = 0) = List.replicate (bytes.takeWhile (· = 0)).length 0 :=
    List.eq_replicate_iff.2 ⟨rfl, fun x mem => by simpa using List.mem_takeWhile_imp mem⟩
  have ones : (encodeBase58 bytes).takeWhile (· = '1') = List.replicate (bytes.takeWhile (· = 0)).length '1' := by
    rw [encodeBase58]
    rw [List.takeWhile_append_of_pos (by simp), takeWhile_digitChars, List.append_nil]
  rw [base58Bytes, ones, List.length_replicate, base58Value_encodeBase58, digits_dropWhile_zero, List.reverse_reverse,
    List.map_map, ← zeros]
  conv_rhs => rw [← List.takeWhile_append_dropWhile (p := fun x : UInt8 => decide (x = 0)) (l := bytes)]
  congr 1
  conv_rhs => rw [← List.map_id (bytes.dropWhile (· = 0))]
  congr 1
  funext x
  simp

theorem base58Value_encodeBase58_eq_zero_iff : base58Value (encodeBase58 bytes) = 0 ↔ ∀ x ∈ bytes, x = 0 := by
  rw [base58Value_encodeBase58, ← Nat.digits_eq_nil_iff_eq_zero, digits_dropWhile_zero]
  simp [List.dropWhile_eq_nil_iff]

/-- Decoding what `encodeBase58` writes gives the bytes back, with either decoder; the `keyops`
decoder gives one zero byte more when every byte is zero. -/
theorem base58_round_trip :
    decodeBase58String (encodeBase58 bytes) = .ok (some bytes) ∧
      Keyops.decodeBase58 (encodeBase58 bytes) (encodeBase58 bytes).length =
        bytes ++ if ∀ x ∈ bytes, x = 0 then [0] else [] := by
  have base58 := isBase58_encodeBase58 bytes
  rw [decodeBase58String_eq base58, Keyops.decodeBase58_eq_append base58, base58Bytes_encodeBase58]
  exact ⟨rfl, by simp only [base58Value_encodeBase58_eq_zero_iff]⟩

end Encode

end Fioio

end Fio.Chain
