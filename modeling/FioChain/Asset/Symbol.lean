import FioChain.Asset.Read
import Mathlib.Data.Nat.Digits.Lemmas

/-! The bytes of a symbol. `symbol::name` reads the base-256 digits of the value above its low
byte, lowest first, and `string_to_symbol` writes a name's characters back into those bytes;
so a valid symbol is determined by its precision and its name. -/

namespace Fio.Chain

theorem toNat_ofNat_byte {b : Nat} (small : b < 256) : (Char.ofNat b).toNat = b := by
  rw [Char.toNat_ofNat, if_pos (Or.inl (by omega))]

theorem toNat_and_byte (v : UInt64) : (v &&& 0xFF).toNat = v.toNat % 256 := by
  rw [UInt64.toNat_and, show (0xFF : UInt64).toNat = 2 ^ 8 - 1 from rfl, Nat.and_two_pow_sub_one_eq_mod]

theorem toNat_shiftRight_byte (v : UInt64) : (v >>> 8).toNat = v.toNat / 256 := by
  rw [UInt64.toNat_shiftRight, show (8 : UInt64).toNat % 64 = 8 from rfl, Nat.shiftRight_eq_div_pow]

/-- With enough fuel the loop of `symbol::name` reads the base-256 digits of `v`. -/
theorem nameLoop_eq_digits (fuel : Nat) (v : UInt64) (fits : v.toNat < 256 ^ fuel) :
    nameLoop fuel v = (Nat.digits 256 v.toNat).map Char.ofNat := by
  induction fuel generalizing v with
  | zero =>
    have empty : v.toNat = 0 := by simpa using fits
    simp [nameLoop, empty]
  | succ fuel ih =>
    rw [nameLoop]
    split
    case isTrue positive =>
      have rest : (v >>> 8).toNat < 256 ^ fuel := by
        rw [toNat_shiftRight_byte]
        rw [pow_succ] at fits
        omega
      rw [Nat.digits_def' (by decide) (UInt64.lt_iff_toNat_lt.mp positive), List.map_cons, toNat_and_byte,
        ih _ rest, toNat_shiftRight_byte]
    case isFalse zero =>
      have empty : v.toNat = 0 := Nat.eq_zero_of_not_pos fun positive => zero (UInt64.lt_iff_toNat_lt.mpr positive)
      simp [empty]

theorem symbolName_eq (value : UInt64) :
    symbolName value = (Nat.digits 256 (value.toNat / 256)).map Char.ofNat := by
  have fits : (value >>> 8).toNat < 256 ^ 7 := by
    have := value.toNat_lt
    rw [toNat_shiftRight_byte, show (2 : Nat) ^ 64 = 256 ^ 7 * 256 from rfl] at *
    omega
  rw [symbolName, nameLoop_eq_digits 7 _ fits, toNat_shiftRight_byte]

theorem map_toNat_symbolName (value : UInt64) :
    (symbolName value).map Char.toNat = Nat.digits 256 (value.toNat / 256) := by
  rw [symbolName_eq, List.map_map]
  exact (List.map_congr_left fun b mem => toNat_ofNat_byte (Nat.digits_lt_base (by decide) mem)).trans
    (List.map_id _)

theorem length_symbolName_le (value : UInt64) : (symbolName value).length ≤ 7 := by
  rw [symbolName_eq, List.length_map, Nat.digits_length_le_iff (by decide)]
  have := value.toNat_lt
  rw [show (2 : Nat) ^ 64 = 256 ^ 7 * 256 from rfl] at this
  omega

theorem toNat_symbolDecimals (value : UInt64) : (symbolDecimals value).toNat = value.toNat % 256 := by
  rw [symbolDecimals, UInt64.toNat_toUInt8, toNat_and_byte]
  omega

/-- A value is its low byte and, above it, the bytes of its name. -/
theorem toNat_eq_decimals_name (value : UInt64) :
    value.toNat = (symbolDecimals value).toNat + 256 * Nat.ofDigits 256 ((symbolName value).map Char.toNat) := by
  rw [map_toNat_symbolName, Nat.ofDigits_digits, toNat_symbolDecimals]
  omega

theorem Symbol.decimals_le (s : Symbol) : s.decimals.toNat ≤ 18 := by
  have valid := s.valid
  simp only [symbolValid, Bool.and_eq_true, decide_eq_true_eq, UInt8.le_iff_toNat_le] at valid
  exact valid.1

theorem Symbol.validName_name (s : Symbol) : validName s.name = true := by
  have valid := s.valid
  simp only [symbolValid, Bool.and_eq_true] at valid
  exact valid.2

/-- Two symbols with the same precision and name are the same symbol. -/
theorem Symbol.ext_of {s₁ s₂ : Symbol} (decimals : s₁.decimals = s₂.decimals) (name : s₁.name = s₂.name) :
    s₁ = s₂ := by
  obtain ⟨v₁, _⟩ := s₁
  obtain ⟨v₂, _⟩ := s₂
  simp only [Symbol.decimals, Symbol.name] at decimals name
  have same : v₁.toNat = v₂.toNat := by
    rw [toNat_eq_decimals_name v₁, toNat_eq_decimals_name v₂, decimals, name]
  cases UInt64.toNat_inj.mp same
  rfl

/-! ### Writing a name -/

theorem isUpper_of_validName {name : List Char} (letters : validName name = true) {c : Char} (mem : c ∈ name) :
    'A' ≤ c ∧ c ≤ 'Z' := by
  have := List.all_eq_true.mp letters c mem
  simpa only [Bool.and_eq_true, decide_eq_true_eq] using this

theorem toNat_lt_of_isUpper {c : Char} (upper : 'A' ≤ c ∧ c ≤ 'Z') : 0 < c.toNat ∧ c.toNat < 256 := by
  simp only [Char.le_def, UInt32.le_iff_toNat_le] at upper
  have low : 'A'.val.toNat = 65 := rfl
  have high : 'Z'.val.toNat = 90 := rfl
  simp only [Char.toNat]
  omega

/-- Or-ing a byte into byte `i + 1` of a value that has nothing above byte `i` adds it. -/
theorem toNat_or_byte {result : UInt64} {i : Nat} (room : i < 7) (below : result.toNat < 256 ^ (i + 1))
    {b : Nat} (small : b < 256) :
    (result ||| b.toUInt64 <<< (8 * (i + 1)).toUInt64).toNat = result.toNat + 256 ^ (i + 1) * b := by
  have shift : (8 * (i + 1)).toUInt64.toNat % 64 = 8 * (i + 1) := by
    rw [Nat.toUInt64_eq, UInt64.toNat_ofNat']
    omega
  have byte : b.toUInt64.toNat = b := by
    rw [Nat.toUInt64_eq, UInt64.toNat_ofNat']
    omega
  have power : (2 : Nat) ^ (8 * (i + 1)) = 256 ^ (i + 1) := by
    rw [pow_mul]
    rfl
  have fits : 256 ^ (i + 1) * b < 2 ^ 64 := by
    calc 256 ^ (i + 1) * b < 256 ^ (i + 1) * 256 := Nat.mul_lt_mul_of_pos_left small (by positivity)
      _ = 256 ^ (i + 2) := (pow_succ 256 (i + 1)).symm
      _ ≤ 256 ^ 8 := Nat.pow_le_pow_right (by decide) (by omega)
      _ = 2 ^ 64 := rfl
  rw [← power] at fits below
  rw [UInt64.toNat_or, UInt64.toNat_shiftLeft, shift, byte, Nat.shiftLeft_eq, Nat.mul_comm b,
    Nat.mod_eq_of_lt fits, Nat.or_comm, ← Nat.two_pow_add_eq_or_of_lt below, power]
  ring

/-- The loop of `string_to_symbol` over upper-case letters that fit below byte 8 writes their
bytes above byte `i`. -/
theorem stringToSymbolLoop_eq {name : List Char} (letters : validName name = true) {i : Nat}
    (room : i + name.length ≤ 7) {result : UInt64} (below : result.toNat < 256 ^ (i + 1)) :
    ∃ w, stringToSymbolLoop name i result = .ok w ∧
      w.toNat = result.toNat + 256 ^ (i + 1) * Nat.ofDigits 256 (name.map Char.toNat) := by
  induction name generalizing i result with
  | nil => exact ⟨result, rfl, by simp⟩
  | cons c rest ih =>
    have upper := isUpper_of_validName letters List.mem_cons_self
    have byte := (toNat_lt_of_isUpper upper).2
    have restLetters : validName rest = true := List.all_eq_true.mpr fun d mem =>
      List.all_eq_true.mp letters d (List.mem_cons_of_mem c mem)
    rw [List.length_cons] at room
    have written := toNat_or_byte (by omega) below byte
    have stillBelow : (result ||| c.toNat.toUInt64 <<< (8 * (i + 1)).toUInt64).toNat < 256 ^ (i + 1 + 1) := by
      rw [written, pow_succ 256 (i + 1)]
      nlinarith
    obtain ⟨w, loop, value⟩ := ih restLetters (by omega) stillBelow
    refine ⟨w, ?_, ?_⟩
    · rw [stringToSymbolLoop, if_pos upper]
      exact loop
    · rw [value, written, List.map_cons, Nat.ofDigits_cons, pow_succ 256 (i + 1)]
      ring

/-- `string_to_symbol` of a name of one to seven upper-case letters. -/
theorem stringToSymbol_eq {name : List Char} (letters : validName name = true) (short : name.length ≤ 7)
    (p : UInt8) : ∃ w, stringToSymbol p name = .ok w ∧
      w.toNat = p.toNat + 256 * Nat.ofDigits 256 (name.map Char.toNat) := by
  have whole : name.takeWhile (· ≠ Char.ofNat 0) = name := by
    rw [List.takeWhile_eq_self_iff]
    intro c mem
    have positive := (toNat_lt_of_isUpper (isUpper_of_validName letters mem)).1
    simp only [ne_eq, decide_eq_true_eq]
    intro zero
    rw [zero] at positive
    exact absurd positive (by decide)
  obtain ⟨w, loop, value⟩ := stringToSymbolLoop_eq letters (by omega) (show (0 : UInt64).toNat < 256 ^ 1 by decide)
  refine ⟨w ||| p.toUInt64, by rw [stringToSymbol, whole, loop]; rfl, ?_⟩
  have shifted : w.toNat = 2 ^ 8 * Nat.ofDigits 256 (name.map Char.toNat) := by
    rw [value]
    simp
  rw [UInt64.toNat_or, shifted, UInt8.toNat_toUInt64, ← Nat.two_pow_add_eq_or_of_lt p.toNat_lt]
  omega

/-- The name written by `string_to_symbol` reads back. -/
theorem symbolName_of_toNat {name : List Char} (letters : validName name = true) {w : UInt64} {p : Nat}
    (small : p < 256) (value : w.toNat = p + 256 * Nat.ofDigits 256 (name.map Char.toNat)) :
    symbolName w = name := by
  have bytes : ∀ b ∈ name.map Char.toNat, b < 256 := by
    intro b mem
    obtain ⟨c, letter, rfl⟩ := List.mem_map.mp mem
    exact (toNat_lt_of_isUpper (isUpper_of_validName letters letter)).2
  have lastNonzero : ∀ h : name.map Char.toNat ≠ [], (name.map Char.toNat).getLast h ≠ 0 := by
    intro h
    rw [List.getLast_map]
    exact Nat.pos_iff_ne_zero.mp (toNat_lt_of_isUpper (isUpper_of_validName letters (List.getLast_mem _))).1
  have above : w.toNat / 256 = Nat.ofDigits 256 (name.map Char.toNat) := by
    rw [value]
    omega
  rw [symbolName_eq, above, Nat.digits_ofDigits 256 (by decide) _ bytes lastNonzero, List.map_map]
  exact (List.map_congr_left fun c _ => Char.ofNat_toNat c).trans (List.map_id _)

/-! ### Reading a symbol -/

theorem toNat_ofInt_of_lt {k : Nat} (small : k < 256) : (UInt8.ofInt k).toNat = k := by
  rw [UInt8.ofInt, UInt8.toNat_ofNat', Int.emod_eq_of_lt (by omega) (by omega)]
  simp only [Int.toNat_natCast]
  omega

/-- The symbol a precision and a name of one to seven upper-case letters stand for, as
`symbol::operator string` prints them. -/
theorem fromString_symbolText {k : Nat} (fits : k ≤ 18) {name : List Char} (letters : validName name = true)
    (nonempty : name ≠ []) (short : name.length ≤ 7) :
    ∃ sym, Symbol.fromString (Nat.toDigits 10 k ++ ',' :: name) = .ok sym ∧ sym.decimals.toNat = k ∧
      sym.name = name := by
  set digits := Nat.toDigits 10 k
  have allDigits := Decimal.allDigits_toDigits k
  have trimmed : trim (digits ++ ',' :: name) = digits ++ ',' :: name := by
    apply trim_eq_self
    · intro c first
      rw [List.head?_append_of_ne_nil _ Nat.toDigits_ne_nil] at first
      exact isSpace_eq_false_of_isDigit (allDigits c (List.mem_of_mem_head? first))
    · intro c last
      rw [show digits ++ ',' :: name = (digits ++ [',']) ++ name by simp,
        List.getLast?_append_of_ne_nil _ nonempty] at last
      exact isSpace_eq_false_of_isUpper (isUpper_of_validName letters (List.mem_of_getLast? last))
  have comma : (digits ++ ',' :: name).idxOf? ',' = some digits.length :=
    ListSplit.idxOf?_append_cons fun mem => absurd (allDigits ',' mem) (by decide)
  have precision : toInt64 digits = .ok (k : Int) := by
    have := (@toInt64_eq_ok_iff [] digits (Or.inl rfl) Nat.toDigits_ne_nil allDigits k).mpr
    rw [List.nil_append] at this
    apply this
    refine ⟨by simp [signed, digits, Decimal.value_toDigits], by omega, by omega⟩
  have p : (UInt8.ofInt k).toNat = k := toNat_ofInt_of_lt (by omega)
  obtain ⟨w, written, value⟩ := stringToSymbol_eq letters short (UInt8.ofInt k)
  rw [p] at value
  have decimals : (symbolDecimals w).toNat = k := by
    rw [toNat_symbolDecimals, value]
    omega
  have readBack : symbolName w = name := symbolName_of_toNat letters (by omega) value
  have valid : symbolValid w = true := by
    simp only [symbolValid, Bool.and_eq_true, decide_eq_true_eq, UInt8.le_iff_toNat_le, decimals, readBack, letters]
    exact ⟨by simpa using fits, trivial⟩
  refine ⟨⟨w, valid⟩, ?_, decimals, readBack⟩
  have inRange : ¬UInt8.ofInt k > 18 := by
    rw [gt_iff_lt, UInt8.lt_iff_toNat_lt, p]
    simpa using fits
  have namePart : (digits ++ ',' :: name).drop (digits.length + 1) = name := by simp
  simp only [Symbol.fromString, trimmed, comma, List.take_left, if_neg (by simp : ¬(digits ++ ',' :: name).isEmpty = true),
    precision, bind, Except.bind, if_neg inRange, namePart, written, Symbol.ofValue, dif_pos valid]
  rfl

end Fio.Chain
