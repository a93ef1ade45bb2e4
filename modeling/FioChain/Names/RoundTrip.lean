import FioChain.Names.Model
import FioChain.Lib.MixedRadix
import FioChain.Lib.ListOrder

/-! A name is thirteen symbols, twelve of 5 bits and one of 4, read as big-endian digits of
its value (`MixedRadix` with the radices `nameRadices`). `name::operator string` writes the
digits of the value as characters of `charmap` and trims the trailing dots;
`string_to_name` reads the symbols of the characters back as digits. So the two are inverse
on the strings that `name::set` accepts, and since `charmap` is in increasing byte order and
a dot is symbol zero, comparing values is comparing strings. -/

namespace Fio.Chain

/-- `charmap[d]`, the character written for symbol `d`. -/
def charOf (d : Nat) : UInt8 := charmap.getD d '.'.toUInt8

/-- The symbol of a character, as a number. -/
def symbolOf (c : UInt8) : Nat := (charToSymbol c).toNat

/-! ### The symbol table -/

theorem length_charmap : charmap.length = 32 := by decide

theorem symbolOf_charOf : ∀ d < 32, symbolOf (charOf d) = d := by decide

theorem charOf_lt_charOf_iff : ∀ d₁ < 32, ∀ d₂ < 32, (charOf d₁ < charOf d₂ ↔ d₁ < d₂) := by decide

theorem charOf_ne_zero : ∀ d < 32, charOf d ≠ 0 := by decide

theorem charOf_eq_dot_iff : ∀ d < 32, (charOf d = '.'.toUInt8 ↔ d = 0) := by decide

theorem charOf_mem_take : ∀ d < 16, charOf d ∈ charmap.take 16 := by decide

theorem mem_charmap_iff {c : UInt8} : c ∈ charmap ↔ ∃ d < 32, charOf d = c := by
  rw [List.mem_iff_getElem]
  constructor
  · rintro ⟨d, lt, rfl⟩
    exact ⟨d, length_charmap ▸ lt, List.getD_eq_getElem _ _ lt⟩
  · rintro ⟨d, lt, rfl⟩
    exact ⟨d, length_charmap ▸ lt, (List.getD_eq_getElem _ _ (length_charmap ▸ lt)).symm⟩

theorem mem_take_iff {c : UInt8} : c ∈ charmap.take 16 ↔ ∃ d < 16, charOf d = c := by
  constructor
  · intro mem
    obtain ⟨d, lt, found⟩ := List.mem_iff_getElem.mp mem
    have short : d < 16 := by simpa [length_charmap] using lt
    refine ⟨d, short, ?_⟩
    rw [← found, List.getElem_take, charOf, List.getD_eq_getElem _ _ (by rw [length_charmap]; omega)]
  · rintro ⟨d, lt, rfl⟩
    exact charOf_mem_take d lt

section Member

variable {c c₁ c₂ : UInt8}

theorem charOf_symbolOf (mem : c ∈ charmap) : charOf (symbolOf c) = c := by
  obtain ⟨d, lt, rfl⟩ := mem_charmap_iff.mp mem
  rw [symbolOf_charOf d lt]

theorem symbolOf_lt (mem : c ∈ charmap) : symbolOf c < 32 := by
  obtain ⟨d, lt, rfl⟩ := mem_charmap_iff.mp mem
  rwa [symbolOf_charOf d lt]

theorem symbolOf_lt_sixteen (mem : c ∈ charmap.take 16) : symbolOf c < 16 := by
  obtain ⟨d, lt, rfl⟩ := mem_take_iff.mp mem
  rwa [symbolOf_charOf d (by omega)]

theorem symbolOf_lt_symbolOf_iff (mem₁ : c₁ ∈ charmap) (mem₂ : c₂ ∈ charmap) :
    symbolOf c₁ < symbolOf c₂ ↔ c₁ < c₂ := by
  obtain ⟨d₁, lt₁, rfl⟩ := mem_charmap_iff.mp mem₁
  obtain ⟨d₂, lt₂, rfl⟩ := mem_charmap_iff.mp mem₂
  rw [symbolOf_charOf d₁ lt₁, symbolOf_charOf d₂ lt₂, charOf_lt_charOf_iff d₁ lt₁ d₂ lt₂]

theorem symbolOf_eq_zero_iff (mem : c ∈ charmap) : symbolOf c = 0 ↔ c = '.'.toUInt8 := by
  obtain ⟨d, lt, rfl⟩ := mem_charmap_iff.mp mem
  rw [symbolOf_charOf d lt, charOf_eq_dot_iff d lt]

end Member

/-! ### `name::operator string` -/

/-- Twelve 5-bit symbols and a 4-bit one. -/
def nameRadices : List Nat := List.replicate 12 32 ++ [16]

theorem prod_nameRadices : nameRadices.prod = 2 ^ 64 := by decide

theorem nameRadices_pos : ∀ r ∈ nameRadices, 0 < r := by decide

/-- After the first iteration every iteration writes one 5-bit symbol, from the lowest. -/
theorem nameToStringLoop_eq (tmp : UInt64) {i : Nat} (later : i ≠ 0) (n : Nat) (str : List UInt8) :
    nameToStringLoop tmp i n str = (MixedRadix.digits (List.replicate n 32) tmp.toNat).map charOf ++ str := by
  induction n generalizing tmp i str with
  | zero => rfl
  | succ n ih =>
    rw [nameToStringLoop, if_neg later, if_neg later, ih _ (Nat.succ_ne_zero i), List.replicate_succ',
      MixedRadix.digits_append_singleton, List.map_append, List.map_singleton, List.append_assoc]
    simp only [UInt64.toNat_shiftRight, UInt64.toNat_and, Nat.shiftRight_eq_div_pow, charOf]
    rw [show UInt64.toNat 5 % 64 = 5 from rfl, show UInt64.toNat 31 = 2 ^ 5 - 1 from rfl,
      Nat.and_two_pow_sub_one_eq_mod]
    rfl

theorem toString_eq (n : Name) :
    n.toString = ((MixedRadix.digits nameRadices n.value.toNat).map charOf).rdropWhile (· = '.'.toUInt8) := by
  rw [Name.toString, nameToStringLoop, if_pos rfl, if_pos rfl, nameToStringLoop_eq _ (Nat.succ_ne_zero 0),
    nameRadices, MixedRadix.digits_append_singleton, List.map_append, List.map_singleton]
  simp only [UInt64.toNat_shiftRight, UInt64.toNat_and, Nat.shiftRight_eq_div_pow, charOf]
  rw [show UInt64.toNat 4 % 64 = 4 from rfl, show UInt64.toNat 15 = 2 ^ 4 - 1 from rfl,
    Nat.and_two_pow_sub_one_eq_mod]

/-- The thirteen characters before trimming: twelve 5-bit symbols of the value over 16, and
the value modulo 16. -/
theorem map_charOf_digits (v : Nat) :
    (MixedRadix.digits nameRadices v).map charOf =
      (MixedRadix.digits (List.replicate 12 32) (v / 16)).map charOf ++ [charOf (v % 16)] := by
  rw [nameRadices, MixedRadix.digits_append_singleton, List.map_append, List.map_singleton]

/-- What `name::set` accepts: at most 13 characters of `charmap`, a thirteenth among its first
16, and no trailing dot. -/
structure IsNameString (s : List UInt8) : Prop where
  length_le : s.length ≤ 13
  mem_charmap : ∀ c ∈ s, c ∈ charmap
  thirteenth : ∀ c, s[12]? = some c → c ∈ charmap.take 16
  last : s.getLast? ≠ some '.'.toUInt8

/-- Every string that `name::operator string` writes is one that `name::set` accepts. -/
theorem isNameString_toString (n : Name) : IsNameString n.toString := by
  rw [toString_eq, map_charOf_digits]
  set high := MixedRadix.digits (List.replicate 12 32) (n.value.toNat / 16)
  set written := high.map charOf ++ [charOf (n.value.toNat % 16)]
  have kept := List.rdropWhile_prefix (fun c => decide (c = '.'.toUInt8)) written
  have high_length : (high.map charOf).length = 12 := by simp [high]
  refine ⟨?_, fun c mem => ?_, fun c found => ?_, fun found => ?_⟩
  · simpa [written, high_length] using kept.length_le
  · -- every character is the character of a symbol below 32
    rcases List.mem_append.mp (kept.subset mem) with inHigh | inLow
    · obtain ⟨d, digit, rfl⟩ := List.mem_map.mp inHigh
      exact mem_charmap_iff.mpr ⟨d, MixedRadix.lt_of_mem_digits_replicate (by decide) digit, rfl⟩
    · rw [List.mem_singleton.mp inLow]
      exact mem_charmap_iff.mpr ⟨_, by omega, rfl⟩
  · -- the thirteenth character is the one of the low symbol, below 16
    rw [List.prefix_iff_eq_take.mp kept, List.getElem?_take] at found
    split at found
    · rw [List.getElem?_append_right (by rw [high_length]), high_length, Nat.sub_self] at found
      rw [← Option.some.inj found]
      exact charOf_mem_take _ (Nat.mod_lt _ (by decide))
    · cases found
  · -- trimming leaves no dot at the end
    have nonempty : written.rdropWhile (fun c => decide (c = '.'.toUInt8)) ≠ [] := by
      intro empty
      rw [empty] at found
      cases found
    rw [List.getLast?_eq_some_getLast nonempty] at found
    exact List.rdropWhile_last_not _ _ nonempty (decide_eq_true (Option.some.inj found))

theorem toString_nonzero (n : Name) : ∀ c ∈ n.toString, c ≠ 0 := by
  intro c mem
  obtain ⟨d, lt, rfl⟩ := mem_charmap_iff.mp ((isNameString_toString n).mem_charmap c mem)
  exact charOf_ne_zero d lt

/-- `name::operator string` followed by `c_str()`. -/
def Name.toCString (n : Name) : CString := ⟨n.toString, toString_nonzero n⟩

/-! ### `string_to_name` -/

/-- The digits `string_to_name` packs: the symbols of the first twelve bytes, zero for the
slots past the end, and the symbol of the thirteenth byte (or of the terminator) in 4 bits. -/
def nameDigits (str : CString) : List Nat :=
  (str.bytes.take 12).map (fun c => symbolOf c % 32) ++ List.replicate (12 - min str.bytes.length 12) 0 ++
    [symbolOf (str.get 12) % 16]

/-- One iteration of the loop: a symbol is ORed into the slot below the filled ones, which
adds it as the next base-32 digit. -/
theorem or_slot_toNat {acc : UInt64} {Q i : Nat} (slot : i < 12) (filled : acc.toNat = Q * 2 ^ (64 - 5 * i))
    (c : UInt8) :
    (acc ||| (charToSymbol c &&& 0x1f) <<< (64 - 5 * (i + 1)).toUInt64).toNat =
      (Q * 32 + symbolOf c % 32) * 2 ^ (64 - 5 * (i + 1)) := by
  have shift : (64 - 5 * (i + 1)).toUInt64.toNat % 64 = 64 - 5 * (i + 1) := by
    rw [Nat.toUInt64_eq, UInt64.toNat_ofNat']
    omega
  have masked : (charToSymbol c &&& 0x1f).toNat = symbolOf c % 32 := by
    rw [UInt64.toNat_and, show (0x1f : UInt64).toNat = 2 ^ 5 - 1 from rfl, Nat.and_two_pow_sub_one_eq_mod]
    rfl
  set e := 64 - 5 * (i + 1)
  have wider : 64 - 5 * i = e + 5 := by omega
  have below : symbolOf c % 32 * 2 ^ e < 2 ^ (e + 5) := by
    rw [Nat.pow_add, Nat.mul_comm (2 ^ e)]
    exact Nat.mul_lt_mul_of_pos_right (Nat.mod_lt _ (by decide)) (Nat.two_pow_pos e)
  have fits : 2 ^ (e + 5) ≤ 2 ^ 64 := Nat.pow_le_pow_right (by decide) (by omega)
  rw [UInt64.toNat_or, UInt64.toNat_shiftLeft, shift, masked, Nat.shiftLeft_eq, Nat.mod_eq_of_lt (by omega),
    filled, wider, Nat.mul_comm Q, ← Nat.two_pow_add_eq_or_of_lt below, Nat.pow_add]
  ring

/-- The loop from slot `i` over the bytes left fills `min (bytes left) (12 - i)` more slots. -/
theorem stringToNameLoop_spec (rest : List UInt8) {i Q : Nat} {acc : UInt64} (slot : i ≤ 12)
    (filled : acc.toNat = Q * 2 ^ (64 - 5 * i)) :
    (stringToNameLoop rest i acc).2 = i + min rest.length (12 - i) ∧
      (stringToNameLoop rest i acc).1.toNat =
        (Q * 32 ^ min rest.length (12 - i) + MixedRadix.value (List.replicate (min rest.length (12 - i)) 32)
          ((rest.take (min rest.length (12 - i))).map fun c => symbolOf c % 32)) *
          2 ^ (64 - 5 * (i + min rest.length (12 - i))) := by
  induction rest generalizing i Q acc with
  | nil => simpa [stringToNameLoop, MixedRadix.value] using filled
  | cons c rest ih =>
    by_cases open_slot : i < 12
    · -- the byte fills slot `i`, and the loop goes on from slot `i + 1`
      obtain ⟨position, packed⟩ := ih (by omega) (or_slot_toNat open_slot filled c)
      have more : min (rest.length + 1) (12 - i) = min rest.length (12 - (i + 1)) + 1 := by omega
      rw [stringToNameLoop, if_pos open_slot, List.length_cons, more]
      refine ⟨by rw [position]; omega, ?_⟩
      rw [packed, List.take_succ_cons, List.map_cons, List.replicate_succ, MixedRadix.value, List.prod_replicate,
        show i + 1 + min rest.length (12 - (i + 1)) = i + (min rest.length (12 - (i + 1)) + 1) by omega]
      ring
    · have full : i = 12 := by omega
      subst full
      simpa [stringToNameLoop, MixedRadix.value] using filled

theorem symbolOf_zero : symbolOf 0 = 0 := by decide

theorem stringToName_toNat (str : CString) :
    (stringToName str).toNat = MixedRadix.value nameRadices (nameDigits str) := by
  obtain ⟨position, packed⟩ := @stringToNameLoop_spec str.bytes 0 0 0 (Nat.zero_le 12) (by simp)
  simp only [Nat.sub_zero, Nat.zero_mul, Nat.zero_add] at position packed
  rw [stringToName, nameDigits]
  by_cases long : 12 ≤ str.bytes.length
  · -- twelve slots filled; the thirteenth byte goes into the low 4 bits
    have twelve : min str.bytes.length 12 = 12 := by omega
    rw [twelve] at position packed
    have low : (charToSymbol (str.get 12) &&& 0x0F).toNat = symbolOf (str.get 12) % 16 := by
      rw [UInt64.toNat_and, show (0x0F : UInt64).toNat = 2 ^ 4 - 1 from rfl, Nat.and_two_pow_sub_one_eq_mod]
      rfl
    have aligned : ((str.bytes.take 12).map fun c => symbolOf c % 32).length = (List.replicate 12 32).length := by
      simp only [List.length_map, List.length_take, List.length_replicate]
      omega
    rw [if_pos position, UInt64.toNat_or, packed, low, twelve, Nat.sub_self, List.replicate_zero, List.append_nil,
      nameRadices, MixedRadix.value_append aligned, show 64 - 5 * 12 = 4 from rfl, Nat.mul_comm _ (2 ^ 4),
      ← Nat.two_pow_add_eq_or_of_lt (Nat.mod_lt _ (by decide))]
    simp [MixedRadix.value, Nat.mul_comm]
  · -- the bytes end early: the slots past them, and the low 4 bits, stay zero
    have short : min str.bytes.length 12 = str.bytes.length := by omega
    rw [short] at position packed
    rw [List.take_length] at packed
    have terminator : str.get 12 = 0 := List.getD_eq_default _ _ (by omega)
    have aligned : (str.bytes.map fun c => symbolOf c % 32).length = (List.replicate str.bytes.length 32).length := by
      simp
    have radices : nameRadices = List.replicate str.bytes.length 32 ++
        (List.replicate (12 - str.bytes.length) 32 ++ [16]) := by
      rw [nameRadices, ← List.append_assoc, List.replicate_append_replicate, Nat.add_sub_cancel' (by omega)]
    have zeros : List.replicate (12 - str.bytes.length) 0 ++ [0] = List.replicate (13 - str.bytes.length) 0 := by
      rw [← List.replicate_succ']
      congr 1
      omega
    have scale : 2 ^ (64 - 5 * str.bytes.length) = (List.replicate (12 - str.bytes.length) 32 ++ [16]).prod := by
      rw [List.prod_append, List.prod_replicate, List.prod_singleton,
        show 64 - 5 * str.bytes.length = 5 * (12 - str.bytes.length) + 4 by omega, Nat.pow_add, Nat.pow_mul]
    rw [if_neg (by omega), packed, terminator, symbolOf_zero, Nat.zero_mod, short,
      List.take_of_length_le (by omega), List.append_assoc, zeros, radices, MixedRadix.value_append aligned,
      MixedRadix.value_replicate_zero, Nat.add_zero, scale]

theorem valid_nameDigits (str : CString) : MixedRadix.Valid nameRadices (nameDigits str) := by
  have taken : ((str.bytes.take 12).map fun c => symbolOf c % 32).length = min str.bytes.length 12 := by
    simp [Nat.min_comm]
  have radices : nameRadices = (List.replicate (min str.bytes.length 12) 32 ++
      List.replicate (12 - min str.bytes.length 12) 32) ++ [16] := by
    rw [nameRadices, List.replicate_append_replicate, Nat.add_sub_cancel' (by omega)]
  have zeros := MixedRadix.valid_replicate
    (fun d (mem : d ∈ List.replicate (12 - min str.bytes.length 12) 0) => (List.eq_of_mem_replicate mem) ▸
      (by decide : 0 < 32))
  rw [List.length_replicate] at zeros
  rw [radices, nameDigits, ← taken]
  refine MixedRadix.valid_append (MixedRadix.valid_append (MixedRadix.valid_replicate ?_) (taken ▸ zeros))
    (.cons (Nat.mod_lt _ (by decide)) .nil)
  intro d mem
  obtain ⟨c, -, rfl⟩ := List.mem_map.mp mem
  exact Nat.mod_lt _ (by decide)

/-! ### The strings `name::set` accepts -/

section Accepted

variable {str : CString} (valid : IsNameString str.bytes)
include valid

/-- The digits of an accepted string are its symbols, padded with zeros. -/
theorem nameDigits_eq : nameDigits str = str.bytes.map symbolOf ++ List.replicate (13 - str.bytes.length) 0 := by
  have below : ∀ c ∈ str.bytes, symbolOf c % 32 = symbolOf c :=
    fun c mem => Nat.mod_eq_of_lt (symbolOf_lt (valid.mem_charmap c mem))
  rw [nameDigits]
  by_cases full : str.bytes.length = 13
  · -- thirteen bytes: the last is among the first 16 characters and fits the 4 low bits
    obtain ⟨x, thirteenth⟩ : ∃ x, str.bytes[12]? = some x := ⟨_, List.getElem?_eq_getElem (by omega)⟩
    have split : str.bytes = str.bytes.take 12 ++ [x] := by
      calc str.bytes = str.bytes.take 13 := (List.take_of_length_le (by omega)).symm
        _ = str.bytes.take 12 ++ [x] := by rw [List.take_add_one, thirteenth]; rfl
    have last : str.get 12 = x := by
      rw [CString.get, List.getD_eq_getElem?_getD, thirteenth]
      rfl
    have low : symbolOf x % 16 = symbolOf x := Nat.mod_eq_of_lt (symbolOf_lt_sixteen (valid.thirteenth x thirteenth))
    rw [last, low, full, show min 13 12 = 12 from rfl]
    simp only [Nat.sub_self, List.replicate_zero, List.append_nil]
    rw [List.map_congr_left fun c mem => below c ((List.take_subset 12 str.bytes) mem)]
    conv_rhs => rw [split]
    rw [List.map_append, List.map_singleton]
  · have short : str.bytes.length ≤ 12 := by
      have := valid.length_le
      omega
    have terminator : str.get 12 = 0 := List.getD_eq_default _ _ (by omega)
    rw [List.take_of_length_le short, List.map_congr_left below, terminator, symbolOf_zero, Nat.zero_mod,
      Nat.min_eq_left short, List.append_assoc, ← List.replicate_succ', show 12 - str.bytes.length + 1 =
        13 - str.bytes.length by omega]

theorem toString_stringToName : Name.toString ⟨stringToName str⟩ = str.bytes := by
  have back : str.bytes.map (charOf ∘ symbolOf) = str.bytes :=
    (List.map_congr_left fun c mem => charOf_symbolOf (valid.mem_charmap c mem)).trans (List.map_id _)
  rw [toString_eq, stringToName_toNat, MixedRadix.digits_value nameRadices_pos (valid_nameDigits str),
    nameDigits_eq valid, List.map_append, List.map_map, back, List.map_replicate, show charOf 0 = '.'.toUInt8 by decide]
  exact ListOrder.rdropWhile_append_replicate valid.last _

theorem set_eq_ok : Name.set str = .ok ⟨stringToName str⟩ := by
  have fits : min str.bytes.length 14 ≤ 13 := by
    have := valid.length_le
    omega
  simp [Name.set, fits, toString_stringToName valid]
  rfl

end Accepted

theorem isNameString_of_set {str : CString} {n : Name} (ok : Name.set str = .ok n) :
    IsNameString str.bytes ∧ n.toString = str.bytes := by
  simp only [Name.set] at ok
  split at ok
  · cases ok
  · split at ok
    · cases ok
    · rename_i normalized
      cases ok
      rw [not_not] at normalized
      exact ⟨normalized ▸ isNameString_toString _, normalized⟩

theorem lt_of_mem_digits {v d : Nat} (mem : d ∈ MixedRadix.digits nameRadices v) : d < 32 := by
  rw [nameRadices, MixedRadix.digits_append_singleton, List.mem_append, List.mem_singleton] at mem
  rcases mem with high | rfl
  · exact MixedRadix.lt_of_mem_digits_replicate (by decide) high
  · omega

/-- Reading back the string written for a name gives its digits: the trimmed dots are the
zero symbols of the padding. -/
theorem nameDigits_toCString (n : Name) : nameDigits n.toCString = MixedRadix.digits nameRadices n.value.toNat := by
  set written := (MixedRadix.digits nameRadices n.value.toNat).map charOf
  have padded := ListOrder.rdropWhile_append_replicate_eq written '.'.toUInt8
  have length_written : written.length = 13 := by simp [written, nameRadices]
  rw [← toString_eq, length_written] at padded
  have back : written.map symbolOf = MixedRadix.digits nameRadices n.value.toNat := by
    rw [List.map_map]
    exact (List.map_congr_left fun d mem => symbolOf_charOf d (lt_of_mem_digits mem)).trans (List.map_id _)
  rw [← padded, List.map_append, List.map_replicate, show symbolOf '.'.toUInt8 = 0 by decide] at back
  rw [nameDigits_eq (isNameString_toString n)]
  exact back

theorem stringToName_toCString (n : Name) : stringToName n.toCString = n.value := by
  apply UInt64.toNat_inj.mp
  rw [stringToName_toNat, nameDigits_toCString, MixedRadix.value_digits nameRadices_pos, prod_nameRadices,
    Nat.mod_eq_of_lt n.value.toNat_lt]

/-! ### Order -/

theorem symbols_lt_iff {s₁ s₂ : List UInt8} (valid₁ : IsNameString s₁) (valid₂ : IsNameString s₂) :
    s₁.map symbolOf < s₂.map symbolOf ↔ s₁ < s₂ :=
  ListOrder.map_lt_map_iff (fun _ _ (mem₁ : _ ∈ charmap) mem₂ => symbolOf_lt_symbolOf_iff mem₁ mem₂)
    (fun _ _ mem₁ mem₂ same => by rw [← charOf_symbolOf mem₁, ← charOf_symbolOf mem₂, same])
    valid₁.mem_charmap valid₂.mem_charmap

/-- The last symbol of an accepted string is not zero: it is not a dot. -/
theorem getLast?_symbols_ne_zero {s : List UInt8} (valid : IsNameString s) : (s.map symbolOf).getLast? ≠ some 0 := by
  rw [List.getLast?_map]
  intro found
  obtain ⟨c, last, zero⟩ := Option.map_eq_some_iff.mp found
  have dot := (symbolOf_eq_zero_iff (valid.mem_charmap c (List.mem_of_getLast? last))).mp zero
  exact valid.last (dot ▸ last)

theorem stringToName_lt_iff {s₁ s₂ : CString} (valid₁ : IsNameString s₁.bytes) (valid₂ : IsNameString s₂.bytes) :
    stringToName s₁ < stringToName s₂ ↔ s₁.bytes < s₂.bytes := by
  have length₁ : (s₁.bytes.map symbolOf).length = s₁.bytes.length := List.length_map _
  have length₂ : (s₂.bytes.map symbolOf).length = s₂.bytes.length := List.length_map _
  rw [UInt64.lt_iff_toNat_lt, stringToName_toNat, stringToName_toNat,
    MixedRadix.value_lt_value_iff (valid_nameDigits s₁) (valid_nameDigits s₂), nameDigits_eq valid₁,
    nameDigits_eq valid₂, ← length₁, ← length₂,
    ListOrder.append_replicate_lt_iff Nat.zero_le (length₁ ▸ valid₁.length_le) (length₂ ▸ valid₂.length_le)
      (getLast?_symbols_ne_zero valid₁) (getLast?_symbols_ne_zero valid₂)]
  exact symbols_lt_iff valid₁ valid₂

/-- The name encoding: every value comes back from its string; `name::set` accepts exactly
the strings of at most 13 characters of `charmap`, a thirteenth among its first 16 and no
trailing dot, and then writes them back unchanged; and it orders those strings as
`std::string` does. -/
theorem name_encoding_bijection :
    (∀ v : UInt64, Name.set (Name.toCString ⟨v⟩) = .ok ⟨v⟩) ∧
      (∀ str : CString, ((∃ n, Name.set str = .ok n) ↔ IsNameString str.bytes) ∧
        ∀ n, Name.set str = .ok n → n.toString = str.bytes) ∧
      ∀ s₁ s₂ : CString, IsNameString s₁.bytes → IsNameString s₂.bytes →
        (stringToName s₁ < stringToName s₂ ↔ s₁.bytes < s₂.bytes) := by
  refine ⟨fun v => ?_, fun str => ⟨⟨fun ⟨_, ok⟩ => (isNameString_of_set ok).1, fun valid => ?_⟩,
    fun _ ok => (isNameString_of_set ok).2⟩, fun _ _ valid₁ valid₂ => stringToName_lt_iff valid₁ valid₂⟩
  · rw [set_eq_ok (isNameString_toString ⟨v⟩), stringToName_toCString]
  · exact ⟨_, set_eq_ok valid⟩

end Fio.Chain
