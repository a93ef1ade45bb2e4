import FioChain.Asset.Symbol

/-! `asset::from_string` on the strings it is meant to read, and on what `asset::to_string`
prints. An `AssetText` is such a string cut into its parts; `asset::from_string` reads it
exactly when its amount, in units of the last digit, fits the constructor's range, and then
returns that amount with the symbol of its precision and name. -/

namespace Fio.Chain

/-- White space, an optionally signed decimal with a non-empty integer part and, after a dot,
one to eighteen digits, one space, one to seven upper-case letters, and white space. -/
structure AssetText where
  lead : List Char
  sign : List Char
  intDigits : List Char
  fraction : Option (List Char)
  name : List Char
  trail : List Char
  lead_spaces : ∀ c ∈ lead, isSpace c = true
  sign_ok : sign = [] ∨ sign = ['-'] ∨ sign = ['+']
  intDigits_ne_nil : intDigits ≠ []
  intDigits_digits : Decimal.AllDigits intDigits
  fraction_ok : ∀ f, fraction = some f → f ≠ [] ∧ f.length ≤ 18 ∧ Decimal.AllDigits f
  name_ne_nil : name ≠ []
  name_length_le : name.length ≤ 7
  name_valid : validName name = true
  trail_spaces : ∀ c ∈ trail, isSpace c = true

namespace AssetText

variable (d : AssetText)

/-- The dot and the digits after it. -/
def dotPart : List Char :=
  match d.fraction with
  | some f => '.' :: f
  | none => []

def amountStr : List Char := d.sign ++ d.intDigits ++ d.dotPart

def text : List Char := d.lead ++ (d.amountStr ++ ' ' :: d.name) ++ d.trail

def fractionDigits : List Char := d.fraction.getD []

def precision : Nat := d.fractionDigits.length

/-- The amount in units of the last digit: the decimal's exact value times `10 ^ precision`. -/
def scaled : Int := signed d.sign (Decimal.value d.intDigits * 10 ^ d.precision + Decimal.value d.fractionDigits)

theorem precision_le : d.precision ≤ 18 := by
  unfold precision fractionDigits
  cases fraction : d.fraction with
  | none => simp
  | some f => exact (d.fraction_ok f fraction).2.1

theorem fractionDigits_digits : Decimal.AllDigits d.fractionDigits := by
  unfold fractionDigits
  cases fraction : d.fraction with
  | none => exact fun _ absent => absurd absent List.not_mem_nil
  | some f => exact (d.fraction_ok f fraction).2.2

theorem mem_sign {c : Char} (mem : c ∈ d.sign) : c = '-' ∨ c = '+' := by
  rcases d.sign_ok with empty | minus | plus
  · rw [empty] at mem
    exact absurd mem List.not_mem_nil
  · rw [minus, List.mem_singleton] at mem
    exact Or.inl mem
  · rw [plus, List.mem_singleton] at mem
    exact Or.inr mem

/-- Every character of the amount is a sign, the dot or a digit. -/
theorem mem_amountStr {c : Char} (mem : c ∈ d.amountStr) : c = '-' ∨ c = '+' ∨ c = '.' ∨ c.isDigit = true := by
  simp only [amountStr, List.mem_append] at mem
  rcases mem with (inSign | inInt) | inDot
  · rcases d.mem_sign inSign with rfl | rfl
    · exact Or.inl rfl
    · exact Or.inr (Or.inl rfl)
  · exact Or.inr (Or.inr (Or.inr (d.intDigits_digits c inInt)))
  · unfold dotPart at inDot
    split at inDot
    case h_1 f fraction =>
      rcases List.mem_cons.mp inDot with rfl | inFraction
      · exact Or.inr (Or.inr (Or.inl rfl))
      · exact Or.inr (Or.inr (Or.inr ((d.fraction_ok f fraction).2.2 c inFraction)))
    case h_2 => exact absurd inDot List.not_mem_nil

theorem space_notMem_amountStr : ' ' ∉ d.amountStr := fun mem => by
  rcases d.mem_amountStr mem with same | same | same | digit
  all_goals first | exact absurd same (by decide) | exact absurd digit (by decide)

theorem trim_text : trim d.text = d.amountStr ++ ' ' :: d.name := by
  apply trim_padded d.lead_spaces d.trail_spaces
  · intro c first
    have split : d.amountStr ++ ' ' :: d.name = (d.sign ++ d.intDigits) ++ (d.dotPart ++ ' ' :: d.name) := by
      simp [amountStr]
    rw [split, List.head?_append_of_ne_nil _ (List.append_ne_nil_of_right_ne_nil d.sign d.intDigits_ne_nil)] at first
    rcases List.mem_append.mp (List.mem_of_mem_head? first) with inSign | inInt
    · rcases d.mem_sign inSign with rfl | rfl <;> rfl
    · exact isSpace_eq_false_of_isDigit (d.intDigits_digits c inInt)
  · intro c last
    rw [show d.amountStr ++ ' ' :: d.name = (d.amountStr ++ [' ']) ++ d.name by simp,
      List.getLast?_append_of_ne_nil _ d.name_ne_nil] at last
    exact isSpace_eq_false_of_isUpper (isUpper_of_validName d.name_valid (List.mem_of_getLast? last))

theorem trim_name : trim d.name = d.name := by
  apply trim_eq_self
  · intro c first
    exact isSpace_eq_false_of_isUpper (isUpper_of_validName d.name_valid (List.mem_of_mem_head? first))
  · intro c last
    exact isSpace_eq_false_of_isUpper (isUpper_of_validName d.name_valid (List.mem_of_getLast? last))

/-- Where `asset::from_string` finds the dot: after the sign and the integer digits. -/
theorem idxOf?_dot : d.amountStr.idxOf? '.' = d.fraction.map fun _ => (d.sign ++ d.intDigits).length := by
  have noDot : '.' ∉ d.sign ++ d.intDigits := fun mem => by
    rcases List.mem_append.mp mem with inSign | inInt
    · rcases d.mem_sign inSign with same | same <;> exact absurd same (by decide)
    · exact absurd (d.intDigits_digits '.' inInt) (by decide)
  unfold amountStr dotPart
  cases d.fraction with
  | some f => exact ListSplit.idxOf?_append_cons noDot
  | none => simpa using noDot

theorem dotPos_ne_last : d.amountStr.idxOf? '.' ≠ some (d.amountStr.length - 1) := by
  rw [idxOf?_dot]
  cases fraction : d.fraction with
  | none => simp
  | some f =>
    have nonempty := (d.fraction_ok f fraction).1
    have length : d.amountStr.length = (d.sign ++ d.intDigits).length + 1 + f.length := by
      simp [amountStr, dotPart, fraction]
      omega
    have : 0 < f.length := List.length_pos_iff.mpr nonempty
    simp only [Option.map_some, ne_eq, Option.some.injEq]
    omega

theorem precisionDigitStr_eq :
    Asset.precisionDigitStr d.amountStr (d.amountStr.idxOf? '.') = Nat.toDigits 10 d.precision := by
  rw [idxOf?_dot]
  unfold precision fractionDigits
  cases fraction : d.fraction with
  | none => rfl
  | some f =>
    simp only [Option.map_some, Asset.precisionDigitStr, amountStr, dotPart, fraction, Option.getD_some]
    congr 1
    simp
    omega

theorem head?_amountStr : d.amountStr.head? = some '-' ↔ d.sign = ['-'] := by
  obtain ⟨c, rest, digits⟩ := List.exists_cons_of_ne_nil d.intDigits_ne_nil
  have notMinus : c ≠ '-' := fun same => absurd (d.intDigits_digits c (digits ▸ List.mem_cons_self)) (same ▸ by decide)
  rcases d.sign_ok with empty | minus | plus
  · simp [amountStr, empty, digits, notMinus]
  · simp [amountStr, minus]
  · simp [amountStr, plus]

theorem parseAmount_eq_ok_iff {i f : Int} :
    Asset.parseAmount d.amountStr (d.amountStr.idxOf? '.') = .ok (i, f) ↔
      (i = signed d.sign (Decimal.value d.intDigits) ∧ -2 ^ 63 ≤ i ∧ i < 2 ^ 63) ∧
        f = signed d.sign (Decimal.value d.fractionDigits) := by
  rw [idxOf?_dot]
  unfold fractionDigits
  cases fraction : d.fraction with
  | none =>
    have whole : d.amountStr = d.sign ++ d.intDigits := by simp [amountStr, dotPart, fraction]
    have zero : signed d.sign 0 = 0 := by simp [signed]
    simp only [Option.map_none, Asset.parseAmount, ExceptFold.bind_eq_ok_iff, whole,
      toInt64_eq_ok_iff d.sign_ok d.intDigits_ne_nil d.intDigits_digits, Option.getD_none, Decimal.value_nil, zero]
    constructor
    · rintro ⟨a, read, returned⟩
      cases returned
      exact ⟨read, rfl⟩
    · rintro ⟨read, rfl⟩
      exact ⟨i, read, rfl⟩
  | some fr =>
    obtain ⟨nonempty, short, digits⟩ := d.fraction_ok fr fraction
    have split : d.amountStr = (d.sign ++ d.intDigits) ++ '.' :: fr := by simp [amountStr, dotPart, fraction]
    have below : Decimal.value fr < 10 ^ 18 :=
      lt_of_lt_of_le (Decimal.value_lt digits) (Nat.pow_le_pow_right (by decide) short)
    have readFraction : toInt64 fr = .ok (Decimal.value fr : Int) := by
      have read := (@toInt64_eq_ok_iff [] fr (Or.inl rfl) nonempty digits (Decimal.value fr)).mpr
      rw [List.nil_append] at read
      exact read ⟨by simp [signed], by omega, by omega⟩
    have negated : (if d.amountStr.head? = some '-' then safeInt64 (Decimal.value fr * -1)
        else pure (Decimal.value fr : Int) : Except Exception Int) = .ok (signed d.sign (Decimal.value fr)) := by
      by_cases minus : d.sign = ['-']
      · rw [if_pos (d.head?_amountStr.mpr minus), safeInt64_eq_ok_iff]
        simp only [signed, if_pos minus]
        omega
      · rw [if_neg (mt d.head?_amountStr.mp minus)]
        simp only [signed, if_neg minus]
        rfl
    have dropped : (d.amountStr).drop ((d.sign ++ d.intDigits).length + 1) = fr := by
      rw [split, show d.sign ++ d.intDigits ++ '.' :: fr = (d.sign ++ d.intDigits ++ ['.']) ++ fr by simp,
        show (d.sign ++ d.intDigits).length + 1 = (d.sign ++ d.intDigits ++ ['.']).length by simp; omega,
        List.drop_left]
    have taken : (d.amountStr).take (d.sign ++ d.intDigits).length = d.sign ++ d.intDigits := by
      rw [split, List.take_left]
    simp only [Option.map_some, Option.getD_some, Asset.parseAmount, ExceptFold.bind_eq_ok_iff, taken, dropped,
      toInt64_eq_ok_iff d.sign_ok d.intDigits_ne_nil d.intDigits_digits, readFraction, Except.ok.injEq,
      exists_eq_left']
    simp only [negated, Except.ok.injEq, exists_eq_left']
    constructor
    · rintro ⟨a, read, returned⟩
      cases returned
      exact ⟨read, rfl⟩
    · rintro ⟨read, rfl⟩
      exact ⟨i, read, rfl⟩

theorem signed_mul_add (sign : List Char) (I P F : Nat) :
    signed sign I * P + signed sign F = signed sign (I * P + F) := by
  unfold signed
  split <;> push_cast <;> ring

/-- An amount within the constructor's range leaves the integer part and its product with
the precision within the range of `int64_t`. -/
theorem ranges_of_bounded {sign : List Char} {I P F : Nat} (positive : 0 < P)
    (bounded : -maxAmount ≤ signed sign (I * P + F) ∧ signed sign (I * P + F) ≤ maxAmount) :
    (-2 ^ 63 ≤ signed sign I ∧ signed sign I < 2 ^ 63) ∧
      (-2 ^ 63 ≤ signed sign I * P ∧ signed sign I * P < 2 ^ 63) := by
  have grows : (I : Int) ≤ I * P := by exact_mod_cast Nat.le_mul_of_pos_right I positive
  have nonneg : (0 : Int) ≤ I := Int.natCast_nonneg I
  unfold signed maxAmount at *
  by_cases minus : sign = ['-']
  · simp only [if_pos minus, neg_mul] at bounded ⊢
    push_cast at bounded
    omega
  · simp only [if_neg minus] at bounded ⊢
    push_cast at bounded
    omega

/-- What `asset::from_string` returns for the text: the scaled amount with the symbol of the
text's precision and name, when the amount is within the constructor's range. -/
theorem fromString_text_eq_ok_iff :
    ∃ sym : Symbol, sym.decimals.toNat = d.precision ∧ sym.name = d.name ∧
      ∀ a, Asset.fromString d.text = .ok a ↔ a.amount = d.scaled ∧ a.sym = sym := by
  obtain ⟨sym, read, decimals, name⟩ :=
    fromString_symbolText d.precision_le d.name_valid d.name_ne_nil d.name_length_le
  refine ⟨sym, decimals, name, fun a => ?_⟩
  have precision : sym.precision = 10 ^ d.precision := by rw [Symbol.precision, decimals]
  have dropped : (d.amountStr ++ ' ' :: d.name).drop (d.amountStr.length + 1) = d.name := by
    rw [show d.amountStr ++ ' ' :: d.name = (d.amountStr ++ [' ']) ++ d.name by simp,
      show d.amountStr.length + 1 = (d.amountStr ++ [' ']).length by simp, List.drop_left]
  simp only [Asset.fromString, trim_text, ListSplit.idxOf?_append_cons d.space_notMem_amountStr, List.take_left,
    dropped, trim_name, if_neg d.dotPos_ne_last, precisionDigitStr_eq, read, ExceptFold.bind_eq_ok_iff,
    Except.ok.injEq, exists_eq_left', Prod.exists, parseAmount_eq_ok_iff, safeInt64_eq_ok_iff, make_eq_ok_iff,
    precision]
  constructor
  · rintro ⟨i, f, ⟨⟨rfl, -⟩, rfl⟩, m, ⟨rfl, -⟩, m', ⟨rfl, -⟩, amount, same⟩
    exact ⟨amount.trans (signed_mul_add _ _ _ _), same⟩
  · rintro ⟨amount, same⟩
    have bounded : -maxAmount ≤ d.scaled ∧ d.scaled ≤ maxAmount := amount ▸ a.inRange
    unfold scaled at bounded
    obtain ⟨intFits, productFits⟩ := ranges_of_bounded (Nat.pow_pos (by decide)) bounded
    have sum := signed_mul_add d.sign (Decimal.value d.intDigits) (10 ^ d.precision) (Decimal.value d.fractionDigits)
    unfold maxAmount at bounded
    refine ⟨_, _, ⟨⟨rfl, intFits⟩, rfl⟩, _, ⟨rfl, productFits⟩, _, ⟨rfl, ?_, ?_⟩, ?_, same⟩
    · rw [sum]
      omega
    · rw [sum]
      omega
    · rw [amount, sum]
      rfl

end AssetText

namespace Asset

/-- What `asset::to_string` prints, cut into its parts. -/
def textOf (a : Asset) (named : a.sym.name ≠ []) : AssetText where
  lead := []
  sign := if a.amount < 0 then ['-'] else []
  intDigits := Nat.toDigits 10 (a.amount.natAbs / a.sym.precision)
  fraction := if a.sym.decimals ≠ 0 then
      some ((Nat.toDigits 10 (a.sym.precision + a.amount.natAbs % a.sym.precision)).drop 1)
    else none
  name := a.sym.name
  trail := []
  lead_spaces := fun _ absent => absurd absent List.not_mem_nil
  sign_ok := by
    split
    · exact Or.inr (Or.inl rfl)
    · exact Or.inl rfl
  intDigits_ne_nil := Nat.toDigits_ne_nil
  intDigits_digits := Decimal.allDigits_toDigits _
  fraction_ok := by
    intro f fraction
    split at fraction
    case isTrue nonzero =>
      cases fraction
      have printed := @Decimal.toDigits_drop_one a.sym.decimals.toNat (a.amount.natAbs % a.sym.precision)
        (Nat.mod_lt _ (Nat.pow_pos (by decide)))
      have positive : a.sym.decimals.toNat ≠ 0 := fun zero => nonzero (UInt8.toNat_inj.mp zero)
      refine ⟨fun empty => positive ?_, ?_, fun c mem => Decimal.allDigits_toDigits _ c (List.mem_of_mem_drop mem)⟩
      · rw [← printed.1]
        exact List.length_eq_zero_iff.mpr empty
      · exact printed.1 ▸ a.sym.decimals_le
    case isFalse => cases fraction
  name_ne_nil := named
  name_length_le := length_symbolName_le _
  name_valid := a.sym.validName_name
  trail_spaces := fun _ absent => absurd absent List.not_mem_nil

variable (a : Asset) (named : a.sym.name ≠ [])

theorem toString_eq_text : a.toString = (a.textOf named).text := by
  by_cases zero : a.sym.decimals = 0
  · simp [toString, textOf, AssetText.text, AssetText.amountStr, AssetText.dotPart, zero]
  · simp [toString, textOf, AssetText.text, AssetText.amountStr, AssetText.dotPart, zero]

theorem precision_textOf : (a.textOf named).precision = a.sym.decimals.toNat := by
  by_cases zero : a.sym.decimals = 0
  · simp [textOf, AssetText.precision, AssetText.fractionDigits, zero]
  · simp only [textOf, AssetText.precision, AssetText.fractionDigits, if_pos zero, Option.getD_some]
    exact (@Decimal.toDigits_drop_one a.sym.decimals.toNat (a.amount.natAbs % a.sym.precision)
      (Nat.mod_lt _ (Nat.pow_pos (by decide)))).1

theorem scaled_textOf : (a.textOf named).scaled = a.amount := by
  have whole : a.amount.natAbs / a.sym.precision * a.sym.precision + a.amount.natAbs % a.sym.precision =
      a.amount.natAbs := Nat.div_add_mod' _ _
  have fraction : Decimal.value (a.textOf named).fractionDigits = a.amount.natAbs % a.sym.precision := by
    by_cases zero : a.sym.decimals = 0
    · simp [textOf, AssetText.fractionDigits, zero, Symbol.precision, Nat.mod_one]
    · simp only [textOf, AssetText.fractionDigits, if_pos zero, Option.getD_some]
      exact (@Decimal.toDigits_drop_one a.sym.decimals.toNat (a.amount.natAbs % a.sym.precision)
        (Nat.mod_lt _ (Nat.pow_pos (by decide)))).2
  have power : 10 ^ (a.textOf named).precision = a.sym.precision := by
    rw [precision_textOf, Symbol.precision]
  rw [AssetText.scaled, fraction, power]
  simp only [textOf, Decimal.value_toDigits, whole, signed]
  by_cases negative : a.amount < 0
  · rw [if_pos negative, if_pos rfl]
    omega
  · rw [if_neg negative, if_neg (by simp)]
    omega

include named in
/-- `asset::from_string` reads back what `asset::to_string` prints. -/
theorem fromString_toString : fromString a.toString = .ok a := by
  obtain ⟨sym, decimals, name, spec⟩ := (a.textOf named).fromString_text_eq_ok_iff
  have same : sym = a.sym :=
    Symbol.ext_of (UInt8.toNat_inj.mp (decimals.trans (precision_textOf a named))) name
  rw [toString_eq_text a named]
  exact (spec a).mpr ⟨(scaled_textOf a named).symm, same.symm⟩

end Asset

/-- `asset::from_string` and `asset::to_string` are inverse: every asset with a symbol name
comes back from its string, and a string of the intended form is read exactly when its scaled
amount has magnitude below `2^62`, as that amount with the symbol of its precision and name. -/
theorem asset_string_round_trip :
    (∀ a : Asset, a.sym.name ≠ [] → Asset.fromString a.toString = .ok a) ∧
      ∀ d : AssetText, ((∃ a, Asset.fromString d.text = .ok a) ↔ d.scaled.natAbs < 2 ^ 62) ∧
        ∀ a, Asset.fromString d.text = .ok a →
          a.amount = d.scaled ∧ a.sym.decimals.toNat = d.precision ∧ a.sym.name = d.name := by
  refine ⟨fun a named => Asset.fromString_toString a named, fun d => ?_⟩
  obtain ⟨sym, decimals, name, spec⟩ := d.fromString_text_eq_ok_iff
  refine ⟨⟨fun ⟨a, read⟩ => ?_, fun small => ?_⟩, fun a read => ?_⟩
  · have amount := ((spec a).mp read).1
    have := a.inRange
    unfold maxAmount at this
    omega
  · have inRange : -maxAmount ≤ d.scaled ∧ d.scaled ≤ maxAmount := by
      unfold maxAmount
      omega
    exact ⟨⟨d.scaled, sym, inRange⟩, (spec _).mpr ⟨rfl, rfl⟩⟩
  · obtain ⟨amount, rfl⟩ := (spec a).mp read
    exact ⟨amount, decimals, name⟩

/-- Strings outside that form are read too: a sign at the head of the fraction is taken as the
fraction's sign, and white space after the first space is skipped. -/
theorem fromString_reads_signed_fraction :
    (∃ a, Asset.fromString "1.-5 ABC".toList = .ok a ∧ a.amount = 95 ∧ a.sym.decimals = 2 ∧
      a.sym.name = "ABC".toList) ∧
    ∃ a, Asset.fromString "1  ABC".toList = .ok a ∧ a.amount = 1 ∧ a.sym.decimals = 0 ∧
      a.sym.name = "ABC".toList :=
  ⟨⟨_, rfl, rfl, rfl, rfl⟩, ⟨_, rfl, rfl, rfl, rfl⟩⟩

end Fio.Chain
