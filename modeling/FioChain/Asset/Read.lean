import FioChain.Asset.Model
import FioChain.Lib.ListSplit
import FioChain.Lib.ExceptFold

/-! What the primitives of `asset::from_string` do on the text they are given: `fc::trim` of a
string padded with white space, `fc::to_int64` of a sign and digits, and the range checks of
`fc::safe<int64_t>` and of the `asset` constructor. -/

namespace Fio.Chain

theorem mem_of_isSpace {c : Char} (space : isSpace c = true) :
    c = ' ' ∨ c = '\t' ∨ c = '\n' ∨ c = '\x0b' ∨ c = '\x0c' ∨ c = '\r' := by
  simp only [isSpace, Bool.or_eq_true, beq_iff_eq] at space
  rcases space with ((((same | same) | same) | same) | same) | same <;> simp [same]

theorem isSpace_eq_false_of_isDigit {c : Char} (digit : c.isDigit = true) : isSpace c = false := by
  cases space : isSpace c
  · rfl
  · rcases mem_of_isSpace space with rfl | rfl | rfl | rfl | rfl | rfl <;> exact absurd digit (by decide)

theorem isSpace_eq_false_of_isUpper {c : Char} (upper : 'A' ≤ c ∧ c ≤ 'Z') : isSpace c = false := by
  cases space : isSpace c
  · rfl
  · rcases mem_of_isSpace space with rfl | rfl | rfl | rfl | rfl | rfl <;> exact absurd upper (by decide)

/-- `fc::trim` of a string padded with white space is what stands between the padding. -/
theorem trim_padded {lead body trail : List Char} (leading : ∀ c ∈ lead, isSpace c = true)
    (trailing : ∀ c ∈ trail, isSpace c = true) (head : ∀ c, body.head? = some c → isSpace c = false)
    (last : ∀ c, body.getLast? = some c → isSpace c = false) : trim (lead ++ body ++ trail) = body :=
  ListSplit.strip_padded isSpace leading trailing head last

theorem trim_eq_self {body : List Char} (head : ∀ c, body.head? = some c → isSpace c = false)
    (last : ∀ c, body.getLast? = some c → isSpace c = false) : trim body = body := by
  have := @trim_padded [] body [] (fun _ absent => absurd absent List.not_mem_nil)
    (fun _ absent => absurd absent List.not_mem_nil) head last
  rwa [List.nil_append, List.append_nil] at this

/-! ### Numbers -/

/-- The value of digits after a sign: negated after `-`. -/
def signed (sign : List Char) (v : Nat) : Int := if sign = ['-'] then -(v : Int) else v

theorem toInt64_digits {digits : List Char} (nonempty : digits ≠ []) (allDigits : Decimal.AllDigits digits) :
    toInt64 digits = toInt64Digits false digits := by
  obtain ⟨c, rest, rfl⟩ := List.exists_cons_of_ne_nil nonempty
  have digit := allDigits c List.mem_cons_self
  have minus : c ≠ '-' := by
    rintro rfl
    exact absurd digit (by decide)
  have plus : c ≠ '+' := by
    rintro rfl
    exact absurd digit (by decide)
  unfold toInt64
  split
  case h_1 _ _ same => exact absurd (List.cons.inj same).1 minus
  case h_2 _ _ same => exact absurd (List.cons.inj same).1 plus
  case h_3 => rfl

/-- `fc::to_int64` of an optional sign and digits returns their value when it fits. -/
theorem toInt64_eq_ok_iff {sign digits : List Char} (signOk : sign = [] ∨ sign = ['-'] ∨ sign = ['+'])
    (nonempty : digits ≠ []) (allDigits : Decimal.AllDigits digits) {v : Int} :
    toInt64 (sign ++ digits) = .ok v ↔
      v = signed sign (Decimal.value digits) ∧ -2 ^ 63 ≤ v ∧ v < 2 ^ 63 := by
  have read : toInt64 (sign ++ digits) = toInt64Digits (sign = ['-']) digits := by
    rcases signOk with rfl | rfl | rfl
    · exact toInt64_digits nonempty allDigits
    · rfl
    · rfl
  rw [read, toInt64Digits, signed]
  by_cases negative : sign = ['-'] <;>
    by_cases fits : -2 ^ 63 ≤ signed sign (Decimal.value digits) ∧ signed sign (Decimal.value digits) < 2 ^ 63 <;>
    simp_all [signed, pure, throw, throwThe, MonadExceptOf.throw, Except.pure] <;> grind

theorem safeInt64_eq_ok_iff {v w : Int} : safeInt64 v = .ok w ↔ w = v ∧ -2 ^ 63 ≤ v ∧ v < 2 ^ 63 := by
  unfold safeInt64
  split
  case isTrue below => exact ⟨nofun, fun ⟨_, low, _⟩ => absurd low (by omega)⟩
  case isFalse notBelow =>
    split
    case isTrue above => exact ⟨nofun, fun ⟨_, _, high⟩ => absurd high (by omega)⟩
    case isFalse notAbove =>
      exact ⟨fun same => ⟨(Except.ok.inj same).symm, by omega, by omega⟩, fun ⟨same, _⟩ => same ▸ rfl⟩

/-- The constructor returns exactly the assets with that amount and symbol. -/
theorem make_eq_ok_iff {v : Int} {sym : Symbol} {a : Asset} : Asset.make v sym = .ok a ↔ a.amount = v ∧ a.sym = sym := by
  unfold Asset.make
  split
  case isTrue fits =>
    constructor
    · intro same
      cases same
      exact ⟨rfl, rfl⟩
    · rintro ⟨amount, rfl⟩
      obtain ⟨amount', sym', inRange⟩ := a
      cases amount
      rfl
  case isFalse outside =>
    exact ⟨nofun, fun ⟨amount, _⟩ => absurd (amount ▸ a.inRange) outside⟩

end Fio.Chain
