import FioChain.Types
import FioChain.Lib.Decimal
import Mathlib.Data.List.DropRight

/-! `symbol` and `asset` with their string forms: `string_to_symbol`, `symbol::name`,
`symbol::valid`, `symbol::precision`, `symbol::from_string`, the `asset` constructor,
`asset::to_string` and `asset::from_string`. A `std::string` is the list of its characters.
Three functions of `fc`, which the repository does not contain, are taken as follows:
`fc::trim` is `boost::algorithm::trim_copy`, which strips what `std::isspace` accepts in the
"C" locale from both ends; `fc::to_int64` is `boost::lexical_cast<int64_t>`, an optional sign
and one or more decimal digits in the range of `int64_t`; and the operators of
`fc::safe<int64_t>` throw when the exact result leaves that range. -/

namespace Fio.Chain

/-- `std::isspace` in the "C" locale. -/
def isSpace (c : Char) : Bool :=
  c == ' ' || c == '\t' || c == '\n' || c == '\x0b' || c == '\x0c' || c == '\r'

/-- `fc::trim`. -/
def trim (s : List Char) : List Char := (s.dropWhile isSpace).rdropWhile isSpace

/-- `fc::to_int64` after the sign: one or more decimal digits whose value, negated after a
`-`, is in the range of `int64_t`. -/
def toInt64Digits (negative : Bool) (digits : List Char) : Except Exception Int :=
  let value : Int := if negative then -(Decimal.value digits : Int) else Decimal.value digits
  if digits ≠ [] ∧ Decimal.AllDigits digits ∧ -2 ^ 63 ≤ value ∧ value < 2 ^ 63 then pure value
  else throw .badLexicalCast

/-- `fc::to_int64`: an optional sign, then digits. -/
def toInt64 : List Char → Except Exception Int
  | '-' :: digits => toInt64Digits true digits
  | '+' :: digits => toInt64Digits false digits
  | digits => toInt64Digits false digits

/-- The range check of an `fc::safe<int64_t>` operator on its exact result. -/
def safeInt64 (v : Int) : Except Exception Int :=
  if v < -2 ^ 63 then throw .underflowException
  else if 2 ^ 63 ≤ v then throw .overflowException
  else pure v

/-- The loop of `string_to_symbol` from position `i`: each upper-case letter goes into byte
`i + 1`. A shift by 64 or more, undefined in C++, is taken modulo 64 as on x86. -/
def stringToSymbolLoop : List Char → Nat → UInt64 → Except Exception UInt64
  | [], _, result => pure result
  | c :: rest, i, result =>
    if 'A' ≤ c ∧ c ≤ 'Z' then
      stringToSymbolLoop rest (i + 1) (result ||| c.toNat.toUInt64 <<< (8 * (i + 1)).toUInt64)
    else throw (.symbolTypeException "invalid character in symbol name")

/-- `string_to_symbol`: the characters of the C string, which ends at the first zero, then the
precision in the low byte. -/
def stringToSymbol (precision : UInt8) (str : List Char) : Except Exception UInt64 := do
  let result ← stringToSymbolLoop (str.takeWhile (· ≠ Char.ofNat 0)) 0 0
  pure (result ||| precision.toUInt64)

/-- The loop of `symbol::name`: one character per byte of `v` from the low end while `v` is
not zero. `fuel` bounds the iterations; `symbolName` gives seven, as many as `v` has bytes. -/
def nameLoop : Nat → UInt64 → List Char
  | 0, _ => []
  | fuel + 1, v => if v > 0 then Char.ofNat (v &&& 0xFF).toNat :: nameLoop fuel (v >>> 8) else []

/-- `symbol::name` of the value. -/
def symbolName (value : UInt64) : List Char := nameLoop 7 (value >>> 8)

/-- `symbol::decimals` of the value. -/
def symbolDecimals (value : UInt64) : UInt8 := (value &&& 0xFF).toUInt8

/-- `symbol::valid_name`. -/
def validName (name : List Char) : Bool := name.all fun c => 'A' ≤ c && c ≤ 'Z'

/-- `symbol::valid`. -/
def symbolValid (value : UInt64) : Bool := symbolDecimals value ≤ 18 && validName (symbolName value)

/-- A `symbol`: every constructor checks `valid()`, so every symbol is valid. -/
structure Symbol where
  value : UInt64
  valid : symbolValid value = true

namespace Symbol

/-- `symbol(uint64_t v)`. -/
def ofValue (v : UInt64) : Except Exception Symbol :=
  if h : symbolValid v = true then pure ⟨v, h⟩
  else throw (.symbolTypeException "invalid symbol: ${name}")

def decimals (s : Symbol) : UInt8 := symbolDecimals s.value

def name (s : Symbol) : List Char := symbolName s.value

/-- `symbol::precision`: the loop multiplies 1 by 10 `decimals()` times; its assertion
`decimals() <= max_precision` holds as the symbol is valid. -/
def precision (s : Symbol) : Nat := 10 ^ s.decimals.toNat

/-- `symbol::from_string`. The precision is an `int64_t` stored in a `uint8_t`, so it is
taken modulo 256 before it is checked. -/
def fromString (str : List Char) : Except Exception Symbol :=
  let s := trim str
  if s.isEmpty then throw (.symbolTypeException "creating symbol from empty string")
  else match s.idxOf? ',' with
    | none => throw (.symbolTypeException "missing comma in symbol")
    | some commaPos => do
      let p := UInt8.ofInt (← toInt64 (s.take commaPos))
      let namePart := s.drop (commaPos + 1)
      if p > 18 then throw (.symbolTypeException "precision ${p} should be <= 18")
      else do
        let value ← stringToSymbol p namePart
        ofValue value

end Symbol

/-- `asset::max_amount`. -/
def maxAmount : Int := 2 ^ 62 - 1

/-- An `asset`: the constructor checks the amount's range and the symbol. -/
structure Asset where
  amount : Int
  sym : Symbol
  inRange : -maxAmount ≤ amount ∧ amount ≤ maxAmount

namespace Asset

/-- `asset(share_type a, symbol id)`; its `sym.valid()` check holds of every `Symbol`. -/
def make (a : Int) (sym : Symbol) : Except Exception Asset :=
  if h : -maxAmount ≤ a ∧ a ≤ maxAmount then pure ⟨a, sym, h⟩
  else throw (.assetTypeException "magnitude of asset amount must be less than 2^62")

/-- `asset::to_string`. -/
def toString (a : Asset) : List Char :=
  let sign := if a.amount < 0 then ['-'] else []
  let absAmount := a.amount.natAbs
  let result := Nat.toDigits 10 (absAmount / a.sym.precision)
  let result := if a.sym.decimals ≠ 0 then
      result ++ '.' :: (Nat.toDigits 10 (a.sym.precision + absAmount % a.sym.precision)).drop 1
    else result
  sign ++ result ++ ' ' :: a.sym.name

/-- The "Parse amount" block of `asset::from_string`: the integer part and the fraction, the
fraction negated when the amount starts with `-`. -/
def parseAmount (amountStr : List Char) : Option Nat → Except Exception (Int × Int)
  | some dotPos => do
    let intPart ← toInt64 (amountStr.take dotPos)
    let fractPart ← toInt64 (amountStr.drop (dotPos + 1))
    let fractPart ← (if amountStr.head? = some '-' then safeInt64 (fractPart * -1) else pure fractPart :
      Except Exception Int)
    pure (intPart, fractPart)
  | none => do
    let intPart ← toInt64 amountStr
    pure (intPart, 0)

/-- The precision `asset::from_string` passes to `symbol::from_string`: the number of
characters after the dot. -/
def precisionDigitStr (amountStr : List Char) : Option Nat → List Char
  | some dotPos => Nat.toDigits 10 (amountStr.length - dotPos - 1)
  | none => ['0']

/-- `asset::from_string`. -/
def fromString (str : List Char) : Except Exception Asset :=
  let s := trim str
  match s.idxOf? ' ' with
  | none => throw (.assetTypeException "Asset's amount and symbol should be separated with space")
  | some spacePos =>
    let symbolStr := trim (s.drop (spacePos + 1))
    let amountStr := s.take spacePos
    let dotPos := amountStr.idxOf? '.'
    if dotPos = some (amountStr.length - 1) then
      throw (.assetTypeException "Missing decimal fraction after decimal point")
    else do
      let sym ← Symbol.fromString (precisionDigitStr amountStr dotPos ++ ',' :: symbolStr)
      let (intPart, fractPart) ← parseAmount amountStr dotPos
      let amount ← safeInt64 (intPart * sym.precision)
      let amount ← safeInt64 (amount + fractPart)
      make amount sym

end Asset

end Fio.Chain
