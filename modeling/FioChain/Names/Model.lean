import FioChain.Types

/-! The encoding of `name`: `char_to_symbol`, `string_to_name`, `name::set` and
`name::operator string`. Characters are the bytes of the C string, and a `const char *` is
the list of bytes before its terminating zero; `str[i]` past the last byte reads that zero.
The value is the `uint64_t` of `name`. -/

namespace Fio.Chain

/-- A C string: the bytes before the terminating zero, none of which is zero. -/
structure CString where
  bytes : List UInt8
  nonzero : ∀ c ∈ bytes, c ≠ 0

/-- `str[i]`: the byte at `i`, the terminator at the length. -/
def CString.get (str : CString) (i : Nat) : UInt8 := str.bytes.getD i 0

/-- `char_to_symbol`. -/
def charToSymbol (c : UInt8) : UInt64 :=
  if c ≥ 'a'.toUInt8 ∧ c ≤ 'z'.toUInt8 then (c - 'a'.toUInt8).toUInt64 + 6
  else if c ≥ '1'.toUInt8 ∧ c ≤ '5'.toUInt8 then (c - '1'.toUInt8).toUInt64 + 1
  else 0

/-- The `for` loop of `string_to_name` from position `i` over the bytes left: each byte goes
into the 5-bit slot `i` from the top, for at most twelve. Returns the name and the final `i`. -/
def stringToNameLoop : List UInt8 → Nat → UInt64 → UInt64 × Nat
  | c :: rest, i, name =>
    if i < 12 then stringToNameLoop rest (i + 1) (name ||| (charToSymbol c &&& 0x1f) <<< (64 - 5 * (i + 1)).toUInt64)
    else (name, i)
  | [], i, name => (name, i)

/-- `string_to_name`: after twelve symbols, the thirteenth byte goes into the low 4 bits. -/
def stringToName (str : CString) : UInt64 :=
  let looped := stringToNameLoop str.bytes 0 0
  if looped.2 = 12 then looped.1 ||| (charToSymbol (str.get 12) &&& 0x0F) else looped.1

/-- `".12345abcdefghijklmnopqrstuvwxyz"`: the bytes of `.`, `1` to `5` and `a` to `z`. -/
def charmap : List UInt8 :=
  [46, 49, 50, 51, 52, 53] ++ (List.range 26).map fun i => (97 + i).toUInt8

/-- The loop of `name::operator string` from `i` on, `n` iterations left. The character it
writes to `str[12 - i]` goes in front of those written before. -/
def nameToStringLoop (tmp : UInt64) (i : Nat) : Nat → List UInt8 → List UInt8
  | 0, str => str
  | n + 1, str =>
    let c := charmap.getD (tmp &&& (if i = 0 then 0x0f else 0x1f)).toNat '.'.toUInt8
    nameToStringLoop (tmp >>> (if i = 0 then 4 else 5)) (i + 1) n (c :: str)

/-- `name::operator string`: thirteen characters, then the trailing dots trimmed. -/
def Name.toString (n : Name) : List UInt8 :=
  (nameToStringLoop n.value 0 13 []).rdropWhile (· = '.'.toUInt8)

/-- `name::set`, which the constructor from a C string runs. -/
def Name.set (str : CString) : Except Exception Name := do
  -- strnlen(str, 14)
  let len := min str.bytes.length 14
  if ¬ len ≤ 13 then throw (.nameTypeException "Name is longer than 13 characters (${name}) ")
  let value := stringToName str
  if Name.toString ⟨value⟩ ≠ str.bytes then
    throw (.nameTypeException "Name not properly normalized (name: ${name}, normalized: ${normalized}) ")
  pure ⟨value⟩

end Fio.Chain
