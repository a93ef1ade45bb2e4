import FioChain.Asset.Model
import FioChain.Lib.DigitCarry
import FioChain.Lib.SwapReverse

/-! The two base58 decoders of the `fioio` headers. `DecodeBase58(psz, vch)` of
`fio_common_validator.hpp`, which `isPubKeyValid` runs, skips whitespace, counts the leading
`1`s, and accumulates the digits big-endian into a buffer of `strlen * 733 / 1000 + 1` bytes,
touching only the low `length` bytes and any carry. `DecodeBase58(str, len, result)` of
`keyops.hpp`, which `key_to_account` runs, accumulates little-endian into `result` with an
unbounded carry loop, appends a zero byte for each leading `1` and reverses `result` in place.
On a string of base58 characters both give a zero byte for each leading `1`, then the number
the string spells, most significant byte first and without leading zeros; the `keyops`
decoder gives one more zero byte when the string is all `1`s.

Strings are lists of characters whose codes are bytes; a `const char *` is the list before the
first NUL. `char` is signed, so the `-1` entries of `ALPHABET_MAP` are `0xffffffff` as
`unsigned int`; the table has 128 entries, and the model reads `-1` past them as well, where
the C++ reads out of bounds. -/

namespace Fio.Chain

namespace Fioio

/-- `ALPHABET`, the base58 alphabet. -/
def base58Alphabet : List Char := "123456789ABCDEFGHJKLMNPQRSTUVWXYZabcdefghijkmnopqrstuvwxyz".toList

/-- `mapBase58[(uint8_t) c]`: the position of `c` in the alphabet, and `-1` for any other
character. -/
def mapBase58 (c : Char) : Int :=
  match base58Alphabet.idxOf? c with
  | some digit => digit
  | none => -1

/-- The `for` loop of `DecodeBase58` over `b256` from `rbegin()`: while a carry is left or
`i < length`, the byte becomes the low byte of `carry + 58 * byte` and the rest is carried.
Takes the bytes from the end and returns them, the carry left and the final `i`. -/
def mulAddFromEnd (length : Nat) : Nat → Nat → List UInt8 → List UInt8 × Nat × Nat
  | carry, i, [] => ([], carry, i)
  | carry, i, byte :: rest =>
    if carry ≠ 0 ∨ i < length then
      let carry := carry + 58 * byte.toNat
      let next := mulAddFromEnd length (carry / 256) (i + 1) rest
      ((carry % 256).toUInt8 :: next.1, next.2.1, next.2.2)
    else (byte :: rest, carry, i)

/-- The `while` loop of `DecodeBase58` over the characters up to whitespace or the end, with
`b256` as stored, most significant byte first, and `length`. Returns `none` at a character
outside the alphabet, and otherwise the buffer, `length` and the characters left. -/
def decodeLoop (b256 : List UInt8) (length : Nat) :
    List Char → Except Exception (Option (List UInt8 × Nat × List Char))
  | [] => pure (some (b256, length, []))
  | c :: rest =>
    if isSpace c then pure (some (b256, length, c :: rest))
    else
      let carry := mapBase58 c
      if carry = -1 then pure none
      else
        let looped := mulAddFromEnd length carry.toNat 0 b256.reverse
        -- assert(carry == 0)
        if looped.2.1 ≠ 0 then throw .assertException
        else decodeLoop looped.1.reverse looped.2.2 rest

/-- `DecodeBase58(psz, vch)` of `fio_common_validator.hpp`: `none` for `false`, and the bytes
of `vch` for `true`. -/
def decodeBase58 (psz : List Char) : Except Exception (Option (List UInt8)) := do
  let psz := psz.dropWhile isSpace
  let zeroes := (psz.takeWhile (· = '1')).length
  let psz := psz.dropWhile (· = '1')
  let size := psz.length * 733 / 1000 + 1
  match ← decodeLoop (List.replicate size 0) 0 psz with
  | none => pure none
  | some (b256, length, rest) =>
    if rest.dropWhile isSpace ≠ [] then pure none
    else
      -- skip the bytes above `length`, then the leading zeroes
      let it := (b256.drop (size - length)).dropWhile (· = 0)
      pure (some (List.replicate zeroes 0 ++ it))

/-- `decode_base58(str, vch)`: the decoder on `str.c_str()`. -/
def decodeBase58String (str : List Char) : Except Exception (Option (List UInt8)) :=
  decodeBase58 (str.takeWhile (· ≠ '\x00'))

namespace Keyops

/-- `(unsigned int) ALPHABET_MAP[(unsigned char) c]`: the digit of a base58 character, and
`(unsigned int) -1` for any other. -/
def alphabetMap (c : Char) : UInt32 :=
  match base58Alphabet.idxOf? c with
  | some digit => digit.toUInt32
  | none => 0xffffffff

/-- The inner `for` of `DecodeBase58` over `result[0..resultlen)`, least significant byte
first: `carry += result[j] * 58`, the low byte kept and the rest carried. -/
def mulAddResult : UInt32 → List UInt8 → List UInt8 × UInt32
  | carry, [] => ([], carry)
  | carry, r :: rest =>
    let carry := carry + r.toUInt32 * 58
    let next := mulAddResult (carry >>> 8) rest
    ((carry &&& 0xff).toUInt8 :: next.1, next.2)

/-- `while (carry > 0) { result[resultlen++] = carry & 0xff; carry >>= 8; }`; a `uint32_t`
is zero after four shifts by 8, so four rounds are enough. -/
def pushCarry : Nat → UInt32 → List UInt8
  | 0, _ => []
  | rounds + 1, carry => if carry > 0 then (carry &&& 0xff).toUInt8 :: pushCarry rounds (carry >>> 8) else []

/-- The outer `for` of `DecodeBase58` over the characters, with `result[0..resultlen)`. -/
def decodeLoop (result : List UInt8) : List Char → List UInt8
  | [] => result
  | c :: rest =>
    let looped := mulAddResult (alphabetMap c) result
    decodeLoop (looped.1 ++ pushCarry 4 looped.2) rest

/-- `DecodeBase58(str, len, result)` of `keyops.hpp`: the bytes it writes to
`result[0..resultlen)`, their number being the `resultlen` it returns. Step `t` of the final
loop swaps `result[resultlen - 1 - t]` and `result[t]`, for `i = resultlen - 1 - t` from
`resultlen - 1` down to `z`. -/
def decodeBase58 (str : List Char) (len : Nat) : List UInt8 :=
  let result := decodeLoop [0] (str.take len)
  let result := result ++ List.replicate ((str.take len).takeWhile (· = '1')).length 0
  let resultlen := result.length
  let z := (resultlen >>> 1) + (resultlen &&& 1)
  (List.range (resultlen - z)).foldl SwapReverse.swapEnds result

end Keyops

/-! ### What the decoders compute -/

/-- The digit of a base58 character: its position in the alphabet. -/
def base58Digit (c : Char) : Nat := base58Alphabet.idxOf c

/-- The number a string of base58 characters spells, most significant digit first. -/
def base58Value (ds : List Char) : Nat := Nat.ofDigits 58 (ds.map base58Digit).reverse

/-- A string of base58 characters. -/
def IsBase58 (t : List Char) : Prop := ∀ c ∈ t, c ∈ base58Alphabet

instance (t : List Char) : Decidable (IsBase58 t) := List.decidableBAll (· ∈ base58Alphabet) t

/-- The bytes a base58 string stands for: a zero byte for each leading `1`, then the number
the string spells, most significant byte first and without leading zeros. -/
def base58Bytes (t : List Char) : List UInt8 :=
  List.replicate (t.takeWhile (· = '1')).length 0 ++ (Nat.digits 256 (base58Value t)).reverse.map Nat.toUInt8

/-- Base58 encoding, which the decoders invert: a `1` for each leading zero byte, then the digits
of the number the remaining bytes spell, most significant first. -/
def encodeBase58 (bytes : List UInt8) : List Char :=
  let value := Nat.ofDigits 256 ((bytes.dropWhile (· = 0)).map UInt8.toNat).reverse
  List.replicate (bytes.takeWhile (· = 0)).length '1' ++
    (Nat.digits 58 value).reverse.map fun d => base58Alphabet.getD d '1'

end Fioio

end Fio.Chain
