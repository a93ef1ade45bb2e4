import FioChain.Fioio.Base58Decode
import FioChain.Names.RoundTrip

/-! Public keys and the accounts derived from them. `isPubKeyValid` of `pubkey_validation.hpp`
accepts `FIO` followed by the base58 form of 33 key bytes and four checksum bytes, the first
four of the key's `ripemd160` hash; the hash is a parameter here. `key_to_account` of
`keyops.hpp` decodes the part after the prefix with the `keyops` decoder into a fresh buffer of
37 bytes, `shorten_key` packs thirteen nonzero symbols of the buffer's bytes 1 to 32 into a name,
and the account is the first twelve characters of that name.

`shorten_key`'s `assert(i < 33)` is modelled as `assertException`: the theorems describe a build
with assertions on. A release build with `-DNDEBUG` compiles the assertion out, and where a key
has fewer than thirteen symbols in bytes 1 to 32 its loop goes on to the checksum bytes 33 to 36
and then reads past the buffer. The bytes of the buffer that the decoder does not write are
whatever `new unsigned char[37]` left there: `heap`. -/

namespace Fio.Chain

namespace Fioio

/-- `isPubKeyValid`, with `fc::ripemd160::hash` as `ripemd160`. -/
def isPubKeyValid (ripemd160 : List UInt8 → List UInt8) (pubkey : List Char) : Except Exception Bool :=
  if pubkey.length ≠ 53 then pure false
  else if pubkey.take 3 ≠ "FIO".toList then pure false
  else do
    match ← decodeBase58String (pubkey.drop 3) with
    | none => pure false
    | some vch =>
      if vch.length ≠ 37 then pure false
      -- memcmp(&hash_val, &vch.end()[-4], 4)
      else pure ((ripemd160 (vch.take 33)).take 4 == vch.drop 33)

/-- The `while (len <= 12)` loop of `shorten_key` over the bytes `key[i]` left before
`i = 33`, with `len` symbols packed into `res`. A byte whose low 5 bits (4 bits for the
thirteenth symbol) are zero is skipped. -/
def shortenKeyLoop (len : Nat) (res : UInt64) : List UInt8 → Except Exception UInt64
  | [] => if len ≤ 12 then throw .assertException else pure res
  | key :: rest =>
    if len ≤ 12 then
      let trimmedChar := (key &&& (if len = 12 then 0x0f else 0x1f)).toUInt64
      if trimmedChar = 0 then shortenKeyLoop len res rest
      else
        let shuffle := if len = 12 then 0 else 5 * (12 - len) - 1
        shortenKeyLoop (len + 1) (res ||| trimmedChar <<< shuffle.toUInt64) rest
    else pure res

/-- `shorten_key(key)`: the loop from `i = 1`, the key head ignored. -/
def shortenKey (key : List UInt8) : Except Exception UInt64 :=
  shortenKeyLoop 0 0 ((key.drop 1).take 32)

/-- `key_to_account(pubkey, new_account)`: the new account, as the bytes of the string.
`DecodeBase58` writes as many bytes as the text decodes to, with no bound: a text that decodes
to more than 37 bytes writes past the buffer, a heap overflow in C++. The model keeps those
bytes as if the buffer were long enough, and `shorten_key` reads only bytes 1 to 32. -/
def keyToAccount (heap : List UInt8) (pubkey : List Char) : Except Exception (List UInt8) := do
  -- pub_wif.erase(0, 3)
  let pubWif := pubkey.drop 3
  let written := Keyops.decodeBase58 pubWif pubWif.length
  let res ← shortenKey (written ++ heap.drop written.length)
  pure ((Name.toString ⟨res⟩).take 12)

/-! ### `isPubKeyValid` -/

/-- What `isPubKeyValid` accepts. -/
theorem isPubKeyValid_eq_true_iff (ripemd160 : List UInt8 → List UInt8) (pubkey : List Char) :
    isPubKeyValid ripemd160 pubkey = .ok true ↔
      pubkey.length = 53 ∧ pubkey.take 3 = "FIO".toList ∧
        ∃ vch, decodeBase58String (pubkey.drop 3) = .ok (some vch) ∧ vch.length = 37 ∧
          (ripemd160 (vch.take 33)).take 4 = vch.drop 33 := by
  unfold isPubKeyValid
  by_cases length : pubkey.length = 53
  · by_cases prefixed : pubkey.take 3 = "FIO".toList
    · rw [if_neg (not_not.2 length), if_neg (not_not.2 prefixed)]
      simp only [length, prefixed, true_and]
      cases decoded : decodeBase58String (pubkey.drop 3) with
      | error e => simp [bind, Except.bind]
      | ok result =>
        cases result with
        | none => simp [bind, Except.bind, pure, Except.pure]
        | some vch =>
          by_cases size : vch.length = 37
          · simp [bind, Except.bind, pure, Except.pure, size]
          · simp [bind, Except.bind, pure, Except.pure, size]
    · rw [if_neg (not_not.2 length), if_pos prefixed]
      exact iff_of_false (by simp [pure, Except.pure]) fun ⟨_, found, _⟩ => prefixed found
  · rw [if_pos length]
    exact iff_of_false (by simp [pure, Except.pure]) fun ⟨found, _⟩ => length found

/-! ### `shorten_key` -/

/-- An or of `s` shifted into a clear slot of `w` bits at `e` appends `s` as a digit. -/
theorem or_shiftLeft_toNat {acc s : UInt64} {V e w : Nat} (small : s.toNat < 2 ^ w) (fits : e + w ≤ 64)
    (inside : e < 64) (filled : acc.toNat = V * 2 ^ (e + w)) :
    (acc ||| s <<< e.toUInt64).toNat = (V * 2 ^ w + s.toNat) * 2 ^ e := by
  have shift : e.toUInt64.toNat % 64 = e := by
    rw [Nat.toUInt64_eq, UInt64.toNat_ofNat']
    omega
  have below : s.toNat * 2 ^ e < 2 ^ (e + w) := by
    rw [Nat.pow_add, Nat.mul_comm (2 ^ e)]
    exact Nat.mul_lt_mul_of_pos_right small (Nat.two_pow_pos e)
  have wide : 2 ^ (e + w) ≤ 2 ^ 64 := Nat.pow_le_pow_right (by decide) fits
  rw [UInt64.toNat_or, UInt64.toNat_shiftLeft, shift, Nat.shiftLeft_eq, Nat.mod_eq_of_lt (by omega), filled,
    Nat.mul_comm V, ← Nat.two_pow_add_eq_or_of_lt below, Nat.pow_add]
  ring

/-- What `shorten_key` has packed into `res`: the symbols `ds`, none zero and at most
thirteen, the first twelve in 5-bit slots from the top and a thirteenth in the low 4 bits. -/
structure Packed (res : UInt64) (ds : List Nat) : Prop where
  length_le : ds.length ≤ 13
  positive : ∀ d ∈ ds, 0 < d
  valid : MixedRadix.Valid (nameRadices.take ds.length) ds
  value : res.toNat = MixedRadix.value (nameRadices.take ds.length) ds * 2 ^ (64 - 5 * ds.length)

theorem packed_nil : Packed 0 [] := ⟨by decide, by simp, .nil, rfl⟩

theorem take_succ_nameRadices : ∀ len ≤ 12,
    nameRadices.take (len + 1) = nameRadices.take len ++ [if len = 12 then 16 else 32] := by
  decide

theorem trimmedChar_toNat (key : UInt8) (len : Nat) :
    (key &&& (if len = 12 then 0x0f else 0x1f)).toUInt64.toNat = key.toNat % (if len = 12 then 16 else 32) := by
  split
  · rw [UInt8.toNat_toUInt64, UInt8.toNat_and, show (0x0f : UInt8).toNat = 2 ^ 4 - 1 from rfl,
      Nat.and_two_pow_sub_one_eq_mod]
  · rw [UInt8.toNat_toUInt64, UInt8.toNat_and, show (0x1f : UInt8).toNat = 2 ^ 5 - 1 from rfl,
      Nat.and_two_pow_sub_one_eq_mod]

/-- One symbol: a nonzero `trimmedChar` shifted by `shuffle` fills the next slot. -/
theorem Packed.step {res : UInt64} {ds : List Nat} (packed : Packed res ds) (open_slot : ds.length ≤ 12)
    {t : UInt64} (nonzero : 0 < t.toNat) (small : t.toNat < if ds.length = 12 then 16 else 32) :
    Packed (res ||| t <<< (if ds.length = 12 then 0 else 5 * (12 - ds.length) - 1).toUInt64) (ds ++ [t.toNat]) := by
  have radices := take_succ_nameRadices ds.length open_slot
  have aligned : ds.length = (nameRadices.take ds.length).length := by simp [nameRadices]; omega
  refine ⟨by simp; omega, ?_, ?_, ?_⟩
  · intro d mem
    rcases List.mem_append.1 mem with old | last
    · exact packed.positive d old
    · rw [List.mem_singleton.1 last]
      exact nonzero
  · rw [List.length_append, List.length_singleton, radices]
    exact MixedRadix.valid_append packed.valid (.cons small .nil)
  · rw [List.length_append, List.length_singleton, radices, MixedRadix.value_append aligned]
    have value := packed.value
    -- the 4-bit slot at the bottom for the thirteenth symbol, a 5-bit one above it otherwise
    by_cases last : ds.length = 12
    · simp only [last, ↓reduceIte] at small value ⊢
      rw [or_shiftLeft_toNat (w := 4) small (by decide) (by decide) (by simpa using value)]
      simp [MixedRadix.value]
    · simp only [last, ↓reduceIte] at small ⊢
      have shift : 5 * (12 - ds.length) - 1 = 64 - 5 * (ds.length + 1) := by omega
      rw [or_shiftLeft_toNat (w := 5) small (by omega) (by omega) (by rw [value]; congr 2; omega), shift]
      simp [MixedRadix.value]

/-- The loop ends normally only with thirteen symbols packed. -/
theorem shortenKeyLoop_spec (bytes : List UInt8) :
    ∀ (res : UInt64) (ds : List Nat) (out : UInt64), Packed res ds →
      shortenKeyLoop ds.length res bytes = .ok out → ∃ ds', Packed out ds' ∧ ds'.length = 13 := by
  induction bytes with
  | nil =>
    intro res ds out packed ok
    unfold shortenKeyLoop at ok
    split at ok
    · cases ok
    · cases ok
      exact ⟨ds, packed, by have := packed.length_le; omega⟩
  | cons key rest ih =>
    intro res ds out packed ok
    unfold shortenKeyLoop at ok
    split at ok
    case isTrue open_slot =>
      dsimp only at ok
      by_cases zero : (key &&& (if ds.length = 12 then 0x0f else 0x1f)).toUInt64 = 0
      · rw [if_pos zero] at ok
        exact ih res ds out packed ok
      · rw [if_neg zero] at ok
        have small := trimmedChar_toNat key ds.length
        have bound : key.toNat % (if ds.length = 12 then 16 else 32) < if ds.length = 12 then 16 else 32 :=
          Nat.mod_lt _ (by split <;> decide)
        have next := packed.step open_slot (t := (key &&& (if ds.length = 12 then 0x0f else 0x1f)).toUInt64)
          (Nat.pos_of_ne_zero fun none => zero (UInt64.toNat_inj.1 (by rw [none]; rfl))) (small ▸ bound)
        exact ih _ _ out next (by rw [List.length_append, List.length_singleton]; exact ok)
    case isFalse full =>
      cases ok
      exact ⟨ds, packed, by have := packed.length_le; omega⟩

/-- The thirteen packed symbols are the name's characters, none of them a dot. -/
theorem toString_of_packed {res : UInt64} {ds : List Nat} (packed : Packed res ds) (full : ds.length = 13) :
    Name.toString ⟨res⟩ = ds.map charOf := by
  have value := packed.value
  have valid := packed.valid
  rw [full] at value valid
  rw [show nameRadices.take 13 = nameRadices from rfl, show 2 ^ (64 - 5 * 13) = 1 from rfl, Nat.mul_one] at value
  rw [show nameRadices.take 13 = nameRadices from rfl] at valid
  rw [toString_eq, value, MixedRadix.digits_value nameRadices_pos valid]
  refine List.rdropWhile_eq_self_iff.2 fun nonempty dot => ?_
  obtain ⟨d, mem, last⟩ := List.mem_map.1 (List.getLast_mem nonempty)
  have below : d < 32 := lt_of_mem_digits (MixedRadix.digits_value nameRadices_pos valid ▸ mem)
  rw [← last, decide_eq_true_eq, charOf_eq_dot_iff d below] at dot
  exact absurd (packed.positive d mem) (by omega)

theorem charOf_mem_drop : ∀ d < 32, 0 < d → charOf d ∈ charmap.drop 1 := by decide

theorem dot_notMem_drop : '.'.toUInt8 ∉ charmap.drop 1 := by decide

/-- Every account `key_to_account` derives is twelve characters of `1`-`5` and `a`-`z`, which
`name::set` accepts and writes back unchanged. -/
theorem keyToAccount_is_account_name {heap : List UInt8} {pubkey : List Char} {account : List UInt8}
    (ok : keyToAccount heap pubkey = .ok account) :
    account.length = 12 ∧ (∀ c ∈ account, c ∈ charmap.drop 1) ∧
      ∃ str : CString, str.bytes = account ∧ ∃ n, Name.set str = .ok n ∧ n.toString = account := by
  simp only [keyToAccount, bind, Except.bind] at ok
  split at ok
  · cases ok
  rename_i res shortened
  cases ok
  obtain ⟨ds, packed, full⟩ := shortenKeyLoop_spec _ 0 [] res packed_nil shortened
  rw [toString_of_packed packed full, ← List.map_take]
  have symbols : ∀ c ∈ (ds.take 12).map charOf, c ∈ charmap.drop 1 := by
    intro c mem
    obtain ⟨d, taken, rfl⟩ := List.mem_map.1 mem
    have kept := List.mem_of_mem_take taken
    have valid := packed.valid
    rw [full] at valid
    exact charOf_mem_drop d (lt_of_mem_digits (MixedRadix.digits_value nameRadices_pos valid ▸ kept))
      (packed.positive d kept)
  have twelve : ((ds.take 12).map charOf).length = 12 := by simp [full]
  have name : IsNameString ((ds.take 12).map charOf) := by
    refine ⟨by omega, fun c mem => List.mem_of_mem_drop (symbols c mem), fun c found => ?_, fun found => ?_⟩
    · rw [List.getElem?_eq_none (by omega)] at found
      cases found
    · exact dot_notMem_drop (symbols _ (List.mem_of_getLast? found))
  have nonzero : ∀ c ∈ (ds.take 12).map charOf, c ≠ 0 := fun c mem => by
    obtain ⟨d, lt, rfl⟩ := mem_charmap_iff.1 (name.mem_charmap c mem)
    exact charOf_ne_zero d lt
  refine ⟨twelve, symbols, ⟨_, nonzero⟩, rfl, _, set_eq_ok name, toString_stringToName name⟩

theorem keyToAccount_sample_key :
    keyToAccount (List.replicate 37 0) "FIO6MRyAjQq8ud7hVNYcfnVPJqcVpscN5So8BhtHuGYqET5GDW5CV".toList =
        .ok ("ymwzn5vje5ay".toList.map Char.toUInt8) ∧
      ("ymwzn5vje5ay".toList.map Char.toUInt8).length = 12 := by
  have derived : keyToAccount (List.replicate 37 0) "FIO6MRyAjQq8ud7hVNYcfnVPJqcVpscN5So8BhtHuGYqET5GDW5CV".toList =
      .ok ("ymwzn5vje5ay".toList.map Char.toUInt8) := by
    decide +kernel
  exact ⟨derived, (keyToAccount_is_account_name derived).1⟩

/-- The loop ends normally only after as many bytes with nonzero low 5 bits as symbols are left
to pack. -/
theorem shortenKeyLoop_ok_le (bytes : List UInt8) :
    ∀ (len : Nat) (res out : UInt64), shortenKeyLoop len res bytes = .ok out →
      13 ≤ len + bytes.countP (fun b => b &&& 0x1f ≠ 0) := by
  induction bytes with
  | nil =>
    intro len res out ok
    unfold shortenKeyLoop at ok
    split at ok
    · cases ok
    · simp only [List.countP_nil]
      omega
  | cons key rest ih =>
    intro len res out ok
    unfold shortenKeyLoop at ok
    rw [List.countP_cons]
    split at ok
    case isTrue open_slot =>
      dsimp only at ok
      by_cases zero : (key &&& (if len = 12 then 0x0f else 0x1f)).toUInt64 = 0
      · rw [if_pos zero] at ok
        have := ih len res out ok
        omega
      · rw [if_neg zero] at ok
        have more := ih (len + 1) _ out ok
        -- a symbol's low 4 or 5 bits are nonzero, so its low 5 bits are
        have trimmed := trimmedChar_toNat key len
        have symbol : key &&& 0x1f ≠ 0 := by
          intro none
          have low := congrArg UInt8.toNat none
          rw [UInt8.toNat_and, show (0x1f : UInt8).toNat = 2 ^ 5 - 1 from rfl, Nat.and_two_pow_sub_one_eq_mod,
            UInt8.toNat_zero] at low
          apply zero
          rw [← UInt64.toNat_inj, trimmed, UInt64.toNat_zero]
          split <;> omega
        rw [if_pos (decide_eq_true symbol)]
        omega
    case isFalse full => omega

theorem shortenKeyLoop_error (bytes : List UInt8) :
    ∀ (len : Nat) (res : UInt64) (e : Exception), shortenKeyLoop len res bytes = .error e → e = .assertException := by
  induction bytes with
  | nil =>
    intro len res e failed
    unfold shortenKeyLoop at failed
    split at failed
    · cases failed
      rfl
    · cases failed
  | cons key rest ih =>
    intro len res e failed
    unfold shortenKeyLoop at failed
    split at failed
    · dsimp only at failed
      by_cases zero : (key &&& (if len = 12 then 0x0f else 0x1f)).toUInt64 = 0
      · rw [if_pos zero] at failed
        exact ih _ _ e failed
      · rw [if_neg zero] at failed
        exact ih _ _ e failed
    · cases failed

/-- `shorten_key` fails its assertion on every key among whose bytes 1 to 32 fewer than
thirteen have nonzero low 5 bits. -/
theorem shortenKey_fails_of_few_symbols {key : List UInt8}
    (few : ((key.drop 1).take 32).countP (fun b => b &&& 0x1f ≠ 0) < 13) :
    shortenKey key = .error .assertException := by
  unfold shortenKey
  cases packed : shortenKeyLoop 0 0 ((key.drop 1).take 32) with
  | ok out =>
    have := shortenKeyLoop_ok_le _ 0 0 out packed
    omega
  | error e => rw [shortenKeyLoop_error _ 0 0 e packed]

/-- A key whose bytes 1 to 12 are symbols and the rest zero: twelve symbols are packed, and
the assertion fails at byte 33. -/
theorem shortenKey_fails_with_twelve_symbols :
    ((0 :: List.replicate 12 1 ++ List.replicate 24 0 : List UInt8).drop 1 |>.take 32).countP
        (fun b => b &&& 0x1f ≠ 0) < 13 ∧
      shortenKey (0 :: List.replicate 12 1 ++ List.replicate 24 0) = .error .assertException :=
  have few : ((0 :: List.replicate 12 1 ++ List.replicate 24 0 : List UInt8).drop 1 |>.take 32).countP
      (fun b => b &&& 0x1f ≠ 0) < 13 := by decide
  ⟨few, shortenKey_fails_of_few_symbols few⟩

/-- `shorten_key` reads only bytes 1 to 32. -/
theorem shortenKey_append {key : List UInt8} (long : 33 ≤ key.length) (rest : List UInt8) :
    shortenKey (key ++ rest) = shortenKey key := by
  unfold shortenKey
  rw [List.drop_append_of_le_length (by omega), List.take_append_of_le_length (by simp; omega)]

/-! ### Accepted keys -/

/-- For every key `isPubKeyValid` accepts whose characters after `FIO` are base58 characters,
`key_to_account` decodes exactly the 37 bytes `isPubKeyValid` checked: its buffer is filled and
nothing past it is written, and the account does not depend on what the buffer held before. -/
theorem accepted_key_decodes_exactly {ripemd160 : List UInt8 → List UInt8} {pubkey : List Char}
    (accepted : isPubKeyValid ripemd160 pubkey = .ok true) (base58 : IsBase58 (pubkey.drop 3)) :
    ∃ vch, decodeBase58String (pubkey.drop 3) = .ok (some vch) ∧ vch.length = 37 ∧
      (ripemd160 (vch.take 33)).take 4 = vch.drop 33 ∧
      Keyops.decodeBase58 (pubkey.drop 3) (pubkey.drop 3).length = vch ∧
      ∀ heap, keyToAccount heap pubkey = (do let res ← shortenKey vch; pure ((Name.toString ⟨res⟩).take 12)) := by
  obtain ⟨length, -, vch, decoded, size, checksum⟩ := (isPubKeyValid_eq_true_iff ripemd160 pubkey).1 accepted
  have bytes : base58Bytes (pubkey.drop 3) = vch := by
    rw [decodeBase58String_eq base58] at decoded
    exact Option.some.inj (Except.ok.inj decoded)
  -- fifty `1`s decode to fifty zero bytes, not to 37
  have positive : base58Value (pubkey.drop 3) ≠ 0 := by
    intro zero
    have sizes := congrArg List.length (base58Bytes_of_value_eq_zero base58 zero)
    rw [bytes, size, List.length_replicate, List.length_drop, length] at sizes
    exact absurd sizes (by decide)
  have written : Keyops.decodeBase58 (pubkey.drop 3) (pubkey.drop 3).length = vch := by
    rw [Keyops.decodeBase58_eq_append base58, if_neg positive, List.append_nil, bytes]
  refine ⟨vch, decoded, size, checksum, written, fun heap => ?_⟩
  simp only [keyToAccount, written, shortenKey_append (by omega : 33 ≤ vch.length)]

theorem accepted_key_decodes_exactly_sample :
    ∃ vch : List UInt8, vch.length = 37 ∧
      Keyops.decodeBase58 ("FIO6MRyAjQq8ud7hVNYcfnVPJqcVpscN5So8BhtHuGYqET5GDW5CV".toList.drop 3) 50 = vch := by
  obtain ⟨vch, -, size, -, written, -⟩ := @accepted_key_decodes_exactly (fun _ => [235, 5, 249, 210])
    "FIO6MRyAjQq8ud7hVNYcfnVPJqcVpscN5So8BhtHuGYqET5GDW5CV".toList (by decide +kernel) (by decide)
  exact ⟨vch, size, written⟩

end Fioio

end Fio.Chain
