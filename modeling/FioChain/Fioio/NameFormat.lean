import FioChain.Lib.ListSplit

/-! `fio_common_validator.hpp`: the format of a FIO address `name@domain`, or of a domain
alone. `getFioAddressStruct` lower-cases the text and splits it at its first `@`;
`validateFioNameFormat` checks the lengths, then each part with `validateCharName`, which
reads the part's `front()` and `back()`. Strings are lists of characters and `tolower` is
ASCII lower-casing. `front()` and `back()` of an empty string are undefined in C++, and
`validateCharName` returns `none` there. -/

namespace Fio.Chain

namespace Fioio

def maxFioLen : Nat := 64

def maxFioDomainLen : Nat := 62

structure FioAddress where
  fioaddress : List Char
  fioname : List Char
  fiodomain : List Char
  domainOnly : Bool
  deriving DecidableEq, Repr

def makeLowerCase (entry : List Char) : List Char :=
  entry.map Char.toLower

def getFioAddressStruct (p : List Char) : FioAddress :=
  -- `p.find('@')`, with `none` for `string::npos`
  let pos := p.idxOf? '@'
  let domainOnly := pos == some 0 || pos == none
  let fioaddress := makeLowerCase p
  match pos with
  | some pos =>
    if domainOnly then ⟨fioaddress, [], fioaddress, domainOnly⟩
    else ⟨fioaddress, fioaddress.take pos, fioaddress.drop (pos + 1), domainOnly⟩
  | none => ⟨fioaddress, [], fioaddress, domainOnly⟩

/-- The characters `validateCharName` allows. -/
def nameChars : List Char := "abcdefghijklmnopqrstuvwxyz0123456789-".toList

/-- `validateCharName`, with `none` where it reads `front()` or `back()` of an empty string. -/
def validateCharName (name : List Char) : Option Bool :=
  if name.any (· ∉ nameChars) then some false
  else do
    let front ← name.head?
    if front = '-' then some false
    else do
      let back ← name.getLast?
      if back = '-' then some false else some true

def validateFioNameFormat (fa : FioAddress) : Option Bool :=
  if fa.domainOnly then
    if fa.fiodomain.length < 1 || fa.fiodomain.length > maxFioDomainLen then some false
    else validateCharName fa.fiodomain
  else if fa.fioaddress.length < 3 || fa.fioaddress.length > maxFioLen then some false
  else do
    -- `!validateCharName(fa.fioname) || !validateCharName(fa.fiodomain)`, left to right
    let name ← validateCharName fa.fioname
    if !name then some false
    else do
      let domain ← validateCharName fa.fiodomain
      if !domain then some false else some true

/-! ## The format -/

/-- A part `validateCharName` accepts: not empty, from `[a-z0-9-]`, and neither starting nor
ending with `-`. -/
def IsNamePart (s : List Char) : Prop :=
  s ≠ [] ∧ (∀ c ∈ s, c ∈ nameChars) ∧ s.head? ≠ some '-' ∧ s.getLast? ≠ some '-'

/-- Decided along the list, as `validateCharName` reads it. -/
instance : DecidablePred IsNamePart := fun s =>
  haveI : Decidable (∀ c ∈ s, c ∈ nameChars) := List.decidableBAll (· ∈ nameChars) s
  inferInstanceAs (Decidable (s ≠ [] ∧ (∀ c ∈ s, c ∈ nameChars) ∧ s.head? ≠ some '-' ∧ s.getLast? ≠ some '-'))

/-- A domain on its own: a name part of at most 62 characters. -/
def IsFioDomain (s : List Char) : Prop :=
  IsNamePart s ∧ s.length ≤ maxFioDomainLen

/-- An address: a name part, `@` and a domain part, 3 to 64 characters in all. -/
def IsFioAddress (s : List Char) : Prop :=
  ∃ name domain, s = name ++ '@' :: domain ∧ IsNamePart name ∧ IsNamePart domain ∧
    3 ≤ s.length ∧ s.length ≤ maxFioLen

theorem at_notMem_of_isNamePart {s : List Char} (part : IsNamePart s) : '@' ∉ s := fun mem =>
  absurd (part.2.1 '@' mem) (by decide)

/-- On a non-empty part `validateCharName` is defined, and accepts exactly the name parts. -/
theorem validateCharName_of_ne_nil {s : List Char} (ne : s ≠ []) :
    validateCharName s = some (decide (IsNamePart s)) := by
  obtain ⟨first, front⟩ := Option.ne_none_iff_exists'.mp (mt List.head?_eq_none_iff.mp ne)
  obtain ⟨last, back⟩ := Option.ne_none_iff_exists'.mp (mt List.getLast?_eq_none_iff.mp ne)
  unfold validateCharName IsNamePart
  by_cases chars : ∀ c ∈ s, c ∈ nameChars
  · -- every character is allowed: the two ends decide
    rw [if_neg (by simpa using chars)]
    by_cases dashFirst : first = '-'
    · simp [front, dashFirst]
    · by_cases dashLast : last = '-'
      · simp [front, back, dashFirst, dashLast]
      · simpa [front, back, dashFirst, dashLast, ne] using chars
  · rw [if_pos (by simpa using chars)]
    simp [chars]

/-- A domain alone: the length check, then the whole text as one part. -/
theorem validateFioNameFormat_domain (q : List Char) :
    validateFioNameFormat ⟨q, [], q, true⟩ =
      if q = [] ∨ maxFioDomainLen < q.length then some false else some (decide (IsNamePart q)) := by
  by_cases empty : q = []
  · subst empty
    rfl
  · have notShort : ¬ q.length < 1 := by
      have := List.length_pos_iff.mpr empty
      omega
    by_cases tooLong : maxFioDomainLen < q.length
    · simp [validateFioNameFormat, tooLong]
    · simp [validateFioNameFormat, notShort, tooLong, empty, validateCharName_of_ne_nil empty]

/-- An address cut at its first `@` after a non-empty name: the length check, then the name,
then the domain, which is undefined when empty. -/
theorem validateFioNameFormat_address {a b : List Char} (ne : a ≠ []) :
    validateFioNameFormat ⟨a ++ '@' :: b, a, b, false⟩ =
      if (a ++ '@' :: b).length < 3 ∨ maxFioLen < (a ++ '@' :: b).length then some false
      else if ¬ IsNamePart a then some false
      else if b = [] then none
      else some (decide (IsNamePart b)) := by
  unfold validateFioNameFormat
  simp only [Bool.false_eq_true, if_false, Bool.or_eq_true, decide_eq_true_eq, gt_iff_lt]
  by_cases bounds : (a ++ '@' :: b).length < 3 ∨ maxFioLen < (a ++ '@' :: b).length
  · rw [if_pos bounds, if_pos bounds]
  rw [if_neg bounds, if_neg bounds, validateCharName_of_ne_nil ne]
  by_cases name : IsNamePart a
  · rw [if_neg (not_not.mpr name)]
    by_cases empty : b = []
    · -- the domain is empty: its `front()` is read
      subst empty
      simp [name, validateCharName]
    · rw [if_neg empty, validateCharName_of_ne_nil empty]
      by_cases domain : IsNamePart b <;> simp [name, domain]
  · rw [if_pos name]
    simp [name]

/-! ## Lower-casing keeps the first `@` -/

/-- A lowered capital is a small letter, far from `@`. -/
theorem toLower_eq_at_iff (c : Char) : c.toLower = '@' ↔ c = '@' := by
  unfold Char.toLower
  split
  · rename_i upper
    constructor
    · intro same
      have values := congrArg (fun c : Char => c.val.toNat) same
      have low : 'A'.val.toNat ≤ c.val.toNat := UInt32.le_iff_toNat_le.mp upper.1
      have high : c.val.toNat ≤ 'Z'.val.toNat := UInt32.le_iff_toNat_le.mp upper.2
      simp only [UInt32.toNat_add] at values
      simp at values low high
      omega
    · rintro rfl
      exact absurd upper (by decide)
  · exact Iff.rfl

theorem idxOf?_makeLowerCase (p : List Char) : (makeLowerCase p).idxOf? '@' = p.idxOf? '@' := by
  simp only [makeLowerCase, List.idxOf?, List.findIdx?_map]
  congr 1
  funext c
  simp [toLower_eq_at_iff]

/-- The lowered text cut at its first `@` is the text cut there, lowered. -/
theorem getFioAddressStruct_of_split {p : List Char} {k : Nat} (found : p.idxOf? '@' = some (k + 1)) :
    ∃ a b, makeLowerCase p = a ++ '@' :: b ∧ '@' ∉ a ∧ a ≠ [] ∧
      getFioAddressStruct p = ⟨a ++ '@' :: b, a, b, false⟩ := by
  obtain ⟨a, b, cut, absent, length⟩ :=
    ListSplit.exists_split_of_idxOf? ((idxOf?_makeLowerCase p).trans found)
  refine ⟨a, b, cut, absent, List.ne_nil_of_length_pos (by omega), ?_⟩
  have take : (makeLowerCase p).take (k + 1) = a := by
    rw [cut, ← length, List.take_left]
  have drop : (makeLowerCase p).drop (k + 1 + 1) = b := by
    rw [cut, ← length]
    simp
  have domainOnly : (some (k + 1) == some 0 || some (k + 1) == none) = false := rfl
  simp only [getFioAddressStruct, found, domainOnly, Bool.false_eq_true, if_false]
  rw [take, drop, cut]

/-! ## The format `validateFioNameFormat` checks -/

theorem isFioAddress_iff {a b : List Char} (absent : '@' ∉ a) :
    IsFioAddress (a ++ '@' :: b) ↔
      IsNamePart a ∧ IsNamePart b ∧ 3 ≤ (a ++ '@' :: b).length ∧ (a ++ '@' :: b).length ≤ maxFioLen := by
  constructor
  · rintro ⟨name, domain, cut, nameOk, domainOk, bounds⟩
    obtain ⟨rfl, rfl⟩ := ListSplit.append_cons_inj_of_notMem absent (at_notMem_of_isNamePart nameOk) cut
    exact ⟨nameOk, domainOk, bounds⟩
  · rintro ⟨nameOk, domainOk, bounds⟩
    exact ⟨a, b, rfl, nameOk, domainOk, bounds⟩

/-- A text ends in its first `@` exactly when the domain after it is empty. -/
theorem endsAt_iff {a b : List Char} (absent : '@' ∉ a) :
    (∃ name, a ++ '@' :: b = name ++ ['@'] ∧ IsNamePart name ∧ 3 ≤ name.length + 1 ∧
        name.length + 1 ≤ maxFioLen) ↔
      b = [] ∧ IsNamePart a ∧ 3 ≤ (a ++ '@' :: b).length ∧ (a ++ '@' :: b).length ≤ maxFioLen := by
  constructor
  · rintro ⟨name, cut, nameOk, bounds⟩
    obtain ⟨rfl, rfl⟩ := ListSplit.append_cons_inj_of_notMem absent (at_notMem_of_isNamePart nameOk) cut
    exact ⟨rfl, nameOk, by simpa using bounds⟩
  · rintro ⟨rfl, nameOk, bounds⟩
    exact ⟨a, rfl, nameOk, by simpa using bounds⟩

theorem not_isFioDomain_of_mem {s : List Char} (mem : '@' ∈ s) : ¬ IsFioDomain s := fun domain =>
  at_notMem_of_isNamePart domain.1 mem

/-- `validateFioNameFormat(getFioAddressStruct(p))` accepts exactly the lower-cased domains and
addresses, and is undefined exactly on a valid name followed by a final `@`, whose empty
domain `validateCharName` reads. -/
theorem validateFioNameFormat_getFioAddressStruct (p : List Char) :
    (validateFioNameFormat (getFioAddressStruct p) = some true ↔
        IsFioDomain (makeLowerCase p) ∨ IsFioAddress (makeLowerCase p)) ∧
      (validateFioNameFormat (getFioAddressStruct p) = none ↔
        ∃ name, makeLowerCase p = name ++ ['@'] ∧ IsNamePart name ∧ 3 ≤ name.length + 1 ∧
          name.length + 1 ≤ maxFioLen) := by
  cases found : p.idxOf? '@' with
  | none =>
    -- no `@`: the whole text is checked as a domain
    have absent : '@' ∉ makeLowerCase p := by
      rw [← List.idxOf?_eq_none_iff, idxOf?_makeLowerCase, found]
    have struct : getFioAddressStruct p = ⟨makeLowerCase p, [], makeLowerCase p, true⟩ := by
      simp [getFioAddressStruct, found]
    have notAddress : ¬ IsFioAddress (makeLowerCase p) := by
      rintro ⟨name, domain, cut, -⟩
      exact absent (cut ▸ List.mem_append_right name List.mem_cons_self)
    rw [struct, validateFioNameFormat_domain, or_iff_left notAddress, IsFioDomain]
    refine ⟨?_, ⟨fun undefined => (by split_ifs at undefined), ?_⟩⟩
    · split_ifs with bad
      · simp only [Option.some.injEq, Bool.false_eq_true, false_iff, not_and]
        intro part
        rcases bad with empty | long
        · exact absurd empty part.1
        · omega
      · rw [not_or] at bad
        simp only [Option.some.injEq, decide_eq_true_eq]
        exact ⟨fun part => ⟨part, by omega⟩, fun domain => domain.1⟩
    · rintro ⟨name, cut, -⟩
      exact absurd (cut ▸ List.mem_append_right name (List.mem_singleton_self _)) absent
  | some k =>
    cases k with
    | zero =>
      -- a leading `@`: the whole text is checked as a domain, and `@` is no name character
      obtain ⟨a, b, cut, absent, length⟩ := ListSplit.exists_split_of_idxOf? ((idxOf?_makeLowerCase p).trans found)
      obtain rfl : a = [] := List.eq_nil_of_length_eq_zero length
      have struct : getFioAddressStruct p = ⟨makeLowerCase p, [], makeLowerCase p, true⟩ := by
        simp [getFioAddressStruct, found]
      have notPart : ¬ IsNamePart ([] ++ '@' :: b) := fun part => at_notMem_of_isNamePart part (by simp)
      have notName : ¬ IsNamePart ([] : List Char) := fun part => part.1 rfl
      rw [struct, validateFioNameFormat_domain, cut, isFioAddress_iff absent, endsAt_iff absent]
      simp only [IsFioDomain, notPart, notName, false_and, and_false, false_or, decide_false, ite_self,
        Option.some.injEq, Bool.false_eq_true, reduceCtorEq, and_self]
    | succ k =>
      -- an address: the lengths, then the name, then the domain
      obtain ⟨a, b, cut, absent, ne, struct⟩ := getFioAddressStruct_of_split found
      have notDomain : ¬ IsFioDomain (a ++ '@' :: b) := not_isFioDomain_of_mem (by simp)
      rw [struct, validateFioNameFormat_address ne, cut, isFioAddress_iff absent, endsAt_iff absent,
        or_iff_right notDomain]
      by_cases bounds : (a ++ '@' :: b).length < 3 ∨ maxFioLen < (a ++ '@' :: b).length
      · rw [if_pos bounds]
        have outside : ¬ (3 ≤ (a ++ '@' :: b).length ∧ (a ++ '@' :: b).length ≤ maxFioLen) := by omega
        exact ⟨⟨fun rejected => (by cases rejected), fun spec => absurd spec.2.2 outside⟩,
          ⟨fun rejected => (by cases rejected), fun spec => absurd spec.2.2 outside⟩⟩
      rw [if_neg bounds]
      have inside : 3 ≤ (a ++ '@' :: b).length ∧ (a ++ '@' :: b).length ≤ maxFioLen := by omega
      by_cases name : IsNamePart a
      · rw [if_neg (not_not.mpr name)]
        by_cases empty : b = []
        · -- the domain is empty: `validateCharName` reads its `front()`
          rw [if_pos empty]
          subst empty
          have notName : ¬ IsNamePart ([] : List Char) := fun part => part.1 rfl
          exact ⟨⟨fun undefined => (by cases undefined), fun spec => absurd spec.2.1 notName⟩,
            ⟨fun _ => ⟨rfl, name, inside⟩, fun _ => rfl⟩⟩
        · rw [if_neg empty]
          simp only [Option.some.injEq, decide_eq_true_eq]
          exact ⟨⟨fun domain => ⟨name, domain, inside⟩, fun spec => spec.2.1⟩,
            ⟨fun defined => (by cases defined), fun spec => absurd spec.1 empty⟩⟩
      · rw [if_pos name]
        exact ⟨⟨fun rejected => (by cases rejected), fun spec => absurd spec.1 name⟩,
          ⟨fun rejected => (by cases rejected), fun spec => absurd spec.2.1 name⟩⟩

example : validateFioNameFormat (getFioAddressStruct "Alice@FIO".toList) = some true := by decide

/-- On `abc@` the name `abc` passes, and `validateCharName` then reads `front()` of the empty
domain. -/
theorem validateFioNameFormat_reads_empty_domain :
    validateFioNameFormat (getFioAddressStruct "abc@".toList) = none := by
  decide

end Fioio

end Fio.Chain
