import FioChain.Abi.Model

/-! Where the decoder and the encoder of `abi_serializer` part ways. `_binary_to_variant`
reads an optional of any type, but `_variant_to_binary` has no branch for an optional that is
not of a built-in type, so it throws `Unknown type` for every value; `_variant_to_binary`
writes a missing optional inside an array and a struct with no fields, but
`_binary_to_variant` refuses a null array element and an empty object. -/

namespace Fio.Chain

/-! ### Type names with a suffix -/

theorem isArray_optional (t : List Char) : isArray (t ++ ['?']) = false := by
  simp [isArray, endsWith, List.isSuffixOf, List.isPrefixOf]

theorem isOptional_optional (t : List Char) : isOptional (t ++ ['?']) = true := by
  simp [isOptional, endsWith, List.isSuffixOf]

theorem fundamentalType_optional (t : List Char) : fundamentalType (t ++ ['?']) = t := by
  simp [fundamentalType, isArray_optional, isOptional_optional]

theorem isArray_array (t : List Char) : isArray (t ++ ['[', ']']) = true := by
  simp [isArray, endsWith, List.isSuffixOf]

theorem fundamentalType_array (t : List Char) : fundamentalType (t ++ ['[', ']']) = t := by
  simp [fundamentalType, isArray_array]

namespace AbiSerializer

variable {abi : AbiSerializer}

theorem resolveType_of_lookup_none {type : List Char} (plain : abi.typedefs.lookup type = none) :
    abi.resolveType type = type := by
  simp [resolveType, plain]

/-- A typedef to a type that is not itself a typedef resolves in one step. -/
theorem resolveType_of_lookup_some {type target : List Char} (named : abi.typedefs.lookup type = some target)
    (plain : abi.typedefs.lookup target = none) : abi.resolveType type = target := by
  have entries : 0 < abi.typedefs.length := by
    cases typedefs : abi.typedefs with
    | nil => simp [typedefs] at named
    | cons _ _ => simp
  obtain ⟨n, length⟩ := Nat.exists_eq_succ_of_ne_zero (Nat.pos_iff_ne_zero.mp entries)
  simp [resolveType, named, length, resolveLoop, plain]

/-- An optional of a struct is read from a zero flag as null, but nothing is ever written for
it: `_variant_to_binary` has no branch for an optional that is not of a built-in type. -/
theorem optionalStruct_read_not_written {t : List Char} (struct : (abi.findStruct t).isSome)
    (notBuiltIn : abi.findBuiltIn t = none) (plain : abi.typedefs.lookup t = none)
    (plainOptional : abi.typedefs.lookup (t ++ ['?']) = none) (notStruct : abi.findStruct (t ++ ['?']) = none)
    (notVariant : abi.findVariant (t ++ ['?']) = none) :
    abi.binaryToVariantTop (t ++ ['?']) [0] = .ok (.null, []) ∧
      ∀ v, ∃ e, abi.variantToBinaryTop (t ++ ['?']) v = .error e := by
  constructor
  · rw [binaryToVariantTop, maxRecursionDepth, binaryToVariant]
    simp only [resolveType_of_lookup_none plainOptional, fundamentalType_optional, notBuiltIn, isArray_optional,
      isOptional_optional]
    rfl
  · intro v
    have isType : abi.isType 30 (t ++ ['?']) = .ok true := by
      rw [isType]
      simp [fundamentalType_optional, notBuiltIn, plain, struct, pure, Except.pure]
    refine ⟨.invalidTypeInsideAbi "Unknown type ${type}", ?_⟩
    unfold variantToBinaryTop
    rw [maxRecursionDepth, show 32 - 2 = 30 from rfl, isType]
    simp only [bind, Except.bind, if_true]
    rw [variantToBinary.eq_def]
    simp only [resolveType_of_lookup_none plainOptional, fundamentalType_optional, notBuiltIn, isArray_optional,
      notVariant, notStruct]
    rfl

/-- A missing element of an array of optionals of a built-in type is written as a zero flag,
and an array holding such a flag is refused. -/
theorem nullElement_written_not_read {o b : List Char} {bt : BuiltIn}
    (named : abi.typedefs.lookup o = some (b ++ ['?'])) (plainOptional : abi.typedefs.lookup (b ++ ['?']) = none)
    (builtIn : abi.findBuiltIn b = some bt) (notBuiltIn : abi.findBuiltIn o = none)
    (plainArray : abi.typedefs.lookup (o ++ ['[', ']']) = none) :
    abi.variantToBinaryTop (o ++ ['[', ']']) (.array [.null]) = .ok [1, 0] ∧
      ∃ e, abi.binaryToVariantTop (o ++ ['[', ']']) [1, 0] = .error e := by
  have element : abi.resolveType o = b ++ ['?'] := resolveType_of_lookup_some named plainOptional
  constructor
  · have isType : abi.isType 30 (o ++ ['[', ']']) = .ok true := by
      rw [isType.eq_def]
      simp only [fundamentalType_array, notBuiltIn, named, Option.isSome_none]
      rw [isType.eq_def]
      simp [fundamentalType_optional, builtIn, pure, Except.pure]
    unfold variantToBinaryTop
    rw [maxRecursionDepth, show 32 - 2 = 30 from rfl, isType]
    simp only [bind, Except.bind, if_true]
    have missing : abi.variantToBinary 29 false o .null = .ok [0] := by
      rw [variantToBinary.eq_def]
      simp only [element, fundamentalType_optional, builtIn, isArray_optional, isOptional_optional]
      rfl
    rw [variantToBinary.eq_def]
    simp only [resolveType_of_lookup_none plainArray, fundamentalType_array, notBuiltIn, isArray_array, if_true,
      List.mapM_cons, List.mapM_nil, missing]
    rfl
  · refine ⟨.unpackException "Invalid packed array '${p}'", ?_⟩
    have missing : abi.binaryToVariant 29 o [0] = .ok (.null, []) := by
      rw [binaryToVariant]
      simp only [element, fundamentalType_optional, builtIn, isArray_optional, isOptional_optional]
      rfl
    rw [binaryToVariantTop, maxRecursionDepth, binaryToVariant]
    have size : unpackVaruint32 [1, 0] = .ok (1, [0]) := rfl
    simp only [resolveType_of_lookup_none plainArray, fundamentalType_array, notBuiltIn, isArray_array, ite_true,
      size, Except.mapError, bind, Except.bind]
    rw [decodeArrayItems]
    simp only [missing, bind, Except.bind]
    rfl

/-- A struct with no base and no fields is written as no bytes, and never read: the decoder
refuses the empty object it builds. -/
theorem emptyStruct_written_not_read {st : StructDef} (found : abi.findStruct st.name = some st)
    (noBase : st.base = []) (noFields : st.fields = []) (notBuiltIn : abi.findBuiltIn st.name = none)
    (plain : abi.typedefs.lookup st.name = none) (notVariant : abi.findVariant st.name = none)
    (notArray : isArray st.name = false) (notOptional : isOptional st.name = false) :
    abi.variantToBinaryTop st.name (.object []) = .ok [] ∧
      ∀ bytes, ∃ e, abi.binaryToVariantTop st.name bytes = .error e := by
  have bare : fundamentalType st.name = st.name := by simp [fundamentalType, notArray, notOptional]
  constructor
  · have isType : abi.isType 30 st.name = .ok true := by
      rw [isType.eq_def]
      simp [bare, notBuiltIn, plain, found, pure, Except.pure]
    unfold variantToBinaryTop
    rw [maxRecursionDepth, show 32 - 2 = 30 from rfl, isType]
    simp only [bind, Except.bind, if_true]
    rw [variantToBinary.eq_def]
    simp only [resolveType_of_lookup_none plain, bare, notBuiltIn, notArray, notVariant, found, noBase, noFields]
    rfl
  · intro bytes
    refine ⟨.unpackException "Unable to unpack '${p}' from stream", ?_⟩
    have empty : abi.structToVariant 29 st.name bytes [] = .ok ([], bytes) := by
      rw [structToVariant]
      simp only [found, noBase, noFields]
      rfl
    rw [binaryToVariantTop, maxRecursionDepth, binaryToVariant]
    simp only [resolveType_of_lookup_none plain, bare, notBuiltIn, notArray, notOptional, notVariant, empty]
    rfl

end AbiSerializer

/-- The encoder and the decoder of `abi_serializer` disagree for every ABI: an optional of a
struct is read but never written, and a missing optional inside an array and a struct with
no fields are written but never read. -/
theorem abi_round_trip_breaks :
    (∀ (abi : AbiSerializer) (t : List Char), (abi.findStruct t).isSome → abi.findBuiltIn t = none →
      abi.typedefs.lookup t = none → abi.typedefs.lookup (t ++ ['?']) = none →
      abi.findStruct (t ++ ['?']) = none → abi.findVariant (t ++ ['?']) = none →
      abi.binaryToVariantTop (t ++ ['?']) [0] = .ok (.null, []) ∧
        ∀ v, ∃ e, abi.variantToBinaryTop (t ++ ['?']) v = .error e) ∧
    (∀ (abi : AbiSerializer) (o b : List Char) (bt : BuiltIn), abi.typedefs.lookup o = some (b ++ ['?']) →
      abi.typedefs.lookup (b ++ ['?']) = none → abi.findBuiltIn b = some bt → abi.findBuiltIn o = none →
      abi.typedefs.lookup (o ++ ['[', ']']) = none →
      abi.variantToBinaryTop (o ++ ['[', ']']) (.array [.null]) = .ok [1, 0] ∧
        ∃ e, abi.binaryToVariantTop (o ++ ['[', ']']) [1, 0] = .error e) ∧
    (∀ (abi : AbiSerializer) (st : StructDef), abi.findStruct st.name = some st → st.base = [] →
      st.fields = [] → abi.findBuiltIn st.name = none → abi.typedefs.lookup st.name = none →
      abi.findVariant st.name = none → isArray st.name = false → isOptional st.name = false →
      abi.variantToBinaryTop st.name (.object []) = .ok [] ∧
        ∀ bytes, ∃ e, abi.binaryToVariantTop st.name bytes = .error e) :=
  ⟨fun _ _ => AbiSerializer.optionalStruct_read_not_written, fun _ _ _ _ => AbiSerializer.nullElement_written_not_read,
    fun _ _ => AbiSerializer.emptyStruct_written_not_read⟩

/-- `pack_unpack<uint8_t>`: one byte, an integer in the variant. -/
def uint8BuiltIn : BuiltIn where
  unpack
    | [] => throw .outOfRangeException
    | b :: rest => pure (.int b.toNat, rest)
  pack
    | .int v => if 0 ≤ v ∧ v < 256 then pure [v.toNat.toUInt8] else throw .badCastException
    | _ => throw .badCastException

/-- An ABI with a struct `S { uint8 a; }`, a struct `E {}` and `typedef uint8? O`. -/
def optionalsAbi : AbiSerializer where
  typedefs := [("O".toList, "uint8?".toList)]
  structs := [⟨"S".toList, [], [⟨"a".toList, "uint8".toList⟩]⟩, ⟨"E".toList, [], []⟩]
  variants := []
  builtInTypes := [("uint8".toList, uint8BuiltIn)]

theorem optionalsAbi_round_trip_breaks :
    (optionalsAbi.binaryToVariantTop "S?".toList [0] = .ok (.null, []) ∧
      ∀ v, ∃ e, optionalsAbi.variantToBinaryTop "S?".toList v = .error e) ∧
    (optionalsAbi.variantToBinaryTop "O[]".toList (.array [.null]) = .ok [1, 0] ∧
      ∃ e, optionalsAbi.binaryToVariantTop "O[]".toList [1, 0] = .error e) ∧
    (optionalsAbi.variantToBinaryTop "E".toList (.object []) = .ok [] ∧
      ∀ bytes, ∃ e, optionalsAbi.binaryToVariantTop "E".toList bytes = .error e) :=
  ⟨abi_round_trip_breaks.1 optionalsAbi "S".toList rfl rfl rfl rfl rfl rfl,
    abi_round_trip_breaks.2.1 optionalsAbi "O".toList "uint8".toList uint8BuiltIn rfl rfl rfl rfl rfl,
    abi_round_trip_breaks.2.2 optionalsAbi ⟨"E".toList, [], []⟩ rfl rfl rfl rfl rfl rfl rfl rfl⟩

end Fio.Chain
