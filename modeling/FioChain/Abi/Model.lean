import FioChain.Types

/-! `abi_serializer`: type names and their resolution through typedefs, the decoder
`_binary_to_variant` and the encoder `_variant_to_binary`. A type name is the list of its
characters, and the serializer's maps are lists searched by key, since `set_abi` rejects
duplicate keys. The built-in types are a parameter: each comes with the `fc::raw` unpack and
pack of its C++ type through its `fc::variant` form, and `vector<T>` and `optional<T>` are
derived from them as `fc::raw` does. A stream is the list of the bytes not yet read.

The depth check of `abi_traverse_context::enter_scope` is a budget that every scope spends
one of; the deadline checks, the error paths of the context and the 1 MiB buffer of the
encoder are left out. -/

namespace Fio.Chain

/-- `fc::variant`, with the kinds the serializer builds and reads. -/
inductive Variant where
  | null
  | int (v : Int)
  | string (s : List Char)
  | array (items : List Variant)
  | object (fields : List (List Char × Variant))

/-- `variant::is_null`. -/
def Variant.isNull : Variant → Bool
  | .null => true
  | _ => false

/-- `mutable_variant_object::operator()`: the value replaces the one under the key, or is
appended. -/
def setField (obj : List (List Char × Variant)) (key : List Char) (value : Variant) :
    List (List Char × Variant) :=
  if obj.any (·.1 = key) then obj.map fun entry => if entry.1 = key then (key, value) else entry
  else obj ++ [(key, value)]

/-! ### `fc::raw` -/

/-- `datastream::get` of one byte. -/
def unpackByte : List UInt8 → Except Exception (UInt8 × List UInt8)
  | [] => throw .outOfRangeException
  | b :: rest => pure (b, rest)

/-- The loop of `fc::raw::unpack` of an `unsigned_int`: seven bits a byte, lowest first, while
the top bit is set and fewer than 32 bits were read. -/
def unpackVaruint32Loop : Nat → Nat → Nat → List UInt8 → Except Exception (Nat × List UInt8)
  | 0, v, _, stream => pure (v % 2 ^ 32, stream)
  | fuel + 1, v, shift, stream => do
    let (b, stream) ← unpackByte stream
    let v := v ||| ((b.toNat % 128) <<< shift) % 2 ^ 32
    if b.toNat ≥ 128 ∧ shift + 7 < 32 then unpackVaruint32Loop fuel v (shift + 7) stream
    else pure (v % 2 ^ 32, stream)

/-- `fc::raw::unpack` of an `unsigned_int`: at most five bytes. -/
def unpackVaruint32 (stream : List UInt8) : Except Exception (Nat × List UInt8) :=
  unpackVaruint32Loop 5 0 0 stream

/-- The loop of `fc::raw::pack` of an `unsigned_int`: the low seven bits, with the top bit set
while more follow. -/
def packVaruint32Loop : Nat → Nat → List UInt8
  | 0, _ => []
  | fuel + 1, val =>
    let rest := val / 128
    if rest > 0 then (val % 128 + 128).toUInt8 :: packVaruint32Loop fuel rest
    else [(val % 128).toUInt8]

/-- `fc::raw::pack` of an `unsigned_int`, a value below `2 ^ 32`: at most five bytes. -/
def packVaruint32 (val : Nat) : List UInt8 := packVaruint32Loop 5 val

/-- A built-in type of the serializer: `fc::raw` unpack and pack of its C++ type `T`, through
the `fc::variant` form of `T`. -/
structure BuiltIn where
  unpack : List UInt8 → Except Exception (Variant × List UInt8)
  pack : Variant → Except Exception (List UInt8)

namespace BuiltIn

/-- Unpacking `count` values one after the other. -/
def unpackItems (bt : BuiltIn) : Nat → List UInt8 → Except Exception (List Variant × List UInt8)
  | 0, stream => pure ([], stream)
  | count + 1, stream => do
    let (v, stream) ← bt.unpack stream
    let (vs, stream) ← bt.unpackItems count stream
    pure (v :: vs, stream)

/-- The unpack function of `pack_unpack<T>`: `vector<T>`, `optional<T>` or `T`. A `bool` flag
must be 0 or 1. -/
def unpackAs (bt : BuiltIn) (isArray isOptional : Bool) (stream : List UInt8) :
    Except Exception (Variant × List UInt8) :=
  if isArray then do
    let (size, stream) ← unpackVaruint32 stream
    let (items, stream) ← bt.unpackItems size stream
    pure (.array items, stream)
  else if isOptional then do
    let (flag, stream) ← unpackByte stream
    if flag > 1 then throw .assertException
    else if flag = 1 then bt.unpack stream
    else pure (.null, stream)
  else bt.unpack stream

/-- The pack function of `pack_unpack<T>`: `var.as<vector<T>>()`, `var.as<optional<T>>()` or
`var.as<T>()`, packed. -/
def packAs (bt : BuiltIn) (isArray isOptional : Bool) (var : Variant) : Except Exception (List UInt8) :=
  if isArray then
    match var with
    | .array items => do
      let packed ← items.mapM bt.pack
      pure (packVaruint32 items.length ++ packed.flatten)
    | _ => throw .badCastException
  else if isOptional then
    match var with
    | .null => pure [0]
    | v => do
      let packed ← bt.pack v
      pure (1 :: packed)
  else bt.pack var

end BuiltIn

/-! ### Type names -/

def endsWith (type suffix : List Char) : Bool := suffix.isSuffixOf type

/-- `abi_serializer::is_array`. -/
def isArray (type : List Char) : Bool := endsWith type "[]".toList

/-- `abi_serializer::is_optional`. -/
def isOptional (type : List Char) : Bool := endsWith type "?".toList

/-- `abi_serializer::fundamental_type`: the type without one `[]` or `?`. -/
def fundamentalType (type : List Char) : List Char :=
  if isArray type then type.take (type.length - 2)
  else if isOptional type then type.take (type.length - 1)
  else type

/-- `abi_serializer::_remove_bin_extension`. -/
def removeBinExtension (type : List Char) : List Char :=
  if endsWith type "$".toList then type.take (type.length - 1) else type

/-- `field_def`. -/
structure FieldDef where
  name : List Char
  type : List Char

/-- `struct_def`: an empty `base` is no base. -/
structure StructDef where
  name : List Char
  base : List Char
  fields : List FieldDef

/-- `variant_def`. -/
structure VariantDef where
  name : List Char
  types : List (List Char)

/-- The maps of `abi_serializer` that the conversions read. -/
structure AbiSerializer where
  typedefs : List (List Char × List Char)
  structs : List StructDef
  variants : List VariantDef
  builtInTypes : List (List Char × BuiltIn)

/-- `max_recursion_depth`. -/
def maxRecursionDepth : Nat := 32

namespace AbiSerializer

variable (abi : AbiSerializer)

def findStruct (type : List Char) : Option StructDef := abi.structs.find? (·.name = type)

def findVariant (type : List Char) : Option VariantDef := abi.variants.find? (·.name = type)

def findBuiltIn (type : List Char) : Option BuiltIn := abi.builtInTypes.lookup type

/-- The loop of `resolve_type`: follow typedefs from `t`, at most `i` times; a chain that does
not end in that many steps gives back the `type` asked for. -/
def resolveLoop (type : List Char) : Nat → List Char → List Char
  | 0, _ => type
  | i + 1, t =>
    match abi.typedefs.lookup t with
    | none => t
    | some next => resolveLoop type i next

/-- `abi_serializer::resolve_type`. -/
def resolveType (type : List Char) : List Char :=
  match abi.typedefs.lookup type with
  | none => type
  | some t => abi.resolveLoop type abi.typedefs.length t

/-- `abi_serializer::_is_type`. -/
def isType : Nat → List Char → Except Exception Bool
  | 0, _ => throw (.abiRecursionDepthException "recursive definition, max_recursion_depth ${r} ")
  | budget + 1, rtype =>
    let type := fundamentalType rtype
    if (abi.findBuiltIn type).isSome then pure true
    else match abi.typedefs.lookup type with
      | some t => isType budget t
      | none => pure ((abi.findStruct type).isSome || (abi.findVariant type).isSome)

/-! ### Decoding -/

/-- The element loop of `_binary_to_variant` for an array: `size` elements, none of them null.
`decode` is the decoder one scope down. -/
def decodeArrayItems (decode : List Char → List UInt8 → Except Exception (Variant × List UInt8))
    (ftype : List Char) : Nat → List UInt8 → Except Exception (List Variant × List UInt8)
  | 0, stream => pure ([], stream)
  | size + 1, stream => do
    let (v, stream) ← decode ftype stream
    if v.isNull then throw (.unpackException "Invalid packed array '${p}'")
    else do
      let (vs, stream) ← decodeArrayItems decode ftype size stream
      pure (v :: vs, stream)

/-- The field loop of the struct `_binary_to_variant`. Once the stream is empty, fields whose
type ends in `$` are left out, and any other field throws. -/
def decodeFields (abi : AbiSerializer) (decode : List Char → List UInt8 → Except Exception (Variant × List UInt8)) :
    List FieldDef → Bool → List (List Char × Variant) → List UInt8 →
      Except Exception (List (List Char × Variant) × List UInt8)
  | [], _, obj, stream => pure (obj, stream)
  | field :: rest, encounteredExtension, obj, stream =>
    let extension := endsWith field.type "$".toList
    let encounteredExtension := encounteredExtension || extension
    if stream.isEmpty then
      if extension then decodeFields abi decode rest encounteredExtension obj stream
      else if encounteredExtension then
        throw (.abiException
          "Encountered field '${f}' without binary extension designation while processing struct '${p}'")
      else throw (.unpackException "Stream unexpectedly ended; unable to unpack field '${f}' of struct '${p}'")
    else do
      let (value, stream) ← decode (abi.resolveType (if extension then removeBinExtension field.type else field.type)) stream
      decodeFields abi decode rest encounteredExtension (setField obj field.name value) stream

mutual

/-- `abi_serializer::_binary_to_variant(type, stream, ctx)`. -/
def binaryToVariant : Nat → List Char → List UInt8 → Except Exception (Variant × List UInt8)
  | 0, _, _ => throw (.abiRecursionDepthException "recursive definition, max_recursion_depth ${r} ")
  | budget + 1, type, stream =>
    let rtype := abi.resolveType type
    let ftype := fundamentalType rtype
    match abi.findBuiltIn ftype with
    | some bt => (bt.unpackAs (isArray rtype) (isOptional rtype) stream).mapError fun _ =>
        .unpackException "Unable to unpack ${class} type '${type}' while processing '${p}'"
    | none =>
      if isArray rtype then do
        let (size, stream) ← (unpackVaruint32 stream).mapError fun _ =>
          .unpackException "Unable to unpack size of array '${p}'"
        let (vars, stream) ← decodeArrayItems (binaryToVariant budget) ftype size stream
        pure (.array vars, stream)
      else if isOptional rtype then do
        let (flag, stream) ← (unpackByte stream).mapError fun _ =>
          .unpackException "Unable to unpack presence flag of optional '${p}'"
        if flag ≠ 0 then binaryToVariant budget ftype stream else pure (.null, stream)
      else
        match abi.findVariant rtype with
        | some v => do
          let (select, stream) ← (unpackVaruint32 stream).mapError fun _ =>
            .unpackException "Unable to unpack tag of variant '${p}'"
          match v.types[select]? with
          | none => throw (.unpackException "Unpacked invalid tag (${select}) for variant '${p}'")
          | some t => do
            let (value, stream) ← binaryToVariant budget t stream
            pure (.array [.string t, value], stream)
        | none => do
          let (mvo, stream) ← structToVariant budget rtype stream []
          if mvo.isEmpty then throw (.unpackException "Unable to unpack '${p}' from stream")
          else pure (.object mvo, stream)

/-- `abi_serializer::_binary_to_variant(type, stream, obj, ctx)`: the base struct's fields,
then the struct's own, into `obj`. -/
def structToVariant : Nat → List Char → List UInt8 → List (List Char × Variant) →
    Except Exception (List (List Char × Variant) × List UInt8)
  | 0, _, _, _ => throw (.abiRecursionDepthException "recursive definition, max_recursion_depth ${r} ")
  | budget + 1, type, stream, obj =>
    match abi.findStruct type with
    | none => throw (.invalidTypeInsideAbi "Unknown type ${type}")
    | some st => do
      let (obj, stream) ← (if st.base ≠ [] then structToVariant budget (abi.resolveType st.base) stream obj
        else pure (obj, stream) : Except Exception _)
      abi.decodeFields (binaryToVariant budget) st.fields false obj stream

end

/-! ### Encoding -/

/-- The field loop of `_variant_to_binary` for a struct given as an object. The last field
keeps the context's permission to leave out extensions, the others lose it; a missing `$`
field is left out only with that permission, and then no later field may be given. -/
def encodeObjectFields (encode : Bool → List Char → Variant → Except Exception (List UInt8)) (allow : Bool)
    (vo : List (List Char × Variant)) : List FieldDef → Bool → Except Exception (List UInt8)
  | [], _ => pure []
  | field :: rest, disallowAdditionalFields =>
    match vo.lookup field.name with
    | some value =>
      if disallowAdditionalFields then
        throw (.packException "Unexpected field '${f}' found in input object while processing struct '${p}'")
      else do
        let here ← encode (allow && rest.isEmpty) (removeBinExtension field.type) value
        let after ← encodeObjectFields encode allow vo rest disallowAdditionalFields
        pure (here ++ after)
    | none =>
      if endsWith field.type "$".toList && allow then encodeObjectFields encode allow vo rest true
      else if disallowAdditionalFields then
        throw (.abiException
          "Encountered field '${f}' without binary extension designation while processing struct '${p}'")
      else throw (.packException "Missing field '${f}' in input object while processing struct '${p}'")

/-- The field loop of `_variant_to_binary` for a struct given as an array of its field values. -/
def encodeArrayFields (encode : Bool → List Char → Variant → Except Exception (List UInt8)) (allow : Bool) :
    List FieldDef → List Variant → Except Exception (List UInt8)
  | [], _ => pure []
  | field :: rest, v :: vs => do
    let here ← encode (allow && rest.isEmpty) (removeBinExtension field.type) v
    let after ← encodeArrayFields encode allow rest vs
    pure (here ++ after)
  | field :: _, [] =>
    if endsWith field.type "$".toList && allow then pure []
    else throw (.packException
      "Early end to input array specifying the fields of struct '${p}'; require input for field '${f}'")

/-- `abi_serializer::_variant_to_binary(type, var, ds, ctx)`; `allow` is the context's
`allow_extensions`, which every scope restores on exit. -/
def variantToBinary : Nat → Bool → List Char → Variant → Except Exception (List UInt8)
  | 0, _, _, _ => throw (.abiRecursionDepthException "recursive definition, max_recursion_depth ${r} ")
  | budget + 1, allow, type, var =>
    let rtype := abi.resolveType type
    match abi.findBuiltIn (fundamentalType rtype) with
    | some bt => bt.packAs (isArray rtype) (isOptional rtype) var
    | none =>
      if isArray rtype then
        match var with
        | .array vars => do
          let items ← vars.mapM (variantToBinary budget false (fundamentalType rtype))
          pure (packVaruint32 vars.length ++ items.flatten)
        | _ => throw .badCastException
      else
        match abi.findVariant rtype with
        | some v =>
          match var with
          | .array [.string t, value] =>
            match v.types.idxOf? t with
            | some i => do
              let packed ← variantToBinary budget allow t value
              pure (packVaruint32 i ++ packed)
            | none => throw (.packException
                "Specified type '${t}' in input array is not valid within the variant '${p}'")
          | .array [_, _] => throw (.packException
              "Encountered non-string as first item of input array while processing variant '${p}'")
          | _ => throw (.packException
              "Expected input to be an array of two items while processing variant '${p}'")
        | none =>
          match abi.findStruct rtype with
          | some st =>
            match var with
            | .object vo => do
              let base ← (if st.base ≠ [] then variantToBinary budget false (abi.resolveType st.base) var
                else pure [] : Except Exception (List UInt8))
              let fields ← encodeObjectFields (variantToBinary budget) allow vo st.fields false
              pure (base ++ fields)
            | .array va =>
              if st.base ≠ [] then throw (.invalidTypeInsideAbi
                "Using input array to specify the fields of the derived struct '${p}'; input arrays are currently only allowed for structs without a base")
              else encodeArrayFields (variantToBinary budget) allow st.fields va
            | _ => throw (.packException "Unexpected input encountered while processing struct '${p}'")
          | none => throw (.invalidTypeInsideAbi "Unknown type ${type}")

/-! ### The entry points -/

/-- `abi_serializer::binary_to_variant`: the context starts at depth 0 and the function that
opens the stream is one scope. Returns the value and the bytes it did not read. -/
def binaryToVariantTop (type : List Char) (binary : List UInt8) : Except Exception (Variant × List UInt8) :=
  abi.binaryToVariant (maxRecursionDepth - 2) type binary

/-- One hex digit. -/
def hexDigit (c : Char) : Except Exception Nat :=
  if c.isDigit then pure (c.toNat - '0'.toNat)
  else if 'a' ≤ c ∧ c ≤ 'f' then pure (c.toNat - 'a'.toNat + 10)
  else if 'A' ≤ c ∧ c ≤ 'F' then pure (c.toNat - 'A'.toNat + 10)
  else throw .assertException

/-- Two hex digits a byte, as `var.as<bytes>()` reads a string. -/
def fromHex : List Char → Except Exception (List UInt8)
  | [] => pure []
  | [_] => throw .assertException
  | high :: low :: rest => do
    let h ← hexDigit high
    let l ← hexDigit low
    let bytes ← fromHex rest
    pure ((16 * h + l).toUInt8 :: bytes)

/-- `abi_serializer::variant_to_binary`: a name that is not a type takes the value as the
bytes themselves. -/
def variantToBinaryTop (type : List Char) (var : Variant) : Except Exception (List UInt8) := do
  if ← abi.isType (maxRecursionDepth - 2) type then abi.variantToBinary (maxRecursionDepth - 2) true type var
  else
    match var with
    | .string s => fromHex s
    | _ => throw .badCastException

end AbiSerializer

end Fio.Chain
