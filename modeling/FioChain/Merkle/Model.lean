import FioChain.Lib.MerkleLevels

/-! `incremental_merkle` and `merkle`. The digest type is a type variable `D`, and
`DigestType::hash` and `make_canonical_pair` are parameters, so every result holds for every
hash function. `_node_count` and the helpers of `detail` compute on `uint64_t`: the model uses
`Nat` with the wrap-around of `+` and `-` written out, and `clz_power_2` never goes below
zero. `append` reads `*active_iter`; reading past the end of `_active_nodes` is undefined
behaviour, and the model returns `none`. -/

namespace Fio.Chain

namespace Detail

/-- `detail::next_power_of_2`: the bits below the highest bit of `value - 1` are filled, then
one is added. -/
def nextPowerOf2 (value : Nat) : Nat :=
  let value := (value + 2 ^ 64 - 1) % 2 ^ 64
  let value := value ||| value >>> 1
  let value := value ||| value >>> 2
  let value := value ||| value >>> 4
  let value := value ||| value >>> 8
  let value := value ||| value >>> 16
  let value := value ||| value >>> 32
  (value + 1) % 2 ^ 64

/-- `detail::clz_power_2`. -/
def clzPower2 (value : Nat) : Nat :=
  let lz := 64
  let lz := if value ≠ 0 then lz - 1 else lz
  let lz := if value &&& 0x00000000FFFFFFFF ≠ 0 then lz - 32 else lz
  let lz := if value &&& 0x0000FFFF0000FFFF ≠ 0 then lz - 16 else lz
  let lz := if value &&& 0x00FF00FF00FF00FF ≠ 0 then lz - 8 else lz
  let lz := if value &&& 0x0F0F0F0F0F0F0F0F ≠ 0 then lz - 4 else lz
  let lz := if value &&& 0x3333333333333333 ≠ 0 then lz - 2 else lz
  if value &&& 0x5555555555555555 ≠ 0 then lz - 1 else lz

/-- `detail::calcluate_max_depth`. -/
def calcluateMaxDepth (nodeCount : Nat) : Nat :=
  if nodeCount = 0 then 0
  else clzPower2 (nextPowerOf2 nodeCount) + 1

end Detail

/-- `incremental_merkle_impl`. -/
structure IncrementalMerkle (D : Type) where
  nodeCount : Nat
  activeNodes : List D

namespace IncrementalMerkle

variable {D P : Type} (hash : P → D) (makeCanonicalPair : D → D → P)

/-- The default-constructed tree. -/
def empty : IncrementalMerkle D := ⟨0, []⟩

/-- The `while (current_depth > 0)` loop of `append`, one level per iteration. `activeIter`
is what is left of `_active_nodes` from `active_iter` on, and `updated` is
`updated_active_nodes`. -/
def collapse : (currentDepth index : Nat) → (top : D) → (partialNode : Bool) →
    (activeIter updated : List D) → Option (D × List D)
  | 0, _, top, _, _, updated => some (top, updated)
  | currentDepth + 1, index, top, partialNode, activeIter, updated =>
    if index &&& 1 = 0 then
      -- a "left" value: the implied "right" value is the same, and only a fully realized
      -- node is kept
      collapse currentDepth (index >>> 1) (hash (makeCanonicalPair top top)) true activeIter
        (if partialNode then updated else updated ++ [top])
    else
      match activeIter with
      | [] => none
      | leftValue :: rest =>
        collapse currentDepth (index >>> 1) (hash (makeCanonicalPair leftValue top)) partialNode rest
          (if partialNode then updated ++ [leftValue] else updated)

/-- `incremental_merkle_impl::append`: the new tree and the root it returns. -/
def append (m : IncrementalMerkle D) (digest : D) : Option (IncrementalMerkle D × D) :=
  let maxDepth := Detail.calcluateMaxDepth ((m.nodeCount + 1) % 2 ^ 64)
  match collapse hash makeCanonicalPair (maxDepth - 1) m.nodeCount digest false m.activeNodes [] with
  | none => none
  | some (top, updated) => some (⟨(m.nodeCount + 1) % 2 ^ 64, updated ++ [top]⟩, top)

/-- `incremental_merkle_impl::get_root`; `none` for `back()` of an empty vector. -/
def getRoot [Inhabited D] (m : IncrementalMerkle D) : Option D :=
  if m.nodeCount > 0 then m.activeNodes.getLast? else some default

/-- The digests appended one after the other. -/
def appendEach (m : IncrementalMerkle D) : List D → Option (IncrementalMerkle D)
  | [] => some m
  | digest :: rest =>
    match m.append hash makeCanonicalPair digest with
    | none => none
    | some (m', _) => appendEach m' rest

end IncrementalMerkle

/-- `merkle`: while more than one digest is left, an odd last digest is duplicated and the
digests are hashed in pairs; the default digest for none. -/
def merkle {D P : Type} [Inhabited D] (hash : P → D) (makeCanonicalPair : D → D → P) (ids : List D) : D :=
  (MerkleLevels.top (fun l r => hash (makeCanonicalPair l r)) ids).getD default

end Fio.Chain
