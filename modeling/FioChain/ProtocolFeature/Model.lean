import FioChain.Types
import Mathlib.Data.List.DropRight

/-! The activation state of `protocol_feature_manager`. It is kept twice: the vector
`_activated_protocol_features` of every activation in order, and an intrusive singly linked
list of the activated builtin features threaded through the per-codename vector
`_builtin_protocol_features` from `_head_of_builtin_activation_list` along `previous`.
`activate_feature` pushes onto both, and `popped_blocks_to` pops from both what was
activated after a block. The digest type is a type variable. -/

namespace Fio.Chain

/-- `builtin_protocol_feature_t`. -/
inductive BuiltinProtocolFeatureT where
  | preactivateFeature
  | onlyLinkToExistingPermission
  | replaceDeferred
  | noDuplicateDeferredId
  | fixLinkauthRestriction
  | disallowEmptyProducerSchedule
  | restrictActionToSelf
  | onlyBillFirstAuthorizer
  | forwardSetcode
  | getSender
  | ramRestrictions
  deriving DecidableEq, Repr

/-- `static_cast<uint32_t>` of a codename: its place in the enumeration. -/
def BuiltinProtocolFeatureT.toIndex : BuiltinProtocolFeatureT → Nat
  | preactivateFeature => 0
  | onlyLinkToExistingPermission => 1
  | replaceDeferred => 2
  | noDuplicateDeferredId => 3
  | fixLinkauthRestriction => 4
  | disallowEmptyProducerSchedule => 5
  | restrictActionToSelf => 6
  | onlyBillFirstAuthorizer => 7
  | forwardSetcode => 8
  | getSender => 9
  | ramRestrictions => 10

theorem BuiltinProtocolFeatureT.toIndex_injective : Function.Injective BuiltinProtocolFeatureT.toIndex := by
  intro a b same
  cases a <;> cases b <;> first | rfl | cases same

variable {D : Type}

/-- A recognized protocol feature: its digest, and its codename when it is a builtin. -/
structure ProtocolFeature (D : Type) where
  featureDigest : D
  builtinFeature : Option BuiltinProtocolFeatureT

/-- `protocol_feature_entry`: the activated feature, read through its iterator as its
digest, and the block that activated it. -/
structure ProtocolFeatureEntry (D : Type) where
  featureDigest : D
  activationBlockNum : UInt32

/-- `builtin_protocol_feature_entry`. -/
structure BuiltinProtocolFeatureEntry where
  previous : Nat
  activationBlockNum : UInt32
  deriving DecidableEq, Repr

namespace BuiltinProtocolFeatureEntry

/-- `no_previous`, the largest `size_t`. -/
def noPrevious : Nat := 2 ^ 64 - 1

/-- `not_active`, the largest `uint32_t`. -/
def notActive : UInt32 := 4294967295

instance : Inhabited BuiltinProtocolFeatureEntry := ⟨⟨noPrevious, notActive⟩⟩

end BuiltinProtocolFeatureEntry

open BuiltinProtocolFeatureEntry

structure ProtocolFeatureManager (D : Type) where
  /-- The recognized features of `_protocol_feature_set`. -/
  protocolFeatureSet : List (ProtocolFeature D)
  activatedProtocolFeatures : List (ProtocolFeatureEntry D)
  builtinProtocolFeatures : List BuiltinProtocolFeatureEntry
  headOfBuiltinActivationList : Nat
  initialized : Bool

/-- A manager operation: the state reached is kept when an exception is thrown. -/
abbrev FeatureOp (D : Type) (α : Type) := EStateM Exception (ProtocolFeatureManager D) α

namespace ProtocolFeatureManager

variable [DecidableEq D]

/-- The size `_recognized_builtin_protocol_features` grows to: one past the largest
recognized codename. -/
def recognizedBuiltinCount (protocolFeatureSet : List (ProtocolFeature D)) : Nat :=
  (protocolFeatureSet.filterMap ProtocolFeature.builtinFeature).foldr (fun c n => max n (c.toIndex + 1)) 0

/-- The manager over a feature set, as its constructor leaves it and `init` marks it
initialized, before the stored activations are replayed through `activate_feature`. -/
def initial (protocolFeatureSet : List (ProtocolFeature D)) : ProtocolFeatureManager D where
  protocolFeatureSet := protocolFeatureSet
  activatedProtocolFeatures := []
  builtinProtocolFeatures := List.replicate (recognizedBuiltinCount protocolFeatureSet) default
  headOfBuiltinActivationList := noPrevious
  initialized := true

def findFeature (m : ProtocolFeatureManager D) (featureDigest : D) : Option (ProtocolFeature D) :=
  m.protocolFeatureSet.find? fun f => f.featureDigest = featureDigest

def activateFeature (featureDigest : D) (currentBlockNum : UInt32) : FeatureOp D Unit := fun m =>
  if !m.initialized then
    .error (.protocolFeatureException "protocol_feature_manager is not yet initialized") m
  else
    match m.findFeature featureDigest with
    | none => .error (.protocolFeatureException "unrecognized protocol feature digest: ${digest}") m
    | some feature =>
      if m.activatedProtocolFeatures.getLast?.any (fun last => !(last.activationBlockNum ≤ currentBlockNum)) then
        .error (.protocolFeatureException
          ("last protocol feature activation block num is ${last_activation_block_num} yet " ++
            "attempting to activate protocol feature with a current block num of ${current_block_num}" ++
            "protocol features is ${last_activation_block_num}")) m
      else
        match feature.builtinFeature with
        | none => .error (.protocolFeatureException
            "invariant failure: encountered non-builtin protocol feature which is not yet supported") m
        | some codename =>
          let indx := codename.toIndex
          if indx < m.builtinProtocolFeatures.length then
            if (m.builtinProtocolFeatures.getD indx default).activationBlockNum ≠ notActive then
              .error (.protocolFeatureException
                "cannot activate already activated builtin feature with digest: ${digest}") m
            else
              .ok () { m with
                activatedProtocolFeatures := m.activatedProtocolFeatures ++ [⟨featureDigest, currentBlockNum⟩]
                builtinProtocolFeatures :=
                  m.builtinProtocolFeatures.set indx ⟨m.headOfBuiltinActivationList, currentBlockNum⟩
                headOfBuiltinActivationList := indx }
          else
            .error (.protocolFeatureException
              ("invariant failure while trying to activate feature with digest '${digest}': " ++
                "unsupported builtin_protocol_feature_t ${codename}")) m

/-- The first loop of `popped_blocks_to`: from the head of the builtin list, unlink every
entry activated after `blockNum`. `fuel` bounds the rounds; the list visits each entry at
most once before it reaches `no_previous` in every state the manager reaches. -/
def unlinkAfter (blockNum : UInt32) : Nat → ProtocolFeatureManager D → Except Exception (ProtocolFeatureManager D)
  | 0, _ => .error .nonTermination
  | fuel + 1, m =>
    if m.headOfBuiltinActivationList = noPrevious then .ok m
    else
      let e := m.builtinProtocolFeatures.getD m.headOfBuiltinActivationList default
      if e.activationBlockNum ≤ blockNum then .ok m
      else
        unlinkAfter blockNum fuel { m with
          headOfBuiltinActivationList := e.previous
          builtinProtocolFeatures := m.builtinProtocolFeatures.set m.headOfBuiltinActivationList default }

def poppedBlocksTo (blockNum : UInt32) : FeatureOp D Unit := fun m =>
  if !m.initialized then
    .error (.protocolFeatureException "protocol_feature_manager is not yet initialized") m
  else
    match unlinkAfter blockNum (m.builtinProtocolFeatures.length + 2) m with
    | .error e => .error e m
    | .ok m =>
      .ok () { m with
        activatedProtocolFeatures :=
          m.activatedProtocolFeatures.rdropWhile fun e => blockNum < e.activationBlockNum }

/-- `lower_bound`: the ordinal of the first activation not before `blockNum`, or none for
`cend()`. `std::lower_bound` finds it when the vector is sorted by block. -/
def lowerBound (m : ProtocolFeatureManager D) (blockNum : UInt32) : Option Nat :=
  m.activatedProtocolFeatures.findIdx? fun e => !(e.activationBlockNum < blockNum)

end ProtocolFeatureManager

end Fio.Chain
