import FioChain.ProtocolFeature.Invariant

/-! Every sequence of `activate_feature` and `popped_blocks_to` calls from `init`, with the
history of the activations that succeeded, where a pop to block `n` deletes what came after
`n`. While every activation is at a block below `not_active`, the manager keeps that history:
the vector is the history, the queries cut it where its blocks say, the builtin list visits its
codenames from the newest, and a pop lets exactly the popped builtins be activated again. At
the block `not_active` itself the entry of an activated builtin reads as never activated. -/

namespace Fio.Chain

open BuiltinProtocolFeatureEntry IntrusiveList

variable {D : Type} [DecidableEq D]

namespace ProtocolFeatureManager

/-- The states a manager over the feature set `pfs` reaches from `init`, with the history of
the activations that succeeded: activations at blocks below the sentinel, rejected
activations, and pops. -/
inductive Reachable (pfs : List (ProtocolFeature D)) : ProtocolFeatureManager D → List (D × UInt32) → Prop
  | initial : Reachable pfs (initial pfs) []
  | activate {m m' : ProtocolFeatureManager D} {H : List (D × UInt32)} {d : D} {b : UInt32} :
      Reachable pfs m H → b < notActive → activateFeature d b m = .ok () m' → Reachable pfs m' (H ++ [(d, b)])
  | reject {m m' : ProtocolFeatureManager D} {H : List (D × UInt32)} {d : D} {b : UInt32} {e : Exception} :
      Reachable pfs m H → activateFeature d b m = .error e m' → Reachable pfs m' H
  | pop {m m' : ProtocolFeatureManager D} {H : List (D × UInt32)} (n : UInt32) :
      Reachable pfs m H → poppedBlocksTo n m = .ok () m' → Reachable pfs m' (H.filter fun p => p.2 ≤ n)

section Runs

variable {pfs : List (ProtocolFeature D)} {m : ProtocolFeatureManager D} {H : List (D × UInt32)}

/-- Along every run the feature set and the size of the builtin vector stay as `init` set
them, and the manager tracks the history. -/
theorem Reachable.tracks (reach : Reachable pfs m H) :
    m.protocolFeatureSet = pfs ∧ m.builtinProtocolFeatures.length = recognizedBuiltinCount pfs ∧ m.Tracks H := by
  induction reach with
  | initial => exact ⟨rfl, List.length_replicate .., tracks_initial pfs⟩
  | activate _ below ok ih =>
    obtain ⟨same, length, tracks⟩ := ih
    obtain ⟨-, -, i, -, -, -, rfl⟩ := activateFeature_ok ok
    exact ⟨same, by simpa using length, tracks.activate ok below⟩
  | reject _ failed ih =>
    rw [activateFeature_error failed]
    exact ih
  | pop n _ ok ih =>
    obtain ⟨same, length, tracks⟩ := ih
    obtain ⟨same', length'⟩ := poppedBlocksTo_frame ok
    -- the pop is deterministic: the state it reaches is the one `Tracks.pop` describes
    obtain ⟨m'', popped, tracks'⟩ := tracks.pop n
    rw [ok] at popped
    cases popped
    exact ⟨same'.trans same, length'.trans length, tracks'⟩

end Runs

end ProtocolFeatureManager

end Fio.Chain
