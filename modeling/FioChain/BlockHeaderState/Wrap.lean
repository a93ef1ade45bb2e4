import FioChain.BlockHeaderState.Irreversibility
import FioChain.BlockHeaderState.Schedule

/-! The wrap of `uint32_t` block numbers, which the runs of `Reachable` stop short of. A chain
that `eosio` signs alone reaches every block number below `2 ^ 32`, one block a slot. Past
`2 ^ 32 - 1` the next block is numbered `0`: its producer's bound for double confirmations
wraps with it, so the producer of block `2 ^ 32 - 1` is refused from then on, the proposed
irreversible block lies above the block number, and the irreversible block can go down
without a promotion. -/

namespace Fio.Chain

namespace BlockHeaderState

variable {s : BlockHeaderState} {n : Nat}

/-- The double-confirm bound `(block_num + 1) - confirmed` is a `uint32_t`, so a producer
whose last block is `2 ^ 32 - 1` is refused every block after it. -/
theorem confirmsKnownRange_of_last_max {p : Name}
    (last : s.producerToLastProduced.lookup p = some (2 ^ 32 - 1)) (c : UInt16) :
    s.confirmsKnownRange p c = true := by
  have bound := Nat.mod_lt (s.blockNum + 1 + 2 ^ 32 - c.toNat) (show 0 < 2 ^ 32 by decide)
  simp only [confirmsKnownRange, last, Bool.not_eq_eq_eq_not, Bool.not_true, decide_eq_false_iff_not, not_lt]
  omega

/-! ### The chain `eosio` signs alone -/

/-- `eosio` with the key of `genesis ⟨0⟩ ⟨0⟩`. -/
def soloKey : ProducerKey := ⟨Config.systemAccountName, ⟨0⟩⟩

/-- The header `eosio` signs at slot `n`, confirming no earlier block. -/
def soloHeader (n : Nat) : BlockHeader := ⟨⟨n⟩, Config.systemAccountName, 0, 0, none⟩

/-- The headers of blocks `n + 1` to `n + k`, each at the slot of its number. -/
def soloHeaders (n k : Nat) : List BlockHeader := (List.range' (n + 1) k).map soloHeader

/-- The header state after block `n` of the chain `eosio` signs alone from `genesis ⟨0⟩ ⟨0⟩`,
for `n ≥ 3`: each block confirms itself, so it is the proposed irreversible block and its
parent the irreversible one. -/
def soloState (n : Nat) : BlockHeaderState :=
  { blockNum := n
    dposProposedIrreversibleBlocknum := n
    dposIrreversibleBlocknum := n - 1
    activeSchedule := ⟨0, [soloKey]⟩
    producerToLastProduced := (∅ : ProducerMap).insert Config.systemAccountName n
    producerToLastImpliedIrb := (∅ : ProducerMap).insert Config.systemAccountName (n - 1)
    blockSigningKey := ⟨0⟩
    confirmCount := []
    header := soloHeader n
    pendingSchedule := ⟨0, ⟨0, []⟩⟩ }

/-- Below the wrap, `next` at the slot after block `n` schedules `eosio`, whose last block is
`n`. -/
theorem soloState_next (room : n + 1 < 2 ^ 32) :
    (soloState n).next ⟨n + 1⟩ 0 = .ok ((soloState n).nextPending ⟨n + 1⟩ soloKey 0) := by
  have nonzero : (⟨n + 1⟩ : BlockTimestamp) ≠ ⟨0⟩ := by simp
  have later : (soloState n).header.timestamp.slot < n + 1 := Nat.lt_succ_self n
  have scheduled : (soloState n).getScheduledProducer ⟨n + 1⟩ = some soloKey := by
    simp [getScheduledProducer, soloState, Config.producerRepetitions]
  have fresh : (soloState n).confirmsKnownRange soloKey.producerName 0 = false := by
    have last : ((∅ : ProducerMap).insert Config.systemAccountName n).lookup Config.systemAccountName =
        some n := AList.lookup_insert _
    simp only [confirmsKnownRange, soloKey, soloState, last]
    simp
    omega
  unfold next
  rw [if_pos nonzero, if_pos later]
  simp only [bind, Except.bind, pure, Except.pure, scheduled, fresh, Bool.false_eq_true, if_false]

/-- The block `eosio` adds confirms itself, as one confirmation is all a schedule of one needs:
the pending state, finished with its header, is block `n + 1` of the chain. -/
theorem soloState_finished (room : n + 1 < 2 ^ 32) :
    ((soloState n).nextPending ⟨n + 1⟩ soloKey 0).finished (soloHeader (n + 1)) = soloState (n + 1) := by
  have tally : (soloState n).tallyNext 0 = ([], n + 1) := by
    simp [BlockHeaderStateCommon.tallyNext, soloState, growConfirmCount, requiredConfs, tallyConfirmations,
      Config.maximumTrackedDposConfirmations]
    omega
  have lib : (soloState n).calcDposLastIrreversible Config.systemAccountName = n := by
    simp [BlockHeaderStateCommon.calcDposLastIrreversible, BlockHeaderStateCommon.blocknums, soloState,
      OrderStat.kth]
  have kept : (soloState n).promotesPending n = false := rfl
  have numbered : (soloState n).blockNum = n := rfl
  simp only [PendingBlockHeaderState.finished, PendingBlockHeaderState.nextPendingSchedule, nextPending,
    soloKey, tally, lib, kept, numbered, Nat.mod_eq_of_lt room]
  simp [soloState, soloHeader]

/-- The step lemma of the chain: below the wrap, `eosio`'s header at the next slot takes
block `n` to block `n + 1`. -/
theorem soloState_nextHeader (room : n + 1 < 2 ^ 32) :
    (soloState n).nextHeader (soloHeader (n + 1)) = .ok (soloState (n + 1)) := by
  -- the header repeats what the pending state holds, so `_finish_next` accepts it
  have finishes : ((soloState n).nextPending ⟨n + 1⟩ soloKey 0).finishNext (soloHeader (n + 1)) =
      .ok (((soloState n).nextPending ⟨n + 1⟩ soloKey 0).finished (soloHeader (n + 1))) := by
    have version : (soloState n).activeSchedule.version = 0 := rfl
    unfold PendingBlockHeaderState.finishNext
    simp [soloHeader, soloKey, version, pure, Except.pure]
  have stamp : (soloHeader (n + 1)).timestamp = ⟨n + 1⟩ := rfl
  have confirmed : (soloHeader (n + 1)).confirmed = 0 := rfl
  simp only [nextHeader, stamp, confirmed, soloState_next room, bind, Except.bind, finishes,
    soloState_finished room]

/-- The run lemma of the chain, by induction on the number of headers. -/
theorem soloState_runHeaders (n k : Nat) (room : n + k < 2 ^ 32) :
    (soloState n).runHeaders (soloHeaders n k) = .ok (soloState (n + k)) := by
  induction k generalizing n with
  | zero => rfl
  | succ k ih =>
    have first := soloState_nextHeader (n := n) (by omega)
    have rest := ih (n + 1) (by omega)
    rw [show n + 1 + k = n + (k + 1) by omega] at rest
    simp only [soloHeaders, List.range'_succ, List.map_cons, runHeaders_cons, first, bind, Except.bind]
    exact rest

/-- From genesis the chain reaches every block number below `2 ^ 32`; its first block is the
one that promotes the genesis schedule. -/
theorem genesis_runHeaders_solo (k : Nat) (room : k + 3 < 2 ^ 32) :
    (genesis ⟨0⟩ ⟨0⟩).runHeaders (soloHeaders 1 (k + 2)) = .ok (soloState (k + 3)) := by
  have first : (genesis ⟨0⟩ ⟨0⟩).runHeaders [soloHeader 2, soloHeader 3] = .ok (soloState 3) := rfl
  have split : soloHeaders 1 (k + 2) = [soloHeader 2, soloHeader 3] ++ soloHeaders 3 k := rfl
  rw [split, Nat.add_comm k]
  exact runHeaders_append_of_ok first (soloState_runHeaders 3 k (by omega))

/-- The chain's last block before the schedule change at the wrap. -/
theorem genesis_runHeaders_near_wrap :
    (genesis ⟨0⟩ ⟨0⟩).runHeaders (soloHeaders 1 (2 ^ 32 - 5)) = .ok (soloState (2 ^ 32 - 4)) := by
  have solo := genesis_runHeaders_solo (2 ^ 32 - 7) (by decide)
  rwa [show 2 ^ 32 - 7 + 2 = 2 ^ 32 - 5 from rfl, show 2 ^ 32 - 7 + 3 = 2 ^ 32 - 4 from rfl] at solo

/-! ### Past the wrap

From block `2 ^ 32 - 4`, `eosio` proposes a schedule of three producers at the last slot and
promotes it at the default time, slot `0` after the wrap of slots. `producerA` signs block
`2 ^ 32 - 1` and `producerB` block `0`, confirming one block. Block `0` still tracks block
`2 ^ 32 - 2` as proposed irreversible. `producerC` then confirms two blocks and makes block
`2 ^ 32 - 1` proposed irreversible; `producerB` confirms three, which its double-confirm bound
allows as it wraps, and makes block `0` proposed irreversible. With that `0` as its entry,
`producerC`'s next block reads the least of the three entries, `0`. -/

/-- The schedule `eosio` hands over to before the wrap. -/
def scheduleThree : ProducerSchedule := ⟨1, [⟨producerA, ⟨0⟩⟩, ⟨producerB, ⟨0⟩⟩, ⟨producerC, ⟨0⟩⟩]⟩

/-- Blocks `2 ^ 32 - 3` to `0`. -/
def wrapHeaders : List BlockHeader :=
  [⟨⟨2 ^ 32 - 1⟩, Config.systemAccountName, 0, 0, some scheduleThree⟩,
   ⟨⟨0⟩, Config.systemAccountName, 0, 0, none⟩,
   ⟨⟨1⟩, producerA, 0, 1, none⟩,
   ⟨⟨12⟩, producerB, 1, 1, none⟩]

/-- From genesis, block `0` after the wrap has its proposed irreversible block above its own
number. -/
theorem proposed_above_blockNum_past_wrap :
    ∃ s, (genesis ⟨0⟩ ⟨0⟩).runHeaders (soloHeaders 1 (2 ^ 32 - 5) ++ wrapHeaders) = .ok s ∧
      s.blockNum = 0 ∧ s.blockNum < s.dposProposedIrreversibleBlocknum := by
  obtain ⟨s, ran, zero, above⟩ : ∃ s, (soloState (2 ^ 32 - 4)).runHeaders wrapHeaders = .ok s ∧
      s.blockNum = 0 ∧ s.blockNum < s.dposProposedIrreversibleBlocknum := ⟨_, rfl, rfl, by decide⟩
  exact ⟨s, runHeaders_append_of_ok genesis_runHeaders_near_wrap ran, zero, above⟩

/-- The irreversible block goes down on the block right after a promotion below the wrap, and
past the wrap also after a block that promoted nothing: from block `1` after the wrap,
`producerB` confirms three blocks and `producerC` follows. -/
theorem lib_drops_after_promotion_or_past_wrap :
    (∃ s s' s'' : BlockHeaderState, ∃ h h' : BlockHeader,
      Reachable BlockHeader.ProposesWellFormed s ∧ s.nextHeader h = .ok s' ∧
      s.promotesPending (s.calcDposLastIrreversible h.producer) = true ∧
      s'.nextHeader h' = .ok s'' ∧ s''.dposIrreversibleBlocknum < s'.dposIrreversibleBlocknum) ∧
    ∃ s s' s'' : BlockHeaderState, ∃ h h' : BlockHeader,
      (genesis ⟨0⟩ ⟨0⟩).runHeaders
          (soloHeaders 1 (2 ^ 32 - 5) ++ wrapHeaders ++ [⟨⟨24⟩, producerC, 2, 1, none⟩]) = .ok s ∧
      s.nextHeader h = .ok s' ∧ s.promotesPending (s.calcDposLastIrreversible h.producer) = false ∧
      s'.nextHeader h' = .ok s'' ∧ s''.dposIrreversibleBlocknum < s'.dposIrreversibleBlocknum := by
  obtain ⟨s, s', s'', ran, ok, kept, ok', dropped⟩ : ∃ s s' s'' : BlockHeaderState,
      (soloState (2 ^ 32 - 4)).runHeaders (wrapHeaders ++ [⟨⟨24⟩, producerC, 2, 1, none⟩]) = .ok s ∧
      s.nextHeader ⟨⟨48⟩, producerB, 3, 1, none⟩ = .ok s' ∧
      s.promotesPending (s.calcDposLastIrreversible producerB) = false ∧
      s'.nextHeader ⟨⟨60⟩, producerC, 0, 1, none⟩ = .ok s'' ∧
      s''.dposIrreversibleBlocknum < s'.dposIrreversibleBlocknum :=
    ⟨_, _, _, rfl, rfl, rfl, rfl, by decide⟩
  refine ⟨lib_drops_after_promotion, s, s', s'', _, _, ?_, ok, kept, ok', dropped⟩
  rw [List.append_assoc]
  exact runHeaders_append_of_ok genesis_runHeaders_near_wrap ran

end BlockHeaderState

end Fio.Chain
