import FioChain.BlockHeaderState.Run

/-! The producer schedules along every run from genesis. A promotion only takes a pending
schedule with producers, so the active schedule is never empty and `get_scheduled_producer`
always finds a producer. The pending schedule is the active one or the proposal after it:
`_finish_next` accepts a new schedule only at the next version, and a promotion leaves an
empty pending schedule at the promoted version. A version is proposed at most once a block,
so below the wrap of block numbers the `uint32_t` version never wraps either. -/

namespace Fio.Chain

namespace BlockHeaderState

/-- The schedule versions a header state carries. -/
@[mk_iff] structure Schedules (s : BlockHeaderState) : Prop where
  active_ne_nil : s.activeSchedule.producers ≠ []
  version_le : s.activeSchedule.version ≤ s.pendingSchedule.schedule.version
  le_version_succ : s.pendingSchedule.schedule.version ≤ s.activeSchedule.version + 1
  version_lt : s.pendingSchedule.schedule.version < s.blockNum

variable {admits : BlockHeader → Prop} {s s' : BlockHeaderState} {h : BlockHeader}

theorem schedules_genesis (initialKey : PublicKey) (initialTimestamp : BlockTimestamp) :
    (genesis initialKey initialTimestamp).Schedules :=
  ⟨by simp [genesis], le_rfl, Nat.le_succ _, by simp [genesis]⟩

/-- The step lemma: an accepted header below the wrap keeps the schedule versions. -/
theorem schedules_nextHeader (schedules : s.Schedules) (room : s.blockNum + 1 < 2 ^ 32)
    (ok : s.nextHeader h = .ok s') : s'.Schedules := by
  have below := schedules.version_lt
  obtain ⟨prokey, -, -, -, -, rfl, -, -, proposed⟩ := nextHeader_ok ok
  simp only [schedules_iff, PendingBlockHeaderState.finished_pendingSchedule,
    PendingBlockHeaderState.finished_toBlockHeaderStateCommon, nextPending_activeSchedule,
    nextPending_blockNum, Nat.mod_eq_of_lt room]
  unfold PendingBlockHeaderState.nextPendingSchedule
  cases newProducers : h.newProducers with
  | some np =>
    -- a new schedule is only accepted at the next version of an active schedule kept, and
    -- that version is below the new block's number
    obtain ⟨notPromoted, bumped, -⟩ := proposed np newProducers
    have older := schedules.version_le
    simp only [notPromoted, Bool.false_eq_true, if_false]
    exact ⟨schedules.active_ne_nil, by omega, by omega, by omega⟩
  | none =>
    simp only [nextPending_wasPendingPromoted, nextPending_prevPendingSchedule]
    cases promotes : s.promotesPending (s.calcDposLastIrreversible prokey.producerName) with
    | true =>
      -- the promoted schedule has producers, and its version stays pending
      have nonempty : s.pendingSchedule.schedule.producers ≠ [] := by
        simp only [promotesPending, Bool.and_eq_true, decide_eq_true_eq] at promotes
        exact List.ne_nil_of_length_pos (Nat.pos_of_ne_zero promotes.1)
      simp only [if_true]
      exact ⟨nonempty, le_rfl, Nat.le_succ _, by omega⟩
    | false =>
      simp only [Bool.false_eq_true, if_false]
      exact ⟨schedules.active_ne_nil, schedules.version_le, schedules.le_version_succ, by omega⟩

theorem Reachable.schedules (reached : Reachable admits s) : s.Schedules := by
  induction reached with
  | genesis initialKey initialTimestamp => exact schedules_genesis initialKey initialTimestamp
  | next _ _ room ok schedules => exact schedules_nextHeader schedules room ok

end BlockHeaderState

end Fio.Chain
