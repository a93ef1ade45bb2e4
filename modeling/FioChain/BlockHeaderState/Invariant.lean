import FioChain.BlockHeaderState.Step
import FioChain.Lib.AListEntries

/-! The dpos bookkeeping along every run from genesis. Three invariants, each with its own
assumptions:

* `Votes`: the irreversible block is at most the proposed one, every producer's implied
  block is at most the proposed one, and the tracked confirmation counts fit between the
  proposed block and the current one. It holds from genesis on, for any accepted header.
* `Producers`: the implied map has exactly the active producers as keys and the
  last-produced map has them all. Genesis starts with empty maps; the first block promotes
  the initial schedule and establishes it, and every later block keeps it.
* `Confirmations`: every tracked count is positive, so the `uint8` decrement never wraps,
  as long as every schedule is well formed as `set_proposed_producers` makes it. -/

namespace Fio.Chain

/-- What `set_proposed_producers` enforces: at most `max_producers` producers, no name
twice. -/
def ProducerSchedule.WellFormed (schedule : ProducerSchedule) : Prop :=
  schedule.producers.length ≤ Config.maxProducers ∧ schedule.names.Nodup

/-- A header whose new schedule, if any, is well formed. -/
def BlockHeader.ProposesWellFormed (h : BlockHeader) : Prop :=
  ∀ newProducers, h.newProducers = some newProducers → newProducers.WellFormed

/-! ### The confirmation loop -/

section Tally

variable {blockNum proposed : Nat}

/-- The loop that spends confirmations keeps the tracked blocks between the proposed block
and the current one, never lowers the proposed block and never tracks more blocks than it
was given. The induction follows the loop; `before` and `after` together are the tracked
counts. -/
theorem tallyConfirmations_bounds (before after : List UInt8) (n : Nat)
    (room : proposed + before.length + after.length ≤ blockNum) (small : blockNum < 2 ^ 32) :
    proposed ≤ (tallyConfirmations blockNum proposed before after n).2 ∧
      (tallyConfirmations blockNum proposed before after n).2 +
        (tallyConfirmations blockNum proposed before after n).1.length ≤ blockNum ∧
      (tallyConfirmations blockNum proposed before after n).1.length ≤ before.length + after.length := by
  fun_induction tallyConfirmations blockNum proposed before after n with
  | case1 after _ => exact ⟨le_rfl, by simpa using room, by simp⟩
  | case2 before after _ => exact ⟨le_rfl, by simpa [Nat.add_assoc] using room, by simp⟩
  | case3 c before after _ reached =>
    -- the count of `c`'s block reaches zero: it becomes the proposed block
    simp only [List.length_cons] at room ⊢
    exact ⟨by omega, by omega, by omega⟩
  | case4 c before after _ notReached ih =>
    have := ih (by simp only [List.length_cons] at room ⊢; omega)
    simp only [List.length_cons] at this ⊢
    exact ⟨this.1, this.2.1, by omega⟩

/-- The loop leaves no count at zero when it starts with none: a count that reaches zero is
dropped with every older one. -/
theorem tallyConfirmations_ne_zero {before after : List UInt8} {n : Nat}
    (beforePos : ∀ x ∈ before, x ≠ 0) (afterPos : ∀ x ∈ after, x ≠ 0) :
    ∀ x ∈ (tallyConfirmations blockNum proposed before after n).1, x ≠ 0 := by
  fun_induction tallyConfirmations blockNum proposed before after n with
  | case1 after _ => exact afterPos
  | case2 before after _ =>
    intro x mem
    rcases List.mem_append.mp mem with mem | mem
    · exact beforePos x (List.mem_reverse.mp mem)
    · exact afterPos x mem
  | case3 c before after _ reached => exact afterPos
  | case4 c before after _ notReached ih =>
    apply ih (fun x mem => beforePos x (List.mem_cons_of_mem _ mem))
    intro x mem
    rcases List.mem_cons.mp mem with rfl | mem
    · exact notReached
    · exact afterPos x mem

end Tally

theorem growConfirmCount_length_le (confirmCount : List UInt8) (requiredConfs : UInt8) :
    (growConfirmCount confirmCount requiredConfs).length ≤ confirmCount.length + 1 := by
  unfold growConfirmCount
  split <;> simp

theorem growConfirmCount_length_le_max {confirmCount : List UInt8} (requiredConfs : UInt8)
    (bounded : confirmCount.length ≤ Config.maximumTrackedDposConfirmations) :
    (growConfirmCount confirmCount requiredConfs).length ≤ Config.maximumTrackedDposConfirmations := by
  have cap : Config.maximumTrackedDposConfirmations = 1024 := rfl
  unfold growConfirmCount
  split <;> simp <;> omega

theorem mem_growConfirmCount {confirmCount : List UInt8} {requiredConfs x : UInt8}
    (mem : x ∈ growConfirmCount confirmCount requiredConfs) : x ∈ confirmCount ∨ x = requiredConfs := by
  unfold growConfirmCount at mem
  split at mem
  · simpa using mem
  · rcases List.mem_append.mp mem with mem | mem
    · exact .inl (List.mem_of_mem_tail mem)
    · exact .inr (List.mem_singleton.mp mem)

/-- The count a new block needs is positive for a schedule of at most `max_producers`. -/
theorem requiredConfs_ne_zero {schedule : ProducerSchedule}
    (bounded : schedule.producers.length ≤ Config.maxProducers) : requiredConfs schedule ≠ 0 := by
  intro zero
  have cast := congrArg UInt8.toNat zero
  rw [requiredConfs, Nat.toUInt8_eq, UInt8.toNat_ofNat] at cast
  simp only [Config.maxProducers] at bounded
  simp at cast
  omega

/-! ### The irreversible block and the rebuilt maps -/

/-- Every block number `calc_dpos_last_irreversible` reads is at most the proposed block, so
its result is too. -/
theorem BlockHeaderStateCommon.calcDposLastIrreversible_le {s : BlockHeaderStateCommon}
    (bounded : ∀ e ∈ s.producerToLastImpliedIrb.entries, e.2 ≤ s.dposProposedIrreversibleBlocknum)
    (producer : Name) : s.calcDposLastIrreversible producer ≤ s.dposProposedIrreversibleBlocknum := by
  -- every block number read is the proposed block or an implied one below it
  have read : ∀ x ∈ s.blocknums producer, x ≤ s.dposProposedIrreversibleBlocknum := by
    intro x mem
    obtain ⟨e, entry, rfl⟩ := List.mem_map.mp mem
    split
    · exact le_rfl
    · exact bounded e entry
  simp only [calcDposLastIrreversible]
  split
  · exact Nat.zero_le _
  · rcases OrderStat.kth_mem_or_default 0 _ _ with mem | zero
    · exact read _ mem
    · rw [zero]
      exact Nat.zero_le _

section Rebuild

variable {producers : List ProducerKey} {old m : ProducerMap} {producer n : Name} {own seed : Nat}

theorem mem_foldl_rebuildEntry :
    n ∈ producers.foldl (rebuildEntry old producer own seed) m ↔
      n ∈ m ∨ n ∈ producers.map ProducerKey.producerName := by
  induction producers generalizing m with
  | nil => simp
  | cons pro rest ih =>
    rw [List.foldl_cons, ih]
    have inserted : ∀ v, n ∈ m.insert pro.producerName v ↔ n = pro.producerName ∨ n ∈ m :=
      fun v => AList.mem_insert m
    unfold rebuildEntry
    split
    · simp only [inserted, List.map_cons, List.mem_cons]; tauto
    · split <;> simp only [inserted, List.map_cons, List.mem_cons] <;> tauto

/-- The rebuilt map has exactly the new schedule's producers as keys. -/
theorem mem_rebuildProducerMap :
    n ∈ rebuildProducerMap producers old producer own seed ↔ n ∈ producers.map ProducerKey.producerName := by
  rw [rebuildProducerMap, mem_foldl_rebuildEntry]
  exact or_iff_right (AList.notMem_empty n)

theorem foldl_rebuildEntry_le {bound : Nat} (ownLe : own ≤ bound) (seedLe : seed ≤ bound)
    (oldLe : ∀ e ∈ old.entries, e.2 ≤ bound) (mLe : ∀ e ∈ m.entries, e.2 ≤ bound) :
    ∀ e ∈ (producers.foldl (rebuildEntry old producer own seed) m).entries, e.2 ≤ bound := by
  induction producers generalizing m with
  | nil => exact mLe
  | cons pro rest ih =>
    apply ih
    unfold rebuildEntry
    split
    · exact AList.forall_entries_insert mLe ownLe
    · split
      · rename_i existing found
        exact AList.forall_entries_insert mLe (oldLe _ (AList.mem_lookup_iff.mp found))
      · exact AList.forall_entries_insert mLe seedLe

/-- Every value of the rebuilt map is `own`, `seed` or a value of the old map. -/
theorem rebuildProducerMap_le {bound : Nat} (ownLe : own ≤ bound) (seedLe : seed ≤ bound)
    (oldLe : ∀ e ∈ old.entries, e.2 ≤ bound) :
    ∀ e ∈ (rebuildProducerMap producers old producer own seed).entries, e.2 ≤ bound :=
  foldl_rebuildEntry_le ownLe seedLe oldLe (by simp [AList.empty_entries])

end Rebuild

/-! ### The invariants -/

/-- The vote bookkeeping of a header state. -/
structure BlockHeaderStateCommon.Votes (s : BlockHeaderStateCommon) : Prop where
  lib_le : s.dposIrreversibleBlocknum ≤ s.dposProposedIrreversibleBlocknum
  implied_le : ∀ e ∈ s.producerToLastImpliedIrb.entries, e.2 ≤ s.dposProposedIrreversibleBlocknum
  tracked : s.dposProposedIrreversibleBlocknum + s.confirmCount.length ≤ s.blockNum
  tracked_le : s.confirmCount.length ≤ Config.maximumTrackedDposConfirmations

/-- The producer maps follow the active schedule. -/
structure BlockHeaderStateCommon.Producers (s : BlockHeaderStateCommon) : Prop where
  implied_keys : ∀ n, n ∈ s.producerToLastImpliedIrb ↔ n ∈ s.activeSchedule.names
  lastProduced_keys : ∀ n ∈ s.activeSchedule.names, n ∈ s.producerToLastProduced

/-- With no name twice in the active schedule, the implied map has one entry for each active
producer: the `n` of `calc_dpos_last_irreversible` is the schedule's size. -/
theorem BlockHeaderStateCommon.Producers.implied_length {s : BlockHeaderStateCommon}
    (producers : s.Producers) (nodup : s.activeSchedule.names.Nodup) :
    s.producerToLastImpliedIrb.entries.length = s.activeSchedule.producers.length := by
  have perm : s.producerToLastImpliedIrb.keys.Perm s.activeSchedule.names :=
    (List.perm_ext_iff_of_nodup s.producerToLastImpliedIrb.nodupKeys nodup).mpr
      producers.implied_keys
  simpa [AList.keys, List.keys, ProducerSchedule.names] using perm.length_eq

/-- The confirmation counts stay positive: the schedules are well formed. -/
structure BlockHeaderState.Confirmations (s : BlockHeaderState) : Prop where
  counts_ne_zero : ∀ x ∈ s.confirmCount, x ≠ 0
  active : s.activeSchedule.WellFormed
  pending : s.pendingSchedule.schedule.WellFormed

namespace BlockHeaderState

variable {s s' : BlockHeaderState} {h : BlockHeader} {when : BlockTimestamp} {c : UInt16}
  {prokey : ProducerKey}

/-- The tally of the next block keeps the tracked blocks between the proposed block and
the new one, and at most `maximum_tracked_dpos_confirmations` of them. -/
theorem tallyNext_bounds (votes : s.Votes) (room : s.blockNum + 1 < 2 ^ 32) (c : UInt16) :
    s.dposProposedIrreversibleBlocknum ≤ (s.tallyNext c).2 ∧
      (s.tallyNext c).2 + (s.tallyNext c).1.length ≤ s.blockNum + 1 ∧
      (s.tallyNext c).1.length ≤ Config.maximumTrackedDposConfirmations := by
  have grown := growConfirmCount_length_le s.confirmCount (requiredConfs s.activeSchedule)
  have capped := growConfirmCount_length_le_max (requiredConfs s.activeSchedule) votes.tracked_le
  have tracked := votes.tracked
  unfold BlockHeaderStateCommon.tallyNext
  rw [Nat.mod_eq_of_lt room]
  obtain ⟨raised, fits, shorter⟩ := tallyConfirmations_bounds
    (growConfirmCount s.confirmCount (requiredConfs s.activeSchedule)).reverse [] (c.toNat + 1)
    (show s.dposProposedIrreversibleBlocknum +
      (growConfirmCount s.confirmCount (requiredConfs s.activeSchedule)).reverse.length + [].length ≤
        s.blockNum + 1 by simp only [List.length_reverse, List.length_nil]; omega) room
  simp only [List.length_reverse, List.length_nil, Nat.add_zero] at shorter
  exact ⟨raised, fits, by omega⟩

/-- With positive counts and a positive count for the new block, the tally leaves every
count positive. -/
theorem tallyNext_ne_zero (positive : ∀ x ∈ s.confirmCount, x ≠ 0)
    (required : requiredConfs s.activeSchedule ≠ 0) (c : UInt16) : ∀ x ∈ (s.tallyNext c).1, x ≠ 0 := by
  apply tallyConfirmations_ne_zero _ (by simp)
  intro x mem
  rcases mem_growConfirmCount (List.mem_reverse.mp mem) with old | rfl
  · exact positive x old
  · exact required

/-- `Votes` passes to the pending state of any block. -/
theorem votes_nextPending (votes : s.Votes) (room : s.blockNum + 1 < 2 ^ 32) :
    (s.nextPending when prokey c).Votes := by
  obtain ⟨raised, fits, capped⟩ := tallyNext_bounds votes room c
  have libLe := BlockHeaderStateCommon.calcDposLastIrreversible_le votes.implied_le prokey.producerName
  refine ⟨?_, ?_, ?_, ?_⟩
  · simp only [nextPending_dposIrreversibleBlocknum, nextPending_dposProposedIrreversibleBlocknum]
    omega
  · simp only [nextPending_producerToLastImpliedIrb, nextPending_dposProposedIrreversibleBlocknum]
    split
    · exact rebuildProducerMap_le raised (libLe.trans raised)
        fun e mem => (votes.implied_le e mem).trans raised
    · exact AList.forall_entries_insert (fun e mem => (votes.implied_le e mem).trans raised) raised
  · rw [nextPending_dposProposedIrreversibleBlocknum, nextPending_confirmCount, nextPending_blockNum,
      Nat.mod_eq_of_lt room]
    exact fits
  · simpa using capped

/-- `Producers` passes to the pending state of a scheduled producer's block, and it is
established by a promotion whatever held before. -/
theorem producers_nextPending (scheduled : prokey ∈ s.activeSchedule.producers)
    (tracks : s.Producers ∨ s.promotesPending (s.calcDposLastIrreversible prokey.producerName) = true) :
    (s.nextPending when prokey c).Producers := by
  have ownName : prokey.producerName ∈ s.activeSchedule.names := List.mem_map_of_mem scheduled
  cases promotes : s.promotesPending (s.calcDposLastIrreversible prokey.producerName) with
  | true =>
    -- both maps are rebuilt over the promoted schedule
    constructor
    · intro n
      simp only [nextPending_producerToLastImpliedIrb, nextPending_activeSchedule, promotes, if_true]
      exact mem_rebuildProducerMap
    · intro n named
      simp only [nextPending_producerToLastProduced, nextPending_activeSchedule, promotes,
        if_true] at named ⊢
      exact AList.mem_insert _ |>.mpr (.inr (mem_rebuildProducerMap.mpr named))
  | false =>
    -- the maps gain the block's producer, which is already active
    have producers : s.Producers := by simpa [promotes] using tracks
    constructor
    · intro n
      simp only [nextPending_producerToLastImpliedIrb, nextPending_activeSchedule, promotes,
        Bool.false_eq_true, if_false, AList.mem_insert, producers.implied_keys]
      constructor
      · rintro (rfl | named)
        · exact ownName
        · exact named
      · exact .inr
    · intro n named
      simp only [nextPending_producerToLastProduced, nextPending_activeSchedule, promotes,
        Bool.false_eq_true, if_false] at named ⊢
      exact AList.mem_insert _ |>.mpr (.inr (producers.lastProduced_keys n named))

/-- The schedules `_finish_next` can leave pending are well formed: the header's new one, the
emptied one after a promotion, or the previous one. -/
theorem wellFormed_nextPendingSchedule {p : PendingBlockHeaderState}
    (prevWellFormed : p.prevPendingSchedule.schedule.WellFormed) (proposes : h.ProposesWellFormed) :
    (p.nextPendingSchedule h).schedule.WellFormed := by
  cases proposed : h.newProducers with
  | some newProducers =>
    simp only [PendingBlockHeaderState.nextPendingSchedule, proposed]
    exact proposes newProducers proposed
  | none =>
    simp only [PendingBlockHeaderState.nextPendingSchedule, proposed]
    split
    · exact ⟨Nat.zero_le _, List.nodup_nil⟩
    · exact prevWellFormed

/-- `Confirmations` passes to the pending state of any block. -/
theorem counts_nextPending (confirmations : s.Confirmations) :
    ∀ x ∈ (s.nextPending when prokey c).confirmCount, x ≠ 0 := by
  rw [nextPending_confirmCount]
  exact tallyNext_ne_zero confirmations.counts_ne_zero
    (requiredConfs_ne_zero confirmations.active.1) c

end BlockHeaderState

end Fio.Chain
