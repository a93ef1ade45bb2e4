import FioChain.BlockHeaderState.Model

/-! What one accepted header does to a header state, said once: the field lemmas of the
pending state `next` builds and of the state `_finish_next` returns, and one inversion
lemma for each of `next`, `_finish_next` and `next(h)`. The invariants are proved from
these and never unfold the step again. -/

namespace Fio.Chain

namespace BlockHeaderState

variable {s : BlockHeaderState} {when : BlockTimestamp} {c : UInt16} {prokey : ProducerKey}

section NextPending

@[simp] theorem nextPending_blockNum : (s.nextPending when prokey c).blockNum = (s.blockNum + 1) % 2 ^ 32 := by
  simp only [nextPending]; split <;> rfl

@[simp] theorem nextPending_confirmCount :
    (s.nextPending when prokey c).confirmCount = (s.tallyNext c).1 := by
  simp only [nextPending]; split <;> rfl

@[simp] theorem nextPending_dposProposedIrreversibleBlocknum :
    (s.nextPending when prokey c).dposProposedIrreversibleBlocknum = (s.tallyNext c).2 := by
  simp only [nextPending]; split <;> rfl

@[simp] theorem nextPending_dposIrreversibleBlocknum :
    (s.nextPending when prokey c).dposIrreversibleBlocknum =
      s.calcDposLastIrreversible prokey.producerName := by
  simp only [nextPending]; split <;> rfl

@[simp] theorem nextPending_activeSchedule :
    (s.nextPending when prokey c).activeSchedule =
      if s.promotesPending (s.calcDposLastIrreversible prokey.producerName) then
        s.pendingSchedule.schedule
      else s.activeSchedule := by
  simp only [nextPending]; split <;> rfl

@[simp] theorem nextPending_producerToLastProduced :
    (s.nextPending when prokey c).producerToLastProduced =
      if s.promotesPending (s.calcDposLastIrreversible prokey.producerName) then
        (rebuildProducerMap s.pendingSchedule.schedule.producers s.producerToLastProduced
          prokey.producerName ((s.blockNum + 1) % 2 ^ 32) (s.calcDposLastIrreversible prokey.producerName)).insert
          prokey.producerName ((s.blockNum + 1) % 2 ^ 32)
      else s.producerToLastProduced.insert prokey.producerName ((s.blockNum + 1) % 2 ^ 32) := by
  simp only [nextPending]; split <;> rfl

@[simp] theorem nextPending_producerToLastImpliedIrb :
    (s.nextPending when prokey c).producerToLastImpliedIrb =
      if s.promotesPending (s.calcDposLastIrreversible prokey.producerName) then
        rebuildProducerMap s.pendingSchedule.schedule.producers s.producerToLastImpliedIrb
          prokey.producerName s.dposProposedIrreversibleBlocknum
          (s.calcDposLastIrreversible prokey.producerName)
      else s.producerToLastImpliedIrb.insert prokey.producerName s.dposProposedIrreversibleBlocknum := by
  simp only [nextPending]; split <;> rfl

@[simp] theorem nextPending_wasPendingPromoted :
    (s.nextPending when prokey c).wasPendingPromoted =
      s.promotesPending (s.calcDposLastIrreversible prokey.producerName) := by
  simp only [nextPending]; split <;> simp_all

@[simp] theorem nextPending_prevPendingSchedule :
    (s.nextPending when prokey c).prevPendingSchedule = s.pendingSchedule := by
  simp only [nextPending]; split <;> rfl

@[simp] theorem nextPending_producer : (s.nextPending when prokey c).producer = prokey.producerName := by
  simp only [nextPending]; split <;> rfl

@[simp] theorem nextPending_timestamp : (s.nextPending when prokey c).timestamp = when := by
  simp only [nextPending]; split <;> rfl

@[simp] theorem nextPending_activeScheduleVersion :
    (s.nextPending when prokey c).activeScheduleVersion = s.activeSchedule.version := by
  simp only [nextPending]; split <;> rfl

@[simp] theorem nextPending_confirmed : (s.nextPending when prokey c).confirmed = c := by
  simp only [nextPending]; split <;> rfl

end NextPending

/-- The scheduled producer is one of the active schedule's. -/
theorem mem_of_getScheduledProducer {t : BlockTimestamp}
    (scheduled : s.getScheduledProducer t = some prokey) : prokey ∈ s.activeSchedule.producers :=
  List.mem_of_getElem? scheduled

/-- A normal return of `next`: a producer is scheduled at a time after the parent's or at the
slot after it, it does not confirm a range it confirmed before, and the pending state is
`nextPending`. -/
theorem next_ok {p : PendingBlockHeaderState} (ok : s.next when c = .ok p) :
    ∃ at_ prokey, s.getScheduledProducer at_ = some prokey ∧
      s.confirmsKnownRange prokey.producerName c = false ∧
      (s.header.timestamp.slot < at_.slot ∨ at_.slot = (s.header.timestamp.slot + 1) % 2 ^ 32) ∧
      p = s.nextPending at_ prokey c := by
  unfold next at ok
  simp only [bind, Except.bind, pure, Except.pure, throw, throwThe, MonadExceptOf.throw] at ok
  split at ok
  · -- an explicit time must lie after the parent's
    split at ok
    · split at ok
      · rename_i later _ prokey scheduled
        split at ok
        · cases ok
        · rename_i fresh
          cases ok
          exact ⟨when, prokey, scheduled, by simpa using fresh, .inl later, rfl⟩
      · cases ok
    · cases ok
  · -- the default time is the slot after the parent's, in `uint32_t`
    split at ok
    · rename_i prokey scheduled
      split at ok
      · cases ok
      · rename_i fresh
        cases ok
        exact ⟨_, prokey, scheduled, by simpa using fresh, .inr rfl, rfl⟩
    · cases ok

end BlockHeaderState

namespace PendingBlockHeaderState

variable {p : PendingBlockHeaderState} {h : BlockHeader} {s' : BlockHeaderState}

@[simp] theorem finished_toBlockHeaderStateCommon :
    (p.finished h).toBlockHeaderStateCommon = p.toBlockHeaderStateCommon := rfl

@[simp] theorem finished_header : (p.finished h).header = h := rfl

@[simp] theorem finished_pendingSchedule : (p.finished h).pendingSchedule = p.nextPendingSchedule h :=
  rfl

/-- A normal return of `_finish_next`: the header repeats the pending state's time,
confirmations, producer and schedule version, and a new schedule in it is the next version
with no promotion and no pending schedule in the way. -/
theorem finishNext_ok (ok : p.finishNext h = .ok s') :
    s' = p.finished h ∧ h.timestamp = p.timestamp ∧ h.confirmed = p.confirmed ∧
      h.producer = p.producer ∧ h.scheduleVersion = p.activeScheduleVersion ∧
      ∀ newProducers, h.newProducers = some newProducers → p.wasPendingPromoted = false ∧
        newProducers.version = (p.activeSchedule.version + 1) % 2 ^ 32 ∧
        p.prevPendingSchedule.schedule.producers = [] := by
  unfold finishNext at ok
  cases proposed : h.newProducers with
  | none =>
    simp only [proposed, bind, Except.bind, pure, Except.pure, throw, throwThe,
      MonadExceptOf.throw] at ok
    split_ifs at ok with timestamp confirmed producer version
    cases ok
    exact ⟨rfl, timestamp, confirmed, producer, version, by simp⟩
  | some np =>
    simp only [proposed, bind, Except.bind, pure, Except.pure, throw, throwThe,
      MonadExceptOf.throw] at ok
    split_ifs at ok with timestamp confirmed producer version promoted bumped empty
    cases ok
    refine ⟨rfl, timestamp, confirmed, producer, version, ?_⟩
    rintro _ ⟨⟩
    exact ⟨by simpa using promoted, bumped, List.length_eq_zero_iff.mp empty⟩

end PendingBlockHeaderState

namespace BlockHeaderState

variable {s s' : BlockHeaderState} {h : BlockHeader}

/-- The inversion lemma of one accepted header: everything `next(h)` checks and builds. -/
theorem nextHeader_ok (ok : s.nextHeader h = .ok s') :
    ∃ prokey ∈ s.activeSchedule.producers, s.getScheduledProducer h.timestamp = some prokey ∧
      s.confirmsKnownRange prokey.producerName h.confirmed = false ∧
      (s.header.timestamp.slot < h.timestamp.slot ∨ h.timestamp.slot = (s.header.timestamp.slot + 1) % 2 ^ 32) ∧
      s' = (s.nextPending h.timestamp prokey h.confirmed).finished h ∧
      h.producer = prokey.producerName ∧ h.scheduleVersion = s.activeSchedule.version ∧
      ∀ newProducers, h.newProducers = some newProducers →
        s.promotesPending (s.calcDposLastIrreversible prokey.producerName) = false ∧
        newProducers.version = (s.activeSchedule.version + 1) % 2 ^ 32 ∧
        s.pendingSchedule.schedule.producers = [] := by
  simp only [nextHeader, bind, Except.bind] at ok
  split at ok
  · cases ok
  · rename_i p pending
    obtain ⟨at_, prokey, scheduled, fresh, later, rfl⟩ := next_ok pending
    obtain ⟨rfl, timestamp, confirmed, producer, version, proposed⟩ :=
      PendingBlockHeaderState.finishNext_ok ok
    rw [nextPending_timestamp] at timestamp
    subst timestamp
    refine ⟨prokey, mem_of_getScheduledProducer scheduled, scheduled, fresh, later, rfl,
      by simpa using producer, by simpa using version, fun np newProducers => ?_⟩
    obtain ⟨notPromoted, bumped, empty⟩ := proposed np newProducers
    -- without a promotion the pending state keeps the parent's active schedule
    simp only [nextPending_wasPendingPromoted] at notPromoted
    simp only [nextPending_activeSchedule, notPromoted, nextPending_prevPendingSchedule] at bumped empty
    exact ⟨notPromoted, by simpa using bumped, empty⟩

/-- An accepted header numbers its block one past its parent's, modulo `2 ^ 32`. -/
theorem nextHeader_blockNum (ok : s.nextHeader h = .ok s') : s'.blockNum = (s.blockNum + 1) % 2 ^ 32 := by
  obtain ⟨prokey, -, -, -, -, rfl, -⟩ := nextHeader_ok ok
  simp

end BlockHeaderState

end Fio.Chain
