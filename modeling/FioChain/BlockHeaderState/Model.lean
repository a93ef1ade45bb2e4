import FioChain.Types
import FioChain.Lib.OrderStatistic

/-! `block_header_state.cpp`: the header state of a block, `next(when, confirmed)` that
builds the pending state of the following block, and `_finish_next(h)` that checks a
signed header against it. The header state tracks the dpos irreversibility votes: each
new block carries a count of confirmations it still needs, producers confirm runs of
earlier blocks, and the last irreversible block is an order statistic over the blocks
each producer has implied irreversible.

Left out, as no modelled field depends on them: block ids and `header.previous` (and so
the `previous mismatch` check), `blockroot_merkle`, the schedule hash, protocol features
and header extensions, and signatures. Block numbers, schedule versions and slots are
`uint32_t`: `block_num + 1`, `block_num - i`, `version + 1` and the default time's `slot++` are
computed modulo `2 ^ 32`. -/

namespace Fio.Chain

/-- `flat_map<account_name, uint32_t>`: one value per name. The model keeps the entries in
insertion order; nothing modelled depends on the order. -/
abbrev ProducerMap := AList fun _ : Name => Nat

/-- The fields of `signed_block_header` that the header state reads. -/
structure BlockHeader where
  timestamp : BlockTimestamp
  producer : Name
  confirmed : UInt16
  scheduleVersion : Nat
  newProducers : Option ProducerSchedule
  deriving DecidableEq

/-- `detail::schedule_info`, without the hash. -/
structure ScheduleInfo where
  scheduleLibNum : Nat
  schedule : ProducerSchedule
  deriving DecidableEq

/-- `detail::block_header_state_common`. -/
structure BlockHeaderStateCommon where
  blockNum : Nat
  dposProposedIrreversibleBlocknum : Nat
  dposIrreversibleBlocknum : Nat
  activeSchedule : ProducerSchedule
  producerToLastProduced : ProducerMap
  producerToLastImpliedIrb : ProducerMap
  blockSigningKey : PublicKey
  confirmCount : List UInt8

/-- `pending_block_header_state`. -/
structure PendingBlockHeaderState extends BlockHeaderStateCommon where
  prevPendingSchedule : ScheduleInfo
  wasPendingPromoted : Bool
  producer : Name
  timestamp : BlockTimestamp
  activeScheduleVersion : Nat
  confirmed : UInt16

/-- `block_header_state`. -/
structure BlockHeaderState extends BlockHeaderStateCommon where
  header : BlockHeader
  pendingSchedule : ScheduleInfo

namespace BlockHeaderStateCommon

/-- The `blocknums` vector of `calc_dpos_last_irreversible`: the block each producer implied
irreversible, the next block's producer counted at the proposed number. -/
def blocknums (s : BlockHeaderStateCommon) (producerOfNextBlock : Name) : List Nat :=
  s.producerToLastImpliedIrb.entries.map fun i =>
    if i.1 = producerOfNextBlock then s.dposProposedIrreversibleBlocknum else i.2

/-- `block_header_state::calc_dpos_last_irreversible`: the `(n - 1) / 3`-th smallest of the
`blocknums`, read after `std::nth_element`. -/
def calcDposLastIrreversible (s : BlockHeaderStateCommon) (producerOfNextBlock : Name) : Nat :=
  let blocknums := s.blocknums producerOfNextBlock
  if blocknums.length = 0 then 0
  else OrderStat.kth 0 blocknums ((blocknums.length - 1) / 3)

end BlockHeaderStateCommon

/-- The confirmation count of the new block is appended; once
`maximum_tracked_dpos_confirmations` blocks are tracked the oldest is dropped. -/
def growConfirmCount (confirmCount : List UInt8) (requiredConfs : UInt8) : List UInt8 :=
  if confirmCount.length < Config.maximumTrackedDposConfirmations then
    confirmCount ++ [requiredConfs]
  else confirmCount.tail ++ [requiredConfs]

/-- The loop of `next` that spends the new block's confirmations from the newest tracked
block down. `before` holds `confirm_count[0..i]` newest first and `after` holds
`confirm_count[i+1..]`, already decremented. The first count to reach zero makes its block
the proposed irreversible block, and only the blocks after it stay tracked: the `memmove`
and `resize`, or `resize(0)` when it is the newest. -/
def tallyConfirmations (blockNum proposed : Nat) :
    List UInt8 → List UInt8 → Nat → List UInt8 × Nat
  | [], after, _ => (after, proposed)
  | before, after, 0 => (before.reverse ++ after, proposed)
  | c :: before, after, blocksToConfirm + 1 =>
    if c - 1 = 0 then (after, (blockNum + 2 ^ 32 - after.length) % 2 ^ 32)
    else tallyConfirmations blockNum proposed before ((c - 1) :: after) blocksToConfirm

/-- One producer of the loop that rebuilds a producer map for a promoted schedule: the
block's producer gets `own`, a producer the old map knew keeps its value, and a new producer
starts at `seed`. -/
def rebuildEntry (old : ProducerMap) (producer : Name) (own seed : Nat) (m : ProducerMap)
    (pro : ProducerKey) : ProducerMap :=
  if pro.producerName = producer then m.insert pro.producerName own
  else match old.lookup pro.producerName with
    | some existing => m.insert pro.producerName existing
    | none => m.insert pro.producerName seed

/-- The rebuild loop over the producers of the promoted schedule, from an empty map. -/
def rebuildProducerMap (producers : List ProducerKey) (old : ProducerMap) (producer : Name)
    (own seed : Nat) : ProducerMap :=
  producers.foldl (rebuildEntry old producer own seed) ∅

/-- The confirmations a block needs: more than two thirds of the schedule that signs it,
as a `uint8_t`. -/
def requiredConfs (schedule : ProducerSchedule) : UInt8 :=
  (schedule.producers.length * 2 / 3 + 1).toUInt8

/-- The counts and the proposed irreversible block after the block that follows `s`: its
own count is appended, computed from the schedule of `s` that signs it, then it confirms
`numPrevBlocksToConfirm` blocks and itself. -/
def BlockHeaderStateCommon.tallyNext (s : BlockHeaderStateCommon) (numPrevBlocksToConfirm : UInt16) :
    List UInt8 × Nat :=
  tallyConfirmations ((s.blockNum + 1) % 2 ^ 32) s.dposProposedIrreversibleBlocknum
    (growConfirmCount s.confirmCount (requiredConfs s.activeSchedule)).reverse []
    (numPrevBlocksToConfirm.toNat + 1)

namespace BlockHeaderState

/-- `block_header_state::get_scheduled_producer`; `none` on an empty schedule, where the
C++ remainder is taken modulo zero. -/
def getScheduledProducer (s : BlockHeaderState) (t : BlockTimestamp) : Option ProducerKey :=
  let index := t.slot % (s.activeSchedule.producers.length * Config.producerRepetitions) /
    Config.producerRepetitions
  s.activeSchedule.producers[index]?

/-- The double-confirm check: a producer may only confirm blocks after the last one it
produced. The bound is computed in `uint32_t`. -/
def confirmsKnownRange (s : BlockHeaderState) (producer : Name) (numPrevBlocksToConfirm : UInt16) :
    Bool :=
  match s.producerToLastProduced.lookup producer with
  | some last => !decide (last < (s.blockNum + 1 + 2 ^ 32 - numPrevBlocksToConfirm.toNat) % 2 ^ 32)
  | none => false

/-- Whether `next` promotes the pending schedule: it is not empty, and the block that
proposed it is irreversible by the new block's count. -/
def promotesPending (s : BlockHeaderState) (lib : Nat) : Bool :=
  s.pendingSchedule.schedule.producers.length ≠ 0 && s.pendingSchedule.scheduleLibNum ≤ lib

/-- The part of `next` after its checks: the pending state of the block that `prokey`
produces at `when`, confirming `numPrevBlocksToConfirm` earlier blocks. -/
def nextPending (s : BlockHeaderState) (when : BlockTimestamp) (prokey : ProducerKey)
    (numPrevBlocksToConfirm : UInt16) : PendingBlockHeaderState :=
  let blockNum := (s.blockNum + 1) % 2 ^ 32
  let tally := s.tallyNext numPrevBlocksToConfirm
  let lib := s.calcDposLastIrreversible prokey.producerName
  let common : BlockHeaderStateCommon :=
    { blockNum
      dposProposedIrreversibleBlocknum := tally.2
      dposIrreversibleBlocknum := lib
      activeSchedule := s.activeSchedule
      producerToLastProduced := s.producerToLastProduced.insert prokey.producerName blockNum
      producerToLastImpliedIrb :=
        s.producerToLastImpliedIrb.insert prokey.producerName s.dposProposedIrreversibleBlocknum
      blockSigningKey := prokey.blockSigningKey
      confirmCount := tally.1 }
  let pending : PendingBlockHeaderState :=
    { common with
      prevPendingSchedule := s.pendingSchedule
      wasPendingPromoted := false
      producer := prokey.producerName
      timestamp := when
      activeScheduleVersion := s.activeSchedule.version
      confirmed := numPrevBlocksToConfirm }
  if s.promotesPending lib then
    let active := s.pendingSchedule.schedule
    { pending with
      activeSchedule := active
      producerToLastProduced :=
        (rebuildProducerMap active.producers s.producerToLastProduced prokey.producerName blockNum lib).insert
          prokey.producerName blockNum
      producerToLastImpliedIrb :=
        rebuildProducerMap active.producers s.producerToLastImpliedIrb prokey.producerName
          s.dposProposedIrreversibleBlocknum lib
      wasPendingPromoted := true }
  else pending

/-- `block_header_state::next(when, num_prev_blocks_to_confirm)`. -/
def next (s : BlockHeaderState) (when : BlockTimestamp) (numPrevBlocksToConfirm : UInt16) :
    Except Exception PendingBlockHeaderState := do
  let when ← if when ≠ ⟨0⟩ then
      if s.header.timestamp.slot < when.slot then pure when
      else throw (.blockValidateException "next block must be in the future")
    else pure ⟨(s.header.timestamp.slot + 1) % 2 ^ 32⟩
  let some prokey := s.getScheduledProducer when | throw .emptySchedule
  if s.confirmsKnownRange prokey.producerName numPrevBlocksToConfirm then
    throw (.producerDoubleConfirm "producer ${prod} double-confirming known range")
  return s.nextPending when prokey numPrevBlocksToConfirm

end BlockHeaderState

namespace PendingBlockHeaderState

/-- The pending schedule `_finish_next` leaves: the header's new schedule, proposed at this
block; after a promotion an empty schedule that keeps the promoted version; otherwise the
previous pending schedule. -/
def nextPendingSchedule (p : PendingBlockHeaderState) (h : BlockHeader) : ScheduleInfo :=
  match h.newProducers with
  | some newProducers => { scheduleLibNum := p.blockNum, schedule := newProducers }
  | none =>
    if p.wasPendingPromoted then
      { scheduleLibNum := p.prevPendingSchedule.scheduleLibNum,
        schedule := { version := p.prevPendingSchedule.schedule.version, producers := [] } }
    else p.prevPendingSchedule

/-- The state `_finish_next` builds once the header passed its checks. -/
def finished (p : PendingBlockHeaderState) (h : BlockHeader) : BlockHeaderState :=
  { p.toBlockHeaderStateCommon with header := h, pendingSchedule := p.nextPendingSchedule h }

/-- `pending_block_header_state::_finish_next`: the signed header must match the pending
state, and a new producer schedule becomes the pending schedule. -/
def finishNext (p : PendingBlockHeaderState) (h : BlockHeader) : Except Exception BlockHeaderState := do
  unless h.timestamp = p.timestamp do throw (.blockValidateException "timestamp mismatch")
  unless h.confirmed = p.confirmed do throw (.blockValidateException "confirmed mismatch")
  unless h.producer = p.producer do throw (.wrongProducer "wrong producer specified")
  unless h.scheduleVersion = p.activeScheduleVersion do
    throw (.producerScheduleException "schedule_version in signed block is corrupted")
  if let some newProducers := h.newProducers then
    if p.wasPendingPromoted then
      throw (.producerScheduleException
        "cannot set pending producer schedule in the same block in which pending was promoted to active")
    unless newProducers.version = (p.activeSchedule.version + 1) % 2 ^ 32 do
      throw (.producerScheduleException "wrong producer schedule version specified")
    unless p.prevPendingSchedule.schedule.producers.length = 0 do
      throw (.producerScheduleException "cannot set new pending producers until last pending is confirmed")
  return p.finished h

end PendingBlockHeaderState

namespace BlockHeaderState

/-- `block_header_state::next(h, validator)`: the pending state for the header's time and
confirmations, finished with the header. -/
def nextHeader (s : BlockHeaderState) (h : BlockHeader) : Except Exception BlockHeaderState := do
  let pending ← s.next h.timestamp h.confirmed
  pending.finishNext h

/-- The genesis state of `initialize_blockchain_state`: block 1 under the initial schedule of
`eosio` alone, which is also pending with irreversible number 0. -/
def genesis (initialKey : PublicKey) (initialTimestamp : BlockTimestamp) : BlockHeaderState :=
  let initialSchedule : ProducerSchedule := ⟨0, [⟨Config.systemAccountName, initialKey⟩]⟩
  { blockNum := 1
    dposProposedIrreversibleBlocknum := 0
    dposIrreversibleBlocknum := 0
    activeSchedule := initialSchedule
    producerToLastProduced := ∅
    producerToLastImpliedIrb := ∅
    blockSigningKey := default
    confirmCount := []
    header :=
      { timestamp := initialTimestamp, producer := default, confirmed := 1, scheduleVersion := 0,
        newProducers := none }
    pendingSchedule := { scheduleLibNum := 0, schedule := initialSchedule } }

end BlockHeaderState

end Fio.Chain
