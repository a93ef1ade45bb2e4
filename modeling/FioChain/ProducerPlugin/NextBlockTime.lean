import FioChain.BlockHeaderState.Model
import FioChain.Lib.RoundRobin

/-! `producer_plugin_impl::calculate_next_block_time`: the next slot at which a producer of the
head block's active schedule may produce, no earlier than the slot after its watermark. The
closed form of the code finds the producer that owns the minimum slot, the distance around the
schedule to the producer in question (with a correction for unsigned underflow), and the first
slot of that producer's next turn. In exact arithmetic that is the least slot at or after the
minimum that `get_scheduled_producer` gives to the producer; the minimum slot and the result are
`uint32_t`, and near the end of the slot range they wrap to an earlier slot.

The controller enters as the head block state and whether a block is being built. -/

namespace Fio.Chain

namespace ProducerPlugin

open RoundRobin

/-- `_producer_watermarks`: the highest block number each producer has been seen to produce. -/
abbrev ProducerWatermarks := AList fun _ : Name => UInt32

/-- `get_watermark`. -/
def getWatermark (producerWatermarks : ProducerWatermarks) (producer : Name) : Option UInt32 :=
  producerWatermarks.lookup producer

/-- The `minimum_offset` of `calculate_next_block_time`: the next slot, or the slot after the
watermark when it lies beyond the head block number (one more while a block is being built),
in `uint32_t`. -/
def minimumOffset (headBlockNum : Nat) (isBuildingBlock : Bool) (currentWatermark : Option UInt32) :
    UInt32 :=
  match currentWatermark with
  | none => 1
  | some watermark =>
    let blockNum : UInt32 := UInt32.ofNat headBlockNum
    let blockNum := if isBuildingBlock then blockNum + 1 else blockNum
    if watermark > blockNum then watermark - blockNum + 1 else 1

/-- `producer_distance` in `size_t`: `producer_index - minimum_slot_producer_index`, with the
schedule size added back on unsigned underflow. -/
def producerDistance (producerIndex minimumSlotProducerIndex scheduleSize : Nat) : UInt64 :=
  let producerDistance := producerIndex.toUInt64 - minimumSlotProducerIndex.toUInt64
  if producerDistance > producerIndex.toUInt64 then producerDistance + scheduleSize.toUInt64
  else producerDistance

/-- `calculate_next_block_time`; the timestamp returned stands for its `to_time_point()`. -/
def calculateNextBlockTime (hbs : BlockHeaderState) (isBuildingBlock : Bool)
    (producerWatermarks : ProducerWatermarks) (producerName : Name) (currentBlockTime : BlockTimestamp) :
    Option BlockTimestamp :=
  let activeSchedule := hbs.activeSchedule.producers
  match activeSchedule.findIdx? (·.producerName == producerName) with
  | none => none
  | some producerIndex =>
    let minimumSlot : UInt32 := UInt32.ofNat currentBlockTime.slot +
      minimumOffset hbs.blockNum isBuildingBlock (getWatermark producerWatermarks producerName)
    let minimumSlotProducerIndex :=
      minimumSlot.toNat % (activeSchedule.length * Config.producerRepetitions) / Config.producerRepetitions
    if producerIndex = minimumSlotProducerIndex then some ⟨minimumSlot.toNat⟩
    else
      let distance := producerDistance producerIndex minimumSlotProducerIndex activeSchedule.length
      let firstMinimumProducerSlot : UInt32 := minimumSlot - minimumSlot % Config.producerRepetitions.toUInt32
      let nextBlockSlot : UInt32 :=
        (firstMinimumProducerSlot.toUInt64 + distance * Config.producerRepetitions.toUInt64).toUInt32
      some ⟨nextBlockSlot.toNat⟩

/-- The offset the comments of `calculate_next_block_time` describe, in exact arithmetic: one
slot, or the slots up to one past the watermark. -/
def exactMinimumOffset (headBlockNum : Nat) (isBuildingBlock : Bool) (currentWatermark : Option UInt32) :
    Nat :=
  match currentWatermark with
  | none => 1
  | some watermark =>
    let blockNum := if isBuildingBlock then headBlockNum + 1 else headBlockNum
    if blockNum < watermark.toNat then watermark.toNat - blockNum + 1 else 1

/-- The offset past a watermark, as a word and as a number, when the number fits a word. -/
theorem watermarkOffset_toNat {watermark blockNum : UInt32} {exact : Nat} (same : blockNum.toNat = exact)
    (offsetFits : (if exact < watermark.toNat then watermark.toNat - exact + 1 else 1) < 2 ^ 32) :
    (if watermark > blockNum then watermark - blockNum + 1 else 1).toNat =
      if exact < watermark.toNat then watermark.toNat - exact + 1 else 1 := by
  subst same
  by_cases past : blockNum.toNat < watermark.toNat
  · rw [if_pos (UInt32.lt_iff_toNat_lt.2 past), if_pos past]
    rw [if_pos past] at offsetFits
    rw [UInt32.toNat_add, UInt32.toNat_sub_of_le _ _ (UInt32.le_iff_toNat_le.2 past.le)]
    simpa using Nat.mod_eq_of_lt offsetFits
  · rw [if_neg (mt UInt32.lt_iff_toNat_lt.1 past), if_neg past]
    rfl

/-- Below the end of the block number range, and when the exact offset fits, the `uint32_t`
offset is the exact one. -/
theorem minimumOffset_toNat {headBlockNum : Nat} {isBuildingBlock : Bool} {currentWatermark : Option UInt32}
    (blockNumFits : headBlockNum + 1 < 2 ^ 32)
    (offsetFits : exactMinimumOffset headBlockNum isBuildingBlock currentWatermark < 2 ^ 32) :
    (minimumOffset headBlockNum isBuildingBlock currentWatermark).toNat =
      exactMinimumOffset headBlockNum isBuildingBlock currentWatermark := by
  have headFits : (UInt32.ofNat headBlockNum).toNat = headBlockNum :=
    UInt32.toNat_ofNat_of_lt' (show headBlockNum < 4294967296 by omega)
  cases currentWatermark with
  | none => rfl
  | some watermark =>
    cases isBuildingBlock with
    | false => exact watermarkOffset_toNat headFits offsetFits
    | true =>
      have building : (UInt32.ofNat headBlockNum + 1).toNat = headBlockNum + 1 := by
        simpa [UInt32.toNat_add, headFits] using Nat.mod_eq_of_lt blockNumFits
      exact watermarkOffset_toNat building offsetFits

theorem producerDistance_toNat {producerIndex minimumSlotProducerIndex scheduleSize : Nat}
    (sizeFits : 2 * scheduleSize < 2 ^ 64) (hq : minimumSlotProducerIndex < scheduleSize)
    (hp : producerIndex < scheduleSize) :
    (producerDistance producerIndex minimumSlotProducerIndex scheduleSize).toNat =
      distance scheduleSize minimumSlotProducerIndex producerIndex := by
  rw [← wrapped_distance sizeFits hq hp]
  have index : ∀ i, i < scheduleSize → i.toUInt64.toNat = i := fun i lt => by
    simpa using Nat.mod_eq_of_lt (by omega : i < 2 ^ 64)
  simp only [producerDistance, gt_iff_lt, UInt64.lt_iff_toNat_lt, UInt64.toNat_sub, index _ hp, index _ hq]
  split <;> simp [UInt64.toNat_add, UInt64.toNat_sub, index _ hp, index _ hq]

section Schedule

variable {hbs : BlockHeaderState} {isBuildingBlock : Bool} {producerWatermarks : ProducerWatermarks}
  {producerName : Name} {currentBlockTime : BlockTimestamp} {producerIndex : Nat}

/-- In a schedule of distinct names, `get_scheduled_producer` gives a slot to the producer at
`producerIndex` exactly when that index owns the slot's turn. -/
theorem getScheduledProducer_named_iff (distinct : hbs.activeSchedule.names.Nodup)
    (hp : producerIndex < hbs.activeSchedule.producers.length)
    (named : hbs.activeSchedule.producers[producerIndex].producerName = producerName) (s : Nat) :
    (hbs.getScheduledProducer ⟨s⟩).map ProducerKey.producerName = some producerName ↔
      owner hbs.activeSchedule.producers.length Config.producerRepetitions s = producerIndex := by
  have turn := owner_lt (r := Config.producerRepetitions) (by omega : 0 < hbs.activeSchedule.producers.length) s
  have keys : hbs.activeSchedule.producers.Nodup := distinct.of_map _
  simp only [BlockHeaderState.getScheduledProducer, owner_eq_mod_div, List.getElem?_eq_getElem turn,
    Option.map_some, Option.some.injEq, ← named]
  constructor
  · intro same
    exact keys.getElem_inj_iff.1 (List.inj_on_of_nodup_map distinct (List.getElem_mem turn) (List.getElem_mem hp) same)
  · rintro rfl
    rfl

/-- The slot the code computes when the minimum slot's owner is another producer: the first
slot of the minimum slot's turn, plus the distance in turns. -/
theorem nextBlockSlot_toNat {minimumSlot : UInt32} {scheduleSize producerIndex : Nat}
    (slotFits : minimumSlot.toNat + scheduleSize * Config.producerRepetitions < 2 ^ 32)
    (hp : producerIndex < scheduleSize) :
    ((minimumSlot - minimumSlot % Config.producerRepetitions.toUInt32).toUInt64 +
        producerDistance producerIndex (owner scheduleSize Config.producerRepetitions minimumSlot.toNat)
          scheduleSize * Config.producerRepetitions.toUInt64).toUInt32.toNat =
      Config.producerRepetitions * (minimumSlot.toNat / Config.producerRepetitions +
        distance scheduleSize (owner scheduleSize Config.producerRepetitions minimumSlot.toNat) producerIndex) := by
  have repetitions : Config.producerRepetitions = 12 := rfl
  rw [repetitions] at slotFits ⊢
  have hq := owner_lt (r := 12) (by omega : 0 < scheduleSize) minimumSlot.toNat
  have turns := producerDistance_toNat (by omega) hq hp
  have short := distance_lt (q := owner scheduleSize 12 minimumSlot.toNat) (p := producerIndex)
    (by omega : 0 < scheduleSize)
  have first : (minimumSlot - minimumSlot % Nat.toUInt32 12).toNat = minimumSlot.toNat - minimumSlot.toNat % 12 := by
    rw [UInt32.toNat_sub_of_le _ _ (UInt32.le_iff_toNat_le.2 (by simp; omega))]
    simp
  simp only [UInt64.toNat_toUInt32, UInt64.toNat_add, UInt64.toNat_mul, UInt32.toNat_toUInt64, first, turns]
  simp
  omega

theorem calculateNextBlockTime_eq_nextSlot
    (found : hbs.activeSchedule.producers.findIdx? (·.producerName == producerName) = some producerIndex)
    (blockNumFits : hbs.blockNum + 1 < 2 ^ 32)
    (slotFits : currentBlockTime.slot +
        exactMinimumOffset hbs.blockNum isBuildingBlock (getWatermark producerWatermarks producerName) +
        hbs.activeSchedule.producers.length * Config.producerRepetitions < 2 ^ 32) :
    calculateNextBlockTime hbs isBuildingBlock producerWatermarks producerName currentBlockTime =
      some ⟨nextSlot hbs.activeSchedule.producers.length Config.producerRepetitions producerIndex
        (currentBlockTime.slot +
          exactMinimumOffset hbs.blockNum isBuildingBlock (getWatermark producerWatermarks producerName))⟩ := by
  obtain ⟨hp, -, -⟩ := List.findIdx?_eq_some_iff_getElem.1 found
  have offset : (minimumOffset hbs.blockNum isBuildingBlock (getWatermark producerWatermarks producerName)).toNat =
      exactMinimumOffset hbs.blockNum isBuildingBlock (getWatermark producerWatermarks producerName) :=
    minimumOffset_toNat blockNumFits (by omega)
  have minimumSlot : (UInt32.ofNat currentBlockTime.slot +
      minimumOffset hbs.blockNum isBuildingBlock (getWatermark producerWatermarks producerName)).toNat =
      currentBlockTime.slot + exactMinimumOffset hbs.blockNum isBuildingBlock (getWatermark producerWatermarks producerName) := by
    rw [UInt32.toNat_add, UInt32.toNat_ofNat_of_lt' (show currentBlockTime.slot < 4294967296 by omega), offset,
      Nat.mod_eq_of_lt (by omega)]
  unfold calculateNextBlockTime
  generalize UInt32.ofNat currentBlockTime.slot +
    minimumOffset hbs.blockNum isBuildingBlock (getWatermark producerWatermarks producerName) = word at minimumSlot
  simp only [found, owner_eq_mod_div]
  rw [← minimumSlot, nextSlot]
  by_cases owns : owner hbs.activeSchedule.producers.length Config.producerRepetitions word.toNat = producerIndex
  · rw [if_pos owns.symm, if_pos owns]
  · rw [if_neg (Ne.symm owns), if_neg owns, nextBlockSlot_toNat (by omega) hp]

/-- `calculate_next_block_time` returns no time exactly when the producer is not in the active
schedule. -/
theorem calculateNextBlockTime_eq_none_iff :
    calculateNextBlockTime hbs isBuildingBlock producerWatermarks producerName currentBlockTime = none ↔
      producerName ∉ hbs.activeSchedule.names := by
  have absent : producerName ∉ hbs.activeSchedule.names ↔
      hbs.activeSchedule.producers.findIdx? (·.producerName == producerName) = none := by
    simp [ProducerSchedule.names]
  rw [absent]
  unfold calculateNextBlockTime
  dsimp only
  split
  next notFound => simp [notFound]
  next producerIndex found =>
    -- both branches of a found producer return a time
    simp only [found, reduceCtorEq, iff_false]
    split <;> simp

/-- Where the block number and the slots stay below `2 ^ 32`, `calculate_next_block_time` of a
producer of a schedule of distinct names is the least slot at or after the exact minimum that
`get_scheduled_producer` gives to the producer, and there is none exactly when the producer is
not in the schedule. -/
theorem calculate_next_block_time_least_slot (distinct : hbs.activeSchedule.names.Nodup)
    (blockNumFits : hbs.blockNum + 1 < 2 ^ 32)
    (slotFits : currentBlockTime.slot +
        exactMinimumOffset hbs.blockNum isBuildingBlock (getWatermark producerWatermarks producerName) +
        hbs.activeSchedule.producers.length * Config.producerRepetitions < 2 ^ 32) :
    (calculateNextBlockTime hbs isBuildingBlock producerWatermarks producerName currentBlockTime = none ↔
        producerName ∉ hbs.activeSchedule.names) ∧
      ∀ t, calculateNextBlockTime hbs isBuildingBlock producerWatermarks producerName currentBlockTime = some t →
        IsLeast {s | currentBlockTime.slot +
            exactMinimumOffset hbs.blockNum isBuildingBlock (getWatermark producerWatermarks producerName) ≤ s ∧
          (hbs.getScheduledProducer ⟨s⟩).map ProducerKey.producerName = some producerName} t.slot := by
  refine ⟨calculateNextBlockTime_eq_none_iff, fun t result => ?_⟩
  cases found : hbs.activeSchedule.producers.findIdx? (·.producerName == producerName) with
  | none =>
    have absent : producerName ∉ hbs.activeSchedule.names := by
      simpa [ProducerSchedule.names] using found
    rw [calculateNextBlockTime_eq_none_iff.2 absent] at result
    cases result
  | some producerIndex =>
    obtain ⟨hp, named, -⟩ := List.findIdx?_eq_some_iff_getElem.1 found
    rw [calculateNextBlockTime_eq_nextSlot found blockNumFits slotFits, Option.some.injEq] at result
    subst result
    -- the slots the schedule gives to the producer are the turns of its index
    have turns : ∀ s, (hbs.getScheduledProducer ⟨s⟩).map ProducerKey.producerName = some producerName ↔
        owner hbs.activeSchedule.producers.length Config.producerRepetitions s = producerIndex :=
      getScheduledProducer_named_iff distinct hp (beq_iff_eq.1 named)
    simp only [turns]
    exact nextSlot_isLeast (by omega) (by decide) hp

end Schedule

/-- At the last slot of the `uint32_t` range the minimum slot wraps to slot 0, which the only
producer of the genesis schedule holds: the time returned lies before the current one. -/
theorem next_block_time_wraps_to_slot_zero :
    calculateNextBlockTime (BlockHeaderState.genesis default ⟨0⟩) false ∅ Config.systemAccountName
        ⟨2 ^ 32 - 1⟩ = some ⟨0⟩ ∧
      0 < 2 ^ 32 - 1 + exactMinimumOffset 1 false none := by
  decide

/-- Three producers `⟨1⟩`, `⟨2⟩` and `⟨3⟩` at head block 20. -/
def threeProducers : BlockHeaderState :=
  { BlockHeaderState.genesis default ⟨0⟩ with
    blockNum := 20
    activeSchedule := ⟨1, [⟨⟨1⟩, default⟩, ⟨⟨2⟩, default⟩, ⟨⟨3⟩, default⟩]⟩ }

/-- While block 21 is built and `⟨1⟩` has been seen to produce block 25, its next slot from
slot 20 is at least 25, in the third producer's turn; its own next turn starts at slot 36. -/
theorem next_block_time_after_watermark :
    threeProducers.activeSchedule.names.Nodup ∧ threeProducers.blockNum + 1 < 2 ^ 32 ∧
      20 + exactMinimumOffset threeProducers.blockNum true (getWatermark ((∅ : ProducerWatermarks).insert ⟨1⟩ 25) ⟨1⟩) +
        threeProducers.activeSchedule.producers.length * Config.producerRepetitions < 2 ^ 32 ∧
      calculateNextBlockTime threeProducers true ((∅ : ProducerWatermarks).insert ⟨1⟩ 25) ⟨1⟩ ⟨20⟩ = some ⟨36⟩ ∧
      IsLeast {s | 20 + exactMinimumOffset threeProducers.blockNum true
          (getWatermark ((∅ : ProducerWatermarks).insert ⟨1⟩ 25) ⟨1⟩) ≤ s ∧
        (threeProducers.getScheduledProducer ⟨s⟩).map ProducerKey.producerName = some ⟨1⟩} 36 := by
  have distinct : threeProducers.activeSchedule.names.Nodup := by decide
  have blockNumFits : threeProducers.blockNum + 1 < 2 ^ 32 := by decide
  have slotFits : 20 + exactMinimumOffset threeProducers.blockNum true
      (getWatermark ((∅ : ProducerWatermarks).insert ⟨1⟩ 25) ⟨1⟩) +
      threeProducers.activeSchedule.producers.length * Config.producerRepetitions < 2 ^ 32 := by decide
  have computed : calculateNextBlockTime threeProducers true ((∅ : ProducerWatermarks).insert ⟨1⟩ 25) ⟨1⟩ ⟨20⟩ =
      some ⟨36⟩ := by decide
  exact ⟨distinct, blockNumFits, slotFits, computed,
    (@calculate_next_block_time_least_slot threeProducers true ((∅ : ProducerWatermarks).insert ⟨1⟩ 25) ⟨1⟩ ⟨20⟩
      distinct blockNumFits slotFits).2 _ computed⟩

end ProducerPlugin

end Fio.Chain
