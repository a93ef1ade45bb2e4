import FioChain.BlockHeaderState.Run

/-! How the last irreversible block moves from one block to the next. A block that keeps
the active schedule records, for its producer, the proposed block `calc_dpos_last_irreversible`
counted for it; the next block reads the same entries, each at least as high, so the
irreversible block cannot go down. A promotion rebuilds the implied map over the new
schedule: a producer kept from the old schedule keeps a stale entry, and with fewer
producers the position `(n - 1) / 3` moves, so the next block can compute a lower one. -/

namespace Fio.Chain

namespace BlockHeaderStateCommon

/-- `calc_dpos_last_irreversible` grows from `s` to `t` when the block numbers of `t` raise
those of `s`, after a reordering: the vectors have one length, so one position is read. -/
theorem calcDposLastIrreversible_le_of_perm {s t : BlockHeaderStateCommon} {p q : Name} {l : List Nat}
    (perm : (s.blocknums p).Perm l) (raised : List.Forall₂ (· ≤ ·) l (t.blocknums q)) :
    s.calcDposLastIrreversible p ≤ t.calcDposLastIrreversible q := by
  have length : (s.blocknums p).length = (t.blocknums q).length :=
    perm.length_eq.trans raised.length_eq
  simp only [calcDposLastIrreversible, ← length]
  split_ifs
  · exact le_rfl
  · calc OrderStat.kth 0 (s.blocknums p) _ = OrderStat.kth 0 l _ := OrderStat.kth_perm perm 0 _
      _ ≤ OrderStat.kth 0 (t.blocknums q) _ := OrderStat.kth_mono raised 0 _

/-- With every implied block at most the proposed one, the block numbers read for any
producer raise the implied blocks one for one. -/
theorem values_le_blocknums {t : BlockHeaderStateCommon}
    (bounded : ∀ e ∈ t.producerToLastImpliedIrb.entries, e.2 ≤ t.dposProposedIrreversibleBlocknum)
    (q : Name) : List.Forall₂ (· ≤ ·) (t.producerToLastImpliedIrb.entries.map (·.2)) (t.blocknums q) := by
  rw [blocknums, List.forall₂_map_left_iff, List.forall₂_map_right_iff, List.forall₂_same]
  intro e mem
  split
  · exact bounded e mem
  · exact le_rfl

/-- Recording the proposed block for a producer present in the implied map permutes the
block numbers `calc_dpos_last_irreversible` read for that producer. -/
theorem blocknums_perm_insert {s : BlockHeaderStateCommon} {p : Name}
    (present : p ∈ s.producerToLastImpliedIrb) :
    (s.blocknums p).Perm
      ((s.producerToLastImpliedIrb.insert p s.dposProposedIrreversibleBlocknum).entries.map (·.2)) :=
  AList.map_insert_perm present _

/-- `calc_dpos_last_irreversible` over a map of `n` producers: 0 when the map is empty, and
otherwise the largest of the block numbers it reads that at least `⌊2n/3⌋ + 1` of them reach. -/
theorem calc_dpos_last_irreversible_quorum (s : BlockHeaderStateCommon) (p : Name) :
    (s.producerToLastImpliedIrb.entries = [] → s.calcDposLastIrreversible p = 0) ∧
      (0 < s.producerToLastImpliedIrb.entries.length →
        IsGreatest {v | v ∈ s.blocknums p ∧
            2 * s.producerToLastImpliedIrb.entries.length / 3 + 1 ≤ OrderStat.countGE (s.blocknums p) v}
          (s.calcDposLastIrreversible p)) := by
  have length : (s.blocknums p).length = s.producerToLastImpliedIrb.entries.length := List.length_map ..
  constructor
  · intro empty
    simp [calcDposLastIrreversible, length, empty]
  · intro nonempty
    -- from the position `(n - 1) / 3` to the end there are `⌊2n/3⌋ + 1` elements
    have quorum : (s.blocknums p).length - ((s.blocknums p).length - 1) / 3 =
        2 * s.producerToLastImpliedIrb.entries.length / 3 + 1 := by
      rw [length]
      omega
    have read : s.calcDposLastIrreversible p =
        OrderStat.kth 0 (s.blocknums p) (((s.blocknums p).length - 1) / 3) := by
      simp [calcDposLastIrreversible, length, nonempty.ne']
    rw [read, ← quorum]
    exact OrderStat.kth_isGreatest (by omega) 0

end BlockHeaderStateCommon

namespace BlockHeaderState

open BlockHeaderStateCommon

variable {admits : BlockHeader → Prop} {s s' s'' : BlockHeaderState} {h h' : BlockHeader}

/-- The step lemma: after a block that did not promote, the next block computes an
irreversible block at least as high. -/
theorem lib_le_nextHeader_of_not_promoted (votes : s.Votes) (producers : s.Producers)
    (room : s.blockNum + 1 < 2 ^ 32) (ok : s.nextHeader h = .ok s')
    (notPromoted : s.promotesPending (s.calcDposLastIrreversible h.producer) = false)
    (ok' : s'.nextHeader h' = .ok s'') : s'.dposIrreversibleBlocknum ≤ s''.dposIrreversibleBlocknum := by
  have raised := values_le_blocknums (votes_nextHeader votes room ok).implied_le
  obtain ⟨prokey, scheduled, -, -, -, rfl, producer, -⟩ := nextHeader_ok ok
  obtain ⟨prokey', -, -, -, -, rfl, -⟩ := nextHeader_ok ok'
  rw [producer] at notPromoted
  have present : prokey.producerName ∈ s.producerToLastImpliedIrb :=
    (producers.implied_keys _).mpr (List.mem_map_of_mem scheduled)
  -- without a promotion the producer's entry is replaced by the proposed block in place
  have recorded : (s.nextPending h.timestamp prokey h.confirmed).producerToLastImpliedIrb =
      s.producerToLastImpliedIrb.insert prokey.producerName s.dposProposedIrreversibleBlocknum := by
    simp [notPromoted]
  specialize raised prokey'.producerName
  simp only [PendingBlockHeaderState.finished_toBlockHeaderStateCommon, recorded] at raised ⊢
  rw [nextPending_dposIrreversibleBlocknum, nextPending_dposIrreversibleBlocknum]
  exact calcDposLastIrreversible_le_of_perm (blocknums_perm_insert present) raised

/-- Along every run from genesis below the wrap of block numbers, the irreversible block does
not go down from a block that did not promote the pending schedule to the block after it. -/
theorem reachable_lib_le_of_not_promoted (reached : Reachable admits s) (room : s.blockNum + 1 < 2 ^ 32)
    (ok : s.nextHeader h = .ok s')
    (notPromoted : s.promotesPending (s.calcDposLastIrreversible h.producer) = false)
    (ok' : s'.nextHeader h' = .ok s'') : s'.dposIrreversibleBlocknum ≤ s''.dposIrreversibleBlocknum := by
  -- genesis promotes whatever block follows it, so the producer maps follow the schedule
  have producers : s.Producers := by
    rcases reached.producers_or_promotes with producers | promotes
    · exact producers
    · simp [promotes] at notPromoted
  exact lib_le_nextHeader_of_not_promoted reached.votes producers room ok notPromoted ok'

/-! ### A drop after a promotion

From genesis, `eosio` produces blocks 2 to 4; block 3 proposes a schedule of four producers,
which block 4 promotes with every new producer seeded at 3. Blocks 5 to 10 are produced by the
second, third and fourth of them, twice, with nobody producing in the first one's slots;
block 5 proposes a schedule of the first producer and a fifth one, which block 10 promotes at
irreversible block 5: the first producer keeps its stale 3 and the fifth is seeded at 5. With
two producers block 11 reads position 0, the stale 3. -/

/-- The producers of the runs below: five distinct accounts. -/
def producerA : Name := ⟨1⟩
def producerB : Name := ⟨2⟩
def producerC : Name := ⟨3⟩
def producerD : Name := ⟨4⟩
def producerE : Name := ⟨5⟩

/-- The schedule block 3 proposes. -/
def scheduleOne : ProducerSchedule :=
  ⟨1, [⟨producerA, ⟨0⟩⟩, ⟨producerB, ⟨0⟩⟩, ⟨producerC, ⟨0⟩⟩, ⟨producerD, ⟨0⟩⟩]⟩

/-- The schedule block 5 proposes. -/
def scheduleTwo : ProducerSchedule := ⟨2, [⟨producerA, ⟨0⟩⟩, ⟨producerE, ⟨0⟩⟩]⟩

/-- Blocks 2 and 3: `eosio` at slots 1 and 2, block 3 proposing `scheduleOne`. -/
def proposingHeaders : List BlockHeader :=
  [⟨⟨1⟩, Config.systemAccountName, 0, 0, none⟩,
   ⟨⟨2⟩, Config.systemAccountName, 0, 0, some scheduleOne⟩]

/-- Blocks 4 to 9: `eosio` promotes `scheduleOne`, then its second, third and fourth
producers take their slots, block 5 proposing `scheduleTwo`. -/
def promotingHeaders : List BlockHeader :=
  [⟨⟨3⟩, Config.systemAccountName, 0, 0, none⟩,
   ⟨⟨12⟩, producerB, 0, 1, some scheduleTwo⟩,
   ⟨⟨24⟩, producerC, 1, 1, none⟩,
   ⟨⟨36⟩, producerD, 2, 1, none⟩,
   ⟨⟨60⟩, producerB, 2, 1, none⟩,
   ⟨⟨72⟩, producerC, 2, 1, none⟩]

theorem proposesWellFormed_of_mem {h : BlockHeader} (mem : h ∈ proposingHeaders ++ promotingHeaders) :
    h.ProposesWellFormed := by
  intro newProducers proposed
  simp only [proposingHeaders, promotingHeaders, List.cons_append, List.nil_append, List.mem_cons,
    List.not_mem_nil, or_false] at mem
  rcases mem with rfl | rfl | rfl | rfl | rfl | rfl | rfl | rfl <;> cases proposed
  · exact ⟨by decide, by decide⟩
  · exact ⟨by decide, by decide⟩

/-- Block 3 does not promote, and block 4 computes an irreversible block at least its own. -/
theorem thirdBlock_lib_le :
    ∃ s s' s'' : BlockHeaderState,
      (genesis ⟨0⟩ ⟨0⟩).runHeaders [⟨⟨1⟩, Config.systemAccountName, 0, 0, none⟩] = .ok s ∧
      s.nextHeader ⟨⟨2⟩, Config.systemAccountName, 0, 0, some scheduleOne⟩ = .ok s' ∧
      s.promotesPending (s.calcDposLastIrreversible Config.systemAccountName) = false ∧
      s'.nextHeader ⟨⟨3⟩, Config.systemAccountName, 0, 0, none⟩ = .ok s'' ∧
      s'.dposIrreversibleBlocknum ≤ s''.dposIrreversibleBlocknum :=
  ⟨_, _, _, rfl, rfl, rfl, rfl,
    reachable_lib_le_of_not_promoted
      (Reachable.runHeaders (.genesis ⟨0⟩ ⟨0⟩) (fun _ _ => trivial) (by decide)
        (rfl : (genesis ⟨0⟩ ⟨0⟩).runHeaders [⟨⟨1⟩, Config.systemAccountName, 0, 0, none⟩] = .ok _) :
          Reachable (fun _ => True) _)
      (by decide) (rfl : nextHeader _ ⟨⟨2⟩, Config.systemAccountName, 0, 0, some scheduleOne⟩ = .ok _) rfl
      (rfl : nextHeader _ ⟨⟨3⟩, Config.systemAccountName, 0, 0, none⟩ = .ok _)⟩

/-- Block 10 promotes `scheduleTwo`, and block 11 computes a lower irreversible block than
block 10 did. -/
theorem lib_drops_after_promotion :
    ∃ s s' s'' : BlockHeaderState, ∃ h h' : BlockHeader,
      Reachable BlockHeader.ProposesWellFormed s ∧ s.nextHeader h = .ok s' ∧
      s.promotesPending (s.calcDposLastIrreversible h.producer) = true ∧
      s'.nextHeader h' = .ok s'' ∧ s''.dposIrreversibleBlocknum < s'.dposIrreversibleBlocknum :=
  ⟨_, _, _, ⟨⟨84⟩, producerD, 2, 1, none⟩, ⟨⟨108⟩, producerE, 0, 2, none⟩,
    Reachable.runHeaders (.genesis ⟨0⟩ ⟨0⟩) (fun _ => proposesWellFormed_of_mem) (by decide)
      (rfl : (genesis ⟨0⟩ ⟨0⟩).runHeaders (proposingHeaders ++ promotingHeaders) = .ok _),
    rfl, rfl, rfl, by decide⟩

end BlockHeaderState

end Fio.Chain
