import FioChain.BlockHeaderState.Invariant

/-! Runs of `block_header_state::next` from the genesis state of
`initialize_blockchain_state`. A run may only use the headers `admits` accepts. `Votes`
holds along every run; the producer maps follow the active schedule after the first
header; `Confirmations` needs every new schedule well formed, as `set_proposed_producers`
makes it. -/

namespace Fio.Chain

namespace BlockHeaderState

/-- The header states reached from genesis by accepted headers that `admits` allows, while the
block number stays below `2 ^ 32`: `block_num` is a `uint32_t`, and the block after
`2 ^ 32 - 1` is numbered `0`. -/
inductive Reachable (admits : BlockHeader → Prop) : BlockHeaderState → Prop
  | genesis (initialKey : PublicKey) (initialTimestamp : BlockTimestamp) :
      Reachable admits (genesis initialKey initialTimestamp)
  | next {s s' : BlockHeaderState} {h : BlockHeader} (reached : Reachable admits s)
      (admitted : admits h) (room : s.blockNum + 1 < 2 ^ 32) (ok : s.nextHeader h = .ok s') :
      Reachable admits s'

/-- The states after the headers `hs`, accepted one after the other from `s`. -/
def runHeaders (s : BlockHeaderState) (hs : List BlockHeader) : Except Exception BlockHeaderState :=
  hs.foldlM nextHeader s

variable {admits : BlockHeader → Prop} {s s' : BlockHeaderState} {h : BlockHeader}

theorem runHeaders_cons (hs : List BlockHeader) :
    s.runHeaders (h :: hs) = s.nextHeader h >>= fun next => next.runHeaders hs := rfl

theorem runHeaders_append (hs hs' : List BlockHeader) :
    s.runHeaders (hs ++ hs') = s.runHeaders hs >>= fun next => next.runHeaders hs' :=
  List.foldlM_append

theorem runHeaders_append_of_ok {hs hs' : List BlockHeader} {t u : BlockHeaderState}
    (first : s.runHeaders hs = .ok t) (rest : t.runHeaders hs' = .ok u) : s.runHeaders (hs ++ hs') = .ok u := by
  rw [runHeaders_append, first]
  exact rest

/-- A run of admitted headers from a reachable state reaches a reachable state. -/
theorem Reachable.runHeaders {hs : List BlockHeader} (reached : Reachable admits s)
    (admitted : ∀ h ∈ hs, admits h) (room : s.blockNum + hs.length < 2 ^ 32)
    (ran : s.runHeaders hs = .ok s') : Reachable admits s' := by
  induction hs generalizing s with
  | nil =>
    cases ran
    exact reached
  | cons h rest ih =>
    simp only [runHeaders_cons, bind, Except.bind] at ran
    split at ran
    · cases ran
    · rename_i next ok
      simp only [List.length_cons] at room
      -- below the wrap the next block is numbered one past its parent
      have numbered : next.blockNum = s.blockNum + 1 := by
        rw [nextHeader_blockNum ok, Nat.mod_eq_of_lt (by omega)]
      exact ih (.next reached (admitted h (List.mem_cons_self ..)) (by omega) ok)
        (fun h' mem => admitted h' (List.mem_cons_of_mem _ mem)) (by omega) ran

/-! ### The invariants along runs

Genesis starts with empty producer maps, but its pending schedule is promoted by whatever
block comes first; the maps follow the active schedule from then on. -/

/-- The step lemma of `Votes`: any accepted header keeps it, while the block number does not
wrap. -/
theorem votes_nextHeader (votes : s.Votes) (room : s.blockNum + 1 < 2 ^ 32) (ok : s.nextHeader h = .ok s') :
    s'.Votes := by
  obtain ⟨prokey, -, -, -, -, rfl, -⟩ := nextHeader_ok ok
  exact votes_nextPending votes room

/-- After an accepted header the producer maps follow the active schedule. -/
theorem producers_nextHeader (tracks : s.Producers ∨ ∀ lib, s.promotesPending lib = true)
    (ok : s.nextHeader h = .ok s') : s'.Producers := by
  obtain ⟨prokey, scheduled, -, -, -, rfl, -⟩ := nextHeader_ok ok
  refine producers_nextPending scheduled ?_
  rcases tracks with producers | promotes
  · exact .inl producers
  · exact .inr (promotes _)

/-- The step lemma of `Confirmations`: an accepted header whose new schedule is well formed
keeps it. -/
theorem confirmations_nextHeader (confirmations : s.Confirmations) (proposes : h.ProposesWellFormed)
    (ok : s.nextHeader h = .ok s') : s'.Confirmations := by
  obtain ⟨prokey, -, -, -, -, rfl, -⟩ := nextHeader_ok ok
  refine ⟨counts_nextPending confirmations, ?_, ?_⟩
  · -- the active schedule is the promoted pending one or the parent's
    show (s.nextPending h.timestamp prokey h.confirmed).activeSchedule.WellFormed
    rw [nextPending_activeSchedule]
    split
    · exact confirmations.pending
    · exact confirmations.active
  · rw [PendingBlockHeaderState.finished_pendingSchedule]
    apply wellFormed_nextPendingSchedule _ proposes
    rw [nextPending_prevPendingSchedule]
    exact confirmations.pending

theorem Reachable.votes (reached : Reachable admits s) : s.Votes := by
  induction reached with
  | genesis =>
    exact ⟨le_rfl, by simp [BlockHeaderState.genesis, AList.empty_entries],
      by simp [BlockHeaderState.genesis], by simp [BlockHeaderState.genesis]⟩
  | next _ _ room ok votes => exact votes_nextHeader votes room ok

theorem Reachable.producers_or_promotes (reached : Reachable admits s) :
    s.Producers ∨ ∀ lib, s.promotesPending lib = true := by
  induction reached with
  | genesis => exact .inr fun lib => by simp [promotesPending, BlockHeaderState.genesis]
  | next _ _ _ ok tracks => exact .inl (producers_nextHeader tracks ok)

theorem Reachable.confirmations (reached : Reachable BlockHeader.ProposesWellFormed s) :
    s.Confirmations := by
  induction reached with
  | genesis initialKey =>
    have initial : (⟨0, [⟨Config.systemAccountName, initialKey⟩]⟩ : ProducerSchedule).WellFormed :=
      ⟨by simp [Config.maxProducers], by simp [ProducerSchedule.names]⟩
    exact ⟨by simp [BlockHeaderState.genesis], initial, initial⟩
  | next _ proposes _ ok confirmations => exact confirmations_nextHeader confirmations proposes ok

/-- After at least one accepted header from genesis, with every new schedule well formed:
the irreversible block is at most the proposed one and that at most the current block;
every implied block is at most the proposed one; every tracked count is for a block after
the proposed one, at most `maximum_tracked_dpos_confirmations` and at most the block number
of them are tracked, and each is in `[1, 255]`; the implied map has exactly the active
producers as keys, one entry each, and the last-produced map has them all. -/
theorem reachable_nextHeader_dpos_bookkeeping (reached : Reachable BlockHeader.ProposesWellFormed s)
    (proposes : h.ProposesWellFormed) (room : s.blockNum + 1 < 2 ^ 32) (ok : s.nextHeader h = .ok s') :
    s'.dposIrreversibleBlocknum ≤ s'.dposProposedIrreversibleBlocknum ∧
      s'.dposProposedIrreversibleBlocknum ≤ s'.blockNum ∧
      (∀ e ∈ s'.producerToLastImpliedIrb.entries, e.2 ≤ s'.dposProposedIrreversibleBlocknum) ∧
      (∀ i < s'.confirmCount.length,
        s'.dposProposedIrreversibleBlocknum < s'.blockNum - (s'.confirmCount.length - 1 - i)) ∧
      s'.confirmCount.length ≤ min Config.maximumTrackedDposConfirmations s'.blockNum ∧
      (∀ x ∈ s'.confirmCount, 1 ≤ x.toNat ∧ x.toNat ≤ 255) ∧
      (∀ n, n ∈ s'.producerToLastImpliedIrb ↔ n ∈ s'.activeSchedule.names) ∧
      s'.producerToLastImpliedIrb.entries.length = s'.activeSchedule.producers.length ∧
      ∀ n ∈ s'.activeSchedule.names, n ∈ s'.producerToLastProduced := by
  have producers := producers_nextHeader reached.producers_or_promotes ok
  have confirmations := confirmations_nextHeader reached.confirmations proposes ok
  obtain ⟨libLe, impliedLe, tracked, trackedLe⟩ := votes_nextHeader reached.votes room ok
  refine ⟨libLe, by omega, impliedLe, fun i _ => by omega, le_min trackedLe (by omega), ?_,
    producers.implied_keys, producers.implied_length confirmations.active.2,
    producers.lastProduced_keys⟩
  -- a positive `uint8_t`
  intro x mem
  have positive : x.toNat ≠ 0 := by
    simpa [← UInt8.toNat_inj] using confirmations.counts_ne_zero x mem
  have bounded := UInt8.toNat_lt x
  exact ⟨by omega, by omega⟩

/-- The first block after a genesis at slot 0: `eosio` produces it at slot 1 without
confirming earlier blocks. -/
theorem firstBlock_dpos_bookkeeping :
    ∃ s', (genesis ⟨0⟩ ⟨0⟩).nextHeader ⟨⟨1⟩, Config.systemAccountName, 0, 0, none⟩ = .ok s' ∧
      s'.dposIrreversibleBlocknum ≤ s'.dposProposedIrreversibleBlocknum ∧
      s'.dposProposedIrreversibleBlocknum ≤ s'.blockNum ∧
      (∀ e ∈ s'.producerToLastImpliedIrb.entries, e.2 ≤ s'.dposProposedIrreversibleBlocknum) ∧
      (∀ i < s'.confirmCount.length,
        s'.dposProposedIrreversibleBlocknum < s'.blockNum - (s'.confirmCount.length - 1 - i)) ∧
      s'.confirmCount.length ≤ min Config.maximumTrackedDposConfirmations s'.blockNum ∧
      (∀ x ∈ s'.confirmCount, 1 ≤ x.toNat ∧ x.toNat ≤ 255) ∧
      (∀ n, n ∈ s'.producerToLastImpliedIrb ↔ n ∈ s'.activeSchedule.names) ∧
      s'.producerToLastImpliedIrb.entries.length = s'.activeSchedule.producers.length ∧
      ∀ n ∈ s'.activeSchedule.names, n ∈ s'.producerToLastProduced := by
  obtain ⟨s', ok⟩ : ∃ s', (genesis ⟨0⟩ ⟨0⟩).nextHeader ⟨⟨1⟩, Config.systemAccountName, 0, 0, none⟩ =
      .ok s' := ⟨_, rfl⟩
  have proposes : BlockHeader.ProposesWellFormed ⟨⟨1⟩, Config.systemAccountName, 0, 0, none⟩ := by
    rintro _ ⟨⟩
  exact ⟨s', ok, reachable_nextHeader_dpos_bookkeeping (.genesis _ _) proposes (by decide) ok⟩

end BlockHeaderState

end Fio.Chain
