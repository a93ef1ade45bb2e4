import FioChain.ResourceLimits.Model
import FioChain.Lib.AListEntries

/-! The totals of `resource_limits_state_object` along every run of normal returns from
`initialize_database`. Each total is the sum of the positive values of its column over the
rows in force, and every pending row has a row in force. So the old value that
`update_state_and_value` reverts is part of its total, the underflow check never fires, and
`process_account_limit_updates` either folds every pending row in and leaves none, or stops
at the overflow check. -/

namespace Fio.Chain

namespace ResourceLimitsManager

/-- The total of a column over the rows in force, an unlimited (negative) value counting zero. -/
def positiveTotal (column : AccountLimits → Int) (actual : AList fun _ : Name => AccountLimits) : Nat :=
  (actual.entries.map fun e => (column e.2).toNat).sum

def IsOverflow (e : Exception) : Prop :=
  ∃ which, e = .rateLimitingStateInconsistent ("overflow when applying new value to " ++ which)

structure Consistent (m : ResourceLimitsManager) : Prop where
  ram : m.state.totalRamBytes = positiveTotal (·.ramBytes) m.limits.actual
  cpu : m.state.totalCpuWeight = positiveTotal (·.cpuWeight) m.limits.actual
  net : m.state.totalNetWeight = positiveTotal (·.netWeight) m.limits.actual
  pending_actual : ∀ owner ∈ m.limits.pending, owner ∈ m.limits.actual

/-- The states reached from `initialize_database` by calls that return normally. -/
inductive Reachable : ResourceLimitsManager → Prop
  | initial : Reachable initial
  | step {m m' : ResourceLimitsManager} (op : LimitsOperation) (reached : Reachable m)
      (ok : op.run m = .ok m') : Reachable m'

variable {m m' : ResourceLimitsManager}

/-! ### One column of one row -/

/-- With the old value inside the total, `update_state_and_value` moves the total from the old
value to the new one, or throws at the overflow check. -/
theorem updateStateAndValue_cases {total : Nat} {value : Int} (pendingValue : Int) (which : String)
    (covered : value.toNat ≤ total) :
    updateStateAndValue total value pendingValue which =
        .ok (total - value.toNat + pendingValue.toNat, pendingValue) ∨
      updateStateAndValue total value pendingValue which =
        .error (.rateLimitingStateInconsistent ("overflow when applying new value to " ++ which)) := by
  -- the underflow check passes: the old value is positive and covered, or it counts zero
  have reverted : (if 0 < value then
        if value.toNat ≤ total then (pure (total - value.toNat) : Except Exception Nat)
        else throw (.rateLimitingStateInconsistent ("underflow when reverting old value to " ++ which))
      else pure total) = pure (total - value.toNat) := by
    by_cases positive : 0 < value
    · rw [if_pos positive, if_pos covered]
    · rw [if_neg positive, Int.toNat_of_nonpos (Int.not_lt.mp positive), Nat.sub_zero]
  rw [updateStateAndValue, reverted, pure_bind]
  by_cases positive : 0 < pendingValue
  · by_cases fits : pendingValue.toNat ≤ 2 ^ 64 - 1 - (total - value.toNat)
    · left
      rw [if_pos positive, if_pos fits]
      rfl
    · right
      rw [if_pos positive, if_neg fits]
      rfl
  · left
    rw [if_neg positive, Int.toNat_of_nonpos (Int.not_lt.mp positive), Nat.add_zero]
    rfl

section Column

variable (column : AccountLimits → Int) {actual : AList fun _ : Name => AccountLimits} {owner : Name}

theorem positiveTotal_le {limits : AccountLimits} (found : actual.lookup owner = some limits) :
    (column limits).toNat ≤ positiveTotal column actual :=
  AList.le_sum_map_of_lookup (fun e => (column e.2).toNat) found

/-- Replacing a row in force takes its old value out of the total and puts the new one in. -/
theorem positiveTotal_insert {old : AccountLimits} (found : actual.lookup owner = some old)
    (limits : AccountLimits) :
    positiveTotal column actual - (column old).toNat + (column limits).toNat =
      positiveTotal column (actual.insert owner limits) := by
  have replaced := AList.sum_map_insert_of_lookup (fun e => (column e.2).toNat) found limits
  have inside := positiveTotal_le column found
  simp only [positiveTotal] at replaced inside ⊢
  omega

theorem positiveTotal_insert_of_notMem (absent : owner ∉ actual) (limits : AccountLimits) :
    positiveTotal column (actual.insert owner limits) = (column limits).toNat + positiveTotal column actual :=
  AList.sum_map_insert_of_notMem (fun e : Σ _ : Name, AccountLimits => (column e.2).toNat) absent limits

end Column

theorem consistent_initial : initial.Consistent where
  ram := rfl
  cpu := rfl
  net := rfl
  pending_actual _ absent := absurd absent (AList.notMem_empty _)

/-! ### The calls -/

theorem Consistent.initializeAccount {account : Name} (consistent : m.Consistent)
    (ok : m.initializeAccount account = .ok m') : m'.Consistent := by
  rw [ResourceLimitsManager.initializeAccount] at ok
  split at ok
  · cases ok
  · rename_i absent
    cases ok
    -- an unlimited row adds nothing to any total
    have unlimited (column : AccountLimits → Int) (negative : column .unlimited = -1) :
        positiveTotal column (m.limits.actual.insert account .unlimited) = positiveTotal column m.limits.actual := by
      rw [positiveTotal_insert_of_notMem _ absent, negative, show (-1 : Int).toNat = 0 from rfl, Nat.zero_add]
    exact ⟨consistent.ram.trans (unlimited _ rfl).symm, consistent.cpu.trans (unlimited _ rfl).symm,
      consistent.net.trans (unlimited _ rfl).symm,
      fun owner pending => (AList.mem_insert _).mpr (.inr (consistent.pending_actual owner pending))⟩

/-- `set_account_limits` returns normally exactly for an account with a row, pending or in force,
and then only writes its pending row. -/
theorem setAccountLimits_eq_ok {account : Name} {ramBytes netWeight cpuWeight : Int}
    {result : ResourceLimitsManager × Bool}
    (ok : m.setAccountLimits account ramBytes netWeight cpuWeight = .ok result) :
    (account ∈ m.limits.pending ∨ account ∈ m.limits.actual) ∧
      result.1 = { m with limits := { m.limits with
        pending := m.limits.pending.insert account ⟨netWeight, cpuWeight, ramBytes⟩ } } := by
  rw [setAccountLimits] at ok
  split at ok
  · rename_i found
    cases ok
    exact ⟨.inl (AList.lookup_isSome.mp (by rw [found]; rfl)), rfl⟩
  · split at ok
    · rename_i found
      cases ok
      exact ⟨.inr (AList.lookup_isSome.mp (by rw [found]; rfl)), rfl⟩
    · cases ok

theorem Consistent.setAccountLimits {account : Name} {ramBytes netWeight cpuWeight : Int}
    {result : ResourceLimitsManager × Bool} (consistent : m.Consistent)
    (ok : m.setAccountLimits account ramBytes netWeight cpuWeight = .ok result) : result.1.Consistent := by
  obtain ⟨present, written⟩ := setAccountLimits_eq_ok ok
  rw [written]
  refine ⟨consistent.ram, consistent.cpu, consistent.net, fun owner pending => ?_⟩
  rcases (AList.mem_insert _).mp pending with rfl | pending
  · exact present.elim (consistent.pending_actual owner) id
  · exact consistent.pending_actual owner pending

/-! ### The loop of `process_account_limit_updates` -/

theorem lowerBoundPending_eq_none : m.lowerBoundPending = none ↔ m.limits.pending.entries = [] :=
  List.argmax_eq_none

theorem lookup_of_lowerBoundPending {itr : Σ _ : Name, AccountLimits} (lower : m.lowerBoundPending = some itr) :
    m.limits.pending.lookup itr.1 = some itr.2 :=
  AList.mem_lookup_iff.mpr (List.argmax_mem lower)

theorem processLoop_succ_of_lowerBoundPending {fuel : Nat} {itr : Σ _ : Name, AccountLimits}
    (lower : m.lowerBoundPending = some itr) :
    processLoop (fuel + 1) m = m.applyPending itr.1 itr.2 >>= processLoop fuel := by
  rw [ResourceLimitsManager.processLoop, lower]

/-- One iteration folds the pending row in and erases it, or stops at the overflow check; the
row in force that it reads exists and the underflow check passes. -/
theorem Consistent.applyPending {owner : Name} {pendingLimits : AccountLimits} (consistent : m.Consistent)
    (found : m.limits.pending.lookup owner = some pendingLimits) :
    (∃ m', m.applyPending owner pendingLimits = .ok m' ∧ m'.Consistent ∧
        m'.limits.pending = m.limits.pending.erase owner) ∨
      ∃ e, m.applyPending owner pendingLimits = .error e ∧ IsOverflow e := by
  obtain ⟨old, inForce⟩ : ∃ old, m.limits.actual.lookup owner = some old :=
    Option.isSome_iff_exists.mp (AList.lookup_isSome.mpr
      (consistent.pending_actual owner (AList.lookup_isSome.mp (by rw [found]; rfl))))
  simp only [ResourceLimitsManager.applyPending, inForce]
  -- the three columns in the order of the source; each either moves its total or throws
  rcases updateStateAndValue_cases pendingLimits.ramBytes "ram_bytes" (consistent.ram ▸ positiveTotal_le _ inForce) with ram | ram
  · rcases updateStateAndValue_cases pendingLimits.cpuWeight "cpu_weight" (consistent.cpu ▸ positiveTotal_le _ inForce) with cpu | cpu
    · rcases updateStateAndValue_cases pendingLimits.netWeight "net_weight" (consistent.net ▸ positiveTotal_le _ inForce) with net | net
      · refine .inl ⟨_, by rw [ram, cpu, net]; rfl, ⟨?_, ?_, ?_, fun other pending => ?_⟩, rfl⟩
        · exact (congrArg (· - _ + _) consistent.ram).trans (positiveTotal_insert _ inForce _)
        · exact (congrArg (· - _ + _) consistent.cpu).trans (positiveTotal_insert _ inForce _)
        · exact (congrArg (· - _ + _) consistent.net).trans (positiveTotal_insert _ inForce _)
        · exact (AList.mem_insert _).mpr (.inr (consistent.pending_actual other (AList.mem_erase.mp pending).2))
      · exact .inr ⟨_, by rw [ram, cpu, net]; rfl, _, rfl⟩
    · exact .inr ⟨_, by rw [ram, cpu]; rfl, _, rfl⟩
  · exact .inr ⟨_, by rw [ram]; rfl, _, rfl⟩

/-- With enough fuel the loop folds in every pending row, or stops at the overflow check. -/
theorem Consistent.processLoop {fuel : Nat} (consistent : m.Consistent)
    (enough : m.limits.pending.entries.length ≤ fuel) :
    (∃ m', processLoop fuel m = .ok m' ∧ m'.Consistent ∧ m'.limits.pending.entries = []) ∨
      ∃ e, processLoop fuel m = .error e ∧ IsOverflow e := by
  -- induction on the fuel: each iteration erases the row it folds in
  induction fuel generalizing m with
  | zero =>
    have empty : m.limits.pending.entries = [] := List.eq_nil_of_length_eq_zero (Nat.le_zero.mp enough)
    refine .inl ⟨m, ?_, consistent, empty⟩
    rw [ResourceLimitsManager.processLoop, lowerBoundPending_eq_none.mpr empty]
    rfl
  | succ fuel ih =>
    cases lower : m.lowerBoundPending with
    | none =>
      refine .inl ⟨m, ?_, consistent, lowerBoundPending_eq_none.mp lower⟩
      rw [ResourceLimitsManager.processLoop, lower]
      rfl
    | some itr =>
      have found := lookup_of_lowerBoundPending lower
      rcases consistent.applyPending found with ⟨next, applied, consistent', erased⟩ | ⟨e, failed, overflow⟩
      · have shorter : next.limits.pending.entries.length ≤ fuel := by
          have := AList.length_erase_of_lookup found
          rw [erased]
          omega
        rcases ih consistent' shorter with ⟨m', loop, done⟩ | ⟨e, loop, overflow⟩
        · exact .inl ⟨m', by rw [processLoop_succ_of_lowerBoundPending lower, applied]; exact loop, done⟩
        · exact .inr ⟨e, by rw [processLoop_succ_of_lowerBoundPending lower, applied]; exact loop, overflow⟩
      · exact .inr ⟨e, by rw [processLoop_succ_of_lowerBoundPending lower, failed]; rfl, overflow⟩

theorem Consistent.processAccountLimitUpdates (consistent : m.Consistent) :
    (∃ m', m.processAccountLimitUpdates = .ok m' ∧ m'.Consistent ∧ m'.limits.pending.entries = []) ∨
      ∃ e, m.processAccountLimitUpdates = .error e ∧ IsOverflow e :=
  consistent.processLoop le_rfl

/-! ### Runs -/

theorem Consistent.run {op : LimitsOperation} (consistent : m.Consistent) (ok : op.run m = .ok m') :
    m'.Consistent := by
  cases op with
  | initializeAccount account => exact consistent.initializeAccount ok
  | setAccountLimits account ramBytes netWeight cpuWeight =>
    cases set : m.setAccountLimits account ramBytes netWeight cpuWeight with
    | error e => rw [LimitsOperation.run, set] at ok; cases ok
    | ok result =>
      rw [LimitsOperation.run, set] at ok
      cases ok
      exact consistent.setAccountLimits set
  | processAccountLimitUpdates =>
    rcases consistent.processAccountLimitUpdates with ⟨m'', done, consistent', -⟩ | ⟨e, failed, -⟩
    · rw [LimitsOperation.run, done] at ok
      cases ok
      exact consistent'
    · rw [LimitsOperation.run, failed] at ok
      cases ok

theorem Reachable.consistent (reached : m.Reachable) : m.Consistent := by
  induction reached with
  | initial => exact consistent_initial
  | step op _ ok consistent => exact consistent.run ok

/-- Along every run the totals are the sums of the positive limits in force, and
`process_account_limit_updates` leaves no pending row or stops at the overflow check: the
underflow check, and the lookup of the row in force, never fail. -/
theorem reachable_limits_totals (reached : m.Reachable) :
    m.state.totalRamBytes = positiveTotal (·.ramBytes) m.limits.actual ∧
      m.state.totalCpuWeight = positiveTotal (·.cpuWeight) m.limits.actual ∧
      m.state.totalNetWeight = positiveTotal (·.netWeight) m.limits.actual ∧
      (∀ e, m.processAccountLimitUpdates = .error e →
        ∃ which, e = .rateLimitingStateInconsistent ("overflow when applying new value to " ++ which)) ∧
      ∀ m', m.processAccountLimitUpdates = .ok m' → m'.limits.pending.entries = [] := by
  have consistent := reached.consistent
  refine ⟨consistent.ram, consistent.cpu, consistent.net, fun e failed => ?_, fun m' done => ?_⟩
  · rcases consistent.processAccountLimitUpdates with ⟨m'', done, -⟩ | ⟨e', failed', overflow⟩
    · rw [done] at failed
      cases failed
    · rw [failed'] at failed
      cases failed
      exact overflow
  · rcases consistent.processAccountLimitUpdates with ⟨m'', done', -, empty⟩ | ⟨e, failed, -⟩
    · rw [done'] at done
      cases done
      exact empty
    · rw [failed] at done
      cases done

theorem pendingLimits_totals :
    ∃ m, (initial.initializeAccount ⟨1⟩ >>= fun m =>
        (LimitsOperation.setAccountLimits ⟨1⟩ 100 5 5).run m) = .ok m ∧
      (m.state.totalRamBytes = positiveTotal (·.ramBytes) m.limits.actual ∧
        m.state.totalCpuWeight = positiveTotal (·.cpuWeight) m.limits.actual ∧
        m.state.totalNetWeight = positiveTotal (·.netWeight) m.limits.actual ∧
        (∀ e, m.processAccountLimitUpdates = .error e →
          ∃ which, e = .rateLimitingStateInconsistent ("overflow when applying new value to " ++ which)) ∧
        ∀ m', m.processAccountLimitUpdates = .ok m' → m'.limits.pending.entries = []) :=
  ⟨_, rfl, reachable_limits_totals
    (.step (.setAccountLimits ⟨1⟩ 100 5 5) (.step (.initializeAccount ⟨1⟩) .initial rfl) rfl)⟩

end ResourceLimitsManager

end Fio.Chain
