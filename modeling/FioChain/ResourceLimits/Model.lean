import FioChain.Types

/-! The account limits of `resource_limits_manager`: `initialize_account`,
`set_account_limits` and `process_account_limit_updates`, over the rows of
`resource_limits_index` and the totals of `resource_limits_state_object`. The `by_owner` index
is unique on `(pending, owner)`, so the table is one map from owners for the rows in force and
one for the pending rows. The limits are `int64_t`, negative for unlimited; the totals are
`uint64_t`, and their overflow check is written out. The usage rows that
`initialize_account` also creates are left out: no modelled function reads them. -/

namespace Fio.Chain

/-- The limit columns of a `resource_limits_object`. -/
structure AccountLimits where
  netWeight : Int
  cpuWeight : Int
  ramBytes : Int
  deriving DecidableEq, Repr

/-- The member initialisers: every limit unlimited. -/
def AccountLimits.unlimited : AccountLimits := ⟨-1, -1, -1⟩

/-- The `resource_limits_index` through `by_owner`. -/
structure ResourceLimitsTable where
  /-- The rows with `pending == false`. -/
  actual : AList fun _ : Name => AccountLimits
  /-- The rows with `pending == true`. -/
  pending : AList fun _ : Name => AccountLimits

/-- The totals of `resource_limits_state_object` that the limits update. -/
structure ResourceLimitsState where
  totalNetWeight : Nat
  totalCpuWeight : Nat
  totalRamBytes : Nat

/-- What `resource_limits_manager` reads and writes of the database for account limits. -/
structure ResourceLimitsManager where
  limits : ResourceLimitsTable
  state : ResourceLimitsState

namespace ResourceLimitsManager

/-- The database after `initialize_database`: no rows, zero totals. -/
def initial : ResourceLimitsManager := ⟨⟨∅, ∅⟩, ⟨0, 0, 0⟩⟩

/-- `resource_limits_manager::initialize_account`: a row in force with unlimited limits. -/
def initializeAccount (m : ResourceLimitsManager) (account : Name) : Except Exception ResourceLimitsManager :=
  if account ∈ m.limits.actual then throw .uniquenessViolation
  else pure { m with limits := { m.limits with actual := m.limits.actual.insert account .unlimited } }

/-- `resource_limits_manager::set_account_limits`: the pending row of the account, created as a
copy of the row in force when there is none, takes the new limits. Returns whether the ram
limit was decreased. -/
def setAccountLimits (m : ResourceLimitsManager) (account : Name) (ramBytes netWeight cpuWeight : Int) :
    Except Exception (ResourceLimitsManager × Bool) := do
  -- find_or_create_pending_limits
  let limits ← match m.limits.pending.lookup account with
    | some pendingLimits => pure pendingLimits
    | none =>
      match m.limits.actual.lookup account with
      | some limits => pure limits
      | none => throw .unknownKey
  let decreasedLimit := decide (0 ≤ ramBytes) && (decide (limits.ramBytes < 0) || decide (ramBytes < limits.ramBytes))
  let pending := m.limits.pending.insert account ⟨netWeight, cpuWeight, ramBytes⟩
  return ({ m with limits := { m.limits with pending } }, decreasedLimit)

/-- The `update_state_and_value` lambda: the old positive value leaves the total and the new
positive value enters it; returns the total and the new value. -/
def updateStateAndValue (total : Nat) (value pendingValue : Int) (debugWhich : String) :
    Except Exception (Nat × Int) := do
  let total ← (if 0 < value then
      if value.toNat ≤ total then pure (total - value.toNat)
      else throw (.rateLimitingStateInconsistent ("underflow when reverting old value to " ++ debugWhich))
    else pure total : Except Exception Nat)
  let total ← (if 0 < pendingValue then
      if pendingValue.toNat ≤ 2 ^ 64 - 1 - total then pure (total + pendingValue.toNat)
      else throw (.rateLimitingStateInconsistent ("overflow when applying new value to " ++ debugWhich))
    else pure total : Except Exception Nat)
  return (total, pendingValue)

/-- `by_owner_index.lower_bound(boost::make_tuple(true))`: the pending row of the least owner,
or none when no row is pending. -/
def lowerBoundPending (m : ResourceLimitsManager) : Option (Σ _ : Name, AccountLimits) :=
  m.limits.pending.entries.argmax fun e => OrderDual.toDual e.1.value.toNat

/-- One iteration of the loop: the pending row of `owner` is folded into its row in force and
into the totals, and removed. -/
def applyPending (m : ResourceLimitsManager) (owner : Name) (pendingLimits : AccountLimits) :
    Except Exception ResourceLimitsManager := do
  let some actualEntry := m.limits.actual.lookup owner | throw .unknownKey
  let ram ← updateStateAndValue m.state.totalRamBytes actualEntry.ramBytes pendingLimits.ramBytes "ram_bytes"
  let cpu ← updateStateAndValue m.state.totalCpuWeight actualEntry.cpuWeight pendingLimits.cpuWeight "cpu_weight"
  let net ← updateStateAndValue m.state.totalNetWeight actualEntry.netWeight pendingLimits.netWeight "net_weight"
  return { limits := { actual := m.limits.actual.insert owner ⟨net.2, cpu.2, ram.2⟩,
                       pending := m.limits.pending.erase owner }
           state := { totalNetWeight := net.1, totalCpuWeight := cpu.1, totalRamBytes := ram.1 } }

/-- The `while` loop of `process_account_limit_updates`. Each iteration removes a pending row;
`fuel` bounds the iterations, and running out of it is reported, never hidden. -/
def processLoop : Nat → ResourceLimitsManager → Except Exception ResourceLimitsManager
  | 0, m =>
    match m.lowerBoundPending with
    | none => pure m
    | some _ => throw .nonTermination
  | fuel + 1, m =>
    match m.lowerBoundPending with
    | none => pure m
    | some itr => do
      let m ← m.applyPending itr.1 itr.2
      processLoop fuel m

/-- `resource_limits_manager::process_account_limit_updates`. -/
def processAccountLimitUpdates (m : ResourceLimitsManager) : Except Exception ResourceLimitsManager :=
  processLoop m.limits.pending.entries.length m

end ResourceLimitsManager

/-- The calls that change the account limits. -/
inductive LimitsOperation where
  | initializeAccount (account : Name)
  | setAccountLimits (account : Name) (ramBytes netWeight cpuWeight : Int)
  | processAccountLimitUpdates

def LimitsOperation.run (m : ResourceLimitsManager) : LimitsOperation → Except Exception ResourceLimitsManager
  | .initializeAccount account => m.initializeAccount account
  | .setAccountLimits account ramBytes netWeight cpuWeight =>
    (m.setAccountLimits account ramBytes netWeight cpuWeight).map Prod.fst
  | .processAccountLimitUpdates => m.processAccountLimitUpdates

end Fio.Chain
