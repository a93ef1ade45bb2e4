import FioChain.Types

/-! `authority_checker`, and the two calls of `authorization_manager` that run it for keys:
`get_required_keys` and `check_authorization` of one permission. The checker visits the
parts of an authority from the highest weight down, marks each provided key it meets in
`_used_keys`, and caches the outcome of every permission it evaluates for the rest of the
call; a `KeyReverter` restores `_used_keys` when an authority is not satisfied.

The recursion depth is carried as what is left of `recursion_depth_limit`, so the recursion
is structural. `permission_to_authority` returns `none` where it throws
`permission_query_exception`; `checktime` is the no-op of `get_required_keys` and is left
out, and the checker's fields are fixed during a check, so the visitor's state is the key
marks and the cache. -/

namespace Fio.Chain

/-- `permission_level`. -/
structure PermissionLevel where
  actor : Name
  permission : Name
  deriving DecidableEq, Repr

structure PermissionLevelWeight where
  permission : PermissionLevel
  weight : UInt16
  deriving DecidableEq, Repr

structure KeyWeight where
  key : PublicKey
  weight : UInt16
  deriving DecidableEq, Repr

structure WaitWeight where
  waitSec : UInt32
  weight : UInt16
  deriving DecidableEq, Repr

structure Authority where
  threshold : UInt32
  keys : List KeyWeight
  accounts : List PermissionLevelWeight
  waits : List WaitWeight
  deriving DecidableEq, Repr

namespace Detail

/-- `meta_permission`, its alternatives in the order of the `static_variant`. -/
inductive MetaPermission where
  | permissionLevelWeight (permission : PermissionLevelWeight)
  | keyWeight (permission : KeyWeight)
  | waitWeight (permission : WaitWeight)
  deriving DecidableEq, Repr

/-- `get_weight_visitor`. -/
def MetaPermission.weight : MetaPermission → UInt16
  | .permissionLevelWeight permission => permission.weight
  | .keyWeight permission => permission.weight
  | .waitWeight permission => permission.weight

/-- `which()` of the `static_variant`. -/
def MetaPermission.which : MetaPermission → Nat
  | .permissionLevelWeight _ => 0
  | .keyWeight _ => 1
  | .waitWeight _ => 2

/-- `meta_permission_comparator`: `std::tie(lhs_weight, lhs_type) > std::tie(rhs_weight, rhs_type)`. -/
def metaPermissionComparator (lhs rhs : MetaPermission) : Bool :=
  decide (rhs.weight < lhs.weight ∨ (lhs.weight = rhs.weight ∧ rhs.which < lhs.which))

/-- The `meta_permission_set` of an authority: the waits, then the keys, then the accounts are
inserted into a `flat_multiset`, each after every element it does not precede. -/
def metaPermissionSet (authority : Authority) : List MetaPermission :=
  (authority.waits.map MetaPermission.waitWeight ++ authority.keys.map MetaPermission.keyWeight ++
    authority.accounts.map MetaPermission.permissionLevelWeight).foldl
    (fun permissions p => permissions.orderedInsert (fun a b => metaPermissionComparator a b = true) p) []

end Detail

open Detail

/-- `permission_cache_status`. -/
inductive PermissionCacheStatus where
  | beingEvaluated
  | permissionUnsatisfied
  | permissionSatisfied
  deriving DecidableEq, Repr

/-- `permission_cache_type`, a map from permission levels. -/
abbrev PermissionCache := PermissionLevel → Option PermissionCacheStatus

/-- `authority_checker::permission_status_in_cache`: the level, else the whole actor. -/
def permissionStatusInCache (permissions : PermissionCache) (level : PermissionLevel) :
    Option PermissionCacheStatus :=
  match permissions level with
  | some status => some status
  | none => permissions ⟨level.actor, ⟨0⟩⟩

/-- The fields of `authority_checker` that a check does not change. -/
structure AuthorityChecker where
  permissionToAuthority : PermissionLevel → Option Authority
  recursionDepthLimit : Nat
  providedKeys : List PublicKey
  providedPermissions : List PermissionLevel
  /-- In microseconds. -/
  providedDelay : Int

/-- What a check changes: `_used_keys`, and the cache of the current `satisfied` call. -/
structure CheckerState where
  usedKeys : List Bool
  cache : PermissionCache

namespace AuthorityChecker

variable (c : AuthorityChecker)

/-- `initialize_permission_cache`: every provided permission is satisfied. -/
def initializePermissionCache : PermissionCache := fun level =>
  if level ∈ c.providedPermissions then some .permissionSatisfied else none

/-- `weight_tally_visitor`, given how it evaluates the authority of a permission one level
down: `none` once `recursion_depth` has reached the limit. It returns its running total. -/
def tallyVisit (evaluate : Option (Authority → CheckerState → Bool × CheckerState)) :
    MetaPermission → UInt32 → CheckerState → UInt32 × CheckerState
  | .waitWeight permission, total, s =>
    if (permission.waitSec.toNat : Int) * 1000000 ≤ c.providedDelay then
      (total + permission.weight.toUInt32, s)
    else (total, s)
  | .keyWeight permission, total, s =>
    match c.providedKeys.idxOf? permission.key with
    | some i => (total + permission.weight.toUInt32, { s with usedKeys := s.usedKeys.set i true })
    | none => (total, s)
  | .permissionLevelWeight permission, total, s =>
    match permissionStatusInCache s.cache permission.permission with
    | none =>
      match evaluate with
      | none => (total, s)
      | some evaluate =>
        match c.permissionToAuthority permission.permission with
        -- the permission does not exist: continue without it
        | none => (total, s)
        | some auth =>
          let evaluated := evaluate auth
            { s with cache := Function.update s.cache permission.permission (some .beingEvaluated) }
          if evaluated.1 then
            (total + permission.weight.toUInt32, { evaluated.2 with
              cache := Function.update evaluated.2.cache permission.permission (some .permissionSatisfied) })
          else
            (total, { evaluated.2 with
              cache := Function.update evaluated.2.cache permission.permission (some .permissionUnsatisfied) })
    | some .permissionSatisfied => (total + permission.weight.toUInt32, s)
    | some _ => (total, s)

/-- The loop of `satisfied(authority, cached_permissions, depth)`: it returns as soon as the
visitor's total reaches the threshold. -/
def tallyLoop (visit : MetaPermission → UInt32 → CheckerState → UInt32 × CheckerState)
    (threshold : UInt32) : List MetaPermission → UInt32 → CheckerState → Bool × CheckerState
  | [], _, s => (false, s)
  | permission :: rest, total, s =>
    let visited := visit permission total s
    if threshold ≤ visited.1 then (true, visited.2)
    else tallyLoop visit threshold rest visited.1 visited.2

/-- `satisfied(authority, cached_permissions, depth)` with a given nested evaluation; the
`KeyReverter` restores the key marks unless the authority is satisfied. -/
def satisfiedWith (evaluate : Option (Authority → CheckerState → Bool × CheckerState))
    (authority : Authority) (s : CheckerState) : Bool × CheckerState :=
  let tallied := tallyLoop (c.tallyVisit evaluate) authority.threshold (metaPermissionSet authority) 0 s
  if tallied.1 then (true, tallied.2) else (false, { tallied.2 with usedKeys := s.usedKeys })

/-- `satisfied(authority, cached_permissions, depth)` at `depth = recursion_depth_limit - budget`. -/
def satisfiedAt : Nat → Authority → CheckerState → Bool × CheckerState
  | 0 => c.satisfiedWith none
  | budget + 1 => c.satisfiedWith (some (satisfiedAt budget))

/-- How the visitor at `depth = recursion_depth_limit - budget` evaluates an authority one
level down. -/
def nestedEvaluation : Nat → Option (Authority → CheckerState → Bool × CheckerState)
  | 0 => none
  | budget + 1 => some (c.satisfiedAt budget)

/-- `satisfied(permission)`: a fresh cache, and the visitor at depth zero on the permission
with weight one. Returns the answer and the key marks. -/
def satisfied (permission : PermissionLevel) (usedKeys : List Bool) : Bool × List Bool :=
  let visited := c.tallyVisit (c.nestedEvaluation c.recursionDepthLimit) (.permissionLevelWeight ⟨permission, 1⟩) 0
    ⟨usedKeys, c.initializePermissionCache⟩
  (decide (0 < visited.1), visited.2.usedKeys)

/-- `used_keys()`: the provided keys whose mark is set. -/
def usedKeysOf (usedKeys : List Bool) : List PublicKey :=
  (usedKeys.zip c.providedKeys).filterMap fun marked => if marked.1 then some marked.2 else none

/-- The check of one declared authorization in `get_required_keys`. -/
def requireSatisfied (usedKeys : List Bool) (declaredAuth : PermissionLevel) : Except Exception (List Bool) :=
  let checked := c.satisfied declaredAuth usedKeys
  if checked.1 then pure checked.2
  else throw (.unsatisfiedAuthorization
    "transaction declares authority '${auth}', but does not have signatures for it.")

end AuthorityChecker

/-- `authority_checker::all_keys_used`. -/
def allKeysUsed (usedKeys : List Bool) : Bool := usedKeys.all id

/-- `make_auth_checker` with its no-op `checktime`: no key marked yet. -/
def makeAuthChecker (permissionToAuthority : PermissionLevel → Option Authority) (recursionDepthLimit : Nat)
    (providedKeys : List PublicKey) (providedPermissions : List PermissionLevel) (providedDelay : Int) :
    AuthorityChecker × List Bool :=
  (⟨permissionToAuthority, recursionDepthLimit, providedKeys, providedPermissions, providedDelay⟩,
    List.replicate providedKeys.length false)

/-- The parts of a transaction that the key checks read: the declared authorizations of each
action. -/
structure Action where
  authorization : List PermissionLevel

structure Transaction where
  actions : List Action

/-- What `authorization_manager` reads for the key checks: the permissions that exist, with
their authorities, and two fields of the chain configuration. -/
structure AuthorizationManager where
  permissions : PermissionLevel → Option Authority
  maxAuthorityDepth : Nat
  /-- In seconds. -/
  maxTransactionDelay : Nat

namespace AuthorizationManager

variable (am : AuthorizationManager)

/-- `get_permission(level).auth`; `none` where it throws `permission_query_exception`, which
it also does for an empty actor or permission name. -/
def getPermission (level : PermissionLevel) : Option Authority :=
  if level.actor.value = 0 ∨ level.permission.value = 0 then none else am.permissions level

/-- `authorization_manager::get_required_keys`: one checker over the candidate keys for every
declared authorization of every action, then its used keys. -/
def getRequiredKeys (trx : Transaction) (candidateKeys : List PublicKey) (providedDelay : Int) :
    Except Exception (List PublicKey) := do
  let (checker, usedKeys) := makeAuthChecker am.getPermission am.maxAuthorityDepth candidateKeys [] providedDelay
  let usedKeys ← trx.actions.foldlM (fun usedKeys act =>
    act.authorization.foldlM checker.requireSatisfied usedKeys) usedKeys
  return checker.usedKeysOf usedKeys

/-- `authorization_manager::check_authorization` of one permission. -/
def checkAuthorization (account permission : Name) (providedKeys : List PublicKey)
    (providedPermissions : List PermissionLevel) (providedDelay : Int) (allowUnusedKeys : Bool) :
    Except Exception Unit := do
  let delayMaxLimit : Int := am.maxTransactionDelay * 1000000
  let (checker, usedKeys) := makeAuthChecker am.getPermission am.maxAuthorityDepth providedKeys
    providedPermissions (if delayMaxLimit ≤ providedDelay then 2 ^ 63 - 1 else providedDelay)
  let checked := checker.satisfied ⟨account, permission⟩ usedKeys
  if !checked.1 then
    throw (.unsatisfiedAuthorization ("permission '${auth}' was not satisfied under a provided delay of " ++
      "${provided_delay} ms, provided permissions ${provided_permissions}, provided keys " ++
      "${provided_keys}, and a delay max limit of ${delay_max_limit_ms} ms"))
  if !allowUnusedKeys then
    if !allKeysUsed checked.2 then
      throw (.txIrrelevantSig "irrelevant keys provided: ${keys}")

end AuthorizationManager

end Fio.Chain
