import FioChain.Authority.Checker
import FioChain.Lib.ExceptFold

/-! What `get_required_keys` returns. Whether an authority is satisfied, and what the cache
records, never depends on the key marks: the visitor only writes them. So the call returns
normally exactly when a fresh checker over the candidate keys satisfies every declared
authorization, and it returns some of the candidate keys. They need not be enough: a
permission satisfied inside an authority that then fails stays cached as satisfied while the
`KeyReverter` of that authority unmarks its keys, and a later use of the permission from the
cache adds its weight without marking them. -/

namespace Fio.Chain

namespace AuthorityChecker

variable (c : AuthorityChecker)

/-- A part of a check whose answer and resulting cache depend on the state only through its
cache. -/
def IgnoresMarks {α : Type} (f : CheckerState → α × CheckerState) : Prop :=
  ∀ s s' : CheckerState, s.cache = s'.cache → (f s).1 = (f s').1 ∧ (f s).2.cache = (f s').2.cache

theorem tallyVisit_ignoresMarks {evaluate : Option (Authority → CheckerState → Bool × CheckerState)}
    (nested : ∀ e ∈ evaluate, ∀ auth, IgnoresMarks (e auth)) (permission : Detail.MetaPermission)
    (total : UInt32) : IgnoresMarks (c.tallyVisit evaluate permission total) := by
  rintro ⟨usedKeys, cache⟩ ⟨usedKeys', cache'⟩ (rfl : cache = cache')
  cases permission with
  | waitWeight permission =>
    simp only [tallyVisit]
    split <;> simp
  | keyWeight permission =>
    simp only [tallyVisit]
    split <;> simp
  | permissionLevelWeight permission =>
    -- the cache picks the branch; only a nested evaluation can tell the two states apart
    rcases Option.eq_none_or_eq_some (permissionStatusInCache cache permission.permission) with
      status | ⟨status, cached⟩
    · cases evaluate with
      | none => simp [tallyVisit, status]
      | some evaluate =>
        cases found : c.permissionToAuthority permission.permission with
        | none => simp [tallyVisit, status, found]
        | some auth =>
          obtain ⟨same, sameCache⟩ := nested evaluate rfl auth
            ⟨usedKeys, Function.update cache permission.permission (some .beingEvaluated)⟩
            ⟨usedKeys', Function.update cache permission.permission (some .beingEvaluated)⟩ rfl
          simp only [tallyVisit, status, found, same, sameCache]
          split <;> simp
    · cases status <;> simp [tallyVisit, cached]

theorem tallyLoop_ignoresMarks {visit : Detail.MetaPermission → UInt32 → CheckerState → UInt32 × CheckerState}
    (visits : ∀ permission total, IgnoresMarks (visit permission total)) (threshold : UInt32) :
    ∀ permissions total, IgnoresMarks (tallyLoop visit threshold permissions total)
  | [], _ => fun _ _ same => ⟨rfl, same⟩
  | permission :: rest, total => by
    intro s s' same
    obtain ⟨sameTotal, sameCache⟩ := visits permission total s s' same
    simp only [tallyLoop]
    rw [sameTotal]
    split
    · exact ⟨rfl, sameCache⟩
    · exact tallyLoop_ignoresMarks visits threshold rest _ _ _ sameCache

theorem satisfiedWith_ignoresMarks {evaluate : Option (Authority → CheckerState → Bool × CheckerState)}
    (nested : ∀ e ∈ evaluate, ∀ auth, IgnoresMarks (e auth)) (authority : Authority) :
    IgnoresMarks (c.satisfiedWith evaluate authority) := by
  intro s s' same
  obtain ⟨sameAnswer, sameCache⟩ :=
    tallyLoop_ignoresMarks (c.tallyVisit_ignoresMarks nested) authority.threshold _ 0 s s' same
  simp only [satisfiedWith]
  rw [sameAnswer]
  split <;> exact ⟨rfl, sameCache⟩

theorem satisfiedAt_ignoresMarks : ∀ budget authority, IgnoresMarks (c.satisfiedAt budget authority)
  | 0, authority => c.satisfiedWith_ignoresMarks (fun _ absent => absurd absent (Option.not_mem_none _)) authority
  | budget + 1, authority => c.satisfiedWith_ignoresMarks (fun _ chosen => by
      obtain rfl := Option.mem_some_iff.mp chosen
      exact satisfiedAt_ignoresMarks budget) authority

/-- The answer of `satisfied(permission)` does not depend on the keys marked before. -/
theorem satisfied_fst (permission : PermissionLevel) (usedKeys usedKeys' : List Bool) :
    (c.satisfied permission usedKeys).1 = (c.satisfied permission usedKeys').1 := by
  have nested : ∀ e ∈ c.nestedEvaluation c.recursionDepthLimit, ∀ auth, IgnoresMarks (e auth) := by
    cases c.recursionDepthLimit with
    | zero => exact fun _ absent => absurd absent (Option.not_mem_none _)
    | succ budget =>
      intro _ chosen
      obtain rfl := Option.mem_some_iff.mp chosen
      exact c.satisfiedAt_ignoresMarks budget
  have same := (c.tallyVisit_ignoresMarks nested (.permissionLevelWeight ⟨permission, 1⟩) 0
    ⟨usedKeys, c.initializePermissionCache⟩ ⟨usedKeys', c.initializePermissionCache⟩ rfl).1
  simp only [satisfied]
  rw [same]

end AuthorityChecker

namespace AuthorizationManager

variable (am : AuthorizationManager)

/-- `get_required_keys` returns normally exactly when a fresh checker over the candidate keys
satisfies every declared authorization. -/
theorem getRequiredKeys_isOk_iff (trx : Transaction) (candidateKeys : List PublicKey) (providedDelay : Int) :
    (∃ keys, am.getRequiredKeys trx candidateKeys providedDelay = .ok keys) ↔
      ∀ act ∈ trx.actions, ∀ declaredAuth ∈ act.authorization,
        ((makeAuthChecker am.getPermission am.maxAuthorityDepth candidateKeys [] providedDelay).1.satisfied
          declaredAuth (List.replicate candidateKeys.length false)).1 = true := by
  simp only [getRequiredKeys, makeAuthChecker]
  set checker : AuthorityChecker := ⟨am.getPermission, am.maxAuthorityDepth, candidateKeys, [], providedDelay⟩
  -- each check passes or throws by the answer alone, whatever was marked before it
  have check : ∀ usedKeys declaredAuth, (∃ next, checker.requireSatisfied usedKeys declaredAuth = .ok next) ↔
      (checker.satisfied declaredAuth (List.replicate candidateKeys.length false)).1 = true := by
    intro usedKeys declaredAuth
    rw [← checker.satisfied_fst declaredAuth usedKeys]
    simp only [AuthorityChecker.requireSatisfied]
    split
    · exact ⟨fun _ => ‹_›, fun _ => ⟨_, rfl⟩⟩
    · exact ⟨fun ⟨_, thrown⟩ => (nomatch thrown), fun answered => absurd answered ‹_›⟩
  have actions := ExceptFold.foldlM_isOk_iff _
    (fun usedKeys (act : Action) => ExceptFold.foldlM_isOk_iff _ (check) act.authorization usedKeys)
    trx.actions (List.replicate candidateKeys.length false)
  refine Iff.trans ⟨fun ⟨_, returned⟩ => ?_, fun ⟨usedKeys, loop⟩ => ⟨_, by rw [loop]; rfl⟩⟩ actions
  obtain ⟨usedKeys, loop, -⟩ := ExceptFold.bind_eq_ok returned
  exact ⟨usedKeys, loop⟩

/-- Four permissions `⟨a, 1⟩`. The declared `⟨1, 1⟩` needs weight 1 from `⟨2, 1⟩` (weight 2,
visited first) or `⟨3, 1⟩`; `⟨2, 1⟩` needs `⟨4, 1⟩` and the key `⟨2⟩`, `⟨3, 1⟩` needs only
`⟨4, 1⟩`, and `⟨4, 1⟩` needs the key `⟨1⟩`. Every authority is valid: its weights reach its
threshold. -/
def sharedPermissions : AuthorizationManager where
  permissions level :=
    if level = ⟨⟨1⟩, ⟨1⟩⟩ then some ⟨1, [], [⟨⟨⟨2⟩, ⟨1⟩⟩, 2⟩, ⟨⟨⟨3⟩, ⟨1⟩⟩, 1⟩], []⟩
    else if level = ⟨⟨2⟩, ⟨1⟩⟩ then some ⟨2, [⟨⟨2⟩, 1⟩], [⟨⟨⟨4⟩, ⟨1⟩⟩, 1⟩], []⟩
    else if level = ⟨⟨3⟩, ⟨1⟩⟩ then some ⟨1, [], [⟨⟨⟨4⟩, ⟨1⟩⟩, 1⟩], []⟩
    else if level = ⟨⟨4⟩, ⟨1⟩⟩ then some ⟨1, [⟨⟨1⟩, 1⟩], [], []⟩
    else none
  maxAuthorityDepth := 6
  maxTransactionDelay := 3888000

/-- With the candidate key `⟨1⟩`, `⟨4, 1⟩` is satisfied inside `⟨2, 1⟩`, which then fails and
unmarks the key; `⟨3, 1⟩` takes `⟨4, 1⟩` from the cache. So `get_required_keys` returns no
key, a check over no key fails, and a check over the candidate key with no unused key allowed
fails too. -/
theorem getRequiredKeys_omits_cached_key :
    sharedPermissions.getRequiredKeys ⟨[⟨[⟨⟨1⟩, ⟨1⟩⟩]⟩]⟩ [⟨1⟩] 0 = .ok [] ∧
      (∃ message, sharedPermissions.checkAuthorization ⟨1⟩ ⟨1⟩ [] [] 0 false =
        .error (.unsatisfiedAuthorization message)) ∧
      ∃ message, sharedPermissions.checkAuthorization ⟨1⟩ ⟨1⟩ [⟨1⟩] [] 0 false =
        .error (.txIrrelevantSig message) :=
  ⟨by decide, ⟨_, rfl⟩, ⟨_, rfl⟩⟩

end AuthorizationManager

end Fio.Chain
