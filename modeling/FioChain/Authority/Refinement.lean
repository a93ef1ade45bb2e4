import FioChain.Authority.Ideal

/-! `satisfied` computes the weighted-threshold reading when nothing cuts it short: when the
permissions below the authority are ranked, each authority's permissions below the rank of its
own permission and the authority's at the top below the recursion limit; when no permission
with an empty name has an authority; and when no authority's weights overflow the running
total. The cache then only holds what the reading says of a permission, a permission being
evaluated is never met again, and the order of the visit does not matter. -/

namespace Fio.Chain

open Detail

namespace AuthorityChecker

variable (c : AuthorityChecker) (rank : PermissionLevel → Nat)

/-- What keeps the checker from being cut short: every permission of an authority ranks below
the permission the authority belongs to, no permission with an empty name has an authority,
and every authority's weights fit the running total. -/
structure Ranked : Prop where
  lower : ∀ level auth, c.permissionToAuthority level = some auth →
    ∀ p ∈ auth.accounts, rank p.permission < rank level
  actorWide : ∀ actor, c.permissionToAuthority ⟨actor, ⟨0⟩⟩ = none
  fits : ∀ level auth, c.permissionToAuthority level = some auth → auth.totalWeight < 2 ^ 32

/-- What the reading says of a permission, with as many levels below as its rank. -/
def holds (level : PermissionLevel) : Bool :=
  decide (c.Provided level) ||
    match c.permissionToAuthority level with
    | some auth => c.meetsAt (rank level) auth
    | none => false

/-- How `meetsAt budget` decides the authorities one level down. -/
def meetsBelow : Nat → Option (Authority → Bool)
  | 0 => none
  | budget + 1 => some (c.meetsAt budget)

variable {c rank}

theorem meetsAt_eq_meets (budget : Nat) : c.meetsAt budget = c.meets (c.meetsBelow budget) := by
  cases budget <;> rfl

/-- A wait or a key weighs the same whatever is decided below. -/
theorem factorWeight_of_not_account {m : MetaPermission} (notAccount : ∀ p, m ≠ .permissionLevelWeight p)
    (below below' : Option (Authority → Bool)) : c.factorWeight below m = c.factorWeight below' m := by
  cases m with
  | permissionLevelWeight p => exact absurd rfl (notAccount p)
  | _ => rfl

/-- A permission ranked below the budget weighs what the reading says of it, once the
reading of its authority no longer depends on the budget. -/
theorem factorWeight_account {budget : Nat} {p : PermissionLevelWeight} (below : rank p.permission < budget)
    (stable : ∀ auth, c.permissionToAuthority p.permission = some auth →
      c.meetsAt (budget - 1) auth = c.meetsAt (rank p.permission) auth) :
    c.factorWeight (c.meetsBelow budget) (.permissionLevelWeight p) =
      if c.holds rank p.permission then p.weight.toNat else 0 := by
  obtain ⟨budget, rfl⟩ : ∃ b, budget = b + 1 := ⟨budget - 1, by omega⟩
  simp only [factorWeight, meetsBelow, holds]
  by_cases provided : c.Provided p.permission
  · simp [provided]
  · rcases Option.eq_none_or_eq_some (c.permissionToAuthority p.permission) with found | ⟨auth, found⟩
    · simp [provided, found]
    · have same := stable auth found
      rw [Nat.add_sub_cancel] at same
      simp [provided, found, same]

/-- Past the ranks of its permissions, the reading of an authority does not depend on the
budget. -/
theorem Ranked.meetsAt_stable (ranked : c.Ranked rank) (n : Nat) :
    ∀ auth, (∀ p ∈ auth.accounts, rank p.permission < n) → ∀ m, n ≤ m → c.meetsAt m auth = c.meetsAt n auth := by
  induction n using Nat.strong_induction_on with
  | _ n ih =>
    intro auth ranks m le
    -- each factor weighs the same at both budgets
    have same : ∀ f ∈ auth.factors, c.factorWeight (c.meetsBelow m) f = c.factorWeight (c.meetsBelow n) f := by
      intro f mem
      cases f with
      | permissionLevelWeight p =>
        have lt := ranks p (Authority.mem_factors_of_account mem)
        have stable : ∀ b, rank p.permission < b → ∀ authp, c.permissionToAuthority p.permission = some authp →
            c.meetsAt (b - 1) authp = c.meetsAt (rank p.permission) authp := fun b lt' authp found =>
          ih (rank p.permission) lt authp (ranked.lower _ authp found) (b - 1) (by omega)
        rw [factorWeight_account (by omega) (stable m (by omega)), factorWeight_account lt (stable n lt)]
      | _ => exact factorWeight_of_not_account (fun _ same => by cases same) _ _
    rw [meetsAt_eq_meets, meetsAt_eq_meets, AuthorityChecker.meets, AuthorityChecker.meets, List.map_congr_left same]

variable (c rank) in
/-- The cache agrees with the reading; a permission being evaluated ranks at least `r`; an
entry for a whole actor is a provided permission; and every provided permission is cached as
satisfied. -/
structure CacheSound (r : Nat) (cache : PermissionCache) : Prop where
  satisfied : ∀ level, cache level = some .permissionSatisfied → c.holds rank level = true
  unsatisfied : ∀ level, cache level = some .permissionUnsatisfied → c.holds rank level = false
  evaluating : ∀ level, cache level = some .beingEvaluated → r ≤ rank level
  actorWide : ∀ actor, cache ⟨actor, ⟨0⟩⟩ = none ∨ ⟨actor, ⟨0⟩⟩ ∈ c.providedPermissions
  provided : ∀ level ∈ c.providedPermissions, cache level = some .permissionSatisfied

/-- Two caches mark the same permissions as being evaluated. -/
def SameEvaluating (cache' cache : PermissionCache) : Prop :=
  ∀ level, cache' level = some .beingEvaluated ↔ cache level = some .beingEvaluated

namespace CacheSound

variable {r : Nat} {cache : PermissionCache} {level : PermissionLevel}

/-! ### What a lookup in a sound cache says -/

theorem lookup_satisfied (sound : c.CacheSound rank r cache)
    (found : permissionStatusInCache cache level = some .permissionSatisfied) : c.holds rank level = true := by
  unfold permissionStatusInCache at found
  split at found
  · rename_i status own
    cases found
    exact sound.satisfied level own
  · rcases sound.actorWide level.actor with empty | mem
    · rw [empty] at found
      cases found
    · simp [holds, Provided, mem]

theorem lookup_unsatisfied (sound : c.CacheSound rank r cache)
    (found : permissionStatusInCache cache level = some .permissionUnsatisfied) : c.holds rank level = false := by
  unfold permissionStatusInCache at found
  split at found
  · rename_i status own
    cases found
    exact sound.unsatisfied level own
  · rcases sound.actorWide level.actor with empty | mem
    · rw [empty] at found
      cases found
    · rw [sound.provided _ mem] at found
      cases found

/-- A permission ranked below `r` is not being evaluated. -/
theorem lookup_ne_evaluating (sound : c.CacheSound rank r cache) (below : rank level < r) :
    permissionStatusInCache cache level ≠ some .beingEvaluated := by
  intro found
  unfold permissionStatusInCache at found
  split at found
  · rename_i status own
    cases found
    have := sound.evaluating level own
    omega
  · rcases sound.actorWide level.actor with empty | mem
    · rw [empty] at found
      cases found
    · rw [sound.provided _ mem] at found
      cases found

/-- A permission the cache knows nothing of is neither cached nor provided. -/
theorem lookup_none (sound : c.CacheSound rank r cache) (found : permissionStatusInCache cache level = none) :
    cache level = none ∧ ¬ c.Provided level := by
  unfold permissionStatusInCache at found
  split at found
  · cases found
  · rename_i own
    refine ⟨own, ?_⟩
    rintro (mem | mem)
    · rw [sound.provided _ mem] at own
      cases own
    · rw [sound.provided _ mem] at found
      cases found

/-! ### Entering and leaving the evaluation of a permission -/

/-- Marking a permission of rank below `r` as being evaluated keeps the cache sound for its
own authority, whose permissions rank below it. -/
theorem mark (sound : c.CacheSound rank r cache) (ranked : c.Ranked rank) {auth : Authority}
    (below : rank level < r) (absent : cache level = none) (found : c.permissionToAuthority level = some auth) :
    c.CacheSound rank (rank level) (Function.update cache level (some .beingEvaluated)) where
  satisfied level' marked := by
    rw [Function.update_apply] at marked
    split at marked
    · cases marked
    · exact sound.satisfied level' marked
  unsatisfied level' marked := by
    rw [Function.update_apply] at marked
    split at marked
    · cases marked
    · exact sound.unsatisfied level' marked
  evaluating level' marked := by
    rw [Function.update_apply] at marked
    split at marked
    · rename_i same
      rw [same]
    · have := sound.evaluating level' marked
      omega
  actorWide actor := by
    -- a permission with an authority is not a whole actor
    have other : (⟨actor, ⟨0⟩⟩ : PermissionLevel) ≠ level := fun same => by
      rw [← same, ranked.actorWide actor] at found
      cases found
    rw [Function.update_of_ne other]
    exact sound.actorWide actor
  provided level' mem := by
    have other : level' ≠ level := fun same => by
      rw [← same, sound.provided _ mem] at absent
      cases absent
    rw [Function.update_of_ne other]
    exact sound.provided level' mem

/-- Recording the outcome of a permission that is neither provided nor a whole actor, when it
agrees with the reading, leaves a cache that is sound for `r` again once the permission was
the only one below `r` being evaluated. -/
theorem settle {r' : Nat} (inner : c.CacheSound rank r' cache) (notProvided : level ∉ c.providedPermissions)
    (notActorWide : ∀ actor, level ≠ ⟨actor, ⟨0⟩⟩)
    (outer : ∀ level', cache level' = some .beingEvaluated → level' = level ∨ r ≤ rank level')
    {status : PermissionCacheStatus}
    (agrees : status = .permissionSatisfied ∧ c.holds rank level = true ∨
      status = .permissionUnsatisfied ∧ c.holds rank level = false) :
    c.CacheSound rank r (Function.update cache level (some status)) where
  satisfied level' marked := by
    rw [Function.update_apply] at marked
    split at marked
    · rename_i same
      cases marked
      rcases agrees with ⟨-, holds⟩ | ⟨absurd, -⟩
      · exact same ▸ holds
      · cases absurd
    · exact inner.satisfied level' marked
  unsatisfied level' marked := by
    rw [Function.update_apply] at marked
    split at marked
    · rename_i same
      cases marked
      rcases agrees with ⟨absurd, -⟩ | ⟨-, holds⟩
      · cases absurd
      · exact same ▸ holds
    · exact inner.unsatisfied level' marked
  evaluating level' marked := by
    rw [Function.update_apply] at marked
    split at marked
    · cases marked
      rcases agrees with ⟨absurd, -⟩ | ⟨absurd, -⟩ <;> cases absurd
    · rename_i other
      exact (outer level' marked).resolve_left other
  actorWide actor := by
    rw [Function.update_of_ne (Ne.symm (notActorWide actor))]
    exact inner.actorWide actor
  provided level' mem := by
    have other : level' ≠ level := fun same => notProvided (same ▸ mem)
    rw [Function.update_of_ne other]
    exact inner.provided level' mem

end CacheSound

/-! ### The loop and the visitor compute exactly -/

theorem toNat_add_weight {total : UInt32} {w : UInt16} (fits : total.toNat + w.toNat < 2 ^ 32) :
    (total + w.toUInt32).toNat = total.toNat + w.toNat := by
  rw [UInt32.toNat_add, UInt16.toNat_toUInt32, Nat.mod_eq_of_lt fits]

/-- A loop whose every visit adds its factor's weight exactly, and keeps an invariant of the
cache, answers whether the weight of a non-empty list reaches the threshold, whatever the
order and wherever it stops. -/
theorem tallyLoop_exact {visit : MetaPermission → UInt32 → CheckerState → UInt32 × CheckerState}
    {I : PermissionCache → Prop} {w : MetaPermission → Nat} (threshold : UInt32) :
    ∀ l : List MetaPermission, (∀ f ∈ l, ∀ total s, I s.cache → total.toNat + w f < 2 ^ 32 →
        (visit f total s).1.toNat = total.toNat + w f ∧ I (visit f total s).2.cache) →
      ∀ total s, I s.cache → total.toNat + (l.map w).sum < 2 ^ 32 →
        (tallyLoop visit threshold l total s).1 = decide (l ≠ [] ∧ threshold.toNat ≤ total.toNat + (l.map w).sum) ∧
          I (tallyLoop visit threshold l total s).2.cache
  | [], _, _, _, inv, _ => ⟨by simp [tallyLoop], inv⟩
  | f :: rest, step, total, s, inv, fits => by
    have sum : ((f :: rest).map w).sum = w f + (rest.map w).sum := by simp
    obtain ⟨added, inv'⟩ := step f List.mem_cons_self total s inv (by omega)
    simp only [tallyLoop]
    split
    · rename_i reached
      have := UInt32.le_iff_toNat_le.mp reached
      exact ⟨(decide_eq_true ⟨List.cons_ne_nil _ _, by omega⟩).symm, inv'⟩
    · rename_i short
      have := UInt32.lt_iff_toNat_lt.mp (UInt32.not_le.mp short)
      obtain ⟨answer, inv''⟩ := tallyLoop_exact threshold rest (fun g mem => step g (List.mem_cons_of_mem _ mem))
        (visit f total s).1 (visit f total s).2 inv' (by omega)
      refine ⟨?_, inv''⟩
      rw [answer]
      -- the loop goes on past a short total; an empty rest answers no
      by_cases empty : rest = []
      · subst empty
        simp
        omega
      · simp [empty]
        omega

/-- A wait is read from the provided delay, and the cache stays. -/
theorem tallyVisit_wait (evaluate : Option (Authority → CheckerState → Bool × CheckerState))
    (below : Option (Authority → Bool)) (p : WaitWeight) (total : UInt32) (s : CheckerState)
    (fits : total.toNat + c.factorWeight below (.waitWeight p) < 2 ^ 32) :
    (c.tallyVisit evaluate (.waitWeight p) total s).1.toNat = total.toNat + c.factorWeight below (.waitWeight p) ∧
      (c.tallyVisit evaluate (.waitWeight p) total s).2.cache = s.cache := by
  simp only [tallyVisit, factorWeight] at fits ⊢
  by_cases delay : (p.waitSec.toNat : Int) * 1000000 ≤ c.providedDelay
  · simp only [delay, ↓reduceIte] at fits ⊢
    exact ⟨toNat_add_weight fits, trivial⟩
  · simp [delay]

/-- A key is read from the provided keys, and only its mark changes. -/
theorem tallyVisit_key (evaluate : Option (Authority → CheckerState → Bool × CheckerState))
    (below : Option (Authority → Bool)) (p : KeyWeight) (total : UInt32) (s : CheckerState)
    (fits : total.toNat + c.factorWeight below (.keyWeight p) < 2 ^ 32) :
    (c.tallyVisit evaluate (.keyWeight p) total s).1.toNat = total.toNat + c.factorWeight below (.keyWeight p) ∧
      (c.tallyVisit evaluate (.keyWeight p) total s).2.cache = s.cache := by
  simp only [tallyVisit, factorWeight] at fits ⊢
  split
  · rename_i i found
    have mem : p.key ∈ c.providedKeys := List.isSome_idxOf?.mp (by rw [found]; rfl)
    rw [if_pos mem] at fits ⊢
    exact ⟨toNat_add_weight fits, rfl⟩
  · rename_i found
    have notMem : p.key ∉ c.providedKeys := List.idxOf?_eq_none_iff.mp found
    rw [if_neg notMem, Nat.add_zero]
    exact ⟨rfl, rfl⟩

/-- Leaving the evaluation of a permission: recording an outcome that agrees with the reading
restores a cache sound for `r` that marks what it marked before the evaluation. -/
theorem CacheSound.leave {r r' : Nat} {cache cache' : PermissionCache} {level : PermissionLevel}
    (sound : c.CacheSound rank r cache) (inner : c.CacheSound rank r' cache')
    (same : SameEvaluating cache' (Function.update cache level (some .beingEvaluated)))
    (absent : cache level = none) (notProvided : ¬ c.Provided level) (notActorWide : ∀ actor, level ≠ ⟨actor, ⟨0⟩⟩)
    {status : PermissionCacheStatus}
    (agrees : status = .permissionSatisfied ∧ c.holds rank level = true ∨
      status = .permissionUnsatisfied ∧ c.holds rank level = false) :
    c.CacheSound rank r (Function.update cache' level (some status)) ∧
      SameEvaluating (Function.update cache' level (some status)) cache := by
  have notEvaluating : status ≠ .beingEvaluated := by
    rcases agrees with ⟨rfl, -⟩ | ⟨rfl, -⟩ <;> exact nofun
  refine ⟨inner.settle (fun mem => notProvided (.inl mem)) notActorWide ?_ agrees, ?_⟩
  · intro level' marked
    by_cases other : level' = level
    · exact .inl other
    · have := (same level').mp marked
      rw [Function.update_of_ne other] at this
      exact .inr (sound.evaluating level' this)
  · intro level'
    by_cases other : level' = level
    · subst other
      rw [Function.update_self, absent]
      exact ⟨fun marked => absurd (Option.some.inj marked) notEvaluating, nofun⟩
    · rw [Function.update_of_ne other, same level', Function.update_of_ne other]

variable (c rank) in
/-- `satisfiedAt budget` computes the reading of every authority whose permissions rank below
a bound `r` within the budget, from a cache sound for `r`, which it keeps sound. -/
def Refines (budget : Nat) : Prop :=
  ∀ (auth : Authority) (r : Nat) (s : CheckerState), r ≤ budget → (∀ p ∈ auth.accounts, rank p.permission < r) →
    auth.totalWeight < 2 ^ 32 → c.CacheSound rank r s.cache →
    (c.satisfiedAt budget auth s).1 = c.meetsAt budget auth ∧
      c.CacheSound rank r (c.satisfiedAt budget auth s).2.cache ∧
      SameEvaluating (c.satisfiedAt budget auth s).2.cache s.cache

/-- The visitor adds what the reading says of a permission ranked below `r`. -/
theorem tallyVisit_account (ranked : c.Ranked rank) {budget r : Nat} (le : r ≤ budget)
    (ih : ∀ b, budget = b + 1 → c.Refines rank b) {p : PermissionLevelWeight} (below : rank p.permission < r)
    {total : UInt32} {s : CheckerState} (sound : c.CacheSound rank r s.cache)
    (fits : total.toNat + c.factorWeight (c.meetsBelow budget) (.permissionLevelWeight p) < 2 ^ 32) :
    (c.tallyVisit (c.nestedEvaluation budget) (.permissionLevelWeight p) total s).1.toNat =
        total.toNat + c.factorWeight (c.meetsBelow budget) (.permissionLevelWeight p) ∧
      c.CacheSound rank r (c.tallyVisit (c.nestedEvaluation budget) (.permissionLevelWeight p) total s).2.cache ∧
      SameEvaluating (c.tallyVisit (c.nestedEvaluation budget) (.permissionLevelWeight p) total s).2.cache s.cache := by
  obtain ⟨b, rfl⟩ : ∃ b, budget = b + 1 := ⟨budget - 1, by omega⟩
  have stable : ∀ auth, c.permissionToAuthority p.permission = some auth →
      c.meetsAt b auth = c.meetsAt (rank p.permission) auth := fun auth found =>
    ranked.meetsAt_stable _ auth (ranked.lower _ auth found) b (by omega)
  rw [factorWeight_account (by omega) stable] at fits ⊢
  simp only [tallyVisit, nestedEvaluation]
  split
  · -- unknown to the cache: the permission is evaluated one level down
    rename_i unknown
    obtain ⟨absent, notProvided⟩ := sound.lookup_none unknown
    split
    · rename_i found
      have fails : c.holds rank p.permission = false := by simp [holds, notProvided, found]
      simp only [fails]
      exact ⟨by simp, sound, fun _ => Iff.rfl⟩
    · rename_i auth found
      have notActorWide : ∀ actor, p.permission ≠ ⟨actor, ⟨0⟩⟩ := fun actor same => by
        rw [same, ranked.actorWide actor] at found
        cases found
      have answer : c.holds rank p.permission = c.meetsAt b auth := by
        simp [holds, notProvided, found, stable auth found]
      obtain ⟨evaluated, inner, same⟩ := ih b rfl auth (rank p.permission)
        { s with cache := Function.update s.cache p.permission (some .beingEvaluated) } (by omega)
        (ranked.lower _ auth found) (ranked.fits _ auth found) (sound.mark ranked below absent found)
      split
      · rename_i met
        have holds : c.holds rank p.permission = true := by rw [answer, ← evaluated, met]
        rw [if_pos holds] at fits ⊢
        exact ⟨toNat_add_weight fits, sound.leave inner same absent notProvided notActorWide (.inl ⟨rfl, holds⟩)⟩
      · rename_i failed
        have holds : c.holds rank p.permission = false := by
          rw [answer, ← evaluated]
          exact Bool.eq_false_iff.mpr failed
        rw [if_neg (by rw [holds]; exact Bool.false_ne_true)]
        exact ⟨by simp, sound.leave inner same absent notProvided notActorWide (.inr ⟨rfl, holds⟩)⟩
  · rename_i satisfied
    rw [if_pos (sound.lookup_satisfied satisfied)] at fits ⊢
    exact ⟨toNat_add_weight fits, sound, fun _ => Iff.rfl⟩
  · rename_i status notSatisfied cached
    cases status with
    | permissionSatisfied => exact absurd rfl notSatisfied
    | beingEvaluated => exact absurd cached (sound.lookup_ne_evaluating below)
    | permissionUnsatisfied =>
      rw [if_neg (by rw [sound.lookup_unsatisfied cached]; exact Bool.false_ne_true)]
      exact ⟨by simp, sound, fun _ => Iff.rfl⟩

/-- No factor weighs more than its weight. -/
theorem factorWeight_le_weight (below : Option (Authority → Bool)) (m : MetaPermission) :
    c.factorWeight below m ≤ m.weight.toNat := by
  cases m with
  | waitWeight p =>
    simp only [factorWeight, MetaPermission.weight]
    split <;> omega
  | keyWeight p =>
    simp only [factorWeight, MetaPermission.weight]
    split <;> omega
  | permissionLevelWeight p =>
    simp only [factorWeight, MetaPermission.weight]
    split
    · exact le_rfl
    · split
      · split <;> omega
      · exact Nat.zero_le _

/-- `satisfied(authority, cached_permissions, depth)` answers what its loop answers and leaves
the cache its loop leaves; the `KeyReverter` only restores key marks. -/
theorem satisfiedWith_eq (evaluate : Option (Authority → CheckerState → Bool × CheckerState))
    (auth : Authority) (s : CheckerState) :
    (c.satisfiedWith evaluate auth s).1 = (tallyLoop (c.tallyVisit evaluate) auth.threshold (metaPermissionSet auth) 0 s).1 ∧
      (c.satisfiedWith evaluate auth s).2.cache =
        (tallyLoop (c.tallyVisit evaluate) auth.threshold (metaPermissionSet auth) 0 s).2.cache := by
  unfold satisfiedWith
  dsimp only
  split <;> simp_all

/-- One level of the refinement: the loop over the `meta_permission_set` at `budget`, given the
refinement one level down. -/
theorem Ranked.refines_of (ranked : c.Ranked rank) {budget : Nat} (ih : ∀ b, budget = b + 1 → c.Refines rank b) :
    c.Refines rank budget := by
  intro auth r s le ranks fits sound
  have perm := metaPermissionSet_perm auth
  have unfolded : c.satisfiedAt budget = c.satisfiedWith (c.nestedEvaluation budget) := by cases budget <;> rfl
  -- every visit is exact and keeps the cache sound with the same permissions being evaluated
  have step : ∀ f ∈ metaPermissionSet auth, ∀ (total : UInt32) (s' : CheckerState),
      c.CacheSound rank r s'.cache ∧ SameEvaluating s'.cache s.cache →
      total.toNat + c.factorWeight (c.meetsBelow budget) f < 2 ^ 32 →
      (c.tallyVisit (c.nestedEvaluation budget) f total s').1.toNat =
          total.toNat + c.factorWeight (c.meetsBelow budget) f ∧
        (c.CacheSound rank r (c.tallyVisit (c.nestedEvaluation budget) f total s').2.cache ∧
          SameEvaluating (c.tallyVisit (c.nestedEvaluation budget) f total s').2.cache s.cache) := by
    rintro f mem total s' ⟨sound', same'⟩ fits'
    cases f with
    | waitWeight p =>
      obtain ⟨added, kept⟩ := c.tallyVisit_wait _ _ p total s' fits'
      exact ⟨added, kept ▸ ⟨sound', same'⟩⟩
    | keyWeight p =>
      obtain ⟨added, kept⟩ := c.tallyVisit_key _ _ p total s' fits'
      exact ⟨added, kept ▸ ⟨sound', same'⟩⟩
    | permissionLevelWeight p =>
      have below := ranks p (Authority.mem_factors_of_account (perm.mem_iff.mp mem))
      obtain ⟨added, sound'', same''⟩ := tallyVisit_account ranked le ih below sound' fits'
      exact ⟨added, sound'', fun level => (same'' level).trans (same' level)⟩
  -- the weights of the set are those of the factors, which fit the running total
  have sum : ((metaPermissionSet auth).map (c.factorWeight (c.meetsBelow budget))).sum =
      (auth.factors.map (c.factorWeight (c.meetsBelow budget))).sum := (perm.map _).sum_nat
  have bounded : (auth.factors.map (c.factorWeight (c.meetsBelow budget))).sum ≤ auth.totalWeight :=
    List.sum_le_sum fun m _ => c.factorWeight_le_weight _ m
  obtain ⟨answer, sound', same'⟩ := tallyLoop_exact
    (I := fun cache => c.CacheSound rank r cache ∧ SameEvaluating cache s.cache)
    (w := c.factorWeight (c.meetsBelow budget)) auth.threshold (metaPermissionSet auth) step 0 s
    ⟨sound, fun _ => Iff.rfl⟩ (by rw [sum]; simp only [UInt32.toNat_zero]; omega)
  obtain ⟨first, cache⟩ := c.satisfiedWith_eq (c.nestedEvaluation budget) auth s
  rw [unfolded, meetsAt_eq_meets]
  refine ⟨?_, cache ▸ sound', cache ▸ same'⟩
  rw [first, answer, sum, UInt32.toNat_zero, Nat.zero_add, AuthorityChecker.meets]
  -- the set is empty exactly when the authority has no factor
  have empty : metaPermissionSet auth ≠ [] ↔ auth.factors ≠ [] :=
    not_congr ⟨fun none => List.Perm.eq_nil (none ▸ perm.symm), fun none => (none ▸ perm).eq_nil⟩
  simp only [empty]

/-- `satisfiedAt` computes the reading at every budget. -/
theorem Ranked.refines (ranked : c.Ranked rank) : ∀ budget, c.Refines rank budget := by
  intro budget
  induction budget with
  | zero => exact ranked.refines_of fun b zero => absurd zero (by omega)
  | succ b ih => exact ranked.refines_of fun b' same => by rw [Nat.succ.inj same] at ih; exact ih

/-- The cache built from the provided permissions is sound for any bound. -/
theorem cacheSound_initial (r : Nat) :
    c.CacheSound rank r c.initializePermissionCache where
  satisfied level marked := by
    unfold initializePermissionCache at marked
    split at marked
    · simp [holds, Provided, *]
    · cases marked
  unsatisfied level marked := by
    unfold initializePermissionCache at marked
    split at marked <;> cases marked
  evaluating level marked := by
    unfold initializePermissionCache at marked
    split at marked <;> cases marked
  actorWide actor := by
    unfold initializePermissionCache
    split
    · exact .inr ‹_›
    · exact .inl rfl
  provided level mem := by
    unfold initializePermissionCache
    rw [if_pos mem]

end AuthorityChecker

end Fio.Chain
