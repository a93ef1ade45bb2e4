import FioChain.Authority.Monotone

/-! `satisfied(authority)` reads `permission_to_authority` only at the permissions below the
authority. A checker cut down to a set of permissions that holds the authority's own and
every permission of their authorities gives the same answer, so the ranking that makes the
checker exact is needed on that set only, not on every permission. -/

namespace Fio.Chain

open Detail

namespace AuthorityChecker

variable (c : AuthorityChecker) (below : PermissionLevel → Prop) [DecidablePred below]

/-- The checker that knows the authorities of the permissions in `below` only. -/
def restrict : AuthorityChecker :=
  { c with permissionToAuthority := fun level => if below level then c.permissionToAuthority level else none }

/-- An authority whose permissions all lie in `below`. -/
def Within (authority : Authority) : Prop := ∀ p ∈ authority.accounts, below p.permission

instance (authority : Authority) : Decidable (Within below authority) :=
  inferInstanceAs (Decidable (∀ p ∈ authority.accounts, below p.permission))

/-- `below` holds every permission of the authorities of its permissions. -/
def Closed : Prop :=
  ∀ level, below level → ∀ auth, c.permissionToAuthority level = some auth → Within below auth

/-- `Ranked` on the permissions in `below` only. -/
structure RankedOn (rank : PermissionLevel → Nat) : Prop where
  lower : ∀ level, below level → ∀ auth, c.permissionToAuthority level = some auth →
    ∀ p ∈ auth.accounts, rank p.permission < rank level
  actorWide : ∀ actor, below ⟨actor, ⟨0⟩⟩ → c.permissionToAuthority ⟨actor, ⟨0⟩⟩ = none
  fits : ∀ level, below level → ∀ auth, c.permissionToAuthority level = some auth →
    auth.totalWeight < 2 ^ 32

variable {c below}

theorem permissionToAuthority_restrict {level : PermissionLevel} (inside : below level) :
    (c.restrict below).permissionToAuthority level = c.permissionToAuthority level := by
  simp [restrict, inside]

/-- A ranking of the permissions in `below` ranks every permission of the cut-down checker:
outside `below` it knows no authority. -/
theorem RankedOn.restrict {rank : PermissionLevel → Nat} (ranked : c.RankedOn below rank) :
    (c.restrict below).Ranked rank where
  lower level auth found := by
    by_cases inside : below level
    · rw [permissionToAuthority_restrict inside] at found
      exact ranked.lower level inside auth found
    · simp [AuthorityChecker.restrict, inside] at found
  actorWide actor := by
    by_cases inside : below ⟨actor, ⟨0⟩⟩
    · rw [permissionToAuthority_restrict inside]
      exact ranked.actorWide actor inside
    · simp [AuthorityChecker.restrict, inside]
  fits level auth found := by
    by_cases inside : below level
    · rw [permissionToAuthority_restrict inside] at found
      exact ranked.fits level inside auth found
    · simp [AuthorityChecker.restrict, inside] at found

/-- Cutting down two checkers to the same permissions keeps one given more than the other. -/
theorem Covers.restrict {c' : AuthorityChecker} (covers : c.Covers c') :
    (c.restrict below).Covers (c'.restrict below) where
  permissionToAuthority := by simp only [AuthorityChecker.restrict, covers.permissionToAuthority]
  recursionDepthLimit := covers.recursionDepthLimit
  providedKeys := covers.providedKeys
  providedPermissions := covers.providedPermissions
  providedDelay := covers.providedDelay

/-- Evaluations one level down that agree on the authorities within `below`. -/
def Agree (below : PermissionLevel → Prop) (e e' : Option (Authority → CheckerState → Bool × CheckerState)) :
    Prop :=
  Option.Rel (fun f f' => ∀ auth, Within below auth → ∀ s, f' auth s = f auth s) e e'

/-- The visitor of the cut-down checker does what the checker's does on a factor within
`below`. -/
theorem tallyVisit_restrict (closed : c.Closed below) {e e' : Option (Authority → CheckerState → Bool × CheckerState)}
    (agree : Agree below e e') {m : MetaPermission}
    (inside : ∀ p, m = .permissionLevelWeight p → below p.permission) (total : UInt32) (s : CheckerState) :
    (c.restrict below).tallyVisit e' m total s = c.tallyVisit e m total s := by
  cases m with
  | waitWeight p => rfl
  | keyWeight p => rfl
  | permissionLevelWeight p =>
    have known := permissionToAuthority_restrict (c := c) (inside p rfl)
    simp only [tallyVisit]
    split
    · -- not cached: both evaluate the permission's authority, which lies within `below`
      cases agree with
      | none => rfl
      | some same =>
        dsimp only
        rw [known]
        cases found : c.permissionToAuthority p.permission with
        | none => rfl
        | some auth =>
          dsimp only
          rw [same auth (closed _ (inside p rfl) auth found)]
    · rfl
    · rfl

/-- The loop over factors whose visits agree. -/
theorem tallyLoop_congr {visit visit' : MetaPermission → UInt32 → CheckerState → UInt32 × CheckerState}
    {threshold : UInt32} : ∀ {l : List MetaPermission}, (∀ m ∈ l, ∀ total s, visit' m total s = visit m total s) →
      ∀ total s, tallyLoop visit' threshold l total s = tallyLoop visit threshold l total s
  | [], _, _, _ => rfl
  | m :: rest, same, total, s => by
    simp only [tallyLoop, same m List.mem_cons_self]
    split
    · rfl
    · exact tallyLoop_congr (fun m' mem => same m' (List.mem_cons_of_mem m mem)) _ _

theorem satisfiedWith_restrict (closed : c.Closed below)
    {e e' : Option (Authority → CheckerState → Bool × CheckerState)} (agree : Agree below e e')
    {authority : Authority} (within : Within below authority) (s : CheckerState) :
    (c.restrict below).satisfiedWith e' authority s = c.satisfiedWith e authority s := by
  -- the factors visited are the authority's, so each account among them lies within `below`
  have factors : ∀ m ∈ metaPermissionSet authority, ∀ total s,
      (c.restrict below).tallyVisit e' m total s = c.tallyVisit e m total s := by
    intro m mem total s
    refine tallyVisit_restrict closed agree (fun p account => within p ?_) total s
    exact Authority.mem_factors_of_account ((metaPermissionSet_perm authority).subset (account ▸ mem))
  simp only [satisfiedWith, tallyLoop_congr factors]

/-- The frame lemma of the recursion: on an authority within a closed `below`, the cut-down
checker computes what the checker does, at every depth. -/
theorem satisfiedAt_restrict (closed : c.Closed below) :
    ∀ budget {authority : Authority}, Within below authority → ∀ s,
      (c.restrict below).satisfiedAt budget authority s = c.satisfiedAt budget authority s
  | 0, _, within, s => satisfiedWith_restrict closed .none within s
  | budget + 1, _, within, s =>
    satisfiedWith_restrict closed (.some fun _ inner s => satisfiedAt_restrict closed budget inner s) within s

theorem satisfiedAuthority_restrict (closed : c.Closed below) {authority : Authority}
    (within : Within below authority) (usedKeys : List Bool) :
    (c.restrict below).satisfiedAuthority authority usedKeys = c.satisfiedAuthority authority usedKeys := by
  simp only [satisfiedAuthority]
  rw [show (c.restrict below).recursionDepthLimit = c.recursionDepthLimit from rfl,
    show (c.restrict below).initializePermissionCache = c.initializePermissionCache from rfl,
    satisfiedAt_restrict closed _ within]

/-- The ranking needs to hold only below the authority. On a closed set of permissions that
holds the authority's own, ranked there below the recursion limit, with no permission of an
empty name having an authority there and no authority there overflowing,
`satisfied(authority)` is the weighted-threshold reading of the cut-down checker, and a
checker given more keys, more permissions and a longer delay satisfies what it satisfies. -/
theorem satisfied_authority_monotone_when_ranked_below {c' : AuthorityChecker} (covers : c.Covers c')
    (closed : c.Closed below) {rank : PermissionLevel → Nat} (ranked : c.RankedOn below rank)
    {authority : Authority} (within : Within below authority)
    (top : ∀ p ∈ authority.accounts, rank p.permission < c.recursionDepthLimit)
    (fits : authority.totalWeight < 2 ^ 32) (usedKeys usedKeys' : List Bool) :
    (c.satisfiedAuthority authority usedKeys).1 = (c.restrict below).meetsAt c.recursionDepthLimit authority ∧
      ((c.satisfiedAuthority authority usedKeys).1 = true → (c'.satisfiedAuthority authority usedKeys').1 = true) := by
  have closed' : c'.Closed below := fun level inside auth found =>
    closed level inside auth (covers.permissionToAuthority ▸ found)
  have restricted : (c.restrict below).Covers (c'.restrict below) := covers.restrict
  have exact := ranked.restrict.satisfiedAuthority_eq top fits usedKeys
  have top' : ∀ p ∈ authority.accounts, rank p.permission < (c'.restrict below).recursionDepthLimit := by
    rw [restricted.recursionDepthLimit]
    exact top
  have exact' := (restricted.ranked ranked.restrict).satisfiedAuthority_eq top' fits usedKeys'
  rw [satisfiedAuthority_restrict closed within] at exact
  rw [satisfiedAuthority_restrict closed' within] at exact'
  refine ⟨exact, fun satisfied => ?_⟩
  rw [exact', restricted.recursionDepthLimit]
  exact restricted.meetsAt _ _ (exact ▸ satisfied)

/-- `sharedBelowLimit` with a sixth permission `⟨6, 1⟩` that needs itself. -/
def withCycle (level : PermissionLevel) : Option Authority :=
  if level = ⟨⟨6⟩, ⟨1⟩⟩ then some ⟨1, [], [⟨⟨⟨6⟩, ⟨1⟩⟩, 1⟩], []⟩ else sharedBelowLimit level

/-- The permissions below `bothBranches`. -/
def belowBoth (level : PermissionLevel) : Prop :=
  level ∈ [⟨⟨1⟩, ⟨1⟩⟩, ⟨⟨2⟩, ⟨1⟩⟩, ⟨⟨3⟩, ⟨1⟩⟩, ⟨⟨4⟩, ⟨1⟩⟩, ⟨⟨5⟩, ⟨1⟩⟩]

instance : DecidablePred belowBoth := fun level => inferInstanceAs (Decidable (level ∈ _))

/-- No ranking of every permission of `withCycle` exists, as `⟨6, 1⟩` needs itself; the
permissions below `bothBranches` are ranked, and with recursion limit 4 the key `⟨1⟩` added to
`⟨2⟩` keeps `bothBranches` satisfied. -/
theorem satisfied_monotone_below_cycle :
    (¬ ∃ rank, (AuthorityChecker.mk withCycle 4 [⟨2⟩] [] 0).Ranked rank) ∧
      (((AuthorityChecker.mk withCycle 4 [⟨2⟩] [] 0).satisfiedAuthority bothBranches [false]).1 =
          ((AuthorityChecker.mk withCycle 4 [⟨2⟩] [] 0).restrict belowBoth).meetsAt 4 bothBranches ∧
        (((AuthorityChecker.mk withCycle 4 [⟨2⟩] [] 0).satisfiedAuthority bothBranches [false]).1 = true →
          ((AuthorityChecker.mk withCycle 4 [⟨2⟩, ⟨1⟩] [] 0).satisfiedAuthority bothBranches
            [false, false]).1 = true)) := by
  have cyclic : ¬ ∃ rank, (AuthorityChecker.mk withCycle 4 [⟨2⟩] [] 0).Ranked rank := by
    rintro ⟨rank, ranked⟩
    exact lt_irrefl _ (ranked.lower ⟨⟨6⟩, ⟨1⟩⟩ _ rfl _ List.mem_cons_self)
  have covers : (AuthorityChecker.mk withCycle 4 [⟨2⟩] [] 0).Covers
      (AuthorityChecker.mk withCycle 4 [⟨2⟩, ⟨1⟩] [] 0) :=
    ⟨rfl, rfl, List.cons_subset_cons _ (List.nil_subset _), List.Subset.refl _, le_rfl⟩
  -- below `bothBranches`, `withCycle` is `sharedBelowLimit`
  have shared : ∀ level, belowBoth level → withCycle level = sharedBelowLimit level := by
    intro level inside
    simp only [belowBoth, List.mem_cons, List.not_mem_nil, or_false] at inside
    rcases inside with rfl | rfl | rfl | rfl | rfl <;> rfl
  have closed : (AuthorityChecker.mk withCycle 4 [⟨2⟩] [] 0).Closed belowBoth := by
    intro level inside auth found
    change withCycle level = some auth at found
    rw [shared level inside] at found
    simp only [sharedBelowLimit] at found
    split_ifs at found <;> cases found <;> decide
  have found_shared : ∀ level, belowBoth level → ∀ auth, withCycle level = some auth →
      sharedBelowLimit level = some auth := fun level inside auth found => shared level inside ▸ found
  have ranked : (AuthorityChecker.mk withCycle 4 [⟨2⟩] [] 0).RankedOn belowBoth sharedRank :=
    { lower := fun level inside auth found =>
        (sharedBelowLimit_ranked 4 [⟨2⟩]).lower level auth (found_shared level inside auth found)
      actorWide := fun actor inside => by
        change withCycle _ = none
        rw [shared _ inside]
        exact (sharedBelowLimit_ranked 4 [⟨2⟩]).actorWide actor
      fits := fun level inside auth found =>
        (sharedBelowLimit_ranked 4 [⟨2⟩]).fits level auth (found_shared level inside auth found) }
  have within : Within belowBoth bothBranches := by decide
  have top : ∀ p ∈ bothBranches.accounts, sharedRank p.permission < 4 := by decide
  have fits : bothBranches.totalWeight < 2 ^ 32 := by decide
  exact ⟨cyclic, satisfied_authority_monotone_when_ranked_below covers closed ranked within top fits
    [false] [false, false]⟩

end AuthorityChecker

end Fio.Chain
