import FioChain.Authority.Refinement

/-! `satisfied(authority)` against what the checker is given. It is not monotone in what is
provided: a provided key that satisfies a permission early skips the rest of that permission's
authority, and a shared permission first met later, deeper down, is cut off by the recursion
limit and cached as unsatisfied for the rest of the call. When the permissions below the
authority are ranked below the limit, it is the weighted-threshold reading, which is monotone. -/

namespace Fio.Chain

namespace AuthorityChecker

variable (c : AuthorityChecker)

/-- `satisfied(authority)`: a fresh cache from the provided permissions, and the authority
checked at depth zero. Returns the answer and the key marks. -/
def satisfiedAuthority (authority : Authority) (usedKeys : List Bool) : Bool × List Bool :=
  let checked := c.satisfiedAt c.recursionDepthLimit authority ⟨usedKeys, c.initializePermissionCache⟩
  (checked.1, checked.2.usedKeys)

/-- Five permissions `⟨a, 1⟩`: `⟨1, 1⟩` needs the key `⟨1⟩` or `⟨4, 1⟩`, `⟨2, 1⟩` needs `⟨3, 1⟩`,
which needs `⟨4, 1⟩`, which needs `⟨5, 1⟩`, which needs the key `⟨2⟩`. -/
def sharedBelowLimit (level : PermissionLevel) : Option Authority :=
  if level = ⟨⟨1⟩, ⟨1⟩⟩ then some ⟨1, [⟨⟨1⟩, 1⟩], [⟨⟨⟨4⟩, ⟨1⟩⟩, 1⟩], []⟩
  else if level = ⟨⟨2⟩, ⟨1⟩⟩ then some ⟨1, [], [⟨⟨⟨3⟩, ⟨1⟩⟩, 1⟩], []⟩
  else if level = ⟨⟨3⟩, ⟨1⟩⟩ then some ⟨1, [], [⟨⟨⟨4⟩, ⟨1⟩⟩, 1⟩], []⟩
  else if level = ⟨⟨4⟩, ⟨1⟩⟩ then some ⟨1, [], [⟨⟨⟨5⟩, ⟨1⟩⟩, 1⟩], []⟩
  else if level = ⟨⟨5⟩, ⟨1⟩⟩ then some ⟨1, [⟨⟨2⟩, 1⟩], [], []⟩
  else none

/-- Threshold 3 over `⟨1, 1⟩` with weight 2, visited first, and `⟨2, 1⟩` with weight 1. -/
def bothBranches : Authority := ⟨3, [], [⟨⟨⟨1⟩, ⟨1⟩⟩, 2⟩, ⟨⟨⟨2⟩, ⟨1⟩⟩, 1⟩], []⟩

/-- With recursion limit 3 and the key `⟨2⟩`, `⟨4, 1⟩` is first met inside `⟨1, 1⟩` at depth 1,
satisfied and cached, and `⟨2, 1⟩` takes it from the cache. With the key `⟨1⟩` as well,
`⟨1, 1⟩` is satisfied by that key and `⟨4, 1⟩` is first met inside `⟨3, 1⟩` at depth 2, where
`⟨5, 1⟩` lies beyond the limit: `bothBranches` is no longer satisfied. -/
theorem satisfied_not_monotone :
    [(⟨2⟩ : PublicKey)] ⊆ [⟨2⟩, ⟨1⟩] ∧
      ((AuthorityChecker.mk sharedBelowLimit 3 [⟨2⟩] [] 0).satisfiedAuthority bothBranches [false]).1 = true ∧
      ((AuthorityChecker.mk sharedBelowLimit 3 [⟨2⟩, ⟨1⟩] [] 0).satisfiedAuthority bothBranches
        [false, false]).1 = false := by
  decide

variable {c} {c' : AuthorityChecker} {rank : PermissionLevel → Nat}

/-- Being ranked is a property of the permissions alone. -/
theorem Covers.ranked (covers : c.Covers c') (ranked : c.Ranked rank) : c'.Ranked rank where
  lower level auth found := ranked.lower level auth (covers.permissionToAuthority ▸ found)
  actorWide actor := covers.permissionToAuthority ▸ ranked.actorWide actor
  fits level auth found := ranked.fits level auth (covers.permissionToAuthority ▸ found)

/-- On a ranked authority below the recursion limit, `satisfied(authority)` is the reading. -/
theorem Ranked.satisfiedAuthority_eq (ranked : c.Ranked rank) {authority : Authority}
    (top : ∀ p ∈ authority.accounts, rank p.permission < c.recursionDepthLimit)
    (fits : authority.totalWeight < 2 ^ 32) (usedKeys : List Bool) :
    (c.satisfiedAuthority authority usedKeys).1 = c.meetsAt c.recursionDepthLimit authority :=
  (ranked.refines c.recursionDepthLimit authority c.recursionDepthLimit ⟨usedKeys, c.initializePermissionCache⟩
    le_rfl top fits (cacheSound_initial _)).1

/-- When the permissions below the authority are ranked below the recursion limit, no
permission with an empty name has an authority and no authority's weights overflow,
`satisfied(authority)` is the weighted-threshold reading, and a checker given more keys, more
permissions and a longer delay satisfies what it satisfies. -/
theorem satisfied_authority_monotone_when_ranked (covers : c.Covers c') (ranked : c.Ranked rank)
    {authority : Authority} (top : ∀ p ∈ authority.accounts, rank p.permission < c.recursionDepthLimit)
    (fits : authority.totalWeight < 2 ^ 32) (usedKeys usedKeys' : List Bool) :
    (c.satisfiedAuthority authority usedKeys).1 = c.meetsAt c.recursionDepthLimit authority ∧
      ((c.satisfiedAuthority authority usedKeys).1 = true → (c'.satisfiedAuthority authority usedKeys').1 = true) := by
  have exact := ranked.satisfiedAuthority_eq top fits usedKeys
  have top' : ∀ p ∈ authority.accounts, rank p.permission < c'.recursionDepthLimit := by
    rw [covers.recursionDepthLimit]
    exact top
  have exact' := (covers.ranked ranked).satisfiedAuthority_eq top' fits usedKeys'
  refine ⟨exact, fun satisfied => ?_⟩
  rw [exact', covers.recursionDepthLimit]
  exact covers.meetsAt _ _ (exact ▸ satisfied)

/-- Ranks for `sharedBelowLimit`: each permission one above the highest it needs. -/
def sharedRank (level : PermissionLevel) : Nat :=
  if level = ⟨⟨5⟩, ⟨1⟩⟩ then 0
  else if level = ⟨⟨4⟩, ⟨1⟩⟩ then 1
  else if level = ⟨⟨3⟩, ⟨1⟩⟩ ∨ level = ⟨⟨1⟩, ⟨1⟩⟩ then 2
  else 3

theorem sharedBelowLimit_ranked (limit : Nat) (keys : List PublicKey) :
    (AuthorityChecker.mk sharedBelowLimit limit keys [] 0).Ranked sharedRank where
  lower level auth found := by
    simp only [sharedBelowLimit] at found
    split_ifs at found <;> cases found <;> subst_vars <;> decide
  actorWide actor := by
    simp [sharedBelowLimit]
  fits level auth found := by
    simp only [sharedBelowLimit] at found
    split_ifs at found <;> cases found <;> decide

/-- With recursion limit 4, the chain below `bothBranches` fits, and the key `⟨1⟩` added to
`⟨2⟩` keeps it satisfied. -/
theorem satisfied_monotone_at_limit_four :
    ((AuthorityChecker.mk sharedBelowLimit 4 [⟨2⟩] [] 0).satisfiedAuthority bothBranches [false]).1 =
        (AuthorityChecker.mk sharedBelowLimit 4 [⟨2⟩] [] 0).meetsAt 4 bothBranches ∧
      (((AuthorityChecker.mk sharedBelowLimit 4 [⟨2⟩] [] 0).satisfiedAuthority bothBranches [false]).1 = true →
        ((AuthorityChecker.mk sharedBelowLimit 4 [⟨2⟩, ⟨1⟩] [] 0).satisfiedAuthority bothBranches
          [false, false]).1 = true) := by
  have covers : (AuthorityChecker.mk sharedBelowLimit 4 [⟨2⟩] [] 0).Covers
      (AuthorityChecker.mk sharedBelowLimit 4 [⟨2⟩, ⟨1⟩] [] 0) :=
    ⟨rfl, rfl, List.cons_subset_cons _ (List.nil_subset _), List.Subset.refl _, le_rfl⟩
  have top : ∀ p ∈ bothBranches.accounts, sharedRank p.permission < 4 := by decide
  have fits : bothBranches.totalWeight < 2 ^ 32 := by decide
  exact satisfied_authority_monotone_when_ranked covers (sharedBelowLimit_ranked 4 [⟨2⟩]) top fits
    [false] [false, false]

end AuthorityChecker

end Fio.Chain
