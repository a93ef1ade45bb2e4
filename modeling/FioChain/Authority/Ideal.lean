import FioChain.Authority.Checker

/-! What `authority_checker::satisfied` is for: an authority is met when the factors that are
met weigh at least its threshold, a wait when the provided delay covers it, a key when it is
provided, and a permission when it is provided, on its own or through its whole actor, or when
its own authority is met one level down. Read with a number of levels below, this reading is
monotone in the provided keys, permissions and delay. -/

namespace Fio.Chain

open Detail

namespace Authority

/-- The factors of an authority, each with its weight. -/
def factors (authority : Authority) : List MetaPermission :=
  authority.waits.map .waitWeight ++ authority.keys.map .keyWeight ++
    authority.accounts.map .permissionLevelWeight

/-- The weight of all factors, in exact arithmetic. -/
def totalWeight (authority : Authority) : Nat :=
  (authority.factors.map fun f => f.weight.toNat).sum

theorem mem_factors_of_account {authority : Authority} {p : PermissionLevelWeight}
    (mem : MetaPermission.permissionLevelWeight p ∈ authority.factors) : p ∈ authority.accounts := by
  simp [factors] at mem
  exact mem

end Authority

/-- Inserting each element in order permutes the list. -/
theorem foldl_orderedInsert_perm {α : Type} (r : α → α → Prop) [DecidableRel r] :
    ∀ (l acc : List α), (l.foldl (fun permissions p => permissions.orderedInsert r p) acc).Perm (acc ++ l)
  | [], acc => by simp
  | p :: rest, acc => by
    have inserted : (acc.orderedInsert r p ++ rest).Perm (p :: acc ++ rest) :=
      (List.perm_orderedInsert r p acc).append_right rest
    exact ((foldl_orderedInsert_perm r rest _).trans inserted).trans List.perm_middle.symm

/-- The `meta_permission_set` holds the factors of the authority, in its own order. -/
theorem metaPermissionSet_perm (authority : Authority) : (metaPermissionSet authority).Perm authority.factors := by
  unfold metaPermissionSet
  exact (foldl_orderedInsert_perm _ _ []).trans (by rw [List.nil_append]; rfl)

namespace AuthorityChecker

variable (c : AuthorityChecker)

/-- A permission the provided permissions satisfy: itself, or its whole actor. -/
def Provided (level : PermissionLevel) : Prop :=
  level ∈ c.providedPermissions ∨ ⟨level.actor, ⟨0⟩⟩ ∈ c.providedPermissions

instance (level : PermissionLevel) : Decidable (c.Provided level) :=
  inferInstanceAs (Decidable (_ ∨ _))

/-- The weight a factor brings when `below` decides the authorities one level down, and
nothing is decided there when `below` is `none`. -/
def factorWeight (below : Option (Authority → Bool)) : MetaPermission → Nat
  | .waitWeight p => if (p.waitSec.toNat : Int) * 1000000 ≤ c.providedDelay then p.weight.toNat else 0
  | .keyWeight p => if p.key ∈ c.providedKeys then p.weight.toNat else 0
  | .permissionLevelWeight p =>
    if c.Provided p.permission then p.weight.toNat
    else match below, c.permissionToAuthority p.permission with
      | some below, some auth => if below auth then p.weight.toNat else 0
      | _, _ => 0

/-- An authority is met when it has a factor and the weight of the factors that are met
reaches its threshold: the loop of `satisfied` answers only after a factor. -/
def meets (below : Option (Authority → Bool)) (authority : Authority) : Bool :=
  decide (authority.factors ≠ [] ∧ authority.threshold.toNat ≤ (authority.factors.map (c.factorWeight below)).sum)

/-- `meets` with `budget` levels of permissions below, as `satisfiedAt budget` visits them. -/
def meetsAt : Nat → Authority → Bool
  | 0 => c.meets none
  | budget + 1 => c.meets (some (meetsAt budget))

/-- A checker `c'` is given at least what `c` is: more keys, more permissions and a longer
delay, over the same permissions and recursion limit. -/
structure Covers (c c' : AuthorityChecker) : Prop where
  permissionToAuthority : c'.permissionToAuthority = c.permissionToAuthority
  recursionDepthLimit : c'.recursionDepthLimit = c.recursionDepthLimit
  providedKeys : c.providedKeys ⊆ c'.providedKeys
  providedPermissions : c.providedPermissions ⊆ c'.providedPermissions
  providedDelay : c.providedDelay ≤ c'.providedDelay

variable {c} {c' : AuthorityChecker}

theorem Covers.provided (covers : c.Covers c') {level : PermissionLevel} (provided : c.Provided level) :
    c'.Provided level :=
  provided.imp (fun mem => covers.providedPermissions mem) (fun mem => covers.providedPermissions mem)

/-- Every factor weighs at least as much for a checker given more, when what is decided below
is decided for it too. -/
theorem Covers.factorWeight_le (covers : c.Covers c') {below below' : Option (Authority → Bool)}
    (stronger : ∀ f ∈ below, ∃ f' ∈ below', ∀ auth, f auth = true → f' auth = true) (m : MetaPermission) :
    c.factorWeight below m ≤ c'.factorWeight below' m := by
  cases m with
  | waitWeight p =>
    simp only [factorWeight]
    split
    · rw [if_pos (le_trans ‹_› covers.providedDelay)]
    · exact Nat.zero_le _
  | keyWeight p =>
    simp only [factorWeight]
    split
    · rw [if_pos (covers.providedKeys ‹_›)]
    · exact Nat.zero_le _
  | permissionLevelWeight p =>
    simp only [factorWeight]
    by_cases provided : c.Provided p.permission
    · rw [if_pos provided, if_pos (covers.provided provided)]
    rw [if_neg provided]
    -- only a permission met one level down is left
    cases below with
    | none => cases c.permissionToAuthority p.permission <;> simp
    | some f =>
      obtain ⟨f', rfl, implies⟩ := stronger f rfl
      cases found : c.permissionToAuthority p.permission with
      | none => simp
      | some auth =>
        have found' : c'.permissionToAuthority p.permission = some auth := covers.permissionToAuthority ▸ found
        by_cases met : f auth = true
        · simp [met, implies auth met, found']
        · simp [met]

theorem Covers.meets (covers : c.Covers c') {below below' : Option (Authority → Bool)}
    (stronger : ∀ f ∈ below, ∃ f' ∈ below', ∀ auth, f auth = true → f' auth = true) {authority : Authority}
    (met : c.meets below authority = true) : c'.meets below' authority = true := by
  simp only [AuthorityChecker.meets, decide_eq_true_eq] at met ⊢
  exact ⟨met.1, le_trans met.2 (List.sum_le_sum fun m _ => covers.factorWeight_le stronger m)⟩

/-- The reading with levels below is monotone in what is provided. -/
theorem Covers.meetsAt (covers : c.Covers c') : ∀ budget authority,
    c.meetsAt budget authority = true → c'.meetsAt budget authority = true
  | 0, _ => covers.meets (fun _ absent => absurd absent (Option.not_mem_none _))
  | budget + 1, _ => covers.meets fun f chosen => by
      obtain rfl := Option.mem_some_iff.mp chosen
      exact ⟨_, rfl, covers.meetsAt budget⟩

end AuthorityChecker

end Fio.Chain
