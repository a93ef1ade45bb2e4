import FioChain.ForkDatabase.Run

/-! `fork_database::fetch_branch_from`: the two branches from two blocks down to the block
before their common ancestor. The first two loops step the higher block down to the number
of the lower; the third steps both down together until they share `header.previous`. When
the second block lies on the first's branch, the walk down from the first meets it and the
second branch comes back empty. -/

namespace Fio.Chain

namespace ForkDatabase

variable {db : ForkDatabase} {b p : BlockState}

/-- The block `get_block_header` finds for `header.previous` has the number one below. -/
theorem blockNum_of_getBlockHeader (found : db.getBlockHeader b.previous = some p) :
    p.blockNum + 1 = b.blockNum := by
  unfold getBlockHeader at found
  split at found
  · rename_i root
    cases found
    have := congrArg BlockId.num root
    have := db.root.id_num
    have := b.previous_num
    omega
  · exact BlockIndex.blockNum_of_find found

/-- The first two loops of `fetch_branch_from`: step `b` back along `header.previous`, the
root included, while its number is above `num`, collecting the blocks left behind. -/
def walkDown (db : ForkDatabase) (num : Nat) (b : BlockState) :
    Except Exception (List BlockState × BlockState) :=
  if num < b.blockNum then
    match _found : db.getBlockHeader b.previous with
    | none => .error (.forkDbBlockNotFound "block ${id} does not exist")
    | some prev => (walkDown db num prev).map fun r => (b :: r.1, r.2)
  else .ok ([], b)
termination_by b.blockNum
decreasing_by have := blockNum_of_getBlockHeader _found; omega

/-- The third loop of `fetch_branch_from`: step both blocks back through the index until
they share `header.previous`, then push that last pair. -/
def walkPair (db : ForkDatabase) (first second : BlockState) :
    Except Exception (List BlockState × List BlockState) :=
  if first.previous = second.previous then .ok ([first], [second])
  else
    match _found : db.getBlock first.previous with
    | none => .error (.forkDbBlockNotFound "block ${id} does not exist")
    | some f =>
      match db.getBlock second.previous with
      | none => .error (.forkDbBlockNotFound "block ${id} does not exist")
      | some s => (walkPair db f s).map fun r => (first :: r.1, second :: r.2)
termination_by first.blockNum
decreasing_by have := BlockIndex.blockNum_of_find _found; omega

/-- `fork_database::fetch_branch_from(first, second)`. -/
def fetchBranchFrom (db : ForkDatabase) (first second : BlockId) :
    Except Exception (List BlockState × List BlockState) := do
  let some firstBranch := db.getBlockHeader first
    | throw (.forkDbBlockNotFound "block ${id} does not exist")
  let some secondBranch := db.getBlockHeader second
    | throw (.forkDbBlockNotFound "block ${id} does not exist")
  let (firstPart, firstBranch) ← db.walkDown secondBranch.blockNum firstBranch
  let (secondPart, secondBranch) ← db.walkDown firstBranch.blockNum secondBranch
  if firstBranch.id = secondBranch.id then
    return (firstPart, secondPart)
  let (firstRest, secondRest) ← db.walkPair firstBranch secondBranch
  return (firstPart ++ firstRest, secondPart ++ secondRest)

theorem walkDown_of_le {num : Nat} (le : b.blockNum ≤ num) : db.walkDown num b = .ok ([], b) := by
  rw [walkDown, if_neg (by omega)]

theorem walkDown_of_lt {num : Nat} (lt : num < b.blockNum)
    (found : db.getBlockHeader b.previous = some p) :
    db.walkDown num b = (db.walkDown num p).map fun r => (b :: r.1, r.2) := by
  rw [walkDown, if_pos lt]
  split
  · simp_all
  · simp_all

theorem walkPair_of_ne {first second f s : BlockState} (apart : first.previous ≠ second.previous)
    (firstFound : db.getBlock first.previous = some f) (secondFound : db.getBlock second.previous = some s) :
    db.walkPair first second = (db.walkPair f s).map fun r => (first :: r.1, second :: r.2) := by
  rw [walkPair, if_neg apart]
  split
  · simp_all
  · split <;> simp_all

/-- When the walk from `first` down to `second`'s number arrives at `second` itself,
`second` lies on `first`'s branch and `fetch_branch_from` returns an empty second
branch. -/
theorem fetchBranchFrom_of_walkDown {first second : BlockState} {passed : List BlockState}
    (firstFound : db.getBlockHeader first.id = some first)
    (secondFound : db.getBlockHeader second.id = some second)
    (walk : db.walkDown second.blockNum first = .ok (passed, second)) :
    db.fetchBranchFrom first.id second.id = .ok (passed, []) := by
  simp [fetchBranchFrom, firstFound, secondFound, walk, walkDown_of_le, bind, Except.bind, pure, Except.pure]

/-! ### Branches and the lowest common ancestor -/

/-- `get_block_header` returns the root or an indexed block, under the id asked for. -/
theorem getBlockHeader_spec {i : BlockId} (found : db.getBlockHeader i = some b) :
    b.id = i ∧ (b = db.root ∨ b ∈ db.index.blocks) := by
  unfold getBlockHeader at found
  split at found
  · rename_i root
    cases found
    exact ⟨root, .inl rfl⟩
  · obtain ⟨mem, same⟩ := BlockIndex.find_eq_some_iff.mp found
    exact ⟨same, .inr mem⟩

/-- `l` is the branch from `x` down to `c`, without `c`: the blocks met stepping back along
`header.previous` through `get_block_header`, the root included. -/
inductive BranchTo (db : ForkDatabase) : List BlockState → BlockState → BlockState → Prop
  | here (c : BlockState) : BranchTo db [] c c
  | step {x p c : BlockState} {rest : List BlockState} :
      db.getBlockHeader x.previous = some p → BranchTo db rest p c → BranchTo db (x :: rest) x c

/-- `c` is `x` or one of the ancestors of `x`. -/
def AncestorOf (db : ForkDatabase) (c x : BlockState) : Prop :=
  ∃ l, db.BranchTo l x c

namespace BranchTo

variable {l l' : List BlockState} {x c d : BlockState}

/-- Each step of a branch goes one block down. -/
theorem blockNum_add_length (branch : db.BranchTo l x c) : c.blockNum + l.length = x.blockNum := by
  induction branch with
  | here => rfl
  | step found _ ih =>
    have := blockNum_of_getBlockHeader found
    rw [List.length_cons]
    omega

theorem append (upper : db.BranchTo l x c) (lower : db.BranchTo l' c d) : db.BranchTo (l ++ l') x d := by
  induction upper with
  | here => exact lower
  | step found _ ih => exact .step found (ih lower)

/-- Along a branch each block's `previous` is the next block's id and the numbers fall; the
last block's `previous` is the id of the bottom. -/
theorem isChain (branch : db.BranchTo l x c) :
    l.IsChain (fun u v => u.previous = v.id ∧ v.blockNum < u.blockNum) ∧
      ∀ h : l ≠ [], (l.getLast h).previous = c.id := by
  induction branch with
  | here => exact ⟨.nil, fun h => absurd rfl h⟩
  | @step x p c rest found below ih =>
    obtain ⟨chain, last⟩ := ih
    have parentId := (getBlockHeader_spec found).1
    have parentNum := blockNum_of_getBlockHeader found
    cases below with
    | here => exact ⟨.singleton x, fun _ => parentId.symm⟩
    | step found' below' =>
      refine ⟨.cons_cons ⟨parentId.symm, by omega⟩ chain, fun _ => ?_⟩
      rw [List.getLast_cons (List.cons_ne_nil _ _)]
      exact last (List.cons_ne_nil _ _)

/-- Two branches down from one block agree as far as the shorter goes: the lower bottom lies
on the branch below the higher one. -/
theorem below_of_le (upper : db.BranchTo l x c) (other : db.BranchTo l' x d)
    (le : d.blockNum ≤ c.blockNum) : db.AncestorOf d c := by
  induction upper generalizing l' with
  | here => exact ⟨l', other⟩
  | @step x p c rest found below ih =>
    cases other with
    | here =>
      have := below.blockNum_add_length
      have := blockNum_of_getBlockHeader found
      omega
    | step found' other' =>
      rw [found] at found'
      cases found'
      exact ih other' le

end BranchTo

namespace AncestorOf

variable {c x p : BlockState}

theorem refl (x : BlockState) : db.AncestorOf x x := ⟨[], .here x⟩

theorem blockNum_le (anc : db.AncestorOf c x) : c.blockNum ≤ x.blockNum := by
  obtain ⟨l, branch⟩ := anc
  have := branch.blockNum_add_length
  omega

/-- An ancestor other than the block itself is an ancestor of its parent. -/
theorem of_parent (anc : db.AncestorOf c x) (ne : c ≠ x) (found : db.getBlockHeader x.previous = some p) :
    db.AncestorOf c p := by
  obtain ⟨l, branch⟩ := anc
  cases branch with
  | here => exact absurd rfl ne
  | step found' below =>
    rw [found] at found'
    cases found'
    exact ⟨_, below⟩

/-- An ancestor at the block's own height is the block. -/
theorem eq_of_blockNum (anc : db.AncestorOf c x) (same : c.blockNum = x.blockNum) : c = x := by
  obtain ⟨l, branch⟩ := anc
  cases branch with
  | here => rfl
  | step found below =>
    have := below.blockNum_add_length
    have := blockNum_of_getBlockHeader found
    omega

end AncestorOf

variable {x y : BlockState}

/-- The root or an indexed block: what `get_block_header` can return. -/
def Known (db : ForkDatabase) (x : BlockState) : Prop :=
  x = db.root ∨ x ∈ db.index.blocks

/-- Under the tree invariant the parent of an indexed block is the root or indexed. -/
theorem Linked.parent (linked : db.Linked) (mem : x ∈ db.index.blocks) :
    ∃ p, db.getBlockHeader x.previous = some p ∧ db.Known p := by
  unfold getBlockHeader
  split
  · exact ⟨db.root, rfl, .inl rfl⟩
  · rename_i notRoot
    rcases linked x mem with root | ⟨p, pmem, parent⟩
    · exact absurd root.symm notRoot
    · exact ⟨p, BlockIndex.find_eq_some_iff.mpr ⟨pmem, parent⟩, .inr pmem⟩

theorem Linked.root_le (linked : db.Linked) (known : db.Known x) : db.root.blockNum ≤ x.blockNum := by
  rcases known with rfl | mem
  · exact le_rfl
  · exact (linked.root_lt mem).le

/-- Two known blocks with one id are one block. -/
theorem Linked.eq_of_id_eq (linked : db.Linked) (kx : db.Known x) (ky : db.Known y) (same : x.id = y.id) :
    x = y := by
  have numbers := congrArg BlockId.num same
  rw [x.id_num, y.id_num] at numbers
  rcases kx with rfl | xmem <;> rcases ky with rfl | ymem
  · rfl
  · have := linked.root_lt ymem; omega
  · have := linked.root_lt xmem; omega
  · exact BlockIndex.eq_of_id_eq xmem ymem same

/-- The walk down from a known block to a number not below the root passes a branch and stops
at a known block at the lower of the two heights. -/
theorem Linked.walkDown_branch (linked : db.Linked) {num : Nat} (rootLe : db.root.blockNum ≤ num) :
    ∀ x, db.Known x → ∃ l c, db.walkDown num x = .ok (l, c) ∧ db.BranchTo l x c ∧ db.Known c ∧
      c.blockNum = min num x.blockNum := by
  intro x
  induction x using WellFounded.induction (InvImage.wf BlockState.blockNum wellFounded_lt) with
  | h x ih =>
    intro known
    by_cases lt : num < x.blockNum
    · -- above `num` the block is not the root, so it is indexed and has a known parent
      have mem : x ∈ db.index.blocks := known.resolve_left fun root => by rw [root] at lt; omega
      obtain ⟨p, found, pKnown⟩ := linked.parent mem
      have parentNum := blockNum_of_getBlockHeader found
      obtain ⟨l, c, walk, branch, cKnown, cNum⟩ := ih p (by simp only [InvImage]; omega) pKnown
      refine ⟨x :: l, c, ?_, .step found branch, cKnown, by omega⟩
      rw [walkDown_of_lt lt found, walk]
      rfl
    · exact ⟨[], x, walkDown_of_le (by omega), .here x, known, by omega⟩

/-- Under the tree invariant an indexed block's `previous` is the root's id exactly when it
lies one block above the root. -/
theorem Linked.previous_eq_root_iff (linked : db.Linked) (mem : x ∈ db.index.blocks) :
    x.previous = db.root.id ↔ x.blockNum = db.root.blockNum + 1 := by
  have := x.previous_num
  have := db.root.id_num
  constructor
  · intro root
    have := congrArg BlockId.num root
    omega
  · intro above
    rcases linked x mem with root | ⟨p, pmem, parent⟩
    · exact root
    · have := linked.root_lt pmem
      have := p.id_num
      have := congrArg BlockId.num parent
      omega

/-- The lockstep walk from two distinct indexed blocks at one height returns their branches
down to a common ancestor below which every common ancestor lies. -/
theorem Linked.walkPair_branch (linked : db.Linked) :
    ∀ x y, x ∈ db.index.blocks → y ∈ db.index.blocks → x.blockNum = y.blockNum → x.id ≠ y.id →
      ∃ l l' c, db.walkPair x y = .ok (l, l') ∧ db.BranchTo l x c ∧ db.BranchTo l' y c ∧
        ∀ c', db.AncestorOf c' x → db.AncestorOf c' y → db.AncestorOf c' c := by
  intro x
  induction x using WellFounded.induction (InvImage.wf BlockState.blockNum wellFounded_lt) with
  | h x ih =>
    intro y xmem ymem height distinct
    obtain ⟨p, xFound, pKnown⟩ := linked.parent xmem
    obtain ⟨q, yFound, qKnown⟩ := linked.parent ymem
    -- a common ancestor is neither block: either one would be the other, at the same height
    have below : ∀ c', db.AncestorOf c' x → db.AncestorOf c' y → db.AncestorOf c' p ∧ db.AncestorOf c' q := by
      intro c' ax ay
      have notX : c' ≠ x := by
        rintro rfl
        exact distinct (congrArg BlockState.id (ay.eq_of_blockNum height))
      have notY : c' ≠ y := by
        rintro rfl
        exact distinct (congrArg BlockState.id (ax.eq_of_blockNum height.symm)).symm
      exact ⟨ax.of_parent notX xFound, ay.of_parent notY yFound⟩
    by_cases meet : x.previous = y.previous
    · rw [meet, yFound] at xFound
      cases xFound
      refine ⟨[x], [y], p, ?_, .step (meet ▸ yFound) (.here p), .step yFound (.here p),
        fun c' ax ay => (below c' ax ay).1⟩
      rw [walkPair, if_pos meet]
    · -- apart, neither parent is the root, so both are indexed
      have xNotRoot : x.previous ≠ db.root.id := fun root => meet (by
        rw [root, ((linked.previous_eq_root_iff ymem).mpr
          (height ▸ (linked.previous_eq_root_iff xmem).mp root))])
      have yNotRoot : y.previous ≠ db.root.id := fun root => meet (by
        rw [root, ((linked.previous_eq_root_iff xmem).mpr
          (height.symm ▸ (linked.previous_eq_root_iff ymem).mp root))])
      have xFind : db.getBlock x.previous = some p := by
        rw [getBlockHeader, if_neg (Ne.symm xNotRoot)] at xFound
        exact xFound
      have yFind : db.getBlock y.previous = some q := by
        rw [getBlockHeader, if_neg (Ne.symm yNotRoot)] at yFound
        exact yFound
      have pMem := (BlockIndex.find_eq_some_iff.mp xFind).1
      have qMem := (BlockIndex.find_eq_some_iff.mp yFind).1
      have pNum := blockNum_of_getBlockHeader xFound
      have qNum := blockNum_of_getBlockHeader yFound
      have apart : p.id ≠ q.id := by
        rw [(getBlockHeader_spec xFound).1, (getBlockHeader_spec yFound).1]
        exact meet
      obtain ⟨l, l', c, walk, branch, branch', common⟩ :=
        ih p (by simp only [InvImage]; omega) q pMem qMem (by omega) apart
      refine ⟨x :: l, y :: l', c, ?_, .step xFound branch, .step yFound branch',
        fun c' ax ay => common c' (below c' ax ay).1 (below c' ax ay).2⟩
      rw [walkPair_of_ne meet xFind yFind, walk]
      rfl

/-- Of two known blocks at one height under different ids, neither is the root. -/
theorem Linked.mem_of_ne (linked : db.Linked) (kx : db.Known x) (ky : db.Known y)
    (height : x.blockNum = y.blockNum) (apart : x.id ≠ y.id) : x ∈ db.index.blocks := by
  rcases kx with rfl | xmem
  · rcases ky with rfl | ymem
    · exact absurd rfl apart
    · have := linked.root_lt ymem
      omega
  · exact xmem

/-- `fetch_branch_from(a, b)` on a tree, from the root or indexed blocks `x` and `y` named by
`a` and `b`, returns normally the branches from `x` and from `y` down to their lowest common
ancestor `c`, without `c`: each goes one block down per step, each block's `previous` names
the next one, and the last one's `previous` names `c`; the branch from a block that is an
ancestor of the other is empty. -/
theorem fetch_branch_from_common_ancestor (linked : db.Linked) {a b : BlockId} {x y : BlockState}
    (first : db.getBlockHeader a = some x) (second : db.getBlockHeader b = some y) :
    ∃ A B c, db.fetchBranchFrom a b = .ok (A, B) ∧ db.BranchTo A x c ∧ db.BranchTo B y c ∧
      (∀ c', db.AncestorOf c' x → db.AncestorOf c' y → db.AncestorOf c' c) ∧
      A.IsChain (fun u v => u.previous = v.id ∧ v.blockNum < u.blockNum) ∧
      B.IsChain (fun u v => u.previous = v.id ∧ v.blockNum < u.blockNum) ∧
      (∀ h : A ≠ [], (A.getLast h).previous = c.id) ∧ (∀ h : B ≠ [], (B.getLast h).previous = c.id) ∧
      (db.AncestorOf x y → A = []) ∧ (db.AncestorOf y x → B = []) := by
  have xKnown := (getBlockHeader_spec first).2
  have yKnown := (getBlockHeader_spec second).2
  obtain ⟨A₁, x₁, walk₁, branch₁, known₁, num₁⟩ := linked.walkDown_branch (linked.root_le yKnown) x xKnown
  obtain ⟨B₁, y₁, walk₂, branch₂, known₂, num₂⟩ := linked.walkDown_branch (linked.root_le known₁) y yKnown
  -- a common ancestor of `x` and `y` lies at or below the height both walks stop at
  have lower : ∀ c', db.AncestorOf c' x → db.AncestorOf c' y → db.AncestorOf c' x₁ ∧ db.AncestorOf c' y₁ := by
    rintro c' ⟨l, ax⟩ ⟨l', ay⟩
    have := AncestorOf.blockNum_le ⟨l, ax⟩
    have := AncestorOf.blockNum_le ⟨l', ay⟩
    exact ⟨branch₁.below_of_le ax (by omega), branch₂.below_of_le ay (by omega)⟩
  have fetched : ∃ A B c, db.fetchBranchFrom a b = .ok (A, B) ∧ db.BranchTo A x c ∧ db.BranchTo B y c ∧
      ∀ c', db.AncestorOf c' x → db.AncestorOf c' y → db.AncestorOf c' c := by
    by_cases same : x₁.id = y₁.id
    · obtain rfl := linked.eq_of_id_eq known₁ known₂ same
      refine ⟨A₁, B₁, x₁, ?_, branch₁, branch₂, fun c' ax ay => (lower c' ax ay).1⟩
      simp [fetchBranchFrom, first, second, walk₁, walk₂, bind, Except.bind, pure, Except.pure]
    · -- the walks stop at two blocks of one height: the lockstep walk takes over
      have x₁mem := linked.mem_of_ne known₁ known₂ (by omega) same
      have y₁mem := linked.mem_of_ne known₂ known₁ (by omega) (Ne.symm same)
      obtain ⟨A₂, B₂, c, walk, branchA, branchB, common⟩ :=
        linked.walkPair_branch x₁ y₁ x₁mem y₁mem (by omega) same
      refine ⟨A₁ ++ A₂, B₁ ++ B₂, c, ?_, branch₁.append branchA, branch₂.append branchB,
        fun c' ax ay => common c' (lower c' ax ay).1 (lower c' ax ay).2⟩
      simp [fetchBranchFrom, first, second, walk₁, walk₂, same, walk, bind, Except.bind, pure, Except.pure]
  obtain ⟨A, B, c, fetched, branchA, branchB, common⟩ := fetched
  obtain ⟨chainA, lastA⟩ := branchA.isChain
  obtain ⟨chainB, lastB⟩ := branchB.isChain
  refine ⟨A, B, c, fetched, branchA, branchB, common, chainA, chainB, lastA, lastB, fun ancestor => ?_,
    fun ancestor => ?_⟩
  · -- `x` is then a common ancestor, so `c` lies at its height and the branch is empty
    have := (common x (.refl x) ancestor).blockNum_le
    have := branchA.blockNum_add_length
    exact List.eq_nil_of_length_eq_zero (by omega)
  · have := (common y ancestor (.refl y)).blockNum_le
    have := branchB.blockNum_add_length
    exact List.eq_nil_of_length_eq_zero (by omega)

/-- The head of `twoForks` against the competing block 2. -/
theorem fetch_branch_from_two_forks :
    ∃ A B c, fetchBranchFrom twoForks ⟨3, 13⟩ ⟨2, 12⟩ = .ok (A, B) ∧ BranchTo twoForks A twoForks.head c ∧
      BranchTo twoForks B ⟨⟨2, 12⟩, ⟨1, 10⟩, 2, 0, false, rfl, rfl⟩ c ∧
      (∀ c', AncestorOf twoForks c' twoForks.head →
        AncestorOf twoForks c' ⟨⟨2, 12⟩, ⟨1, 10⟩, 2, 0, false, rfl, rfl⟩ → AncestorOf twoForks c' c) ∧
      A.IsChain (fun u v => u.previous = v.id ∧ v.blockNum < u.blockNum) ∧
      B.IsChain (fun u v => u.previous = v.id ∧ v.blockNum < u.blockNum) ∧
      (∀ h : A ≠ [], (A.getLast h).previous = c.id) ∧ (∀ h : B ≠ [], (B.getLast h).previous = c.id) ∧
      (AncestorOf twoForks twoForks.head ⟨⟨2, 12⟩, ⟨1, 10⟩, 2, 0, false, rfl, rfl⟩ → A = []) ∧
      (AncestorOf twoForks ⟨⟨2, 12⟩, ⟨1, 10⟩, 2, 0, false, rfl, rfl⟩ twoForks.head → B = []) :=
  fetch_branch_from_common_ancestor (by unfold Linked; decide) (by decide) (by decide)

end ForkDatabase

end Fio.Chain
