import FioChain.ForkDatabase.Invariant

/-! `advance_root`. Under the invariant every indexed block lies above the root and its
ancestry ends at the root's id, so the walk of `advance_root` never meets an orphan. A
normal return keeps the invariant; and when the new root is a validated block at or
below the head, none of the removals reaches the head, so the call returns normally. -/

namespace Fio.Chain

open BlockIndex

namespace ForkDatabase

variable {db db' : ForkDatabase} {b : BlockState}

/-- Every indexed block lies above the root. -/
theorem Linked.root_lt (linked : db.Linked) (mem : b ∈ db.index.blocks) : db.root.blockNum < b.blockNum := by
  induction b using WellFounded.induction (InvImage.wf BlockState.blockNum wellFounded_lt) with
  | h b ih =>
    have := b.previous_num
    rcases linked b mem with root | ⟨p, pmem, parent⟩
    · have := congrArg BlockId.num root
      have := db.root.id_num
      omega
    · have parentNum := blockNum_of_find (find_eq_some_iff.mpr ⟨pmem, parent⟩)
      have := ih p (by simp only [InvImage]; omega) pmem
      omega

theorem Inv.root_lt (inv : db.Inv) (mem : b ∈ db.index.blocks) : db.root.blockNum < b.blockNum :=
  Linked.root_lt inv.linked mem

/-- Following `header.previous` from an indexed block ends at the root's id. -/
theorem Linked.ancestry_getLast (linked : db.Linked) (mem : b ∈ db.index.blocks) :
    (ancestry db.index b).getLast? = some db.root.id := by
  induction b using WellFounded.induction (InvImage.wf BlockState.blockNum wellFounded_lt) with
  | h b ih =>
    cases found : db.index.find b.previous with
    | none =>
      rw [ancestry_of_find_none found]
      rcases linked b mem with root | ⟨p, pmem, parent⟩
      · simp [root]
      · simp [find_eq_none_iff.mp found p pmem] at parent
    | some p =>
      have parentNum := blockNum_of_find found
      rw [ancestry_of_find_some found, List.getLast?_cons, ih p (by simp only [InvImage]; omega)
        (find_eq_some_iff.mp found).1]
      rfl

theorem Inv.ancestry_getLast (inv : db.Inv) (mem : b ∈ db.index.blocks) :
    (ancestry db.index b).getLast? = some db.root.id :=
  Linked.ancestry_getLast inv.linked mem

theorem blocksToRemove_ok {ids : List BlockId} (ok : db.blocksToRemove b = .ok ids) :
    ids = ancestry db.index b ∧ db.root.id ∈ ids := by
  induction b using WellFounded.induction (InvImage.wf BlockState.blockNum wellFounded_lt)
    generalizing ids with
  | h b ih =>
    unfold blocksToRemove at ok
    split at ok
    · rename_i found
      split at ok
      · rename_i root
        cases ok
        exact ⟨(ancestry_of_find_none found).symm, by simp [root]⟩
      · cases ok
    · rename_i p found
      cases rest : db.blocksToRemove p with
      | error => simp [rest, Except.map] at ok
      | ok rest' =>
        simp only [rest, Except.map, Except.ok.injEq] at ok
        have parentNum := blockNum_of_find found
        obtain ⟨same, root⟩ := ih p (by simp only [InvImage]; omega) rest
        subst ok same
        exact ⟨(ancestry_of_find_some found).symm, List.mem_cons_of_mem _ root⟩

/-- Under the tree invariant the walk of `advance_root` meets no orphan. -/
theorem Linked.blocksToRemove_eq (linked : db.Linked) (mem : b ∈ db.index.blocks) :
    db.blocksToRemove b = .ok (ancestry db.index b) := by
  induction b using WellFounded.induction (InvImage.wf BlockState.blockNum wellFounded_lt) with
  | h b ih =>
    unfold blocksToRemove
    split
    · rename_i found
      rcases linked b mem with root | ⟨p, pmem, parent⟩
      · simp [root, ancestry_of_find_none found]
      · simp [find_eq_none_iff.mp found p pmem] at parent
    · rename_i p found
      have parentNum := blockNum_of_find found
      rw [ih p (by simp only [InvImage]; omega) (find_eq_some_iff.mp found).1,
        ancestry_of_find_some found]
      rfl

/-- A normal return of the removals drops a set of ids holding every argument, closed
under "built on", without the head. -/
theorem removeEach_spec {ids : List BlockId} (ok : removeEach ids db = .ok () db') :
    ∃ removed : List BlockId, ids ⊆ removed ∧ db.head.id ∉ removed ∧
      (∀ b, b ∈ db'.index.blocks ↔ b ∈ db.index.blocks ∧ b.id ∉ removed) ∧
      (∀ b ∈ db'.index.blocks, b.previous ∉ removed) ∧
      db'.root = db.root ∧ db'.head = db.head := by
  induction ids generalizing db with
  | nil =>
    cases ok
    exact ⟨[], by simp, by simp, by simp, by simp, rfl, rfl⟩
  | cons id rest ih =>
    simp only [removeEach] at ok
    split at ok
    · rename_i db₁ first
      obtain ⟨now, nowHas, nowHead, _, nowMem, nowClosed, nowRoot, nowHead'⟩ := remove_spec first
      obtain ⟨later, laterHas, laterHead, laterMem, laterClosed, laterRoot, laterHead'⟩ := ih ok
      refine ⟨now ++ later, ?_, ?_, ?_, ?_, laterRoot.trans nowRoot, laterHead'.trans nowHead'⟩
      · intro x mem
        rcases List.mem_cons.mp mem with rfl | mem
        · exact List.mem_append_left _ nowHas
        · exact List.mem_append_right _ (laterHas mem)
      · rw [nowHead'] at laterHead
        simp [nowHead, laterHead]
      · intro b
        rw [laterMem, nowMem]
        simp [and_assoc]
      · intro b mem dropped
        rcases List.mem_append.mp dropped with d | d
        · exact nowClosed b ((laterMem b).mp mem).1 d
        · exact laterClosed b mem d
    · cases ok

/-- A block the removals drop was reached from one of their arguments, through an index
inside the one they started from. -/
theorem removeEach_reaches {ids : List BlockId} (ok : removeEach ids db = .ok () db') :
    ∀ b ∈ db.index.blocks, b ∉ db'.index.blocks →
      ∃ a ∈ ids, ∃ sub : BlockIndex, (∀ c ∈ sub.blocks, c ∈ db.index.blocks) ∧ Reaches sub a b.id := by
  induction ids generalizing db with
  | nil =>
    cases ok
    exact fun b mem gone => absurd mem gone
  | cons x rest ih =>
    simp only [removeEach] at ok
    split at ok
    · rename_i db₁ first
      obtain ⟨removed, _, _, reached, mem, _, _, _⟩ := remove_spec first
      intro b bmem gone
      by_cases kept : b ∈ db₁.index.blocks
      · obtain ⟨a, amem, sub, subset, reach⟩ := ih ok b kept gone
        exact ⟨a, List.mem_cons_of_mem _ amem, sub, fun c cmem => ((mem c).mp (subset c cmem)).1, reach⟩
      · have dropped : b.id ∈ removed := by
          by_contra notDropped
          exact kept ((mem b).mpr ⟨bmem, notDropped⟩)
        exact ⟨x, List.mem_cons_self, db.index, fun _ cmem => cmem, reached _ dropped⟩
    · cases ok

theorem advanceRoot_ok {id : BlockId} (ok : advanceRoot id db = .ok () db') :
    ∃ newRoot ids db₁, db.getBlock id = some newRoot ∧ db.blocksToRemove newRoot = .ok ids ∧
      removeEach ids { db with index := db.index.erase id } = .ok () db₁ ∧
      db' = { db₁ with root := newRoot } := by
  unfold advanceRoot at ok
  split at ok
  · cases ok
  · rename_i newRoot found
    split at ok
    · cases ok
    · split at ok
      · cases ok
      · rename_i ids walk
        split at ok
        · rename_i db₁ removed
          cases ok
          exact ⟨newRoot, ids, db₁, found, walk, removed, rfl⟩
        · cases ok

theorem advanceRoot_inv {id : BlockId} (inv : db.Inv) (ok : advanceRoot id db = .ok () db') :
    db'.Inv := by
  obtain ⟨newRoot, ids, db₁, found, walk, removed, rfl⟩ := advanceRoot_ok ok
  obtain ⟨dropped, idsDropped, headKept, mem, closed, _, head⟩ := removeEach_spec removed
  have rootDropped := idsDropped (blocksToRemove_ok walk).2
  obtain ⟨newRootMem, newRootId⟩ := find_eq_some_iff.mp found
  simp only [mem_erase] at mem
  refine ⟨?_, ?_, ?_⟩
  · intro b bmem
    obtain ⟨⟨old, _⟩, _⟩ := (mem b).mp bmem
    rcases inv.linked b old with root | ⟨p, pmem, parent⟩
    · exact absurd (root ▸ rootDropped) (closed b bmem)
    · by_cases isNew : p.id = id
      · exact .inl (by rw [← parent, isNew, newRootId])
      · exact .inr ⟨p, (mem p).mpr ⟨⟨pmem, isNew⟩, fun d => closed b bmem (parent ▸ d)⟩, parent⟩
  · simp only [head]
    rcases inv.headValid with root | ⟨hmem, valid⟩
    · exact absurd (root ▸ rootDropped) headKept
    · by_cases isNew : db.head.id = id
      · exact .inl (eq_of_id_eq hmem newRootMem (isNew.trans newRootId.symm))
      · exact .inr ⟨(mem _).mpr ⟨⟨hmem, isNew⟩, headKept⟩, valid⟩
  · intro b bmem valid
    simp only [head]
    exact inv.headPreferred b ((mem b).mp bmem).1.1 valid

end ForkDatabase

/-- Following `header.previous` through an index that lost the block `missing`, from a block
that had `missing` among its ancestors, stops at `missing`'s id: every id met lies at or
above it. -/
theorem num_le_of_mem_ancestry_sub {index sub : BlockIndex} {missing c : BlockState}
    (subset : ∀ b ∈ sub.blocks, b ∈ index.blocks) (absent : ∀ b ∈ sub.blocks, b.id ≠ missing.id)
    (below : missing.id ∈ ancestry index c) : ∀ y ∈ ancestry sub c, missing.blockNum ≤ y.num := by
  induction c using WellFounded.induction (InvImage.wf BlockState.blockNum wellFounded_lt) with
  | h c ih =>
    intro y ymem
    have := missing.id_num
    by_cases direct : c.previous = missing.id
    · have : sub.find c.previous = none := find_eq_none_iff.mpr fun b bmem same =>
        absent b bmem (same.trans direct)
      rw [ancestry_of_find_none this, List.mem_singleton] at ymem
      subst ymem
      rw [direct]
      omega
    · cases found : index.find c.previous with
      | none =>
        rw [ancestry_of_find_none found, List.mem_singleton] at below
        exact absurd below.symm direct
      | some p =>
        rw [ancestry_of_find_some found, List.mem_cons] at below
        have above := num_lt_of_mem_ancestry (below.resolve_left (Ne.symm direct))
        have parentNum := blockNum_of_find found
        have pid := (find_eq_some_iff.mp found).2
        have := p.id_num
        cases subFound : sub.find c.previous with
        | none =>
          rw [ancestry_of_find_none subFound, List.mem_singleton] at ymem
          subst ymem
          rw [← pid]
          omega
        | some p' =>
          obtain ⟨p'mem, p'id⟩ := find_eq_some_iff.mp subFound
          have same : p' = p := eq_of_id_eq (subset p' p'mem) (find_eq_some_iff.mp found).1
            (p'id.trans pid.symm)
          subst same
          rw [ancestry_of_find_some subFound, List.mem_cons] at ymem
          rcases ymem with rfl | ymem
          · rw [← pid]; omega
          · exact ih p' (by simp only [InvImage]; omega)
              (below.resolve_left (Ne.symm direct)) y ymem

namespace ForkDatabase

variable {db : ForkDatabase}

/-- The removals of `advance_root` return normally when every removed id lies below the
new root and the head is the new root or a block built above it. -/
theorem removeEach_succeeds {newRoot : BlockState}
    (headAbove : db.head.id = newRoot.id ∨ db.head ∈ db.index.blocks ∧
      newRoot.id ∈ ancestry db.index db.head) :
    ∀ (ids : List BlockId) (dbₖ : ForkDatabase), (∀ a ∈ ids, a.num < newRoot.blockNum) →
      dbₖ.head = db.head → (∀ b ∈ dbₖ.index.blocks, b ∈ db.index.blocks) →
      (∀ b ∈ dbₖ.index.blocks, b.id ≠ newRoot.id) → ∃ db', removeEach ids dbₖ = .ok () db' := by
  intro ids
  induction ids with
  | nil => exact fun dbₖ _ _ _ _ => ⟨dbₖ, rfl⟩
  | cons a rest ih =>
    intro dbₖ below head subset absent
    have headNum : newRoot.blockNum ≤ db.head.blockNum := by
      rcases headAbove with same | ⟨_, above⟩
      · have := congrArg BlockId.num same
        have := db.head.id_num
        have := newRoot.id_num
        omega
      · have := num_lt_of_mem_ancestry above
        have := newRoot.id_num
        omega
    have safe : ∀ x, Reaches dbₖ.index a x → x ≠ dbₖ.head.id := by
      rintro x (rfl | ⟨c, cmem, rfl, aAbove⟩) same
      · rw [head] at same
        have := congrArg BlockId.num same
        have := db.head.id_num
        have := below x List.mem_cons_self
        omega
      · rw [head] at same
        rcases headAbove with direct | ⟨hmem, above⟩
        · exact absent c cmem (same.trans direct)
        · have eq := eq_of_id_eq (subset c cmem) hmem same
          subst eq
          have := num_le_of_mem_ancestry_sub subset absent above a aAbove
          have := below a List.mem_cons_self
          omega
    obtain ⟨removed, queue⟩ := removeQueue_ok (QueueInv.initial dbₖ.index a) safe
    have first : remove a dbₖ = .ok () { dbₖ with index := removed.foldl BlockIndex.erase dbₖ.index } := by
      simp [remove, queue]
    obtain ⟨db', rest'⟩ := ih { dbₖ with index := removed.foldl BlockIndex.erase dbₖ.index }
      (fun x mem => below x (List.mem_cons_of_mem _ mem)) head
      (fun b mem => subset b (mem_foldl_erase.mp mem).1)
      (fun b mem => absent b (mem_foldl_erase.mp mem).1)
    exact ⟨db', by simp [removeEach, first, rest']⟩

/-- `advance_root` to a validated block at or below the head returns normally, on a tree
whose head is the root or an indexed block. -/
theorem Linked.advanceRoot_succeeds {id : BlockId} {newRoot : BlockState} (linked : db.Linked)
    (headIn : db.head = db.root ∨ db.head ∈ db.index.blocks)
    (found : db.getBlock id = some newRoot) (valid : newRoot.validated)
    (atOrBelowHead : id = db.head.id ∨ id ∈ ancestry db.index db.head) :
    ∃ db', advanceRoot id db = .ok () db' := by
  obtain ⟨newRootMem, newRootId⟩ := find_eq_some_iff.mp found
  subst newRootId
  have headAbove : db.head.id = newRoot.id ∨ db.head ∈ db.index.blocks ∧
      newRoot.id ∈ ancestry db.index db.head := by
    rcases atOrBelowHead with same | above
    · exact .inl same.symm
    · rcases headIn with root | hmem
      · -- the root's ancestry holds no indexed block's id
        exfalso
        have := linked.root_lt newRootMem
        have := num_lt_of_mem_ancestry above
        have := newRoot.id_num
        rw [root] at *
        omega
      · exact .inr ⟨hmem, above⟩
  obtain ⟨db', removed⟩ := removeEach_succeeds headAbove (ancestry db.index newRoot)
    { db with index := db.index.erase newRoot.id }
    (fun a mem => by have := num_lt_of_mem_ancestry mem; omega) rfl
    (fun b mem => (mem_erase.mp mem).1) (fun b mem => (mem_erase.mp mem).2)
  refine ⟨{ db' with root := newRoot }, ?_⟩
  simp [advanceRoot, found, valid, linked.blocksToRemove_eq newRootMem, removed]

theorem Inv.advanceRoot_succeeds {id : BlockId} {newRoot : BlockState} (inv : db.Inv)
    (found : db.getBlock id = some newRoot) (valid : newRoot.validated)
    (atOrBelowHead : id = db.head.id ∨ id ∈ ancestry db.index db.head) :
    ∃ db', advanceRoot id db = .ok () db' :=
  Linked.advanceRoot_succeeds inv.linked (inv.headValid.imp_right And.left) found valid atOrBelowHead

/-- What survives a removal that took the root's id and every block built on a removed id
lies above `top`: its links reach `top` before they leave the index. -/
theorem Linked.mem_ancestry_of_survivor (linked : db.Linked) {top : BlockId} {index : BlockIndex}
    {dropped : List BlockId} (rootDropped : db.root.id ∈ dropped)
    (mem : ∀ b, b ∈ index.blocks ↔ (b ∈ db.index.blocks ∧ b.id ≠ top) ∧ b.id ∉ dropped)
    (closed : ∀ b ∈ index.blocks, b.previous ∉ dropped) :
    ∀ b ∈ index.blocks, top ∈ ancestry db.index b := by
  intro b
  induction b using WellFounded.induction (InvImage.wf BlockState.blockNum wellFounded_lt) with
  | h b ih =>
    intro bmem
    obtain ⟨⟨old, _⟩, _⟩ := (mem b).mp bmem
    rcases linked b old with root | ⟨p, pmem, parent⟩
    · exact absurd (root ▸ rootDropped) (closed b bmem)
    · have found : db.index.find b.previous = some p := find_eq_some_iff.mpr ⟨pmem, parent⟩
      rw [ancestry_of_find_some found]
      by_cases isTop : p.id = top
      · exact parent ▸ isTop ▸ List.mem_cons_self
      · -- the parent survived too, and lies one block lower
        have pKept : p ∈ index.blocks := (mem p).mpr ⟨⟨pmem, isTop⟩, parent ▸ closed b bmem⟩
        have := blockNum_of_find found
        exact List.mem_cons_of_mem _ (ih p (by simp only [InvImage]; omega) pKept)

/-- `advance_root(id)` to a validated block at or below the head, on a tree whose head is the
root or an indexed block, returns normally; the new root is that block, the head stays, and
the index keeps exactly the blocks built above the new root. -/
theorem advance_root_keeps_descendants {id : BlockId} {newRoot : BlockState} (linked : db.Linked)
    (headIn : db.head = db.root ∨ db.head ∈ db.index.blocks)
    (found : db.getBlock id = some newRoot) (valid : newRoot.validated = true)
    (atOrBelowHead : id = db.head.id ∨ id ∈ ancestry db.index db.head) :
    ∃ db', advanceRoot id db = .ok () db' ∧ db'.root = newRoot ∧ db'.head = db.head ∧
      ∀ b, b ∈ db'.index.blocks ↔ b ∈ db.index.blocks ∧ id ∈ ancestry db.index b := by
  obtain ⟨db', returned⟩ := linked.advanceRoot_succeeds headIn found valid atOrBelowHead
  obtain ⟨newRoot', ids, db₁, found', walk, removed, rfl⟩ := advanceRoot_ok returned
  obtain rfl : newRoot = newRoot' := Option.some.inj (found.symm.trans found')
  obtain ⟨rfl, rootIn⟩ := blocksToRemove_ok walk
  obtain ⟨dropped, idsDropped, _, mem, closed, _, head⟩ := removeEach_spec removed
  obtain ⟨newRootMem, rfl⟩ := find_eq_some_iff.mp found
  have newRootNum := newRoot.id_num
  simp only [mem_erase] at mem
  refine ⟨_, returned, rfl, head, fun b => ⟨fun bmem => ?_, fun ⟨bmem, above⟩ => ?_⟩⟩
  · exact ⟨((mem b).mp bmem).1.1, linked.mem_ancestry_of_survivor (idsDropped rootIn) mem closed b bmem⟩
  · -- a block above the new root is reached from no removed id without passing the new root
    by_contra gone
    have aboveNum := num_lt_of_mem_ancestry above
    have bNum := b.id_num
    have fresh : b.id ≠ newRoot.id := fun same => by rw [same] at bNum; omega
    obtain ⟨a, amem, sub, subset, reach⟩ := removeEach_reaches removed b (mem_erase.mpr ⟨bmem, fresh⟩) gone
    have aBelow := num_lt_of_mem_ancestry amem
    rcases reach with same | ⟨c, cmem, cid, aAbove⟩
    · rw [← same] at aBelow
      omega
    · have inOld : ∀ c ∈ sub.blocks, c ∈ db.index.blocks := fun c cm => (mem_erase.mp (subset c cm)).1
      obtain rfl : c = b := eq_of_id_eq (inOld c cmem) bmem cid
      have := num_le_of_mem_ancestry_sub inOld (fun c cm => (mem_erase.mp (subset c cm)).2) above a aAbove
      omega

/-- A root at block 1 with two forks on it: blocks 2 and 3 up to the head, and a competing,
unvalidated block 2. -/
def twoForks : ForkDatabase where
  index := ⟨[⟨⟨3, 13⟩, ⟨2, 11⟩, 3, 1, true, rfl, rfl⟩, ⟨⟨2, 12⟩, ⟨1, 10⟩, 2, 0, false, rfl, rfl⟩,
    ⟨⟨2, 11⟩, ⟨1, 10⟩, 2, 1, true, rfl, rfl⟩], by decide⟩
  root := ⟨⟨1, 10⟩, ⟨0, 10⟩, 1, 0, true, rfl, rfl⟩
  head := ⟨⟨3, 13⟩, ⟨2, 11⟩, 3, 1, true, rfl, rfl⟩

theorem advance_root_past_fork :
    ∃ db', advanceRoot ⟨2, 11⟩ twoForks = .ok () db' ∧ db'.root = ⟨⟨2, 11⟩, ⟨1, 10⟩, 2, 1, true, rfl, rfl⟩ ∧
      db'.head = twoForks.head ∧
      ∀ b, b ∈ db'.index.blocks ↔ b ∈ twoForks.index.blocks ∧ ⟨2, 11⟩ ∈ ancestry twoForks.index b :=
  advance_root_keeps_descendants (by unfold Linked; decide) (.inr (by decide)) rfl rfl
    (.inr (by rw [ancestry]; exact List.mem_cons_self))

end ForkDatabase

end Fio.Chain
