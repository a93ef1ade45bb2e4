import FioChain.ForkDatabase.Model

/-! One specification lemma for each operation on the block index, the order facts behind
`by_lib_block_num` and `first_preferred`, and the ancestry of a block: the ids met when
following `header.previous` through the index, as `advance_root` and `fetch_branch` do. -/

namespace Fio.Chain

theorem firstPreferred_eq_false_iff {lhs rhs : BlockState} :
    firstPreferred lhs rhs = false ↔
      lhs.dposIrreversibleBlocknum < rhs.dposIrreversibleBlocknum ∨
        lhs.dposIrreversibleBlocknum = rhs.dposIrreversibleBlocknum ∧ lhs.blockNum ≤ rhs.blockNum := by
  simp only [firstPreferred, Bool.or_eq_false_iff, decide_eq_false_iff_not, Bool.and_eq_false_iff,
    beq_eq_false_iff_ne, ne_eq, not_lt]
  omega

/-- Not being preferred to the next block is transitive. -/
theorem firstPreferred_eq_false_trans {a b c : BlockState} (ab : firstPreferred a b = false)
    (bc : firstPreferred b c = false) : firstPreferred a c = false := by
  rw [firstPreferred_eq_false_iff] at *
  omega

theorem libBlockNumKey_le_iff {b c : BlockState} :
    libBlockNumKey b ≤ libBlockNumKey c ↔
      b.validated < c.validated ∨ b.validated = c.validated ∧
        (b.dposIrreversibleBlocknum < c.dposIrreversibleBlocknum ∨
          b.dposIrreversibleBlocknum = c.dposIrreversibleBlocknum ∧
            (b.blockNum < c.blockNum ∨ b.blockNum = c.blockNum ∧ c.id ≤ b.id)) := by
  simp only [libBlockNumKey, Prod.Lex.toLex_le_toLex, OrderDual.toDual_le_toDual]

/-- The front of `by_lib_block_num` is validated as soon as any block is. -/
theorem validated_of_key_le {b c : BlockState} (le : libBlockNumKey b ≤ libBlockNumKey c)
    (valid : b.validated) : c.validated := by
  rw [libBlockNumKey_le_iff] at le
  rcases le with lt | ⟨same, _⟩
  · rw [valid] at lt
    revert lt
    cases c.validated <;> decide
  · rwa [← same]

/-- Among validated blocks, none below the front is preferred to it. -/
theorem firstPreferred_eq_false_of_key_le {b c : BlockState}
    (le : libBlockNumKey b ≤ libBlockNumKey c) (same : b.validated = c.validated) :
    firstPreferred b c = false := by
  rw [libBlockNumKey_le_iff, same] at le
  rw [firstPreferred_eq_false_iff]
  rcases le with lt | ⟨_, lib⟩
  · exact absurd lt (lt_irrefl _)
  · omega

namespace BlockIndex

variable {index index' : BlockIndex} {id q : BlockId} {b c n : BlockState}

theorem find_eq_some_iff : index.find id = some b ↔ b ∈ index.blocks ∧ b.id = id := by
  obtain ⟨blocks, nodup⟩ := index
  simp only [find]
  constructor
  · intro found
    exact ⟨List.mem_of_find?_eq_some found, by simpa using List.find?_some found⟩
  · rintro ⟨mem, rfl⟩
    obtain ⟨before, after, rfl⟩ := List.append_of_mem mem
    rw [List.find?_eq_some_iff_append]
    refine ⟨by simp, before, after, rfl, fun a earlier => ?_⟩
    have distinct : a.id ≠ b.id := by
      rw [List.map_append, List.map_cons] at nodup
      exact fun same => (List.nodup_append.mp nodup).2.2 _ (List.mem_map_of_mem earlier) _
        List.mem_cons_self same
    simpa using distinct

theorem find_eq_none_iff : index.find id = none ↔ ∀ b ∈ index.blocks, b.id ≠ id := by
  simp [find, List.find?_eq_none]

theorem find_of_mem (mem : b ∈ index.blocks) : index.find b.id = some b :=
  find_eq_some_iff.mpr ⟨mem, rfl⟩

/-- Two blocks of one index with the same id are the same block. -/
theorem eq_of_id_eq (hb : b ∈ index.blocks) (hc : c ∈ index.blocks) (same : b.id = c.id) :
    b = c := by
  have := find_of_mem hb
  rw [same, find_of_mem hc] at this
  exact (Option.some.inj this).symm

/-- The parent found in the index has the block number one below. -/
theorem blockNum_of_find (found : index.find b.previous = some c) :
    c.blockNum + 1 = b.blockNum := by
  have parentId := (find_eq_some_iff.mp found).2
  have := congrArg BlockId.num parentId
  have := c.id_num
  have := b.previous_num
  omega

theorem insert_eq_none_iff : index.insert n = none ↔ n.id ∈ index.blocks.map BlockState.id := by
  unfold insert
  split <;> simp_all

theorem mem_insert (inserted : index.insert n = some index') :
    b ∈ index'.blocks ↔ b = n ∨ b ∈ index.blocks := by
  unfold insert at inserted
  split at inserted
  · contradiction
  · cases inserted
    exact List.mem_cons

theorem mem_erase : b ∈ (index.erase id).blocks ↔ b ∈ index.blocks ∧ b.id ≠ id := by
  simp [erase]

theorem mem_setValidated {select : BlockState → Bool} {v : Bool} :
    b ∈ (index.setValidated select v).blocks ↔
      ∃ a ∈ index.blocks, (if select a then { a with validated := v } else a) = b := by
  simp [setValidated]

theorem front_mem (front : index.front = some c) : c ∈ index.blocks :=
  List.argmax_mem front

theorem key_le_front (front : index.front = some c) (mem : b ∈ index.blocks) :
    libBlockNumKey b ≤ libBlockNumKey c :=
  List.le_of_mem_argmax mem front

theorem front_eq_none_iff : index.front = none ↔ index.blocks = [] :=
  List.argmax_eq_none

theorem mem_children : q ∈ index.children id ↔ ∃ c ∈ index.blocks, c.previous = id ∧ c.id = q := by
  simp [children, and_assoc]

theorem children_nodup : (index.children id).Nodup :=
  index.nodup.sublist (List.filter_sublist.map _)

end BlockIndex

/-- The ids met following `header.previous` from `b` through the index: `b.previous`, the
previous of the block with that id, and so on until an id outside the index. -/
def ancestry (index : BlockIndex) (b : BlockState) : List BlockId :=
  b.previous :: match _found : index.find b.previous with
    | none => []
    | some parent => ancestry index parent
termination_by b.blockNum
decreasing_by have := BlockIndex.blockNum_of_find _found; omega

theorem ancestry_of_find_none {index : BlockIndex} {b : BlockState}
    (found : index.find b.previous = none) : ancestry index b = [b.previous] := by
  rw [ancestry]
  split <;> simp_all

theorem ancestry_of_find_some {index : BlockIndex} {b p : BlockState}
    (found : index.find b.previous = some p) : ancestry index b = b.previous :: ancestry index p := by
  rw [ancestry]
  split <;> simp_all

/-- Every ancestor carries a lower block number than the block. -/
theorem num_lt_of_mem_ancestry {index : BlockIndex} {b : BlockState} {x : BlockId}
    (mem : x ∈ ancestry index b) : x.num < b.blockNum := by
  induction b using WellFounded.induction (InvImage.wf BlockState.blockNum wellFounded_lt) with
  | h b ih =>
    have := b.previous_num
    cases found : index.find b.previous with
    | none =>
      rw [ancestry_of_find_none found, List.mem_singleton] at mem
      subst mem; omega
    | some p =>
      have parent := BlockIndex.blockNum_of_find found
      rw [ancestry_of_find_some found, List.mem_cons] at mem
      rcases mem with rfl | mem
      · omega
      · have := ih p (by simp only [InvImage]; omega) mem
        omega

end Fio.Chain
