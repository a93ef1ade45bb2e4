import FioChain.ForkDatabase.Remove

/-! The fork database invariant: every indexed block is linked to the root or to another
indexed block, the head is the root or a validated indexed block, and no validated block
is `first_preferred` to the head. One inversion lemma per mutator says what a normal
return did; each mutator then keeps the invariant. -/

namespace Fio.Chain

open BlockIndex

/-- The tree shape alone: every indexed block is linked to the root or to another indexed
block. -/
def ForkDatabase.Linked (db : ForkDatabase) : Prop :=
  ∀ b ∈ db.index.blocks, b.previous = db.root.id ∨ ∃ p ∈ db.index.blocks, p.id = b.previous

/-- The invariant `fork_database` keeps between calls. -/
structure ForkDatabase.Inv (db : ForkDatabase) : Prop where
  linked : ∀ b ∈ db.index.blocks,
    b.previous = db.root.id ∨ ∃ p ∈ db.index.blocks, p.id = b.previous
  headValid : db.head = db.root ∨ db.head ∈ db.index.blocks ∧ db.head.validated
  headPreferred : ∀ b ∈ db.index.blocks, b.validated → firstPreferred b db.head = false

namespace ForkDatabase

variable {db db' : ForkDatabase} {e : Exception}

theorem mem_foldl_erase {index : BlockIndex} {ids : List BlockId} {b : BlockState} :
    b ∈ (ids.foldl BlockIndex.erase index).blocks ↔ b ∈ index.blocks ∧ b.id ∉ ids := by
  induction ids generalizing index with
  | nil => simp
  | cons id rest ih =>
    simp only [List.foldl_cons, ih, mem_erase, List.mem_cons, not_or]
    tauto

/-! ### What each mutator does on a normal return -/

theorem chooseHead_cases (index : BlockIndex) (head : BlockState) (pick : BlockState → Bool) :
    (∃ c, index.front = some c ∧ pick c ∧ chooseHead index head pick = c) ∨
      chooseHead index head pick = head ∧ ∀ c, index.front = some c → pick c = false := by
  unfold chooseHead
  cases front : index.front with
  | none => simp
  | some c =>
    by_cases picked : pick c
    · exact .inl ⟨c, rfl, picked, by simp [picked]⟩
    · exact .inr ⟨by simp [picked], by simp_all⟩

theorem add_ok {n : BlockState} {ignoreDuplicate : Bool} (ok : add n ignoreDuplicate db = .ok () db') :
    db' = db ∨ ∃ index, (db.getBlockHeader n.previous).isSome ∧ db.index.insert n = some index ∧
      db' = { db with index := index, head := chooseHead index db.head (·.validated) } := by
  unfold add at ok
  split at ok
  · cases ok
  · rename_i linked
    split at ok
    · split at ok
      · cases ok; exact .inl rfl
      · cases ok
    · rename_i index inserted
      cases ok
      exact .inr ⟨index, Option.isSome_iff_ne_none.mpr (by simpa using linked), inserted, rfl⟩

theorem add_error {n : BlockState} {ignoreDuplicate : Bool}
    (err : add n ignoreDuplicate db = .error e db') : db' = db := by
  unfold add at err
  split at err
  · cases err; rfl
  · split at err
    · split at err
      · cases err
      · cases err; rfl
    · cases err

theorem markValid_ok {h : BlockState} (ok : markValid h db = .ok () db') :
    db' = db ∨ ∃ x ∈ db.index.blocks, x.id = h.id ∧
      db' = { db with index := db.index.setValidated (·.id == h.id) true,
                      head := chooseHead (db.index.setValidated (·.id == h.id) true) db.head
                        (firstPreferred · db.head) } := by
  unfold markValid at ok
  split at ok
  · cases ok; exact .inl rfl
  · split at ok
    · cases ok
    · rename_i found
      cases ok
      obtain ⟨x, hx⟩ := Option.ne_none_iff_exists'.mp (by simpa using found)
      exact .inr ⟨x, (find_eq_some_iff.mp hx).1, (find_eq_some_iff.mp hx).2, rfl⟩

theorem markValid_error {h : BlockState} (err : markValid h db = .error e db') : db' = db := by
  unfold markValid at err
  split at err
  · cases err
  · split at err
    · cases err; rfl
    · cases err

theorem remove_ok {id : BlockId} (ok : remove id db = .ok () db') :
    ∃ removed, removeQueue db.index db.head.id (db.index.blocks.length + 1) [] [id] = .ok removed ∧
      db' = { db with index := removed.foldl BlockIndex.erase db.index } := by
  unfold remove at ok
  split at ok
  · cases ok
  · rename_i removed found
    cases ok
    exact ⟨removed, found, rfl⟩

theorem remove_error {id : BlockId} (err : remove id db = .error e db') : db' = db := by
  unfold remove at err
  split at err
  · cases err; rfl
  · cases err

/-- A normal return of `remove(id)` drops a set of ids holding `id`, closed under "built
on", without the head: no kept block is built on a dropped id. -/
theorem remove_spec {id : BlockId} (ok : remove id db = .ok () db') :
    ∃ removed : List BlockId, id ∈ removed ∧ db.head.id ∉ removed ∧
      (∀ x ∈ removed, Reaches db.index id x) ∧
      (∀ b, b ∈ db'.index.blocks ↔ b ∈ db.index.blocks ∧ b.id ∉ removed) ∧
      (∀ b ∈ db'.index.blocks, b.previous ∉ removed) ∧
      db'.root = db.root ∧ db'.head = db.head := by
  obtain ⟨removed, queue, rfl⟩ := remove_ok ok
  have closed := children_subset_of_removeQueue (by simp) queue
  refine ⟨removed, subset_of_removeQueue queue (by simp),
    head_notMem_of_removeQueue (by simp) queue,
    forall_of_removeQueue (by simp [Reaches]) (fun _ reach _ child => reaches_children reach child)
      queue, fun _ => mem_foldl_erase, ?_, rfl, rfl⟩
  intro b mem dropped
  obtain ⟨mem, kept⟩ := mem_foldl_erase.mp mem
  exact kept (closed _ dropped (mem_children.mpr ⟨b, mem, rfl, rfl⟩))

/-! ### The invariant is kept -/

theorem reset_inv (rootBhs : BlockState) : (reset rootBhs).Inv where
  linked := by simp [reset, BlockIndex.empty]
  headValid := .inl rfl
  headPreferred := by simp [reset, BlockIndex.empty]

theorem rollbackHeadToRoot_inv (inv : db.Inv) (ok : rollbackHeadToRoot db = .ok () db') :
    db'.Inv := by
  cases ok
  refine ⟨?_, .inl rfl, ?_⟩
  · intro b mem
    obtain ⟨a, amem, rfl⟩ := mem_setValidated.mp mem
    simp only [if_true]
    rcases inv.linked a amem with root | ⟨p, pmem, parent⟩
    · exact .inl root
    · exact .inr ⟨{ p with validated := false }, mem_setValidated.mpr ⟨p, pmem, by simp⟩, parent⟩
  · intro b mem valid
    obtain ⟨a, _, rfl⟩ := mem_setValidated.mp mem
    simp at valid

/-- The head kept or chosen by `chooseHead` satisfies both head clauses, given that the
front is validated whenever it is picked. -/
theorem head_clauses_of_front {index : BlockIndex} {c : BlockState}
    (front : index.front = some c) (valid : c.validated) :
    (c ∈ index.blocks ∧ c.validated) ∧
      ∀ b ∈ index.blocks, b.validated → firstPreferred b c = false :=
  ⟨⟨front_mem front, valid⟩, fun b mem bvalid =>
    firstPreferred_eq_false_of_key_le (key_le_front front mem) (by rw [bvalid, valid])⟩

theorem add_inv {n : BlockState} {ignoreDuplicate : Bool} (inv : db.Inv)
    (ok : add n ignoreDuplicate db = .ok () db') : db'.Inv := by
  rcases add_ok ok with rfl | ⟨index, linkedHeader, inserted, rfl⟩
  · exact inv
  have grown : ∀ b, b ∈ db.index.blocks → b ∈ index.blocks :=
    fun b mem => (mem_insert inserted).mpr (.inr mem)
  refine ⟨?_, ?_, ?_⟩
  · intro b mem
    rcases (mem_insert inserted).mp mem with rfl | old
    · unfold getBlockHeader at linkedHeader
      split at linkedHeader
      · rename_i rootId
        exact .inl rootId.symm
      · obtain ⟨p, found⟩ := Option.isSome_iff_exists.mp linkedHeader
        exact .inr ⟨p, grown p (find_eq_some_iff.mp found).1, (find_eq_some_iff.mp found).2⟩
    · rcases inv.linked b old with root | ⟨p, pmem, parent⟩
      · exact .inl root
      · exact .inr ⟨p, grown p pmem, parent⟩
  · rcases chooseHead_cases index db.head (·.validated) with
      ⟨c, front, valid, chosen⟩ | ⟨kept, _⟩
    · exact .inr (chosen ▸ (head_clauses_of_front front valid).1)
    · rw [kept]
      rcases inv.headValid with root | ⟨mem, valid⟩
      · exact .inl root
      · exact .inr ⟨grown _ mem, valid⟩
  · rcases chooseHead_cases index db.head (·.validated) with
      ⟨c, front, valid, chosen⟩ | ⟨kept, notPicked⟩
    · exact chosen ▸ (head_clauses_of_front front valid).2
    · intro b mem valid
      cases front : index.front with
      | none => simp [front_eq_none_iff.mp front] at mem
      | some c =>
        have := validated_of_key_le (key_le_front front mem) valid
        simp [notPicked c front] at this

theorem markValid_inv {h : BlockState} (inv : db.Inv) (ok : markValid h db = .ok () db') :
    db'.Inv := by
  rcases markValid_ok ok with rfl | ⟨x, xmem, xid, rfl⟩
  · exact inv
  generalize index_def : db.index.setValidated (·.id == h.id) true = index
  have keptValid : ∀ b ∈ db.index.blocks, b.validated → b ∈ index.blocks := by
    intro b mem valid
    refine index_def ▸ mem_setValidated.mpr ⟨b, mem, ?_⟩
    split
    · cases b; simp_all
    · rfl
  have marked : { x with validated := true } ∈ index.blocks :=
    index_def ▸ mem_setValidated.mpr ⟨x, xmem, by simp [xid]⟩
  have frontValid : ∀ c, index.front = some c → c.validated := fun c front =>
    validated_of_key_le (key_le_front front marked) rfl
  refine ⟨?_, ?_, ?_⟩
  · intro b mem
    rw [← index_def] at mem ⊢
    obtain ⟨a, amem, rfl⟩ := mem_setValidated.mp mem
    have same : ∀ p : BlockState, (if p.id == h.id then { p with validated := true } else p).id = p.id ∧
        (if p.id == h.id then { p with validated := true } else p).previous = p.previous := by
      intro p; split <;> simp
    rw [(same a).2]
    rcases inv.linked a amem with root | ⟨p, pmem, parent⟩
    · exact .inl root
    · exact .inr ⟨_, mem_setValidated.mpr ⟨p, pmem, rfl⟩, (same p).1.trans parent⟩
  · rcases chooseHead_cases index db.head (firstPreferred · db.head) with
      ⟨c, front, _, chosen⟩ | ⟨kept, _⟩
    · exact .inr (chosen ▸ (head_clauses_of_front front (frontValid c front)).1)
    · rw [kept]
      rcases inv.headValid with root | ⟨mem, valid⟩
      · exact .inl root
      · exact .inr ⟨keptValid _ mem valid, valid⟩
  · rcases chooseHead_cases index db.head (firstPreferred · db.head) with
      ⟨c, front, _, chosen⟩ | ⟨kept, notPicked⟩
    · exact chosen ▸ (head_clauses_of_front front (frontValid c front)).2
    · intro b mem valid
      rw [kept]
      cases front : index.front with
      | none => simp [front_eq_none_iff.mp front] at mem
      | some c =>
        exact firstPreferred_eq_false_trans
          ((head_clauses_of_front front (frontValid c front)).2 b mem valid) (notPicked c front)

theorem remove_inv {id : BlockId} (inv : db.Inv) (ok : remove id db = .ok () db') : db'.Inv := by
  obtain ⟨removed, _, headKept, _, mem, closed, root, head⟩ := remove_spec ok
  refine ⟨?_, ?_, ?_⟩
  · intro b bmem
    obtain ⟨old, _⟩ := (mem b).mp bmem
    rw [root]
    rcases inv.linked b old with rootLink | ⟨p, pmem, parent⟩
    · exact .inl rootLink
    · refine .inr ⟨p, (mem p).mpr ⟨pmem, fun dropped => closed b bmem ?_⟩, parent⟩
      rwa [← parent]
  · rw [root, head]
    rcases inv.headValid with rootHead | ⟨hmem, valid⟩
    · exact .inl rootHead
    · exact .inr ⟨(mem _).mpr ⟨hmem, headKept⟩, valid⟩
  · intro b bmem valid
    rw [head]
    exact inv.headPreferred b ((mem b).mp bmem).1 valid

end ForkDatabase

end Fio.Chain
