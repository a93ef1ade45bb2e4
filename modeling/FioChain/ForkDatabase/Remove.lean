import FioChain.ForkDatabase.Index

/-! The breadth-first loop of `fork_database::remove`. What it removes is closed under
"built on", it never removes the head, and it only reaches the blocks whose ancestry meets
the removed id. Its queue never repeats an id, so the loop always ends within the rounds
the index allows. -/

namespace Fio.Chain

open BlockIndex ForkDatabase

section Queue

variable {index : BlockIndex} {headId start : BlockId} {fuel : Nat}
  {done queue removed : List BlockId}

/-- Everything queued is removed. -/
theorem subset_of_removeQueue (ok : removeQueue index headId fuel done queue = .ok removed) :
    done ++ queue ⊆ removed := by
  fun_induction removeQueue index headId fuel done queue with
  | case1 => cases ok; simp
  | case2 => cases ok
  | case3 => cases ok
  | case4 fuel done id queue ne ih =>
    have sub := ih ok
    intro x mem
    apply sub
    simp only [List.mem_append, List.mem_cons] at mem ⊢
    tauto

/-- The blocks built on a removed id are removed too, once that holds of the ids already
processed. -/
theorem children_subset_of_removeQueue
    (closed : ∀ q ∈ done, index.children q ⊆ done ++ queue)
    (ok : removeQueue index headId fuel done queue = .ok removed) :
    ∀ q ∈ removed, index.children q ⊆ removed := by
  fun_induction removeQueue index headId fuel done queue with
  | case1 => cases ok; simpa using closed
  | case2 => cases ok
  | case3 => cases ok
  | case4 fuel done id queue ne ih =>
    apply ih _ ok
    intro q mem y child
    simp only [List.mem_append, List.mem_singleton] at mem ⊢
    rcases mem with mem | rfl
    · have := closed q mem child
      simp only [List.mem_append, List.mem_cons] at this
      tauto
    · tauto

/-- Every id is checked against the head before it is queued for removal. -/
theorem head_notMem_of_removeQueue (fresh : headId ∉ done)
    (ok : removeQueue index headId fuel done queue = .ok removed) : headId ∉ removed := by
  fun_induction removeQueue index headId fuel done queue with
  | case1 => cases ok; exact fresh
  | case2 => cases ok
  | case3 => cases ok
  | case4 fuel done id queue ne ih =>
    apply ih _ ok
    simp only [List.mem_append, List.mem_singleton, not_or]
    exact ⟨fresh, Ne.symm ne⟩

/-- A property of the queued ids that passes to the blocks built on them holds of every
removed id. -/
theorem forall_of_removeQueue {P : BlockId → Prop} (start : ∀ x ∈ done ++ queue, P x)
    (step : ∀ x, P x → ∀ y ∈ index.children x, P y)
    (ok : removeQueue index headId fuel done queue = .ok removed) : ∀ x ∈ removed, P x := by
  fun_induction removeQueue index headId fuel done queue with
  | case1 => cases ok; simpa using start
  | case2 => cases ok
  | case3 => cases ok
  | case4 fuel done id queue ne ih =>
    apply ih _ ok
    intro x mem
    simp only [List.mem_append, List.mem_singleton] at mem
    rcases mem with (mem | rfl) | mem | mem
    · exact start x (by simp [mem])
    · exact start x (by simp)
    · exact start x (by simp [mem])
    · exact step id (start id (by simp)) x mem

end Queue

/-- The ids `remove(start)` may reach: `start` itself and the blocks whose ancestry meets it. -/
def Reaches (index : BlockIndex) (start x : BlockId) : Prop :=
  x = start ∨ ∃ c ∈ index.blocks, c.id = x ∧ start ∈ ancestry index c

/-- A block built on a reached id has `start` in its ancestry. -/
theorem mem_ancestry_of_reaches {index : BlockIndex} {start x : BlockId} {c : BlockState}
    (reach : Reaches index start x) (previous : c.previous = x) :
    start ∈ ancestry index c := by
  rcases reach with rfl | ⟨p, pmem, rfl, above⟩
  · rw [ancestry]
    exact previous ▸ List.mem_cons_self
  · rw [ancestry_of_find_some (BlockIndex.find_eq_some_iff.mpr ⟨pmem, previous.symm⟩)]
    exact List.mem_cons_of_mem _ above

theorem reaches_children {index : BlockIndex} {start x y : BlockId}
    (reach : Reaches index start x) (child : y ∈ index.children x) : Reaches index start y := by
  obtain ⟨c, mem, previous, rfl⟩ := BlockIndex.mem_children.mp child
  exact .inr ⟨c, mem, rfl, mem_ancestry_of_reaches reach previous⟩

/-- The state of `remove_queue` as the loop runs from `[start]`: no id twice, every id
after the first names a block whose previous was already processed and whose ancestry
meets `start`, and one unit of fuel spent per processed id. -/
structure QueueInv (index : BlockIndex) (start : BlockId) (fuel : Nat)
    (done queue : List BlockId) : Prop where
  nodup : (done ++ queue).Nodup
  queued : ∀ x ∈ done ++ queue, x = start ∨
    ∃ c ∈ index.blocks, c.id = x ∧ c.previous ∈ done ∧ start ∈ ancestry index c
  fuel_eq : fuel + done.length = index.blocks.length + 1

namespace QueueInv

variable {index : BlockIndex} {start : BlockId} {fuel : Nat} {done queue : List BlockId}

theorem initial (index : BlockIndex) (start : BlockId) :
    QueueInv index start (index.blocks.length + 1) [] [start] where
  nodup := by simp
  queued := by simp
  fuel_eq := by simp

theorem reaches (inv : QueueInv index start fuel done queue) {x : BlockId}
    (mem : x ∈ done ++ queue) : Reaches index start x := by
  rcases inv.queued x mem with rfl | ⟨c, cmem, rfl, _, above⟩
  · exact .inl rfl
  · exact .inr ⟨c, cmem, rfl, above⟩

/-- The queue holds `start` and ids of the index, without repetition, so its length is
bounded by the index. -/
theorem length_le (inv : QueueInv index start fuel done queue) :
    (done ++ queue).length ≤ index.blocks.length + 1 := by
  have sub : done ++ queue ⊆ start :: index.blocks.map BlockState.id := by
    intro x mem
    rcases inv.queued x mem with rfl | ⟨c, cmem, rfl, _⟩
    · exact List.mem_cons_self
    · exact List.mem_cons_of_mem _ (List.mem_map_of_mem cmem)
  simpa using (List.subperm_of_subset inv.nodup sub).length_le

/-- A block built on the processed id `q` is new to the queue: it cannot be `start`, whose
number is below it, nor be queued already, since its only parent `q` is processed once. -/
theorem child_fresh (inv : QueueInv index start fuel done (q :: queue)) {y : BlockId}
    (child : y ∈ index.children q) : y ∉ done ++ q :: queue := by
  intro mem
  obtain ⟨c, cmem, previous, rfl⟩ := BlockIndex.mem_children.mp child
  rcases inv.queued c.id mem with same | ⟨c', c'mem, same, processed, _⟩
  · have above := num_lt_of_mem_ancestry
      (mem_ancestry_of_reaches (inv.reaches (by simp)) previous)
    rw [← same] at above
    have := c.id_num
    omega
  · have eq := BlockIndex.eq_of_id_eq c'mem cmem same
    subst eq
    rw [previous] at processed
    have := inv.nodup
    rw [List.nodup_append] at this
    exact this.2.2 q processed q List.mem_cons_self rfl

theorem step (inv : QueueInv index start (fuel + 1) done (q :: queue)) :
    QueueInv index start fuel (done ++ [q]) (queue ++ index.children q) where
  nodup := by
    have nodup := inv.nodup
    have fresh : ∀ y ∈ index.children q, y ∉ done ++ q :: queue :=
      fun y child => inv.child_fresh child
    rw [show done ++ [q] ++ (queue ++ index.children q) = (done ++ q :: queue) ++ index.children q
      by simp]
    exact List.nodup_append.mpr ⟨nodup, children_nodup,
      fun a amem b bmem same => fresh b bmem (same ▸ amem)⟩
  queued := by
    intro x mem
    simp only [List.mem_append, List.mem_singleton] at mem
    rcases mem with (mem | rfl) | mem | mem
    · rcases inv.queued x (by simp [mem]) with rfl | ⟨c, cmem, rfl, processed, above⟩
      · exact .inl rfl
      · exact .inr ⟨c, cmem, rfl, by simp [processed], above⟩
    · rcases inv.queued x (by simp) with rfl | ⟨c, cmem, rfl, processed, above⟩
      · exact .inl rfl
      · exact .inr ⟨c, cmem, rfl, by simp [processed], above⟩
    · rcases inv.queued x (by simp [mem]) with rfl | ⟨c, cmem, rfl, processed, above⟩
      · exact .inl rfl
      · exact .inr ⟨c, cmem, rfl, by simp [processed], above⟩
    · have reach := reaches_children (inv.reaches (by simp)) mem
      obtain ⟨c, cmem, previous, rfl⟩ := BlockIndex.mem_children.mp mem
      rcases reach with same | ⟨c', c'mem, ids, above⟩
      · exact .inl same
      · have := BlockIndex.eq_of_id_eq c'mem cmem ids
        subst this
        exact .inr ⟨c', cmem, rfl, by simp [previous], above⟩
  fuel_eq := by
    have := inv.fuel_eq
    simp only [List.length_append, List.length_singleton]
    omega

end QueueInv

/-- The loop finishes without error as long as no id it may reach is the head: the fuel
never runs out. -/
theorem removeQueue_ok {index : BlockIndex} {headId start : BlockId} {fuel : Nat}
    {done queue : List BlockId} (inv : QueueInv index start fuel done queue)
    (safe : ∀ x, Reaches index start x → x ≠ headId) :
    ∃ removed, removeQueue index headId fuel done queue = .ok removed := by
  fun_induction removeQueue index headId fuel done queue with
  | case1 _ done => exact ⟨done, rfl⟩
  | case2 done id queue =>
    have := inv.length_le
    have := inv.fuel_eq
    simp only [List.length_append, List.length_cons] at *
    omega
  | case3 fuel done queue =>
    exact absurd rfl (safe headId (inv.reaches (by simp)))
  | case4 fuel done id queue ne ih => exact ih inv.step

end Fio.Chain
