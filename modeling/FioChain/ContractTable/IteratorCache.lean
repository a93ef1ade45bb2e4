import FioChain.Types
import Mathlib

/-! `apply_context::iterator_cache<T>`: the iterators a contract holds into the objects of one
index. An iterator `i ≥ 0` is a slot of `_iterator_to_object`, which is only appended to and whose
slots are set to `nullptr` when their object is removed; `_object_to_iterator` maps each live
object back to its slot. A table the contract has touched gets the end iterator `-(k + 2)` of its
slot `k` in `_end_iterator_to_table`, and `-1` stands for no table.

A pointer is modelled by what identifies its object in the database: an object of `T` by its
key, a table by its id, whose fields are then read from the database. -/

namespace Fio.Chain

/-- `apply_context::iterator_cache<T>`. -/
structure IteratorCache (T : Type) [DecidableEq T] where
  /-- `_table_cache`: the end iterator of each cached table, by id. -/
  tableCache : AList fun _ : Nat => Int
  endIteratorToTable : List Nat
  iteratorToObject : List (Option T)
  objectToIterator : AList fun _ : T => Nat

namespace IteratorCache

variable {T : Type} [DecidableEq T]

/-- `index_to_end_iterator`. -/
def indexToEndIterator (indx : Nat) : Int := -(indx + 2)

/-- `end_iterator_to_index`. -/
def endIteratorToIndex (ei : Int) : Nat := (-ei - 2).toNat

/-- The cache of a new `apply_context`. -/
def empty : IteratorCache T := ⟨∅, [], [], ∅⟩

/-- `cache_table`: the table's end iterator, given one at the next slot if it has none. -/
def cacheTable (c : IteratorCache T) (tId : Nat) : Int × IteratorCache T :=
  match c.tableCache.lookup tId with
  | some ei => (ei, c)
  | none =>
    let ei := indexToEndIterator c.endIteratorToTable.length
    (ei, { c with
      endIteratorToTable := c.endIteratorToTable ++ [tId]
      tableCache := c.tableCache.insert tId ei })

/-- `get_table`: the id of a cached table, whose object the caller reads from the database. -/
def getTable (c : IteratorCache T) (i : Nat) : Except Exception Nat :=
  match c.tableCache.lookup i with
  | some _ => pure i
  | none => throw (.tableNotInCache "an invariant was broken, table should be in cache")

def getEndIteratorByTableId (c : IteratorCache T) (i : Nat) : Except Exception Int :=
  match c.tableCache.lookup i with
  | some ei => pure ei
  | none => throw (.tableNotInCache "an invariant was broken, table should be in cache")

/-- `find_table_by_end_iterator`, with `none` for `nullptr`. -/
def findTableByEndIterator (c : IteratorCache T) (ei : Int) : Except Exception (Option Nat) :=
  if ei < -1 then pure c.endIteratorToTable[endIteratorToIndex ei]?
  else throw (.invalidTableIterator "not an end iterator")

def get (c : IteratorCache T) (iterator : Int) : Except Exception T :=
  if iterator = -1 then throw (.invalidTableIterator "invalid iterator")
  else if iterator < 0 then throw (.tableOperationNotPermitted "dereference of end iterator")
  else
    match c.iteratorToObject[iterator.toNat]? with
    | none => throw (.invalidTableIterator "iterator out of range")
    | some none => throw (.tableOperationNotPermitted "dereference of deleted object")
    | some (some obj) => pure obj

def remove (c : IteratorCache T) (iterator : Int) : Except Exception (IteratorCache T) :=
  if iterator = -1 then throw (.invalidTableIterator "invalid iterator")
  else if iterator < 0 then throw (.tableOperationNotPermitted "cannot call remove on end iterators")
  else
    match c.iteratorToObject[iterator.toNat]? with
    | none => throw (.invalidTableIterator "iterator out of range")
    | some none => pure c
    | some (some obj) =>
      pure { c with
        iteratorToObject := c.iteratorToObject.set iterator.toNat none
        objectToIterator := c.objectToIterator.erase obj }

/-- `add`: the object's iterator, a new slot if it has none. -/
def add (c : IteratorCache T) (obj : T) : Int × IteratorCache T :=
  match c.objectToIterator.lookup obj with
  | some i => (i, c)
  | none =>
    (c.iteratorToObject.length, { c with
      iteratorToObject := c.iteratorToObject ++ [some obj]
      objectToIterator := c.objectToIterator.insert obj c.iteratorToObject.length })

/-! ### What each operation leaves alone -/

@[simp] theorem iteratorToObject_cacheTable (c : IteratorCache T) (tId : Nat) :
    (c.cacheTable tId).2.iteratorToObject = c.iteratorToObject := by
  unfold cacheTable
  split <;> rfl

@[simp] theorem tableCache_add (c : IteratorCache T) (obj : T) : (c.add obj).2.tableCache = c.tableCache := by
  unfold add
  split <;> rfl

@[simp] theorem endIteratorToTable_add (c : IteratorCache T) (obj : T) :
    (c.add obj).2.endIteratorToTable = c.endIteratorToTable := by
  unfold add
  split <;> rfl

/-! ### The cache's invariant -/

/-- `_object_to_iterator` inverts `_iterator_to_object` on the live slots, and `_table_cache`
gives each cached table the end iterator of its slot in `_end_iterator_to_table`. -/
structure Consistent (c : IteratorCache T) : Prop where
  inverse : ∀ obj i, c.objectToIterator.lookup obj = some i ↔ c.iteratorToObject[i]? = some (some obj)
  tables : ∀ t ei, c.tableCache.lookup t = some ei ↔
    ∃ k, c.endIteratorToTable[k]? = some t ∧ ei = indexToEndIterator k

theorem getElem?_append_singleton {α : Type} (l : List α) (x : α) (i : Nat) :
    (l ++ [x])[i]? = if i < l.length then l[i]? else if i = l.length then some x else none := by
  split
  · exact List.getElem?_append_left (by assumption)
  · rw [List.getElem?_append_right (by omega)]
    split
    · subst_vars
      simp
    · rw [List.getElem?_eq_none (by simp; omega)]

theorem indexToEndIterator_inj {k k' : Nat} (same : indexToEndIterator k = indexToEndIterator k') : k = k' := by
  unfold indexToEndIterator at same
  omega

theorem indexToEndIterator_lt (k : Nat) : indexToEndIterator k < -1 := by
  unfold indexToEndIterator
  omega

theorem endIteratorToIndex_indexToEndIterator (k : Nat) : endIteratorToIndex (indexToEndIterator k) = k := by
  unfold endIteratorToIndex indexToEndIterator
  omega

theorem consistent_empty : (empty : IteratorCache T).Consistent where
  inverse obj i := by simp [empty]
  tables t ei := by simp [empty]

variable {c c' : IteratorCache T}

theorem Consistent.cacheTable (consistent : c.Consistent) (tId : Nat) : (c.cacheTable tId).2.Consistent := by
  unfold IteratorCache.cacheTable
  split
  · exact consistent
  · rename_i absent
    refine ⟨consistent.inverse, fun t ei => ?_⟩
    dsimp only
    by_cases same : t = tId
    · subst same
      rw [AList.lookup_insert]
      -- the table had no slot, so the new slot is its only one
      constructor
      · rintro ⟨⟩
        exact ⟨_, by simp, rfl⟩
      · rintro ⟨k, slot, rfl⟩
        rw [getElem?_append_singleton] at slot
        split at slot
        · exact absurd ((consistent.tables t _).2 ⟨k, slot, rfl⟩) (by rw [absent]; simp)
        · split at slot
          · subst_vars
            rfl
          · cases slot
    · rw [AList.lookup_insert_ne same, consistent.tables]
      constructor
      · rintro ⟨k, slot, rfl⟩
        exact ⟨k, by rw [List.getElem?_append_left ((List.getElem?_eq_some_iff.1 slot).1)]; exact slot, rfl⟩
      · rintro ⟨k, slot, rfl⟩
        rw [getElem?_append_singleton] at slot
        split at slot
        · exact ⟨k, slot, rfl⟩
        · split at slot
          · exact absurd (Option.some.inj slot).symm same
          · cases slot

theorem Consistent.add (consistent : c.Consistent) (obj : T) : (c.add obj).2.Consistent := by
  unfold IteratorCache.add
  split
  · exact consistent
  · rename_i absent
    refine ⟨fun o i => ?_, consistent.tables⟩
    dsimp only
    rw [getElem?_append_singleton]
    by_cases same : o = obj
    · subst same
      rw [AList.lookup_insert]
      -- the object had no slot, so the new slot is its only one
      constructor
      · rintro ⟨⟩
        simp
      · intro slot
        split at slot
        · exact absurd ((consistent.inverse o i).2 slot) (by rw [absent]; simp)
        · split at slot
          · subst_vars
            rfl
          · cases slot
    · rw [AList.lookup_insert_ne same, consistent.inverse]
      constructor
      · intro slot
        rw [if_pos ((List.getElem?_eq_some_iff.1 slot).1)]
        exact slot
      · intro slot
        split at slot
        · exact slot
        · split at slot
          · exact absurd (Option.some.inj (Option.some.inj slot)).symm same
          · cases slot

theorem Consistent.remove (consistent : c.Consistent) {iterator : Int} (ok : c.remove iterator = .ok c') :
    c'.Consistent := by
  unfold IteratorCache.remove at ok
  split at ok
  · cases ok
  split at ok
  · cases ok
  split at ok
  · cases ok
  · cases ok
    exact consistent
  · rename_i obj live
    cases ok
    refine ⟨fun o i => ?_, consistent.tables⟩
    dsimp only
    rw [List.getElem?_set]
    by_cases same : o = obj
    · subst same
      rw [AList.lookup_erase]
      -- the object's one slot is the one emptied
      constructor
      · rintro ⟨⟩
      · intro slot
        split at slot
        · split at slot <;> cases slot
        · rename_i other
          have here := (consistent.inverse o _).2 live
          have there := (consistent.inverse o i).2 slot
          exact absurd (Option.some.inj (here.symm.trans there)) other
    · rw [AList.lookup_erase_ne same, consistent.inverse]
      constructor
      · intro slot
        split
        · rename_i emptied
          subst emptied
          exact absurd (Option.some.inj (Option.some.inj (live.symm.trans slot))).symm same
        · exact slot
      · intro slot
        split at slot
        · split at slot <;> cases slot
        · exact slot

/-! ### What the operations return -/

theorem get_eq_ok_iff {iterator : Int} {obj : T} :
    c.get iterator = .ok obj ↔ 0 ≤ iterator ∧ c.iteratorToObject[iterator.toNat]? = some (some obj) := by
  unfold IteratorCache.get
  split
  · subst_vars
    simp
  split
  · rename_i negative
    exact iff_of_false (by simp) fun ⟨nonneg, _⟩ => absurd nonneg (by omega)
  split <;> rename_i slot
  · simp [slot]
  · simp [slot]
  · simp [slot, pure, Except.pure]
    omega

theorem get_ofNat {i : Nat} {obj : T} : c.get i = .ok obj ↔ c.iteratorToObject[i]? = some (some obj) := by
  rw [get_eq_ok_iff]
  simp

/-- An object with a slot gets that slot back, and the cache stays as it is. -/
theorem add_of_live (consistent : c.Consistent) {i : Nat} {obj : T} (live : c.iteratorToObject[i]? = some (some obj)) :
    c.add obj = ((i : Int), c) := by
  unfold IteratorCache.add
  rw [(consistent.inverse obj i).2 live]

/-- `add` returns an iterator to the object. -/
theorem get_add (consistent : c.Consistent) (obj : T) : (c.add obj).2.get (c.add obj).1 = .ok obj := by
  unfold IteratorCache.add
  split
  · rename_i i found
    exact get_ofNat.2 ((consistent.inverse obj i).1 found)
  · exact get_ofNat.2 (by simp)

theorem add_nonneg (obj : T) : 0 ≤ (c.add obj).1 := by
  unfold IteratorCache.add
  split <;> simp

/-- `cache_table` returns the table's end iterator, which `get_end_iterator_by_table_id` then
gives and `find_table_by_end_iterator` inverts. -/
theorem getEndIteratorByTableId_cacheTable (tId : Nat) :
    (c.cacheTable tId).2.getEndIteratorByTableId tId = .ok (c.cacheTable tId).1 := by
  unfold IteratorCache.cacheTable
  split
  · rename_i ei found
    simp [getEndIteratorByTableId, found, pure, Except.pure]
  · simp [getEndIteratorByTableId, pure, Except.pure]

theorem findTableByEndIterator_of_lookup (consistent : c.Consistent) {tId : Nat} {ei : Int}
    (cached : c.tableCache.lookup tId = some ei) : c.findTableByEndIterator ei = .ok (some tId) := by
  obtain ⟨k, slot, rfl⟩ := (consistent.tables tId ei).1 cached
  unfold findTableByEndIterator
  rw [if_pos (indexToEndIterator_lt k), endIteratorToIndex_indexToEndIterator, slot]
  rfl

theorem lookup_cacheTable (tId : Nat) : (c.cacheTable tId).2.tableCache.lookup tId = some (c.cacheTable tId).1 := by
  unfold IteratorCache.cacheTable
  split
  · assumption
  · exact AList.lookup_insert _

/-- Every cached table has an end iterator below `-1`. -/
theorem Consistent.lookup_lt (consistent : c.Consistent) {tId : Nat} {ei : Int}
    (cached : c.tableCache.lookup tId = some ei) : ei < -1 := by
  obtain ⟨k, -, rfl⟩ := (consistent.tables tId ei).1 cached
  exact indexToEndIterator_lt k

theorem cacheTable_lt (consistent : c.Consistent) (tId : Nat) : (c.cacheTable tId).1 < -1 :=
  (consistent.cacheTable tId).lookup_lt (lookup_cacheTable tId)

theorem cacheTable_of_lookup {tId : Nat} {ei : Int} (cached : c.tableCache.lookup tId = some ei) :
    c.cacheTable tId = (ei, c) := by
  unfold IteratorCache.cacheTable
  rw [cached]

theorem getEndIteratorByTableId_of_lookup {tId : Nat} {ei : Int} (cached : c.tableCache.lookup tId = some ei) :
    c.getEndIteratorByTableId tId = .ok ei := by
  unfold getEndIteratorByTableId
  rw [cached]
  rfl

/-- A live slot after `add` was live before, or is the object's. -/
theorem live_of_add {obj o : T} {i : Nat} (slot : (c.add obj).2.iteratorToObject[i]? = some (some o)) :
    c.iteratorToObject[i]? = some (some o) ∨ o = obj := by
  unfold IteratorCache.add at slot
  split at slot
  · exact .inl slot
  · dsimp only at slot
    rw [getElem?_append_singleton] at slot
    split at slot
    · exact .inl slot
    · split at slot
      · exact .inr (Option.some.inj (Option.some.inj slot)).symm
      · cases slot

/-- Removing the iterator of a live object empties its slot and forgets the object. -/
theorem remove_of_get {iterator : Int} {obj : T} (got : c.get iterator = .ok obj) :
    c.remove iterator = .ok { c with
      iteratorToObject := c.iteratorToObject.set iterator.toNat none
      objectToIterator := c.objectToIterator.erase obj } := by
  obtain ⟨nonneg, slot⟩ := get_eq_ok_iff.1 got
  unfold IteratorCache.remove
  rw [if_neg (by omega), if_neg (by omega), slot]
  rfl

/-- A live slot after a removal was live before, and holds another object than the removed
one. -/
theorem live_of_remove (consistent : c.Consistent) {iterator : Int} {obj o : T} {i : Nat}
    (got : c.get iterator = .ok obj) (ok : c.remove iterator = .ok c')
    (slot : c'.iteratorToObject[i]? = some (some o)) : c.iteratorToObject[i]? = some (some o) ∧ o ≠ obj := by
  rw [remove_of_get got] at ok
  cases ok
  dsimp only at slot
  rw [List.getElem?_set] at slot
  split at slot
  · split at slot <;> cases slot
  · rename_i other
    refine ⟨slot, fun same => other ?_⟩
    subst same
    -- the object has one slot, and it is the removed iterator's
    have here := (consistent.inverse o _).2 (get_eq_ok_iff.1 got).2
    exact Option.some.inj (here.symm.trans ((consistent.inverse o i).2 slot))

theorem isSome_lookup_of_findTableByEndIterator (consistent : c.Consistent) {ei : Int} {tId : Nat}
    (found : c.findTableByEndIterator ei = .ok (some tId)) : (c.tableCache.lookup tId).isSome := by
  unfold findTableByEndIterator at found
  split at found
  · have slot : c.endIteratorToTable[endIteratorToIndex ei]? = some tId := Except.ok.inj found
    rw [(consistent.tables tId _).2 ⟨_, slot, rfl⟩]
    rfl
  · cases found

/-! ### What a later cache keeps -/

/-- What a later cache keeps of an earlier one: a slot is never given another object, only
emptied, and an emptied slot stays empty; cached tables keep their end iterators. -/
structure Keeps (c c' : IteratorCache T) : Prop where
  slots : ∀ (i : Nat) (x : Option T), c.iteratorToObject[i]? = some x →
    c'.iteratorToObject[i]? = some x ∨ c'.iteratorToObject[i]? = some none
  tables : ∀ (t : Nat) (ei : Int), c.tableCache.lookup t = some ei → c'.tableCache.lookup t = some ei

theorem Keeps.refl (c : IteratorCache T) : Keeps c c := ⟨fun _ _ slot => .inl slot, fun _ _ => id⟩

theorem Keeps.isSome_lookup (keeps : Keeps c c') {tId : Nat} (cached : (c.tableCache.lookup tId).isSome) :
    (c'.tableCache.lookup tId).isSome := by
  obtain ⟨ei, found⟩ := Option.isSome_iff_exists.1 cached
  rw [keeps.tables tId ei found]
  rfl

theorem Keeps.trans {c'' : IteratorCache T} (first : Keeps c c') (second : Keeps c' c'') : Keeps c c'' where
  slots i x slot := by
    rcases first.slots i x slot with kept | emptied
    · exact second.slots i x kept
    · exact .inr ((second.slots i none emptied).elim id id)
  tables t ei cached := second.tables t ei (first.tables t ei cached)

theorem keeps_cacheTable (tId : Nat) : Keeps c (c.cacheTable tId).2 := by
  unfold IteratorCache.cacheTable
  split
  · exact Keeps.refl c
  · rename_i absent
    refine ⟨fun _ _ slot => .inl slot, fun t ei cached => ?_⟩
    have other : t ≠ tId := by
      rintro rfl
      rw [absent] at cached
      cases cached
    exact (AList.lookup_insert_ne other).trans cached

theorem keeps_add (obj : T) : Keeps c (c.add obj).2 := by
  unfold IteratorCache.add
  split
  · exact Keeps.refl c
  · refine ⟨fun i x slot => .inl ?_, fun _ _ => id⟩
    exact (List.getElem?_append_left ((List.getElem?_eq_some_iff.1 slot).1)).trans slot

theorem keeps_remove {iterator : Int} (ok : c.remove iterator = .ok c') : Keeps c c' := by
  unfold IteratorCache.remove at ok
  split at ok
  · cases ok
  split at ok
  · cases ok
  split at ok
  · cases ok
  · cases ok
    exact Keeps.refl c
  · cases ok
    refine ⟨fun i x slot => ?_, fun _ _ => id⟩
    dsimp only
    rw [List.getElem?_set]
    split
    · rename_i same
      subst same
      rw [if_pos (List.getElem?_eq_some_iff.1 slot).1]
      exact .inr rfl
    · exact .inl slot

end IteratorCache

end Fio.Chain
