import FioChain.ContractTable.Iterators

/-! The iterator cache agrees with the database along every run of primary-key calls of one
action: `_object_to_iterator` inverts `_iterator_to_object` on the live slots, every live
iterator points at a primary row of the database whose table is cached, and each cached table
has the end iterator of its slot. No slot is ever given another object, an emptied slot stays
empty, and a cached table keeps its end iterator. -/

namespace Fio.Chain

open IteratorCache

theorem TableFor.rows {db db' : ContractDb} {tab : TableIdObject} (table : TableFor db tab db') :
    db'.rows = db.rows := by
  cases table <;> rfl

theorem RowKey.with_keyValue {obj : RowKey} (primary : obj.index = .keyValue) :
    { obj with index := .keyValue } = obj := by
  cases obj
  cases primary
  rfl

namespace ApplyContext

variable (ctx : ApplyContext) {db db' : ContractDb}

/-- `db_update_i64` rewrites a row in place: the keys stay. -/
theorem dbUpdateI64_keys {iterator : RowKey} {payer : Name} {buffer : List UInt8}
    (ok : ctx.dbUpdateI64 iterator payer buffer db = .ok db') : db'.rows.map Row.key = db.rows.map Row.key := by
  unfold dbUpdateI64 at ok
  obtain ⟨obj, -, ok⟩ := ExceptFold.bind_eq_ok ok
  obtain ⟨tableObj, -, ok⟩ := ExceptFold.bind_eq_ok ok
  dsimp only at ok
  split at ok
  · cases ok
  generalize (if payer = Name.empty then obj.payer else payer) = newPayer at ok
  -- billing leaves the rows, and the row is then rewritten in place
  have rewritten : ∀ db₁ : ContractDb, db₁.rows = db.rows →
      (db₁.modifyRow obj.key fun o => { o with value := buffer, payer := newPayer }).rows.map Row.key =
        db.rows.map Row.key := by
    intro db₁ rows
    dsimp only [ContractDb.modifyRow]
    rw [KeyedList.map_modify (g := fun o => { o with value := buffer, payer := newPayer }) Row.key
      fun _ _ => rfl, rows]
  split at ok
  · obtain ⟨db₁, refunded, ok⟩ := ExceptFold.bind_eq_ok ok
    obtain ⟨db₂, charged, ok⟩ := ExceptFold.bind_eq_ok ok
    cases ok
    apply rewritten
    rw [updateDbUsage_ok ctx charged, updateDbUsage_ok ctx refunded]
    rfl
  · split at ok
    · obtain ⟨db₁, charged, ok⟩ := ExceptFold.bind_eq_ok ok
      cases ok
      apply rewritten
      rw [updateDbUsage_ok ctx charged]
      rfl
    · cases ok
      exact rewritten _ rfl

/-- `db_remove_i64` removes the row the iterator names. -/
theorem dbRemoveI64_rows {iterator : RowKey} (ok : ctx.dbRemoveI64 iterator db = .ok db') :
    db'.rows = KeyedList.erase Row.key db.rows { iterator with index := .keyValue } := by
  unfold dbRemoveI64 at ok
  obtain ⟨obj, got, ok⟩ := ExceptFold.bind_eq_ok ok
  obtain ⟨-, key⟩ := getRow_ok got
  obtain ⟨tableObj, -, ok⟩ := ExceptFold.bind_eq_ok ok
  dsimp only at ok
  split at ok
  · cases ok
  obtain ⟨db₁, refunded, ok⟩ := ExceptFold.bind_eq_ok ok
  cases updateDbUsage_ok ctx refunded
  rw [← key]
  split at ok
  · rw [removeTable_ok ctx ok]
    rfl
  · cases ok
    rfl

end ApplyContext

namespace ApplyState

variable {ctx : ApplyContext} {s s' : ApplyState}

/-- The cache agrees with the database. -/
structure Inv (s : ApplyState) : Prop where
  keyed : s.db.Keyed
  consistent : s.keyvalCache.Consistent
  live : ∀ (i : Nat) (obj : RowKey), s.keyvalCache.iteratorToObject[i]? = some (some obj) →
    obj.index = .keyValue ∧ obj ∈ s.db.rows.map Row.key ∧ (s.keyvalCache.tableCache.lookup obj.tId).isSome

/-- A fresh `apply_context` has an empty cache. -/
theorem inv_initial {db : ContractDb} (keyed : db.Keyed) : Inv ⟨db, IteratorCache.empty⟩ where
  keyed := keyed
  consistent := consistent_empty
  live i obj slot := by simp [IteratorCache.empty] at slot

theorem mem_byScopePrimary {db : ContractDb} {r : Row} :
    r ∈ db.byScopePrimary ↔ r ∈ db.rows ∧ r.index = .keyValue := by
  rw [ContractDb.byScopePrimary, (SortedIndex.perm_sort _).mem_iff, List.mem_filter, decide_eq_true_iff]

theorem Inv.cacheTable (inv : s.Inv) (tId : Nat) :
    Inv { s with keyvalCache := (s.keyvalCache.cacheTable tId).2 } where
  keyed := inv.keyed
  consistent := inv.consistent.cacheTable tId
  live i obj slot := by
    obtain ⟨primary, present, cached⟩ := inv.live i obj (by simpa using slot)
    exact ⟨primary, present, (keeps_cacheTable tId).isSome_lookup cached⟩

/-- Adding an iterator to a primary row whose table is cached. -/
theorem Inv.add (inv : s.Inv) {r : Row} (mem : r ∈ s.db.byScopePrimary)
    (cached : (s.keyvalCache.tableCache.lookup r.tId).isSome) :
    Inv { s with keyvalCache := (s.keyvalCache.add r.key).2 } where
  keyed := inv.keyed
  consistent := inv.consistent.add r.key
  live i obj slot := by
    dsimp only
    rw [tableCache_add]
    rcases live_of_add slot with old | rfl
    · exact inv.live i obj old
    · obtain ⟨present, primary⟩ := mem_byScopePrimary.1 mem
      exact ⟨primary, List.mem_map_of_mem present, cached⟩

/-- The row a filtered position of the index names is a row of the index with that table. -/
theorem mem_of_filter {idx : List Row} {i tId : Nat} {r : Row} (picked : idx[i]?.filter (·.tId = tId) = some r) :
    r ∈ idx ∧ r.tId = tId := by
  obtain ⟨at_i, same⟩ := Option.filter_eq_some_iff.1 picked
  exact ⟨List.mem_of_getElem? at_i, by simpa using same⟩

/-- `keyval_cache.add(*itr)` of the row a navigating call found in a cached table. -/
theorem Inv.addRow (inv : s.Inv) {j tId : Nat} {r : Row}
    (picked : s.db.byScopePrimary[j]?.filter (·.tId = tId) = some r)
    (cached : (s.keyvalCache.tableCache.lookup tId).isSome) :
    (addRow r s).2.2.Inv ∧ Keeps s.keyvalCache (addRow r s).2.2.keyvalCache := by
  obtain ⟨mem, rfl⟩ := mem_of_filter picked
  exact ⟨inv.add mem cached, keeps_add r.key⟩

/-! ### One call -/

theorem Inv.dbEndI64 (inv : s.Inv) (code scope table : Name) :
    (s.dbEndI64 code scope table).2.Inv ∧ Keeps s.keyvalCache (s.dbEndI64 code scope table).2.keyvalCache := by
  unfold ApplyState.dbEndI64
  split
  · exact ⟨inv, Keeps.refl _⟩
  · exact ⟨inv.cacheTable _, keeps_cacheTable _⟩

theorem Inv.boundI64 (inv : s.Inv) (bound : List Row → Nat → UInt64 → Nat) (code scope table : Name) (id : UInt64) :
    (s.boundI64 bound code scope table id).2.Inv ∧
      Keeps s.keyvalCache (s.boundI64 bound code scope table id).2.keyvalCache := by
  unfold ApplyState.boundI64
  split
  · exact ⟨inv, Keeps.refl _⟩
  · rename_i tab _
    dsimp only
    split
    · exact ⟨inv.cacheTable tab.id, keeps_cacheTable _⟩
    · rename_i r picked
      obtain ⟨mem, same⟩ := mem_of_filter picked
      -- the table was cached just before
      have cached : ((s.keyvalCache.cacheTable tab.id).2.tableCache.lookup r.tId).isSome := by
        rw [same, lookup_cacheTable]
        rfl
      exact ⟨(inv.cacheTable tab.id).add mem cached, (keeps_cacheTable _).trans (keeps_add _)⟩

theorem Inv.dbFindI64 (inv : s.Inv) (code scope table : Name) (id : UInt64) :
    (s.dbFindI64 code scope table id).2.Inv ∧ Keeps s.keyvalCache (s.dbFindI64 code scope table id).2.keyvalCache := by
  unfold ApplyState.dbFindI64
  split
  · exact ⟨inv, Keeps.refl _⟩
  · rename_i tab _
    dsimp only
    split
    · exact ⟨inv.cacheTable tab.id, keeps_cacheTable _⟩
    · rename_i obj found
      obtain ⟨present, key⟩ := KeyedList.find_eq_some found
      have mem : obj ∈ s.db.byScopePrimary := mem_byScopePrimary.2 ⟨present, congrArg RowKey.index key⟩
      have cached : ((s.keyvalCache.cacheTable tab.id).2.tableCache.lookup obj.tId).isSome := by
        rw [show obj.tId = tab.id from congrArg RowKey.tId key, lookup_cacheTable]
        rfl
      exact ⟨(inv.cacheTable tab.id).add mem cached, (keeps_cacheTable _).trans (keeps_add _)⟩

theorem Inv.dbNextI64 (inv : s.Inv) {iterator : Int} {primary primary' : UInt64} {next : Int}
    (ok : s.dbNextI64 iterator primary = .ok (next, primary', s')) : s'.Inv ∧ Keeps s.keyvalCache s'.keyvalCache := by
  unfold ApplyState.dbNextI64 at ok
  split at ok
  · cases ok
    exact ⟨inv, Keeps.refl _⟩
  obtain ⟨obj, got, ok⟩ := ExceptFold.bind_eq_ok ok
  have live := inv.live _ obj (get_eq_ok_iff.1 got).2
  dsimp only at ok
  split at ok
  · rename_i r picked
    cases ok
    exact inv.addRow picked live.2.2
  · obtain ⟨ei, -, ok⟩ := ExceptFold.bind_eq_ok ok
    cases ok
    exact ⟨inv, Keeps.refl _⟩

theorem Inv.dbPreviousI64 (inv : s.Inv) {iterator : Int} {primary primary' : UInt64} {prev : Int}
    (ok : s.dbPreviousI64 iterator primary = .ok (prev, primary', s')) :
    s'.Inv ∧ Keeps s.keyvalCache s'.keyvalCache := by
  unfold ApplyState.dbPreviousI64 at ok
  dsimp only at ok
  split at ok
  · -- from an end iterator: the table is one the cache holds
    obtain ⟨found, located, ok⟩ := ExceptFold.bind_eq_ok ok
    split at ok
    · cases ok
    · rename_i tab
      have cached := isSome_lookup_of_findTableByEndIterator inv.consistent located
      split at ok
      · cases ok
        exact ⟨inv, Keeps.refl _⟩
      · split at ok
        · rename_i r picked
          cases ok
          exact inv.addRow picked cached
        · cases ok
          exact ⟨inv, Keeps.refl _⟩
  · obtain ⟨obj, got, ok⟩ := ExceptFold.bind_eq_ok ok
    have live := inv.live _ obj (get_eq_ok_iff.1 got).2
    split at ok
    · cases ok
      exact ⟨inv, Keeps.refl _⟩
    · split at ok
      · rename_i r picked
        cases ok
        exact inv.addRow picked live.2.2
      · cases ok
        exact ⟨inv, Keeps.refl _⟩

/-- The table `find_or_create_table` returned, the row stored under it, and the cache with the
table and the row's iterator. -/
theorem dbStoreI64_ok {code scope table payer : Name} {id : UInt64} {buffer : List UInt8} {it : Int}
    (ok : s.dbStoreI64 ctx code scope table payer id buffer = .ok (it, s')) :
    ∃ tab db₁, TableFor s.db tab db₁ ∧ KeyedList.find Row.key db₁.rows ⟨.keyValue, tab.id, id⟩ = none ∧
      s'.db = db₁.insertRow ⟨.keyValue, tab.id, id, payer, buffer, 0⟩ ∧
      s'.keyvalCache = ((s.keyvalCache.cacheTable tab.id).2.add ⟨.keyValue, tab.id, id⟩).2 ∧
      it = ((s.keyvalCache.cacheTable tab.id).2.add ⟨.keyValue, tab.id, id⟩).1 := by
  unfold ApplyState.dbStoreI64 at ok
  obtain ⟨⟨tab, db₁⟩, table, ok⟩ := ExceptFold.bind_eq_ok ok
  dsimp only at ok
  split at ok
  · cases ok
  obtain ⟨db₂, created, ok⟩ := ExceptFold.bind_eq_ok ok
  obtain ⟨absent, rfl⟩ := ApplyContext.createRow_ok created
  obtain ⟨db₃, billed, ok⟩ := ExceptFold.bind_eq_ok ok
  cases ApplyContext.updateDbUsage_ok ctx billed
  cases ok
  exact ⟨tab, db₁, ApplyContext.findOrCreateTable_ok ctx table, absent, rfl, rfl, rfl⟩

theorem Inv.dbStoreI64 (inv : s.Inv) {code scope table payer : Name} {id : UInt64} {buffer : List UInt8} {it : Int}
    (ok : s.dbStoreI64 ctx code scope table payer id buffer = .ok (it, s')) :
    s'.Inv ∧ Keeps s.keyvalCache s'.keyvalCache := by
  obtain ⟨tab, db₁, table, absent, stored, cache, -⟩ := dbStoreI64_ok ok
  have keyed := ((Effect.insert (r := ⟨.keyValue, tab.id, id, payer, buffer, 0⟩) table rfl absent).keyed_conserves
    inv.keyed).1
  -- the rows before, and the new one after them
  have rows : s'.db.rows = s.db.rows ++ [⟨.keyValue, tab.id, id, payer, buffer, 0⟩] := by
    rw [stored, ← table.rows]
    rfl
  refine ⟨⟨stored ▸ keyed, cache ▸ (inv.consistent.cacheTable _).add _, fun i obj slot => ?_⟩,
    cache ▸ (keeps_cacheTable _).trans (keeps_add _)⟩
  rw [cache] at slot ⊢
  rw [tableCache_add, rows, List.map_append]
  rcases live_of_add slot with old | rfl
  · obtain ⟨primary, present, cached⟩ := inv.live i obj (by simpa using old)
    exact ⟨primary, List.mem_append_left _ present, (keeps_cacheTable _).isSome_lookup cached⟩
  · refine ⟨rfl, List.mem_append_right _ (List.mem_singleton_self _), ?_⟩
    rw [lookup_cacheTable]
    rfl

theorem Inv.dbUpdateI64 (inv : s.Inv) {iterator : Int} {payer : Name} {buffer : List UInt8}
    (ok : s.dbUpdateI64 ctx iterator payer buffer = .ok s') : s'.Inv ∧ Keeps s.keyvalCache s'.keyvalCache := by
  unfold ApplyState.dbUpdateI64 at ok
  obtain ⟨obj, -, ok⟩ := ExceptFold.bind_eq_ok ok
  obtain ⟨_, -, ok⟩ := ExceptFold.bind_eq_ok ok
  obtain ⟨db, updated, ok⟩ := ExceptFold.bind_eq_ok ok
  cases ok
  have keys := ApplyContext.dbUpdateI64_keys ctx updated
  refine ⟨⟨((ctx.dbUpdateI64_effect updated).keyed_conserves inv.keyed).1, inv.consistent, fun i o slot => ?_⟩,
    Keeps.refl _⟩
  obtain ⟨primary, present, cached⟩ := inv.live i o slot
  exact ⟨primary, keys ▸ present, cached⟩

theorem Inv.dbRemoveI64 (inv : s.Inv) {iterator : Int} (ok : s.dbRemoveI64 ctx iterator = .ok s') :
    s'.Inv ∧ Keeps s.keyvalCache s'.keyvalCache := by
  unfold ApplyState.dbRemoveI64 at ok
  obtain ⟨obj, got, ok⟩ := ExceptFold.bind_eq_ok ok
  obtain ⟨_, -, ok⟩ := ExceptFold.bind_eq_ok ok
  obtain ⟨db, removed, ok⟩ := ExceptFold.bind_eq_ok ok
  obtain ⟨cache, emptied, ok⟩ := ExceptFold.bind_eq_ok ok
  cases ok
  have rows := ApplyContext.dbRemoveI64_rows ctx removed
  rw [RowKey.with_keyValue (inv.live _ obj (get_eq_ok_iff.1 got).2).1] at rows
  refine ⟨⟨((ctx.dbRemoveI64_effect removed).keyed_conserves inv.keyed).1, inv.consistent.remove emptied,
    fun i o slot => ?_⟩, keeps_remove emptied⟩
  -- the other live iterators name other rows, which stay
  obtain ⟨old, other⟩ := live_of_remove inv.consistent got emptied slot
  obtain ⟨primary, present, cached⟩ := inv.live i o old
  obtain ⟨r, mem, rfl⟩ := List.mem_map.1 present
  refine ⟨primary, ?_, (keeps_remove emptied).isSome_lookup cached⟩
  rw [rows]
  exact List.mem_map_of_mem (KeyedList.mem_erase.2 ⟨mem, other⟩)

/-! ### Runs of calls -/

/-- The primary-key calls that change what `apply_context` holds; `db_get_i64` only reads. -/
inductive KeyValueCall where
  | dbStoreI64 (code scope table payer : Name) (id : UInt64) (buffer : List UInt8)
  | dbUpdateI64 (iterator : Int) (payer : Name) (buffer : List UInt8)
  | dbRemoveI64 (iterator : Int)
  | dbNextI64 (iterator : Int) (primary : UInt64)
  | dbPreviousI64 (iterator : Int) (primary : UInt64)
  | dbFindI64 (code scope table : Name) (id : UInt64)
  | dbLowerboundI64 (code scope table : Name) (id : UInt64)
  | dbUpperboundI64 (code scope table : Name) (id : UInt64)
  | dbEndI64 (code scope table : Name)

/-- The state a call leaves when it returns normally. -/
def KeyValueCall.run (ctx : ApplyContext) : KeyValueCall → ApplyState → Except Exception ApplyState
  | dbStoreI64 code scope table payer id buffer, s => (s.dbStoreI64 ctx code scope table payer id buffer).map (·.2)
  | dbUpdateI64 iterator payer buffer, s => s.dbUpdateI64 ctx iterator payer buffer
  | dbRemoveI64 iterator, s => s.dbRemoveI64 ctx iterator
  | dbNextI64 iterator primary, s => (s.dbNextI64 iterator primary).map (·.2.2)
  | dbPreviousI64 iterator primary, s => (s.dbPreviousI64 iterator primary).map (·.2.2)
  | dbFindI64 code scope table id, s => pure (s.dbFindI64 code scope table id).2
  | dbLowerboundI64 code scope table id, s => pure (s.dbLowerboundI64 code scope table id).2
  | dbUpperboundI64 code scope table id, s => pure (s.dbUpperboundI64 code scope table id).2
  | dbEndI64 code scope table, s => pure (s.dbEndI64 code scope table).2

/-- `s'` is reached from `s` by calls of one action that all return normally. -/
inductive KeyValueCalls (ctx : ApplyContext) : ApplyState → ApplyState → Prop
  | refl (s : ApplyState) : KeyValueCalls ctx s s
  | step {s mid s' : ApplyState} (call : KeyValueCall) : call.run ctx s = .ok mid → KeyValueCalls ctx mid s' →
      KeyValueCalls ctx s s'

theorem Inv.run (inv : s.Inv) {call : KeyValueCall} (ok : call.run ctx s = .ok s') :
    s'.Inv ∧ Keeps s.keyvalCache s'.keyvalCache := by
  cases call with
  | dbStoreI64 =>
    obtain ⟨⟨it, mid⟩, stored, rfl⟩ := ExceptFold.map_eq_ok ok
    exact inv.dbStoreI64 stored
  | dbUpdateI64 => exact inv.dbUpdateI64 ok
  | dbRemoveI64 => exact inv.dbRemoveI64 ok
  | dbNextI64 =>
    obtain ⟨⟨next, primary, mid⟩, stepped, rfl⟩ := ExceptFold.map_eq_ok ok
    exact inv.dbNextI64 stepped
  | dbPreviousI64 =>
    obtain ⟨⟨prev, primary, mid⟩, stepped, rfl⟩ := ExceptFold.map_eq_ok ok
    exact inv.dbPreviousI64 stepped
  | dbFindI64 =>
    cases ok
    exact inv.dbFindI64 _ _ _ _
  | dbLowerboundI64 =>
    cases ok
    exact inv.boundI64 _ _ _ _ _
  | dbUpperboundI64 =>
    cases ok
    exact inv.boundI64 _ _ _ _ _
  | dbEndI64 =>
    cases ok
    exact inv.dbEndI64 _ _ _

/-- Along every run of primary-key calls of one action from a state where the cache agrees
with the database, it keeps agreeing: `_object_to_iterator` inverts `_iterator_to_object` on
the live slots, every live iterator names a primary row of the database whose table is cached,
and each cached table has the end iterator `-(k + 2)` of its slot `k`. No slot is given another
object, an emptied slot stays empty, and a cached table keeps its end iterator. -/
theorem keyval_cache_consistent {ctx : ApplyContext} {s s' : ApplyState} (inv : s.Inv)
    (run : KeyValueCalls ctx s s') : s'.Inv ∧ Keeps s.keyvalCache s'.keyvalCache := by
  induction run with
  | refl s => exact ⟨inv, Keeps.refl _⟩
  | step call ok _ ih =>
    obtain ⟨inv₁, first⟩ := inv.run ok
    obtain ⟨inv', rest⟩ := ih inv₁
    exact ⟨inv', first.trans rest⟩

/-- The owner stores a row with key 7 in a new table, finds it, and steps past it to the end. -/
theorem keyval_cache_consistent_store_find_next :
    ∃ s', KeyValueCalls ownerContext ⟨.empty, .empty⟩ s' ∧ s'.Inv ∧ Keeps IteratorCache.empty s'.keyvalCache :=
  have run : KeyValueCalls ownerContext ⟨.empty, .empty⟩ _ :=
    .step (.dbStoreI64 ⟨1⟩ ⟨1⟩ ⟨1⟩ ⟨1⟩ 7 [42]) rfl <| .step (.dbFindI64 ⟨1⟩ ⟨1⟩ ⟨1⟩ 7) rfl <|
      .step (.dbNextI64 0 0) rfl <| .refl _
  ⟨_, run, keyval_cache_consistent (inv_initial inv_empty.toKeyed) run⟩

end ApplyState

end Fio.Chain
