import FioChain.ContractTable.Effect

/-! The bookkeeping of the contract database over whole runs of table calls. RAM is
conserved by every run: each account's usage moves by exactly the change in the rows and
tables it pays for. The row count of every table matches its rows, and a table lives only
while it has rows, as long as no table reaches `2^32` rows: the count is a `uint32_t`, and
the store of the `2^32`-th row wraps it to zero. -/

namespace Fio.Chain

def Row.charge (account : Name) (r : Row) : Nat :=
  if r.payer = account then r.billableSize else 0

def TableIdObject.charge (account : Name) (t : TableIdObject) : Nat :=
  if t.payer = account then Config.billableSizeV tableIdObjectBillableSize else 0

namespace ContractDb

/-- The rows of the table with id `tId`, over the primary and every secondary index. -/
def rowCount (db : ContractDb) (tId : Nat) : Nat :=
  db.rows.countP fun r => r.tId = tId

/-- What `account` pays for: its rows with their values, and its tables. -/
def billed (db : ContractDb) (account : Name) : Nat :=
  (db.rows.map (Row.charge account)).sum + (db.tables.map (TableIdObject.charge account)).sum

/-- The unique keys of chainbase's indices, and the table ids it has handed out. -/
structure Keyed (db : ContractDb) : Prop where
  rowKeys : (db.rows.map Row.key).Nodup
  tableIds : (db.tables.map TableIdObject.id).Nodup
  issued : ∀ t ∈ db.tables, t.id < db.nextTableId

structure Inv (db : ContractDb) : Prop extends db.Keyed where
  rowsInTables : ∀ r ∈ db.rows, r.tId ∈ db.tables.map TableIdObject.id
  counted : ∀ t ∈ db.tables, t.count.toNat = db.rowCount t.id
  occupied : ∀ t ∈ db.tables, 0 < db.rowCount t.id

/-- The invariant, except that the table with id `tId` may have no rows: the state between
`find_or_create_table` and the row it is for, or between a row's removal and its table's. -/
structure InvApart (db : ContractDb) (tId : Nat) : Prop extends db.Keyed where
  rowsInTables : ∀ r ∈ db.rows, r.tId ∈ db.tables.map TableIdObject.id
  counted : ∀ t ∈ db.tables, t.count.toNat = db.rowCount t.id
  occupied : ∀ t ∈ db.tables, t.id ≠ tId → 0 < db.rowCount t.id

/-- Every table holds fewer rows than a `uint32_t` counts. -/
def Fits (db : ContractDb) : Prop :=
  ∀ t ∈ db.tables, db.rowCount t.id < 2 ^ 32

/-- Every account's usage moved by the change in what it pays for. -/
def Conserves (db db' : ContractDb) : Prop :=
  ∀ account, db'.ramUsage account - db.ramUsage account = (db'.billed account : Int) - db.billed account

theorem Conserves.trans {db mid db' : ContractDb} (first : Conserves db mid) (second : Conserves mid db') :
    Conserves db db' := by
  intro account
  have := first account
  have := second account
  omega

/-! ## The primitive updates -/

@[simp] theorem ramUsage_addRamUsage (db : ContractDb) (payer account : Name) (delta : Int) :
    (db.addRamUsage payer delta).ramUsage account = db.ramUsage account + if payer = account then delta else 0 := by
  by_cases same : payer = account
  · subst same
    simp [addRamUsage]
  · simp [addRamUsage, Ne.symm same, same]

@[simp] theorem rows_addRamUsage (db : ContractDb) (payer : Name) (delta : Int) :
    (db.addRamUsage payer delta).rows = db.rows := rfl

@[simp] theorem tables_addRamUsage (db : ContractDb) (payer : Name) (delta : Int) :
    (db.addRamUsage payer delta).tables = db.tables := rfl

@[simp] theorem nextTableId_addRamUsage (db : ContractDb) (payer : Name) (delta : Int) :
    (db.addRamUsage payer delta).nextTableId = db.nextTableId := rfl

@[simp] theorem rows_modifyCount (db : ContractDb) (tId : Nat) (g : UInt32 → UInt32) :
    (db.modifyCount tId g).rows = db.rows := rfl

@[simp] theorem nextTableId_modifyCount (db : ContractDb) (tId : Nat) (g : UInt32 → UInt32) :
    (db.modifyCount tId g).nextTableId = db.nextTableId := rfl

@[simp] theorem ramUsage_modifyCount (db : ContractDb) (tId : Nat) (g : UInt32 → UInt32) :
    (db.modifyCount tId g).ramUsage = db.ramUsage := rfl

theorem map_id_modifyCount (db : ContractDb) (tId : Nat) (g : UInt32 → UInt32) :
    (db.modifyCount tId g).tables.map TableIdObject.id = db.tables.map TableIdObject.id :=
  KeyedList.map_modify _ fun _ _ => rfl

theorem mem_modifyCount {db : ContractDb} {tId : Nat} {g : UInt32 → UInt32} {t : TableIdObject}
    (mem : t ∈ (db.modifyCount tId g).tables) :
    ∃ old ∈ db.tables, t.id = old.id ∧ t.payer = old.payer ∧
      t.count = if old.id = tId then g old.count else old.count := by
  obtain ⟨old, present, rfl⟩ := KeyedList.mem_modify mem
  refine ⟨old, present, ?_⟩
  by_cases hit : old.id = tId <;> simp [hit]

theorem billed_modifyCount (db : ContractDb) (tId : Nat) (g : UInt32 → UInt32) (account : Name) :
    (db.modifyCount tId g).billed account = db.billed account := by
  unfold billed modifyCount
  dsimp only
  rw [KeyedList.map_modify (TableIdObject.charge account)]
  -- the count is not part of the charge
  intro _ _
  rfl

theorem mem_modifyCount_self {db : ContractDb} {t : TableIdObject} (g : UInt32 → UInt32) (mem : t ∈ db.tables) :
    { t with count := g t.count } ∈ (db.modifyCount t.id g).tables :=
  List.mem_map.mpr ⟨t, mem, by simp⟩

theorem rowCount_modifyCount (db : ContractDb) (tId : Nat) (g : UInt32 → UInt32) :
    (db.modifyCount tId g).rowCount = db.rowCount := rfl

theorem rowCount_addRamUsage (db : ContractDb) (payer : Name) (delta : Int) :
    (db.addRamUsage payer delta).rowCount = db.rowCount := rfl

theorem billed_addRamUsage (db : ContractDb) (payer : Name) (delta : Int) :
    (db.addRamUsage payer delta).billed = db.billed := rfl

theorem billed_appendRow (db : ContractDb) (r : Row) (account : Name) :
    { db with rows := db.rows ++ [r] }.billed account = db.billed account + r.charge account := by
  simp only [billed, List.map_append, List.sum_append, List.map_singleton, List.sum_singleton]
  omega

theorem rowCount_appendRow (db : ContractDb) (r : Row) (tId : Nat) :
    { db with rows := db.rows ++ [r] }.rowCount tId = db.rowCount tId + if r.tId = tId then 1 else 0 := by
  simp only [rowCount, List.countP_append, List.countP_singleton, decide_eq_true_eq]

theorem billed_removeRow {db : ContractDb} {r : Row} (keys : (db.rows.map Row.key).Nodup) (mem : r ∈ db.rows)
    (account : Name) : (db.removeRow r.key).billed account + r.charge account = db.billed account := by
  have split := KeyedList.sum_erase (Row.charge account) keys mem
  simp only [billed, removeRow] at split ⊢
  omega

theorem rowCount_removeRow {db : ContractDb} {r : Row} (keys : (db.rows.map Row.key).Nodup) (mem : r ∈ db.rows)
    (tId : Nat) : (db.removeRow r.key).rowCount tId + (if r.tId = tId then 1 else 0) = db.rowCount tId := by
  have split := KeyedList.countP_erase (fun x : Row => decide (x.tId = tId)) keys mem
  simp only [rowCount, removeRow, decide_eq_true_eq] at split ⊢
  omega

theorem billed_modifyRow {db : ContractDb} {r : Row} {g : Row → Row} (keys : (db.rows.map Row.key).Nodup)
    (mem : r ∈ db.rows) (account : Name) :
    (db.modifyRow r.key g).billed account + r.charge account = db.billed account + (g r).charge account := by
  have split := KeyedList.sum_modify (Row.charge account) (g := g) keys mem
  simp only [billed, modifyRow] at split ⊢
  omega

theorem rowCount_modifyRow {db : ContractDb} {key : RowKey} {g : Row → Row} (keeps : ∀ x, (g x).key = x.key) :
    (db.modifyRow key g).rowCount = db.rowCount := by
  funext tId
  apply KeyedList.countP_modify
  intro x
  -- the key holds the table id
  have same : (g x).tId = x.tId := congrArg RowKey.tId (keeps x)
  rw [same]

theorem billed_eraseTable {db : ContractDb} {t : TableIdObject} (ids : (db.tables.map TableIdObject.id).Nodup)
    (mem : t ∈ db.tables) (account : Name) :
    { db with tables := KeyedList.erase TableIdObject.id db.tables t.id }.billed account + t.charge account =
      db.billed account := by
  have split := KeyedList.sum_erase (TableIdObject.charge account) ids mem
  simp only [billed] at split ⊢
  omega

/-! ## The three effects, one at a time -/

section Effects

variable {db : ContractDb} {r : Row} {t : TableIdObject}

theorem conserves_createTable : Conserves db (db.createTable t) := by
  intro account
  simp only [createTable, billed, List.map_append, List.sum_append, List.map_singleton, List.sum_singleton]
  rw [ramUsage_addRamUsage]
  unfold TableIdObject.charge
  split <;> simp [addRamUsage, *]

theorem conserves_insertRow : Conserves db (db.insertRow r) := by
  intro account
  have billedAfter : (db.insertRow r).billed account = db.billed account + r.charge account := by
    rw [insertRow, billed_addRamUsage, billed_modifyCount, billed_appendRow]
  rw [billedAfter, insertRow, ramUsage_addRamUsage, ramUsage_modifyCount]
  unfold Row.charge
  split <;> simp [*]

theorem conserves_dropRow (keyed : db.Keyed) (mem : r ∈ db.rows) : Conserves db (db.dropRow r t) := by
  intro account
  have billedAfter : (db.dropRow r t).billed account + r.charge account = db.billed account := by
    have := @billed_removeRow ((db.addRamUsage r.payer (-(r.billableSize : Int))).modifyCount t.id (· - 1)) r
      keyed.rowKeys mem account
    rwa [billed_modifyCount, billed_addRamUsage] at this
  have usageAfter : (db.dropRow r t).ramUsage account =
      db.ramUsage account + if r.payer = account then -(r.billableSize : Int) else 0 := by
    simp [dropRow, removeRow]
  rw [usageAfter]
  unfold Row.charge at billedAfter
  by_cases pays : r.payer = account
  · rw [if_pos pays] at billedAfter ⊢
    omega
  · rw [if_neg pays] at billedAfter ⊢
    omega

/-- `remove_table` refunds and removes the table with `t`'s id, which the database holds
as `current`: `t` as it was read, before its count went down. -/
theorem conserves_dropTable {current : TableIdObject} (ids : (db.tables.map TableIdObject.id).Nodup)
    (mem : current ∈ db.tables) (sameId : current.id = t.id) (samePayer : current.payer = t.payer) :
    Conserves db (db.dropTable t) := by
  intro account
  have billedAfter := billed_eraseTable ids mem account
  rw [sameId] at billedAfter
  have usageAfter : (db.dropTable t).ramUsage account = db.ramUsage account +
      if t.payer = account then -(Config.billableSizeV tableIdObjectBillableSize : Int) else 0 := by
    simp [dropTable]
  have billedSame : (db.dropTable t).billed account =
      { db with tables := KeyedList.erase TableIdObject.id db.tables t.id }.billed account := rfl
  rw [usageAfter, billedSame]
  unfold TableIdObject.charge at billedAfter
  rw [samePayer] at billedAfter
  by_cases pays : t.payer = account
  · rw [if_pos pays] at billedAfter ⊢
    omega
  · rw [if_neg pays] at billedAfter ⊢
    omega

theorem conserves_deleteRow (keyed : db.Keyed) (mem : r ∈ db.rows) (present : t ∈ db.tables) :
    Conserves db (db.deleteRow r t) := by
  unfold deleteRow
  split
  · -- the count found the table empty: it goes too, as its count-modified self
    have ids : ((db.dropRow r t).tables.map TableIdObject.id).Nodup := by
      rw [dropRow, removeRow, map_id_modifyCount]
      exact keyed.tableIds
    exact (conserves_dropRow keyed mem).trans
      (conserves_dropTable ids (mem_modifyCount_self (· - 1) present) rfl rfl)
  · exact conserves_dropRow keyed mem

theorem conserves_rewriteRow {g : Row → Row} (keyed : db.Keyed) (mem : r ∈ db.rows) :
    Conserves db (db.rewriteRow r g) := by
  intro account
  have billedAfter : (db.rewriteRow r g).billed account + r.charge account =
      db.billed account + (g r).charge account := by
    have := @billed_modifyRow ((db.addRamUsage r.payer (-(r.billableSize : Int))).addRamUsage (g r).payer
      ((g r).billableSize : Int)) r g keyed.rowKeys mem account
    rwa [billed_addRamUsage, billed_addRamUsage] at this
  have usageAfter : (db.rewriteRow r g).ramUsage account = db.ramUsage account +
      (if r.payer = account then -(r.billableSize : Int) else 0) +
        if (g r).payer = account then ((g r).billableSize : Int) else 0 := by
    simp [rewriteRow, modifyRow]
  rw [usageAfter]
  unfold Row.charge at billedAfter
  -- the old and the new payer may each be the account or not
  by_cases old : r.payer = account <;> by_cases new : (g r).payer = account <;>
    simp only [old, new, if_true, if_false] at billedAfter ⊢ <;> omega

/-! ## Keys -/

theorem keyed_createTable (keyed : db.Keyed) (fresh : t.id = db.nextTableId) : (db.createTable t).Keyed where
  rowKeys := keyed.rowKeys
  tableIds := by
    apply KeyedList.nodup_append_of_find keyed.tableIds
    rw [KeyedList.find_eq_none]
    intro old mem same
    have := keyed.issued old mem
    omega
  issued := by
    intro old mem
    rcases List.mem_append.mp mem with mem | single
    · have := keyed.issued old mem
      simp only [createTable]
      omega
    · rw [List.mem_singleton.mp single, fresh]
      simp [createTable]

theorem keyed_insertRow (keyed : db.Keyed) (absent : KeyedList.find Row.key db.rows r.key = none) :
    (db.insertRow r).Keyed where
  rowKeys := KeyedList.nodup_append_of_find keyed.rowKeys absent
  tableIds := by
    rw [insertRow, tables_addRamUsage, map_id_modifyCount]
    exact keyed.tableIds
  issued := by
    intro t mem
    have mem : t ∈ ({ db with rows := db.rows ++ [r] }.modifyCount r.tId (· + 1)).tables := mem
    obtain ⟨old, present, sameId, -⟩ := mem_modifyCount mem
    rw [sameId]
    exact keyed.issued old present

theorem keyed_dropRow (keyed : db.Keyed) : (db.dropRow r t).Keyed where
  rowKeys := KeyedList.nodup_erase keyed.rowKeys
  tableIds := by
    rw [dropRow, removeRow, map_id_modifyCount]
    exact keyed.tableIds
  issued := by
    intro current mem
    have mem : current ∈ ((db.addRamUsage r.payer (-(r.billableSize : Int))).modifyCount t.id (· - 1)).tables :=
      mem
    obtain ⟨old, present, sameId, -⟩ := mem_modifyCount mem
    rw [sameId]
    exact keyed.issued old present

theorem keyed_dropTable (keyed : db.Keyed) : (db.dropTable t).Keyed where
  rowKeys := keyed.rowKeys
  tableIds := KeyedList.nodup_erase keyed.tableIds
  issued := fun current mem => keyed.issued current (KeyedList.mem_erase.mp mem).1

theorem keyed_rewriteRow {g : Row → Row} (keeps : ∀ x, (g x).key = x.key) (keyed : db.Keyed) :
    (db.rewriteRow r g).Keyed where
  rowKeys := KeyedList.nodup_modify keeps keyed.rowKeys
  tableIds := keyed.tableIds
  issued := keyed.issued

theorem Conserves.refl (db : ContractDb) : Conserves db db := by
  intro account
  omega

theorem keyed_deleteRow (keyed : db.Keyed) : (db.deleteRow r t).Keyed := by
  unfold deleteRow
  split
  · exact keyed_dropTable (keyed_dropRow keyed)
  · exact keyed_dropRow keyed

/-! ## Counts -/

theorem toNat_add_one_of_lt {c : UInt32} (fits : c.toNat + 1 < 2 ^ 32) : (c + 1).toNat = c.toNat + 1 := by
  rw [UInt32.toNat_add]
  simp only [UInt32.toNat_one]
  omega

theorem toNat_sub_one_of_pos {c : UInt32} (pos : 0 < c.toNat) : (c - 1).toNat = c.toNat - 1 := by
  rw [UInt32.toNat_sub_of_le]
  · rfl
  · rw [UInt32.le_iff_toNat_le, UInt32.toNat_one]
    exact pos

theorem rowCount_eq_zero_of_issued (inv : db.InvApart tId) :
    db.rowCount db.nextTableId = 0 := by
  rw [rowCount, List.countP_eq_zero]
  intro r mem same
  obtain ⟨t, present, sameId⟩ := List.mem_map.mp (inv.rowsInTables r mem)
  have := inv.issued t present
  simp only [decide_eq_true_eq] at same
  omega

theorem Inv.invApart (inv : db.Inv) (tId : Nat) : db.InvApart tId where
  toKeyed := inv.toKeyed
  rowsInTables := inv.rowsInTables
  counted := inv.counted
  occupied := fun t mem _ => inv.occupied t mem

theorem InvApart.inv (apart : db.InvApart tId) (occupied : ∀ t ∈ db.tables, t.id = tId → 0 < db.rowCount tId) :
    db.Inv where
  toKeyed := apart.toKeyed
  rowsInTables := apart.rowsInTables
  counted := apart.counted
  occupied := by
    intro t mem
    by_cases same : t.id = tId
    · rw [same]
      exact occupied t mem same
    · exact apart.occupied t mem same

theorem invApart_createTable (inv : db.Inv) (fresh : t.id = db.nextTableId) (empty : t.count = 0) :
    (db.createTable t).InvApart t.id where
  toKeyed := keyed_createTable inv.toKeyed fresh
  rowsInTables := by
    intro r mem
    simp only [createTable, List.map_append]
    exact List.mem_append_left _ (inv.rowsInTables r mem)
  counted := by
    intro current mem
    have rows : (db.createTable t).rowCount = db.rowCount := rfl
    rw [rows]
    rcases List.mem_append.mp mem with mem | single
    · exact inv.counted current mem
    · -- the new table: no row has its id yet
      rw [List.mem_singleton.mp single, empty, fresh, rowCount_eq_zero_of_issued (inv.invApart 0)]
      rfl
  occupied := by
    intro current mem other
    rcases List.mem_append.mp mem with mem | single
    · exact inv.occupied current mem
    · exact absurd (congrArg TableIdObject.id (List.mem_singleton.mp single)) other

theorem inv_insertRow {tab : TableIdObject} (apart : db.InvApart tab.id)
    (mem : tab.id ∈ db.tables.map TableIdObject.id) (tId : r.tId = tab.id)
    (absent : KeyedList.find Row.key db.rows r.key = none) (fits : (db.insertRow r).Fits) :
    (db.insertRow r).Inv where
  toKeyed := keyed_insertRow apart.toKeyed absent
  rowsInTables := by
    intro row present
    rw [insertRow, tables_addRamUsage, map_id_modifyCount]
    rcases List.mem_append.mp present with old | single
    · exact apart.rowsInTables row old
    · rw [List.mem_singleton.mp single, tId]
      exact mem
  counted := by
    intro current present
    have present : current ∈ ({ db with rows := db.rows ++ [r] }.modifyCount r.tId (· + 1)).tables := present
    obtain ⟨old, oldMem, sameId, -, sameCount⟩ := mem_modifyCount present
    have rows : (db.insertRow r).rowCount = { db with rows := db.rows ++ [r] }.rowCount := rfl
    have bound := fits current present
    have before := apart.counted old oldMem
    rw [rows, rowCount_appendRow, sameId] at bound ⊢
    rw [sameCount]
    -- only the table the row went into counts one more
    by_cases hit : r.tId = old.id
    · rw [if_pos hit.symm, if_pos hit] at ⊢
      rw [if_pos hit] at bound
      rw [toNat_add_one_of_lt (by omega), before]
    · rw [if_neg (Ne.symm hit), if_neg hit, before, Nat.add_zero]
  occupied := by
    intro current present
    have present : current ∈ ({ db with rows := db.rows ++ [r] }.modifyCount r.tId (· + 1)).tables := present
    obtain ⟨old, oldMem, sameId, -, -⟩ := mem_modifyCount present
    have rows : (db.insertRow r).rowCount = { db with rows := db.rows ++ [r] }.rowCount := rfl
    rw [rows, rowCount_appendRow, sameId]
    by_cases hit : r.tId = old.id
    · rw [if_pos hit]
      omega
    · have := apart.occupied old oldMem (by rw [← tId]; exact Ne.symm hit)
      omega

theorem invApart_dropRow (inv : db.Inv) (mem : r ∈ db.rows)
    (found : KeyedList.find TableIdObject.id db.tables r.tId = some t) : (db.dropRow r t).InvApart t.id where
  toKeyed := keyed_dropRow inv.toKeyed
  rowsInTables := by
    intro row present
    rw [dropRow, removeRow, map_id_modifyCount]
    exact inv.rowsInTables row (KeyedList.mem_erase.mp present).1
  counted := by
    intro current present
    have present : current ∈ ((db.addRamUsage r.payer (-(r.billableSize : Int))).modifyCount t.id (· - 1)).tables :=
      present
    obtain ⟨old, oldMem, sameId, -, sameCount⟩ := mem_modifyCount present
    obtain ⟨tMem, tId⟩ := KeyedList.find_eq_some found
    have gone := @rowCount_removeRow ((db.addRamUsage r.payer (-(r.billableSize : Int))).modifyCount t.id (· - 1)) r
      inv.rowKeys mem old.id
    have before := inv.counted old oldMem
    have rows : (db.dropRow r t).rowCount = (((db.addRamUsage r.payer (-(r.billableSize : Int))).modifyCount t.id
      (· - 1)).removeRow r.key).rowCount := rfl
    rw [rows, sameId, sameCount]
    rw [rowCount_modifyCount, rowCount_addRamUsage] at gone
    by_cases hit : old.id = t.id
    · -- the row's own table, which is `t` since ids are unique
      have same : old = t := by
        have := KeyedList.find_of_mem inv.tableIds oldMem
        rw [hit, tId, found] at this
        exact (Option.some.inj this).symm
      subst same
      rw [if_pos tId.symm] at gone
      rw [if_pos rfl, toNat_sub_one_of_pos (by omega)]
      omega
    · rw [if_neg (by rw [← tId]; exact Ne.symm hit)] at gone
      rw [if_neg hit]
      omega
  occupied := by
    intro current present other
    have present : current ∈ ((db.addRamUsage r.payer (-(r.billableSize : Int))).modifyCount t.id (· - 1)).tables :=
      present
    obtain ⟨old, oldMem, sameId, -, -⟩ := mem_modifyCount present
    obtain ⟨-, tId⟩ := KeyedList.find_eq_some found
    have gone := @rowCount_removeRow ((db.addRamUsage r.payer (-(r.billableSize : Int))).modifyCount t.id (· - 1)) r
      inv.rowKeys mem old.id
    rw [rowCount_modifyCount, rowCount_addRamUsage] at gone
    rw [sameId] at other ⊢
    have := inv.occupied old oldMem
    rw [if_neg (by rw [← tId]; exact Ne.symm other)] at gone
    have rows : (db.dropRow r t).rowCount = (((db.addRamUsage r.payer (-(r.billableSize : Int))).modifyCount t.id
      (· - 1)).removeRow r.key).rowCount := rfl
    rw [rows]
    omega

theorem inv_dropTable (apart : db.InvApart t.id) (empty : db.rowCount t.id = 0) : (db.dropTable t).Inv where
  toKeyed := keyed_dropTable apart.toKeyed
  rowsInTables := by
    intro r mem
    -- no row is left under the dropped table
    have other : r.tId ≠ t.id := by
      intro same
      have : 0 < db.rowCount t.id := List.countP_pos_iff.mpr ⟨r, mem, by simpa using same⟩
      omega
    obtain ⟨current, present, sameId⟩ := List.mem_map.mp (apart.rowsInTables r mem)
    exact List.mem_map.mpr ⟨current, KeyedList.mem_erase.mpr ⟨present, sameId ▸ Ne.symm (Ne.symm other)⟩, sameId⟩
  counted := fun current mem => apart.counted current (KeyedList.mem_erase.mp mem).1
  occupied := fun current mem => apart.occupied current (KeyedList.mem_erase.mp mem).1 (KeyedList.mem_erase.mp mem).2

theorem inv_rewriteRow {g : Row → Row} (keeps : ∀ x, (g x).key = x.key) (inv : db.Inv) : (db.rewriteRow r g).Inv := by
  have rows : (db.rewriteRow r g).rowCount = db.rowCount := rowCount_modifyRow keeps
  refine ⟨keyed_rewriteRow keeps inv.toKeyed, ?_, ?_, ?_⟩
  · intro row present
    obtain ⟨old, oldMem, rfl⟩ := KeyedList.mem_modify present
    have sameTId : (if old.key = r.key then g old else old).tId = old.tId := by
      split
      · exact congrArg RowKey.tId (keeps old)
      · rfl
    rw [sameTId]
    exact inv.rowsInTables old oldMem
  · intro t mem
    rw [rows]
    exact inv.counted t mem
  · intro t mem
    rw [rows]
    exact inv.occupied t mem

end Effects

end ContractDb

open ContractDb

/-! ## One effect, then a run -/

section Runs

variable {db db' : ContractDb}

theorem TableFor.keyed_conserves {tab : TableIdObject} (keyed : db.Keyed) (table : TableFor db tab db') :
    db'.Keyed ∧ Conserves db db' := by
  cases table with
  | found _ => exact ⟨keyed, Conserves.refl db⟩
  | created fresh _ => exact ⟨keyed_createTable keyed fresh, conserves_createTable⟩

theorem TableFor.invApart {tab : TableIdObject} (inv : db.Inv) (table : TableFor db tab db') :
    db'.InvApart tab.id ∧ tab.id ∈ db'.tables.map TableIdObject.id := by
  cases table with
  | found present => exact ⟨inv.invApart tab.id, List.mem_map_of_mem present⟩
  | created fresh empty =>
    exact ⟨invApart_createTable inv fresh empty,
      List.mem_map_of_mem (List.mem_append_right _ (List.mem_singleton_self tab))⟩

theorem Effect.keyed_conserves (keyed : db.Keyed) (effect : Effect db db') : db'.Keyed ∧ Conserves db db' := by
  cases effect with
  | insert table _ absent =>
    obtain ⟨keyed₁, first⟩ := table.keyed_conserves keyed
    exact ⟨keyed_insertRow keyed₁ absent, first.trans conserves_insertRow⟩
  | delete mem found =>
    exact ⟨keyed_deleteRow keyed, conserves_deleteRow keyed mem (KeyedList.find_eq_some found).1⟩
  | rewrite mem keeps => exact ⟨keyed_rewriteRow keeps keyed, conserves_rewriteRow keyed mem⟩

/-- One effect keeps the counts right, unless it leaves a table with `2^32` rows. -/
theorem Effect.inv (inv : db.Inv) (effect : Effect db db') (fits : db'.Fits) : db'.Inv := by
  cases effect with
  | insert table tId absent =>
    obtain ⟨apart, mem⟩ := table.invApart inv
    exact inv_insertRow apart mem tId absent fits
  | @delete r t mem found =>
    have apart := invApart_dropRow inv mem found
    -- the count of `t`, one lower now, tells whether its last row went
    have counted := apart.counted _ (mem_modifyCount_self (· - 1) (KeyedList.find_eq_some found).1)
    unfold deleteRow
    split
    · rename_i emptied
      apply inv_dropTable apart
      rw [← counted]
      simp [emptied]
    · rename_i kept
      apply apart.inv
      intro _ _ _
      have remains : (t.count - 1).toNat ≠ 0 := fun zero => kept (UInt32.toNat_inj.mp zero)
      rw [← counted]
      exact Nat.pos_of_ne_zero remains
  | rewrite _ keeps => exact inv_rewriteRow keeps inv

end Runs

/-- `db'` is reached from `db` by table calls of one action that all return normally, each
leaving a database that satisfies `within`. -/
inductive TableCalls (ctx : ApplyContext) (within : ContractDb → Prop) : ContractDb → ContractDb → Prop
  | refl (db : ContractDb) : TableCalls ctx within db db
  | step {db mid db' : ContractDb} (op : DbOperation) : op.run ctx db = .ok mid → within mid →
      TableCalls ctx within mid db' → TableCalls ctx within db db'

namespace TableCalls

variable {ctx : ApplyContext} {within : ContractDb → Prop} {db db' : ContractDb}

/-- A run that keeps one side condition is a run with none. -/
theorem weaken (run : TableCalls ctx within db db') : TableCalls ctx (fun _ => True) db db' := by
  induction run with
  | refl db => exact .refl db
  | step op ok _ _ ih => exact .step op ok trivial ih

theorem keyed_conserves (keyed : db.Keyed) (run : TableCalls ctx within db db') : db'.Keyed ∧ Conserves db db' := by
  induction run with
  | refl db => exact ⟨keyed, Conserves.refl db⟩
  | step op ok _ _ ih =>
    obtain ⟨keyed₁, first⟩ := (DbOperation.run_effect ok).keyed_conserves keyed
    obtain ⟨keyed', rest⟩ := ih keyed₁
    exact ⟨keyed', first.trans rest⟩

theorem inv (inv : db.Inv) (run : TableCalls ctx Fits db db') : db'.Inv := by
  induction run with
  | refl => exact inv
  | step op ok fits _ ih => exact ih ((DbOperation.run_effect ok).inv inv fits)

end TableCalls

/-- RAM is conserved by every run of table calls; the row counts are right, and every table
has rows, after every run in which no table reaches `2^32` rows. -/
theorem contract_table_bookkeeping {ctx : ApplyContext} {db db' : ContractDb} (inv : db.Inv) :
    (TableCalls ctx (fun _ => True) db db' → ∀ account,
      db'.ramUsage account - db.ramUsage account = (db'.billed account : Int) - db.billed account) ∧
    (TableCalls ctx Fits db db' → ∀ t ∈ db'.tables, t.count.toNat = db'.rowCount t.id ∧ 0 < t.count.toNat) := by
  constructor
  · intro run
    exact (run.keyed_conserves inv.toKeyed).2
  · intro run t mem
    have inv' := run.inv inv
    have counted := inv'.counted t mem
    exact ⟨counted, counted ▸ inv'.occupied t mem⟩

/-- The contract database of a chain with no contract tables yet. -/
def ContractDb.empty : ContractDb := ⟨[], [], 0, fun _ => 0⟩

/-- A contract's own action on its own tables. -/
def ownerContext : ApplyContext := ⟨⟨1⟩, ⟨1⟩, false, false, false, []⟩

theorem inv_empty : ContractDb.empty.Inv where
  rowKeys := List.nodup_nil
  tableIds := List.nodup_nil
  issued := fun _ absent => absurd absent List.not_mem_nil
  rowsInTables := fun _ absent => absurd absent List.not_mem_nil
  counted := fun _ absent => absurd absent List.not_mem_nil
  occupied := fun _ absent => absurd absent List.not_mem_nil

/-- The owner stores the rows 1 and 2, rewrites row 1 with a longer value and removes row 2,
one table throughout. -/
theorem contract_table_bookkeeping_store_update_remove :
    ∃ db', TableCalls ownerContext Fits .empty db' ∧ ContractDb.empty.Inv ∧
      (∀ account, db'.ramUsage account - ContractDb.empty.ramUsage account =
        (db'.billed account : Int) - ContractDb.empty.billed account) ∧
      ∀ t ∈ db'.tables, t.count.toNat = db'.rowCount t.id ∧ 0 < t.count.toNat :=
  have run : TableCalls ownerContext Fits .empty _ :=
    .step (.dbStoreI64 ⟨1⟩ ⟨1⟩ ⟨1⟩ ⟨1⟩ 1 [7]) rfl (by unfold Fits; decide) <|
      .step (.dbStoreI64 ⟨1⟩ ⟨1⟩ ⟨1⟩ ⟨1⟩ 2 [8, 9]) rfl (by unfold Fits; decide) <|
      .step (.dbUpdateI64 ⟨.keyValue, 0, 1⟩ ⟨1⟩ [5, 5, 5]) rfl (by unfold Fits; decide) <|
      .step (.dbRemoveI64 ⟨.keyValue, 0, 2⟩) rfl (by unfold Fits; decide) <| .refl _
  ⟨_, run, inv_empty, (contract_table_bookkeeping inv_empty).1 run.weaken,
    (contract_table_bookkeeping inv_empty).2 run⟩

/-- A table of the owner's that holds `2^32 - 1` rows, its count at the top of `uint32_t`. -/
def fullTable : TableIdObject := ⟨0, ⟨1⟩, ⟨1⟩, ⟨1⟩, ⟨1⟩, 4294967295⟩

def fullRow (n : Nat) : Row := ⟨.keyValue, 0, n.toUInt64, ⟨1⟩, [], 0⟩

def fullDb : ContractDb := ⟨[fullTable], (List.range' 0 4294967295).map fullRow, 1, fun _ => 0⟩

theorem toNat_primaryKey_fullRow {n : Nat} (small : n < 4294967295) : (fullRow n).primaryKey.toNat = n := by
  simp only [fullRow, Nat.toUInt64_eq, UInt64.toNat_ofNat']
  omega

theorem rowCount_fullDb : fullDb.rowCount 0 = 4294967295 := by
  rw [rowCount, List.countP_eq_length.mpr]
  · show ((List.range' 0 4294967295).map fullRow).length = 4294967295
    rw [List.length_map, List.length_range']
  · intro r mem
    obtain ⟨n, -, rfl⟩ := List.mem_map.mp mem
    simp [fullRow]

theorem inv_fullDb : fullDb.Inv where
  rowKeys := by
    rw [fullDb, List.map_map]
    apply List.Nodup.map_on _ (List.nodup_range' 1)
    intro m small n small' same
    have keys := congrArg (fun key : RowKey => key.primaryKey.toNat) same
    simp only [Function.comp, Row.key] at keys
    rw [toNat_primaryKey_fullRow (List.mem_range'_1.mp small).2,
      toNat_primaryKey_fullRow (List.mem_range'_1.mp small').2] at keys
    exact keys
  tableIds := by simp [fullDb]
  issued := by simp [fullDb, fullTable]
  rowsInTables := by
    intro r mem
    obtain ⟨n, -, rfl⟩ := List.mem_map.mp mem
    show 0 ∈ [fullTable].map TableIdObject.id
    decide
  counted := by
    intro t mem
    rw [List.mem_singleton.mp mem]
    show fullTable.count.toNat = fullDb.rowCount 0
    rw [rowCount_fullDb]
    rfl
  occupied := by
    intro t mem
    rw [List.mem_singleton.mp mem]
    show 0 < fullDb.rowCount 0
    rw [rowCount_fullDb]
    decide

/-- Storing the `2^32`-th row of a table returns normally and wraps its count to zero: the
table then has `2^32` rows and a count of zero. -/
theorem store_wraps_row_count :
    fullDb.Inv ∧ ∃ db', (DbOperation.dbStoreI64 ⟨1⟩ ⟨1⟩ ⟨1⟩ ⟨1⟩ 4294967295 []).run ownerContext fullDb = .ok db' ∧
      ∃ t ∈ db'.tables, t.count = 0 ∧ db'.rowCount t.id = 2 ^ 32 := by
  -- the new key is above every key the table holds
  have fresh : KeyedList.find Row.key fullDb.rows ⟨.keyValue, fullTable.id, 4294967295⟩ = none := by
    rw [KeyedList.find_eq_none]
    intro r mem same
    obtain ⟨n, small, rfl⟩ := List.mem_map.mp mem
    have keys := congrArg (fun key : RowKey => key.primaryKey.toNat) same
    simp only [Row.key] at keys
    rw [toNat_primaryKey_fullRow (List.mem_range'_1.mp small).2] at keys
    have := (List.mem_range'_1.mp small).2
    simp only [UInt64.reduceToNat] at keys
    omega
  refine ⟨inv_fullDb, fullDb.insertRow ⟨.keyValue, fullTable.id, 4294967295, ⟨1⟩, [], 0⟩,
    ownerContext.dbStoreI64_of_found rfl (by decide) fresh, ?_⟩
  · refine ⟨_, mem_modifyCount_self (· + 1) (List.mem_singleton_self fullTable), rfl, ?_⟩
    show ({ fullDb with rows := fullDb.rows ++ _ }).rowCount 0 = 2 ^ 32
    rw [rowCount_appendRow, rowCount_fullDb]
    rfl

end Fio.Chain
