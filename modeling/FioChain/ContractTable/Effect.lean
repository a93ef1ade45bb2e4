import FioChain.ContractTable.Model
import FioChain.Lib.ExceptFold

/-! What a table call has done when it returns normally. Each of the six calls is one of
three effects on the database: a row inserted under a table that was found or created for
it, a row deleted with its table when it was the last, or a row rewritten in place with its
charge moved from its old payer and size to its new ones. The invariants of the database
are then proved once per effect. -/

namespace Fio.Chain

namespace ContractDb

/-- The table `find_or_create_table` creates, billed to its payer. -/
def createTable (db : ContractDb) (t : TableIdObject) : ContractDb :=
  { db.addRamUsage t.payer (Config.billableSizeV tableIdObjectBillableSize) with
    tables := db.tables ++ [t], nextTableId := db.nextTableId + 1 }

/-- A new row, counted in its table and billed to its payer. -/
def insertRow (db : ContractDb) (r : Row) : ContractDb :=
  ({ db with rows := db.rows ++ [r] }.modifyCount r.tId (· + 1)).addRamUsage r.payer r.billableSize

/-- A row refunded, counted out of its table `t` and removed. -/
def dropRow (db : ContractDb) (r : Row) (t : TableIdObject) : ContractDb :=
  ((db.addRamUsage r.payer (-(r.billableSize : Int))).modifyCount t.id (· - 1)).removeRow r.key

/-- `remove_table`: the table refunded to its payer and removed. -/
def dropTable (db : ContractDb) (t : TableIdObject) : ContractDb :=
  { db.addRamUsage t.payer (-(Config.billableSizeV tableIdObjectBillableSize : Int)) with
    tables := KeyedList.erase TableIdObject.id db.tables t.id }

/-- A row dropped, and its table `t` with it when the count falls to zero. -/
def deleteRow (db : ContractDb) (r : Row) (t : TableIdObject) : ContractDb :=
  if t.count - 1 = 0 then (db.dropRow r t).dropTable t else db.dropRow r t

/-- A row rewritten in place by `g`: its old payer is refunded its old size, and the new
payer is billed the new one. -/
def rewriteRow (db : ContractDb) (r : Row) (g : Row → Row) : ContractDb :=
  ((db.addRamUsage r.payer (-(r.billableSize : Int))).addRamUsage (g r).payer (g r).billableSize).modifyRow
    r.key g

theorem addRamUsage_addRamUsage (db : ContractDb) (account : Name) (x y : Int) :
    (db.addRamUsage account x).addRamUsage account y = db.addRamUsage account (x + y) := by
  simp [addRamUsage, add_assoc]

theorem addRamUsage_zero (db : ContractDb) (account : Name) : db.addRamUsage account 0 = db := by
  simp [addRamUsage]

end ContractDb

open ContractDb

/-- `find_or_create_table` returned `tab` and left `db'`: a table already there, or a new
table with no rows yet and the next id. -/
inductive TableFor (db : ContractDb) (tab : TableIdObject) : ContractDb → Prop
  | found : tab ∈ db.tables → TableFor db tab db
  | created : tab.id = db.nextTableId → tab.count = 0 → TableFor db tab (db.createTable tab)

inductive Effect (db : ContractDb) : ContractDb → Prop
  | insert {db₁ : ContractDb} {tab : TableIdObject} {r : Row} : TableFor db tab db₁ →
      r.tId = tab.id → KeyedList.find Row.key db₁.rows r.key = none → Effect db (db₁.insertRow r)
  | delete {r : Row} {t : TableIdObject} : r ∈ db.rows →
      KeyedList.find TableIdObject.id db.tables r.tId = some t → Effect db (db.deleteRow r t)
  | rewrite {r : Row} {g : Row → Row} : r ∈ db.rows → (∀ x, (g x).key = x.key) →
      Effect db (db.rewriteRow r g)

namespace ApplyContext

variable (ctx : ApplyContext) {db db' : ContractDb}

theorem updateDbUsage_ok {payer : Name} {delta : Int} (ok : ctx.updateDbUsage payer delta db = .ok db') :
    db' = db.addRamUsage payer delta := by
  unfold updateDbUsage at ok
  simp only [requireAuthorization] at ok
  -- every branch that does not throw ends in the same `add_ram_usage`
  split at ok
  · split at ok
    · split at ok
      · cases ok
      · split at ok
        · cases ok
          rfl
        · cases ok
    · cases ok
      rfl
  · cases ok
    rfl

theorem getRow_ok {key : RowKey} {r : Row} (ok : db.getRow key = .ok r) : r ∈ db.rows ∧ r.key = key := by
  unfold ContractDb.getRow at ok
  split at ok
  · rename_i found
    cases ok
    exact KeyedList.find_eq_some found
  · cases ok

theorem getTable_ok {tId : Nat} {t : TableIdObject} (ok : db.getTable tId = .ok t) :
    KeyedList.find TableIdObject.id db.tables tId = some t := by
  unfold ContractDb.getTable at ok
  split at ok
  · rename_i found
    cases ok
    exact found
  · cases ok

theorem createRow_ok {r : Row} (ok : db.createRow r = .ok db') :
    KeyedList.find Row.key db.rows r.key = none ∧ db' = { db with rows := db.rows ++ [r] } := by
  unfold ContractDb.createRow at ok
  split at ok
  · cases ok
  · rename_i absent
    cases ok
    exact ⟨absent, rfl⟩

theorem findOrCreateTable_ok {code scope table payer : Name} {tab : TableIdObject}
    (ok : ctx.findOrCreateTable code scope table payer db = .ok (tab, db')) : TableFor db tab db' := by
  unfold findOrCreateTable at ok
  split at ok
  · rename_i found
    cases ok
    exact .found (List.mem_of_find?_eq_some found)
  · obtain ⟨db₁, billed, ok⟩ := ExceptFold.bind_eq_ok ok
    cases ok
    cases updateDbUsage_ok ctx billed
    exact .created rfl rfl

theorem removeTable_ok {t : TableIdObject} (ok : ctx.removeTable t db = .ok db') :
    db' = db.dropTable t := by
  obtain ⟨db₁, refunded, ok⟩ := ExceptFold.bind_eq_ok ok
  cases ok
  cases updateDbUsage_ok ctx refunded
  rfl

theorem dbStoreI64_effect {code scope table payer : Name} {id : UInt64} {buffer : List UInt8}
    (ok : ctx.dbStoreI64 code scope table payer id buffer db = .ok db') : Effect db db' := by
  unfold dbStoreI64 at ok
  obtain ⟨⟨tab, db₁⟩, table, ok⟩ := ExceptFold.bind_eq_ok ok
  dsimp only at ok
  split at ok
  · cases ok
  · obtain ⟨db₂, created, ok⟩ := ExceptFold.bind_eq_ok ok
    obtain ⟨absent, rfl⟩ := createRow_ok created
    cases updateDbUsage_ok ctx ok
    exact .insert (findOrCreateTable_ok ctx table) rfl absent

theorem store_effect {index : SecondaryIndex} {scope table payer : Name} {id : UInt64} {secondary : Nat}
    (ok : ctx.store index scope table payer id secondary db = .ok db') : Effect db db' := by
  unfold store at ok
  split at ok
  · cases ok
  · obtain ⟨⟨tab, db₁⟩, table, ok⟩ := ExceptFold.bind_eq_ok ok
    obtain ⟨db₂, created, ok⟩ := ExceptFold.bind_eq_ok ok
    obtain ⟨absent, rfl⟩ := createRow_ok created
    cases updateDbUsage_ok ctx ok
    exact .insert (findOrCreateTable_ok ctx table) rfl absent

/-- The part both removes share once the row is refunded: count it out, remove it, and
remove its table when that was the last row. -/
theorem removeRest_effect {obj : Row} {tableObj : TableIdObject} (mem : obj ∈ db.rows)
    (table : KeyedList.find TableIdObject.id db.tables obj.tId = some tableObj)
    (ok : (let db₁ := ((db.addRamUsage obj.payer (-(obj.billableSize : Int))).modifyCount tableObj.id
              (· - 1)).removeRow obj.key
            if tableObj.count - 1 = 0 then ctx.removeTable tableObj db₁ else pure db₁) = .ok db') :
    Effect db db' := by
  have deleted := Effect.delete mem table
  dsimp only at ok
  split at ok
  · rename_i emptied
    simp only [deleteRow, if_pos emptied] at deleted
    rw [removeTable_ok ctx ok]
    exact deleted
  · rename_i kept
    simp only [deleteRow, if_neg kept] at deleted
    cases ok
    exact deleted

theorem dbRemoveI64_effect {iterator : RowKey} (ok : ctx.dbRemoveI64 iterator db = .ok db') :
    Effect db db' := by
  unfold dbRemoveI64 at ok
  obtain ⟨obj, got, ok⟩ := ExceptFold.bind_eq_ok ok
  obtain ⟨mem, key⟩ := getRow_ok got
  obtain ⟨tableObj, table, ok⟩ := ExceptFold.bind_eq_ok ok
  dsimp only at ok
  split at ok
  · cases ok
  · obtain ⟨db₁, refunded, ok⟩ := ExceptFold.bind_eq_ok ok
    cases updateDbUsage_ok ctx refunded
    -- the row is a primary row, so its charge is the refund
    have primary : obj.index = .keyValue := congrArg RowKey.index key
    have size : ((obj.value.length + Config.billableSizeV keyValueObjectBillableSize : Nat) : Int) =
        obj.billableSize := by
      simp [Row.billableSize, primary]
    rw [size] at ok
    exact removeRest_effect ctx mem (getTable_ok table) ok

theorem remove_effect {index : SecondaryIndex} {iterator : RowKey}
    (ok : ctx.remove index iterator db = .ok db') : Effect db db' := by
  unfold remove at ok
  obtain ⟨obj, got, ok⟩ := ExceptFold.bind_eq_ok ok
  obtain ⟨mem, key⟩ := getRow_ok got
  obtain ⟨db₁, refunded, ok⟩ := ExceptFold.bind_eq_ok ok
  cases updateDbUsage_ok ctx refunded
  -- the refund comes first; it leaves the tables as they were
  obtain ⟨tableObj, table, ok⟩ := ExceptFold.bind_eq_ok ok
  dsimp only at ok
  split at ok
  · cases ok
  · have secondary : obj.index = .secondary index := congrArg RowKey.index key
    have size : Config.billableSizeV index.billableSize = obj.billableSize := by
      simp [Row.billableSize, secondary]
    rw [size] at ok
    exact removeRest_effect ctx mem (getTable_ok table) ok

theorem dbUpdateI64_effect {iterator : RowKey} {payer : Name} {buffer : List UInt8}
    (ok : ctx.dbUpdateI64 iterator payer buffer db = .ok db') : Effect db db' := by
  unfold dbUpdateI64 at ok
  obtain ⟨obj, got, ok⟩ := ExceptFold.bind_eq_ok ok
  obtain ⟨mem, key⟩ := getRow_ok got
  obtain ⟨tableObj, -, ok⟩ := ExceptFold.bind_eq_ok ok
  dsimp only at ok
  split at ok
  · cases ok
  generalize (if payer = Name.empty then obj.payer else payer) = newPayer at ok
  let g : Row → Row := fun o => { o with value := buffer, payer := newPayer }
  have primary : obj.index = .keyValue := congrArg RowKey.index key
  have oldSize : (obj.billableSize : Int) =
      obj.value.length + Config.billableSizeV keyValueObjectBillableSize := by
    simp [Row.billableSize, primary]
  have newSize : ((g obj).billableSize : Int) =
      buffer.length + Config.billableSizeV keyValueObjectBillableSize := by
    simp [g, Row.billableSize, primary]
  -- each of the three ways the code bills the change is the refund and the new charge
  have rewritten : ∀ db₁, db₁ = (db.addRamUsage obj.payer (-(obj.billableSize : Int))).addRamUsage
      newPayer (g obj).billableSize → Effect db (db₁.modifyRow obj.key g) := by
    rintro _ rfl
    exact Effect.rewrite mem fun _ => rfl
  split at ok
  · obtain ⟨db₁, refunded, ok⟩ := ExceptFold.bind_eq_ok ok
    obtain ⟨db₂, charged, ok⟩ := ExceptFold.bind_eq_ok ok
    cases ok
    apply rewritten
    rw [updateDbUsage_ok ctx charged, updateDbUsage_ok ctx refunded, oldSize, newSize]
  · rename_i samePayer
    have samePayer : obj.payer = newPayer := not_not.mp samePayer
    split at ok
    · obtain ⟨db₁, charged, ok⟩ := ExceptFold.bind_eq_ok ok
      cases ok
      apply rewritten
      rw [updateDbUsage_ok ctx charged, ← samePayer, addRamUsage_addRamUsage, oldSize, newSize,
        neg_add_eq_sub]
    · rename_i sameSize
      cases ok
      apply rewritten
      rw [← samePayer, addRamUsage_addRamUsage, oldSize, newSize, not_not.mp sameSize, neg_add_cancel,
        addRamUsage_zero]

theorem update_effect {index : SecondaryIndex} {iterator : RowKey} {payer : Name} {secondary : Nat}
    (ok : ctx.update index iterator payer secondary db = .ok db') : Effect db db' := by
  unfold update at ok
  obtain ⟨obj, got, ok⟩ := ExceptFold.bind_eq_ok ok
  obtain ⟨mem, key⟩ := getRow_ok got
  obtain ⟨tableObj, -, ok⟩ := ExceptFold.bind_eq_ok ok
  dsimp only at ok
  split at ok
  · cases ok
  generalize (if payer = Name.empty then obj.payer else payer) = newPayer at ok
  let g : Row → Row := fun o => { o with secondaryKey := secondary, payer := newPayer }
  have secondaryRow : obj.index = .secondary index := congrArg RowKey.index key
  have size : (obj.billableSize : Int) = Config.billableSizeV index.billableSize := by
    simp [Row.billableSize, secondaryRow]
  have rewritten : ∀ db₁, db₁ = (db.addRamUsage obj.payer (-(obj.billableSize : Int))).addRamUsage
      newPayer obj.billableSize → Effect db (db₁.modifyRow obj.key g) := by
    rintro _ rfl
    exact Effect.rewrite mem fun _ => rfl
  split at ok
  · obtain ⟨db₁, refunded, ok⟩ := ExceptFold.bind_eq_ok ok
    obtain ⟨db₂, charged, ok⟩ := ExceptFold.bind_eq_ok ok
    cases ok
    apply rewritten
    rw [updateDbUsage_ok ctx charged, updateDbUsage_ok ctx refunded, size]
  · -- the payer stays: nothing is billed
    rename_i samePayer
    cases ok
    apply rewritten
    rw [← not_not.mp samePayer, addRamUsage_addRamUsage, neg_add_cancel, addRamUsage_zero]

/-- A store by the receiver under its own name, into a table that exists, of a key the table
does not hold, returns normally: nothing it checks can fail. -/
theorem dbStoreI64_of_found {code scope table : Name} {tab : TableIdObject} {id : UInt64}
    {buffer : List UInt8} (found : db.findTable code scope table = some tab) (named : ctx.receiver ≠ Name.empty)
    (fresh : KeyedList.find Row.key db.rows ⟨.keyValue, tab.id, id⟩ = none) :
    ctx.dbStoreI64 code scope table ctx.receiver id buffer db =
      .ok (db.insertRow ⟨.keyValue, tab.id, id, ctx.receiver, buffer, 0⟩) := by
  simp [dbStoreI64, findOrCreateTable, found, named, ContractDb.createRow, Row.key, fresh, updateDbUsage,
    insertRow, Row.billableSize]
  -- `pure` of `Except` is `Except.ok`
  rfl

end ApplyContext

/-- Every table call that returns normally has one of the three effects. -/
theorem DbOperation.run_effect {ctx : ApplyContext} {op : DbOperation} {db db' : ContractDb}
    (ok : op.run ctx db = .ok db') : Effect db db' := by
  cases op with
  | dbStoreI64 => exact ctx.dbStoreI64_effect ok
  | dbUpdateI64 => exact ctx.dbUpdateI64_effect ok
  | dbRemoveI64 => exact ctx.dbRemoveI64_effect ok
  | store => exact ctx.store_effect ok
  | update => exact ctx.update_effect ok
  | remove => exact ctx.remove_effect ok

end Fio.Chain
