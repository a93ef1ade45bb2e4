import FioChain.ContractTable.CacheInvariant

/-! A contract reads a table through the primary-key calls: forward from `db_lowerbound_i64`
with `db_next_i64` until it holds the table's end iterator, or backward from `db_end_i64` with
`db_previous_i64` until it gets `-1`. With unique keys, `by_scope_primary` keeps the rows of
each table together and in key order between `lower_bound(t)` and `upper_bound(t)`, and each
walk reads exactly the table's rows. -/

namespace Fio.Chain

open IteratorCache

theorem scopePrimaryKey_inj {t t' : Nat} {id id' : UInt64} (same : scopePrimaryKey t id = scopePrimaryKey t' id') :
    t = t' ∧ id = id' := by
  unfold scopePrimaryKey at same
  have := id.toNat_lt
  have := id'.toNat_lt
  exact ⟨by omega, UInt64.toNat_inj.1 (by omega)⟩

/-- A row is in table `t` exactly when its composite key lies in the block of `t`. -/
theorem tId_eq_iff {r : Row} {t : Nat} :
    r.tId = t ↔ scopePrimaryKey t 0 ≤ r.scopePrimary ∧ r.scopePrimary < scopePrimaryKey (t + 1) 0 := by
  have := r.primaryKey.toNat_lt
  simp only [Row.scopePrimary, scopePrimaryKey, UInt64.toNat_zero]
  omega

theorem scopePrimaryKey_lt_succ (t : Nat) (id : UInt64) : scopePrimaryKey t id < scopePrimaryKey (t + 1) 0 := by
  have := id.toNat_lt
  simp only [scopePrimaryKey, UInt64.toNat_zero]
  omega

theorem take_drop_of_getElem? {α : Type} {l : List α} {i n : Nat} {x : α} (at_i : l[i]? = some x) :
    (l.drop i).take (n + 1) = x :: (l.drop (i + 1)).take n := by
  obtain ⟨inside, rfl⟩ := List.getElem?_eq_some_iff.1 at_i
  rw [List.drop_eq_getElem_cons inside, List.take_succ_cons]

namespace ContractDb

variable {db : ContractDb}

theorem nodup_scopePrimary (keyed : db.Keyed) :
    ((db.rows.filter fun r => r.index = .keyValue).map Row.scopePrimary).Nodup := by
  have keys : ((db.rows.filter fun r => r.index = .keyValue).map Row.key).Nodup :=
    keyed.rowKeys.sublist (List.filter_sublist.map Row.key)
  refine (List.Nodup.of_map Row.key keys).map_on fun x mx y my same => List.inj_on_of_nodup_map keys mx my ?_
  obtain ⟨tIds, ids⟩ := scopePrimaryKey_inj same
  have primary : x.index = y.index := by
    rw [of_decide_eq_true (List.mem_filter.1 mx).2, of_decide_eq_true (List.mem_filter.1 my).2]
  simp only [Row.key, primary, tIds, ids]

theorem sorted_byScopePrimary (keyed : db.Keyed) : SortedIndex.Sorted Row.scopePrimary db.byScopePrimary :=
  SortedIndex.sorted_sort (nodup_scopePrimary keyed)

/-- `lower_bound(t)`: where the rows of table `t` start in `by_scope_primary`. -/
def tableStart (db : ContractDb) (t : Nat) : Nat :=
  SortedIndex.lowerBound Row.scopePrimary db.byScopePrimary (scopePrimaryKey t 0)

/-- `upper_bound(t)`: where they end. -/
def tableEnd (db : ContractDb) (t : Nat) : Nat :=
  SortedIndex.lowerBound Row.scopePrimary db.byScopePrimary (scopePrimaryKey (t + 1) 0)

theorem tableEnd_le_length (t : Nat) : db.tableEnd t ≤ db.byScopePrimary.length :=
  SortedIndex.lowerBound_le_length _

theorem tableStart_le_tableEnd (t : Nat) : db.tableStart t ≤ db.tableEnd t :=
  SortedIndex.lowerBound_mono (by simp only [scopePrimaryKey]; omega)

/-- A position holds a row of table `t` exactly when it lies between the table's bounds. -/
theorem tId_getElem_iff (keyed : db.Keyed) {t i : Nat} (inside : i < db.byScopePrimary.length) :
    db.byScopePrimary[i].tId = t ↔ db.tableStart t ≤ i ∧ i < db.tableEnd t := by
  rw [tId_eq_iff]
  exact (SortedIndex.window_iff (sorted_byScopePrimary keyed) inside).symm

/-- What `db_next_i64` and `db_previous_i64` find at a position: the row there if it is in the
table. -/
theorem filter_getElem? (keyed : db.Keyed) (t j : Nat) :
    db.byScopePrimary[j]?.filter (fun r => decide (r.tId = t)) =
      if db.tableStart t ≤ j ∧ j < db.tableEnd t then db.byScopePrimary[j]? else none := by
  by_cases inside : j < db.byScopePrimary.length
  · rw [List.getElem?_eq_getElem inside, Option.filter_some]
    simp only [decide_eq_true_eq, tId_getElem_iff keyed inside]
  · have := db.tableEnd_le_length t
    rw [List.getElem?_eq_none (by omega)]
    simp

/-- `idx.iterator_to(obj)` finds the position of the row. -/
theorem iteratorTo_key (keyed : db.Keyed) {i : Nat} {r : Row} (row : db.byScopePrimary[i]? = some r) :
    iteratorTo db.byScopePrimary r.key = i := by
  obtain ⟨inside, rfl⟩ := List.getElem?_eq_some_iff.1 row
  refine (List.findIdx_eq inside).2 ⟨decide_eq_true rfl, fun j before => decide_eq_false fun same => ?_⟩
  have earlier := List.pairwise_iff_getElem.1 (sorted_byScopePrimary keyed) j i (by omega) inside before
  have tIds : (db.byScopePrimary[j]).tId = (db.byScopePrimary[i]).tId := congrArg RowKey.tId same
  have ids : (db.byScopePrimary[j]).primaryKey = (db.byScopePrimary[i]).primaryKey := congrArg RowKey.primaryKey same
  rw [Row.scopePrimary, Row.scopePrimary, tIds, ids] at earlier
  exact lt_irrefl _ earlier

theorem getRow_key (keyed : db.Keyed) {r : Row} (mem : r ∈ db.rows) : db.getRow r.key = .ok r := by
  unfold getRow
  rw [KeyedList.find_of_mem keyed.rowKeys mem]
  rfl

theorem filter_byScopePrimary_perm (p : Row → Prop) [DecidablePred p] :
    (db.byScopePrimary.filter fun r => p r).Perm (db.rows.filter fun r => r.index = .keyValue ∧ p r) := by
  have := (@SortedIndex.perm_sort Row ℕ _ Row.scopePrimary (db.rows.filter fun r => r.index = .keyValue)).filter
    fun r => p r
  rw [List.filter_filter] at this
  refine this.trans (List.Perm.of_eq (List.filter_congr fun r _ => ?_))
  simp only [Bool.and_comm, Bool.decide_and]

/-- From a bound `k` in the block of table `t` to the table's end, the index holds the table's
rows from `k` on: a permutation of the database's, in key order. -/
theorem tableRows (keyed : db.Keyed) {t k : Nat} (low : scopePrimaryKey t 0 ≤ k)
    (high : k ≤ scopePrimaryKey (t + 1) 0) :
    let rows := (db.byScopePrimary.drop (SortedIndex.lowerBound Row.scopePrimary db.byScopePrimary k)).take
      (db.tableEnd t - SortedIndex.lowerBound Row.scopePrimary db.byScopePrimary k)
    rows.Perm (db.rows.filter fun r => r.index = .keyValue ∧ r.tId = t ∧ k ≤ r.scopePrimary) ∧
      rows.Pairwise fun a b => a.primaryKey < b.primaryKey := by
  have window : (db.byScopePrimary.drop (SortedIndex.lowerBound Row.scopePrimary db.byScopePrimary k)).take
      (db.tableEnd t - SortedIndex.lowerBound Row.scopePrimary db.byScopePrimary k) =
      db.byScopePrimary.filter fun r => r.tId = t ∧ k ≤ r.scopePrimary := by
    rw [tableEnd, ← SortedIndex.filter_window (sorted_byScopePrimary keyed) high]
    refine List.filter_congr fun r _ => ?_
    have := tId_eq_iff (r := r) (t := t)
    simp only [decide_eq_decide]
    omega
  refine ⟨window ▸ filter_byScopePrimary_perm _, ?_⟩
  rw [window]
  refine ((sorted_byScopePrimary keyed).sublist List.filter_sublist).imp_of_mem fun ma mb before => ?_
  have := of_decide_eq_true (List.mem_filter.1 ma).2
  have := of_decide_eq_true (List.mem_filter.1 mb).2
  simp only [Row.scopePrimary, scopePrimaryKey] at before
  rw [UInt64.lt_iff_toNat_lt]
  omega

theorem length_tableRows (t j : Nat) :
    ((db.byScopePrimary.drop j).take (db.tableEnd t - j)).length = db.tableEnd t - j := by
  have := db.tableEnd_le_length t
  rw [List.length_take, List.length_drop]
  omega

/-- Inside table `t`, a bound on the composite key read as one on the primary key. -/
theorem filter_key_congr {t k : Nat} {P : Row → Prop} [DecidablePred P]
    (iff : ∀ r : Row, r.tId = t → (k ≤ r.scopePrimary ↔ P r)) :
    (db.rows.filter fun r => r.index = .keyValue ∧ r.tId = t ∧ k ≤ r.scopePrimary) =
      db.rows.filter fun r => r.index = .keyValue ∧ r.tId = t ∧ P r := by
  refine List.filter_congr fun r _ => ?_
  rw [decide_eq_decide]
  exact and_congr_right fun _ => ⟨fun ⟨inTable, above⟩ => ⟨inTable, (iff r inTable).1 above⟩,
    fun ⟨inTable, holds⟩ => ⟨inTable, (iff r inTable).2 holds⟩⟩

end ContractDb

namespace ApplyState

variable {s : ApplyState} {t i : Nat} {it : Int}

/-- The iterator a walk over table `t` holds at position `i` of `by_scope_primary`: the
iterator of the row there while the position is in the table, the table's end iterator after
it. -/
inductive Points (s : ApplyState) (t : Nat) : Nat → Int → Prop
  | row {i : Nat} {r : Row} {it : Int} : s.db.byScopePrimary[i]? = some r → r.tId = t →
      s.keyvalCache.get it = .ok r.key → Points s t i it
  | last {ei : Int} : s.keyvalCache.tableCache.lookup t = some ei → Points s t (s.db.tableEnd t) ei

theorem Points.bounds (inv : s.Inv) (pos : Points s t i it) : s.db.tableStart t ≤ i ∧ i ≤ s.db.tableEnd t := by
  cases pos with
  | row row inTable _ =>
    obtain ⟨inside, rfl⟩ := List.getElem?_eq_some_iff.1 row
    have := (ContractDb.tId_getElem_iff inv.keyed inside).1 inTable
    omega
  | last _ => exact ⟨ContractDb.tableStart_le_tableEnd t, le_rfl⟩

theorem Points.cached (inv : s.Inv) (pos : Points s t i it) : ∃ ei, s.keyvalCache.tableCache.lookup t = some ei := by
  cases pos with
  | row _ inTable got =>
    obtain ⟨-, -, cached⟩ := inv.live _ _ (get_eq_ok_iff.1 got).2
    rw [← inTable]
    exact Option.isSome_iff_exists.1 cached
  | last cached => exact ⟨_, cached⟩

/-- Inside the table the iterator names the row at its position. -/
theorem Points.read (inv : s.Inv) (pos : Points s t i it) (before : i < s.db.tableEnd t) :
    ∃ r, s.db.byScopePrimary[i]? = some r ∧ r.tId = t ∧ 0 ≤ it ∧ s.keyvalCache.get it = .ok r.key ∧
      s.db.getRow r.key = .ok r := by
  cases pos with
  | row row inTable got =>
    have mem := (mem_byScopePrimary.1 (List.mem_of_getElem? row)).1
    exact ⟨_, row, inTable, (get_eq_ok_iff.1 got).1, got, ContractDb.getRow_key inv.keyed mem⟩
  | last => omega

/-- Past the table the iterator is the table's end iterator. -/
theorem Points.atEnd (inv : s.Inv) (pos : Points s t i it) (after : s.db.tableEnd t ≤ i) :
    s.keyvalCache.tableCache.lookup t = some it ∧ it < -1 := by
  cases pos with
  | row row inTable got =>
    obtain ⟨inside, rfl⟩ := List.getElem?_eq_some_iff.1 row
    have := (ContractDb.tId_getElem_iff inv.keyed inside).1 inTable
    omega
  | last cached => exact ⟨cached, inv.consistent.lookup_lt cached⟩

/-- `keyval_cache.add` of a row of table `t` gives the walk's iterator at the row's position. -/
theorem points_addRow (inv : s.Inv) (cached : ∃ ei, s.keyvalCache.tableCache.lookup t = some ei) {j : Nat}
    (start : s.db.tableStart t ≤ j) (before : j < s.db.tableEnd t) :
    ∃ r, s.db.byScopePrimary[j]? = some r ∧ Points (addRow r s).2.2 t j (addRow r s).1 ∧
      (addRow r s).2.2.db = s.db ∧ (addRow r s).2.2.Inv ∧ Keeps s.keyvalCache (addRow r s).2.2.keyvalCache := by
  have inside : j < s.db.byScopePrimary.length := lt_of_lt_of_le before (ContractDb.tableEnd_le_length t)
  have inTable := (ContractDb.tId_getElem_iff inv.keyed inside).2 ⟨start, before⟩
  obtain ⟨ei, cached⟩ := cached
  refine ⟨_, List.getElem?_eq_getElem inside, .row (List.getElem?_eq_getElem inside) inTable
    (get_add inv.consistent _), rfl, inv.add (List.getElem_mem inside) ?_, keeps_add _⟩
  rw [inTable, cached]
  rfl

/-- `db_next_i64` moves the walk one position on. -/
theorem Points.dbNextI64 (inv : s.Inv) (pos : Points s t i it) (before : i < s.db.tableEnd t) (primary : UInt64) :
    ∃ it' primary' s', s.dbNextI64 it primary = .ok (it', primary', s') ∧ Points s' t (i + 1) it' ∧
      s'.db = s.db ∧ s'.Inv ∧ Keeps s.keyvalCache s'.keyvalCache := by
  obtain ⟨r, row, inTable, nonneg, got, -⟩ := pos.read inv before
  have cached := pos.cached inv
  have start := (pos.bounds inv).1
  unfold ApplyState.dbNextI64
  rw [if_neg (by omega), got, ExceptFold.ok_bind]
  dsimp only
  rw [ContractDb.iteratorTo_key inv.keyed row, show r.key.tId = t from inTable, ContractDb.filter_getElem? inv.keyed]
  by_cases inside : i + 1 < s.db.tableEnd t
  · obtain ⟨r', row', pos', rest⟩ := points_addRow inv cached (by omega) inside
    rw [if_pos ⟨by omega, inside⟩, row']
    exact ⟨_, _, _, rfl, pos', rest⟩
  · obtain ⟨ei, cached⟩ := cached
    have last : i + 1 = s.db.tableEnd t := by omega
    rw [if_neg (by omega)]
    dsimp only
    rw [getEndIteratorByTableId_of_lookup cached, ExceptFold.ok_bind, last]
    exact ⟨_, _, _, rfl, .last cached, rfl, inv, Keeps.refl _⟩

/-- `db_previous_i64` moves the walk one position back while it is past the table's first row. -/
theorem Points.dbPreviousI64 (inv : s.Inv) (pos : Points s t i it) (after : s.db.tableStart t < i)
    (primary : UInt64) :
    ∃ it' primary' s', s.dbPreviousI64 it primary = .ok (it', primary', s') ∧ Points s' t (i - 1) it' ∧
      s'.db = s.db ∧ s'.Inv ∧ Keeps s.keyvalCache s'.keyvalCache := by
  have bounds := pos.bounds inv
  obtain ⟨r', row', pos', rest⟩ := points_addRow inv (pos.cached inv) (j := i - 1) (by omega) (by omega)
  unfold ApplyState.dbPreviousI64
  dsimp only
  by_cases before : i < s.db.tableEnd t
  · -- from a row's iterator
    obtain ⟨r, row, inTable, nonneg, got, -⟩ := pos.read inv before
    rw [if_neg (by omega), got, ExceptFold.ok_bind, ContractDb.iteratorTo_key inv.keyed row, if_neg (by omega),
      show r.key.tId = t from inTable, ContractDb.filter_getElem? inv.keyed,
      if_pos ⟨by omega, by omega⟩, row']
    exact ⟨_, _, _, rfl, pos', rest⟩
  · -- from the table's end iterator
    obtain ⟨cached, negative⟩ := pos.atEnd inv (by omega)
    have last : i = s.db.tableEnd t := by omega
    subst last
    rw [if_pos negative, findTableByEndIterator_of_lookup inv.consistent cached, ExceptFold.ok_bind]
    dsimp only
    rw [← ContractDb.tableEnd]
    have nonempty : s.db.byScopePrimary ≠ [] := by
      have := s.db.tableEnd_le_length t
      exact List.ne_nil_of_length_pos (by omega)
    rw [if_neg (by rintro (empty | zero) <;> [exact nonempty empty; omega]),
      ContractDb.filter_getElem? inv.keyed, if_pos ⟨by omega, by omega⟩, row']
    exact ⟨_, _, _, rfl, pos', rest⟩

/-- `db_previous_i64` at the table's first position returns `-1`. -/
theorem Points.dbPreviousI64_first (inv : s.Inv) (pos : Points s t i it) (first : i ≤ s.db.tableStart t)
    (primary : UInt64) : s.dbPreviousI64 it primary = .ok (-1, primary, s) := by
  have bounds := pos.bounds inv
  unfold ApplyState.dbPreviousI64
  dsimp only
  by_cases before : i < s.db.tableEnd t
  · obtain ⟨r, row, inTable, nonneg, got, -⟩ := pos.read inv before
    rw [if_neg (by omega), got, ExceptFold.ok_bind, ContractDb.iteratorTo_key inv.keyed row]
    by_cases zero : i = 0
    · rw [if_pos zero]
      rfl
    · rw [if_neg zero, show r.key.tId = t from inTable, ContractDb.filter_getElem? inv.keyed, if_neg (by omega)]
      rfl
  · -- an empty table: its end iterator is also its first position
    obtain ⟨cached, negative⟩ := pos.atEnd inv (by omega)
    rw [if_pos negative, findTableByEndIterator_of_lookup inv.consistent cached, ExceptFold.ok_bind]
    dsimp only
    rw [← ContractDb.tableEnd]
    split
    · rfl
    · rw [ContractDb.filter_getElem? inv.keyed, if_neg (by omega)]
      rfl

/-- A contract's loop `for (itr = start; itr >= 0; itr = db_next_i64(itr, &primary))` reading
each row with `db_get_i64`, for at most `fuel` rows: the rows read, the iterator it stopped at,
and the state after. -/
def walkNext : Nat → Int → ApplyState → Except Exception (List Row × Int × ApplyState)
  | 0, it, s => pure ([], it, s)
  | fuel + 1, it, s =>
    if it < 0 then pure ([], it, s)
    else do
      let row ← s.db.getRow (← s.keyvalCache.get it)
      let next ← s.dbNextI64 it 0
      let rest ← walkNext fuel next.1 next.2.2
      pure (row :: rest.1, rest.2)

/-- A contract's loop `itr = start; while ((itr = db_previous_i64(itr, &primary)) >= 0)` reading
each row, for at most `fuel` calls: the rows read, the negative iterator that ended it, and the
state after. -/
def walkPrevious : Nat → Int → ApplyState → Except Exception (List Row × Int × ApplyState)
  | 0, it, s => pure ([], it, s)
  | fuel + 1, it, s => do
    let prev ← s.dbPreviousI64 it 0
    if prev.1 < 0 then pure ([], prev.1, prev.2.2)
    else do
      let row ← prev.2.2.db.getRow (← prev.2.2.keyvalCache.get prev.1)
      let rest ← walkPrevious fuel prev.1 prev.2.2
      pure (row :: rest.1, rest.2)

/-- From position `i` of table `t`, the forward walk reads the rest of the table's rows and
stops at the table's end iterator. -/
theorem walkNext_spec (inv : s.Inv) (pos : Points s t i it) {fuel : Nat} (enough : s.db.tableEnd t - i ≤ fuel) :
    ∃ ei s', s.keyvalCache.tableCache.lookup t = some ei ∧
      walkNext fuel it s = .ok ((s.db.byScopePrimary.drop i).take (s.db.tableEnd t - i), ei, s') ∧
      s'.db = s.db ∧ s'.Inv ∧ Keeps s.keyvalCache s'.keyvalCache := by
  induction fuel generalizing s i it with
  | zero =>
    obtain ⟨cached, -⟩ := pos.atEnd inv (by omega)
    refine ⟨it, s, cached, ?_, rfl, inv, Keeps.refl _⟩
    rw [show s.db.tableEnd t - i = 0 by omega, List.take_zero]
    rfl
  | succ fuel ih =>
    by_cases before : i < s.db.tableEnd t
    · obtain ⟨r, row, -, nonneg, got, read⟩ := pos.read inv before
      obtain ⟨it', primary', s', next, pos', db, inv', keeps⟩ := pos.dbNextI64 inv before 0
      obtain ⟨ei, s'', cached, walked, db', inv'', keeps'⟩ := ih inv' pos' (by rw [db]; omega)
      obtain ⟨e, start⟩ := pos.cached inv
      refine ⟨e, s'', start, ?_, db'.trans db, inv'', keeps.trans keeps'⟩
      have same : e = ei := Option.some.inj ((keeps.tables t e start).symm.trans cached)
      rw [walkNext, if_neg (by omega), got, ExceptFold.ok_bind, read, ExceptFold.ok_bind, next, ExceptFold.ok_bind,
        walked, ExceptFold.ok_bind, db, same, show s.db.tableEnd t - i = s.db.tableEnd t - (i + 1) + 1 by omega,
        take_drop_of_getElem? row]
      rfl
    · obtain ⟨cached, negative⟩ := pos.atEnd inv (by omega)
      refine ⟨it, s, cached, ?_, rfl, inv, Keeps.refl _⟩
      rw [walkNext, if_pos (by omega), show s.db.tableEnd t - i = 0 by omega, List.take_zero]
      rfl

/-- From position `i` of table `t`, the backward walk reads the table's rows before `i`, last
first, and ends with the `-1` of the table's first row. -/
theorem walkPrevious_spec (inv : s.Inv) (pos : Points s t i it) {fuel : Nat}
    (enough : i - s.db.tableStart t < fuel) :
    ∃ s', walkPrevious fuel it s =
        .ok (((s.db.byScopePrimary.drop (s.db.tableStart t)).take (i - s.db.tableStart t)).reverse, -1, s') ∧
      s'.db = s.db ∧ s'.Inv ∧ Keeps s.keyvalCache s'.keyvalCache := by
  induction fuel generalizing s i it with
  | zero => omega
  | succ fuel ih =>
    have bounds := pos.bounds inv
    by_cases first : i ≤ s.db.tableStart t
    · refine ⟨s, ?_, rfl, inv, Keeps.refl _⟩
      rw [walkPrevious, pos.dbPreviousI64_first inv first, ExceptFold.ok_bind, if_pos (by omega),
        show i - s.db.tableStart t = 0 by omega, List.take_zero]
      rfl
    · obtain ⟨it', primary', s', prev, pos', db, inv', keeps⟩ := pos.dbPreviousI64 inv (by omega) 0
      obtain ⟨r, row, -, nonneg, got, read⟩ := pos'.read inv' (by rw [db]; omega)
      obtain ⟨s'', walked, db', inv'', keeps'⟩ := ih inv' pos' (by rw [db]; omega)
      refine ⟨s'', ?_, db'.trans db, inv'', keeps.trans keeps'⟩
      rw [db] at row walked
      rw [walkPrevious, prev, ExceptFold.ok_bind]
      dsimp only
      rw [if_neg (by omega), got, ExceptFold.ok_bind, read, ExceptFold.ok_bind, walked, ExceptFold.ok_bind]
      -- the row just read is the last of those before `i`
      have split : (s.db.byScopePrimary.drop (s.db.tableStart t)).take (i - s.db.tableStart t) =
          (s.db.byScopePrimary.drop (s.db.tableStart t)).take (i - 1 - s.db.tableStart t) ++ [r] := by
        rw [show i - s.db.tableStart t = i - 1 - s.db.tableStart t + 1 by omega, List.take_add_one,
          List.getElem?_drop, show s.db.tableStart t + (i - 1 - s.db.tableStart t) = i - 1 by omega, row]
        rfl
      rw [split, List.reverse_append]
      rfl

/-- `db_lowerbound_i64` and `db_upperbound_i64` start a walk over the table at the position of
their key. -/
theorem points_boundI64 (inv : s.Inv) {code scope table : Name} {tab : TableIdObject}
    (found : s.db.findTable code scope table = some tab) {bound : List Row → Nat → UInt64 → Nat} {id : UInt64}
    {k : Nat} (atKey : bound s.db.byScopePrimary tab.id id = SortedIndex.lowerBound Row.scopePrimary s.db.byScopePrimary k)
    (low : scopePrimaryKey tab.id 0 ≤ k) (high : k ≤ scopePrimaryKey (tab.id + 1) 0) :
    Points (s.boundI64 bound code scope table id).2 tab.id (SortedIndex.lowerBound Row.scopePrimary s.db.byScopePrimary k)
      (s.boundI64 bound code scope table id).1 := by
  have start : s.db.tableStart tab.id ≤ SortedIndex.lowerBound Row.scopePrimary s.db.byScopePrimary k :=
    SortedIndex.lowerBound_mono low
  have stop : SortedIndex.lowerBound Row.scopePrimary s.db.byScopePrimary k ≤ s.db.tableEnd tab.id :=
    SortedIndex.lowerBound_mono high
  have inv₁ := inv.cacheTable tab.id
  unfold ApplyState.boundI64
  rw [found]
  dsimp only
  rw [atKey, ContractDb.filter_getElem? inv.keyed]
  by_cases before : SortedIndex.lowerBound Row.scopePrimary s.db.byScopePrimary k < s.db.tableEnd tab.id
  · obtain ⟨r, row, pos, -⟩ := points_addRow inv₁ ⟨_, lookup_cacheTable tab.id⟩ start before
    rw [if_pos ⟨start, before⟩]
    exact row ▸ pos
  · rw [if_neg (by omega), show SortedIndex.lowerBound Row.scopePrimary s.db.byScopePrimary k = s.db.tableEnd tab.id by omega]
    exact .last (lookup_cacheTable tab.id)

theorem boundI64_db (bound : List Row → Nat → UInt64 → Nat) (code scope table : Name) (id : UInt64) :
    (s.boundI64 bound code scope table id).2.db = s.db := by
  unfold ApplyState.boundI64
  split
  · rfl
  · dsimp only
    split <;> rfl

theorem dbEndI64_of_lookup {code scope table : Name} {tab : TableIdObject}
    (found : s.db.findTable code scope table = some tab) {ei : Int} (cached : s.keyvalCache.tableCache.lookup tab.id = some ei) :
    s.dbEndI64 code scope table = (ei, s) := by
  unfold ApplyState.dbEndI64
  rw [found]
  dsimp only
  rw [cacheTable_of_lookup cached]

/-- The forward walk from `db_lowerbound_i64` or `db_upperbound_i64` at a key `k` of the table's
block reads the table's rows from `k` on and stops at the table's end iterator. -/
theorem boundI64_walkNext (inv : s.Inv) {code scope table : Name} {tab : TableIdObject}
    (found : s.db.findTable code scope table = some tab) {bound : List Row → Nat → UInt64 → Nat} {id : UInt64}
    {k : Nat} (atKey : bound s.db.byScopePrimary tab.id id = SortedIndex.lowerBound Row.scopePrimary s.db.byScopePrimary k)
    (low : scopePrimaryKey tab.id 0 ≤ k) (high : k ≤ scopePrimaryKey (tab.id + 1) 0) {fuel : Nat}
    (enough : (s.db.rows.filter fun r => r.index = .keyValue ∧ r.tId = tab.id ∧ k ≤ r.scopePrimary).length ≤ fuel) :
    ∃ rows s', walkNext fuel (s.boundI64 bound code scope table id).1 (s.boundI64 bound code scope table id).2 =
        .ok (rows, (s'.dbEndI64 code scope table).1, s') ∧
      rows.Perm (s.db.rows.filter fun r => r.index = .keyValue ∧ r.tId = tab.id ∧ k ≤ r.scopePrimary) ∧
      rows.Pairwise (fun a b => a.primaryKey < b.primaryKey) ∧ s'.db = s.db ∧ s'.Inv := by
  have pos := points_boundI64 inv found atKey low high
  obtain ⟨read, sorted⟩ := ContractDb.tableRows inv.keyed low high
  have count := read.length_eq
  rw [ContractDb.length_tableRows] at count
  have db₁ := boundI64_db bound code scope table id (s := s)
  obtain ⟨ei, s', cached, walked, db', inv', keeps⟩ :=
    walkNext_spec (inv.boundI64 bound code scope table id).1 pos (by rw [db₁]; omega : _ ≤ fuel)
  rw [db₁] at walked db'
  refine ⟨_, s', ?_, read, sorted, db', inv'⟩
  rw [dbEndI64_of_lookup (db' ▸ found) (keeps.tables _ _ cached)]
  exact walked

/-- A contract that walks a table forward from `db_lowerbound_i64(code, scope, table, id)` with
`db_next_i64` reads exactly the table's rows whose primary key is at least `id`, each once and in
strictly increasing key order, and stops at the iterator `db_end_i64` gives for the table. The
database is unchanged and the cache stays consistent. -/
theorem lowerbound_next_reads_table (inv : s.Inv) {code scope table : Name} {tab : TableIdObject}
    (found : s.db.findTable code scope table = some tab) (id : UInt64) {fuel : Nat}
    (enough : (s.db.rows.filter fun r => r.index = .keyValue ∧ r.tId = tab.id ∧ id ≤ r.primaryKey).length ≤ fuel) :
    ∃ rows s', walkNext fuel (s.dbLowerboundI64 code scope table id).1 (s.dbLowerboundI64 code scope table id).2 =
        .ok (rows, (s'.dbEndI64 code scope table).1, s') ∧
      rows.Perm (s.db.rows.filter fun r => r.index = .keyValue ∧ r.tId = tab.id ∧ id ≤ r.primaryKey) ∧
      rows.Pairwise (fun a b => a.primaryKey < b.primaryKey) ∧ s'.db = s.db ∧ s'.Inv := by
  have from_id := s.db.filter_key_congr (t := tab.id) (k := scopePrimaryKey tab.id id) (P := fun r => id ≤ r.primaryKey)
    fun r inTable => by
      simp only [Row.scopePrimary, scopePrimaryKey, UInt64.le_iff_toNat_le, inTable]
      omega
  rw [← from_id] at enough ⊢
  exact boundI64_walkNext inv found rfl (by simp only [scopePrimaryKey, UInt64.toNat_zero]; omega)
    (le_of_lt (scopePrimaryKey_lt_succ tab.id id)) enough

/-- The owner's table 0 holds the rows 3, 1 and 4, stored in that order, and table 1 the row 2. -/
def sampleDb : ContractDb :=
  ⟨[⟨0, ⟨1⟩, ⟨1⟩, ⟨1⟩, ⟨1⟩, 3⟩, ⟨1, ⟨1⟩, ⟨1⟩, ⟨2⟩, ⟨1⟩, 1⟩],
    [⟨.keyValue, 0, 3, ⟨1⟩, [], 0⟩, ⟨.keyValue, 1, 2, ⟨1⟩, [], 0⟩, ⟨.keyValue, 0, 1, ⟨1⟩, [], 0⟩,
      ⟨.keyValue, 0, 4, ⟨1⟩, [], 0⟩], 2, fun _ => 0⟩

theorem keyed_sampleDb : sampleDb.Keyed := ⟨by decide, by decide, by decide⟩

/-- From `db_lowerbound_i64` at key 2 of table 0 the walk reads the rows 3 and 4. -/
theorem lowerbound_next_reads_sample :
    (ApplyState.mk sampleDb .empty).Inv ∧ sampleDb.findTable ⟨1⟩ ⟨1⟩ ⟨1⟩ = some ⟨0, ⟨1⟩, ⟨1⟩, ⟨1⟩, ⟨1⟩, 3⟩ ∧
      (sampleDb.rows.filter fun r => r.index = .keyValue ∧ r.tId = 0 ∧ 2 ≤ r.primaryKey).length ≤ 2 ∧
      ∃ rows s', walkNext 2 ((ApplyState.mk sampleDb .empty).dbLowerboundI64 ⟨1⟩ ⟨1⟩ ⟨1⟩ 2).1
          ((ApplyState.mk sampleDb .empty).dbLowerboundI64 ⟨1⟩ ⟨1⟩ ⟨1⟩ 2).2 =
          .ok (rows, (s'.dbEndI64 ⟨1⟩ ⟨1⟩ ⟨1⟩).1, s') ∧
        rows.Perm (sampleDb.rows.filter fun r => r.index = .keyValue ∧ r.tId = 0 ∧ 2 ≤ r.primaryKey) ∧
        rows.Pairwise (fun a b => a.primaryKey < b.primaryKey) ∧ s'.db = sampleDb ∧ s'.Inv :=
  have found : sampleDb.findTable ⟨1⟩ ⟨1⟩ ⟨1⟩ = some ⟨0, ⟨1⟩, ⟨1⟩, ⟨1⟩, ⟨1⟩, 3⟩ := by decide
  have enough : (sampleDb.rows.filter fun r => r.index = .keyValue ∧ r.tId = 0 ∧ 2 ≤ r.primaryKey).length ≤ 2 := by
    decide
  ⟨inv_initial keyed_sampleDb, found, enough, lowerbound_next_reads_table (inv_initial keyed_sampleDb) found 2 enough⟩

/-- The same from `db_upperbound_i64(code, scope, table, id)`: the rows whose primary key is above
`id`. -/
theorem upperbound_next_reads_table (inv : s.Inv) {code scope table : Name} {tab : TableIdObject}
    (found : s.db.findTable code scope table = some tab) (id : UInt64) {fuel : Nat}
    (enough : (s.db.rows.filter fun r => r.index = .keyValue ∧ r.tId = tab.id ∧ id < r.primaryKey).length ≤ fuel) :
    ∃ rows s', walkNext fuel (s.dbUpperboundI64 code scope table id).1 (s.dbUpperboundI64 code scope table id).2 =
        .ok (rows, (s'.dbEndI64 code scope table).1, s') ∧
      rows.Perm (s.db.rows.filter fun r => r.index = .keyValue ∧ r.tId = tab.id ∧ id < r.primaryKey) ∧
      rows.Pairwise (fun a b => a.primaryKey < b.primaryKey) ∧ s'.db = s.db ∧ s'.Inv := by
  have above_id := s.db.filter_key_congr (t := tab.id) (k := scopePrimaryKey tab.id id + 1)
    (P := fun r => id < r.primaryKey) fun r inTable => by
      simp only [Row.scopePrimary, scopePrimaryKey, UInt64.lt_iff_toNat_lt, inTable]
      omega
  rw [← above_id] at enough ⊢
  exact boundI64_walkNext inv found rfl (by simp only [scopePrimaryKey, UInt64.toNat_zero]; omega)
    (scopePrimaryKey_lt_succ tab.id id) enough

/-- From `db_upperbound_i64` at key 2 of the owner's table 0, two `db_next_i64` calls read the
rows 3 and 4. -/
theorem upperbound_next_reads_sample :
    (ApplyState.mk sampleDb .empty).Inv ∧ sampleDb.findTable ⟨1⟩ ⟨1⟩ ⟨1⟩ = some ⟨0, ⟨1⟩, ⟨1⟩, ⟨1⟩, ⟨1⟩, 3⟩ ∧
      (sampleDb.rows.filter fun r => r.index = .keyValue ∧ r.tId = 0 ∧ 2 < r.primaryKey).length ≤ 2 ∧
      ∃ rows s', walkNext 2 ((ApplyState.mk sampleDb .empty).dbUpperboundI64 ⟨1⟩ ⟨1⟩ ⟨1⟩ 2).1
          ((ApplyState.mk sampleDb .empty).dbUpperboundI64 ⟨1⟩ ⟨1⟩ ⟨1⟩ 2).2 =
          .ok (rows, (s'.dbEndI64 ⟨1⟩ ⟨1⟩ ⟨1⟩).1, s') ∧
        rows.Perm (sampleDb.rows.filter fun r => r.index = .keyValue ∧ r.tId = 0 ∧ 2 < r.primaryKey) ∧
        rows.Pairwise (fun a b => a.primaryKey < b.primaryKey) ∧ s'.db = sampleDb ∧ s'.Inv :=
  have found : sampleDb.findTable ⟨1⟩ ⟨1⟩ ⟨1⟩ = some ⟨0, ⟨1⟩, ⟨1⟩, ⟨1⟩, ⟨1⟩, 3⟩ := by decide
  have enough : (sampleDb.rows.filter fun r => r.index = .keyValue ∧ r.tId = 0 ∧ 2 < r.primaryKey).length ≤ 2 := by
    decide
  ⟨inv_initial keyed_sampleDb, found, enough, upperbound_next_reads_table (inv_initial keyed_sampleDb) found 2 enough⟩

/-- A contract that walks a table backward from `db_end_i64(code, scope, table)` with
`db_previous_i64` reads exactly the table's rows, each once and in strictly decreasing key order,
and gets `-1` after the first row. The database is unchanged and the cache stays consistent. -/
theorem end_previous_reads_table (inv : s.Inv) {code scope table : Name} {tab : TableIdObject}
    (found : s.db.findTable code scope table = some tab) {fuel : Nat}
    (enough : (s.db.rows.filter fun r => r.index = .keyValue ∧ r.tId = tab.id).length < fuel) :
    ∃ rows s', walkPrevious fuel (s.dbEndI64 code scope table).1 (s.dbEndI64 code scope table).2 = .ok (rows, -1, s') ∧
      rows.Perm (s.db.rows.filter fun r => r.index = .keyValue ∧ r.tId = tab.id) ∧
      rows.Pairwise (fun a b => b.primaryKey < a.primaryKey) ∧ s'.db = s.db ∧ s'.Inv := by
  have pos : Points (s.dbEndI64 code scope table).2 tab.id (s.db.tableEnd tab.id) (s.dbEndI64 code scope table).1 := by
    unfold ApplyState.dbEndI64
    rw [found]
    exact .last (lookup_cacheTable tab.id)
  have db₁ : (s.dbEndI64 code scope table).2.db = s.db := by
    unfold ApplyState.dbEndI64
    rw [found]
  obtain ⟨read, sorted⟩ := ContractDb.tableRows inv.keyed (t := tab.id) le_rfl
    (le_of_lt (scopePrimaryKey_lt_succ tab.id 0))
  rw [← ContractDb.tableStart] at read sorted
  have whole : (s.db.rows.filter fun r => r.index = .keyValue ∧ r.tId = tab.id ∧ scopePrimaryKey tab.id 0 ≤ r.scopePrimary) =
      s.db.rows.filter fun r => r.index = .keyValue ∧ r.tId = tab.id := by
    refine List.filter_congr fun r _ => ?_
    rw [decide_eq_decide]
    constructor
    · rintro ⟨primary, inTable, -⟩
      exact ⟨primary, inTable⟩
    · rintro ⟨primary, inTable⟩
      exact ⟨primary, inTable, (tId_eq_iff.1 inTable).1⟩
  rw [whole] at read
  have count := read.length_eq
  rw [ContractDb.length_tableRows] at count
  obtain ⟨s', walked, db', inv', -⟩ :=
    walkPrevious_spec (inv.dbEndI64 code scope table).1 pos (by rw [db₁]; omega : _ < fuel)
  rw [db₁] at walked db'
  exact ⟨_, s', walked, (List.reverse_perm _).trans read, List.pairwise_reverse.2 sorted, db', inv'⟩

/-- From `db_end_i64` of table 0 the backward walk reads the rows 4, 3 and 1, then gets `-1`. -/
theorem end_previous_reads_sample :
    (ApplyState.mk sampleDb .empty).Inv ∧ sampleDb.findTable ⟨1⟩ ⟨1⟩ ⟨1⟩ = some ⟨0, ⟨1⟩, ⟨1⟩, ⟨1⟩, ⟨1⟩, 3⟩ ∧
      (sampleDb.rows.filter fun r => r.index = .keyValue ∧ r.tId = 0).length < 4 ∧
      ∃ rows s', walkPrevious 4 ((ApplyState.mk sampleDb .empty).dbEndI64 ⟨1⟩ ⟨1⟩ ⟨1⟩).1
          ((ApplyState.mk sampleDb .empty).dbEndI64 ⟨1⟩ ⟨1⟩ ⟨1⟩).2 = .ok (rows, -1, s') ∧
        rows.Perm (sampleDb.rows.filter fun r => r.index = .keyValue ∧ r.tId = 0) ∧
        rows.Pairwise (fun a b => b.primaryKey < a.primaryKey) ∧ s'.db = sampleDb ∧ s'.Inv :=
  have found : sampleDb.findTable ⟨1⟩ ⟨1⟩ ⟨1⟩ = some ⟨0, ⟨1⟩, ⟨1⟩, ⟨1⟩, ⟨1⟩, 3⟩ := by decide
  have enough : (sampleDb.rows.filter fun r => r.index = .keyValue ∧ r.tId = 0).length < 4 := by decide
  ⟨inv_initial keyed_sampleDb, found, enough, end_previous_reads_table (inv_initial keyed_sampleDb) found enough⟩

end ApplyState

end Fio.Chain
