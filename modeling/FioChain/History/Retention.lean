import FioChain.History.Model
import FioChain.Lib.ExceptFold

/-! What the history keeps. A log of recordings `(account, global_sequence)`, newest first,
numbers each account's recordings from `0`; `history_per_account = H` keeps each account's
newest `H` of them. Along every run of `on_action_trace` the history holds exactly those
entries, and each stored action's `use_count` is the number of entries that refer to it. -/

namespace Fio.Chain

namespace History

/-- How often `n` was recorded. -/
def recordings (log : List (Name × Nat)) (n : Name) : Nat := log.countP (·.1 = n)

/-- The entry each recording of a log gets: its account's recordings numbered from `0` in the
order they were made. -/
def numbered : List (Name × Nat) → List AccountHistoryObject
  | [] => []
  | (n, g) :: older => ⟨n, g, recordings older n⟩ :: numbered older

/-- What `history_per_account = H` keeps of a log: each account's newest `H` entries. -/
def retained (H : Nat) (log : List (Name × Nat)) : List AccountHistoryObject :=
  (numbered log).filter fun a => recordings log a.account ≤ a.accountSequenceNum + H

@[simp] theorem recordings_cons_self (n : Name) (g : Nat) (log : List (Name × Nat)) :
    recordings ((n, g) :: log) n = recordings log n + 1 := by
  simp [recordings]

theorem recordings_cons_of_ne {m n : Name} (g : Nat) (log : List (Name × Nat)) (other : m ≠ n) :
    recordings ((m, g) :: log) n = recordings log n := by
  simp [recordings, other]

theorem name_eq_of_toNat {a b : Name} (same : a.value.toNat = b.value.toNat) : a = b := by
  cases a
  cases b
  congr
  exact UInt64.toNat_inj.1 same

theorem accountSeq_inj {a b : Name} {i j : Int} (same : accountSeq a i = accountSeq b j) : a = b ∧ i = j := by
  have pair := toLex.injective same
  simp only [Prod.mk.injEq] at pair
  exact ⟨name_eq_of_toNat pair.1, pair.2⟩

variable {log : List (Name × Nat)} {a : AccountHistoryObject}

theorem accountSequenceNum_lt (mem : a ∈ numbered log) : a.accountSequenceNum < recordings log a.account := by
  induction log with
  | nil => cases mem
  | cons p older ih =>
    obtain ⟨m, g⟩ := p
    rcases List.mem_cons.1 mem with rfl | mem
    · simp
    · have := ih mem
      by_cases same : m = a.account
      · subst same
        rw [recordings_cons_self]
        omega
      · rwa [recordings_cons_of_ne _ _ same]

theorem mem_log_of_numbered (mem : a ∈ numbered log) : (a.account, a.actionSequenceNum) ∈ log := by
  induction log with
  | nil => cases mem
  | cons p older ih =>
    obtain ⟨m, g⟩ := p
    rcases List.mem_cons.1 mem with rfl | mem
    · exact List.mem_cons_self
    · exact List.mem_cons_of_mem _ (ih mem)

/-- Each of an account's numbers below its count of recordings is some recording's. -/
theorem exists_numbered {n : Name} {i : Nat} (below : i < recordings log n) :
    ∃ g, (⟨n, g, i⟩ : AccountHistoryObject) ∈ numbered log := by
  induction log with
  | nil => simp [recordings] at below
  | cons p older ih =>
    obtain ⟨m, g⟩ := p
    by_cases same : m = n
    · subst same
      rw [recordings_cons_self] at below
      rcases Nat.lt_succ_iff_lt_or_eq.1 below with earlier | newest
      · obtain ⟨g', mem⟩ := ih earlier
        exact ⟨g', List.mem_cons_of_mem _ mem⟩
      · -- the newest recording is `m`'s and takes the number `i`
        subst newest
        exact ⟨g, List.mem_cons_self⟩
    · obtain ⟨g', mem⟩ := ih (by rwa [recordings_cons_of_ne _ _ same] at below)
      exact ⟨g', List.mem_cons_of_mem _ mem⟩

theorem mem_retained {H : Nat} : a ∈ retained H log ↔ a ∈ numbered log ∧ recordings log a.account ≤ a.accountSequenceNum + H := by
  simp [retained]

/-- Recording `n` adds its new entry, when anything is kept, and drops its entry `H` back. -/
theorem mem_retained_cons {H : Nat} {n : Name} {g : Nat} :
    a ∈ retained H ((n, g) :: log) ↔
      (a = ⟨n, g, recordings log n⟩ ∧ 0 < H) ∨
        (a ∈ retained H log ∧ ¬(a.account = n ∧ a.accountSequenceNum + H = recordings log n)) := by
  rw [mem_retained, mem_retained, numbered, List.mem_cons]
  constructor
  · rintro ⟨rfl | mem, kept⟩
    · rw [recordings_cons_self] at kept
      dsimp only at kept
      exact .inl ⟨rfl, by omega⟩
    · have := accountSequenceNum_lt mem
      right
      by_cases same : n = a.account
      · subst same
        rw [recordings_cons_self] at kept
        exact ⟨⟨mem, by omega⟩, fun ⟨_, back⟩ => by omega⟩
      · rw [recordings_cons_of_ne _ _ same] at kept
        exact ⟨⟨mem, kept⟩, fun ⟨other, _⟩ => same other.symm⟩
  · rintro (⟨rfl, positive⟩ | ⟨⟨mem, kept⟩, notBack⟩)
    · refine ⟨.inl rfl, ?_⟩
      rw [recordings_cons_self]
      dsimp only
      omega
    · refine ⟨.inr mem, ?_⟩
      by_cases same : n = a.account
      · subst same
        rw [recordings_cons_self]
        have : ¬ (a.accountSequenceNum + H = recordings log a.account) := fun back => notBack ⟨rfl, back⟩
        omega
      · rwa [recordings_cons_of_ne _ _ same]

variable {τ : Type} {H : Nat} {db : HistoryDb τ}

/-- How many entries refer to the action `seq`. -/
def refs (entries : List AccountHistoryObject) (seq : Nat) : Nat :=
  entries.countP (·.actionSequenceNum = seq)

/-- The history holds what `history_per_account = H` keeps of `log`, under unique keys, and
each stored action's `use_count` counts, modulo its `uint8_t`, the entries that refer to it:
one at least, and no more than `256`. -/
structure Retains (H : Nat) (log : List (Name × Nat)) (db : HistoryDb τ) : Prop where
  entries : ∀ a, a ∈ db.accountHistory ↔ a ∈ retained H log
  keys : (db.accountHistory.map AccountHistoryObject.key).Nodup
  actionKeys : (db.actionHistory.map (·.actionSequenceNum)).Nodup
  counted : ∀ o ∈ db.actionHistory, o.useCount.toNat = refs db.accountHistory o.actionSequenceNum % 256 ∧
    0 < refs db.accountHistory o.actionSequenceNum ∧ refs db.accountHistory o.actionSequenceNum ≤ 256

theorem accountSeq_le_accountSeq {a b : Name} {i j : Int} :
    accountSeq a i ≤ accountSeq b j ↔ a.value.toNat < b.value.toNat ∨ a.value.toNat = b.value.toNat ∧ i ≤ j :=
  Prod.Lex.toLex_le_toLex

theorem accountSeq_lt_accountSeq {a b : Name} {i j : Int} :
    accountSeq a i < accountSeq b j ↔ a.value.toNat < b.value.toNat ∨ a.value.toNat = b.value.toNat ∧ i < j :=
  Prod.Lex.toLex_lt_toLex

theorem mem_byAccountActionSeq {a : AccountHistoryObject} : a ∈ db.byAccountActionSeq ↔ a ∈ db.accountHistory :=
  (SortedIndex.perm_sort _).mem_iff

theorem Retains.numbered (retains : Retains H log db) {a : AccountHistoryObject} (mem : a ∈ db.accountHistory) :
    a ∈ History.numbered log ∧ recordings log a.account ≤ a.accountSequenceNum + H :=
  mem_retained.1 ((retains.entries a).1 mem)

/-- The entry a new recording of `n` gets has a key no stored entry has. -/
theorem Retains.find_next (retains : Retains H log db) (n : Name) :
    KeyedList.find AccountHistoryObject.key db.accountHistory (accountSeq n (recordings log n)) = none := by
  refine KeyedList.find_eq_none.2 fun a mem same => ?_
  obtain ⟨rfl, numbers⟩ := accountSeq_inj same
  have := accountSequenceNum_lt (retains.numbered mem).1
  omega

theorem Retains.keys_next (retains : Retains H log db) (n : Name) (g : Nat) :
    ((db.accountHistory ++ [(⟨n, g, recordings log n⟩ : AccountHistoryObject)]).map
      AccountHistoryObject.key).Nodup :=
  KeyedList.nodup_append_of_find retains.keys (retains.find_next n)

/-- `n`'s next `account_sequence_num` is its count of recordings: while `H` keeps at least one
entry, the entry before `lower_bound(n + 1, 0)` is `n`'s newest, or no entry of `n`'s. -/
theorem Retains.nextAccountSequenceNum_eq (retains : Retains H log db) (positive : 0 < H) {n : Name}
    (small : n.value.toNat + 1 < 2 ^ 64) :
    nextAccountSequenceNum db.byAccountActionSeq n = recordings log n := by
  have sorted : SortedIndex.Sorted AccountHistoryObject.key db.byAccountActionSeq :=
    SortedIndex.sorted_sort retains.keys
  have succ : (n.value + 1).toNat = n.value.toNat + 1 := by
    rw [UInt64.toNat_add, UInt64.toNat_one, Nat.mod_eq_of_lt small]
  unfold History.nextAccountSequenceNum
  dsimp only
  by_cases unrecorded : recordings log n = 0
  · -- whatever entry is read, it is not `n`'s
    rw [unrecorded]
    split
    · rename_i a found
      have kept := retains.numbered (mem_byAccountActionSeq.1 (List.mem_of_getElem? found))
      rw [if_neg]
      rintro rfl
      have := accountSequenceNum_lt kept.1
      omega
    · rfl
  · obtain ⟨g, mem⟩ := exists_numbered (show recordings log n - 1 < recordings log n by omega)
    have kept : (⟨n, g, recordings log n - 1⟩ : AccountHistoryObject) ∈ db.byAccountActionSeq :=
      mem_byAccountActionSeq.2 ((retains.entries _).2 (mem_retained.2 ⟨mem, by dsimp only; omega⟩))
    have below : AccountHistoryObject.key ⟨n, g, recordings log n - 1⟩ < accountSeq ⟨n.value + 1⟩ 0 :=
      accountSeq_lt_accountSeq.2 (.inl (by dsimp only; omega))
    obtain ⟨inside, pos, above, under⟩ := SortedIndex.pred_lowerBound sorted kept below
    have bmem := List.getElem_mem inside
    rw [if_neg (by omega), List.getElem?_eq_getElem inside]
    -- the entry read lies between `n`'s newest and the next account: it is `n`'s newest
    generalize db.byAccountActionSeq[SortedIndex.lowerBound AccountHistoryObject.key db.byAccountActionSeq
      (accountSeq ⟨n.value + 1⟩ 0) - 1] = b at bmem above under ⊢
    have bkept := retains.numbered (mem_byAccountActionSeq.1 bmem)
    have above := accountSeq_le_accountSeq.1 above
    have under := accountSeq_lt_accountSeq.1 under
    dsimp only at above under
    have same : b.account = n := name_eq_of_toNat (by omega)
    have newest := accountSequenceNum_lt bkept.1
    rw [same] at newest
    dsimp only
    rw [if_pos same]
    omega

/-- While the account keeps fewer than `H` entries, its new entry is only added. -/
theorem Retains.recordAccountAction_keep (retains : Retains H log db) (positive : 0 < H) {n : Name}
    (small : n.value.toNat + 1 < 2 ^ 64) (g : Nat) (below : recordings log n < H) :
    recordAccountAction H n g db =
      .ok { db with accountHistory := db.accountHistory ++ [⟨n, g, recordings log n⟩] } := by
  unfold recordAccountAction
  rw [retains.nextAccountSequenceNum_eq positive small]
  simp only [AccountHistoryObject.key, retains.find_next n, Option.isSome_none, Bool.false_eq_true,
    if_false, if_neg (Nat.not_le.2 below)]
  rfl

/-- Between the actions of one `on_action_trace`, those recorded so far for the action `g`
refer to no stored action yet: every other entry's action is stored, and `g`'s is not. -/
structure Recording (H : Nat) (log : List (Name × Nat)) (g : Nat) (db : HistoryDb τ) : Prop
    extends Retains H log db where
  referenced : ∀ a ∈ db.accountHistory, a.actionSequenceNum ≠ g →
    ∃ o ∈ db.actionHistory, o.actionSequenceNum = a.actionSequenceNum
  absent : ∀ o ∈ db.actionHistory, o.actionSequenceNum ≠ g

/-- Once the account has `H` entries, its entry `H` back goes, and the action it referred to
loses a use, or goes when this was its last. -/
theorem Recording.recordAccountAction_evict {g : Nat} (recording : Recording H log g db) (positive : 0 < H)
    {n : Name} (small : n.value.toNat + 1 < 2 ^ 64) (fresh : ∀ p ∈ log, p.1 = n → p.2 ≠ g)
    (evict : H ≤ recordings log n) :
    ∃ e ∈ db.accountHistory, e.account = n ∧ e.accountSequenceNum + H = recordings log n ∧
      e.actionSequenceNum ≠ g ∧ ∃ o ∈ db.actionHistory, o.actionSequenceNum = e.actionSequenceNum ∧
        recordAccountAction H n g db =
          .ok ⟨KeyedList.erase AccountHistoryObject.key
              (db.accountHistory ++ [⟨n, g, recordings log n⟩]) e.key,
            if o.useCount = 1 then
              KeyedList.erase ActionHistoryObject.actionSequenceNum db.actionHistory o.actionSequenceNum
            else
              KeyedList.modify ActionHistoryObject.actionSequenceNum db.actionHistory o.actionSequenceNum
                fun a => { a with useCount := a.useCount - 1 }⟩ := by
  obtain ⟨s, mem⟩ := exists_numbered (show recordings log n - H < recordings log n by omega)
  have stored : (⟨n, s, recordings log n - H⟩ : AccountHistoryObject) ∈ db.accountHistory :=
    (recording.entries _).2 (mem_retained.2 ⟨mem, by dsimp only; omega⟩)
  have older : s ≠ g := fresh _ (mem_log_of_numbered mem) rfl
  obtain ⟨o, present, same⟩ := recording.referenced _ stored older
  refine ⟨_, stored, rfl, by dsimp only; omega, older, o, present, same, ?_⟩
  have next : KeyedList.find AccountHistoryObject.key db.accountHistory
      (AccountHistoryObject.key ⟨n, g, recordings log n⟩) = none := recording.find_next n
  -- `lower_bound(n, asn - H)` finds that entry in the index that holds the new one
  have found := SortedIndex.getElem?_lowerBound_of_mem (SortedIndex.sorted_sort (recording.keys_next n g))
    ((SortedIndex.perm_sort _).mem_iff.2 (List.mem_append_left _ stored))
  have target : KeyedList.find ActionHistoryObject.actionSequenceNum db.actionHistory s = some o := by
    have same : o.actionSequenceNum = s := same
    rw [← same]
    exact KeyedList.find_of_mem recording.actionKeys present
  unfold recordAccountAction
  rw [recording.nextAccountSequenceNum_eq positive small]
  dsimp only [AccountHistoryObject.key] at found
  simp only [next, Option.isSome_none, Bool.false_eq_true, if_false, if_pos evict,
    HistoryDb.byAccountActionSeq, found, HistoryDb.getAction, target]
  rfl

theorem refs_append_of_ne (l : List AccountHistoryObject) {x : AccountHistoryObject} {s : Nat}
    (other : x.actionSequenceNum ≠ s) : refs (l ++ [x]) s = refs l s := by
  simp [refs, other]

theorem refs_append_self (l : List AccountHistoryObject) (x : AccountHistoryObject) :
    refs (l ++ [x]) x.actionSequenceNum = refs l x.actionSequenceNum + 1 := by
  simp [refs]

theorem refs_erase {l : List AccountHistoryObject} {x : AccountHistoryObject}
    (keys : (l.map AccountHistoryObject.key).Nodup) (mem : x ∈ l) (s : Nat) :
    refs l s = refs (KeyedList.erase AccountHistoryObject.key l x.key) s +
      if x.actionSequenceNum = s then 1 else 0 := by
  simpa [refs] using KeyedList.countP_erase (fun a : AccountHistoryObject => decide (a.actionSequenceNum = s)) keys mem

/-- Adding the new entry keeps the invariant while nothing is dropped. -/
theorem Recording.keep {g : Nat} (recording : Recording H log g db) {n : Name} (below : recordings log n < H) :
    Recording H ((n, g) :: log) g
      { db with accountHistory := db.accountHistory ++ [⟨n, g, recordings log n⟩] } where
  entries a := by
    rw [mem_retained_cons, List.mem_append, List.mem_singleton, recording.entries]
    constructor
    · rintro (mem | rfl)
      · exact .inr ⟨mem, fun ⟨_, back⟩ => by omega⟩
      · exact .inl ⟨rfl, by omega⟩
    · rintro (⟨rfl, -⟩ | ⟨mem, -⟩)
      · exact .inr rfl
      · exact .inl mem
  keys := recording.keys_next n g
  actionKeys := recording.actionKeys
  counted o mem := by
    rw [refs_append_of_ne _ (recording.absent o mem).symm]
    exact recording.counted o mem
  referenced a mem other := by
    rcases List.mem_append.1 mem with mem | single
    · exact recording.referenced a mem other
    · rw [List.mem_singleton] at single
      exact absurd (by rw [single]) other
  absent := recording.absent

/-- What `record_account_action` leaves of the action history once it drops an entry whose
action is `o`. -/
theorem mem_release {o o' : ActionHistoryObject τ} {actions : List (ActionHistoryObject τ)}
    (mem : o' ∈ if o.useCount = 1 then
        KeyedList.erase ActionHistoryObject.actionSequenceNum actions o.actionSequenceNum
      else
        KeyedList.modify ActionHistoryObject.actionSequenceNum actions o.actionSequenceNum
          fun a => { a with useCount := a.useCount - 1 }) :
    ∃ x ∈ actions, o'.actionSequenceNum = x.actionSequenceNum ∧
      (x.actionSequenceNum = o.actionSequenceNum → o.useCount ≠ 1 ∧ o'.useCount = x.useCount - 1) ∧
      (x.actionSequenceNum ≠ o.actionSequenceNum → o' = x) := by
  split at mem
  · obtain ⟨present, other⟩ := KeyedList.mem_erase.1 mem
    exact ⟨o', present, rfl, fun same => absurd same other, fun _ => rfl⟩
  · rename_i kept
    obtain ⟨x, present, rfl⟩ := KeyedList.mem_modify mem
    refine ⟨x, present, by split <;> rfl, fun same => ⟨kept, by rw [if_pos same]⟩, fun other => by rw [if_neg other]⟩

theorem exists_release {o x : ActionHistoryObject τ} {actions : List (ActionHistoryObject τ)}
    (present : x ∈ actions) (kept : o.useCount = 1 → x.actionSequenceNum ≠ o.actionSequenceNum) :
    ∃ o' ∈ (if o.useCount = 1 then
        KeyedList.erase ActionHistoryObject.actionSequenceNum actions o.actionSequenceNum
      else
        KeyedList.modify ActionHistoryObject.actionSequenceNum actions o.actionSequenceNum
          fun a => { a with useCount := a.useCount - 1 }), o'.actionSequenceNum = x.actionSequenceNum := by
  split
  · rename_i last
    exact ⟨x, KeyedList.mem_erase.2 ⟨present, kept last⟩, rfl⟩
  · exact ⟨_, List.mem_map_of_mem present, by split <;> rfl⟩

theorem nodup_release {o : ActionHistoryObject τ} {actions : List (ActionHistoryObject τ)}
    (keys : (actions.map (·.actionSequenceNum)).Nodup) :
    ((if o.useCount = 1 then
        KeyedList.erase ActionHistoryObject.actionSequenceNum actions o.actionSequenceNum
      else
        KeyedList.modify ActionHistoryObject.actionSequenceNum actions o.actionSequenceNum
          fun a => { a with useCount := a.useCount - 1 }).map (·.actionSequenceNum)).Nodup := by
  split
  · exact KeyedList.nodup_erase keys
  · exact KeyedList.nodup_modify (fun _ => rfl) keys

theorem toNat_ne_one {u : UInt8} (other : u ≠ 1) : u.toNat ≠ 1 :=
  fun one => other (UInt8.toNat_inj.1 (by rw [one]; rfl))

/-- Dropping the entry `H` back keeps the invariant: the entry leaves what is retained as the
new one enters, and its action loses exactly the use the entry made of it. -/
theorem Recording.evict {g : Nat} (recording : Recording H log g db) (positive : 0 < H) {n : Name}
    {e : AccountHistoryObject} (stored : e ∈ db.accountHistory) (account : e.account = n)
    (back : e.accountSequenceNum + H = recordings log n)
    {o : ActionHistoryObject τ} (present : o ∈ db.actionHistory) (same : o.actionSequenceNum = e.actionSequenceNum) :
    Recording H ((n, g) :: log) g
      ⟨KeyedList.erase AccountHistoryObject.key (db.accountHistory ++ [⟨n, g, recordings log n⟩]) e.key,
        if o.useCount = 1 then
          KeyedList.erase ActionHistoryObject.actionSequenceNum db.actionHistory o.actionSequenceNum
        else
          KeyedList.modify ActionHistoryObject.actionSequenceNum db.actionHistory o.actionSequenceNum
            fun a => { a with useCount := a.useCount - 1 }⟩ where
  entries a := by
    rw [KeyedList.mem_erase, mem_retained_cons, List.mem_append, List.mem_singleton, recording.entries]
    constructor
    · rintro ⟨mem | rfl, other⟩
      · refine .inr ⟨mem, fun ⟨named, dropped⟩ => other ?_⟩
        -- the same account and number as the dropped entry
        unfold AccountHistoryObject.key
        rw [named, ← account]
        congr 1
        omega
      · exact .inl ⟨rfl, positive⟩
    · rintro (⟨rfl, -⟩ | ⟨mem, kept⟩)
      · refine ⟨.inr rfl, fun named => ?_⟩
        obtain ⟨-, numbers⟩ := accountSeq_inj named
        dsimp only at numbers
        omega
      · refine ⟨.inl mem, fun named => kept ?_⟩
        obtain ⟨named, numbers⟩ := accountSeq_inj named
        exact ⟨named.trans account, by omega⟩
  keys := KeyedList.nodup_erase (recording.keys_next n g)
  actionKeys := nodup_release recording.actionKeys
  counted o' mem := by
    dsimp only at mem ⊢
    obtain ⟨x, present', seq, hit, miss⟩ := mem_release mem
    have count := refs_erase (recording.keys_next n g)
      (List.mem_append_left _ stored) o'.actionSequenceNum
    rw [refs_append_of_ne _ (seq ▸ recording.absent x present').symm] at count
    obtain ⟨counts, pos, le⟩ := recording.counted x present'
    rw [← seq] at counts pos le
    by_cases dropped : x.actionSequenceNum = o.actionSequenceNum
    · -- the action loses the use the dropped entry made of it
      obtain ⟨kept, use⟩ := hit dropped
      have last := toNat_ne_one kept
      obtain ⟨counts', -, -⟩ := recording.counted o present
      rw [← dropped, ← seq] at counts'
      rw [if_pos (by rw [seq, dropped, same])] at count
      rw [use, UInt8.toNat_sub, UInt8.toNat_one]
      omega
    · obtain rfl := miss dropped
      rw [if_neg (by rw [← same]; exact Ne.symm dropped)] at count
      omega
  referenced a mem other := by
    obtain ⟨mem, apart⟩ := KeyedList.mem_erase.1 mem
    rcases List.mem_append.1 mem with mem | single
    · obtain ⟨x, present', ref⟩ := recording.referenced a mem other
      obtain ⟨o', kept, seq⟩ := exists_release (o := o) present' fun last dropped => by
        -- `e` was the last entry of its action, yet `a` refers to it too
        have count := refs_erase recording.keys stored e.actionSequenceNum
        have also : 0 < refs (KeyedList.erase AccountHistoryObject.key db.accountHistory e.key) e.actionSequenceNum :=
          List.countP_pos_iff.2 ⟨a, KeyedList.mem_erase.2 ⟨mem, apart⟩, by simp [← ref, dropped, same]⟩
        obtain ⟨counts, -, le⟩ := recording.counted o present
        rw [last, same, UInt8.toNat_one] at counts
        rw [same] at le
        rw [if_pos rfl] at count
        omega
      exact ⟨o', kept, seq.trans ref⟩
    · rw [List.mem_singleton] at single
      exact absurd (by rw [single]) other
  absent o' mem := by
    obtain ⟨x, present', seq, -, -⟩ := mem_release mem
    rw [seq]
    exact recording.absent x present'

/-- One `record_account_action` of a fresh recording keeps the invariant and adds one entry
referring to `g`. -/
theorem Recording.recordAccountAction {g : Nat} (recording : Recording H log g db) (positive : 0 < H)
    {n : Name} (small : n.value.toNat + 1 < 2 ^ 64) (fresh : ∀ p ∈ log, p.1 = n → p.2 ≠ g) :
    ∃ db', recordAccountAction H n g db = .ok db' ∧ Recording H ((n, g) :: log) g db' ∧
      refs db'.accountHistory g = refs db.accountHistory g + 1 := by
  have grown : refs (db.accountHistory ++ [⟨n, g, recordings log n⟩]) g = refs db.accountHistory g + 1 :=
    refs_append_self _ _
  by_cases evict : H ≤ recordings log n
  · obtain ⟨e, stored, account, back, older, o, present, same, run⟩ :=
      recording.recordAccountAction_evict positive small fresh evict
    refine ⟨_, run, recording.evict positive stored account back present same, ?_⟩
    have count := refs_erase (recording.keys_next n g) (List.mem_append_left _ stored) g
    rw [if_neg older] at count
    dsimp only
    omega
  · exact ⟨_, recording.recordAccountAction_keep positive small g (by omega), recording.keep (by omega), grown⟩

/-- `for (auto a : aset) { record_account_action(a, at); use_count++; }` over distinct accounts
records each of them, and `use_count` counts them in its `uint8_t`. -/
theorem Recording.recordAll {g : Nat} (recording : Recording H log g db) (positive : 0 < H)
    {aset : List Name} (nodup : aset.Nodup) (small : ∀ n ∈ aset, n.value.toNat + 1 < 2 ^ 64)
    (fresh : ∀ p ∈ log, p.1 ∈ aset → p.2 ≠ g) (k : UInt8) :
    ∃ db' k', recordAll H g aset (db, k) = .ok (db', k') ∧ k'.toNat = (k.toNat + aset.length) % 256 ∧
      Recording H (aset.reverse.map (·, g) ++ log) g db' ∧
      refs db'.accountHistory g = refs db.accountHistory g + aset.length := by
  induction aset generalizing log db k with
  | nil =>
    have := k.toNat_lt
    refine ⟨db, k, rfl, by simp only [List.length_nil]; omega, ?_, rfl⟩
    simpa only [List.reverse_nil, List.map_nil, List.nil_append] using recording
  | cons n rest ih =>
    obtain ⟨db₁, run, recording₁, grown₁⟩ := recording.recordAccountAction positive
      (small n List.mem_cons_self) fun p mem same => fresh p mem (same ▸ List.mem_cons_self)
    have fresh₁ : ∀ p ∈ (n, g) :: log, p.1 ∈ rest → p.2 ≠ g := by
      intro p mem inRest
      rcases List.mem_cons.1 mem with rfl | mem
      · exact absurd inRest (List.nodup_cons.1 nodup).1
      · exact fresh p mem (List.mem_cons_of_mem _ inRest)
    obtain ⟨db', k', run', counter, recording', grown'⟩ := ih recording₁ (List.nodup_cons.1 nodup).2
      (fun m mem => small m (List.mem_cons_of_mem _ mem)) fresh₁ (k + 1)
    refine ⟨db', k', ?_, ?_, ?_, ?_⟩
    · simp only [History.recordAll, run]
      exact run'
    · rw [counter, UInt8.toNat_add, UInt8.toNat_one, List.length_cons]
      omega
    · simpa only [List.reverse_cons, List.map_append, List.map_cons, List.map_nil, List.append_assoc,
        List.singleton_append] using recording'
    · rw [grown', grown₁, List.length_cons]
      omega

/-- The invariant between two actions: every entry's action is stored. -/
structure Stored (H : Nat) (log : List (Name × Nat)) (db : HistoryDb τ) : Prop extends Retains H log db where
  referenced : ∀ a ∈ db.accountHistory, ∃ o ∈ db.actionHistory, o.actionSequenceNum = a.actionSequenceNum

/-- No entry refers to an action newer than every recording. -/
theorem Retains.refs_eq_zero {g : Nat} (retains : Retains H log db) (fresh : ∀ p ∈ log, p.2 ≠ g) :
    refs db.accountHistory g = 0 :=
  List.countP_eq_zero.2 fun _ entry same =>
    fresh _ (mem_log_of_numbered (retains.numbered entry).1) (of_decide_eq_true same)

theorem Stored.recording {g : Nat} (stored : Stored H log db) (fresh : ∀ p ∈ log, p.2 ≠ g) :
    Recording H log g db where
  toRetains := stored.toRetains
  referenced a mem _ := stored.referenced a mem
  absent o mem same := by
    -- a stored action is some retained entry's, and every recording so far is older than `g`
    obtain ⟨-, pos, -⟩ := stored.counted o mem
    obtain ⟨a, entry, ref⟩ := List.countP_pos_iff.1 pos
    exact fresh _ (mem_log_of_numbered (stored.numbered entry).1) ((of_decide_eq_true ref).trans same)

/-- `on_action_trace` of an action newer than every recording, for a set of at most `256`
accounts, stores the action with one use for each and keeps the invariant. -/
theorem Stored.onActionTrace (stored : Stored H log db) (positive : 0 < H) {aset : List Name}
    (nodup : aset.Nodup) (named : aset ≠ []) (few : aset.length ≤ 256)
    (small : ∀ n ∈ aset, n.value.toNat + 1 < 2 ^ 64) {g : Nat} (fresh : ∀ p ∈ log, p.2 ≠ g)
    (blockNum : Nat) (blockTime : BlockTimestamp) (trace : τ) :
    ∃ db', onActionTrace H aset g blockNum blockTime trace db = .ok db' ∧
      Stored H (aset.reverse.map (·, g) ++ log) db' := by
  obtain ⟨db₁, k, run, counter, recording, grown⟩ :=
    (stored.recording fresh).recordAll positive nodup small (fun p mem _ => fresh p mem) 0
  have untouched := stored.refs_eq_zero fresh
  have unused : KeyedList.find ActionHistoryObject.actionSequenceNum db₁.actionHistory g = none :=
    KeyedList.find_eq_none.2 recording.absent
  have length := List.length_pos_of_ne_nil named
  refine ⟨{ db₁ with actionHistory := db₁.actionHistory ++ [⟨g, trace, blockNum, blockTime, k⟩] }, ?_,
    ⟨⟨recording.entries, recording.keys, KeyedList.nodup_append_of_find recording.actionKeys unused, ?_⟩, ?_⟩⟩
  · simp only [History.onActionTrace, run, ExceptFold.ok_bind, unused, Option.isSome_none,
      Bool.false_eq_true, if_false]
    rfl
  · intro o mem
    rcases List.mem_append.1 mem with mem | single
    · exact recording.counted o mem
    · -- the new action: one use for each account of the set
      rw [List.mem_singleton] at single
      subst single
      dsimp only
      rw [counter, UInt8.toNat_zero, grown, untouched]
      omega
  · intro a mem
    by_cases current : a.actionSequenceNum = g
    · exact ⟨_, List.mem_append_right _ (List.mem_singleton_self _), current.symm⟩
    · obtain ⟨o, present, same⟩ := recording.referenced a mem current
      exact ⟨o, List.mem_append_left _ present, same⟩

/-- The recordings a run adds to `log`, newest first. -/
def logOf : List (ActionRecord τ) → List (Name × Nat) → List (Name × Nat)
  | [], log => log
  | act :: rest, log => logOf rest (act.aset.reverse.map (·, act.globalSequence) ++ log)

/-- What `on_action_trace` asks of an action: a set of distinct accounts (`account_set` always
holds the receiver), at most `256` of them for `use_count`, none of them the greatest name. -/
def ActionRecord.WellFormed (act : ActionRecord τ) : Prop :=
  act.aset.Nodup ∧ act.aset ≠ [] ∧ act.aset.length ≤ 256 ∧ ∀ n ∈ act.aset, n.value.toNat + 1 < 2 ^ 64

instance (act : ActionRecord τ) : Decidable act.WellFormed :=
  inferInstanceAs (Decidable (_ ∧ _ ∧ _ ∧ _))

theorem Stored.onActionTraces (stored : Stored H log db) (positive : 0 < H) {acts : List (ActionRecord τ)}
    (wellFormed : ∀ act ∈ acts, act.WellFormed) (distinct : (acts.map (·.globalSequence)).Nodup)
    (fresh : ∀ act ∈ acts, ∀ p ∈ log, p.2 ≠ act.globalSequence) :
    ∃ db', onActionTraces H acts db = .ok db' ∧ Stored H (logOf acts log) db' := by
  induction acts generalizing log db with
  | nil => exact ⟨db, rfl, stored⟩
  | cons act rest ih =>
    obtain ⟨nodup, named, few, small⟩ := wellFormed act List.mem_cons_self
    obtain ⟨db₁, run, stored₁⟩ := stored.onActionTrace positive nodup named few small
      (fresh act List.mem_cons_self) act.blockNum act.blockTime act.trace
    obtain ⟨older, distinct⟩ := List.nodup_cons.1 distinct
    -- the action's own recordings are older than every later action
    have fresh₁ : ∀ later ∈ rest, ∀ p ∈ act.aset.reverse.map (·, act.globalSequence) ++ log,
        p.2 ≠ later.globalSequence := by
      intro later mem p recorded
      rcases List.mem_append.1 recorded with recorded | recorded
      · obtain ⟨n, -, rfl⟩ := List.mem_map.1 recorded
        exact fun same => older (List.mem_map.2 ⟨later, mem, same.symm⟩)
      · exact fresh later (List.mem_cons_of_mem _ mem) p recorded
    obtain ⟨db', run', stored'⟩ := ih stored₁ (fun a mem => wellFormed a (List.mem_cons_of_mem _ mem))
      distinct fresh₁
    refine ⟨db', ?_, stored'⟩
    simp only [History.onActionTraces, run, ExceptFold.ok_bind]
    exact run'

theorem stored_empty (H : Nat) : Stored H [] (⟨[], []⟩ : HistoryDb τ) where
  entries a := by simp [retained, numbered]
  keys := List.nodup_nil
  actionKeys := List.nodup_nil
  counted _ mem := nomatch mem
  referenced _ mem := nomatch mem

/-- From an empty history, along every run of `on_action_trace` over well-formed actions with
distinct global sequences, every call returns normally; the history holds exactly each
account's newest `history_per_account` recordings; each stored action's `use_count` is, in its
`uint8_t`, the number of entries referring to it, of which there are between `1` and `256`; and
every entry's action is stored. The first recording of the run reads `idx.end()` of the empty
index, undefined behaviour in C++, which `nextAccountSequenceNum` takes as no entry. -/
theorem history_keeps_newest_per_account (positive : 0 < H) (acts : List (ActionRecord τ))
    (wellFormed : ∀ act ∈ acts, act.WellFormed) (distinct : (acts.map (·.globalSequence)).Nodup) :
    ∃ db, onActionTraces H acts ⟨[], []⟩ = .ok db ∧
      (∀ a, a ∈ db.accountHistory ↔ a ∈ retained H (logOf acts [])) ∧
      (∀ o ∈ db.actionHistory, o.useCount.toNat = refs db.accountHistory o.actionSequenceNum % 256 ∧
        0 < refs db.accountHistory o.actionSequenceNum ∧ refs db.accountHistory o.actionSequenceNum ≤ 256) ∧
      ∀ a ∈ db.accountHistory, ∃ o ∈ db.actionHistory, o.actionSequenceNum = a.actionSequenceNum := by
  obtain ⟨db, run, stored⟩ := (stored_empty H).onActionTraces positive wellFormed distinct
    fun _ _ _ none => nomatch none
  exact ⟨db, run, stored.entries, stored.counted, stored.referenced⟩

/-- Three actions, the second for two accounts, with two entries kept for each account. -/
def sampleActions : List (ActionRecord Unit) :=
  [⟨[⟨1⟩], 10, 1, ⟨1⟩, ()⟩, ⟨[⟨1⟩, ⟨2⟩], 11, 1, ⟨1⟩, ()⟩, ⟨[⟨1⟩], 12, 2, ⟨2⟩, ()⟩]

theorem history_keeps_newest_sample :
    0 < 2 ∧ (∀ act ∈ sampleActions, act.WellFormed) ∧ (sampleActions.map (·.globalSequence)).Nodup ∧
      ∃ db, onActionTraces 2 sampleActions ⟨[], []⟩ = .ok db ∧
        (∀ a, a ∈ db.accountHistory ↔ a ∈ retained 2 (logOf sampleActions [])) ∧
        (∀ o ∈ db.actionHistory, o.useCount.toNat = refs db.accountHistory o.actionSequenceNum % 256 ∧
          0 < refs db.accountHistory o.actionSequenceNum ∧ refs db.accountHistory o.actionSequenceNum ≤ 256) ∧
        ∀ a ∈ db.accountHistory, ∃ o ∈ db.actionHistory, o.actionSequenceNum = a.actionSequenceNum := by
  have positive : 0 < 2 := by decide
  have wellFormed : ∀ act ∈ sampleActions, act.WellFormed := by decide
  have distinct : (sampleActions.map (·.globalSequence)).Nodup := by decide
  exact ⟨positive, wellFormed, distinct, history_keeps_newest_per_account positive sampleActions wellFormed distinct⟩

/-- Whatever the history holds, the key `record_account_action` gives a new entry of `n` is one
no entry has: the entry read before `lower_bound(n + 1, 0)` is `n`'s newest when `n` has one. -/
theorem find_nextAccountSequenceNum {db : HistoryDb τ}
    (keys : (db.accountHistory.map AccountHistoryObject.key).Nodup) {n : Name}
    (small : n.value.toNat + 1 < 2 ^ 64) :
    KeyedList.find AccountHistoryObject.key db.accountHistory
      (accountSeq n (nextAccountSequenceNum db.byAccountActionSeq n)) = none := by
  have sorted : SortedIndex.Sorted AccountHistoryObject.key db.byAccountActionSeq :=
    SortedIndex.sorted_sort keys
  have succ : (n.value + 1).toNat = n.value.toNat + 1 := by
    rw [UInt64.toNat_add, UInt64.toNat_one, Nat.mod_eq_of_lt small]
  refine KeyedList.find_eq_none.2 fun a mem same => ?_
  obtain ⟨named, numbers⟩ := accountSeq_inj same
  have below : a.key < accountSeq ⟨n.value + 1⟩ 0 :=
    accountSeq_lt_accountSeq.2 (.inl (by rw [named]; dsimp only; omega))
  obtain ⟨inside, pos, above, under⟩ :=
    SortedIndex.pred_lowerBound sorted (mem_byAccountActionSeq.2 mem) below
  unfold History.nextAccountSequenceNum at numbers
  dsimp only at numbers
  rw [if_neg (by omega), List.getElem?_eq_getElem inside] at numbers
  -- the entry read is `n`'s, and no older than `a`
  generalize db.byAccountActionSeq[SortedIndex.lowerBound AccountHistoryObject.key db.byAccountActionSeq
    (accountSeq ⟨n.value + 1⟩ 0) - 1] = b at above under numbers
  have above := accountSeq_le_accountSeq.1 above
  have under := accountSeq_lt_accountSeq.1 under
  rw [named] at above
  dsimp only at under
  have sameAccount : b.account = n := name_eq_of_toNat (by omega)
  dsimp only at numbers
  rw [if_pos sameAccount] at numbers
  omega

/-- With `history_per_account = 0` the entry `0` back of a new entry is the new entry itself,
whose action is not stored yet, so `hdb.get` throws. -/
theorem recordAccountAction_zero {db : HistoryDb τ}
    (keys : (db.accountHistory.map AccountHistoryObject.key).Nodup) {n : Name}
    (small : n.value.toNat + 1 < 2 ^ 64) {g : Nat} (fresh : ∀ o ∈ db.actionHistory, o.actionSequenceNum ≠ g) :
    recordAccountAction 0 n g db = .error .unknownKey := by
  obtain ⟨c, nextIs⟩ : ∃ c, nextAccountSequenceNum db.byAccountActionSeq n = c := ⟨_, rfl⟩
  have next : KeyedList.find AccountHistoryObject.key db.accountHistory
      (AccountHistoryObject.key ⟨n, g, c⟩) = none := nextIs ▸ find_nextAccountSequenceNum keys small
  -- `lower_bound(n, asn - 0)` finds the new entry in the index that holds it
  have found := SortedIndex.getElem?_lowerBound_of_mem
    (SortedIndex.sorted_sort (KeyedList.nodup_append_of_find keys next))
    ((SortedIndex.perm_sort _).mem_iff.2 (List.mem_append_right _ (List.mem_singleton_self _)))
  dsimp only [AccountHistoryObject.key] at found
  have unused : KeyedList.find ActionHistoryObject.actionSequenceNum db.actionHistory g = none :=
    KeyedList.find_eq_none.2 fresh
  unfold recordAccountAction
  rw [nextIs]
  simp only [next, Option.isSome_none, Bool.false_eq_true, if_false, Nat.zero_le, if_true,
    Nat.sub_zero, HistoryDb.byAccountActionSeq, found, HistoryDb.getAction, unused]
  rfl

/-- With `history_per_account = 0`, `on_action_trace` throws for every action with an account,
whatever the history holds: the entry of its first account evicts itself before the action is
stored. In C++ the new entry stays after the throw, which the controller's signal catches, and the
action is never stored; the model returns the error. -/
theorem onActionTrace_throws_without_retention (db : HistoryDb τ)
    (keys : (db.accountHistory.map AccountHistoryObject.key).Nodup) {aset : List Name} (named : aset ≠ [])
    (small : ∀ n ∈ aset, n.value.toNat + 1 < 2 ^ 64) {g : Nat}
    (fresh : ∀ o ∈ db.actionHistory, o.actionSequenceNum ≠ g)
    (blockNum : Nat) (blockTime : BlockTimestamp) (trace : τ) :
    onActionTrace 0 aset g blockNum blockTime trace db = .error .unknownKey := by
  obtain ⟨n, rest, rfl⟩ := List.exists_cons_of_ne_nil named
  simp only [onActionTrace, recordAll, recordAccountAction_zero keys (small n List.mem_cons_self) fresh]
  rfl

/-- A history that kept the entry of an earlier action whose storing threw, as C++ leaves it: the
next action of the same account throws too. -/
theorem onActionTrace_throws_without_retention_sample :
    onActionTrace 0 [⟨1⟩] 6 1 ⟨1⟩ () (⟨[⟨⟨1⟩, 5, 0⟩], []⟩ : HistoryDb Unit) = .error .unknownKey :=
  onActionTrace_throws_without_retention _ (by simp) (by simp) (by simp) (by simp) 1 ⟨1⟩ ()

end History

end Fio.Chain
