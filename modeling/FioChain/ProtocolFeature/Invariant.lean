import FioChain.ProtocolFeature.Model
import FioChain.Lib.IntrusiveList
import FioChain.Lib.ListSplit

/-! The two records of the activations stay in step with the history `H` of successful
`activate_feature` calls, where `popped_blocks_to(n)` deletes what came after block `n`:
the vector lists `H` in order, the builtin list visits the codenames of `H` from the newest,
and each builtin's entry holds its activation block, or `not_active` when `H` has none.
This holds while every activation block is below `not_active`, the sentinel. -/

namespace Fio.Chain

open BuiltinProtocolFeatureEntry IntrusiveList

variable {D : Type} [DecidableEq D]

namespace ProtocolFeatureManager

/-- The index of the builtin codename of the recognized feature with digest `d`. -/
def featureIndex (protocolFeatureSet : List (ProtocolFeature D)) (d : D) : Option Nat :=
  (protocolFeatureSet.find? fun f => f.featureDigest = d).bind fun f => f.builtinFeature.map BuiltinProtocolFeatureT.toIndex

/-- The builtin indices of a history, in activation order. -/
def activationIndices (protocolFeatureSet : List (ProtocolFeature D)) (H : List (D × UInt32)) : List Nat :=
  H.filterMap fun p => featureIndex protocolFeatureSet p.1

/-- The builtin list of `m` visits `l`. -/
def BuiltinLinks (m : ProtocolFeatureManager D) (l : List Nat) : Prop :=
  Links BuiltinProtocolFeatureEntry.previous noPrevious m.builtinProtocolFeatures m.headOfBuiltinActivationList l

/-- The activation block the builtin entry `i` holds. -/
def blockAt (entries : List BuiltinProtocolFeatureEntry) (i : Nat) : UInt32 :=
  (entries.getD i default).activationBlockNum

/-- The manager keeps the history `H` of activations. -/
structure Tracks (m : ProtocolFeatureManager D) (H : List (D × UInt32)) : Prop where
  initialized : m.initialized = true
  small : m.builtinProtocolFeatures.length ≤ 11
  activated : m.activatedProtocolFeatures.map (fun e => (e.featureDigest, e.activationBlockNum)) = H
  sorted : H.Pairwise fun p q => p.2 ≤ q.2
  beforeSentinel : ∀ p ∈ H, p.2 < notActive
  indexed : ∀ p ∈ H, ∃ i, featureIndex m.protocolFeatureSet p.1 = some i ∧ i < m.builtinProtocolFeatures.length
  distinct : (activationIndices m.protocolFeatureSet H).Nodup
  links : m.BuiltinLinks (activationIndices m.protocolFeatureSet H).reverse
  active : ∀ p ∈ H, ∀ i, featureIndex m.protocolFeatureSet p.1 = some i → blockAt m.builtinProtocolFeatures i = p.2
  inactive : ∀ i < m.builtinProtocolFeatures.length,
    i ∉ activationIndices m.protocolFeatureSet H → blockAt m.builtinProtocolFeatures i = notActive

theorem mem_activationIndices {pfs : List (ProtocolFeature D)} {H : List (D × UInt32)} {i : Nat} :
    i ∈ activationIndices pfs H ↔ ∃ p ∈ H, featureIndex pfs p.1 = some i := by
  simp [activationIndices]

theorem activationIndices_append_of_index {pfs : List (ProtocolFeature D)} {H : List (D × UInt32)}
    {p : D × UInt32} {i : Nat} (index : featureIndex pfs p.1 = some i) :
    activationIndices pfs (H ++ [p]) = activationIndices pfs H ++ [i] := by
  simp [activationIndices, List.filterMap_append, index]

theorem blockAt_set_self {entries : List BuiltinProtocolFeatureEntry} {i : Nat} {e : BuiltinProtocolFeatureEntry}
    (bound : i < entries.length) : blockAt (entries.set i e) i = e.activationBlockNum := by
  simp [blockAt, List.getD_eq_getElem?_getD, bound]

theorem blockAt_set_ne {entries : List BuiltinProtocolFeatureEntry} {i j : Nat} {e : BuiltinProtocolFeatureEntry}
    (other : i ≠ j) : blockAt (entries.set i e) j = blockAt entries j := by
  simp [blockAt, List.getD_eq_getElem?_getD, List.getElem?_set_ne other]

/-! ## `activate_feature` -/

/-- Every check of `activate_feature` comes before its writes: a rejected call changes nothing. -/
theorem activateFeature_error {d : D} {b : UInt32} {e : Exception} {m m' : ProtocolFeatureManager D}
    (failed : activateFeature d b m = .error e m') : m' = m := by
  unfold activateFeature at failed
  dsimp only at failed
  repeat' split at failed
  all_goals (cases failed <;> rfl)

/-- What a successful activation checked, and what it wrote. -/
theorem activateFeature_ok {d : D} {b : UInt32} {m m' : ProtocolFeatureManager D}
    (ok : activateFeature d b m = .ok () m') :
    m.initialized = true ∧ (∀ last ∈ m.activatedProtocolFeatures.getLast?, last.activationBlockNum ≤ b) ∧
      ∃ i, featureIndex m.protocolFeatureSet d = some i ∧ i < m.builtinProtocolFeatures.length ∧
        blockAt m.builtinProtocolFeatures i = notActive ∧
        m' = { m with
          activatedProtocolFeatures := m.activatedProtocolFeatures ++ [⟨d, b⟩]
          builtinProtocolFeatures := m.builtinProtocolFeatures.set i ⟨m.headOfBuiltinActivationList, b⟩
          headOfBuiltinActivationList := i } := by
  unfold activateFeature at ok
  split at ok
  · cases ok
  rename_i initialized
  split at ok
  · cases ok
  rename_i feature found
  split at ok
  · cases ok
  rename_i inOrder
  split at ok
  · cases ok
  rename_i codename builtin
  dsimp only at ok
  split at ok
  · split at ok
    · cases ok
    rename_i bound fresh
    cases ok
    refine ⟨by simpa using initialized, ?_, codename.toIndex, ?_, bound, not_not.mp fresh, rfl⟩
    · intro last mem
      rw [Option.mem_def] at mem
      simpa [mem] using inOrder
    · unfold findFeature at found
      simp [featureIndex, found, builtin]
  · cases ok

/-- The sentinel is off the list: builtin indices are small. -/
theorem ne_noPrevious_of_lt {i n : Nat} (bound : i < n) (small : n ≤ 11) : i ≠ noPrevious := by
  unfold noPrevious
  omega

omit [DecidableEq D] in
theorem le_of_mem_of_getLast? {H : List (D × UInt32)} (sorted : H.Pairwise fun p q => p.2 ≤ q.2)
    {p last : D × UInt32} (mem : p ∈ H) (isLast : H.getLast? = some last) : p.2 ≤ last.2 := by
  obtain ⟨front, rfl⟩ := List.getLast?_eq_some_iff.mp isLast
  rcases List.mem_append.mp mem with mem | single
  · exact (List.pairwise_append.mp sorted).2.2 p mem last (List.mem_singleton_self last)
  · rw [List.mem_singleton.mp single]
    exact UInt32.le_refl _

/-- An entry that reads `not_active` is off the history: every activation holds a block below it. -/
theorem Tracks.notMem_of_blockAt {m : ProtocolFeatureManager D} {H : List (D × UInt32)} (tracks : m.Tracks H)
    {i : Nat} (fresh : blockAt m.builtinProtocolFeatures i = notActive) :
    i ∉ activationIndices m.protocolFeatureSet H := by
  intro mem
  obtain ⟨p, present, pIndex⟩ := mem_activationIndices.mp mem
  have held := tracks.active p present i pIndex
  have early := tracks.beforeSentinel p present
  rw [held.symm.trans fresh] at early
  exact UInt32.lt_irrefl _ early

/-- A successful activation below the sentinel appends to the history. -/
theorem Tracks.activate {m m' : ProtocolFeatureManager D} {H : List (D × UInt32)} {d : D} {b : UInt32}
    (tracks : m.Tracks H) (ok : activateFeature d b m = .ok () m') (below : b < notActive) :
    m'.Tracks (H ++ [(d, b)]) := by
  obtain ⟨-, inOrder, i, index, bound, fresh, rfl⟩ := activateFeature_ok ok
  have absent := tracks.notMem_of_blockAt fresh
  have indices : activationIndices m.protocolFeatureSet (H ++ [(d, b)]) =
      activationIndices m.protocolFeatureSet H ++ [i] :=
    activationIndices_append_of_index index
  constructor
  · exact tracks.initialized
  · simpa using tracks.small
  · simp [tracks.activated]
  · rw [List.pairwise_append]
    refine ⟨tracks.sorted, List.pairwise_singleton _ _, ?_⟩
    intro p mem q single
    rw [List.mem_singleton.mp single]
    -- the newest activation is the latest, and the new block is not before it
    cases last : m.activatedProtocolFeatures.getLast? with
    | none =>
      rw [← tracks.activated, List.getLast?_eq_none_iff.mp last] at mem
      cases mem
    | some last' =>
      have isLast : H.getLast? = some (last'.featureDigest, last'.activationBlockNum) := by
        rw [← tracks.activated, List.getLast?_map, last]
        rfl
      exact UInt32.le_trans (le_of_mem_of_getLast? tracks.sorted mem isLast) (inOrder last' last)
  · intro p mem
    rcases List.mem_append.mp mem with mem | single
    · exact tracks.beforeSentinel p mem
    · rw [List.mem_singleton.mp single]
      exact below
  · intro p mem
    rcases List.mem_append.mp mem with mem | single
    · simpa using tracks.indexed p mem
    · rw [List.mem_singleton.mp single]
      exact ⟨i, index, by simpa using bound⟩
  · rw [indices]
    exact tracks.distinct.append (List.nodup_singleton i) (List.disjoint_singleton.mpr absent)
  · show BuiltinLinks _ _
    rw [indices, List.reverse_append, List.reverse_singleton, List.singleton_append]
    exact links_push tracks.links (by simpa using absent) bound rfl
  · intro p mem j pIndex
    show blockAt (m.builtinProtocolFeatures.set i _) j = p.2
    rcases List.mem_append.mp mem with mem | single
    · have other : i ≠ j := fun same => absent (mem_activationIndices.mpr ⟨p, mem, same ▸ pIndex⟩)
      rw [blockAt_set_ne other]
      exact tracks.active p mem j pIndex
    · rw [List.mem_singleton.mp single] at pIndex ⊢
      have same : i = j := Option.some.inj (index.symm.trans pIndex)
      rw [← same, blockAt_set_self bound]
  · intro j bound' notIn
    show blockAt (m.builtinProtocolFeatures.set i _) j = notActive
    rw [indices, List.mem_append, not_or, List.mem_singleton] at notIn
    rw [blockAt_set_ne (Ne.symm notIn.2)]
    exact tracks.inactive j (by simpa using bound') notIn.1

/-! ## `popped_blocks_to` -/

omit [DecidableEq D] in
/-- The unlinking loop walks the entries activated after `blockNum` off the front of the
list, resetting each, and stops at the first entry it keeps. -/
theorem unlinkAfter_eq {blockNum : UInt32} {m : ProtocolFeatureManager D} {popped kept : List Nat} {fuel : Nat}
    (links : m.BuiltinLinks (popped ++ kept)) (small : m.builtinProtocolFeatures.length ≤ 11)
    (after : ∀ i ∈ popped, blockNum < blockAt m.builtinProtocolFeatures i)
    (stops : ∀ i ∈ kept.head?, blockAt m.builtinProtocolFeatures i ≤ blockNum)
    (apart : ∀ i ∈ popped, i ∉ kept) (nodup : popped.Nodup) (enough : popped.length < fuel) :
    unlinkAfter blockNum fuel m = .ok { m with
      headOfBuiltinActivationList := kept.head?.getD noPrevious
      builtinProtocolFeatures := popped.foldl (fun es i => es.set i default) m.builtinProtocolFeatures } := by
  obtain ⟨fuel, rfl⟩ : ∃ f, fuel = f + 1 := ⟨fuel - 1, by omega⟩
  induction popped generalizing m fuel with
  | nil =>
    rw [unlinkAfter]
    cases kept with
    | nil =>
      -- the list is empty: the loop ends at once
      have ends : m.headOfBuiltinActivationList = noPrevious := links
      rw [if_pos ends]
      simp only [List.head?_nil, Option.getD_none, List.foldl_nil, ← ends]
    | cons k rest =>
      -- the first entry kept stops the loop
      obtain ⟨rfl, bound, -⟩ := links
      have stop := stops _ rfl
      simp only [blockAt, List.getD_eq_getElem?_getD] at stop
      simp [ne_noPrevious_of_lt bound small, stop]
  | cons i rest ih =>
    obtain ⟨start, bound, links⟩ := links
    obtain ⟨fuel, rfl⟩ : ∃ f, fuel = f + 1 := ⟨fuel - 1, by simp at enough; omega⟩
    have absent : i ∉ rest ++ kept := by
      rw [List.mem_append, not_or]
      exact ⟨(List.nodup_cons.mp nodup).1, apart i List.mem_cons_self⟩
    have popsHere := after i List.mem_cons_self
    have goesOn : ¬ (m.builtinProtocolFeatures.getD i default).activationBlockNum ≤ blockNum :=
      UInt32.not_le.mpr popsHere
    rw [unlinkAfter, if_neg (start ▸ ne_noPrevious_of_lt bound small), start, if_neg goesOn]
    -- the next round starts from the entry's `previous`, with the entry reset
    have next : BuiltinLinks { m with
        headOfBuiltinActivationList := (m.builtinProtocolFeatures.getD i default).previous
        builtinProtocolFeatures := m.builtinProtocolFeatures.set i default } (rest ++ kept) :=
      links_set_of_notMem links absent
    refine ih next (by simpa using small) ?_ ?_ ?_ (List.nodup_cons.mp nodup).2 fuel
      (by simp at enough; omega)
    · intro j mem
      have other : i ≠ j := fun same => (List.nodup_cons.mp nodup).1 (same ▸ mem)
      rw [blockAt_set_ne other]
      exact after j (List.mem_cons_of_mem i mem)
    · intro j mem
      have other : i ≠ j := fun same => apart i List.mem_cons_self (same ▸ List.mem_of_mem_head? mem)
      rw [blockAt_set_ne other]
      exact stops j mem
    · exact fun j mem => apart j (List.mem_cons_of_mem i mem)

omit [DecidableEq D] in
/-- A history sorted by block splits at any block `n`: what is not after `n`, then what is. -/
theorem exists_split_of_sorted {H : List (D × UInt32)} (sorted : H.Pairwise fun p q => p.2 ≤ q.2) (n : UInt32) :
    ∃ H₁ H₂, H = H₁ ++ H₂ ∧ (∀ p ∈ H₁, p.2 ≤ n) ∧ ∀ q ∈ H₂, n < q.2 := by
  refine ⟨H.takeWhile (fun p => p.2 ≤ n), H.dropWhile (fun p => p.2 ≤ n), List.takeWhile_append_dropWhile.symm,
    fun p mem => by simpa using List.mem_takeWhile_imp mem, ?_⟩
  intro q mem
  have tailSorted := sorted.sublist (List.dropWhile_suffix (fun p : D × UInt32 => decide (p.2 ≤ n))).sublist
  cases rest : H.dropWhile (fun p => p.2 ≤ n) with
  | nil =>
    rw [rest] at mem
    cases mem
  | cons first others =>
    -- the first activation after `n` is not before any later one
    have after : n < first.2 := by
      have := List.head_dropWhile_not (fun p : D × UInt32 => decide (p.2 ≤ n)) (by rw [rest]; simp)
      simp only [rest, List.head_cons, decide_eq_false_iff_not] at this
      exact UInt32.not_le.mp this
    rw [rest] at mem tailSorted
    rcases List.mem_cons.mp mem with rfl | mem
    · exact after
    · exact UInt32.lt_of_lt_of_le after (List.rel_of_pairwise_cons tailSorted mem)

theorem activationIndices_append (pfs : List (ProtocolFeature D)) (H₁ H₂ : List (D × UInt32)) :
    activationIndices pfs (H₁ ++ H₂) = activationIndices pfs H₁ ++ activationIndices pfs H₂ := by
  simp [activationIndices, List.filterMap_append]

omit [DecidableEq D] in
/-- `popped_blocks_to` once its unlinking loop has ended: the vector is cut after `blockNum`. -/
theorem poppedBlocksTo_of_unlinkAfter {blockNum : UInt32} {m m₁ : ProtocolFeatureManager D}
    (initialized : m.initialized = true)
    (unlinked : unlinkAfter blockNum (m.builtinProtocolFeatures.length + 2) m = .ok m₁) :
    poppedBlocksTo blockNum m = .ok () { m₁ with
      activatedProtocolFeatures := m₁.activatedProtocolFeatures.rdropWhile fun e => blockNum < e.activationBlockNum } := by
  simp only [poppedBlocksTo, initialized, Bool.not_true, Bool.false_eq_true, if_false, unlinked]

omit [DecidableEq D] in
/-- Cutting the history at block `n` cuts the vector at the same place: `rdropWhile` drops
exactly the activations after `n`. -/
theorem map_rdropWhile_of_split {V : List (ProtocolFeatureEntry D)} {H₁ H₂ : List (D × UInt32)} {n : UInt32}
    (activated : V.map (fun e => (e.featureDigest, e.activationBlockNum)) = H₁ ++ H₂)
    (early : ∀ p ∈ H₁, p.2 ≤ n) (late : ∀ q ∈ H₂, n < q.2) :
    (V.rdropWhile fun e => n < e.activationBlockNum).map (fun e => (e.featureDigest, e.activationBlockNum)) =
      H₁ := by
  obtain ⟨V₁, V₂, rfl, kept, dropped⟩ := List.map_eq_append_iff.mp activated
  rw [ListSplit.rdropWhile_append_of_getLast _ ?_ ?_, kept]
  · intro e mem
    have after := late _ (dropped ▸ List.mem_map_of_mem mem)
    simpa using after
  · intro e isLast
    have before := early _ (kept ▸ List.mem_map_of_mem (List.mem_of_getLast? isLast))
    simpa using UInt32.not_lt.mpr before

omit [DecidableEq D] in
/-- A list of distinct indices below `n` has at most `n` of them. -/
theorem length_le_of_nodup {l : List Nat} {n : Nat} (nodup : l.Nodup) (bound : ∀ i ∈ l, i < n) : l.length ≤ n := by
  have within := (nodup.subperm fun i mem => List.mem_range.mpr (bound i mem)).length_le
  rwa [List.length_range] at within

/-- From a tracked state, the unlinking loop of `popped_blocks_to(n)` ends, having unlinked
the codenames activated after `n` and reset their entries. -/
theorem Tracks.unlinkAfter {m : ProtocolFeatureManager D} {H₁ H₂ : List (D × UInt32)} {n : UInt32}
    (tracks : m.Tracks (H₁ ++ H₂)) (early : ∀ p ∈ H₁, p.2 ≤ n) (late : ∀ q ∈ H₂, n < q.2) :
    unlinkAfter n (m.builtinProtocolFeatures.length + 2) m = .ok { m with
      headOfBuiltinActivationList := (activationIndices m.protocolFeatureSet H₁).reverse.head?.getD noPrevious
      builtinProtocolFeatures := (activationIndices m.protocolFeatureSet H₂).reverse.foldl
        (fun es i => es.set i default) m.builtinProtocolFeatures } := by
  have indices := activationIndices_append m.protocolFeatureSet H₁ H₂
  have distinct := tracks.distinct
  have links := tracks.links
  rw [indices] at distinct links
  rw [List.reverse_append] at links
  have bounded := lt_of_links links
  -- the block each listed codename holds is its activation's, on its side of `n`
  have blockOf : ∀ H i, i ∈ activationIndices m.protocolFeatureSet H → H ⊆ H₁ ++ H₂ →
      ∃ p ∈ H, blockAt m.builtinProtocolFeatures i = p.2 := by
    intro H i mem sub
    obtain ⟨p, present, index⟩ := mem_activationIndices.mp mem
    exact ⟨p, present, tracks.active p (sub present) i index⟩
  have enough : (activationIndices m.protocolFeatureSet H₂).reverse.length < m.builtinProtocolFeatures.length + 2 := by
    have all := length_le_of_nodup distinct fun i mem => bounded i (by simpa [or_comm] using mem)
    simp only [List.length_append] at all
    simp only [List.length_reverse]
    omega
  refine unlinkAfter_eq links tracks.small ?_ ?_ ?_ (List.nodup_reverse.mpr (List.nodup_append.mp distinct).2.1) enough
  · intro i mem
    obtain ⟨q, present, held⟩ := blockOf H₂ i (List.mem_reverse.mp mem) (List.subset_append_right _ _)
    rw [held]
    exact late q present
  · intro i mem
    obtain ⟨p, present, held⟩ :=
      blockOf H₁ i (List.mem_reverse.mp (List.mem_of_mem_head? mem)) (List.subset_append_left _ _)
    rw [held]
    exact early p present
  · intro i mem kept
    exact List.disjoint_of_nodup_append distinct (List.mem_reverse.mp kept) (List.mem_reverse.mp mem)

/-- `popped_blocks_to(n)` from a tracked state succeeds, and keeps the history of the
activations up to block `n`. -/
theorem Tracks.pop {m : ProtocolFeatureManager D} {H : List (D × UInt32)} (tracks : m.Tracks H) (n : UInt32) :
    ∃ m', poppedBlocksTo n m = .ok () m' ∧ m'.Tracks (H.filter fun p => p.2 ≤ n) := by
  obtain ⟨H₁, H₂, rfl, early, late⟩ := exists_split_of_sorted tracks.sorted n
  have kept : (H₁ ++ H₂).filter (fun p => p.2 ≤ n) = H₁ := by
    rw [List.filter_append, List.filter_eq_self.mpr (by simpa using early),
      List.filter_eq_nil_iff.mpr (by simpa using fun q mem => UInt32.not_le.mpr (late q mem)), List.append_nil]
  rw [kept]
  have distinct := tracks.distinct
  have links := tracks.links
  rw [activationIndices_append] at distinct links
  rw [List.reverse_append] at links
  have apart := List.disjoint_of_nodup_append distinct
  refine ⟨_, poppedBlocksTo_of_unlinkAfter tracks.initialized (tracks.unlinkAfter early late), ?_⟩
  constructor <;> try dsimp only
  · exact tracks.initialized
  · rw [length_foldl_set]
    exact tracks.small
  · exact map_rdropWhile_of_split tracks.activated early late
  · exact tracks.sorted.sublist (List.sublist_append_left _ _)
  · exact fun p mem => tracks.beforeSentinel p (List.mem_append_left _ mem)
  · rw [length_foldl_set]
    exact fun p mem => tracks.indexed p (List.mem_append_left _ mem)
  · exact (List.nodup_append.mp distinct).1
  · exact links_foldl_set (links_append_right links) fun i popped kept => apart (List.mem_reverse.mp kept) (List.mem_reverse.mp popped)
  · -- a kept activation's entry is not reset
    intro p mem i index
    have kept : i ∉ (activationIndices m.protocolFeatureSet H₂).reverse := fun popped =>
      apart (mem_activationIndices.mpr ⟨p, mem, index⟩) (List.mem_reverse.mp popped)
    rw [blockAt, getD_foldl_set_of_notMem kept]
    exact tracks.active p (List.mem_append_left _ mem) i index
  · -- an entry off the kept history is either reset or was never activated
    intro i bound notKept
    rw [length_foldl_set] at bound
    by_cases popped : i ∈ (activationIndices m.protocolFeatureSet H₂).reverse
    · rw [blockAt, getD_foldl_set_of_mem popped bound]
      rfl
    · rw [blockAt, getD_foldl_set_of_notMem popped]
      refine tracks.inactive i bound ?_
      rw [activationIndices_append, List.mem_append, not_or]
      exact ⟨notKept, fun mem => popped (List.mem_reverse.mpr mem)⟩

omit [DecidableEq D] in
/-- The unlinking loop changes nothing but the builtin entries and the head. -/
theorem unlinkAfter_frame {blockNum : UInt32} {fuel : Nat} {m m₁ : ProtocolFeatureManager D}
    (ok : unlinkAfter blockNum fuel m = .ok m₁) :
    m₁.protocolFeatureSet = m.protocolFeatureSet ∧
      m₁.builtinProtocolFeatures.length = m.builtinProtocolFeatures.length := by
  induction fuel generalizing m with
  | zero => cases ok
  | succ fuel ih =>
    rw [unlinkAfter] at ok
    split at ok
    · cases ok
      exact ⟨rfl, rfl⟩
    · dsimp only at ok
      split at ok
      · cases ok
        exact ⟨rfl, rfl⟩
      · obtain ⟨same, length⟩ := ih ok
        exact ⟨same, length.trans (List.length_set ..)⟩

omit [DecidableEq D] in
theorem poppedBlocksTo_frame {blockNum : UInt32} {m m' : ProtocolFeatureManager D}
    (ok : poppedBlocksTo blockNum m = .ok () m') :
    m'.protocolFeatureSet = m.protocolFeatureSet ∧
      m'.builtinProtocolFeatures.length = m.builtinProtocolFeatures.length := by
  unfold poppedBlocksTo at ok
  split at ok
  · cases ok
  · split at ok
    · cases ok
    · rename_i unlinked
      cases ok
      obtain ⟨same, length⟩ := unlinkAfter_frame unlinked
      exact ⟨same, length⟩

/-! ## The initial state -/

theorem toIndex_lt_eleven (c : BuiltinProtocolFeatureT) : c.toIndex < 11 := by
  cases c <;> decide

omit [DecidableEq D] in
theorem recognizedBuiltinCount_le (pfs : List (ProtocolFeature D)) : recognizedBuiltinCount pfs ≤ 11 := by
  unfold recognizedBuiltinCount
  induction pfs.filterMap ProtocolFeature.builtinFeature with
  | nil => decide
  | cons c rest ih =>
    rw [List.foldr_cons]
    exact max_le ih (toIndex_lt_eleven c)

theorem tracks_initial (pfs : List (ProtocolFeature D)) : (initial pfs).Tracks [] where
  initialized := rfl
  small := by
    rw [initial, List.length_replicate]
    exact recognizedBuiltinCount_le pfs
  activated := rfl
  sorted := List.Pairwise.nil
  beforeSentinel := by simp
  indexed := by simp
  distinct := List.nodup_nil
  links := rfl
  active := by simp
  inactive i _ _ := by
    simp only [blockAt, initial, List.getD_eq_getElem?_getD, List.getElem?_replicate]
    split <;> rfl

/-! ## The queries -/

section Queries

variable {m : ProtocolFeatureManager D} {H : List (D × UInt32)}

end Queries

end ProtocolFeatureManager

end Fio.Chain
