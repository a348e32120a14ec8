import MatrixKV.TableGetProofs
import MatrixKV.NvmSnapshotProofs

/-! # Point reads of the database — DBImpl::GetImpl and DBImpl::MultiGet

    A read asks the memtable, the immutable memtables and then the files.  For a
    family with an NVM module `GetImpl` asks the module first and takes its bytes
    as they are; the picker of `Version::Get` leaves out an NVM level 0.

    * `ordinary` is the same version with its level-0 tables as ordinary files.
    * **`getImpl_eq_ordinary`**: when the NVM read gives what the ordinary read gives.
    * **`multiGet_eq_getImpl`**: when `MultiGet` gives what `GetImpl` gives. -/

namespace GetImpl

open List DbFormat SstableMeta PersistentSstable NvmGet NvmFlush NvmSnapshot TableGet

variable {K : Type} [LinearOrder K]

/-! ## Memtables -/

structure MemTable (K : Type) where
  entries : List (InternalKey K × Bytes) := []
  tombstones : List (Tombstone K) := []

/-- The `Saver` of a memtable search. -/
structure Saver where
  status : Status
  foundFinalValue : Bool
  mergeInProgress : Bool
  value : Bytes
  operands : List Bytes

/-- A full merge ends the search, well or badly. -/
def Saver.merged (op : Option (MergeOperator K)) (k : K) (base : Option Bytes) (sv : Saver) :
    Saver :=
  match timedFullMerge op k base sv.operands with
  | .ok v => { sv with status := .ok, value := v, foundFinalValue := true }
  | .error s => { sv with status := s, foundFinalValue := true }

/-- `SaveValue` of the memtable: the saver after an entry, and whether to go on. -/
def memSaveValue (op : Option (MergeOperator K)) (k : K) (covering : Nat) (sv : Saver)
    (e : InternalKey K × Bytes) : Saver × Bool :=
  if e.1.userKey = k then
    match coveredType covering e.1 with
    | .blobIndex => ({ sv with status := .notSupported, foundFinalValue := true }, false)
    | .value =>
      (if sv.mergeInProgress then sv.merged op k (some e.2)
        else { sv with status := .ok, value := e.2, foundFinalValue := true }, false)
    | .deletion | .singleDeletion | .rangeDeletion =>
      (if sv.mergeInProgress then sv.merged op k none
        else { sv with status := .notFound, foundFinalValue := true }, false)
    | .merge =>
      match op with
      | none => ({ sv with status := .invalidArgument, foundFinalValue := true }, false)
      | some m =>
        let sv := { sv with mergeInProgress := true, operands := sv.operands ++ [e.2] }
        if m.shouldMerge sv.operands then (sv.merged op k none, false) else (sv, true)
  else (sv, false)

/-- `MemTableRep::Get`: entries are offered until one ends the search. -/
def memSaveEntries (op : Option (MergeOperator K)) (k : K) (covering : Nat) :
    Saver → List (InternalKey K × Bytes) → Saver
  | sv, [] => sv
  | sv, e :: es =>
    match memSaveValue op k covering sv e with
    | (sv', true) => memSaveEntries op k covering sv' es
    | (sv', false) => sv'

/-- `MemTable::Get`: the state of the read, and whether it is over. -/
def memGet (op : Option (MergeOperator K)) (opts : ReadOptions) (lkey : LookupKey K)
    (m : MemTable K) (s : ReadState) : ReadState × Bool :=
  if m.entries.isEmpty ∧ m.tombstones.isEmpty then (s, false)
  else
    let covering :=
      if opts.ignoreRangeDeletions then s.covering
      else max s.covering (maxCoveringTombstoneSeqnum m.tombstones lkey.userKey lkey.sequence)
    let sv := memSaveEntries op lkey.userKey covering
      { status := s.status, foundFinalValue := false
        mergeInProgress := s.status = .mergeInProgress, value := s.value, operands := s.operands }
      (seekEntries m.entries lkey.internalKey)
    ({ status := if !sv.foundFinalValue && sv.mergeInProgress then .mergeInProgress else sv.status
       value := sv.value, operands := sv.operands, covering := covering }, sv.foundFinalValue)

/-- `MemTableListVersion::GetFromList`. -/
def immGet (op : Option (MergeOperator K)) (opts : ReadOptions) (lkey : LookupKey K) :
    List (MemTable K) → ReadState → ReadState × Bool
  | [], s => (s, false)
  | m :: ms, s =>
    match memGet op opts lkey m s with
    | (s', true) => (s', true)
    | (s', false) =>
      if s'.status ≠ .ok ∧ s'.status ≠ .mergeInProgress ∧ s'.status ≠ .notFound then (s', false)
      else immGet op opts lkey ms s'

/-! ## Files -/

/-- A file of level 0 with its content. -/
structure LevelFile (K : Type) where
  fileMeta : FileMetaData K
  table : SortedTable K

/-- A version as reads see it.  `deeper` lists the files below level 0 that the
    picker gives for a lookup key, in its order. -/
structure Version (K : Type) where
  l0 : List (LevelFile K)
  numLevels : Nat
  deeper : LookupKey K → List (SortedTable K)

def Version.metas (v : Version K) : List (FileMetaData K) := v.l0.map LevelFile.fileMeta

/-- The key range test of the picker. -/
def LevelFile.inRange (k : K) (f : LevelFile K) : Bool :=
  f.fileMeta.smallest.userKey ≤ k ∧ k ≤ f.fileMeta.largest.userKey

/-- `FilePicker` on level 0: an NVM level is left out. -/
def pickLevel0 (v : Version K) (k : K) : List (LevelFile K) :=
  match v.l0 with
  | [] => []
  | f :: fs =>
    if f.fileMeta.isNvmLevel0 then []
    else if v.numLevels > 1 ∨ (f :: fs).length > 3 then (f :: fs).filter (LevelFile.inRange k)
    else f :: fs

/-- `FilePicker`: the files a read visits. -/
def filePicker (v : Version K) (lkey : LookupKey K) : List (SortedTable K) :=
  (pickLevel0 v lkey.userKey).map LevelFile.table ++ v.deeper lkey

/-- What a read takes hold of: the memtables, the NVM module if the family has one,
    and the version. -/
structure SuperVersion (K : Type) where
  mem : MemTable K
  imm : List (MemTable K)
  nvm : Option (NvmCf K)
  current : Version K

/-! ## Get and MultiGet -/

/-- The memtable part of `GetImpl`. -/
def memRead (op : Option (MergeOperator K)) (opts : ReadOptions) (lkey : LookupKey K)
    (sv : SuperVersion K) : ReadState × Bool :=
  if opts.persistedOnly then ({}, false)
  else
    match memGet op opts lkey sv.mem {} with
    | (s, true) => (s, true)
    | (s, false) =>
      if s.status = .ok ∨ s.status = .mergeInProgress then immGet op opts lkey sv.imm s
      else (s, false)

/-- The file part of `GetImpl`: the NVM module, then the version. -/
def getBelow (op : Option (MergeOperator K)) (opts : ReadOptions) (lkey : LookupKey K)
    (nvm : Option (NvmCf K)) (v : Version K) (s : ReadState) : Except Status Bytes :=
  match nvm.bind fun cf => get cf.pool cf.dir v.metas lkey.userKey with
  | some value => .ok value
  | none => versionGet op opts lkey (filePicker v lkey) s

/-- The lookup key of a read. -/
def lookupKey (opts : ReadOptions) (lastSequence : Nat) (k : K) : LookupKey K :=
  ⟨k, opts.snapshot.getD lastSequence⟩

/-- `DBImpl::GetImpl`. -/
def getImpl (op : Option (MergeOperator K)) (opts : ReadOptions) (lastSequence : Nat)
    (sv : SuperVersion K) (k : K) : Except Status Bytes :=
  let lkey := lookupKey opts lastSequence k
  match memRead op opts lkey sv with
  | (s, true) => s.result
  | (s, false) =>
    if ¬ opts.persistedOnly ∧ s.status ≠ .ok ∧ s.status ≠ .mergeInProgress then .error s.status
    else getBelow op opts lkey sv.nvm sv.current s

/-- The memtable part of `MultiGet`, which does not look at the status between the
    memtable and the immutable ones.  The merge context arrives cleared. -/
def multiMemRead (op : Option (MergeOperator K)) (opts : ReadOptions) (lkey : LookupKey K)
    (sv : SuperVersion K) (s : ReadState) : ReadState × Bool :=
  if opts.persistedOnly then (s, false)
  else
    match memGet op opts lkey sv.mem s with
    | (s', true) => (s', true)
    | (s', false) => immGet op opts lkey sv.imm s'

/-- The loop of `DBImpl::MultiGet`; the operands of the key before are cleared. -/
def multiGetLoop (op : Option (MergeOperator K)) (opts : ReadOptions) (lastSequence : Nat)
    (sv : SuperVersion K) : List K → List Bytes → List (Except Status Bytes)
  | [], _ => []
  | k :: ks, _ =>
    let lkey := lookupKey opts lastSequence k
    let (s, done) := multiMemRead op opts lkey sv { operands := [] }
    (if done then s.result else versionGet op opts lkey (filePicker sv.current lkey) s)
      :: multiGetLoop op opts lastSequence sv ks s.operands

/-- `DBImpl::MultiGet` for keys of one family. -/
def multiGet (op : Option (MergeOperator K)) (opts : ReadOptions) (lastSequence : Nat)
    (sv : SuperVersion K) (ks : List K) : List (Except Status Bytes) :=
  multiGetLoop op opts lastSequence sv ks []

/-! ## What the memtables hand over -/

/-- A read that goes on has its operands exactly when it is in a merge. -/
def Handed (s : ReadState) : Prop :=
  (s.status = .ok ∧ s.operands = []) ∨ (s.status = .mergeInProgress ∧ s.operands ≠ [])

/-- The saver of a search that has only met operands. -/
def Saver.Open (sv : Saver) : Prop :=
  sv.foundFinalValue = false ∧
    ((sv.mergeInProgress = false ∧ sv.status = .ok ∧ sv.operands = []) ∨
      (sv.mergeInProgress = true ∧ sv.operands ≠ []))

section MemTables

variable (op : Option (MergeOperator K)) (opts : ReadOptions) (lkey : LookupKey K)

omit [LinearOrder K] in
theorem merged_foundFinalValue (k : K) (base : Option Bytes) (sv : Saver) :
    (sv.merged op k base).foundFinalValue = true := by
  rw [Saver.merged]
  cases timedFullMerge op k base sv.operands <;> rfl

/-- An entry adds an operand, or it ends the search: the saver has its final value,
    or the entry belongs to another key. -/
theorem memSaveValue_open (k : K) (covering : Nat) {sv : Saver} (h : sv.Open)
    (e : InternalKey K × Bytes) :
    (memSaveValue op k covering sv e).1.Open ∨
      (memSaveValue op k covering sv e).2 = false ∧
      (memSaveValue op k covering sv e).1.foundFinalValue = true := by
  rw [memSaveValue.eq_def]
  by_cases hkey : e.1.userKey = k
  · rw [if_pos hkey]
    have hbase : ∀ (base : Option Bytes) (plain : Saver), plain.foundFinalValue = true →
        (if sv.mergeInProgress = true then sv.merged op k base else plain).foundFinalValue
          = true := by
      intro base plain hplain
      by_cases hm : sv.mergeInProgress = true
      · rw [if_pos hm]
        exact merged_foundFinalValue op k base sv
      · rw [if_neg hm]
        exact hplain
    cases coveredType covering e.1 with
    | value => exact .inr ⟨rfl, hbase _ _ rfl⟩
    | deletion => exact .inr ⟨rfl, hbase _ _ rfl⟩
    | singleDeletion => exact .inr ⟨rfl, hbase _ _ rfl⟩
    | rangeDeletion => exact .inr ⟨rfl, hbase _ _ rfl⟩
    | blobIndex => exact .inr ⟨rfl, rfl⟩
    | merge =>
    cases op with
    | none => exact .inr ⟨rfl, rfl⟩
    | some m =>
    dsimp only
    by_cases hwants : m.shouldMerge (sv.operands ++ [e.2]) = true
    · rw [if_pos hwants]
      exact .inr ⟨rfl, merged_foundFinalValue _ k none _⟩
    rw [if_neg hwants]
    refine .inl ⟨h.1, .inr ⟨rfl, ?_⟩⟩
    simp
  · rw [if_neg hkey]
    exact .inl h

theorem memSaveEntries_open (k : K) (covering : Nat) :
    ∀ (es : List (InternalKey K × Bytes)) (sv : Saver), sv.Open →
      (memSaveEntries op k covering sv es).foundFinalValue = false →
      (memSaveEntries op k covering sv es).Open := by
  intro es
  induction es with
  | nil => intro sv h _; exact h
  | cons e es ih =>
  intro sv h hfound
  have hstep := memSaveValue_open op k covering h e
  rw [memSaveEntries] at hfound ⊢
  cases hsave : memSaveValue op k covering sv e with
  | mk sv' goOn =>
  rw [hsave] at hstep hfound
  cases goOn with
  | true =>
    rcases hstep with hopen | ⟨hstop, -⟩
    · exact ih sv' hopen hfound
    · exact nomatch hstop
  | false =>
  rcases hstep with hopen | ⟨-, hfinal⟩
  · exact hopen
  · exact absurd (hfound.symm.trans hfinal) (by decide)

/-- **A MEMTABLE** that does not end the read hands over what it was handed, with
    its operands added. -/
theorem memGet_handed {m : MemTable K} {s s' : ReadState} (hs : Handed s)
    (h : memGet op opts lkey m s = (s', false)) : Handed s' := by
  rw [memGet] at h
  by_cases hempty : m.entries.isEmpty ∧ m.tombstones.isEmpty
  · rw [if_pos hempty] at h
    exact (Prod.mk.inj h).1 ▸ hs
  rw [if_neg hempty] at h
  obtain ⟨hstate, hfound⟩ := Prod.mk.inj h
  have hstart : Saver.Open
      { status := s.status, foundFinalValue := false
        mergeInProgress := s.status = .mergeInProgress, value := s.value
        operands := s.operands } := by
    rcases hs with ⟨hst, hops⟩ | ⟨hst, hops⟩
    · exact ⟨rfl, .inl ⟨by rw [hst]; rfl, hst, hops⟩⟩
    · exact ⟨rfl, .inr ⟨by rw [hst]; rfl, hops⟩⟩
  obtain ⟨-, hopen⟩ := memSaveEntries_open op _ _ _ _ hstart hfound
  rw [← hstate]
  rcases hopen with ⟨hmerge, hst, hops⟩ | ⟨hmerge, hops⟩
  · exact .inl ⟨by simp only [hfound, hmerge, hst]; rfl, hops⟩
  · exact .inr ⟨by simp only [hfound, hmerge]; rfl, hops⟩

/-- So does a list of them, and no status stops it early. -/
theorem immGet_handed :
    ∀ (ms : List (MemTable K)) (s s' : ReadState), Handed s →
      immGet op opts lkey ms s = (s', false) → Handed s' := by
  intro ms
  induction ms with
  | nil =>
    intro s s' hs h
    exact (Prod.mk.inj h).1 ▸ hs
  | cons m ms ih =>
  intro s s' hs h
  rw [immGet] at h
  cases hget : memGet op opts lkey m s with
  | mk s₁ done =>
  rw [hget] at h
  cases done with
  | true => exact absurd (Prod.mk.inj h).2 (by decide)
  | false =>
  have hs₁ := memGet_handed op opts lkey hs hget
  dsimp only at h
  split_ifs at h with hstop
  · exact (Prod.mk.inj h).1 ▸ hs₁
  · exact ih s₁ s' hs₁ h

omit [LinearOrder K] in
theorem handed_start : Handed {} := .inl ⟨rfl, rfl⟩

omit [LinearOrder K] in
theorem Handed.status {s : ReadState} (h : Handed s) :
    s.status = .ok ∨ s.status = .mergeInProgress :=
  h.elim (fun h => .inl h.1) (fun h => .inr h.1)

/-- The status test between the memtables is never taken. -/
theorem memRead_eq_multiMemRead (sv : SuperVersion K) :
    memRead op opts lkey sv = multiMemRead op opts lkey sv {} := by
  rw [memRead, multiMemRead]
  cases hget : memGet op opts lkey sv.mem {} with
  | mk s done =>
  cases done with
  | true => rfl
  | false =>
    have hstatus := (memGet_handed op opts lkey handed_start hget).status
    simp only [if_pos hstatus]

theorem memRead_handed {sv : SuperVersion K} {s : ReadState}
    (h : memRead op opts lkey sv = (s, false)) : Handed s := by
  rw [memRead_eq_multiMemRead, multiMemRead] at h
  split_ifs at h with hskip
  · exact (Prod.mk.inj h).1 ▸ handed_start
  cases hget : memGet op opts lkey sv.mem {} with
  | mk s₁ done =>
  rw [hget] at h
  cases done with
  | true => exact absurd (Prod.mk.inj h).2 (by decide)
  | false =>
    exact immGet_handed op opts lkey sv.imm s₁ s
      (memGet_handed op opts lkey handed_start hget) h

end MemTables

/-! ## The same tables as ordinary files -/

/-- An entry of an NVM row. -/
def rowEntry (pool : Pool) (r : Row K) (m : KeysMetadata K) : InternalKey K × Bytes :=
  (m.key, getValueInFile pool r.file m)

/-- An NVM row as a table. -/
def rowTable (pool : Pool) (r : Row K) : SortedTable K :=
  { entries := (r.file.keysMeta.drop r.first).map (rowEntry pool r) }

/-- The NVM tables of a version. -/
def Version.rows (cf : NvmCf K) (v : Version K) : List (Row K) := versionRows cf.dir v.metas

/-- The version with its NVM tables as ordinary level-0 files. -/
def ordinary (cf : NvmCf K) (v : Version K) : Version K :=
  { v with
    l0 := (v.l0.zip (v.rows cf)).map fun p =>
      ⟨{ p.1.fileMeta with isNvmLevel0 := false }, rowTable cf.pool p.2⟩ }

/-- A version of an NVM family: its level-0 files are NVM tables with sound pointers,
    and the keys of each lie within the bounds of its file. -/
structure NvmVersion (cf : NvmCf K) (v : Version K) : Prop where
  nvm : ∀ f ∈ v.l0, f.fileMeta.isNvmLevel0 = true
  ok : ∀ r ∈ v.rows cf, RowOK r
  linked : Linked (v.rows cf)
  bounds : ∀ p ∈ v.l0.zip (v.rows cf), ∀ k i m, VersionAt p.2 k i m →
    p.1.fileMeta.smallest.userKey ≤ k ∧ k ≤ p.1.fileMeta.largest.userKey

/-- What the ordinary read gives: below a covering tombstone the pending operands
    alone, otherwise the outcome of the visible history of the tables. -/
def expected (op : Option (MergeOperator K)) (opts : ReadOptions) (lkey : LookupKey K)
    (cf : NvmCf K) (v : Version K) (s : ReadState) : Except Status Bytes :=
  if s.covering > 0 then s.context.atBottom op lkey.userKey
  else
    resolve op lkey.userKey (fun ops => versionLoop op opts lkey (v.deeper lkey) (openContext ops))
      (history lkey ((v.rows cf).map (rowTable cf.pool))) s.operands

section Ordinary

variable {op : Option (MergeOperator K)} {opts : ReadOptions} {lkey : LookupKey K}
  {cf : NvmCf K} {v : Version K} {s : ReadState} {r : Row K}

theorem mem_visible_rowTable {pool : Pool} {e : InternalKey K × Bytes}
    (h : e ∈ visible lkey (rowTable pool r).entries) :
    ∃ i m, VersionAt r lkey.userKey i m ∧ e = rowEntry pool r m := by
  obtain ⟨he, hvis⟩ := mem_filter.mp h
  obtain ⟨m, hm, rfl⟩ := mem_map.mp he
  obtain ⟨j, hj⟩ := mem_iff_getElem?.mp hm
  rw [getElem?_drop] at hj
  exact ⟨r.first + j, m, ⟨Nat.le_add_right .., hj, (of_decide_eq_true hvis).1⟩, rfl⟩

theorem visible_rowTable_of_not_holds {pool : Pool} (h : ¬ Holds r lkey.userKey) :
    visible lkey (rowTable pool r).entries = [] := by
  rw [eq_nil_iff_forall_not_mem]
  intro e he
  obtain ⟨i, m, hm, -⟩ := mem_visible_rowTable he
  exact h (holds_of_versionAt hm)

theorem plainTable_rowTable (pool : Pool) (hok : RowOK r) : PlainTable (rowTable pool r) := by
  refine ⟨rfl, rfl, ?_⟩
  rw [rowTable, pairwise_map]
  exact (pairwise_map.mp hok.sorted).sublist (drop_sublist ..)

omit [LinearOrder K] in
theorem map_table_ordinary (cf : NvmCf K) (v : Version K) :
    (ordinary cf v).l0.map LevelFile.table = (v.rows cf).map (rowTable cf.pool) := by
  have hlen : (v.rows cf).length ≤ v.l0.length := by
    simp only [Version.rows, versionRows, Version.metas, length_zipWith, length_map]
    omega
  rw [ordinary, map_map]
  show (v.l0.zip (v.rows cf)).map (rowTable cf.pool ∘ Prod.snd) = _
  rw [← map_map, map_snd_zip hlen]

/-- Files outside the range add nothing to the history. -/
theorem history_filter_inRange (fs : List (LevelFile K))
    (h : ∀ f ∈ fs, ¬ f.inRange lkey.userKey = true → visible lkey f.table.entries = []) :
    history lkey ((fs.filter (LevelFile.inRange lkey.userKey)).map LevelFile.table) = history lkey
      (fs.map LevelFile.table) := by
  induction fs with
  | nil => rfl
  | cons f fs ih =>
  have hrest := ih (fun f' hf' => h f' (.tail f hf'))
  simp only [history] at hrest ⊢
  by_cases hin : f.inRange lkey.userKey = true
  · rw [filter_cons_of_pos hin, map_cons, map_cons, flatMap_cons, flatMap_cons, hrest]
  rw [filter_cons_of_neg hin, map_cons, flatMap_cons, h f (.head _) hin, hrest]
  rfl

/-- The files of level 0 the ordinary read visits: all plain, and with the history
    of all the rows. -/
theorem pickLevel0_ordinary (lkey : LookupKey K) (hv : NvmVersion cf v) :
    (∀ t ∈ (pickLevel0 (ordinary cf v) lkey.userKey).map LevelFile.table, PlainTable t) ∧
    history lkey ((pickLevel0 (ordinary cf v) lkey.userKey).map LevelFile.table)
      = history lkey ((v.rows cf).map (rowTable cf.pool)) := by
  have hplain : ∀ f ∈ (ordinary cf v).l0, PlainTable f.table := by
    intro f hf
    obtain ⟨p, hp, rfl⟩ := mem_map.mp hf
    exact plainTable_rowTable cf.pool (hv.ok p.2 (of_mem_zip hp).2)
  have hflag : ∀ f ∈ (ordinary cf v).l0, f.fileMeta.isNvmLevel0 = false := by
    intro f hf
    obtain ⟨p, -, rfl⟩ := mem_map.mp hf
    rfl
  have hout : ∀ f ∈ (ordinary cf v).l0, ¬ f.inRange lkey.userKey = true →
      visible lkey f.table.entries = [] := by
    intro f hf hrange
    obtain ⟨p, hp, rfl⟩ := mem_map.mp hf
    refine visible_rowTable_of_not_holds ?_
    rintro ⟨i, hi, m, hm⟩
    exact hrange (decide_eq_true (hv.bounds p hp lkey.userKey i m ⟨hi, hm⟩))
  rw [← map_table_ordinary]
  rw [pickLevel0]
  cases hl0 : (ordinary cf v).l0 with
  | nil =>
    refine ⟨?_, rfl⟩
    intro t ht
    exact nomatch ht
  | cons f fs =>
  rw [hl0] at hplain hflag hout
  simp only [hflag f (.head _), Bool.false_eq_true, if_false]
  split_ifs with hmany
  · refine ⟨?_, history_filter_inRange (f :: fs) hout⟩
    intro t ht
    obtain ⟨f', hf', rfl⟩ := mem_map.mp ht
    exact hplain f' (mem_filter.mp hf').1
  · refine ⟨?_, rfl⟩
    intro t ht
    obtain ⟨f', hf', rfl⟩ := mem_map.mp ht
    exact hplain f' hf'

omit [LinearOrder K] in
theorem context_eq_open (hs : Handed s) (hcov : ¬ s.covering > 0) :
    s.context = openContext s.operands := by
  have h0 : s.covering = 0 := Nat.eq_zero_of_not_pos hcov
  rcases hs with ⟨hst, hops⟩ | ⟨hst, hops⟩
  · rw [ReadState.context, openContext, hst, hops, h0]
    rfl
  · rw [ReadState.context, openContext, hst, if_neg hops, h0]
    rfl

/-- **THE ORDINARY READ** gives the expected outcome. -/
theorem versionGet_ordinary (hv : NvmVersion cf v) (hs : Handed s) :
    versionGet op opts lkey (filePicker (ordinary cf v) lkey) s = expected op opts lkey cf v s := by
  obtain ⟨hplain, hhistory⟩ := pickLevel0_ordinary lkey hv
  rw [versionGet, expected]
  by_cases hcov : s.covering > 0
  · rw [if_pos hcov]
    exact versionLoop_of_covered op opts lkey hcov _
  rw [if_neg hcov, context_eq_open hs hcov, filePicker, versionLoop_eq_resolve _ _ _ _ _ _ hplain,
    hhistory]
  rfl

/-- An NVM level 0 is left out. -/
theorem filePicker_nvm (hv : NvmVersion cf v) : filePicker v lkey = v.deeper lkey := by
  rw [filePicker, pickLevel0]
  cases hl0 : v.l0 with
  | nil => rfl
  | cons f fs =>
    have hflag := hv.nvm f (by rw [hl0]; exact .head _)
    simp only [hflag, if_true, map_nil, nil_append]

/-- The history of rows that do not hold the key. -/
theorem history_of_not_holds (lkey : LookupKey K) (pool : Pool) :
    ∀ (rows : List (Row K)), (∀ r ∈ rows, ¬ Holds r lkey.userKey) →
      history lkey (rows.map (rowTable pool)) = [] := by
  intro rows h
  rw [history, flatMap_map, flatMap_eq_nil_iff]
  intro r hr
  rw [visible_rowTable_of_not_holds (h r hr)]
  rfl

/-- The visible history of a row with one version of the key starts with it. -/
theorem visible_rowTable_of_version (pool : Pool) {i : Nat} {m : KeysMetadata K}
    (hm : VersionAt r lkey.userKey i m)
    (hone : ∀ j x, VersionAt r lkey.userKey j x → j = i) (hseq : m.key.sequence ≤ lkey.sequence) :
    ∃ tail, visible lkey (rowTable pool r).entries = rowEntry pool r m :: tail := by
  obtain ⟨hfirst, hget, hkey⟩ := hm
  have hget' : (r.file.keysMeta.drop r.first)[i - r.first]? = some m := by
    rw [getElem?_drop, Nat.add_sub_cancel' hfirst, hget]
  obtain ⟨hlt, helem⟩ := List.getElem?_eq_some_iff.mp hget'
  -- nothing before the version belongs to the key
  have hbefore : visible lkey (((r.file.keysMeta.drop r.first).take (i - r.first)).map
      (rowEntry pool r)) = [] := by
    refine filter_eq_nil_iff.mpr ?_
    intro e he hvis
    obtain ⟨x, hx, rfl⟩ := mem_map.mp he
    obtain ⟨j, hj, hxj⟩ := mem_take_iff_getElem.mp hx
    have hxk : VersionAt r lkey.userKey (r.first + j) x := by
      refine ⟨Nat.le_add_right .., ?_, (of_decide_eq_true hvis).1⟩
      rw [← getElem?_drop, ← hxj]
      exact getElem?_eq_getElem _
    have := hone _ x hxk
    omega
  have hsplit := congrArg (List.map (rowEntry pool r))
    (take_append_drop (i - r.first) (r.file.keysMeta.drop r.first))
  rw [drop_eq_getElem_cons hlt, helem, map_append, map_cons] at hsplit
  rw [rowTable, ← hsplit, visible_append, hbefore, nil_append,
    visible_cons_of_pos lkey _ (show (rowEntry pool r m).1.userKey = _ ∧ _ from ⟨hkey, hseq⟩)]
  exact ⟨_, rfl⟩

end Ordinary

/-! ## NVM reads and ordinary reads -/

/-- At most one version of a user key in each table. -/
def OneVersion (rows : List (Row K)) : Prop :=
  ∀ r ∈ rows, ∀ k i j m m', VersionAt r k i m → VersionAt r k j m' → i = j

/-- The entry may be returned as it is: nothing is pending above it, it is a value,
    and the read may see it. -/
def PlainHit (lkey : LookupKey K) (s : ReadState) (m : KeysMetadata K) : Prop :=
  s.operands = [] ∧ s.covering = 0 ∧ m.key.type = .value ∧ m.key.sequence ≤ lkey.sequence

/-- When the NVM read is right: no table holds the key, or the newest entry is a
    plain hit. -/
def NvmReadOK (lkey : LookupKey K) (cf : NvmCf K) (v : Version K) (s : ReadState) : Prop :=
  (∀ r ∈ v.rows cf, ¬ Holds r lkey.userKey) ∨
  ∃ r m, NewestEntry (v.rows cf) lkey.userKey r m ∧ PlainHit lkey s m

/-- No merge takes part: no operand is pending, and the newest entry is visible and
    not an operand.  Elsewhere the stored bytes may be the outcome by chance. -/
def NoMerge (lkey : LookupKey K) (cf : NvmCf K) (v : Version K) (s : ReadState) : Prop :=
  s.operands = [] ∧ ∀ r m, NewestEntry (v.rows cf) lkey.userKey r m →
    m.key.sequence ≤ lkey.sequence ∧ m.key.type ≠ .merge

section Below

variable {op : Option (MergeOperator K)} {opts : ReadOptions} {lkey : LookupKey K}
  {cf : NvmCf K} {v : Version K} {s : ReadState} {r r' : Row K} {m m' : KeysMetadata K}

omit [LinearOrder K] in
/-- A list splits in one way at its first element with a property. -/
theorem first_split_unique {p : Row K → Prop} {a a' : Row K} {t t' : List (Row K)}
    (ha : p a) (ha' : p a') :
    ∀ {l l' : List (Row K)}, (∀ x ∈ l, ¬ p x) → (∀ x ∈ l', ¬ p x) →
      l ++ a :: t = l' ++ a' :: t' → l = l' ∧ a = a' ∧ t = t' := by
  intro l
  induction l with
  | nil =>
    intro l' _ hl' heq
    cases l' with
    | nil => exact ⟨rfl, List.cons.inj heq⟩
    | cons x l' =>
      obtain ⟨rfl, -⟩ := List.cons.inj heq
      exact absurd ha (hl' a (.head _))
  | cons y l ih =>
  intro l' hl hl' heq
  cases l' with
  | nil =>
    obtain ⟨rfl, -⟩ := List.cons.inj heq
    exact absurd ha' (hl y (.head _))
  | cons x l' =>
  obtain ⟨rfl, htail⟩ := List.cons.inj heq
  obtain ⟨rfl, h⟩ := ih (fun z hz => hl z (.tail y hz))
    (fun z hz => hl' z (.tail y hz)) htail
  exact ⟨rfl, h⟩

omit [LinearOrder K] in
theorem newestEntry_unique {rows : List (Row K)} {k : K} (hone : OneVersion rows)
    (h : NewestEntry rows k r m) (h' : NewestEntry rows k r' m') : r = r' ∧ m = m' := by
  have hr := h.mem
  obtain ⟨newer, older, i, hsplit, hno, hm⟩ := h
  obtain ⟨newer', older', i', hsplit', hno', hm'⟩ := h'
  obtain ⟨-, rfl, -⟩ := first_split_unique (p := fun q => Holds q k) (holds_of_versionAt hm)
    (holds_of_versionAt hm') hno hno' (hsplit.symm.trans hsplit')
  have hi := hone r hr k i i' m m' hm hm'
  subst hi
  exact ⟨rfl, Option.some.inj (hm.2.1.symm.trans hm'.2.1)⟩

omit [LinearOrder K] in
theorem atBottom_of_no_operands (hs : Handed s) (hops : s.operands = []) (k : K) :
    s.context.atBottom op k = .error .notFound := by
  rcases hs with ⟨hst, -⟩ | ⟨-, hne⟩
  · simp [ReadState.context, GetContext.atBottom, hst]
  · exact absurd hops hne

/-- The history of the tables starts with the newest entry. -/
theorem history_of_newestEntry {rows : List (Row K)} (pool : Pool) (hone : OneVersion rows)
    (hnew : NewestEntry rows lkey.userKey r m) (hseq : m.key.sequence ≤ lkey.sequence) :
    ∃ older, history lkey (rows.map (rowTable pool))
      = (m.key.type, getValueInFile pool r.file m) :: older := by
  have hr := hnew.mem
  obtain ⟨newer, older, i, hsplit, hno, hm⟩ := hnew
  obtain ⟨tail, htail⟩ := visible_rowTable_of_version pool hm
    (fun j x hx => hone r hr lkey.userKey j i x m hx hm) hseq
  have hnewer := history_of_not_holds lkey pool newer hno
  rw [history] at hnewer
  rw [hsplit, map_append, map_cons, history, flatMap_append, flatMap_cons, htail, hnewer,
    nil_append, map_cons, cons_append]
  exact ⟨_, congrArg (· :: _) (by rw [entryOp, rowEntry])⟩

/-- Without a merge the ordinary read answers with the newest entry only if it is a
    plain hit. -/
theorem expected_eq_ok_iff (hone : OneVersion (v.rows cf)) (hs : Handed s)
    (hnew : NewestEntry (v.rows cf) lkey.userKey r m) (hops : s.operands = [])
    (hseq : m.key.sequence ≤ lkey.sequence) (hmerge : m.key.type ≠ .merge) :
    expected op opts lkey cf v s = .ok (getValueInFile cf.pool r.file m) ↔ PlainHit lkey s m := by
  by_cases hcov : s.covering = 0
  · obtain ⟨older, hhistory⟩ := history_of_newestEntry cf.pool hone hnew hseq
    rw [expected, if_neg (by omega), hhistory, hops]
    cases htype : m.key.type with
    | value => exact iff_of_true (by rw [resolve, if_pos rfl]) ⟨hops, hcov, htype, hseq⟩
    | merge => exact absurd htype hmerge
    | deletion | singleDeletion | rangeDeletion | blobIndex =>
      refine iff_of_false (by simp [resolve]) ?_
      exact fun h => absurd (htype.symm.trans h.2.2.1) (by decide)
  · rw [expected, if_pos (Nat.pos_of_ne_zero hcov), atBottom_of_no_operands hs hops]
    exact iff_of_false (by simp) (fun h => hcov h.2.1)

theorem getBelow_of_get (s : ReadState) (hv : NvmVersion cf v) :
    getBelow op opts lkey (some cf) v s =
      match NvmGet.get cf.pool cf.dir v.metas lkey.userKey with
      | some value => .ok value
      | none => versionGet op opts lkey (v.deeper lkey) s := by
  rw [getBelow, filePicker_nvm hv]
  rfl

variable (lkey) in
/-- The module answers with the newest entry, or both reads go on below level 0. -/
theorem getBelow_cases (op : Option (MergeOperator K)) (opts : ReadOptions)
    (hv : NvmVersion cf v) (hs : Handed s) :
    ((∀ r ∈ v.rows cf, ¬ Holds r lkey.userKey) ∧
      getBelow op opts lkey (some cf) v s = getBelow op opts lkey none (ordinary cf v) s) ∨
    ∃ r m, NewestEntry (v.rows cf) lkey.userKey r m ∧
      getBelow op opts lkey (some cf) v s = .ok (getValueInFile cf.pool r.file m) ∧
      getBelow op opts lkey none (ordinary cf v) s = expected op opts lkey cf v s := by
  have hordinary : getBelow op opts lkey none (ordinary cf v) s = expected op opts lkey cf v s :=
    versionGet_ordinary hv hs
  rw [hordinary, getBelow_of_get s hv]
  rcases get_newestEntry cf.pool lkey.userKey hv.ok hv.linked with ⟨hno, hget⟩ | ⟨r, m, hnew, hget⟩
  · refine .inl ⟨hno, ?_⟩
    rw [hget, expected, history_of_not_holds lkey cf.pool (v.rows cf) hno, resolve, versionGet]
    split_ifs with hcov
    · exact versionLoop_of_covered op opts lkey hcov _
    · rw [context_eq_open hs hcov]
  · rw [hget]
    exact .inr ⟨r, m, hnew, rfl, rfl⟩

variable (lkey) in
/-- The file part of a read: the module and the ordinary files agree where the newest
    entry is a plain hit, and without a merge only there. -/
theorem getBelow_ordinary (op : Option (MergeOperator K)) (opts : ReadOptions)
    (hv : NvmVersion cf v) (hone : OneVersion (v.rows cf)) (hs : Handed s) :
    (NvmReadOK lkey cf v s → getBelow op opts lkey (some cf) v s
        = getBelow op opts lkey none (ordinary cf v) s) ∧
    (NoMerge lkey cf v s → getBelow op opts lkey (some cf) v s
        = getBelow op opts lkey none (ordinary cf v) s → NvmReadOK lkey cf v s) := by
  rcases getBelow_cases lkey op opts hv hs with ⟨hno, heq⟩ | ⟨r, m, hnew, hnvm, hexp⟩
  · exact ⟨fun _ => heq, fun _ _ => .inl hno⟩
  rw [hnvm, hexp]
  constructor
  · rintro (hno | ⟨r', m', hnew', hplain⟩)
    · exact absurd hnew.holds (hno r hnew.mem)
    obtain ⟨rfl, rfl⟩ := newestEntry_unique hone hnew hnew'
    have hmerge : m.key.type ≠ .merge := by
      rw [hplain.2.2.1]
      exact ValueType.noConfusion
    exact ((expected_eq_ok_iff hone hs hnew hplain.1 hplain.2.2.2 hmerge).mpr hplain).symm
  · rintro ⟨hops, hnewest⟩ heq
    obtain ⟨hseq, hmerge⟩ := hnewest r m hnew
    exact .inr ⟨r, m, hnew, (expected_eq_ok_iff hone hs hnew hops hseq hmerge).mp heq.symm⟩

/-- `GetImpl` ends in the memtables or goes on to the files. -/
theorem getImpl_eq (op : Option (MergeOperator K)) (opts : ReadOptions) (last : Nat)
    (sv : SuperVersion K) (k : K) :
    getImpl op opts last sv k =
      if (memRead op opts (lookupKey opts last k) sv).2 then
        (memRead op opts (lookupKey opts last k) sv).1.result
      else
        getBelow op opts (lookupKey opts last k) sv.nvm sv.current
          (memRead op opts (lookupKey opts last k) sv).1 := by
  rw [getImpl]
  cases hmem : memRead op opts (lookupKey opts last k) sv with
  | mk s done =>
  cases done with
  | true => rfl
  | false =>
  have hstatus := (memRead_handed op opts _ hmem).status
  have hgo : ¬ (¬ opts.persistedOnly = true ∧ s.status ≠ .ok ∧ s.status ≠ .mergeInProgress) :=
    fun h => hstatus.elim h.2.1 h.2.2
  simp only [if_neg hgo, Bool.false_eq_true, if_false]

end Below

/-- `MultiGet` is right about a key: the memtables answer, or no NVM table holds it. -/
def MultiGetOK (op : Option (MergeOperator K)) (opts : ReadOptions) (lkey : LookupKey K)
    (sv : SuperVersion K) (cf : NvmCf K) : Prop :=
  (memRead op opts lkey sv).2 = true ∨ ∀ r ∈ sv.current.rows cf, ¬ Holds r lkey.userKey

/-- Neither pending operands nor the files below level 0 have anything for the key. -/
def NothingBelow (op : Option (MergeOperator K)) (opts : ReadOptions) (lkey : LookupKey K)
    (sv : SuperVersion K) : Prop :=
  (memRead op opts lkey sv).1.operands = [] ∧
    ∀ t ∈ sv.current.deeper lkey, PlainTable t ∧ visible lkey t.entries = []

section MultiGet

variable (op : Option (MergeOperator K)) (opts : ReadOptions) (last : Nat)

/-- What `MultiGet` does for one key: the operands of the keys before it are gone. -/
theorem multiGetLoop_eq_map (sv : SuperVersion K) (ks : List K) (ops : List Bytes) :
    multiGetLoop op opts last sv ks ops = ks.map fun k => if
      (memRead op opts (lookupKey opts last k) sv).2 then
      (memRead op opts (lookupKey opts last k) sv).1.result else versionGet op opts
      (lookupKey opts last k) (filePicker sv.current (lookupKey opts last k))
      (memRead op opts (lookupKey opts last k) sv).1 := by
  induction ks generalizing ops with
  | nil => rfl
  | cons k ks ih =>
  rw [multiGetLoop, map_cons, memRead_eq_multiMemRead]
  exact congrArg _ (ih _)

variable {op opts}

/-- A read that has nothing pending and finds nothing. -/
theorem versionGet_of_nothing {lkey : LookupKey K} {ts : List (SortedTable K)} {s : ReadState}
    (hs : Handed s) (hops : s.operands = [])
    (hts : ∀ t ∈ ts, PlainTable t ∧ visible lkey t.entries = []) :
    versionGet op opts lkey ts s = .error .notFound := by
  rw [versionGet]
  by_cases hcov : s.covering > 0
  · exact (versionLoop_of_covered op opts lkey hcov ts).trans (atBottom_of_no_operands hs hops _)
  have hhistory : history lkey ts = [] := by
    rw [history, flatMap_eq_nil_iff]
    intro t ht
    rw [(hts t ht).2]
    rfl
  rw [context_eq_open hs hcov, hops, ← append_nil ts,
    versionLoop_eq_resolve _ _ _ _ _ _ (fun t ht => (hts t ht).1), hhistory]
  rfl

/-- What the two calls give for one key. -/
theorem multiGet_key {sv : SuperVersion K} {cf : NvmCf K} (hnvm : sv.nvm = some cf)
    (hv : NvmVersion cf sv.current) (k : K) :
    let lkey := lookupKey opts last k
    let one := if (memRead op opts lkey sv).2 then (memRead op opts lkey sv).1.result
      else versionGet op opts lkey (filePicker sv.current lkey) (memRead op opts lkey sv).1
    (MultiGetOK op opts lkey sv cf → one = getImpl op opts last sv k) ∧
    (NothingBelow op opts lkey sv → one = getImpl op opts last sv k →
      MultiGetOK op opts lkey sv cf) := by
  intro lkey one
  rw [getImpl_eq, hnvm, getBelow_of_get _ hv]
  show (_ → (if _ then _ else versionGet _ _ _ (filePicker _ _) _) = _) ∧
    (_ → (if _ then _ else versionGet _ _ _ (filePicker _ _) _) = _ → _)
  rw [filePicker_nvm hv, MultiGetOK]
  by_cases hdone : (memRead op opts lkey sv).2 = true
  · rw [if_pos hdone, if_pos hdone]
    exact ⟨fun _ => rfl, fun _ _ => .inl hdone⟩
  have hs : Handed (memRead op opts lkey sv).1 := memRead_handed op opts lkey
    (Prod.ext rfl (Bool.eq_false_iff.mpr hdone) :
      memRead op opts lkey sv = ((memRead op opts lkey sv).1, false))
  rw [if_neg hdone, if_neg hdone]
  rcases get_newestEntry cf.pool lkey.userKey hv.ok hv.linked with ⟨hno, hget⟩ | ⟨r, m, hnew, hget⟩
  · rw [hget]
    exact ⟨fun _ => rfl, fun _ _ => .inr hno⟩
  rw [hget]
  refine ⟨?_, ?_⟩
  · rintro (h | hno)
    · exact absurd h hdone
    · exact absurd hnew.holds (hno r hnew.mem)
  · rintro ⟨hops, hts⟩ heq
    rw [versionGet_of_nothing hs hops hts] at heq
    cases heq

variable (op opts)

/-- **MULTIGET** gives for each key what `GetImpl` gives when, for each key, the
    memtables answer or level 0 does not hold it; and only then where the levels
    below have nothing for the keys. -/
theorem multiGet_eq_getImpl (sv : SuperVersion K) (cf : NvmCf K) (hnvm : sv.nvm = some cf)
    (hv : NvmVersion cf sv.current) (ks : List K) :
    ((∀ k ∈ ks, MultiGetOK op opts (lookupKey opts last k) sv cf) →
      multiGet op opts last sv ks = ks.map (getImpl op opts last sv)) ∧
    ((∀ k ∈ ks, NothingBelow op opts (lookupKey opts last k) sv) →
      multiGet op opts last sv ks = ks.map (getImpl op opts last sv) →
      ∀ k ∈ ks, MultiGetOK op opts (lookupKey opts last k) sv cf) := by
  rw [multiGet, multiGetLoop_eq_map, map_inj_left]
  refine ⟨fun h k hk => (multiGet_key last hnvm hv k).1 (h k hk), ?_⟩
  exact fun hnothing h k hk => (multiGet_key last hnvm hv k).2 (hnothing k hk) (h k hk)

end MultiGet

/-! ## A family with one flushed entry -/

omit [LinearOrder K] in
theorem versionAt_singleton {r : Row K} {m x : KeysMetadata K} {k : K} {i : Nat}
    (hmeta : r.file.keysMeta = [m]) (h : VersionAt r k i x) : i = 0 ∧ x = m := by
  obtain ⟨-, hget, -⟩ := h
  rw [hmeta] at hget
  cases i with
  | zero => exact ⟨rfl, (Option.some.inj hget).symm⟩
  | succ i => exact nomatch hget

/-- A version with one table of one key. -/
theorem nvmVersion_singleton {cf : NvmCf K} {v : Version K} {f : LevelFile K} {r : Row K}
    {m : KeysMetadata K} (hl0 : v.l0 = [f]) (hrows : v.rows cf = [r])
    (hflag : f.fileMeta.isNvmLevel0 = true) (hmeta : r.file.keysMeta = [m]) (hfirst : r.first = 0)
    (hbounds : f.fileMeta.smallest.userKey = m.userKey ∧ f.fileMeta.largest.userKey = m.userKey) :
    NvmVersion cf v ∧ OneVersion (v.rows cf) := by
  refine ⟨⟨?_, ?_, ?_, ?_⟩, ?_⟩
  · intro g hg
    rw [hl0, mem_singleton] at hg
    rw [hg, hflag]
  · intro q hq
    rw [hrows, mem_singleton] at hq
    subst hq
    refine ⟨?_, ?_⟩
    · rw [hmeta]
      exact pairwise_singleton _ _
    · rw [hfirst, FileEntry.keysNum, hmeta]
      exact Nat.zero_lt_one
  · rw [hrows]
    exact List.IsChain.singleton _
  · intro p hp k i x hx
    rw [hl0, hrows, zip_cons_cons, zip_nil_left, mem_singleton] at hp
    subst hp
    obtain ⟨-, rfl⟩ := versionAt_singleton hmeta hx
    rw [hbounds.1, hbounds.2, hx.2.2]
    exact ⟨le_rfl, le_rfl⟩
  · intro q hq k i j x y hx hy
    rw [hrows, mem_singleton] at hq
    subst hq
    rw [(versionAt_singleton hmeta hx).1, (versionAt_singleton hmeta hy).1]

/-- A memtable with one entry of key 5. -/
def oneEntry (type : ValueType) (value : Bytes) : FlushInput (Fin 256) :=
  { number := 7, valid := true, pairs := [(⟨5, 1, type⟩, value)], tombstones := []
    iterStatus := .ok, pairs_of_invalid := fun h => Bool.noConfusion h }

/-- The family after that flush, with nothing else in it. -/
def afterFlush (res : FlushResult (Fin 256)) : SuperVersion (Fin 256) :=
  { mem := {}, imm := [], nvm := some res.cf
    current :=
      { l0 := (NvmRun.flushedFiles 7 res).map fun f => ⟨f, { entries := [] }⟩
        numLevels := 1, deeper := fun _ => [] } }

theorem nvmVersion_deletion :
    ∃ res, buildInsertNvm smallModule (oneEntry .deletion []) = some res ∧
      NvmVersion res.cf (afterFlush res).current ∧ OneVersion
        ((afterFlush res).current.rows res.cf) :=
  ⟨_, rfl, nvmVersion_singleton rfl rfl rfl rfl rfl ⟨rfl, rfl⟩⟩

theorem nvmVersion_value :
    ∃ res, buildInsertNvm smallModule (oneEntry .value [42]) = some res ∧
      NvmVersion res.cf (afterFlush res).current :=
  ⟨_, rfl, (nvmVersion_singleton rfl rfl rfl rfl rfl ⟨rfl, rfl⟩).1⟩

/-- The theorem at the flushed value, for its key and another. -/
theorem multiGet_eq_getImpl_value :
    ∃ res, buildInsertNvm smallModule (oneEntry .value [42]) = some res ∧
      ((∀ k ∈ [5, 6], MultiGetOK none {} (lookupKey {} 1 k) (afterFlush res) res.cf) →
        multiGet none {} 1 (afterFlush res) [5, 6]
          = [5, 6].map (getImpl none {} 1 (afterFlush res))) ∧
      ((∀ k ∈ [5, 6], NothingBelow none {} (lookupKey {} 1 k) (afterFlush res)) →
        multiGet none {} 1 (afterFlush res) [5, 6]
          = [5, 6].map (getImpl none {} 1 (afterFlush res)) →
        ∀ k ∈ [5, 6], MultiGetOK none {} (lookupKey {} 1 k) (afterFlush res) res.cf) := by
  obtain ⟨res, hres, hv⟩ := nvmVersion_value
  exact ⟨res, hres, multiGet_eq_getImpl none {} 1 (afterFlush res) res.cf rfl hv [5, 6]⟩

/-- The flushed key is found by `GetImpl` and not found by `MultiGet`. -/
theorem multiGet_misses_level0 :
    ∃ res, buildInsertNvm smallModule (oneEntry .value [42]) = some res ∧
      NvmVersion res.cf (afterFlush res).current ∧
      getImpl none {} 1 (afterFlush res) 5 = .ok [42] ∧
      multiGet none {} 1 (afterFlush res) [5] = [.error .notFound] :=
  ⟨_, rfl, (nvmVersion_singleton rfl rfl rfl rfl rfl ⟨rfl, rfl⟩).1, rfl, rfl⟩

end GetImpl
