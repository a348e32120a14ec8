import MatrixKV.NvmRecoverProofs

/-! # A table read back — the builder, recovery and the readers

    The layout of a table is written out in five places: the builder, recovery,
    the level-0 iterator, the iterator of column compactions and `GetValueInFile`.

    * `recoverKeys` reads the key metadata through a buffer of `nvm_meta_size`
      bytes, as the source does.
    * `recover_undoes_build` — every reader gives back the pairs of the build. -/

namespace NvmRoundTrip

open List DbFormat SstableMeta FixedCoding PersistentSstable L0TableBuilder NvmFlush NvmRecover

variable {K : Type}

/-! ## Buffers -/

/-- A buffer as memory from address 0 on. -/
def bufMemory (bs : List UInt8) : Memory := fun a => (bs[a]?).getD 0

/-- Inside a copied range the buffer reads as the memory did. -/
theorem readBytes_bufMemory (m : Memory) {base size pos len : Nat} (h : pos + len ≤ size) :
    readBytes (bufMemory (readBytes m base size)) pos len = readBytes m (base + pos) len := by
  refine ext_getElem (by rw [length_readBytes, length_readBytes]) ?_
  intro i hi _
  rw [length_readBytes] at hi
  have hlt : pos + i < (readBytes m base size).length := by
    rw [length_readBytes]
    omega
  simp only [readBytes, getElem_map, getElem_range]
  show ((readBytes m base size)[pos + i]?).getD 0 = _
  rw [getElem?_eq_getElem hlt, Option.getD_some]
  simp only [readBytes, getElem_map, getElem_range, Nat.add_assoc]

theorem Stored.buffer {m : Memory} {base size pos : Nat} {bs : List UInt8}
    (h : Stored m (base + pos) bs) (hlen : pos + bs.length ≤ size) :
    Stored (bufMemory (readBytes m base size)) pos bs := by
  rw [Stored, readBytes_bufMemory m hlen]
  exact h

/-! ## Recovery through the buffer -/

variable {f : FileMetaData K}

section Recovery

variable [UserKeyCodec K]

/-- The key metadata of a file, decoded in a copy of `nvm_meta_size` bytes. -/
def recoverKeys (pool : Pool) (f : FileMetaData K) : List (KeysMetadata K) :=
  decodeMetas (bufMemory (readBytes pool.raw
    (pool.getIndexPtr f.nvmSstableIndex + f.rawFileSize) f.nvmMetaSize)) f.keysNum 0

def recoverTable (f : FileMetaData K) (cf : NvmCf K) : NvmCf K :=
  match cf.dir.findFile f.number with
  | some _ => cf
  | none =>
    { dir := (cf.dir.addFile f.number f.nvmSstableIndex).setFile
        { filenum := f.number
          sstableIndex := f.nvmSstableIndex
          keysMeta := recoverKeys cf.pool f
          keyPointFilenum := f.keyPointFilenum }
      pool := cf.pool.recoverAddSstable f.nvmSstableIndex }

/-- `RecoverFromStorageInfo` -/
def recoverTables (cf : NvmCf K) (openByCreat : Bool) (l0 : List (FileMetaData K)) : NvmCf K :=
  if l0 = [] then cf
  else if openByCreat then cf
  else l0.foldr recoverTable cf

theorem recoverAddSstable_frame (pool : Pool) (index : Nat) :
    (pool.recoverAddSstable index).raw = pool.raw ∧
    (pool.recoverAddSstable index).eachSize = pool.eachSize := by
  rw [Pool.recoverAddSstable]
  split <;> exact ⟨rfl, rfl⟩

/-- Recovery does not touch the slots. -/
theorem recoverTable_frame (f : FileMetaData K) (cf : NvmCf K) :
    (recoverTable f cf).pool.raw = cf.pool.raw ∧
    (recoverTable f cf).pool.eachSize = cf.pool.eachSize := by
  rw [recoverTable]
  split
  · exact ⟨rfl, rfl⟩
  · exact recoverAddSstable_frame _ _

theorem recoverTables_frame (cf : NvmCf K) (l0 : List (FileMetaData K)) :
    (l0.foldr recoverTable cf).pool.raw = cf.pool.raw ∧
    (l0.foldr recoverTable cf).pool.eachSize = cf.pool.eachSize := by
  induction l0 with
  | nil => exact ⟨rfl, rfl⟩
  | cons f l0 ih =>
    obtain ⟨h1, h2⟩ := recoverTable_frame f (l0.foldr recoverTable cf)
    exact ⟨h1.trans ih.1, h2.trans ih.2⟩

/-- The table recovery makes of a file. -/
def recoveredTable (pool : Pool) (f : FileMetaData K) : FileEntry K :=
  { filenum := f.number
    sstableIndex := f.nvmSstableIndex
    keysMeta := recoverKeys pool f
    keyPointFilenum := f.keyPointFilenum }

theorem files_recoverTable {cf : NvmCf K} (hnone : cf.dir.findFile f.number = none) :
    (recoverTable f cf).dir.files = recoveredTable cf.pool f :: cf.dir.files := by
  rw [recoverTable, hnone]
  show replaceFile (recoveredTable cf.pool f)
    ({ filenum := f.number, sstableIndex := f.nvmSstableIndex } :: cf.dir.files) = _
  rw [replaceFile, if_pos (show f.number = (recoveredTable cf.pool f).filenum from rfl)]

/-- A file that no other file of the version shares its number with is found again
    after recovery. -/
theorem findFile_recoverTables [DecidableEq K] (pool : Pool) :
    ∀ l0 : List (FileMetaData K), (∀ g ∈ l0, g.number = f.number → g = f) →
      (l0.foldr recoverTable (reopen pool)).dir.findFile f.number =
        if f ∈ l0 then some (recoveredTable pool f) else none := by
  intro l0
  induction l0 with
  | nil => exact fun _ => rfl
  | cons g l0 ih =>
  intro hunique
  have hrest := ih (fun x hx => hunique x (.tail g hx))
  have hframe := recoverTables_frame (reopen pool) l0
  rw [foldr_cons]
  generalize l0.foldr recoverTable (reopen pool) = cf at hrest hframe
  have hsame : recoveredTable cf.pool f = recoveredTable pool f := by
    rw [recoveredTable, recoveredTable, recoverKeys, recoverKeys, Pool.getIndexPtr,
      Pool.getIndexPtr, hframe.1, hframe.2]
    rfl
  by_cases hg : g.number = f.number
  · have hgf : g = f := hunique g (.head _) hg
    subst hgf
    rw [if_pos mem_cons_self]
    split_ifs at hrest with hmem
    · rw [recoverTable, hrest]
      exact hrest
    · rw [SstableMetadata.findFile, files_recoverTable hrest,
        find?_cons_of_pos (by exact decide_eq_true rfl), hsame]
  have hfg : f ∈ g :: l0 ↔ f ∈ l0 := by
    refine mem_cons.trans (or_iff_right ?_)
    intro heq
    exact hg (by rw [heq])
  rw [if_congr hfg rfl rfl, ← hrest]
  cases hfind : cf.dir.findFile g.number with
  | some e => rw [recoverTable, hfind]
  | none =>
  rw [SstableMetadata.findFile, files_recoverTable hfind,
    find?_cons_of_neg (by exact fun h => hg (of_decide_eq_true h))]
  rfl

end Recovery

/-! ## Readers -/

/-- `SeekToFirst`, then `Next` while `Valid`: the entries of an iterator that is
    valid at the positions from 0 to below `count`. -/
def drain {α : Type} (count : Int) (entry : Int → α) : Nat → Int → List α
  | 0, _ => []
  | fuel + 1, current =>
    if 0 ≤ current ∧ current < count then entry current :: drain count entry fuel (current + 1)
    else []

theorem drain_eq {α : Type} (count : Nat) (entry : Int → α) (fuel i : Nat) (h : count < i + fuel) :
    drain count entry fuel i = (List.range' i (count - i)).map (fun j => entry (j : Nat)) := by
  induction fuel generalizing i with
  | zero =>
    rw [Nat.sub_eq_zero_of_le (by omega)]
    rfl
  | succ fuel ih =>
  rw [drain]
  by_cases hi : i < count
  · rw [if_pos ⟨by omega, by omega⟩, show count - i = (count - (i + 1)) + 1 by omega,
      range'_succ, map_cons]
    have hrest := ih (i + 1) (by omega)
    rw [← hrest]
    rfl
  · rw [if_neg (by omega), Nat.sub_eq_zero_of_le (by omega)]
    rfl

/-- The conversion of a `uint64_t` to an `int`. -/
def toInt (n : Nat) : Int := decodeNext (n % 2 ^ 32)

theorem toInt_of_lt {n : Nat} (h : n < 2 ^ 31) : toInt n = n := by
  rw [toInt, decodeNext, Nat.mod_eq_of_lt (by omega), if_pos h]

/-- The value of the record at an address, as `value()` and `GetValueInFile` decode
    it. -/
def readValue (m : Memory) (addr : Nat) : List UInt8 :=
  let keySize := decodeFixed (readBytes m addr 8)
  let valueSize := decodeFixed (readBytes m (addr + 8 + keySize) 8)
  readBytes m (addr + 8 + keySize + 8) valueSize

theorem readValue_eq [UserKeyCodec K] (m : Memory) (addr : Nat) :
    readValue m addr = (decodeRecord m addr : Pair K).2 := by
  simp only [readValue, decodeRecord]

/-- `GetValueInFile`; `none` for an index outside the table. -/
def getValueInFile (pool : Pool) (file : FileEntry K) (findIndex : Nat) : Option (List UInt8) :=
  (file.keysMeta[findIndex]?).map
    (fun m => readValue pool.raw (pool.getIndexPtr file.sstableIndex + m.offset))

/-- `NVMLevel0ReadIterator`: `key` is taken from the metadata, `value` from the
    slot. -/
def level0Entry (pool : Pool) (file : FileEntry K) (first : Nat) (current : Int) :
    Option (Pair K) :=
  (file.keysMeta[first + current.toNat]?).map
    (fun m => (m.key, readValue pool.raw (pool.getIndexPtr file.sstableIndex + m.offset)))

def level0Read (pool : Pool) (file : FileEntry K) (first keysNum fuel : Nat) :
    List (Option (Pair K)) :=
  drain (toInt keysNum) (level0Entry pool file first) fuel 0

section Buffer

variable [UserKeyCodec K]

/-- The constructor of `ColumnCompactionWithBufferIterator`: the records from the
    first key to the end of the last are copied and taken apart in the copy.  A
    range that does not name keys of the table is read out of bounds: `none`. -/
def bufferPairs (pool : Pool) (file : FileEntry K) (first keysNum : Nat) :
    Option (List (Pair K)) :=
  if first + keysNum = 0 then none
  else
    match file.keysMeta[first]?, file.keysMeta[first + keysNum - 1]? with
    | some a, some z =>
      let buf := bufMemory (readBytes pool.raw
        (pool.getIndexPtr file.sstableIndex + a.offset) (z.offset - a.offset + z.size))
      some ((List.range keysNum).filterMap (fun i =>
        (file.keysMeta[first + i]?).map (fun m => decodeRecord buf (m.offset - a.offset))))
    | _, _ => none

/-- The entries the iterator yields. -/
def bufferRead (pairs : List (Pair K)) (fuel : Nat) : List (Option (Pair K)) :=
  drain (toInt pairs.length) (fun current => pairs[current.toNat]?) fuel 0

end Buffer

theorem map_range_getElem? {α : Type} (l : List α) :
    (List.range l.length).map (fun i => l[i]?) = l.map some := by
  refine ext_getElem (by rw [length_map, length_map, length_range]) ?_
  intro i hi hi'
  rw [length_map] at hi'
  rw [getElem_map, getElem_map, getElem_range, getElem?_eq_getElem hi']

theorem filterMap_range_getElem? {α : Type} (l : List α) :
    (List.range l.length).filterMap (fun i => l[i]?) = l := by
  have h := congrArg (List.filterMap id) (map_range_getElem? l)
  rw [filterMap_map, filterMap_map] at h
  exact h.trans (filterMap_some)

/-- An iterator over a list yields the list. -/
theorem drain_list {α : Type} {entry : Int → Option α} {l : List α} (hlen : l.length < 2 ^ 31)
    (hentry : ∀ i < l.length, entry (i : Nat) = l[i]?) {fuel : Nat} (hfuel : l.length < fuel) :
    drain (toInt l.length) entry fuel 0 = l.map some := by
  have h := drain_eq l.length entry fuel 0 (by omega)
  rw [toInt_of_lt hlen]
  refine h.trans ?_
  rw [Nat.sub_zero, ← range_eq_range', ← map_range_getElem?]
  refine map_congr_left ?_
  intro i hi
  exact hentry i (mem_range.mp hi)

/-! ## What the builder leaves -/

variable {e : FileEntry K} {ps : List (Pair K)} {i : Nat} {p : Pair K}

section Layout

variable [UserKeyCodec K]

/-- The bytes of the key metadata of a table. -/
def metaSize (ps : List (Pair K)) : Nat :=
  (ps.map (fun p => 8 + (encodeKey p.1).length + 4 + 8 + 8)).sum

/-- What a table takes up in its slot. -/
def tableSize (ps : List (Pair K)) : Nat := totalSize ps + metaSize ps

theorem length_encodeMetas (ms : List (KeysMetadata K)) (ps : List (Pair K))
    (h : ms.map KeysMetadata.key = ps.map Prod.fst) : (encodeMetas ms).length = metaSize ps := by
  have hms : (encodeMetas ms).length
      = ((ms.map KeysMetadata.key).map (fun k => 8 + (encodeKey k).length + 4 + 8 + 8)).sum := by
    rw [encodeMetas, length_flatMap, map_map]
    exact congrArg List.sum (map_congr_left (fun m _ => length_encodeMeta m))
  rw [hms, h, metaSize, map_map]
  rfl

/-- A key takes at least 60 bytes of its slot. -/
theorem length_le_tableSize (ps : List (Pair K)) : ps.length * 60 ≤ tableSize ps := by
  induction ps with
  | nil => exact Nat.zero_le _
  | cons p ps ih =>
  have hkey : 8 ≤ (encodeKey p.1).length := by
    rw [encodeKey, length_append, length_encodeFixed]
    omega
  simp only [tableSize, totalSize, metaSize, map_cons, sum_cons, length_cons, recordSize] at ih ⊢
  omega

theorem totalSize_append (ps qs : List (Pair K)) :
    totalSize (ps ++ qs) = totalSize ps + totalSize qs := by
  rw [totalSize, map_append, sum_append]
  rfl

theorem totalSize_take_le (ps : List (Pair K)) {j : Nat} (h : i ≤ j) :
    totalSize (ps.take i) ≤ totalSize (ps.take j) := by
  rw [show j = i + (j - i) by omega, take_add, totalSize_append]
  exact Nat.le_add_right _ _

theorem totalSize_take_succ (h : ps[i]? = some p) :
    totalSize (ps.take (i + 1)) = totalSize (ps.take i) + recordSize p := by
  rw [take_add_one, h, totalSize_append]
  rfl

/-- The metadata of the `i`-th pair. -/
theorem layout_getElem? (ps : List (Pair K)) :
    ∀ (offset i : Nat) (p : Pair K), ps[i]? = some p → (layout offset ps)[i]? = some
      { key := p.1, offset := offset + totalSize (ps.take i), size := recordSize p } := by
  induction ps with
  | nil => intro offset i p h; exact nomatch h
  | cons q ps ih =>
  intro offset i p h
  cases i with
  | zero =>
    rw [getElem?_cons_zero, Option.some.injEq] at h
    subst h
    rfl
  | succ i =>
  rw [getElem?_cons_succ] at h
  rw [layout, getElem?_cons_succ, ih _ i p h, take_succ_cons]
  simp only [totalSize, map_cons, sum_cons, Nat.add_assoc]

/-- The metadata places the pairs as the builder does; only the pointers are free. -/
def Laid (e : FileEntry K) (ps : List (Pair K)) : Prop :=
  e.keysMeta.map KeysMetadata.core = (layout 0 ps).map KeysMetadata.core

theorem Laid.keys (h : Laid e ps) : e.keysMeta.map KeysMetadata.key = ps.map Prod.fst := by
  have hfst := congrArg (List.map Prod.fst) h
  rw [map_map, map_map] at hfst
  exact hfst.trans (layout_map_key ps 0)

theorem Laid.keysNum (h : Laid e ps) : e.keysMeta.length = ps.length := by
  have hlen := congrArg List.length h.keys
  rw [length_map, length_map] at hlen
  exact hlen

/-- The metadata of the `i`-th pair, up to its pointer. -/
theorem Laid.getElem? (h : Laid e ps) (hp : ps[i]? = some p) :
    ∃ m, e.keysMeta[i]? = some m ∧ m.key = p.1 ∧ m.offset = totalSize (ps.take i) ∧
      m.size = recordSize p := by
  have hcore := congrArg (fun l => l[i]?) h
  simp only [getElem?_map, layout_getElem? ps 0 i p hp, Option.map_some] at hcore
  obtain ⟨m, hm, hm'⟩ := Option.map_eq_some_iff.mp hcore
  refine ⟨m, hm, congrArg (fun c => c.1) hm', ?_, congrArg (fun c => c.2.2) hm'⟩
  exact (congrArg (fun c => c.2.1) hm').trans (Nat.zero_add _)

/-- A record lies inside the records. -/
theorem record_bounds (hp : ps[i]? = some p) :
    totalSize (ps.take i) + recordSize p ≤ totalSize ps := by
  have hle := totalSize_take_le ps (Nat.succ_le_of_lt (List.getElem?_eq_some_iff.mp hp).1)
  rw [take_length, Nat.succ_eq_add_one, totalSize_take_succ hp] at hle
  exact hle

end Layout

/-! ## Reading the pairs back -/

variable {pairs : List (Pair K)}

section Read

variable [UserKeyCodec K]

/-- The bytes of a table in its slot: the records, then the metadata. -/
structure Written (pool : Pool) (e : FileEntry K) (pairs : List (Pair K)) : Prop where
  records : Stored pool.raw (pool.getIndexPtr e.sstableIndex) (pairs.flatMap record)
  metas : Stored pool.raw (pool.getIndexPtr e.sstableIndex + totalSize pairs)
    (encodeMetas e.keysMeta)

/-- All readers of a table yield the pairs.  An iterator is given a range of the
    table's keys; the buffered one a range that is not empty. -/
structure ReadsBack (pool : Pool) (e : FileEntry K) (pairs : List (Pair K)) : Prop where
  getValue : ∀ (i : Nat) (p : Pair K), pairs[i]? = some p → getValueInFile pool e i = some p.2
  level0 : ∀ first n fuel, first + n ≤ pairs.length → n < fuel →
    level0Read pool e first n fuel = ((pairs.drop first).take n).map some
  buffer : ∀ first n fuel, 0 < n → first + n ≤ pairs.length → n < fuel →
    bufferPairs pool e first n = some ((pairs.drop first).take n) ∧
    bufferRead ((pairs.drop first).take n) fuel = ((pairs.drop first).take n).map some

omit [UserKeyCodec K] in
theorem getElem?_range {first n : Nat} (hi : i < n) :
    ((pairs.drop first).take n)[i]? = pairs[first + i]? := by
  rw [getElem?_take_of_lt hi, getElem?_drop]

omit [UserKeyCodec K] in
theorem length_range {first n : Nat} (h : first + n ≤ pairs.length) :
    ((pairs.drop first).take n).length = n := by
  rw [length_take, length_drop]
  omega

variable {pool : Pool} {e : FileEntry K} {pairs : List (Pair K)}

/-- The record of the `i`-th pair. -/
theorem Written.record (h : Written pool e pairs) (hp : pairs[i]? = some p) :
    Stored pool.raw (pool.getIndexPtr e.sstableIndex + totalSize (pairs.take i))
      (L0TableBuilder.record p) := by
  have hstored := stored_layout pairs 0 h.records i _ p (layout_getElem? pairs 0 i p hp) hp
  rw [Nat.zero_add] at hstored
  exact hstored

variable (hwritten : Written pool e pairs) (hlaid : Laid e pairs)
  (hsize : totalSize pairs < 2 ^ 64) (hseq : ∀ p ∈ pairs, p.1.sequence ≤ maxSequenceNumber)

include hwritten hsize hseq in
theorem readValue_record (hp : pairs[i]? = some p) :
    readValue pool.raw (pool.getIndexPtr e.sstableIndex + totalSize (pairs.take i)) = p.2 := by
  have hle := record_bounds hp
  have h := decodeRecord_of_stored (hwritten.record hp)
    (hseq p (mem_of_getElem? hp)) (by omega)
  rw [readValue_eq (K := K), h]

include hwritten hlaid hsize hseq

theorem getValueInFile_eq (i : Nat) (p : Pair K) (hp : pairs[i]? = some p) :
    getValueInFile pool e i = some p.2 := by
  obtain ⟨m, hm, -, hoffset, -⟩ := hlaid.getElem? hp
  rw [getValueInFile, hm, Option.map_some, hoffset, readValue_record hwritten hsize hseq hp]

theorem level0Read_eq (hnum : pairs.length < 2 ^ 31) (first n fuel : Nat)
    (hrange : first + n ≤ pairs.length) (hfuel : n < fuel) :
    level0Read pool e first n fuel = ((pairs.drop first).take n).map some := by
  have hlen := length_range hrange
  have hentry : ∀ i < ((pairs.drop first).take n).length,
      level0Entry pool e first (i : Nat) = ((pairs.drop first).take n)[i]? := by
    intro i hi
    rw [hlen] at hi
    have hp : pairs[first + i]? = some (pairs[first + i]) := getElem?_eq_getElem (by omega)
    obtain ⟨m, hm, hkey, hoffset, -⟩ := hlaid.getElem? hp
    rw [getElem?_range hi, hp, level0Entry, Int.toNat_natCast, hm, Option.map_some, hkey, hoffset,
      readValue_record hwritten hsize hseq hp]
  have h := drain_list (by omega) hentry (show _ < fuel by omega)
  rw [hlen] at h
  exact h

/-- The copy holds the records of its range. -/
theorem bufferPairs_eq (first n : Nat) (hn : 0 < n) (hrange : first + n ≤ pairs.length) :
    bufferPairs pool e first n = some ((pairs.drop first).take n) := by
  have hget : ∀ i < n, pairs[first + i]? = some (pairs[first + i]?.getD (pairs[first])) := by
    intro i hi
    rw [getElem?_eq_getElem (by omega), Option.getD_some]
  obtain ⟨a, ha, -, haoffset, -⟩ := hlaid.getElem? (hget 0 hn)
  obtain ⟨z, hz, -, hzoffset, hzsize⟩ := hlaid.getElem? (hget (n - 1) (by omega))
  rw [Nat.add_zero] at ha haoffset
  rw [← Nat.add_sub_assoc hn] at hz hzoffset hzsize
  -- the copied range ends where the last record does
  have hend : z.offset + z.size = totalSize (pairs.take (first + n)) := by
    have h := totalSize_take_succ (hget (n - 1) (by omega))
    rw [← Nat.add_sub_assoc hn, Nat.sub_add_cancel (by omega)] at h
    rw [hzoffset, hzsize, h]
  rw [bufferPairs, if_neg (by omega), ha, hz]
  simp only
  rw [Option.some.injEq]
  refine Eq.trans ?_ (filterMap_range_getElem? ((pairs.drop first).take n))
  rw [length_range hrange]
  refine filterMap_congr ?_
  intro i hi
  rw [mem_range] at hi
  have hp : pairs[first + i]? = some pairs[first + i] := getElem?_eq_getElem (by omega)
  obtain ⟨m, hm, -, hoffset, -⟩ := hlaid.getElem? hp
  have hlow := totalSize_take_le pairs (show first ≤ first + i by omega)
  have hhigh := totalSize_take_le pairs (show first + i + 1 ≤ first + n by omega)
  have hlast := totalSize_take_le pairs (show first ≤ first + n - 1 by omega)
  rw [totalSize_take_succ hp] at hhigh
  have hle := record_bounds hp
  have hstored := hwritten.record hp
  rw [getElem?_range hi, hp, hm, Option.map_some, Option.some.injEq, hoffset, haoffset]
  refine decodeRecord_of_stored (Stored.buffer ?_ ?_) (hseq _ (getElem_mem _)) (by omega)
  · rw [Nat.add_assoc, Nat.add_sub_cancel' hlow]
    exact hstored
  · rw [length_record]
    omega

omit [UserKeyCodec K] hwritten hlaid hsize hseq in
theorem bufferRead_eq (hnum : pairs.length < 2 ^ 31) (first n fuel : Nat)
    (hrange : first + n ≤ pairs.length) (hfuel : n < fuel) :
    bufferRead ((pairs.drop first).take n) fuel = ((pairs.drop first).take n).map some := by
  have hlen := length_range hrange
  refine drain_list (by omega) ?_ (by omega)
  intro i _
  rw [Int.toNat_natCast]

theorem readsBack (hnum : pairs.length < 2 ^ 31) : ReadsBack pool e pairs where
  getValue := getValueInFile_eq hwritten hlaid hsize hseq
  level0 := level0Read_eq hwritten hlaid hsize hseq hnum
  buffer first n fuel hn hrange hfuel :=
    ⟨bufferPairs_eq hwritten hlaid hsize hseq first n hn hrange,
      bufferRead_eq hnum first n fuel hrange hfuel⟩

end Read

section Pointers

variable [LinearOrder K]

/-- A pointer is the one the key came with, or the index of an old key. -/
theorem linkKeys_next (new : List (KeysMetadata K)) :
    ∀ (old : List (KeysMetadata K)) (i : Nat), (∀ m ∈ new, m.next = -1) →
      ∀ m ∈ linkKeys new old i, m.next = -1 ∨ ∃ j : Nat, m.next = j ∧ j < i + old.length := by
  induction new with
  | nil => intro old i _ m hm; exact nomatch hm
  | cons n ns ih =>
  intro old i hnew m hm
  obtain ⟨skipped, hsplit, hidx, -, -⟩ := skipOlder_spec n.key old i
  rw [linkKeys] at hm
  cases hsk : skipOlder n.key old i with
  | mk rest j =>
  rw [hsk] at hm hsplit hidx
  cases rest with
  | nil => exact .inl (hnew m hm)
  | cons o os =>
  have hlen : j + (o :: os).length = i + old.length := by
    rw [show j = i + skipped.length from hidx, hsplit, length_append]
    exact Nat.add_assoc _ _ _
  rcases mem_cons.mp hm with rfl | hm
  · refine .inr ⟨j, rfl, ?_⟩
    rw [← hlen, length_cons]
    omega
  · rw [← hlen]
    exact ih (o :: os) j (fun x hx => hnew x (.tail n hx)) m hm

theorem updateKeyNext_next (dir : SstableMetadata K) (file : FileEntry K)
    (hnew : ∀ m ∈ file.keysMeta, m.next = -1) :
    ∀ m ∈ (dir.updateKeyNext file).keysMeta, m.next = -1 ∨
      ∃ nf, nextFile file.filenum dir.files = some nf ∧ ∃ j : Nat, m.next = j ∧ j < nf.keysNum := by
  intro m hm
  rw [SstableMetadata.updateKeyNext] at hm
  split_ifs at hm with hempty
  · exact .inl (hnew m hm)
  cases hnext : nextFile file.filenum dir.files with
  | none =>
    rw [hnext] at hm
    exact .inl (hnew m hm)
  | some nf =>
  rw [hnext] at hm
  refine (linkKeys_next file.keysMeta nf.keysMeta 0 hnew m hm).imp_right ?_
  rintro ⟨j, hj, hlt⟩
  rw [Nat.zero_add] at hlt
  exact ⟨nf, rfl, j, hj, hlt⟩

end Pointers

/-! ## The round trip -/

variable {pool : Pool}

section RoundTrip

variable [LinearOrder K] [UserKeyCodec K]

/-- The builder after all pairs were added. -/
def builder (maxSize : Nat) (pairs : List (Pair K)) : Builder K :=
  Builder.addAll { maxSize := maxSize } pairs

/-- The table it finishes. -/
def builtTable (dir : SstableMetadata K) (file : FileEntry K) (maxSize : Nat)
    (pairs : List (Pair K)) : FileEntry K :=
  (builder maxSize pairs).finishFile dir file

omit [LinearOrder K] in
theorem builder_eq {maxSize : Nat} (hfit : tableSize pairs ≤ maxSize) :
    builder maxSize pairs =
      { maxSize := maxSize, buf := pairs.flatMap record, keys := layout 0 pairs } := by
  have htotal : 0 + totalSize pairs ≤ maxSize := by
    rw [tableSize] at hfit
    omega
  rw [builder, addAll_eq]
  show ({ maxSize := maxSize, buf := [] ++ (fitting maxSize 0 pairs).flatMap record
          keys := [] ++ layout 0 (fitting maxSize 0 pairs) } : Builder K) = _
  rw [(fitting_eq_self_iff maxSize pairs 0 (Nat.zero_le _)).mpr htotal, nil_append, nil_append]

variable (dir : SstableMetadata K) (file : FileEntry K) {maxSize : Nat} {pairs : List (Pair K)}

theorem builtTable_spec (hfit : tableSize pairs ≤ maxSize) :
    (builtTable dir file maxSize pairs).filenum = file.filenum ∧
    (builtTable dir file maxSize pairs).sstableIndex = file.sstableIndex ∧
    (builtTable dir file maxSize pairs).keysMeta.map KeysMetadata.core
      = (layout 0 pairs).map KeysMetadata.core := by
  have h := updateKeyNext_spec dir { file with keysMeta := (builder maxSize pairs).keys }
  rw [builder_eq hfit] at h
  rw [builtTable, Builder.finishFile, builder_eq hfit]
  exact h

theorem builtTable_laid (hfit : tableSize pairs ≤ maxSize) :
    Laid (builtTable dir file maxSize pairs) pairs :=
  (builtTable_spec dir file hfit).2.2

section

variable (hslot : maxSize ≤ 2 ^ 36 + 2 ^ 23) (hfit : tableSize pairs ≤ maxSize)
include hslot hfit

omit [LinearOrder K] in
/-- What a slot of at most 64 GiB and 8 MiB allows. -/
theorem totalSize_lt :
    totalSize pairs < 2 ^ 64 := by
  rw [tableSize] at hfit
  omega

omit [LinearOrder K] in
theorem length_lt :
    pairs.length < 2 ^ 31 := by
  have hnum := length_le_tableSize pairs
  omega

end

/-- The fields of built metadata fit their widths.  A pointer is `-1` or an index
    into the next-older table, whose keys are counted by an `int32_t`. -/
theorem builtTable_fits (hsize : totalSize pairs < 2 ^ 64) (hfit : tableSize pairs ≤ maxSize)
    (hseq : ∀ p ∈ pairs, p.1.sequence ≤ maxSequenceNumber)
    (hold : ∀ nf, nextFile file.filenum dir.files = some nf → nf.keysNum < 2 ^ 31) :
    ∀ m ∈ (builtTable dir file maxSize pairs).keysMeta, MetaFits m := by
  intro m hm
  obtain ⟨i, hget⟩ := mem_iff_getElem?.mp hm
  have hi := (List.getElem?_eq_some_iff.mp hget).1
  rw [(builtTable_laid dir file hfit).keysNum] at hi
  have hp : pairs[i]? = some pairs[i] := getElem?_eq_getElem hi
  obtain ⟨m', hm', hkey, hoffset, hrecord⟩ := (builtTable_laid dir file hfit).getElem? hp
  rw [hget, Option.some.injEq] at hm'
  subst hm'
  have hle := record_bounds hp
  have hkeySize : (encodeKey m.key).length ≤ recordSize pairs[i] := by
    rw [hkey, recordSize]
    omega
  have hnext : m.next = -1 ∨ ∃ nf, nextFile file.filenum dir.files = some nf ∧
      ∃ j : Nat, m.next = j ∧ j < nf.keysNum := by
    rw [builtTable, Builder.finishFile, builder_eq hfit] at hm
    exact updateKeyNext_next dir { file with keysMeta := layout 0 pairs }
      (layout_next pairs 0) m hm
  have hrange : -1 ≤ m.next ∧ m.next < 2 ^ 31 := by
    rcases hnext with h | ⟨nf, hnf, j, hj, hjlt⟩
    · omega
    · have := hold nf hnf
      omega
  refine ⟨?_, by omega, hrange.1, hrange.2, by omega, by omega⟩
  rw [hkey]
  exact hseq _ (getElem_mem hi)

theorem finish_eq (pool : Pool) (hfit : tableSize pairs ≤ pool.eachSize) :
    (builder pool.eachSize pairs).finish dir pool file =
      (dir.setFile (builtTable dir file pool.eachSize pairs),
        pool.store (builtTable dir file pool.eachSize pairs).sstableIndex
          (pairs.flatMap record
            ++ encodeMetas (builtTable dir file pool.eachSize pairs).keysMeta),
        some (metaSize pairs)) := by
  have hlen := length_encodeMetas _ pairs (builtTable_laid dir file hfit).keys
  have hbuf : (builder pool.eachSize pairs).buf = pairs.flatMap record := by
    rw [builder_eq hfit]
  have hmax : (builder pool.eachSize pairs).maxSize = pool.eachSize := by
    rw [builder_eq hfit]
  rw [Builder.finish, show (builder pool.eachSize pairs).finishFile dir file
    = builtTable dir file pool.eachSize pairs from rfl, Builder.offset, hbuf, hmax, hlen,
    length_flatMap_record, if_neg (by rw [tableSize] at hfit; omega)]

theorem written_finish (pool : Pool) (hfit : tableSize pairs ≤ pool.eachSize) :
    Written ((builder pool.eachSize pairs).finish dir pool file).2.1
      (builtTable dir file pool.eachSize pairs) pairs := by
  rw [finish_eq dir file pool hfit]
  have h : Stored (pool.store (builtTable dir file pool.eachSize pairs).sstableIndex
      (pairs.flatMap record ++ encodeMetas (builtTable dir file pool.eachSize pairs).keysMeta)).raw
      (pool.getIndexPtr (builtTable dir file pool.eachSize pairs).sstableIndex)
      (pairs.flatMap record
        ++ encodeMetas (builtTable dir file pool.eachSize pairs).keysMeta) :=
    readBytes_writeBytes _ _ _
  obtain ⟨h1, h2⟩ := h.append
  rw [length_flatMap_record] at h2
  exact ⟨h1, h2⟩

/-! ## Recovery of a built table -/

/-- What the version records of a table. -/
structure Describes (f : FileMetaData K) (e : FileEntry K) (rawFileSize nvmMetaSize : Nat) :
    Prop where
  number : f.number = e.filenum
  nvmSstableIndex : f.nvmSstableIndex = e.sstableIndex
  keysNum : f.keysNum = e.keysNum
  keyPointFilenum : f.keyPointFilenum = e.keyPointFilenum
  rawFileSize : f.rawFileSize = rawFileSize
  nvmMetaSize : f.nvmMetaSize = nvmMetaSize

section

omit [LinearOrder K]

/-- The key metadata in the slot is read back through the buffer. -/
theorem recoverKeys_eq {ms : List (KeysMetadata K)} (hstored : Stored pool.raw (pool.getIndexPtr
      f.nvmSstableIndex + f.rawFileSize) (encodeMetas ms)) (hfits : ∀ m ∈ ms, MetaFits m)
    (hnum : f.keysNum = ms.length) (hsize : f.nvmMetaSize = (encodeMetas ms).length) :
    recoverKeys pool f = ms := by
  rw [recoverKeys, hsize, hnum]
  exact decodeMetas_of_stored ms 0 (Stored.buffer hstored (by omega)) hfits

/-- A written table is recovered as it is. -/
theorem recoveredTable_eq (hwritten : Written pool e pairs) (hfits : ∀ m ∈ e.keysMeta, MetaFits m)
    (hlen : (encodeMetas e.keysMeta).length = metaSize pairs)
    (hdesc : Describes f e (totalSize pairs) (metaSize pairs)) : recoveredTable pool f = e := by
  have hmetas := hwritten.metas
  rw [← hdesc.nvmSstableIndex, ← hdesc.rawFileSize] at hmetas
  have hkeys := recoverKeys_eq hmetas hfits hdesc.keysNum (hdesc.nvmMetaSize.trans hlen.symm)
  rw [recoveredTable, hkeys, hdesc.number, hdesc.nvmSstableIndex, hdesc.keyPointFilenum]

theorem Written.of_pool {pool' : Pool} (h : Written pool e pairs) (hraw : pool'.raw = pool.raw)
    (hsize : pool'.eachSize = pool.eachSize) : Written pool' e pairs := by
  have hptr : pool'.getIndexPtr e.sstableIndex = pool.getIndexPtr e.sstableIndex := by
    rw [Pool.getIndexPtr, Pool.getIndexPtr, hsize]
  exact ⟨by rw [hraw, hptr]; exact h.records, by rw [hraw, hptr]; exact h.metas⟩

/-- A version that lists a written table: recovery finds its entry and leaves its
    bytes. -/
theorem recoverTables_written [DecidableEq K] {l0 : List (FileMetaData K)}
    (hwritten : Written pool e pairs) (hlaid : Laid e pairs) (hfits : ∀ m ∈ e.keysMeta, MetaFits m)
    (hdesc : Describes f e (totalSize pairs) (metaSize pairs)) (hf : f ∈ l0)
    (hunique : ∀ g ∈ l0, g.number = f.number → g = f) :
    (recoverTables (reopen pool) false l0).dir.findFile f.number = some e ∧
    Written (recoverTables (reopen pool) false l0).pool e pairs := by
  rw [recoverTables, if_neg (ne_nil_of_mem hf), if_neg Bool.false_ne_true]
  obtain ⟨hraw, hsize⟩ := recoverTables_frame (reopen pool) l0
  refine ⟨?_, hwritten.of_pool hraw hsize⟩
  rw [findFile_recoverTables pool l0 hunique, if_pos hf,
    recoveredTable_eq hwritten hfits (length_encodeMetas _ pairs hlaid.keys) hdesc]

end

/-- **RECOVERY UNDOES BUILDING**: `Finish` accepts whatever fits the slot, and from
    any version that lists the table recovery rebuilds its entry and every reader
    yields the pairs.  A slot is the write buffer, which is clipped to 64 GiB when
    the options are sanitized, and 8 MiB. -/
theorem recover_undoes_build (pool : Pool) (pairs : List (Pair K))
    (hslot : pool.eachSize ≤ 2 ^ 36 + 2 ^ 23) (hfit : tableSize pairs ≤ pool.eachSize)
    (hseq : ∀ p ∈ pairs, p.1.sequence ≤ maxSequenceNumber)
    (hold : ∀ nf, nextFile file.filenum dir.files = some nf → nf.keysNum < 2 ^ 31) :
    let built := builtTable dir file pool.eachSize pairs
    let finished := (builder pool.eachSize pairs).finish dir pool file
    finished.1 = dir.setFile built ∧ finished.2.2 = some (metaSize pairs) ∧
    built.keysMeta.map KeysMetadata.key = pairs.map Prod.fst ∧
    ∀ (l0 : List (FileMetaData K)) (f : FileMetaData K), f ∈ l0 →
      (∀ g ∈ l0, g.number = f.number → g = f) →
      Describes f built (totalSize pairs) (metaSize pairs) →
      (recoverTables (reopen finished.2.1) false l0).dir.findFile f.number = some built ∧
      ReadsBack (recoverTables (reopen finished.2.1) false l0).pool built pairs := by
  intro built finished
  have heq := finish_eq dir file pool hfit
  refine ⟨congrArg (fun r => r.1) heq, congrArg (fun r => r.2.2) heq,
    (builtTable_laid dir file hfit).keys, ?_⟩
  intro l0 f hf hunique hdesc
  have hlaid := builtTable_laid dir file hfit
  obtain ⟨hfound, hwritten⟩ := recoverTables_written (written_finish dir file pool hfit) hlaid
    (builtTable_fits dir file (totalSize_lt hslot hfit) hfit hseq hold) hdesc hf hunique
  exact ⟨hfound, readsBack hwritten hlaid (totalSize_lt hslot hfit) hseq (length_lt hslot hfit)⟩

end RoundTrip

/-- A pool of two slots of 200 bytes, and the file of a table of two pairs in its
    first slot. -/
def shortPool : Pool :=
  { raw := fun _ => 0, bitmap := [true, false], eachSize := 200, useNum := 1 }

def shortFile : FileMetaData (Fin 256) :=
  { number := 7, fileSize := 54, smallest := ⟨5, 1, .value⟩, largest := ⟨6, 2, .value⟩
    smallestSeqno := 1, largestSeqno := 2, isNvmLevel0 := true, nvmSstableIndex := 0
    keysNum := 2, rawFileSize := totalSize (twoPairs []).pairs
    nvmMetaSize := metaSize (twoPairs []).pairs }

theorem recover_undoes_build_shortFile :
    tableSize (twoPairs []).pairs ≤ shortPool.eachSize ∧
    (recoverTables (reopen ((builder shortPool.eachSize (twoPairs []).pairs).finish {} shortPool
      { filenum := 7, sstableIndex := 0 }).2.1) false [shortFile]).dir.findFile 7
      = some (builtTable {} { filenum := 7, sstableIndex := 0 } shortPool.eachSize
          (twoPairs []).pairs) := by
  have hfit : tableSize (twoPairs []).pairs ≤ shortPool.eachSize := by decide
  refine ⟨hfit, ?_⟩
  have hdesc : Describes shortFile
      (builtTable {} { filenum := 7, sstableIndex := 0 } shortPool.eachSize (twoPairs []).pairs)
      (totalSize (twoPairs []).pairs) (metaSize (twoPairs []).pairs) :=
    ⟨rfl, rfl, rfl, rfl, rfl, rfl⟩
  obtain ⟨-, -, -, hrecover⟩ := recover_undoes_build {} { filenum := 7, sstableIndex := 0 }
    shortPool (twoPairs []).pairs (by decide) hfit (by decide) nofun
  exact (hrecover [shortFile] shortFile (mem_singleton.mpr rfl)
    (fun g hg _ => mem_singleton.mp hg) hdesc).1

end NvmRoundTrip
