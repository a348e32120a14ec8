import MatrixKV.L0TableBuilderProofs
import MatrixKV.NvmGetProofs

/-! # Flushing a memtable to NVM — NvmFlushJob::BuildInsertNvm

    A flush reserves a slot and a directory entry, feeds what its compaction
    iterator delivers to the builder, and finishes the table.

    * `buildInsertNvm` follows the source through all its exits.  The result is
      `none` where the source dereferences a null `FileEntry`.
    * A flush that reports success has stored every pair exactly when the pairs
      fit into a slot: `buildInsertNvm_stores_all_iff`.
    * A flush that writes nothing or fails keeps its slot and its directory
      entry: `buildInsertNvm_unchanged_iff`, and after enough such flushes no
      slot is left (`freeSlots_flushAll`). -/

namespace NvmFlush

open List DbFormat SstableMeta FixedCoding PersistentSstable L0TableBuilder

variable {K : Type}

/-- The state of the NVM module: the table directory and the slots. -/
structure NvmCf (K : Type) where
  dir : SstableMetadata K
  pool : Pool

/-- `AddL0TableRoom`: a slot and a directory entry for it, or nothing when no
    slot is free. -/
def addL0TableRoom (cf : NvmCf K) (filenum : Nat) : NvmCf K × Option (FileEntry K) :=
  match cf.pool.allocSstable with
  | (none, _) => (cf, none)
  | (some index, pool) =>
    ({ dir := cf.dir.addFile filenum index, pool := pool },
      some { filenum := filenum, sstableIndex := index })

/-- `DeleteL0file`: the slot of a known table is given back and its entry erased. -/
def deleteL0file (cf : NvmCf K) (filenumber : Nat) : NvmCf K :=
  match cf.dir.findFile filenumber with
  | none => cf
  | some e =>
    { dir := cf.dir.deteleFile filenumber, pool := cf.pool.deleteSstable e.sstableIndex }

/-! ## The flush -/

/-- A range tombstone as the flush sees it: serialized bounds and sequence. -/
structure RangeTombstone (K : Type) where
  start : InternalKey K
  fin : InternalKey K
  seq : Nat
  deriving DecidableEq, Repr

/-- What a flush works on: whether the input iterator has an entry at all, the
    pairs its compaction iterator delivers, the range tombstones, and the status
    the input iterator ends with. -/
structure FlushInput (K : Type) where
  number : Nat
  valid : Bool
  pairs : List (Pair K)
  tombstones : List (RangeTombstone K)
  iterStatus : Status
  pairs_of_invalid : valid = false → pairs = []

/-- The key range and sequence range of the file under construction. -/
structure Boundaries (K : Type) where
  smallest : Option (InternalKey K) := none
  largest : Option (InternalKey K) := none
  smallestSeqno : Nat := maxSequenceNumber
  largestSeqno : Nat := 0
  deriving DecidableEq, Repr

/-- `FileMetaData::UpdateBoundaries`. -/
def Boundaries.update (b : Boundaries K) (key : InternalKey K) : Boundaries K :=
  { smallest := some (b.smallest.getD key)
    largest := some key
    smallestSeqno := min b.smallestSeqno key.sequence
    largestSeqno := max b.largestSeqno key.sequence }

/-- `FileMetaData::UpdateBoundariesForRange`. -/
def Boundaries.updateForRange [LinearOrder K] (b : Boundaries K) (t : RangeTombstone K) :
    Boundaries K :=
  { smallest :=
      match b.smallest with
      | none => some t.start
      | some s => if icmp t.start s = .lt then some t.start else some s
    largest :=
      match b.largest with
      | none => some t.fin
      | some l => if icmp l t.fin = .lt then some t.fin else some l
    smallestSeqno := min b.smallestSeqno t.seq
    largestSeqno := max b.largestSeqno t.seq }

/-- The fields of `meta_` that a flush sets. -/
structure FlushMeta (K : Type) where
  bounds : Boundaries K := {}
  fileSize : Nat := 0
  isNvmLevel0 : Bool := false
  firstKeyIndex : Nat := 0
  nvmSstableIndex : Nat := 0
  keysNum : Nat := 0
  keyPointFilenum : Nat := 0
  rawFileSize : Nat := 0
  nvmMetaSize : Nat := 0
  deriving DecidableEq, Repr

structure FlushResult (K : Type) where
  cf : NvmCf K
  fileMeta : FlushMeta K
  status : Status

/-- The status check on the input iterator at the end. -/
def withIterStatus (s iterStatus : Status) : Status :=
  if iterStatus ≠ .ok then iterStatus else s

variable [LinearOrder K] [UserKeyCodec K]

/-- The builder after the loop over the compaction iterator. -/
def flushBuilder (cf : NvmCf K) (inp : FlushInput K) : Builder K :=
  Builder.addAll { maxSize := cf.pool.eachSize } inp.pairs

def flushBounds (inp : FlushInput K) : Boundaries K :=
  inp.tombstones.foldl Boundaries.updateForRange
    (inp.pairs.foldl (fun b p => b.update p.1) {})

def buildInsertNvm (cf : NvmCf K) (inp : FlushInput K) : Option (FlushResult K) :=
  if inp.valid = true ∨ inp.tombstones ≠ [] then
    let (cf', room) := addL0TableRoom cf inp.number
    let b := flushBuilder cf inp
    if inp.pairs = [] then
      -- no entry: the builder is abandoned, slot and entry stay
      some ⟨cf', { bounds := flushBounds inp }, withIterStatus .ok inp.iterStatus⟩
    else
      match room with
      | none => none
      | some file =>
        match b.finish cf'.dir cf'.pool file with
        | (dir, pool, none) =>
          some ⟨⟨dir, pool⟩, { bounds := flushBounds inp }, withIterStatus .ioError inp.iterStatus⟩
        | (dir, pool, some metaSize) =>
          let f := b.finishFile cf'.dir file
          some ⟨⟨dir, pool⟩,
            { bounds := flushBounds inp
              fileSize := b.offset
              isNvmLevel0 := true
              firstKeyIndex := 0
              nvmSstableIndex := f.sstableIndex
              keysNum := f.keysNum
              keyPointFilenum := f.keyPointFilenum
              rawFileSize := b.offset
              nvmMetaSize := metaSize }, withIterStatus .ok inp.iterStatus⟩
  else some ⟨cf, {}, withIterStatus .ok inp.iterStatus⟩

/-- `BuildTableInsertNVM`, the flush of recovery: the same body, which refuses to
    run without an NVM module. -/
def buildTableInsertNVM (cf : Option (NvmCf K)) (inp : FlushInput K) :
    Option (Option (NvmCf K) × FlushMeta K × Status) :=
  match cf with
  | none => some (none, {}, .invalidArgument)
  | some cf => (buildInsertNvm cf inp).map (fun r => (some r.cf, r.fileMeta, r.status))

/-! ## What one flush can do -/

/-- The state after the room was reserved in slot `index`. -/
def reserved (cf : NvmCf K) (filenum index : Nat) : NvmCf K :=
  { dir := cf.dir.addFile filenum index
    pool := { cf.pool with
      bitmap := cf.pool.bitmap.set index true
      useNum := (cf.pool.useNum + 1) % 2 ^ 64 } }

omit [LinearOrder K] [UserKeyCodec K] in
theorem addL0TableRoom_spec (cf : NvmCf K) (filenum : Nat) :
    (addL0TableRoom cf filenum = (cf, none) ∧ ∀ i < cf.pool.num, cf.pool.Used i) ∨
    ∃ index, cf.pool.bitmap[index]? = some false ∧
      addL0TableRoom cf filenum
        = (reserved cf filenum index, some { filenum := filenum, sstableIndex := index }) := by
  rcases allocSstable_spec cf.pool with ⟨halloc, hall⟩ | ⟨index, hfree, -, halloc⟩
  · exact .inl ⟨by rw [addL0TableRoom, halloc], hall⟩
  · exact .inr ⟨index, hfree, by rw [addL0TableRoom, halloc]; rfl⟩

/-- The finished table of a flush that got slot `index`. -/
def flushFile (cf : NvmCf K) (inp : FlushInput K) (index : Nat) : FileEntry K :=
  (flushBuilder cf inp).finishFile (reserved cf inp.number index).dir
    { filenum := inp.number, sstableIndex := index }

/-- The exits of a flush. -/
inductive FlushCases (cf : NvmCf K) (inp : FlushInput K) (res : FlushResult K) : Prop
  /-- no entry and no tombstone: nothing was asked for -/
  | idle (hinp : inp.valid = false ∧ inp.tombstones = [])
      (hres : res = ⟨cf, {}, withIterStatus .ok inp.iterStatus⟩)
  /-- no entry and no free slot: nothing was reserved -/
  | noRoom (hask : inp.valid = true ∨ inp.tombstones ≠ []) (hpairs : inp.pairs = [])
      (hfull : ∀ i < cf.pool.num, cf.pool.Used i)
      (hres : res = ⟨cf, { bounds := flushBounds inp }, withIterStatus .ok inp.iterStatus⟩)
  /-- no entry: the reserved slot is abandoned -/
  | abandoned (index : Nat) (hask : inp.valid = true ∨ inp.tombstones ≠ [])
      (hpairs : inp.pairs = []) (hfree : cf.pool.bitmap[index]? = some false)
      (hres : res = ⟨reserved cf inp.number index, { bounds := flushBounds inp },
        withIterStatus .ok inp.iterStatus⟩)
  /-- the key metadata does not fit behind the records -/
  | metaTooLarge (index : Nat) (hask : inp.valid = true ∨ inp.tombstones ≠ [])
      (hpairs : inp.pairs ≠ []) (hfree : cf.pool.bitmap[index]? = some false)
      (hres : res = ⟨{ reserved cf inp.number index with
          dir := (reserved cf inp.number index).dir.setFile (flushFile cf inp index) },
        { bounds := flushBounds inp }, withIterStatus .ioError inp.iterStatus⟩)
  /-- the table was written -/
  | built (index : Nat) (hask : inp.valid = true ∨ inp.tombstones ≠ [])
      (hpairs : inp.pairs ≠ []) (hfree : cf.pool.bitmap[index]? = some false)
      (hfit : (flushBuilder cf inp).offset + (encodeMetas (flushFile cf inp index).keysMeta).length
        ≤ (flushBuilder cf inp).maxSize)
      (hcf : res.cf =
        { dir := (reserved cf inp.number index).dir.setFile (flushFile cf inp index)
          pool := (reserved cf inp.number index).pool.store (flushFile cf inp index).sstableIndex
            ((flushBuilder cf inp).buf ++ encodeMetas (flushFile cf inp index).keysMeta) })
      (hmeta : res.fileMeta =
        { bounds := flushBounds inp
          fileSize := (flushBuilder cf inp).offset
          isNvmLevel0 := true
          firstKeyIndex := 0
          nvmSstableIndex := (flushFile cf inp index).sstableIndex
          keysNum := (flushFile cf inp index).keysNum
          keyPointFilenum := (flushFile cf inp index).keyPointFilenum
          rawFileSize := (flushBuilder cf inp).offset
          nvmMetaSize := (encodeMetas (flushFile cf inp index).keysMeta).length })
      (hstatus : res.status = withIterStatus .ok inp.iterStatus)

variable {cf : NvmCf K}

/-- **ONE FLUSH**: every flush that returns ends in one of its exits. -/
theorem buildInsertNvm_cases {inp : FlushInput K} {res : FlushResult K}
    (h : buildInsertNvm cf inp = some res) : FlushCases cf inp res := by
  rw [buildInsertNvm] at h
  by_cases hask : inp.valid = true ∨ inp.tombstones ≠ []
  · rw [if_pos hask] at h
    rcases addL0TableRoom_spec cf inp.number with ⟨hroom, hfull⟩ | ⟨index, hfree, hroom⟩
    · simp only [hroom] at h
      by_cases hpairs : inp.pairs = []
      · rw [if_pos hpairs, Option.some.injEq] at h
        exact .noRoom hask hpairs hfull h.symm
      · rw [if_neg hpairs] at h
        exact nomatch h
    simp only [hroom] at h
    by_cases hpairs : inp.pairs = []
    · rw [if_pos hpairs, Option.some.injEq] at h
      exact .abandoned index hask hpairs hfree h.symm
    rw [if_neg hpairs] at h
    simp only [Builder.finish] at h
    by_cases hfit : (flushBuilder cf inp).offset
        + (encodeMetas (flushFile cf inp index).keysMeta).length
        > (flushBuilder cf inp).maxSize
    · rw [flushFile] at hfit
      simp only [if_pos hfit, Option.some.injEq] at h
      exact .metaTooLarge index hask hpairs hfree h.symm
    · have hfit' := hfit
      rw [flushFile] at hfit
      simp only [if_neg hfit, Option.some.injEq] at h
      subst h
      exact .built index hask hpairs hfree (by omega) rfl rfl rfl
  · rw [if_neg hask, Option.some.injEq] at h
    refine .idle ?_ h.symm
    rw [not_or, not_not, Bool.not_eq_true] at hask
    exact hask

/-- With room and enough space for the metadata a flush writes its table. -/
theorem buildInsertNvm_of_fits (cf : NvmCf K) (inp : FlushInput K) (index : Nat)
    (hask : inp.valid = true ∨ inp.tombstones ≠ []) (hpairs : inp.pairs ≠ [])
    (hroom : addL0TableRoom cf inp.number = (reserved cf inp.number index,
      some { filenum := inp.number, sstableIndex := index }))
    (hfit : (flushBuilder cf inp).offset + (encodeMetas (flushFile cf inp index).keysMeta).length
      ≤ (flushBuilder cf inp).maxSize) :
    ∃ res, buildInsertNvm cf inp = some res ∧
      res.cf =
        { dir := (reserved cf inp.number index).dir.setFile (flushFile cf inp index)
          pool := (reserved cf inp.number index).pool.store (flushFile cf inp index).sstableIndex
            ((flushBuilder cf inp).buf ++ encodeMetas (flushFile cf inp index).keysMeta) } ∧
      res.fileMeta.fileSize = (flushBuilder cf inp).offset ∧
      res.status = withIterStatus .ok inp.iterStatus := by
  have hno : ¬ (flushBuilder cf inp).offset
      + (encodeMetas (flushFile cf inp index).keysMeta).length
      > (flushBuilder cf inp).maxSize := by omega
  rw [flushFile] at hno
  simp only [buildInsertNvm, if_pos hask, hroom, if_neg hpairs, Builder.finish, if_neg hno]
  exact ⟨_, rfl, rfl, rfl, rfl⟩

/-! ## A failed flush keeps its room -/

/-- What the module remembers: the table entries, the bitmap and the counter. -/
def moduleState (cf : NvmCf K) : List (FileEntry K) × List Bool × Nat :=
  (cf.dir.files, cf.pool.bitmap, cf.pool.useNum)

section

omit [LinearOrder K] [UserKeyCodec K]

theorem map_filenum_replaceFile (file : FileEntry K) (es : List (FileEntry K)) :
    (replaceFile file es).map FileEntry.filenum = es.map FileEntry.filenum := by
  induction es with
  | nil => rfl
  | cons e es ih =>
  rw [replaceFile]
  split_ifs with h
  · rw [map_cons, map_cons, h]
  · rw [map_cons, map_cons, ih]

/-- A new entry in a free slot, under a new number. -/
theorem nodup_cons_entry {e : FileEntry K} (hnumbers : (cf.dir.files.map FileEntry.filenum).Nodup)
    (hslots : (cf.dir.files.map FileEntry.sstableIndex).Nodup)
    (hused : ∀ o ∈ cf.dir.files, cf.pool.Used o.sstableIndex)
    (hfree : cf.pool.bitmap[e.sstableIndex]? = some false)
    (hnumber : ∀ o ∈ cf.dir.files, o.filenum ≠ e.filenum) :
    ((e :: cf.dir.files).map FileEntry.filenum).Nodup ∧
    ((e :: cf.dir.files).map FileEntry.sstableIndex).Nodup := by
  refine ⟨nodup_cons.mpr ⟨?_, hnumbers⟩, nodup_cons.mpr ⟨?_, hslots⟩⟩
  · intro hmem
    obtain ⟨o, ho, heq⟩ := mem_map.mp hmem
    exact hnumber o ho heq
  · -- the bit of an owned slot is set, that of the new one was not
    intro hmem
    obtain ⟨o, ho, heq⟩ := mem_map.mp hmem
    exact not_used_of_free hfree (heq ▸ hused o ho)

/-- One more directory entry is a different state. -/
theorem moduleState_ne_of_length {cf' : NvmCf K}
    (h : cf'.dir.files.length = cf.dir.files.length + 1) : moduleState cf' ≠ moduleState cf := by
  intro heq
  have hfiles := congrArg Prod.fst heq
  simp only [moduleState] at hfiles
  rw [hfiles] at h
  omega

end

/-- A flush that returns leaves the module as it was exactly when it had nothing
    to do or found no free slot: every other exit keeps a new entry. -/
theorem unchanged_iff {inp : FlushInput K} {res : FlushResult K}
    (hrun : buildInsertNvm cf inp = some res) :
    moduleState res.cf = moduleState cf ↔
      (inp.valid = false ∧ inp.tombstones = []) ∨ ∀ i < cf.pool.num, cf.pool.Used i := by
  have hroom : ∀ index : Nat, cf.pool.bitmap[index]? = some false →
      (inp.valid = true ∨ inp.tombstones ≠ []) →
      ¬ ((inp.valid = false ∧ inp.tombstones = []) ∨ ∀ i < cf.pool.num, cf.pool.Used i) := by
    rintro index hfree hask (⟨hv, ht⟩ | hall)
    · rcases hask with h | h
      · rw [hv] at h
        exact nomatch h
      · exact h ht
    · have hlt := (List.getElem?_eq_some_iff.mp hfree).1
      exact not_used_of_free hfree (hall index hlt)
  -- with a free slot a new directory entry stays behind
  have hset : ∀ (cf' : NvmCf K) (file : FileEntry K) (index : Nat),
      cf'.dir = (reserved cf inp.number index).dir.setFile file →
      moduleState cf' ≠ moduleState cf := by
    intro cf' file index hdir
    refine moduleState_ne_of_length ?_
    rw [hdir]
    have hlen := congrArg List.length (map_filenum_replaceFile file
      (reserved cf inp.number index).dir.files)
    rw [length_map, length_map] at hlen
    exact hlen
  cases buildInsertNvm_cases hrun with
  | idle hinp hres => exact iff_of_true (by rw [hres]) (.inl hinp)
  | noRoom hask hpairs hfull hres => exact iff_of_true (by rw [hres]) (.inr hfull)
  | abandoned index hask hpairs hfree hres =>
    refine iff_of_false ?_ (hroom index hfree hask)
    rw [hres]
    exact moduleState_ne_of_length rfl
  | metaTooLarge index hask hpairs hfree hres =>
    refine iff_of_false (hset _ (flushFile cf inp index) index ?_) (hroom index hfree hask)
    rw [hres]
  | built index hask hpairs hfree hfit hcf hmeta hstatus =>
    refine iff_of_false (hset _ (flushFile cf inp index) index ?_) (hroom index hfree hask)
    rw [hcf]

/-- **A FLUSH THAT WRITES NOTHING OR FAILS** (and any other that returns), in
    normal operation or during recovery, leaves the module unchanged exactly when
    the memtable was empty or no slot was free. -/
theorem buildInsertNvm_unchanged_iff (cf : NvmCf K) (inp : FlushInput K) :
    (∀ res, buildInsertNvm cf inp = some res →
      (moduleState res.cf = moduleState cf ↔
        (inp.valid = false ∧ inp.tombstones = []) ∨ ∀ i < cf.pool.num, cf.pool.Used i)) ∧
    (∀ cf' fileMeta status,
      buildTableInsertNVM (some cf) inp = some (some cf', fileMeta, status) →
      (moduleState cf' = moduleState cf ↔
        (inp.valid = false ∧ inp.tombstones = []) ∨ ∀ i < cf.pool.num, cf.pool.Used i)) := by
  refine ⟨fun res hrun => unchanged_iff hrun, ?_⟩
  intro cf' fileMeta status hrun
  obtain ⟨res, hres, heq⟩ := Option.map_eq_some_iff.mp hrun
  simp only [Prod.mk.injEq, Option.some.injEq] at heq
  rw [← heq.1]
  exact unchanged_iff hres

/-! ## Flush after flush -/

def freeSlots (cf : NvmCf K) : Nat := cf.pool.bitmap.count false

/-- A flush that asks for room takes a free slot, whatever becomes of it. -/
theorem freeSlots_step {inp : FlushInput K} {res : FlushResult K}
    (hrun : buildInsertNvm cf inp = some res) (hask : inp.valid = true ∨ inp.tombstones ≠ []) :
    freeSlots res.cf = freeSlots cf - 1 := by
  have hset : ∀ index : Nat, cf.pool.bitmap[index]? = some false →
      (cf.pool.bitmap.set index true).count false = freeSlots cf - 1 := by
    intro index hfree
    obtain ⟨hlt, hget⟩ := List.getElem?_eq_some_iff.mp hfree
    rw [count_set hlt, hget]
    simp [freeSlots]
  cases buildInsertNvm_cases hrun with
  | idle hinp hres => simp [hinp] at hask
  | noRoom hask' hpairs hfull hres =>
    have hzero : freeSlots cf = 0 := by
      refine count_eq_zero.mpr ?_
      intro hmem
      obtain ⟨i, hi⟩ := mem_iff_getElem?.mp hmem
      exact not_used_of_free hi (hfull i (List.getElem?_eq_some_iff.mp hi).1)
    rw [hres, hzero]
  | abandoned index hask' hpairs hfree hres => rw [hres]; exact hset index hfree
  | metaTooLarge index hask' hpairs hfree hres => rw [hres]; exact hset index hfree
  | built index hask' hpairs hfree hfit hcf hmeta hstatus =>
    rw [freeSlots, hcf]
    exact hset index hfree

/-- Flushes one after the other, without any table being deleted. -/
def flushAll : NvmCf K → List (FlushInput K) → Option (NvmCf K)
  | cf, [] => some cf
  | cf, inp :: inps => (buildInsertNvm cf inp).bind (fun res => flushAll res.cf inps)

/-- **FAILED FLUSHES EXHAUST THE SLOTS**: each flush of a non-empty memtable costs
    a slot, even if all of them fail or write nothing. -/
theorem freeSlots_flushAll (inps : List (FlushInput K)) :
    ∀ {cf cf' : NvmCf K}, flushAll cf inps = some cf' →
      (∀ inp ∈ inps, inp.valid = true ∨ inp.tombstones ≠ []) →
      freeSlots cf' = freeSlots cf - inps.length := by
  induction inps with
  | nil =>
    intro cf cf' h _
    rw [flushAll, Option.some.injEq] at h
    rw [h]
    rfl
  | cons inp inps ih =>
  intro cf cf' h hask
  obtain ⟨res, hres, hrest⟩ := Option.bind_eq_some_iff.mp h
  rw [ih hrest (fun x hx => hask x (.tail inp hx)),
    freeSlots_step hres (hask inp (.head _)), length_cons]
  omega

/-! ## A flush that reports success -/

/-- The table of the flush holds every pair: as many keys, in order, and at each
    key's offset its record. -/
def StoresAll (inp : FlushInput K) (cf : NvmCf K) : Prop :=
  ∃ e, cf.dir.findFile inp.number = some e ∧ e.keysNum = inp.pairs.length ∧
    e.keysMeta.map KeysMetadata.key = inp.pairs.map Prod.fst ∧
    ∀ (i : Nat) (m : KeysMetadata K) (p : Pair K), e.keysMeta[i]? = some m →
      inp.pairs[i]? = some p →
      decodeRecord cf.pool.raw (cf.pool.getIndexPtr e.sstableIndex + m.offset) = p

/-- The pairs a flush keeps. -/
def kept (cf : NvmCf K) (inp : FlushInput K) : List (Pair K) :=
  fitting cf.pool.eachSize 0 inp.pairs

section Table

variable (cf) (inp : FlushInput K) (index : Nat)

omit [LinearOrder K] in
theorem flushBuilder_eq :
    flushBuilder cf inp =
      { maxSize := cf.pool.eachSize
        buf := (kept cf inp).flatMap record
        keys := layout 0 (kept cf inp) } := by
  rw [flushBuilder, addAll_eq]
  rfl

/-- The finished table lists the kept pairs, with pointers added. -/
theorem flushFile_spec :
    (flushFile cf inp index).filenum = inp.number ∧
    (flushFile cf inp index).sstableIndex = index ∧
    (flushFile cf inp index).keysMeta.map KeysMetadata.core
      = (layout 0 (kept cf inp)).map KeysMetadata.core := by
  have h := updateKeyNext_spec (reserved cf inp.number index).dir
    { filenum := inp.number, sstableIndex := index, keysMeta := (flushBuilder cf inp).keys }
  rw [flushBuilder_eq] at h
  rw [flushFile, Builder.finishFile, flushBuilder_eq]
  exact h

theorem flushFile_keys :
    (flushFile cf inp index).keysMeta.map KeysMetadata.key = (kept cf inp).map Prod.fst := by
  have h := congrArg (List.map Prod.fst) (flushFile_spec cf inp index).2.2
  rw [map_map, map_map] at h
  exact h.trans (layout_map_key _ 0)

theorem flushFile_keysNum :
    (flushFile cf inp index).keysNum = (kept cf inp).length := by
  have h := congrArg List.length (flushFile_keys cf inp index)
  simpa [FileEntry.keysNum] using h

/-- The finished table takes the place of its reserved entry. -/
theorem files_setFile_flushFile :
    ((reserved cf inp.number index).dir.setFile (flushFile cf inp index)).files
      = flushFile cf inp index :: cf.dir.files := by
  show replaceFile _ ({ filenum := inp.number, sstableIndex := index } :: cf.dir.files) = _
  rw [replaceFile, if_pos (flushFile_spec cf inp index).1.symm]

/-- The directory finds the finished table. -/
theorem findFile_flushFile :
    ((reserved cf inp.number index).dir.setFile (flushFile cf inp index)).findFile inp.number
      = some (flushFile cf inp index) := by
  rw [SstableMetadata.findFile, files_setFile_flushFile,
    find?_cons_of_pos (by simpa using (flushFile_spec cf inp index).1)]

/-- The slot of a written table holds its records at the offsets of its keys. -/
theorem stored_flushFile {i : Nat} {m : KeysMetadata K} {p : Pair K}
    (hm : (flushFile cf inp index).keysMeta[i]? = some m) (hp : (kept cf inp)[i]? = some p) :
    Stored ((reserved cf inp.number index).pool.store (flushFile cf inp index).sstableIndex
        ((flushBuilder cf inp).buf ++ encodeMetas (flushFile cf inp index).keysMeta)).raw
      (cf.pool.getIndexPtr (flushFile cf inp index).sstableIndex + m.offset) (record p) := by
  obtain ⟨hstored, -⟩ := Stored.append (readBytes_writeBytes cf.pool.raw
    (cf.pool.getIndexPtr (flushFile cf inp index).sstableIndex)
    ((flushBuilder cf inp).buf ++ encodeMetas (flushFile cf inp index).keysMeta))
  -- the metadata of the finished table has the offsets of the layout
  have hcore := congrArg (fun l => l[i]?) (flushFile_spec cf inp index).2.2
  simp only [getElem?_map, hm, Option.map_some] at hcore
  obtain ⟨m', hm', hcore'⟩ := Option.map_eq_some_iff.mp hcore.symm
  have hoff : m'.offset = m.offset := congrArg (fun c => c.2.1) hcore'
  rw [← hoff]
  refine stored_layout (kept cf inp) 0 ?_ i m' p hm' hp
  have hbuf : (flushBuilder cf inp).buf = (kept cf inp).flatMap record := by
    rw [flushBuilder_eq]
  rw [← hbuf]
  exact hstored

omit [LinearOrder K] in
/-- The kept pairs are all the pairs exactly when everything fits. -/
theorem kept_eq_iff :
    kept cf inp = inp.pairs ↔ totalSize inp.pairs ≤ cf.pool.eachSize := by
  have h := fitting_eq_self_iff cf.pool.eachSize inp.pairs 0 (Nat.zero_le _)
  rwa [Nat.zero_add] at h

/-- A written table holds every pair exactly when every pair was kept. -/
theorem storesAll_iff_kept (hslot : cf.pool.eachSize < 2 ^ 64)
    (hseq : ∀ p ∈ inp.pairs, p.1.sequence ≤ maxSequenceNumber) :
    StoresAll inp
      { dir := (reserved cf inp.number index).dir.setFile (flushFile cf inp index)
        pool := (reserved cf inp.number index).pool.store (flushFile cf inp index).sstableIndex
          ((flushBuilder cf inp).buf ++ encodeMetas (flushFile cf inp index).keysMeta) } ↔
      kept cf inp = inp.pairs := by
  constructor
  · rintro ⟨e, hfind, hnum, -, -⟩
    have he : flushFile cf inp index = e :=
      Option.some.inj ((findFile_flushFile cf inp index).symm.trans hfind)
    rw [← he, flushFile_keysNum] at hnum
    exact (fitting_sublist _ _ _).eq_of_length hnum
  intro hkept
  refine ⟨flushFile cf inp index, findFile_flushFile cf inp index, ?_, ?_, ?_⟩
  · rw [flushFile_keysNum, hkept]
  · rw [flushFile_keys, hkept]
  intro i m p hm hp
  have hpk : (kept cf inp)[i]? = some p := by rw [hkept]; exact hp
  have hmem := mem_of_getElem? hp
  refine decodeRecord_of_stored (stored_flushFile cf inp index hm hpk) (hseq p hmem) ?_
  -- a stored record is smaller than its slot
  have htotal := (kept_eq_iff cf inp).mp hkept
  have hle : recordSize p ≤ totalSize inp.pairs :=
    single_le_sum (fun _ _ => Nat.zero_le _) _ (mem_map_of_mem hmem)
  omega

end Table

/-- **A FLUSH THAT REPORTS SUCCESS** with a non-empty file has stored every pair
    exactly when all records together fit into one slot. -/
theorem buildInsertNvm_stores_all_iff (cf : NvmCf K) (inp : FlushInput K) (res : FlushResult K)
    (hrun : buildInsertNvm cf inp = some res)
    (hok : res.status = .ok ∧ res.fileMeta.fileSize ≠ 0) (hslot : cf.pool.eachSize < 2 ^ 64)
    (hseq : ∀ p ∈ inp.pairs, p.1.sequence ≤ maxSequenceNumber) :
    StoresAll inp res.cf ↔ totalSize inp.pairs ≤ cf.pool.eachSize := by
  obtain ⟨-, hsize⟩ := hok
  cases buildInsertNvm_cases hrun with
  | idle hinp hres => rw [hres] at hsize; exact absurd rfl hsize
  | noRoom hask hpairs hfull hres => rw [hres] at hsize; exact absurd rfl hsize
  | abandoned index hask hpairs hfree hres => rw [hres] at hsize; exact absurd rfl hsize
  | metaTooLarge index hask hpairs hfree hres => rw [hres] at hsize; exact absurd rfl hsize
  | built index hask hpairs hfree hfit hcf hmeta hstatus =>
    rw [hcf, storesAll_iff_kept cf inp index hslot hseq, kept_eq_iff]

/-! ## Runs

    `smallModule` has two slots of 100 bytes.  `nvmModule` has slots of the
    source's size for a write buffer of 64 MB. -/

def smallModule : NvmCf (Fin 256) :=
  { dir := {}
    pool := { raw := fun _ => 0, bitmap := [false, false], eachSize := 100, useNum := 0 } }

def nvmModule : NvmCf (Fin 256) :=
  { dir := {}
    pool := { raw := fun _ => 0, bitmap := [false, false]
              eachSize := 64 * 1024 * 1024 + 8 * 1024 * 1024, useNum := 0 } }

/-- A memtable of point entries only. -/
def FlushInput.ofPairs (number : Nat) (pairs : List (Pair K)) : FlushInput K :=
  { number := number, valid := true, pairs := pairs, tombstones := [], iterStatus := .ok
    pairs_of_invalid := fun h => Bool.noConfusion h }

def onePair : FlushInput (Fin 256) := .ofPairs 7 [(⟨5, 1, .value⟩, [42])]

/-- A memtable with a small pair and a pair with the value `v`. -/
def twoPairs (v : List UInt8) : FlushInput (Fin 256) :=
  .ofPairs 7 [(⟨5, 1, .value⟩, [42]), (⟨6, 2, .value⟩, v)]

def roomyModule : NvmCf (Fin 256) :=
  { smallModule with pool := { smallModule.pool with eachSize := 200 } }

theorem buildInsertNvm_stores_all_iff_twoPairs :
    ∃ res, buildInsertNvm roomyModule (twoPairs [43]) = some res ∧
      (StoresAll (twoPairs [43]) res.cf ↔ totalSize (twoPairs [43]).pairs ≤ 200) :=
  ⟨_, rfl, buildInsertNvm_stores_all_iff roomyModule (twoPairs [43]) _ rfl (by decide) (by decide)
    (by decide)⟩

/-- Two flushes under their own file numbers take two slots. -/
theorem freeSlots_flushAll_twoFiles :
    ∃ cf, flushAll smallModule [onePair, { onePair with number := 8 }] = some cf ∧
      freeSlots cf = freeSlots smallModule - 2 :=
  ⟨_, rfl, freeSlots_flushAll [onePair, { onePair with number := 8 }] rfl (by decide)⟩

/-- The memtable of a single `DeleteRange`: no point entry, one range tombstone. -/
def rangeOnly : FlushInput (Fin 256) :=
  { number := 7, valid := false, pairs := []
    tombstones := [{ start := ⟨1, 3, .rangeDeletion⟩, fin := ⟨9, maxSequenceNumber, .rangeDeletion⟩,
                     seq := 3 }]
    iterStatus := .ok, pairs_of_invalid := fun _ => rfl }

theorem buildInsertNvm_unchanged_iff_rangeOnly :
    ∃ res, buildInsertNvm smallModule rangeOnly = some res ∧
      (moduleState res.cf = moduleState smallModule ↔
        (rangeOnly.valid = false ∧ rangeOnly.tombstones = []) ∨
          ∀ i < smallModule.pool.num, smallModule.pool.Used i) :=
  ⟨_, rfl, (buildInsertNvm_unchanged_iff smallModule rangeOnly).1 _ rfl⟩

/-- Flushing it writes no entry, reports success, and keeps a slot and an entry. -/
theorem buildInsertNvm_leaks_room :
    ∃ res, buildInsertNvm smallModule rangeOnly = some res ∧ res.status = .ok ∧
      res.fileMeta.fileSize = 0 ∧ moduleState res.cf ≠ moduleState smallModule :=
  ⟨_, rfl, rfl, rfl, by decide⟩

theorem kept_twoPairs {v : List UInt8} (hv : nvmModule.pool.eachSize < v.length) :
    kept nvmModule (twoPairs v) = [(⟨5, 1, .value⟩, [42])] := by
  have hsmall : ¬ 0 + recordSize ((⟨5, 1, .value⟩, [42]) : Pair (Fin 256))
      > nvmModule.pool.eachSize := by decide
  have hlarge : 0 + recordSize ((⟨5, 1, .value⟩, [42]) : Pair (Fin 256)) +
      recordSize ((⟨6, 2, .value⟩, v) : Pair (Fin 256)) > nvmModule.pool.eachSize := by
    simp only [recordSize]
    omega
  simp only [kept, twoPairs, FlushInput.ofPairs, fitting, if_neg hsmall, if_pos hlarge]

/-- A value larger than a slot is dropped, and the flush still reports success. -/
theorem drops_large_value {v : List UInt8} (hv : nvmModule.pool.eachSize < v.length) :
    ∃ res, buildInsertNvm nvmModule (twoPairs v) = some res ∧ res.status = .ok ∧
      res.fileMeta.fileSize ≠ 0 ∧ ¬ StoresAll (twoPairs v) res.cf := by
  have hfile : flushFile nvmModule (twoPairs v) 0 =
      { filenum := 7, sstableIndex := 0
        keysMeta := [{ key := ⟨5, 1, .value⟩, offset := 0, size := 26 }] } := by
    rw [flushFile, Builder.finishFile, flushBuilder_eq, kept_twoPairs hv]
    rfl
  have hoff : (flushBuilder nvmModule (twoPairs v)).offset = 26 := by
    rw [flushBuilder_eq, kept_twoPairs hv]
    rfl
  obtain ⟨res, hrun, hcf, hsize, hstatus⟩ := buildInsertNvm_of_fits nvmModule
    (twoPairs v) 0 (.inl rfl) (cons_ne_nil _ _) rfl (by
      rw [hoff, hfile, flushBuilder_eq]
      show 26 + 37 ≤ nvmModule.pool.eachSize
      decide)
  refine ⟨res, hrun, hstatus, by rw [hsize, hoff]; decide, ?_⟩
  rintro ⟨e, hfind, hnum, -, -⟩
  rw [hcf] at hfind
  have he := Option.some.inj ((findFile_flushFile nvmModule (twoPairs v) 0).symm.trans hfind)
  rw [← he, flushFile_keysNum, kept_twoPairs hv] at hnum
  exact absurd hnum (by simp [twoPairs, FlushInput.ofPairs])

/-- With a value of 128 MB in the memtable. -/
theorem buildInsertNvm_drops_pair :
    ∃ res, buildInsertNvm nvmModule (twoPairs (List.replicate (2 ^ 27) 0)) = some res ∧
      res.status = .ok ∧ res.fileMeta.fileSize ≠ 0 ∧
      ¬ StoresAll (twoPairs (List.replicate (2 ^ 27) 0)) res.cf :=
  drops_large_value (by rw [length_replicate]; decide)

end NvmFlush
