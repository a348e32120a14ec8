import MatrixKV.NvmObsoleteProofs

/-! # Write stalls and slots — ColumnFamilyData::GetWriteStallConditionAndCause

    Writes are stopped by the bytes of level 0, but a table takes a whole slot, and
    keeps it while any version lists it and until a purge has taken it.

    * `Step` is the life of the tables (`NvmObsolete.Step`) with flushes only while
      writes are not stopped for level 0, and with restarts.
    * `Inv.held` — the slots in use are those of the listed tables and of the tables
      that the current version does not list.
    * **`room_of_roomy`**: a flush finds a slot while the tables of level 0 are not too
      small for the stop size and few tables wait outside of it.
    * **`tables_sound`**: what holds of slots and references across restarts. -/

namespace WriteStall

open List DbFormat SstableMeta FixedCoding PersistentSstable L0TableBuilder NvmFlush NvmRecover
  VersionBuilder NvmRun SlotOwnership RefCount NvmObsolete

variable {K : Type}

/-! ## The stall condition -/

inductive WriteStallCondition
  | normal
  | delayed
  | stopped
  deriving DecidableEq, Repr

inductive WriteStallCause
  | none
  | memtableLimit
  | l0FileCountLimit
  | pendingCompactionBytes
  deriving DecidableEq, Repr

structure MutableCFOptions where
  maxWriteBufferNumber : Int
  disableAutoCompactions : Bool
  level0StopWritesTrigger : Int
  level0SlowdownWritesTrigger : Int
  hardPendingCompactionBytesLimit : Nat
  softPendingCompactionBytesLimit : Nat
  deriving DecidableEq, Repr

/-- `GetWriteStallConditionAndCause`.  The bytes of level 0 decide unless they are
    0; then the number of its files does. -/
def getWriteStallConditionAndCause (numUnflushedMemtables numL0Files : Int)
    (numCompactionNeededBytes : Nat) (mutableCfOptions : MutableCFOptions) (l0FilesSize : Nat)
    (opts : SizeOptions) : WriteStallCondition × WriteStallCause :=
  let auto := mutableCfOptions.disableAutoCompactions = false
  let hard := mutableCfOptions.hardPendingCompactionBytesLimit
  let soft := mutableCfOptions.softPendingCompactionBytesLimit
  if l0FilesSize ≠ 0 then
    if numUnflushedMemtables ≥ mutableCfOptions.maxWriteBufferNumber then
      (.stopped, .memtableLimit)
    else if auto ∧ l0FilesSize ≥ opts.level0ColumnCompactionStopSize then
      (.stopped, .l0FileCountLimit)
    else if auto ∧ hard > 0 ∧ numCompactionNeededBytes ≥ hard then
      (.stopped, .pendingCompactionBytes)
    else if mutableCfOptions.maxWriteBufferNumber > 3 ∧
        numUnflushedMemtables ≥ mutableCfOptions.maxWriteBufferNumber - 1 then
      (.delayed, .memtableLimit)
    else if auto ∧ l0FilesSize ≥ opts.level0ColumnCompactionSlowdownSize then
      (.delayed, .l0FileCountLimit)
    else if auto ∧ soft > 0 ∧ numCompactionNeededBytes ≥ soft then
      (.delayed, .pendingCompactionBytes)
    else (.normal, .none)
  else if numUnflushedMemtables ≥ mutableCfOptions.maxWriteBufferNumber then
    (.stopped, .memtableLimit)
  else if auto ∧ numL0Files ≥ mutableCfOptions.level0StopWritesTrigger then
    (.stopped, .l0FileCountLimit)
  else if auto ∧ hard > 0 ∧ numCompactionNeededBytes ≥ hard then
    (.stopped, .pendingCompactionBytes)
  else if mutableCfOptions.maxWriteBufferNumber > 3 ∧
      numUnflushedMemtables ≥ mutableCfOptions.maxWriteBufferNumber - 1 then
    (.delayed, .memtableLimit)
  else if auto ∧ mutableCfOptions.level0SlowdownWritesTrigger ≥ 0 ∧
      numL0Files ≥ mutableCfOptions.level0SlowdownWritesTrigger then
    (.delayed, .l0FileCountLimit)
  else if auto ∧ soft > 0 ∧ numCompactionNeededBytes ≥ soft then
    (.delayed, .pendingCompactionBytes)
  else (.normal, .none)

/-- `NumLevelBytes(0)`, a sum of `uint64_t`. -/
def numLevelBytes (l0 : List (FileMetaData K)) : Nat :=
  (l0.map FileMetaData.fileSize).sum % 2 ^ 64

/-- The bytes of level 0 are below the stop size. -/
def MayFlush (opts : SizeOptions) (s : State K) : Prop :=
  numLevelBytes s.level0 < opts.level0ColumnCompactionStopSize

/-- With bytes in level 0, fewer memtables than the limit and automatic compactions, this
    is what the stall condition asks: writes are not stopped for level 0. -/
theorem mayFlush_iff_not_stopped (opts : SizeOptions) (mutableCfOptions : MutableCFOptions)
    (s : State K) (hauto : mutableCfOptions.disableAutoCompactions = false)
    (hbytes : numLevelBytes s.level0 ≠ 0) {memtables : Int} {needed : Nat}
    (hmem : memtables < mutableCfOptions.maxWriteBufferNumber) :
    MayFlush opts s ↔ getWriteStallConditionAndCause memtables s.level0.length needed
      mutableCfOptions (numLevelBytes s.level0) opts ≠ (.stopped, .l0FileCountLimit) := by
  simp only [getWriteStallConditionAndCause, if_pos hbytes, if_neg (not_le.mpr hmem), hauto,
    true_and, ge_iff_le]
  by_cases hstop : opts.level0ColumnCompactionStopSize ≤ numLevelBytes s.level0
  · rw [if_pos hstop]
    exact iff_of_false (not_lt.mpr hstop) (fun h => h rfl)
  rw [if_neg hstop]
  refine iff_of_true (not_le.mp hstop) ?_
  split_ifs <;> decide

/-! ## Runs -/

variable [LinearOrder K] [UserKeyCodec K]

/-- The family after a restart: one version, with new objects for the files of the
    manifest; the slots are taken up again. -/
def reopened (s : State K) (next : Nat) : State K :=
  { cf := recoverFromStorageInfo (reopen s.cf.pool) false s.level0
    nextFileNumber := next
    current := { refs := 1, files := newObjects 0 s.level0 }
    refs := retain (fun _ => 0) (newObjects 0 s.level0)
    nextObj := s.level0.length }

inductive Step (opts : SizeOptions) : State K → State K → Prop
  /-- memtables are flushed only while writes are not stopped for level 0 -/
  | work (s s' : State K) (ev : NvmObsolete.Event) (hstep : NvmObsolete.Step s ev s')
      (hflush : ev = .flush → MayFlush opts s) : Step opts s s'
  /-- the database is closed or crashes, and is opened again with its options -/
  | restart (s : State K) (next : Nat) (hnext : ∀ f ∈ s.level0, f.number < next) :
      Step opts s (reopened s next)

/-- Runs of the family. -/
def Run (opts : SizeOptions) : State K → State K → Prop :=
  Relation.ReflTransGen (Step opts)

/-- The tables that hold a slot and are not in the current version: not listed yet,
    listed by older versions only, abandoned or waiting for a purge. -/
def unlisted (s : State K) : List (FileEntry K) :=
  s.cf.dir.files.filter (fun e => e.filenum ∉ s.level0.map FileMetaData.number)

/-! ## The number of slots -/

theorem num_build {cf : NvmCf K} {inp : FlushInput K} {res : FlushResult K}
    (hrun : buildInsertNvm cf inp = some res) : res.cf.pool.num = cf.pool.num := by
  rcases build_adds hrun with ⟨hcf, -⟩ | ⟨e, hnew⟩
  · rw [hcf]
  · exact hnew.num

omit [LinearOrder K] [UserKeyCodec K] in
theorem num_deleteObsoleteFileImpl (job : JobContext K) (cf : NvmCf K) (n : Nat) :
    (deleteObsoleteFileImpl job cf n).pool.num = cf.pool.num := by
  rw [deleteObsoleteFileImpl]
  split
  · rw [deleteL0file]
    split
    · rfl
    · exact length_modify ..
  · rfl

variable {s : State K}

theorem num_step {s' : State K} {ev : NvmObsolete.Event} (hstep : NvmObsolete.Step s ev s') :
    s'.cf.pool.num = s.cf.pool.num := by
  cases hstep with
  | pick | refCurrent | refOlder | unrefCurrent | capture | release | find | finish => rfl
  | build inp res hpicked hrun => exact num_build hrun
  | install f hbuilt => rw [installEdit, (unref_frame _ _ _ _).1, appendVersion]
  | columnEdit edit hedit => rw [installEdit, (unref_frame _ _ _ _).1, appendVersion]
  | unrefOlder l₁ l₂ v holder => rw [(unref_frame s l₁ l₂ v).1]
  | purgeFile js₁ js₂ p n rest hjobs hnext => exact num_deleteObsoleteFileImpl p.job s.cf n

/-! ## The listed numbers -/

variable {l0 : List (FileMetaData K)}

omit [UserKeyCodec K] [LinearOrder K] in
/-- Files with one number are one file, in a list without repetition. -/
theorem distinctNumbers_of_newestFirst (h : NewestFirst l0)
    (heq : ∀ f ∈ l0, ∀ g ∈ l0, f.number = g.number → f = g) : DistinctNumbers l0 := by
  refine .imp_of_mem ?_ h
  intro f g hf hg hlt hnum
  rw [heq f hf g hg hnum] at hlt
  exact lt_irrefl _ hlt

omit [UserKeyCodec K] in
theorem distinctNumbers_edit (h : NvmObsolete.Inv s) (hdistinct : DistinctNumbers s.level0)
    {edit : VersionEdit K} (built : List (FileMetaData K))
    (hnvm : ∀ f ∈ edit.newFiles, f.isNvmLevel0 = true) (hdist : DistinctNumbers edit.newFiles)
    (hdeleted : ∀ f ∈ edit.newFiles, ∀ b ∈ s.level0, f.number = b.number → b.number ∈
      edit.deletedFiles) : DistinctNumbers (installEdit s edit built).level0 := by
  obtain ⟨hsorted, hmem⟩ := applyEdit_spec edit h.sorted hnvm hdist hdeleted
  obtain ⟨hlevel, -⟩ := installEdit_changed edit h.counts
    (fun f hf => ((hmem f).mp hf).imp_right And.left) built
  rw [hlevel]
  exact distinctNumbers_of_newestFirst hsorted (applyEdit_distinct hmem hdist hdeleted
    (fun f hf g hg => hdistinct.eq_of_number hf hg))

theorem distinctNumbers_step {s' : State K} {ev : NvmObsolete.Event} (h : NvmObsolete.Inv s)
    (hdistinct : DistinctNumbers s.level0) (hstep : NvmObsolete.Step s ev s') :
    DistinctNumbers s'.level0 := by
  cases hstep with
  | pick | build | refCurrent | refOlder | unrefCurrent | capture | release | find | purgeFile
  | finish => exact hdistinct
  | unrefOlder l₁ l₂ v holder =>
    have hcurrent := (unref_frame s l₁ l₂ v).2.2.2.2.1
    rw [State.level0, hcurrent]
    exact hdistinct
  | install f hbuilt =>
    refine distinctNumbers_edit h hdistinct _ ?_ (pairwise_singleton _ _) ?_
    · intro g hg
      rw [mem_singleton.mp hg]
      exact (h.built f hbuilt).2
    · intro g hg b hb heq
      rw [mem_singleton.mp hg] at heq
      exact absurd (heq ▸ lists_of_level0 hb) (h.builtUnlisted f hbuilt)
  | columnEdit edit hedit =>
  refine distinctNumbers_edit h hdistinct _ ?_ hedit.distinct ?_
  · intro f' hf'
    obtain ⟨f, hf, -, hadv⟩ := hedit.advanced f' hf'
    obtain ⟨o, ho, rfl⟩ := mem_map.mp hf
    exact hadv.nvm.trans (h.held o ⟨_, .head _, ho⟩).2
  · intro f' hf' b hb heq
    obtain ⟨f, hf, hdel, hadv⟩ := hedit.advanced f' hf'
    rw [← heq, hadv.number]
    exact hdel

/-! ## A restart -/

omit [LinearOrder K] in
theorem recovered_reopen (pool : Pool) (hnumbers : (l0.map FileMetaData.number).Nodup)
    (hslots : (l0.map FileMetaData.nvmSstableIndex).Nodup)
    (hlt : ∀ f ∈ l0, f.nvmSstableIndex < pool.num) :
    Recovered pool l0 (recoverFromStorageInfo (reopen pool) false l0) := by
  have h := recovered_foldr pool l0 hnumbers hslots hlt
  rw [recoverFromStorageInfo]
  split
  · rename_i hnil
    rw [hnil] at h ⊢
    exact h
  · rw [if_neg Bool.false_ne_true]
    exact h

variable {f : FileMetaData K}

omit [LinearOrder K] [UserKeyCodec K] in
/-- Each listed file has its entry after recovery. -/
theorem entryFor_recovered {pool : Pool} {cf : NvmCf K} (h : Recovered pool l0 cf) (hf : f ∈ l0) :
    EntryFor cf f := by
  obtain ⟨i, hi, rfl⟩ := getElem_of_mem hf
  have hlen : cf.dir.files.length = l0.length := by
    rw [← length_map (f := FileEntry.filenum), h.numbers, length_map]
  have hi' : i < cf.dir.files.length := hlen ▸ hi
  refine ⟨cf.dir.files[i], getElem_mem hi', ?_, ?_⟩
  · have hnum := congrArg (fun l => l[i]?) h.numbers
    simpa [getElem?_eq_getElem hi, getElem?_eq_getElem hi'] using hnum
  · have hslot := congrArg (fun l => l[i]?) h.slots
    simpa [getElem?_eq_getElem hi, getElem?_eq_getElem hi'] using hslot

/-! ## The invariant -/

structure Inv (s : State K) : Prop where
  life : NvmObsolete.Inv s
  distinct : DistinctNumbers s.level0

section

omit [UserKeyCodec K]

theorem Inv.numbers_nodup (h : Inv s) : (s.level0.map FileMetaData.number).Nodup :=
  pairwise_map.mpr h.distinct

theorem Inv.entry (h : Inv s) (hf : f ∈ s.level0) : EntryFor s.cf f ∧ f.isNvmLevel0 = true := by
  obtain ⟨o, ho, rfl⟩ := mem_map.mp hf
  exact h.life.held o ⟨_, .head _, ho⟩

/-- The listed slots differ, for they belong to entries with different numbers. -/
theorem Inv.slots_nodup (h : Inv s) : (s.level0.map FileMetaData.nvmSstableIndex).Nodup := by
  refine pairwise_map.mpr (.imp_of_mem ?_ h.distinct)
  intro f g hf hg hne hslot
  obtain ⟨⟨e, he, henum, heslot⟩, -⟩ := h.entry hf
  obtain ⟨⟨o, ho, honum, hoslot⟩, -⟩ := h.entry hg
  have heo : e = o := inj_on_of_nodup_map h.life.owns.slots he ho
    (heslot.trans (hslot.trans hoslot.symm))
  exact hne (henum.symm.trans (heo ▸ honum))

theorem Inv.slot_lt (h : Inv s) (hf : f ∈ s.level0) : f.nvmSstableIndex < s.cf.pool.num := by
  obtain ⟨⟨e, he, -, hslot⟩, -⟩ := h.entry hf
  exact hslot ▸ h.life.owns.slot_lt he

end

theorem level0_reopened (s : State K) (next : Nat) : (reopened s next).level0 = s.level0 :=
  map_file_newObjects 0 s.level0

theorem Inv.recovered (h : Inv s) (next : Nat) :
    Recovered s.cf.pool s.level0 (reopened s next).cf :=
  recovered_reopen s.cf.pool h.numbers_nodup h.slots_nodup (fun _ hf => h.slot_lt hf)

theorem Inv.restart (h : Inv s) {next : Nat} (hnext : ∀ f ∈ s.level0, f.number < next) :
    Inv (reopened s next) := by
  have hrec := h.recovered next
  have hlevel := level0_reopened s next
  -- everything that is held after the restart is a file of the manifest
  have hheld : ∀ o, (reopened s next).Holds o → o.file ∈ s.level0 := by
    rintro o ⟨l, hl, ho⟩
    rw [mem_singleton.mp hl] at ho
    rw [← hlevel]
    exact mem_map_of_mem ho
  have hzero : Counts (fun _ : Obj K => 0) [] := fun _ => rfl
  exact {
    life := {
      owns := hrec.owns
      counts := hzero.retain (newObjects 0 s.level0)
      files := by
        intro e he
        refine ⟨?_, nofun⟩
        have hmem : e.filenum ∈ s.level0.map FileMetaData.number :=
          hrec.numbers ▸ mem_map_of_mem he
        obtain ⟨f, hf, hnum⟩ := mem_map.mp hmem
        exact hnum ▸ hnext f hf
      picked := nofun
      pickedNodup := nodup_nil
      held := fun o ho =>
        ⟨entryFor_recovered hrec (hheld o ho), (h.entry (hheld o ho)).2⟩
      built := nofun
      builtUnlisted := nofun
      builtDistinct := .nil
      sorted := hlevel.symm ▸ h.life.sorted
      obsolete := nofun
      jobs := nofun
      jobIds := nofun
      jobIdsNodup := nodup_nil }
    distinct := hlevel.symm ▸ h.distinct }

section Runs

variable {opts : SizeOptions}

theorem Inv.step {s' : State K} (h : Inv s) (hstep : Step opts s s') :
    Inv s' ∧ s'.cf.pool.num = s.cf.pool.num := by
  cases hstep with
  | work s' ev hstep hflush =>
    exact ⟨⟨(h.life.step hstep).1, distinctNumbers_step h.life h.distinct hstep⟩, num_step hstep⟩
  | restart next hnext => exact ⟨h.restart hnext, (h.recovered next).num⟩

/-- **EVERY RUN** keeps the invariant and the number of slots. -/
theorem Inv.run {s' : State K} (h : Inv s) (hrun : Run opts s s') :
    Inv s' ∧ s'.cf.pool.num = s.cf.pool.num := by
  induction hrun with
  | refl => exact ⟨h, rfl⟩
  | tail _ hstep ih =>
    obtain ⟨hinv, hnum⟩ := ih.1.step hstep
    exact ⟨hinv, hnum.trans ih.2⟩

omit [UserKeyCodec K] in
theorem inv_initial (h : NvmObsolete.Initial s) : Inv s := by
  refine ⟨NvmObsolete.Inv.initial h, ?_⟩
  rw [State.level0, h.current]
  exact .nil

end Runs

/-! ## Tables and slots -/

omit [LinearOrder K] [UserKeyCodec K] in
/-- There is room exactly if the tables are fewer than the slots. -/
theorem room_iff_length {cf : NvmCf K} (h : Owns cf) (filenum : Nat) :
    (addL0TableRoom cf filenum).2 ≠ none ↔ cf.dir.files.length < cf.pool.num := by
  have hlen : (cf.dir.files.map FileEntry.sstableIndex).length = cf.dir.files.length :=
    length_map _
  rcases addL0TableRoom_spec cf filenum with ⟨hroom, hfull⟩ | ⟨index, hfree, hroom⟩
  · refine iff_of_false (fun hne => hne (by rw [hroom])) ?_
    have hsub : List.range cf.pool.num ⊆ cf.dir.files.map FileEntry.sstableIndex := by
      intro i hi
      obtain ⟨e, he, hslot⟩ := (h.used i).mp (hfull i (mem_range.mp hi))
      exact mem_map.mpr ⟨e, he, hslot⟩
    have hle := (subperm_of_subset nodup_range hsub).length_le
    rw [length_range, hlen] at hle
    exact not_lt.mpr hle
  refine iff_of_true (by rw [hroom]; exact Option.some_ne_none _) ?_
  have hindex : index ∉ cf.dir.files.map FileEntry.sstableIndex := by
    intro hmem
    exact not_used_of_free hfree ((h.used index).mpr (mem_map.mp hmem))
  have hsub : index :: cf.dir.files.map FileEntry.sstableIndex ⊆ List.range cf.pool.num := by
    intro i hi
    rw [mem_range]
    rcases mem_cons.mp hi with rfl | hi
    · exact (List.getElem?_eq_some_iff.mp hfree).1
    · obtain ⟨e, he, rfl⟩ := mem_map.mp hi
      exact h.slot_lt he
  have hle := (subperm_of_subset (nodup_cons.mpr ⟨hindex, h.slots⟩) hsub).length_le
  rw [length_range, length_cons, hlen] at hle
  exact hle

/-- A flush that has entries to write runs exactly if it gets its room. -/
theorem buildInsertNvm_ne_none_iff (cf : NvmCf K) (inp : FlushInput K) (hpairs : inp.pairs ≠ []) :
    buildInsertNvm cf inp ≠ none ↔ (addL0TableRoom cf inp.number).2 ≠ none := by
  have hvalid : inp.valid = true := by
    cases hv : inp.valid with
    | false => exact absurd (inp.pairs_of_invalid hv) hpairs
    | true => rfl
  rcases addL0TableRoom_spec cf inp.number with ⟨hroom, -⟩ | ⟨index, -, hroom⟩
  · simp only [buildInsertNvm, hvalid, hroom, if_neg hpairs, true_or, if_true, ne_eq,
      not_true_eq_false]
  refine iff_of_true ?_ (by rw [hroom]; exact Option.some_ne_none _)
  simp only [buildInsertNvm, hvalid, hroom, if_neg hpairs, true_or, if_true]
  split <;> exact Option.some_ne_none _

omit [UserKeyCodec K] in
/-- **WHO HOLDS A SLOT**: the listed tables and the unlisted ones. -/
theorem Inv.held (h : Inv s) : s.cf.dir.files.length = s.level0.length + (unlisted s).length := by
  have hsplit := length_eq_length_filter_add (l := s.cf.dir.files)
    (fun e => decide (e.filenum ∈ s.level0.map FileMetaData.number))
  have hperm : ((s.cf.dir.files.filter
      (fun e => e.filenum ∈ s.level0.map FileMetaData.number)).map FileEntry.filenum).Perm
      (s.level0.map FileMetaData.number) := by
    refine (perm_ext_iff_of_nodup ?_ h.numbers_nodup).mpr ?_
    · exact h.life.owns.numbers.sublist (filter_sublist.map _)
    intro n
    constructor
    · intro hn
      obtain ⟨e, he, rfl⟩ := mem_map.mp hn
      exact of_decide_eq_true (mem_filter.mp he).2
    intro hn
    obtain ⟨f, hf, rfl⟩ := mem_map.mp hn
    obtain ⟨⟨e, he, hnum, -⟩, -⟩ := h.entry hf
    refine mem_map.mpr ⟨e, mem_filter.mpr ⟨he, ?_⟩, hnum⟩
    rw [hnum]
    exact decide_eq_true hn
  have hlisted := hperm.length_eq
  rw [length_map, length_map] at hlisted
  have hrest : (s.cf.dir.files.filter
      (fun e => !decide (e.filenum ∈ s.level0.map FileMetaData.number))).length
      = (unlisted s).length := by
    rw [unlisted]
    refine congrArg List.length (filter_congr ?_)
    intro e _
    exact (decide_not (p := e.filenum ∈ s.level0.map FileMetaData.number)).symm
  omega

omit [LinearOrder K] [UserKeyCodec K] in
/-- Files of at least `b` bytes each. -/
theorem length_mul_le_sum {b : Nat} (h : ∀ f ∈ l0, b ≤ f.fileSize) :
    l0.length * b ≤ (l0.map FileMetaData.fileSize).sum := by
  have hle := card_nsmul_le_sum (l0.map FileMetaData.fileSize) b (by
    intro x hx
    obtain ⟨f, hf, rfl⟩ := mem_map.mp hx
    exact h f hf)
  rw [length_map] at hle
  exact hle

/-- Tables of at least `b` bytes, so that `n` of them reach the stop size, and no
    more other tables than the slots `n` leaves. -/
structure Roomy (opts : SizeOptions) (b n : Nat) (s : State K) : Prop where
  sizes : ∀ f ∈ s.level0, b ≤ f.fileSize
  total : (s.level0.map FileMetaData.fileSize).sum < 2 ^ 64
  stop : opts.level0ColumnCompactionStopSize ≤ n * b
  others : n + (unlisted s).length ≤ opts.level0TableNum

omit [LinearOrder K] [UserKeyCodec K] in
theorem Roomy.lt {opts : SizeOptions} {b n : Nat} (h : Roomy opts b n s)
    (hbytes : numLevelBytes s.level0 < opts.level0ColumnCompactionStopSize) :
    s.level0.length + (unlisted s).length < opts.level0TableNum := by
  rw [numLevelBytes, Nat.mod_eq_of_lt h.total] at hbytes
  have hmul : s.level0.length * b < n * b :=
    (length_mul_le_sum h.sizes).trans_lt (hbytes.trans_le h.stop)
  have hlt : s.level0.length < n := Nat.lt_of_mul_lt_mul_right hmul
  have hothers := h.others
  omega

/-- **A FREE SLOT**: in every run whose flushes wait for the write stalls, a flush gets
    its room when the tables of level 0 are large and the others few. -/
theorem room_of_roomy {opts : SizeOptions} {raw : Memory} {s₀ s : State K} {b n : Nat}
    (hinit : NvmObsolete.Initial s₀) (hcf : s₀.cf = newNvmCfModule opts raw)
    (hrun : Run opts s₀ s) (hflush : MayFlush opts s) (hroomy : Roomy opts b n s)
    (inp : FlushInput K) :
    (addL0TableRoom s.cf inp.number).2 ≠ none ∧
    (inp.pairs ≠ [] → buildInsertNvm s.cf inp ≠ none) := by
  obtain ⟨hinv, hnum⟩ := (inv_initial hinit).run hrun
  have hslots : s.cf.pool.num = opts.level0TableNum := by
    rw [hnum, hcf]
    exact length_replicate
  have hroom : (addL0TableRoom s.cf inp.number).2 ≠ none := by
    rw [room_iff_length hinv.life.owns, hinv.held, hslots]
    exact hroomy.lt hflush
  exact ⟨hroom, fun hpairs => (buildInsertNvm_ne_none_iff s.cf inp hpairs).mpr hroom⟩

/-! ## Small tables fill the slots

    With a write buffer and a stop size of 64 MB there are four slots.  Four
    memtables of one pair take them all, with 104 bytes in level 0.  With write
    buffers of their size the stop comes first. -/

/-- A flush from its number to its edit. -/
def flushed (s : State K) (cf : NvmCf K) (f : FileMetaData K) : State K :=
  installEdit { s with
    cf := cf
    nextFileNumber := s.nextFileNumber + 1
    picked := (s.nextFileNumber :: s.picked).erase s.nextFileNumber
    built := f :: s.built } { newFiles := [f] } ((f :: s.built).erase f)

theorem run_flushed {opts : SizeOptions} (inp : FlushInput K) {res : FlushResult K}
    (hmay : MayFlush opts s) (hnumber : inp.number = s.nextFileNumber)
    (hbuild : buildInsertNvm s.cf inp = some res) (hfile : flushedFiles inp.number res = [f]) :
    Run opts s (flushed s res.cf f) := by
  have hpick : Run opts s _ :=
    .single (Step.work s _ _ (NvmObsolete.Step.pick s) (fun _ => hmay))
  have hbuilt := NvmObsolete.Step.build { s with
    nextFileNumber := s.nextFileNumber + 1
    picked := s.nextFileNumber :: s.picked } inp res
    (by rw [hnumber]; exact .head _) hbuild
  rw [hfile, hnumber] at hbuilt
  have hinstall := NvmObsolete.Step.install { s with
    cf := res.cf
    nextFileNumber := s.nextFileNumber + 1
    picked := (s.nextFileNumber :: s.picked).erase s.nextFileNumber
    built := f :: s.built } f (.head _)
  exact (hpick.tail (Step.work _ _ _ hbuilt (fun _ => hmay))).tail
    (Step.work _ _ _ hinstall nofun)

def smallOptions : SizeOptions :=
  { writeBufferSize := 64 * 1024 * 1024
    level0ColumnCompactionStopSize := 64 * 1024 * 1024
    level0ColumnCompactionSlowdownSize := 48 * 1024 * 1024 }

def stallOptions : MutableCFOptions :=
  { maxWriteBufferNumber := 2, disableAutoCompactions := false
    level0StopWritesTrigger := 36, level0SlowdownWritesTrigger := 20
    hardPendingCompactionBytesLimit := 256 * 1024 * 1024 * 1024
    softPendingCompactionBytesLimit := 64 * 1024 * 1024 * 1024 }

/-- The memtable of one pair, with the sequence number `n`. -/
def smallMemtable (n : Nat) : FlushInput (Fin 256) :=
  { number := n, valid := true, pairs := [(⟨5, n, .value⟩, [42])], tombstones := []
    iterStatus := .ok, pairs_of_invalid := fun h => Bool.noConfusion h }

def openFamily (opts : SizeOptions) : State (Fin 256) :=
  oneVersion (newNvmCfModule opts (fun _ => 0)) 1 [] []

theorem initial_openFamily (opts : SizeOptions) : NvmObsolete.Initial (openFamily opts) := by
  constructor <;> try rfl
  · intro i hi
    have hmem := mem_of_getElem? hi
    exact nomatch (mem_replicate.mp hmem).2
  · exact fun _ => rfl

/-- The file of the `n`th memtable, in slot `n - 1`. -/
def smallTable (n : Nat) : FileMetaData (Fin 256) :=
  { number := n, fileSize := 26, smallest := ⟨5, n, .value⟩, largest := ⟨5, n, .value⟩
    smallestSeqno := n, largestSeqno := n, isNvmLevel0 := true, nvmSstableIndex := n - 1
    keysNum := 1, keyPointFilenum := n - 1, rawFileSize := 26, nvmMetaSize := 37 }

/-- The family after `n` such memtables were flushed. -/
def tables (opts : SizeOptions) : Nat → State (Fin 256)
  | 0 => openFamily opts
  | n + 1 =>
    match buildInsertNvm (tables opts n).cf (smallMemtable (n + 1)) with
    | some res => flushed (tables opts n) res.cf (smallTable (n + 1))
    | none => tables opts n

/-- It is reached if level 0 stays below the stop size and each memtable is built. -/
theorem run_tables {opts : SizeOptions} : ∀ m : Nat,
    (∀ n < m, MayFlush opts (tables opts n) ∧ (tables opts n).nextFileNumber = n + 1 ∧
      (buildInsertNvm (tables opts n).cf (smallMemtable (n + 1))).map (flushedFiles (n + 1))
        = some [smallTable (n + 1)]) →
    Run opts (openFamily opts) (tables opts m) := by
  intro m
  induction m with
  | zero => exact fun _ => .refl
  | succ m ih =>
  intro h
  obtain ⟨hmay, hnext, hmap⟩ := h m (Nat.lt_succ_self m)
  obtain ⟨res, hbuild, hfile⟩ := Option.map_eq_some_iff.mp hmap
  have hrun := run_flushed (smallMemtable (m + 1)) hmay hnext.symm hbuild hfile
  rw [tables, hbuild]
  exact (ih (fun n hn => h n (hn.trans (Nat.lt_succ_self m)))).trans hrun

theorem run_fourTables : ∀ m ≤ 4, Run smallOptions (openFamily smallOptions)
    (tables smallOptions m) := by
  have hsteps : ∀ n < 4, (tables smallOptions n).nextFileNumber = n + 1 ∧
      (buildInsertNvm (tables smallOptions n).cf (smallMemtable (n + 1))).map
        (flushedFiles (n + 1)) = some [smallTable (n + 1)] := by decide +kernel
  have hbytes : ∀ n < 4, numLevelBytes (tables smallOptions n).level0 < 64 * 1024 * 1024 := by
    decide +kernel
  intro m hm
  exact run_tables m (fun n hn => ⟨hbytes n (by omega), hsteps n (by omega)⟩)

/-- **ACROSS RESTARTS** every slot belongs to one table, the references are counted,
    level 0 is sorted and in the directory, and a purge deletes what nobody lists. -/
theorem tables_sound {opts : SizeOptions} {s₀ s : State K}
    (hinit : NvmObsolete.Initial s₀) (hrun : Run opts s₀ s) :
    Owns s.cf ∧ Counts s.refs s.holders ∧ NewestFirst s.level0 ∧
      (∀ o, s.Holds o → EntryFor s.cf o.file) ∧ ∀ p ∈ s.jobs, ∀ n ∈ p.remaining, Dead s n := by
  have hlife := ((inv_initial hinit).run hrun).1.life
  exact ⟨hlife.owns, hlife.counts, hlife.sorted, fun o ho => (hlife.held o ho).1, hlife.jobs⟩

theorem tables_sound_threeTables :
    Owns (tables smallOptions 3).cf ∧ NewestFirst (tables smallOptions 3).level0 := by
  obtain ⟨howns, -, hsorted, -⟩ := tables_sound (initial_openFamily smallOptions)
    (run_fourTables 3 (by decide))
  exact ⟨howns, hsorted⟩

/-- Ten slots, and a stop at the bytes of four of the small tables. -/
def tightOptions : SizeOptions :=
  { writeBufferSize := 26, level0ColumnCompactionStopSize := 104
    level0ColumnCompactionSlowdownSize := 78 }

theorem run_tightTables : Run tightOptions (openFamily tightOptions) (tables tightOptions 3) := by
  refine run_tables 3 (fun n hn => ⟨?_, ?_⟩)
  · have hbytes : ∀ n < 3, numLevelBytes (tables tightOptions n).level0 < 104 := by decide +kernel
    exact hbytes n hn
  · have hsteps : ∀ n < 3, (tables tightOptions n).nextFileNumber = n + 1 ∧
        (buildInsertNvm (tables tightOptions n).cf (smallMemtable (n + 1))).map
          (flushedFiles (n + 1)) = some [smallTable (n + 1)] := by decide +kernel
    exact hsteps n hn

/-- Three small tables leave room for the fourth. -/
theorem room_of_roomy_threeTables :
    Run tightOptions (openFamily tightOptions) (tables tightOptions 3) ∧
    (addL0TableRoom (tables tightOptions 3).cf 4).2 ≠ none ∧
    buildInsertNvm (tables tightOptions 3).cf (smallMemtable 4) ≠ none := by
  have hflush : MayFlush tightOptions (tables tightOptions 3) := by
    unfold MayFlush
    decide +kernel
  have hroomy : Roomy tightOptions 26 4 (tables tightOptions 3) :=
    ⟨by decide +kernel, by decide +kernel, by decide, by decide +kernel⟩
  obtain ⟨hroom, hbuild⟩ := room_of_roomy (initial_openFamily tightOptions) rfl run_tightTables
    hflush hroomy (smallMemtable 4)
  exact ⟨run_tightTables, hroom, hbuild (cons_ne_nil _ _)⟩

/-- The fifth memtable finds no slot, though writes were never stopped. -/
theorem no_room_below_stop :
    ∃ (s₀ s : State (Fin 256)), NvmObsolete.Initial s₀ ∧
      s₀.cf = newNvmCfModule smallOptions (fun _ => 0) ∧ Run smallOptions s₀ s ∧
      MayFlush smallOptions s ∧
      getWriteStallConditionAndCause 1 s.level0.length 0 stallOptions (numLevelBytes s.level0)
        smallOptions = (.normal, .none) ∧
      (addL0TableRoom s.cf 5).2 = none ∧ buildInsertNvm s.cf (smallMemtable 5) = none := by
  have hbytes : numLevelBytes (tables smallOptions 4).level0 = 104 := by decide +kernel
  have hlength : (tables smallOptions 4).level0.length = 4 := by decide +kernel
  refine ⟨openFamily smallOptions, tables smallOptions 4, initial_openFamily smallOptions, rfl,
    run_fourTables 4 le_rfl, ?_, ?_, rfl, rfl⟩
  · rw [MayFlush, hbytes]
    decide
  · rw [hbytes, hlength]
    decide

end WriteStall
