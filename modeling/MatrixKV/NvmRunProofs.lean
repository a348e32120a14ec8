import MatrixKV.NvmRecoverProofs
import MatrixKV.VersionBuilderProofs
import MatrixKV.ColumnEntriesProofs

/-! # Runs of the NVM level 0

    The state is the NVM module together with the versions that list its tables.
    Flush jobs take a file number, build a table and wait for their edit to be
    installed; column compactions advance or drop tables; old versions are
    released, tables that no version lists are deleted, and a restart recovers the
    current version.

    * `Inv` is what every reachable state keeps (`Inv.step`, `inv_reachable`): the
      directory is sound, every listed table is in it, its pointers belong to the
      table they were computed for, and its slot holds its key metadata. -/

namespace NvmRun

open List DbFormat SstableMeta FixedCoding PersistentSstable L0TableBuilder NvmFlush NvmRecover
  VersionBuilder ColumnEntries

variable {K : Type} [LinearOrder K] [UserKeyCodec K]

structure DbState (K : Type) where
  cf : NvmCf K
  nextFileNumber : Nat
  /-- `next_file_number` of the last edit in the manifest -/
  loggedFileNumber : Nat
  /-- numbers of flush jobs that have not built their table yet -/
  picked : List Nat := []
  /-- tables of finished jobs whose edit is not installed yet -/
  built : List (FileMetaData K) := []
  /-- level 0 of the current version, and of the older versions still in use -/
  current : List (FileMetaData K) := []
  old : List (List (FileMetaData K)) := []

/-- The versions a reader may hold. -/
def DbState.live (s : DbState K) : List (List (FileMetaData K)) := s.current :: s.old

/-- The file is listed by a version or waits to be. -/
def DbState.Lists (s : DbState K) (f : FileMetaData K) : Prop :=
  f ∈ s.built ∨ ∃ v ∈ s.live, f ∈ v

/-- The file metadata a flush hands to its edit: nothing for a flush that failed
    or wrote nothing. -/
def flushedFiles (number : Nat) (res : FlushResult K) : List (FileMetaData K) :=
  if res.status = .ok ∧ res.fileMeta.fileSize > 0 then
    match res.fileMeta.bounds.smallest, res.fileMeta.bounds.largest with
    | some lo, some hi =>
      [{ number := number
         fileSize := res.fileMeta.fileSize
         smallest := lo
         largest := hi
         smallestSeqno := res.fileMeta.bounds.smallestSeqno
         largestSeqno := res.fileMeta.bounds.largestSeqno
         isNvmLevel0 := res.fileMeta.isNvmLevel0
         firstKeyIndex := res.fileMeta.firstKeyIndex
         nvmSstableIndex := res.fileMeta.nvmSstableIndex
         keysNum := res.fileMeta.keysNum
         keyPointFilenum := res.fileMeta.keyPointFilenum
         rawFileSize := res.fileMeta.rawFileSize
         nvmMetaSize := res.fileMeta.nvmMetaSize }]
    | _, _ => []
  else []

/-- What a flush's compaction iterator delivers: pairs in internal key order. -/
structure FlushOK (inp : FlushInput K) : Prop where
  sorted : SortedKeys (inp.pairs.map Prod.fst)
  sequences : ∀ p ∈ inp.pairs, p.1.sequence ≤ maxSequenceNumber

/-- `f'` is the file `f` after some of its first keys were compacted away. -/
structure Advances (f f' : FileMetaData K) : Prop where
  number : f'.number = f.number
  rank : seqRank f' = seqRank f
  nvm : f'.isNvmLevel0 = f.isNvmLevel0
  slot : f'.nvmSstableIndex = f.nvmSstableIndex
  keysNum : f'.keysNum = f.keysNum
  point : f'.keyPointFilenum = f.keyPointFilenum
  raw : f'.rawFileSize = f.rawFileSize
  first : f.firstKeyIndex ≤ f'.firstKeyIndex
  remaining : f'.firstKeyIndex < f'.keysNum

/-- The edits of column compactions: they drop listed tables or advance them. -/
structure ColumnEdit (l0 : List (FileMetaData K)) (edit : VersionEdit K) : Prop where
  advanced : ∀ f' ∈ edit.newFiles, ∃ f ∈ l0, f.number ∈ edit.deletedFiles ∧ Advances f f'
  distinct : DistinctNumbers edit.newFiles

inductive Step : DbState K → DbState K → Prop
  /-- a flush job takes its file number (`PickMemTable`) -/
  | pick (s : DbState K) :
      Step s { s with
        nextFileNumber := s.nextFileNumber + 1
        picked := s.nextFileNumber :: s.picked }
  /-- a flush job builds its table (`BuildInsertNvm`), with success or not -/
  | build (s : DbState K) (inp : FlushInput K) (res : FlushResult K)
      (hpicked : inp.number ∈ s.picked) (hinp : FlushOK inp)
      (hrun : buildInsertNvm s.cf inp = some res) :
      Step s { s with
        cf := res.cf
        picked := s.picked.erase inp.number
        built := flushedFiles inp.number res ++ s.built }
  /-- the edit of a finished flush is installed -/
  | install (s : DbState K) (f : FileMetaData K) (hbuilt : f ∈ s.built) :
      Step s { s with
        built := s.built.erase f
        current := applyEdit s.current { newFiles := [f] }
        old := s.current :: s.old
        loggedFileNumber := s.nextFileNumber }
  /-- the edit of a column compaction is installed -/
  | columnEdit (s : DbState K) (edit : VersionEdit K) (hedit : ColumnEdit s.current edit) :
      Step s { s with
        current := applyEdit s.current edit
        old := s.current :: s.old
        loggedFileNumber := s.nextFileNumber }
  /-- a reader lets go of an old version -/
  | release (s : DbState K) (v : List (FileMetaData K)) :
      Step s { s with old := s.old.erase v }
  /-- a table that nobody lists is deleted (`DeleteObsoleteFileImpl`) -/
  | delete (s : DbState K) (number : Nat) (hobsolete : ∀ f, s.Lists f → f.number ≠ number) :
      Step s { s with cf := deleteL0file s.cf number }
  /-- the database is closed or crashes, and the manifest's version is recovered;
      file numbers go on from at least the logged one -/
  | recover (s : DbState K) (next : Nat) (hnext : s.loggedFileNumber ≤ next) :
      Step s
        { cf := recoverFromStorageInfo (reopen s.cf.pool) false s.current
          nextFileNumber := next
          loggedFileNumber := s.loggedFileNumber
          current := s.current }

/-- A new database: an empty module, and slots of less than 32 GB. -/
structure Initial (s : DbState K) : Prop where
  files : s.cf.dir.files = []
  slotSize : s.cf.pool.eachSize < 2 ^ 35
  picked : s.picked = []
  built : s.built = []
  current : s.current = []
  old : s.old = []
  logged : s.loggedFileNumber ≤ s.nextFileNumber

/-- The states of runs whose steps all meet the condition `C`. -/
inductive Reachable (C : DbState K → DbState K → Prop) : DbState K → Prop
  | initial (s : DbState K) (h : Initial s) : Reachable C s
  | step (s s' : DbState K) (hrun : Reachable C s) (hstep : Step s s') (hcond : C s s') :
      Reachable C s'

/-! ## The directory -/

variable {e : FileEntry K} {cf : NvmCf K}

section Directory

omit [UserKeyCodec K]

/-- The table has no pointers. -/
def Unlinked (e : FileEntry K) : Prop := ∀ m ∈ e.keysMeta, m.next = -1

theorem Unlinked.linkOK (h : Unlinked e) (o : FileEntry K) : LinkOK e o :=
  fun m hm => .inl (h m hm)

/-- The directory and the slots of its tables. -/
structure DirOK (cf : NvmCf K) : Prop where
  numbers : (cf.dir.files.map FileEntry.filenum).Nodup
  slots : (cf.dir.files.map FileEntry.sstableIndex).Nodup
  used : ∀ e ∈ cf.dir.files, cf.pool.Used e.sstableIndex
  sorted : ∀ e ∈ cf.dir.files, SortedKeys (e.keysMeta.map KeysMetadata.key)
  keysNum : ∀ e ∈ cf.dir.files, e.keysNum < 2 ^ 31
  links : ∀ e ∈ cf.dir.files, ∀ o ∈ cf.dir.files, e.keyPointFilenum = o.filenum → LinkOK e o

section

variable (h : DirOK cf) (he : e ∈ cf.dir.files)
include h he

/-- A number names one table. -/
theorem DirOK.eq_of_filenum {o : FileEntry K}
    (ho : o ∈ cf.dir.files) (heq : e.filenum = o.filenum) : e = o :=
  inj_on_of_nodup_map h.numbers he ho heq

/-- A slot holds one table. -/
theorem DirOK.eq_of_slot {o : FileEntry K}
    (ho : o ∈ cf.dir.files) (heq : e.sstableIndex = o.sstableIndex) : e = o :=
  inj_on_of_nodup_map h.slots he ho heq

theorem DirOK.findFile :
    cf.dir.findFile e.filenum = some e :=
  findFile_of_nodup h.numbers he

end

theorem DirOK.mem_deteleFile_iff (h : DirOK cf) (number : Nat) (o : FileEntry K) :
    o ∈ (cf.dir.deteleFile number).files ↔ o ∈ cf.dir.files ∧ o.filenum ≠ number :=
  SstableMeta.mem_deteleFile_iff h.numbers number o

/-- Some tables of a sound directory, with their slots, are a sound directory. -/
theorem DirOK.sub {cf' : NvmCf K} (h : DirOK cf) (hsub : ∀ e ∈ cf'.dir.files, e ∈ cf.dir.files)
    (hnodup : cf'.dir.files.Nodup) (hused : ∀ e ∈ cf'.dir.files, cf'.pool.Used e.sstableIndex) :
    DirOK cf' where
  numbers := hnodup.map_on
    (fun _ he _ ho heq => h.eq_of_filenum (hsub _ he) (hsub _ ho) heq)
  slots := hnodup.map_on
    (fun _ he _ ho heq => h.eq_of_slot (hsub _ he) (hsub _ ho) heq)
  used := hused
  sorted := fun e he => h.sorted e (hsub e he)
  keysNum := fun e he => h.keysNum e (hsub e he)
  links := fun e he o ho => h.links e (hsub e he) o (hsub o ho)

/-- A new table in a free slot, with sound pointers and a number that no table
    points to, keeps the directory sound. -/
theorem DirOK.cons {cf' : NvmCf K} (h : DirOK cf) (hfiles : cf'.dir.files = e :: cf.dir.files)
    (hfree : cf.pool.bitmap[e.sstableIndex]? = some false)
    (hused : ∀ i, cf'.pool.Used i ↔ i = e.sstableIndex ∨ cf.pool.Used i)
    (hnumber : ∀ o ∈ cf.dir.files, o.filenum ≠ e.filenum)
    (hsorted : SortedKeys (e.keysMeta.map KeysMetadata.key)) (hkeys : e.keysNum < 2 ^ 31)
    (hout : ∀ o ∈ e :: cf.dir.files, e.keyPointFilenum = o.filenum → LinkOK e o)
    (hin : ∀ o ∈ cf.dir.files, o.keyPointFilenum = e.filenum → LinkOK o e) : DirOK cf' := by
  obtain ⟨hnumbers, hslots⟩ := nodup_cons_entry h.numbers h.slots h.used hfree hnumber
  refine ⟨hfiles ▸ hnumbers, hfiles ▸ hslots, ?_, ?_, ?_, ?_⟩ <;> rw [hfiles]
  · intro o ho
    rw [hused]
    rcases mem_cons.mp ho with rfl | ho
    · exact .inl rfl
    · exact .inr (h.used o ho)
  · exact forall_mem_cons.mpr ⟨hsorted, h.sorted⟩
  · exact forall_mem_cons.mpr ⟨hkeys, h.keysNum⟩
  intro a ha o ho
  rcases mem_cons.mp ha with rfl | ha'
  · exact hout o ho
  rcases mem_cons.mp ho with rfl | ho'
  · exact hin a ha'
  · exact h.links a ha' o ho'

end Directory

/-! ## The table of a flush -/

section Flush

variable (cf : NvmCf K) (inp : FlushInput K) (index : Nat)

theorem sortedKeys_flushFile (hinp : FlushOK inp) :
    SortedKeys ((flushFile cf inp index).keysMeta.map KeysMetadata.key) := by
  rw [flushFile_keys]
  exact hinp.sorted.sublist ((fitting_sublist _ _ _).map Prod.fst)

/-- A slot of less than 32 GB holds less than `2 ^ 31` keys. -/
theorem keysNum_flushFile_lt (hslot : cf.pool.eachSize < 2 ^ 35) :
    (flushFile cf inp index).keysNum < 2 ^ 31 := by
  have htotal := totalSize_fitting_le cf.pool.eachSize inp.pairs 0 (Nat.zero_le _)
  have hlen : (kept cf inp).length * 16 ≤ totalSize (kept cf inp) := by
    have h := card_nsmul_le_sum ((kept cf inp).map recordSize) 16 (by
      intro x hx
      obtain ⟨p, -, rfl⟩ := mem_map.mp hx
      simp only [recordSize]
      omega)
    simpa [totalSize] using h
  rw [flushFile_keysNum]
  simp only [kept] at hlen ⊢
  omega

/-- The pointers of a finished table belong to the table that was the newest. -/
theorem flushFile_link (hinp : FlushOK inp) :
    Unlinked (flushFile cf inp index) ∨
    ∃ nf ∈ cf.dir.files, (flushFile cf inp index).keyPointFilenum = nf.filenum ∧
      LinkOK (flushFile cf inp index) nf := by
  have hkeys : (flushBuilder cf inp).keys = layout 0 (kept cf inp) := by rw [flushBuilder_eq]
  have hnext : ∀ m ∈ (flushBuilder cf inp).keys, m.next = -1 := by
    rw [hkeys]
    exact layout_next _ 0
  have hsorted : SortedKeys ((flushBuilder cf inp).keys.map KeysMetadata.key) := by
    rw [hkeys, layout_map_key]
    exact hinp.sorted.sublist ((fitting_sublist _ _ _).map Prod.fst)
  rcases updateKeyNext_link (reserved cf inp.number index).dir
    (f := { filenum := inp.number, sstableIndex := index, keysMeta := (flushBuilder cf inp).keys })
    hsorted hnext with heq | ⟨nf, hnf, hpoint, hlink⟩
  · refine .inl ?_
    rw [flushFile, Builder.finishFile, heq]
    exact hnext
  · refine .inr ⟨nf, ?_, hpoint, hlink⟩
    -- the table behind the new one is the head of the old directory
    have hhead : cf.dir.files.head? = some nf := by
      have : nextFile inp.number ({ filenum := inp.number, sstableIndex := index } ::
          cf.dir.files) = some nf := hnf
      rwa [nextFile, if_pos rfl] at this
    exact mem_of_mem_head? hhead

variable {cf inp} in
/-- The metadata of a finished table fits its encoding. -/
theorem metaFits_flushFile (hinp : FlushOK inp) (hslot : cf.pool.eachSize < 2 ^ 35)
    (hdir : DirOK cf) : ∀ m ∈ (flushFile cf inp index).keysMeta, MetaFits m := by
  intro m hm
  have hcore : m.core ∈ (layout 0 (kept cf inp)).map KeysMetadata.core := by
    rw [← (flushFile_spec cf inp index).2.2]
    exact mem_map_of_mem hm
  obtain ⟨m', hm', heq⟩ := mem_map.mp hcore
  have hkey : m'.key = m.key := congrArg (fun c => c.1) heq
  have hoffset : m'.offset = m.offset := congrArg (fun c => c.2.1) heq
  have hsize : m'.size = m.size := congrArg (fun c => c.2.2) heq
  obtain ⟨hbound, hlen⟩ := layout_bounds (kept cf inp) 0 m' hm'
  have htotal := totalSize_fitting_le cf.pool.eachSize inp.pairs 0 (Nat.zero_le _)
  rw [hkey, hsize] at hlen
  rw [hoffset, hsize] at hbound
  simp only [kept] at hbound
  have hsequence : m.key.sequence ≤ maxSequenceNumber := by
    have hmem : m.key ∈ (kept cf inp).map Prod.fst := by
      rw [← flushFile_keys cf inp index]
      exact mem_map_of_mem hm
    obtain ⟨p, hp, hpk⟩ := mem_map.mp hmem
    rw [← hpk]
    exact hinp.sequences p ((fitting_sublist _ _ _).subset hp)
  have hnext : -1 ≤ m.next ∧ m.next < 2 ^ 31 := by
    rcases flushFile_link cf inp index hinp with hun | ⟨nf, hnf, -, hlink⟩
    · rw [hun m hm]
      omega
    rcases hlink m hm with h | ⟨j, hj, hjlt, -, -⟩
    · omega
    · have := hdir.keysNum nf hnf
      omega
  exact ⟨hsequence, by omega, hnext.1, hnext.2, by omega, by omega⟩

end Flush

variable {f : FileMetaData K}

section

omit [LinearOrder K] [UserKeyCodec K]

theorem flushedFiles_of_fileSize {number : Nat} {res : FlushResult K}
    (h : res.fileMeta.fileSize = 0) : flushedFiles number res = [] := by
  rw [flushedFiles, if_neg]
  rintro ⟨-, hpos⟩
  omega

/-- The fields of a flushed file that the module reads. -/
theorem mem_flushedFiles {number : Nat} {res : FlushResult K} (h : f ∈ flushedFiles number res) :
    flushedFiles number res = [f] ∧ res.fileMeta.fileSize > 0 ∧ f.number = number ∧
    f.isNvmLevel0 = res.fileMeta.isNvmLevel0 ∧ f.firstKeyIndex = res.fileMeta.firstKeyIndex ∧
    f.nvmSstableIndex = res.fileMeta.nvmSstableIndex ∧ f.keysNum = res.fileMeta.keysNum ∧
    f.keyPointFilenum = res.fileMeta.keyPointFilenum ∧
    f.rawFileSize = res.fileMeta.rawFileSize ∧ f.fileSize = res.fileMeta.fileSize := by
  rw [flushedFiles] at h ⊢
  by_cases hok : res.status = .ok ∧ res.fileMeta.fileSize > 0
  · rw [if_pos hok] at h ⊢
    split at h
    · rw [mem_singleton] at h
      subst h
      exact ⟨rfl, hok.2, rfl, rfl, rfl, rfl, rfl, rfl, rfl, rfl⟩
    · exact nomatch h
  · rw [if_neg hok] at h
    exact nomatch h

/-- A flush has at most one file, of its own number. -/
theorem distinctNumbers_flushed {number : Nat} (res : FlushResult K)
    {built : List (FileMetaData K)} (h : DistinctNumbers built)
    (hne : ∀ g ∈ built, g.number ≠ number) :
    DistinctNumbers (flushedFiles number res ++ built) := by
  refine pairwise_append.mpr ⟨?_, h, ?_⟩
  · cases hfs : flushedFiles number res with
    | nil => exact .nil
    | cons f fs =>
    have hone := (mem_flushedFiles (hfs ▸ mem_cons_self)).1
    rw [← hfs, hone]
    exact pairwise_singleton _ _
  · intro f hf g hg
    rw [(mem_flushedFiles hf).2.2.1]
    exact (hne g hg).symm

end

/-- The file `f` of a flush that succeeded, and its table `e`. -/
structure Finished (cf : NvmCf K) (inp : FlushInput K) (res : FlushResult K) (e : FileEntry K)
    (f : FileMetaData K) : Prop where
  entry : e = flushFile cf inp e.sstableIndex
  room : (flushBuilder cf inp).offset + (encodeMetas e.keysMeta).length ≤ cf.pool.eachSize
  stored : Stored res.cf.pool.raw
    (cf.pool.getIndexPtr e.sstableIndex + (flushBuilder cf inp).offset) (encodeMetas e.keysMeta)
  number : f.number = inp.number
  nvm : f.isNvmLevel0 = true
  first : f.firstKeyIndex = 0
  slot : f.nvmSstableIndex = e.sstableIndex
  keysNum : f.keysNum = e.keysNum
  point : f.keyPointFilenum = e.keyPointFilenum
  raw : f.rawFileSize = (flushBuilder cf inp).offset
  size : f.fileSize = (flushBuilder cf inp).offset
  remaining : 0 < e.keysNum

/-- What a flush that got a slot adds to the module: an entry, empty or finished. -/
structure Added (cf : NvmCf K) (inp : FlushInput K) (res : FlushResult K) (e : FileEntry K) :
    Prop where
  files : res.cf.dir.files = e :: cf.dir.files
  number : e.filenum = inp.number
  free : cf.pool.bitmap[e.sstableIndex]? = some false
  used : ∀ i, res.cf.pool.Used i ↔ i = e.sstableIndex ∨ cf.pool.Used i
  num : res.cf.pool.num = cf.pool.num
  useNum : res.cf.pool.useNum = (cf.pool.useNum + 1) % 2 ^ 64
  slotSize : res.cf.pool.eachSize = cf.pool.eachSize
  raw : ∀ j, j ≠ e.sstableIndex → ∀ pos len, pos + len ≤ cf.pool.eachSize →
    readBytes res.cf.pool.raw (cf.pool.getIndexPtr j + pos) len
      = readBytes cf.pool.raw (cf.pool.getIndexPtr j + pos) len
  table : e.keysMeta = [] ∨ e = flushFile cf inp e.sstableIndex
  finished : ∀ f ∈ flushedFiles inp.number res, Finished cf inp res e f

/-- What it leaves behind if the flush is sound: sorted keys with sound pointers, and
    for a flush that succeeded a file that describes the entry. -/
structure NewTable (cf : NvmCf K) (inp : FlushInput K) (res : FlushResult K) (e : FileEntry K) :
    Prop extends Added cf inp res e where
  sorted : SortedKeys (e.keysMeta.map KeysMetadata.key)
  keysNum : e.keysNum < 2 ^ 31
  link : Unlinked e ∨ ∃ nf ∈ cf.dir.files, e.keyPointFilenum = nf.filenum ∧ LinkOK e nf
  flushed : ∀ f ∈ flushedFiles inp.number res, TableOK res.cf.pool f e

theorem Added.sortedKeys {inp : FlushInput K} {res : FlushResult K} (h : Added cf inp res e)
    (hinp : FlushOK inp) : SortedKeys (e.keysMeta.map KeysMetadata.key) := by
  rcases h.table with hnil | heq
  · rw [hnil]
    exact .nil
  · exact heq ▸ sortedKeys_flushFile cf inp _ hinp

/-- **ONE BUILD**: nothing happens to the module, or it has a new entry. -/
theorem build_adds {inp : FlushInput K} {res : FlushResult K}
    (hrun : buildInsertNvm cf inp = some res) :
    (res.cf = cf ∧ flushedFiles inp.number res = []) ∨ ∃ e, Added cf inp res e := by
  have hnone : res.fileMeta.fileSize = 0 → ∀ e, ∀ f ∈ flushedFiles inp.number res,
      Finished cf inp res e f := by
    intro hsize e f hf
    rw [flushedFiles_of_fileSize hsize] at hf
    exact nomatch hf
  cases buildInsertNvm_cases hrun with
  | idle hask hres => exact .inl ⟨by rw [hres], flushedFiles_of_fileSize (by rw [hres])⟩
  | noRoom hask hpairs hfull hres =>
    exact .inl ⟨by rw [hres], flushedFiles_of_fileSize (by rw [hres])⟩
  | abandoned index hask hpairs hfree hres =>
    have hfinished := hnone (by rw [hres])
    subst hres
    exact .inr ⟨{ filenum := inp.number, sstableIndex := index }, {
      files := rfl
      number := rfl
      free := hfree
      used := fun i => used_set_iff cf.pool hfree i _
      num := length_set
      useNum := rfl
      slotSize := rfl
      raw := fun _ _ _ _ _ => rfl
      table := .inl rfl
      finished := hfinished _ }⟩
  | metaTooLarge index hask hpairs hfree hres =>
    have hfinished := hnone (by rw [hres])
    obtain ⟨hnum, hindex, -⟩ := flushFile_spec cf inp index
    subst hres
    exact .inr ⟨flushFile cf inp index, {
      files := files_setFile_flushFile cf inp index
      number := hnum
      free := by rw [hindex]; exact hfree
      used := by rw [hindex]; exact fun i => used_set_iff cf.pool hfree i _
      num := length_set
      useNum := rfl
      slotSize := rfl
      raw := fun _ _ _ _ _ => rfl
      table := .inr (by rw [hindex])
      finished := hfinished _ }⟩
  | built index hask hpairs hfree hfit hcf hmeta hstatus =>
  obtain ⟨hnum, hindex, -⟩ := flushFile_spec cf inp index
  have hmax : (flushBuilder cf inp).maxSize = cf.pool.eachSize := by rw [flushBuilder_eq]
  rw [hmax] at hfit
  obtain ⟨-, hstored⟩ := Stored.append (readBytes_writeBytes cf.pool.raw
    (cf.pool.getIndexPtr (flushFile cf inp index).sstableIndex)
    ((flushBuilder cf inp).buf ++ encodeMetas (flushFile cf inp index).keysMeta))
  exact .inr ⟨flushFile cf inp index, {
    files := by rw [hcf]; exact files_setFile_flushFile cf inp index
    number := hnum
    free := by rw [hindex]; exact hfree
    used := by
      intro i
      rw [hcf, hindex]
      exact used_set_iff cf.pool hfree i ((cf.pool.useNum + 1) % 2 ^ 64)
    num := by rw [hcf]; exact length_set
    useNum := by rw [hcf]; rfl
    slotSize := by rw [hcf]; rfl
    raw := by
      intro j hj pos len hpos
      rw [hcf]
      refine readBytes_store_ne (reserved cf inp.number index).pool hj.symm ?_ hpos
      rw [length_append]
      exact hfit
    table := .inr (by rw [hindex])
    finished := by
      intro f hf
      obtain ⟨-, hpos, h1, h2, h3, h4, h5, h6, h7, h8⟩ := mem_flushedFiles hf
      rw [hmeta] at hpos h2 h3 h4 h5 h6 h7 h8
      refine ⟨by rw [hindex], hfit, hcf ▸ hstored, h1, h2, h3, h4, h5, h6, h7, h8, ?_⟩
      -- a file of positive size has a key
      rw [flushFile_keysNum]
      refine length_pos_iff.mpr ?_
      intro hnil
      rw [flushBuilder_eq, hnil] at hpos
      exact absurd hpos (by simp [Builder.offset]) }⟩

/-- With slots of less than 32 GB the new entry is sound. -/
theorem build_effect {inp : FlushInput K} {res : FlushResult K}
    (hrun : buildInsertNvm cf inp = some res) (hinp : FlushOK inp)
    (hslot : cf.pool.eachSize < 2 ^ 35) (hdir : DirOK cf) :
    (res.cf = cf ∧ flushedFiles inp.number res = []) ∨ ∃ e, NewTable cf inp res e := by
  refine (build_adds hrun).imp_right ?_
  rintro ⟨e, h⟩
  refine ⟨e, { h with
    sorted := h.sortedKeys hinp
    keysNum := ?_
    link := ?_
    flushed := ?_ }⟩
  · rcases h.table with hnil | heq
    · rw [FileEntry.keysNum, hnil]
      exact Nat.two_pow_pos 31
    · exact heq ▸ keysNum_flushFile_lt cf inp _ hslot
  · rcases h.table with hnil | heq
    · exact .inl fun m hm => absurd (hnil ▸ hm) not_mem_nil
    · exact heq ▸ flushFile_link cf inp _ hinp
  · intro f hf
    have hfin := h.finished f hf
    have hptr : res.cf.pool.getIndexPtr e.sstableIndex = cf.pool.getIndexPtr e.sstableIndex := by
      rw [Pool.getIndexPtr, Pool.getIndexPtr, h.slotSize]
    refine ⟨h.number.trans hfin.number.symm, hfin.slot.symm, hfin.keysNum.symm, hfin.point.symm, ?_,
      hfin.nvm, ?_, ?_, hfin.entry ▸ metaFits_flushFile _ hinp hslot hdir⟩
    · rw [hfin.first]
      exact hfin.remaining
    · rw [hfin.raw, h.slotSize]
      exact hfin.room
    · rw [hfin.raw, hptr]
      exact hfin.stored

/-! ## The invariant -/

section InUse

variable {next : Nat} {picked : List Nat} {n : Nat}

/-- A number in use stays so when a flush picks the next one, ... -/
theorem inUse_pick (h : n < next ∧ n ∉ picked) : n < next + 1 ∧ n ∉ next :: picked := by
  refine ⟨Nat.lt_succ_of_lt h.1, ?_⟩
  intro hmem
  rcases mem_cons.mp hmem with heq | hmem
  · exact absurd heq (Nat.ne_of_lt h.1)
  · exact h.2 hmem

/-- ... and when a flush uses its own up. -/
theorem inUse_erase (m : Nat) (h : n < next ∧ n ∉ picked) : n < next ∧ n ∉ picked.erase m :=
  ⟨h.1, fun hmem => h.2 (mem_of_mem_erase hmem)⟩

theorem picked_pick (h : ∀ n ∈ picked, n < next) (hnodup : picked.Nodup) :
    (∀ n ∈ next :: picked, n < next + 1) ∧ (next :: picked).Nodup :=
  ⟨forall_mem_cons.mpr ⟨Nat.lt_succ_self _, fun n hn => Nat.lt_succ_of_lt (h n hn)⟩,
    nodup_cons.mpr ⟨fun hmem => Nat.lt_irrefl _ (h _ hmem), hnodup⟩⟩

end InUse

/-- File numbers: a number handed out is not in the directory and nothing points
    to it, and the tables of the current version survive a restart. -/
structure NumbersOK (s : DbState K) : Prop where
  files : ∀ e ∈ s.cf.dir.files, e.filenum < s.nextFileNumber ∧ e.filenum ∉ s.picked
  points : ∀ e ∈ s.cf.dir.files, Unlinked e ∨
    (e.keyPointFilenum < s.nextFileNumber ∧ e.keyPointFilenum ∉ s.picked)
  picked : ∀ n ∈ s.picked, n < s.nextFileNumber
  nodup : s.picked.Nodup
  logged : s.loggedFileNumber ≤ s.nextFileNumber
  current : ∀ f ∈ s.current, ∀ e ∈ s.cf.dir.files, e.filenum = f.number →
    e.filenum < s.loggedFileNumber ∧ (Unlinked e ∨ e.keyPointFilenum < s.loggedFileNumber)

structure Inv (s : DbState K) : Prop where
  dir : DirOK s.cf
  slotSize : s.cf.pool.eachSize < 2 ^ 35
  numbers : NumbersOK s
  listed : ∀ f, s.Lists f → ∃ e ∈ s.cf.dir.files, TableOK s.cf.pool f e
  sorted : NewestFirst s.current
  distinct : ∀ f ∈ s.current, ∀ g ∈ s.current, f.number = g.number → f = g
  built : ∀ f ∈ s.built, ∀ g ∈ s.current, f.number ≠ g.number
  builtDistinct : DistinctNumbers s.built

variable {s : DbState K}

section

omit [LinearOrder K] [UserKeyCodec K]

theorem DbState.lists_current (h : f ∈ s.current) :
    s.Lists f := .inr ⟨s.current, .head _, h⟩

/-- After an edit a file is in the new version, or was listed before. -/
theorem DbState.lists_edit {built current : List (FileMetaData K)} (hbuilt : built ⊆ s.built)
    (h : DbState.Lists { s with
      built := built
      current := current
      old := s.current :: s.old
      loggedFileNumber := s.nextFileNumber } f) : f ∈ current ∨ s.Lists f := by
  rcases h with hf | ⟨v, hv, hf⟩
  · exact .inr (.inl (hbuilt hf))
  rcases mem_cons.mp hv with rfl | hv
  · exact .inl hf
  · exact .inr (.inr ⟨v, hv, hf⟩)

theorem DbState.lists_release [DecidableEq K] {v : List (FileMetaData K)}
    (h : DbState.Lists { s with old := s.old.erase v } f) : s.Lists f := by
  rcases h with hf | ⟨w, hw, hf⟩
  · exact .inl hf
  rcases mem_cons.mp hw with rfl | hw
  · exact DbState.lists_current hf
  · exact .inr ⟨w, .tail _ (mem_of_mem_erase hw), hf⟩

end

theorem Inv.initial (h : Initial s) : Inv s where
  dir := by constructor <;> simp [h.files]
  slotSize := h.slotSize
  numbers := by
    constructor <;> simp [h.files, h.picked, h.logged]
  listed := by
    rintro f (hf | ⟨v, hv, hf⟩)
    · rw [h.built] at hf
      exact nomatch hf
    · rw [DbState.live, h.old, h.current, mem_singleton] at hv
      rw [hv] at hf
      exact nomatch hf
  sorted := by rw [h.current]; exact .nil
  distinct := by simp [h.current]
  built := by simp [h.built]
  builtDistinct := by rw [h.built]; exact .nil

section Steps

variable {s : DbState K}

theorem Inv.pick (h : Inv s) : Inv { s with
    nextFileNumber := s.nextFileNumber + 1
    picked := s.nextFileNumber :: s.picked } :=
  { h with
    numbers :=
      { files := fun e he => inUse_pick (h.numbers.files e he)
        points := fun e he => (h.numbers.points e he).imp_right inUse_pick
        picked := (picked_pick h.numbers.picked h.numbers.nodup).1
        nodup := (picked_pick h.numbers.picked h.numbers.nodup).2
        logged := Nat.le_succ_of_le h.numbers.logged
        current := h.numbers.current } }

/-- A listed file keeps its table when the module changes elsewhere. -/
theorem Inv.listed_of_newTable (h : Inv s) {inp : FlushInput K} {res : FlushResult K}
    (hnew : NewTable s.cf inp res e) (hf : s.Lists f) :
    ∃ o ∈ res.cf.dir.files, TableOK res.cf.pool f o := by
  obtain ⟨o, ho, hok⟩ := h.listed f hf
  refine ⟨o, ?_, hok.of_pool hnew.slotSize (hnew.raw _ ?_)⟩
  · rw [hnew.files]
    exact .tail e ho
  · exact fun heq => not_used_of_free hnew.free (heq ▸ h.dir.used o ho)

theorem Inv.build (h : Inv s) (inp : FlushInput K) (res : FlushResult K)
    (hpicked : inp.number ∈ s.picked) (hinp : FlushOK inp)
    (hrun : buildInsertNvm s.cf inp = some res) : Inv { s with
      cf := res.cf
      picked := s.picked.erase inp.number
      built := flushedFiles inp.number res ++ s.built } := by
  rcases build_effect hrun hinp h.slotSize h.dir with ⟨hcf, hnone⟩ | ⟨e, hnew⟩
  · rw [hcf, hnone, nil_append]
    exact { h with
      numbers :=
        { h.numbers with
          files := fun o ho => inUse_erase _ (h.numbers.files o ho)
          points := fun o ho => (h.numbers.points o ho).imp_right (inUse_erase _)
          picked := fun n hn => h.numbers.picked n (mem_of_mem_erase hn)
          nodup := h.numbers.nodup.erase _ } }
  -- the number of the new table is in use nowhere else
  have hnumber : ∀ o ∈ s.cf.dir.files, o.filenum ≠ e.filenum := by
    intro o ho heq
    rw [hnew.number] at heq
    exact (h.numbers.files o ho).2 (heq ▸ hpicked)
  have hlisted : ∀ f, s.Lists f → f.number ≠ inp.number := by
    intro f hf heq
    obtain ⟨o, ho, hok⟩ := h.listed f hf
    exact hnumber o ho (by rw [hok.number, heq, hnew.number])
  have hdir : DirOK res.cf := by
    refine h.dir.cons hnew.files hnew.free hnew.used hnumber hnew.sorted hnew.keysNum ?_ ?_
    · intro o ho heq
      rcases hnew.link with hun | ⟨nf, hnf, hpoint, hlink⟩
      · exact hun.linkOK o
      rcases mem_cons.mp ho with rfl | ho
      · exact absurd (hpoint.symm.trans heq) (hnumber nf hnf)
      · rw [h.dir.eq_of_filenum ho hnf (heq.symm.trans hpoint)]
        exact hlink
    · intro o ho heq
      rcases h.numbers.points o ho with hun | ⟨-, hnot⟩
      · exact hun.linkOK e
      · rw [heq, hnew.number] at hnot
        exact absurd hpicked hnot
  exact { h with
    dir := hdir
    slotSize := by
      show res.cf.pool.eachSize < _
      rw [hnew.slotSize]
      exact h.slotSize
    numbers :=
      { files := by
          intro o ho
          rw [hnew.files] at ho
          rcases mem_cons.mp ho with rfl | ho
          · rw [hnew.number]
            exact ⟨h.numbers.picked _ hpicked, h.numbers.nodup.not_mem_erase⟩
          · exact inUse_erase _ (h.numbers.files o ho)
        points := by
          intro o ho
          rw [hnew.files] at ho
          rcases mem_cons.mp ho with rfl | ho
          · refine hnew.link.imp_right ?_
            rintro ⟨nf, hnf, hpoint, -⟩
            rw [hpoint]
            exact inUse_erase _ (h.numbers.files nf hnf)
          · exact (h.numbers.points o ho).imp_right (inUse_erase _)
        picked := fun n hn => h.numbers.picked n (mem_of_mem_erase hn)
        nodup := h.numbers.nodup.erase _
        logged := h.numbers.logged
        current := by
          intro f hf o ho heq
          rw [hnew.files] at ho
          rcases mem_cons.mp ho with rfl | ho
          · exact absurd (heq.symm.trans hnew.number) (hlisted f (DbState.lists_current hf))
          · exact h.numbers.current f hf o ho heq }
    listed := by
      rintro f (hf | hf)
      · rcases mem_append.mp hf with hf | hf
        · refine ⟨e, ?_, hnew.flushed f hf⟩
          show e ∈ res.cf.dir.files
          rw [hnew.files]
          exact .head _
        · exact h.listed_of_newTable hnew (.inl hf)
      · exact h.listed_of_newTable hnew (.inr hf)
    built := by
      intro f hf g hg
      rcases mem_append.mp hf with hf | hf
      · rw [(mem_flushedFiles hf).2.2.1]
        exact (hlisted g (DbState.lists_current hg)).symm
      · exact h.built f hf g hg
    builtDistinct := distinctNumbers_flushed res h.builtDistinct
      (fun g hg => hlisted g (.inl hg)) }

/-- An edit of the current version, whatever its kind: its new files describe
    known tables, and it adds a listed number only if it deletes it. -/
theorem Inv.edit (h : Inv s) {edit : VersionEdit K} (built' : List (FileMetaData K))
    (hnew : ∀ f ∈ edit.newFiles, ∃ e ∈ s.cf.dir.files, TableOK s.cf.pool f e)
    (hdist : DistinctNumbers edit.newFiles)
    (hdeleted : ∀ f ∈ edit.newFiles, ∀ b ∈ s.current, f.number = b.number →
      b.number ∈ edit.deletedFiles)
    (hsub : built'.Sublist s.built)
    (hbuilt : ∀ f ∈ built', ∀ g ∈ edit.newFiles, f.number ≠ g.number) :
    Inv { s with
      built := built'
      current := applyEdit s.current edit
      old := s.current :: s.old
      loggedFileNumber := s.nextFileNumber } := by
  have hnvm : ∀ f ∈ edit.newFiles, f.isNvmLevel0 = true := by
    intro f hf
    obtain ⟨e, -, hok⟩ := hnew f hf
    exact hok.nvm
  obtain ⟨hsorted, hmem⟩ := applyEdit_spec edit h.sorted hnvm hdist hdeleted
  exact { h with
    numbers :=
      { h.numbers with
        logged := le_rfl
        current := fun f _ e he _ =>
          ⟨(h.numbers.files e he).1, (h.numbers.points e he).imp_right And.left⟩ }
    listed := by
      intro f hf
      rcases DbState.lists_edit hsub.subset hf with hf | hf
      · rcases (hmem f).mp hf with hf | ⟨hf, -⟩
        · exact hnew f hf
        · exact h.listed f (DbState.lists_current hf)
      · exact h.listed f hf
    sorted := hsorted
    distinct := applyEdit_distinct hmem hdist hdeleted h.distinct
    built := by
      intro f hf g hg
      rcases (hmem g).mp hg with hg | ⟨hg, -⟩
      · exact hbuilt f hf g hg
      · exact h.built f (hsub.subset hf) g hg
    builtDistinct := h.builtDistinct.sublist hsub }

/-- Installing a flush adds its file. -/
theorem Inv.mem_install (h : Inv s) (hbuilt : f ∈ s.built) (g : FileMetaData K) :
    g ∈ applyEdit s.current { newFiles := [f] } ↔ g = f ∨ g ∈ s.current := by
  obtain ⟨e, -, hok⟩ := h.listed f (.inl hbuilt)
  exact (applyEdit_single h.sorted hok.nvm (h.built f hbuilt)).2 g

omit [LinearOrder K] [UserKeyCodec K] in
/-- A column edit adds the numbers that it deletes. -/
theorem ColumnEdit.deleted {l0 : List (FileMetaData K)} {edit : VersionEdit K}
    (h : ColumnEdit l0 edit) :
    ∀ f ∈ edit.newFiles, ∀ b ∈ l0, f.number = b.number → b.number ∈ edit.deletedFiles := by
  intro f' hf' b hb heq
  obtain ⟨f, -, hdel, hadv⟩ := h.advanced f' hf'
  rw [← heq, hadv.number]
  exact hdel

section

variable (h : Inv s)
include h

/-- A column edit puts the advanced files in the place of the deleted ones. -/
theorem Inv.mem_columnEdit {edit : VersionEdit K}
    (hedit : ColumnEdit s.current edit) (g : FileMetaData K) :
    g ∈ applyEdit s.current edit ↔
      g ∈ edit.newFiles ∨ (g ∈ s.current ∧ g.number ∉ edit.deletedFiles) := by
  refine (applyEdit_spec edit h.sorted ?_ hedit.distinct hedit.deleted).2 g
  intro f' hf'
  obtain ⟨f, hf, -, hadv⟩ := hedit.advanced f' hf'
  obtain ⟨e, -, hok⟩ := h.listed f (DbState.lists_current hf)
  rw [hadv.nvm, hok.nvm]

theorem Inv.install (f : FileMetaData K) (hbuilt : f ∈ s.built) :
    Inv { s with
      built := s.built.erase f
      current := applyEdit s.current { newFiles := [f] }
      old := s.current :: s.old
      loggedFileNumber := s.nextFileNumber } := by
  refine h.edit _ ?_ (pairwise_singleton _ _) ?_ erase_sublist ?_
  · intro g hg
    rw [mem_singleton.mp hg]
    exact h.listed f (.inl hbuilt)
  · intro g hg b hb heq
    rw [mem_singleton.mp hg] at heq
    exact absurd heq (h.built f hbuilt b hb)
  · intro g hg x hx
    rw [mem_singleton.mp hx]
    exact h.builtDistinct.ne_of_mem_erase hbuilt hg

theorem Inv.columnEdit (edit : VersionEdit K) (hedit : ColumnEdit s.current edit) :
    Inv { s with
      current := applyEdit s.current edit
      old := s.current :: s.old
      loggedFileNumber := s.nextFileNumber } := by
  refine h.edit s.built ?_ hedit.distinct hedit.deleted (.refl _) ?_
  · intro f' hf'
    obtain ⟨f, hf, -, hadv⟩ := hedit.advanced f' hf'
    obtain ⟨e, he, hok⟩ := h.listed f (DbState.lists_current hf)
    refine ⟨e, he, ⟨hok.number.trans hadv.number.symm, hok.slot.trans hadv.slot.symm,
      hok.keysNum.trans hadv.keysNum.symm, hok.point.trans hadv.point.symm, ?_,
      hadv.nvm.trans hok.nvm, ?_, ?_, hok.fits⟩⟩
    · rw [hok.keysNum, ← hadv.keysNum]
      exact hadv.remaining
    · rw [hadv.raw]
      exact hok.room
    · rw [hadv.raw]
      exact hok.stored
  · intro g hg f' hf' heq
    obtain ⟨f, hf, -, hadv⟩ := hedit.advanced f' hf'
    exact h.built g hg f hf (heq.trans hadv.number)

theorem Inv.release (v : List (FileMetaData K)) : Inv { s with old := s.old.erase v } :=
  { h with
    numbers := { h.numbers with }
    listed := fun f hf => h.listed f (DbState.lists_release hf) }

theorem Inv.delete (number : Nat) (hobsolete : ∀ f, s.Lists f → f.number ≠ number) :
    Inv { s with cf := deleteL0file s.cf number } := by
  rw [deleteL0file]
  cases hfind : s.cf.dir.findFile number with
  | none => exact h
  | some e =>
  have he : e ∈ s.cf.dir.files := mem_of_find?_eq_some hfind
  have henum : e.filenum = number := by simpa using find?_some hfind
  have hmem := h.dir.mem_deteleFile_iff number
  exact { h with
    dir := by
      refine h.dir.sub (fun o ho => ((hmem o).mp ho).1) ?_ ?_
      · exact (List.Nodup.of_map _ h.dir.numbers).sublist eraseP_sublist
      intro o ho
      obtain ⟨ho, hne⟩ := (hmem o).mp ho
      refine (used_deleteSstable_iff s.cf.pool (h.dir.used e he) _).mpr
        ⟨?_, h.dir.used o ho⟩
      intro heq
      exact hne (h.dir.eq_of_slot ho he heq ▸ henum)
    numbers :=
      { h.numbers with
        files := fun o ho => h.numbers.files o ((hmem o).mp ho).1
        points := fun o ho => h.numbers.points o ((hmem o).mp ho).1
        current := fun f hf o ho => h.numbers.current f hf o ((hmem o).mp ho).1 }
    listed := by
      intro f hf
      obtain ⟨o, ho, hok⟩ := h.listed f hf
      refine ⟨o, (hmem o).mpr ⟨ho, ?_⟩, hok.of_pool rfl (fun _ _ _ => rfl)⟩
      rw [hok.number]
      exact hobsolete f hf }

/-- A listed file is found in the directory. -/
theorem Inv.entryOf_spec (hf : s.Lists f) :
    entryOf s.cf.dir f ∈ s.cf.dir.files ∧ TableOK s.cf.pool f (entryOf s.cf.dir f) := by
  obtain ⟨e, he, hok⟩ := h.listed f hf
  have heq : entryOf s.cf.dir f = e := by
    rw [entryOf, ← hok.number, h.dir.findFile he]
    rfl
  rw [heq]
  exact ⟨he, hok⟩

/-- A restart rebuilds the tables of the current version, in its order. -/
theorem Inv.recovered : (∀ e ∈ s.current.map (entryOf s.cf.dir), e ∈ s.cf.dir.files) ∧
    (s.current.map (entryOf s.cf.dir)).Nodup ∧
    (recoverFromStorageInfo (reopen s.cf.pool) false s.current).dir.files
      = s.current.map (entryOf s.cf.dir) ∧
    (recoverFromStorageInfo (reopen s.cf.pool) false s.current).pool.raw = s.cf.pool.raw ∧
    (recoverFromStorageInfo (reopen s.cf.pool) false s.current).pool.eachSize
      = s.cf.pool.eachSize ∧
    ∀ e ∈ s.current.map (entryOf s.cf.dir),
      (recoverFromStorageInfo (reopen s.cf.pool) false s.current).pool.Used e.sstableIndex := by
  have hmem : ∀ e ∈ s.current.map (entryOf s.cf.dir), e ∈ s.cf.dir.files := by
    intro e he
    obtain ⟨f, hf, rfl⟩ := mem_map.mp he
    exact (h.entryOf_spec (DbState.lists_current hf)).1
  have hok : List.Forall₂ (TableOK s.cf.pool) s.current (s.current.map (entryOf s.cf.dir)) := by
    rw [List.forall₂_map_right_iff, List.forall₂_same]
    intro f hf
    exact (h.entryOf_spec (DbState.lists_current hf)).2
  have hnodup : (s.current.map (entryOf s.cf.dir)).Nodup := by
    refine List.Nodup.map_on ?_ (h.sorted.imp (fun hlt => mt (congrArg _) (ne_of_gt hlt)))
    intro f hf g hg heq
    have hnum := congrArg FileEntry.filenum heq
    rw [entryOf_filenum, entryOf_filenum] at hnum
    exact h.distinct f hf g hg hnum
  have hfold : recoverFromStorageInfo (reopen s.cf.pool) false s.current
      = s.current.foldr recoverFile (reopen s.cf.pool) := by
    rw [recoverFromStorageInfo]
    split
    · rename_i hnil
      rw [hnil]
      rfl
    · rfl
  obtain ⟨hfiles, hraw, hsize, -, hused⟩ := recoverFiles_spec s.cf.pool hok
    (hnodup.map_on (fun _ he _ ho heq => h.dir.eq_of_filenum (hmem _ he) (hmem _ ho) heq))
    (hnodup.map_on (fun _ he _ ho heq => h.dir.eq_of_slot (hmem _ he) (hmem _ ho) heq))
    (fun e he => (List.getElem?_eq_some_iff.mp (h.dir.used e (hmem e he))).1)
  rw [hfold]
  exact ⟨hmem, hnodup, hfiles, hraw, hsize, fun e he => (hused _).mpr ⟨e, he, rfl⟩⟩

theorem Inv.recover (next : Nat) (hnext : s.loggedFileNumber ≤ next) :
    Inv { cf := recoverFromStorageInfo (reopen s.cf.pool) false s.current
          nextFileNumber := next
          loggedFileNumber := s.loggedFileNumber
          current := s.current } := by
  obtain ⟨hmem, hnodup, hfiles, hraw, hsize, hused⟩ := h.recovered
  generalize recoverFromStorageInfo (reopen s.cf.pool) false s.current = cf at *
  have hlogged : ∀ e ∈ cf.dir.files, e.filenum < s.loggedFileNumber ∧
      (Unlinked e ∨ e.keyPointFilenum < s.loggedFileNumber) := by
    intro e he
    rw [hfiles] at he
    obtain ⟨f, hf, rfl⟩ := mem_map.mp he
    exact h.numbers.current f hf _ (hmem _ he) (entryOf_filenum _ f)
  exact { h with
    dir := h.dir.sub (hfiles ▸ hmem) (hfiles ▸ hnodup) (hfiles ▸ hused)
    slotSize := by
      show cf.pool.eachSize < _
      rw [hsize]
      exact h.slotSize
    numbers :=
      { files := fun e he => ⟨lt_of_lt_of_le (hlogged e he).1 hnext, not_mem_nil⟩
        points := fun e he => (hlogged e he).2.imp_right
          (fun hp => ⟨hp.trans_le hnext, not_mem_nil⟩)
        picked := nofun
        nodup := nodup_nil
        logged := hnext
        current := fun f _ e he _ => hlogged e he }
    listed := by
      rintro f (hf | ⟨v, hv, hf⟩)
      · exact nomatch hf
      rw [mem_singleton.mp hv] at hf
      have hspec := h.entryOf_spec (DbState.lists_current hf)
      refine ⟨entryOf s.cf.dir f, ?_, hspec.2.of_pool hsize (fun _ _ _ => by rw [hraw])⟩
      show _ ∈ cf.dir.files
      rw [hfiles]
      exact mem_map_of_mem hf
    built := nofun
    builtDistinct := .nil }

/-- **ONE STEP** keeps the invariant. -/
theorem Inv.step {s' : DbState K} (hstep : Step s s') : Inv s' := by
  cases hstep with
  | pick => exact h.pick
  | build inp res hpicked hinp hrun => exact h.build inp res hpicked hinp hrun
  | install f hbuilt => exact h.install f hbuilt
  | columnEdit edit hedit => exact h.columnEdit edit hedit
  | release v => exact h.release v
  | delete number hobsolete => exact h.delete number hobsolete
  | recover next hnext => exact h.recover next hnext

end

end Steps

/-- **EVERY RUN** keeps the invariant, under any condition on its steps. -/
theorem inv_reachable {C : DbState K → DbState K → Prop} (h : Reachable C s) : Inv s := by
  induction h with
  | initial s h => exact Inv.initial h
  | step s s' _ hstep _ ih => exact ih.step hstep

end NvmRun
