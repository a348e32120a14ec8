import MatrixKV.NvmRunGetProofs
import MatrixKV.VersionBatchProofs

/-! # Flush jobs side by side — NvmFlushJob and TryInstallMemtableFlushResults

    A flush job picks the oldest immutable memtable and a file number under the
    mutex, takes its room and builds its table without it, and marks its memtable
    as flushed under the mutex again.  Whoever holds the commit writes the edits of
    the oldest flushed memtables, in the order of the memtables.

    * `finishRoom` is `BuildInsertNvm` behind `AddL0TableRoom`
      (`buildInsertNvm_eq_finishRoom`).
    * `Inv.step`: level 0 stays sorted by sequence number, whatever the jobs do.
    * `Ordered.step`: the directory stays in the order of level 0 as long as no job
      takes its room while a newer memtable has one.
    * `Crossed.step`: once a job did, its table and the newer one are never listed
      in the order of the directory. -/

namespace ConcurrentFlush

open List DbFormat SstableMeta L0TableBuilder NvmFlush VersionBuilder VersionBatch
  NvmRun NvmRunGet

variable {K : Type}

/-! ## The two halves of BuildInsertNvm -/

section Build

/-- The room is only asked for if there is something to flush. -/
def requestRoom (cf : NvmCf K) (inp : FlushInput K) : NvmCf K × Option (FileEntry K) :=
  if inp.valid = true ∨ inp.tombstones ≠ [] then addL0TableRoom cf inp.number else (cf, none)

/-- The numbers of the directory. -/
def tableNumbers (cf : NvmCf K) : List Nat := cf.dir.files.map FileEntry.filenum

theorem requestRoom_spec (cf : NvmCf K) (inp : FlushInput K) :
    ((requestRoom cf inp).2 = none ∧ tableNumbers (requestRoom cf inp).1 = tableNumbers cf) ∨
    (∃ e, (requestRoom cf inp).2 = some e ∧
      tableNumbers (requestRoom cf inp).1 = inp.number :: tableNumbers cf) := by
  rw [requestRoom]
  split_ifs with hask
  · rcases addL0TableRoom_spec cf inp.number with ⟨hroom, -⟩ | ⟨index, -, hroom⟩
    · rw [hroom]
      exact .inl ⟨rfl, rfl⟩
    · rw [hroom]
      exact .inr ⟨_, rfl, rfl⟩
  · exact .inl ⟨rfl, rfl⟩

theorem requestRoom_sublist (cf : NvmCf K) (inp : FlushInput K) :
    (tableNumbers cf).Sublist (tableNumbers (requestRoom cf inp).1) := by
  rcases requestRoom_spec cf inp with ⟨-, heq⟩ | ⟨e, -, heq⟩
  · exact heq.symm ▸ .refl _
  · exact heq.symm ▸ sublist_cons_self _ _

/-- The sequence numbers of a memtable's entries and range tombstones. -/
def sequences (inp : FlushInput K) : List Nat :=
  inp.pairs.map (fun p => p.1.sequence) ++ inp.tombstones.map RangeTombstone.seq

theorem foldl_max_mem (l : List Nat) (a) : l.foldl max a = a ∨ l.foldl max a ∈ l := by
  induction l generalizing a with
  | nil => exact .inl rfl
  | cons x l ih =>
  rw [foldl_cons]
  rcases ih (max a x) with h | h
  · rw [h]
    rcases max_choice a x with hmax | hmax
    · exact .inl hmax
    · rw [hmax]
      exact .inr (.head _)
  · exact .inr (.tail x h)

variable [LinearOrder K]

theorem flushBounds_largestSeqno (inp : FlushInput K) :
    (flushBounds inp).largestSeqno = (sequences inp).foldl max 0 := by
  have hpairs : ∀ (ps : List (Pair K)) (b : Boundaries K),
      (ps.foldl (fun b p => b.update p.1) b).largestSeqno
        = (ps.map (fun p => p.1.sequence)).foldl max b.largestSeqno := by
    intro ps
    induction ps with
    | nil => exact fun b => rfl
    | cons p ps ih => exact fun b => ih (b.update p.1)
  have htombs : ∀ (ts : List (RangeTombstone K)) (b : Boundaries K),
      (ts.foldl Boundaries.updateForRange b).largestSeqno
        = (ts.map RangeTombstone.seq).foldl max b.largestSeqno := by
    intro ts
    induction ts with
    | nil => exact fun b => rfl
    | cons t ts ih => exact fun b => ih (b.updateForRange t)
  rw [flushBounds, htombs, hpairs, sequences, foldl_append]

/-- The largest sequence number of a table is one of its memtable's. -/
theorem largestSeqno_mem (inp : FlushInput K) (h : inp.pairs ≠ []) :
    (flushBounds inp).largestSeqno ∈ sequences inp := by
  rw [flushBounds_largestSeqno]
  cases hseq : sequences inp with
  | nil =>
    rw [sequences, append_eq_nil_iff, map_eq_nil_iff] at hseq
    exact absurd hseq.1 h
  | cons x l =>
  rw [foldl_cons, Nat.zero_max]
  rcases foldl_max_mem l x with hx | hx
  · rw [hx]
    exact .head _
  · exact .tail x hx

variable [UserKeyCodec K]

/-- The rest, with the directory as the other jobs have left it meanwhile; `none`
    stands for the use of the null pointer. -/
def finishRoom (cf : NvmCf K) (inp : FlushInput K) (room : Option (FileEntry K)) :
    Option (FlushResult K) :=
  let b := flushBuilder cf inp
  if inp.pairs = [] then
    some ⟨cf, { bounds := flushBounds inp }, withIterStatus .ok inp.iterStatus⟩
  else
    match room with
    | none => none
    | some file =>
      match b.finish cf.dir cf.pool file with
      | (dir, pool, none) =>
        some ⟨⟨dir, pool⟩, { bounds := flushBounds inp }, withIterStatus .ioError inp.iterStatus⟩
      | (dir, pool, some metaSize) =>
        let f := b.finishFile cf.dir file
        some ⟨⟨dir, pool⟩,
          { bounds := flushBounds inp
            fileSize := b.offset
            isNvmLevel0 := true
            firstKeyIndex := 0
            nvmSstableIndex := f.sstableIndex
            keysNum := f.keysNum
            keyPointFilenum := f.keyPointFilenum
            rawFileSize := b.offset
            nvmMetaSize := metaSize }, withIterStatus .ok inp.iterStatus⟩

/-- A job that nobody interrupts is `BuildInsertNvm`. -/
theorem buildInsertNvm_eq_finishRoom (cf : NvmCf K) (inp : FlushInput K)
    (hask : inp.valid = true ∨ inp.tombstones ≠ []) :
    buildInsertNvm cf inp = finishRoom (requestRoom cf inp).1 inp (requestRoom cf inp).2 := by
  rw [requestRoom, if_pos hask, buildInsertNvm, if_pos hask]
  rcases addL0TableRoom_spec cf inp.number with ⟨hroom, -⟩ | ⟨index, -, hroom⟩
  · rw [hroom]
    rfl
  · rw [hroom]
    rfl

/-- **WHAT A JOB BUILDS**: the numbers of the directory stay, and a file that goes
    into the edit has the job's number and room, and a sequence number of the
    memtable as its largest. -/
theorem finishRoom_spec {cf : NvmCf K} {inp : FlushInput K} {room : Option (FileEntry K)}
    {res : FlushResult K} (h : finishRoom cf inp room = some res) :
    tableNumbers res.cf = tableNumbers cf ∧
    ∀ f ∈ flushedFiles inp.number res, flushedFiles inp.number res = [f] ∧ room ≠ none ∧
      f.number = inp.number ∧ f.isNvmLevel0 = true ∧ f.largestSeqno ∈ sequences inp := by
  simp only [finishRoom] at h
  split_ifs at h with hpairs
  · rw [Option.some.injEq] at h
    subst h
    refine ⟨rfl, ?_⟩
    rw [flushedFiles_of_fileSize rfl]
    exact forall_mem_nil _
  cases room with
  | none => cases h
  | some file =>
  simp only [Builder.finish] at h
  split at h
  · rename_i dir pool heq
    split at heq
    · rw [Prod.mk.injEq, Prod.mk.injEq] at heq
      rw [Option.some.injEq] at h
      subst h
      refine ⟨?_, ?_⟩
      · rw [tableNumbers, ← heq.1]
        exact map_filenum_replaceFile _ _
      · rw [flushedFiles_of_fileSize rfl]
        exact forall_mem_nil _
    · cases heq
  rename_i dir pool metaSize heq
  split at heq
  · cases heq
  rw [Prod.mk.injEq, Prod.mk.injEq] at heq
  rw [Option.some.injEq] at h
  subst h
  refine ⟨?_, ?_⟩
  · rw [tableNumbers, ← heq.1]
    exact map_filenum_replaceFile _ _
  intro f hf
  have hmem := mem_flushedFiles hf
  refine ⟨hmem.1, Option.some_ne_none _, hmem.2.2.1, hmem.2.2.2.1, ?_⟩
  have hlargest : f.largestSeqno = (flushBounds inp).largestSeqno := by
    rw [flushedFiles] at hf
    split at hf
    · split at hf
      · rw [mem_singleton.mp hf]
      · cases hf
    · cases hf
  rw [hlargest]
  exact largestSeqno_mem inp hpairs

end Build

/-! ## Jobs -/

/-- How far the flush of a memtable has come. -/
inductive Phase (K : Type)
  /-- no flush has started, or the last one failed -/
  | waiting
  | picked (number : Nat)
  /-- behind `AddL0TableRoom` -/
  | roomed (number : Nat) (room : Option (FileEntry K))
  /-- `BuildInsertNvm` returned; the files of the edit -/
  | built (number : Nat) (room : Option (FileEntry K)) (files : List (FileMetaData K))
      (status : Status)
  /-- `flush_completed_` -/
  | completed (number : Nat) (room : Option (FileEntry K)) (files : List (FileMetaData K))

def Phase.numbers : Phase K → List Nat
  | .waiting => []
  | .picked n => [n]
  | .roomed n _ => [n]
  | .built n _ _ _ => [n]
  | .completed n _ _ => [n]

/-- The number of a job that has its room. -/
def Phase.holds : Phase K → List Nat
  | .roomed n (some _) => [n]
  | .built n (some _) _ _ => [n]
  | .completed n (some _) _ => [n]
  | _ => []

def Phase.files : Phase K → List (FileMetaData K)
  | .built _ _ fs _ => fs
  | .completed _ _ fs => fs
  | _ => []

/-- An immutable memtable. -/
structure MemTable (K : Type) where
  content : FlushInput K
  phase : Phase K := .waiting

/-- What the job of a memtable flushes under its number. -/
def MemTable.input (m : MemTable K) (number : Nat) : FlushInput K :=
  { m.content with number := number }

def MemTable.isCompleted (m : MemTable K) : Bool :=
  match m.phase with
  | .completed _ _ _ => true
  | _ => false

structure State (K : Type) where
  cf : NvmCf K
  nextFileNumber : Nat
  /-- newest first -/
  memlist : List (MemTable K) := []
  /-- the size of the batch whose edits are being written (`commit_in_progress_`) -/
  committing : Option Nat := none
  /-- level 0 of the current version -/
  l0 : List (FileMetaData K) := []

/-- The batch of the next round of `TryInstallMemtableFlushResults`: the completed
    memtables from the oldest on. -/
def nextBatch (memlist : List (MemTable K)) : Option Nat :=
  let count := (memlist.reverse.takeWhile MemTable.isCompleted).length
  if count = 0 then none else some count

def MemTable.edit (m : MemTable K) : VersionEdit K := { newFiles := m.phase.files }

/-- A job takes the memtable `m` and a file number. -/
def pickState (s : State K) (newer : List (MemTable K)) (m : MemTable K)
    (older : List (MemTable K)) : State K :=
  { s with
    nextFileNumber := s.nextFileNumber + 1
    memlist := newer ++ { m with phase := .picked s.nextFileNumber } :: older }

/-- The job of `m` takes its room. -/
def roomState (s : State K) (newer : List (MemTable K)) (m : MemTable K)
    (older : List (MemTable K)) (number : Nat) : State K :=
  let room := requestRoom s.cf (m.input number)
  { s with
    cf := room.1
    memlist := newer ++ { m with phase := .roomed number room.2 } :: older }

section Steps

variable [LinearOrder K] [UserKeyCodec K]

inductive Step : State K → State K → Prop
  /-- a full memtable becomes immutable; its entries are newer than all others -/
  | switch (s : State K) (m : MemTable K) (hphase : m.phase = .waiting)
      (hnewer : ∀ x ∈ sequences m.content,
        (∀ o ∈ s.memlist, ∀ y ∈ sequences o.content, y < x) ∧ ∀ f ∈ s.l0, f.largestSeqno < x) :
      Step s { s with memlist := m :: s.memlist }
  /-- `PickMemTable`: the oldest memtable without a flush, and a file number -/
  | pick (s : State K) (newer older : List (MemTable K)) (m : MemTable K)
      (hlist : s.memlist = newer ++ m :: older) (hphase : m.phase = .waiting)
      (holdest : ∀ o ∈ older, o.phase ≠ .waiting) :
      Step s (pickState s newer m older)
  /-- `AddL0TableRoom`, without the mutex -/
  | room (s : State K) (newer older : List (MemTable K)) (m : MemTable K) (number : Nat)
      (hlist : s.memlist = newer ++ m :: older) (hphase : m.phase = .picked number) :
      Step s (roomState s newer m older number)
  /-- the table is built and finished, without the mutex -/
  | finish (s : State K) (newer older : List (MemTable K)) (m : MemTable K) (number : Nat)
      (room : Option (FileEntry K)) (res : FlushResult K)
      (hlist : s.memlist = newer ++ m :: older) (hphase : m.phase = .roomed number room)
      (hrun : finishRoom s.cf (m.input number) room = some res) :
      Step s { s with
        cf := res.cf
        memlist := newer ++
          { m with phase := .built number room (flushedFiles number res) res.status } :: older }
  /-- `RollbackMemtableFlush`: the flush failed, or the database shuts down -/
  | rollback (s : State K) (newer older : List (MemTable K)) (m : MemTable K) (number : Nat)
      (room : Option (FileEntry K)) (files : List (FileMetaData K)) (status : Status)
      (hlist : s.memlist = newer ++ m :: older)
      (hphase : m.phase = .built number room files status) :
      Step s { s with memlist := newer ++ { m with phase := .waiting } :: older }
  /-- the flush is done; its job commits unless another one is at it -/
  | complete (s : State K) (newer older : List (MemTable K)) (m : MemTable K) (number : Nat)
      (room : Option (FileEntry K)) (files : List (FileMetaData K))
      (hlist : s.memlist = newer ++ m :: older)
      (hphase : m.phase = .built number room files .ok) :
      Step s { s with
        memlist := newer ++ { m with phase := .completed number room files } :: older
        committing :=
          match s.committing with
          | some k => some k
          | none => nextBatch (newer ++ { m with phase := .completed number room files } :: older) }
  /-- `LogAndApply` of the batch succeeds, and the next round begins -/
  | install (s : State K) (newer batch : List (MemTable K))
      (hlist : s.memlist = newer ++ batch) (hbatch : s.committing = some batch.length) :
      Step s { s with
        l0 := applyEdits s.l0 (batch.reverse.map MemTable.edit)
        memlist := newer
        committing := nextBatch newer }
  /-- `LogAndApply` of the batch fails: its memtables are to be flushed again -/
  | installFailed (s : State K) (newer batch : List (MemTable K))
      (hlist : s.memlist = newer ++ batch) (hbatch : s.committing = some batch.length) :
      Step s { s with
        memlist := newer ++ batch.map (fun m => { m with phase := .waiting })
        committing := none }

end Steps

/-- An open database: the tables of level 0 stand in the directory, in order. -/
structure Initial (s : State K) : Prop where
  memlist : s.memlist = []
  committing : s.committing = none
  level : LevelOK s.l0
  ordered : InDirOrder s.cf.dir s.l0
  tables : (tableNumbers s.cf).Nodup
  below : ∀ n ∈ tableNumbers s.cf, n < s.nextFileNumber

/-! ## What the jobs keep -/

/-- The edit of a memtable has at most one file, of the job's number. -/
def FilesOK (m : MemTable K) : Prop :=
  ∀ f ∈ m.phase.files, m.phase.files = [f] ∧ f.number ∈ m.phase.holds ∧ f.isNvmLevel0 = true ∧
    f.largestSeqno ∈ sequences m.content

/-- The numbers in use: of the running jobs, and of level 0. -/
def State.numbers (s : State K) : List Nat :=
  s.memlist.flatMap (fun m => m.phase.numbers) ++ s.l0.map FileMetaData.number

def NewestContents (ms : List (MemTable K)) : Prop :=
  (ms.map MemTable.content).Pairwise (fun a b => ∀ x ∈ sequences a, ∀ y ∈ sequences b, y < x)

/-- The files of a level are older than a memtable's entries. -/
def OlderFiles (l0 : List (FileMetaData K)) (contents : List (FlushInput K)) : Prop :=
  ∀ f ∈ l0, ∀ c ∈ contents, ∀ x ∈ sequences c, f.largestSeqno < x

structure Inv (s : State K) : Prop where
  level : LevelOK s.l0
  nodup : s.numbers.Nodup
  below : ∀ n ∈ s.numbers, n < s.nextFileNumber
  tables : (tableNumbers s.cf).Nodup
  tablesBelow : ∀ n ∈ tableNumbers s.cf, n < s.nextFileNumber
  unroomed : ∀ m ∈ s.memlist, ∀ n, m.phase = .picked n → n ∉ tableNumbers s.cf
  roomed : ∀ m ∈ s.memlist, ∀ n ∈ m.phase.holds, n ∈ tableNumbers s.cf
  newest : NewestContents s.memlist
  older : OlderFiles s.l0 (s.memlist.map MemTable.content)
  files : ∀ m ∈ s.memlist, FilesOK m

/-- The jobs' rooms and level 0 stand in the directory in the order of the
    memtables. -/
def Ordered (s : State K) : Prop :=
  (s.memlist.flatMap (fun m => m.phase.holds) ++ s.l0.map FileMetaData.number).Sublist
    (tableNumbers s.cf)

theorem holds_sublist_numbers (p : Phase K) : p.holds.Sublist p.numbers := by
  cases p with
  | waiting => exact .refl _
  | picked n => exact nil_sublist _
  | roomed n room =>
    cases room with
    | none => exact nil_sublist _
    | some e => exact .refl _
  | built n room fs status =>
    cases room with
    | none => exact nil_sublist _
    | some e => exact .refl _
  | completed n room fs =>
  cases room with
  | none => exact nil_sublist _
  | some e => exact .refl _

variable {m : MemTable K}

theorem map_number_files_sublist (h : FilesOK m) :
    (m.phase.files.map FileMetaData.number).Sublist m.phase.holds := by
  cases hf : m.phase.files with
  | nil => exact nil_sublist _
  | cons f fs =>
  obtain ⟨hsingle, hnum, -, -⟩ := h f (by rw [hf]; exact .head _)
  rw [hf] at hsingle
  rw [hsingle]
  exact singleton_sublist.mpr hnum

theorem flatMap_sublist {α β γ : Type} {f : α → List γ} {g : β → List γ} :
    ∀ {as : List α} {bs : List β}, List.Forall₂ (fun a b => (f a).Sublist (g b)) as bs →
      (as.flatMap f).Sublist (bs.flatMap g) := by
  intro as bs h
  induction h with
  | nil => exact .refl _
  | cons hab _ ih =>
    rw [flatMap_cons, flatMap_cons]
    exact hab.append ih

/-! ## Steps that give numbers back at most -/

variable {batch newer older : List (MemTable K)} {number : Nat}

section Run

variable {s s' : State K}

/-- A memtable whose flush went on without a new number or room, or was given up. -/
structure Relaxes (m' m : MemTable K) : Prop where
  content : m'.content = m.content
  numbers : m'.phase.numbers.Sublist m.phase.numbers
  holds : m'.phase.holds.Sublist m.phase.holds
  picked : ∀ n, m'.phase = .picked n → m.phase = .picked n
  files : FilesOK m → FilesOK m'

theorem Relaxes.refl (m : MemTable K) : Relaxes m m :=
  ⟨rfl, .refl _, .refl _, fun _ h => h, fun h => h⟩

theorem forall₂_relaxes_refl (ms : List (MemTable K)) : List.Forall₂ Relaxes ms ms :=
  List.forall₂_same.mpr (fun m _ => Relaxes.refl m)

theorem forall₂_swap {m' : MemTable K} (h : Relaxes m' m) :
    List.Forall₂ Relaxes (newer ++ m' :: older) (newer ++ m :: older) :=
  rel_append (forall₂_relaxes_refl newer) (.cons h (forall₂_relaxes_refl older))

theorem relaxes_waiting (m : MemTable K) : Relaxes { m with phase := .waiting } m :=
  ⟨rfl, nil_sublist _, nil_sublist _, nofun, nofun⟩

theorem relaxes_completed {room : Option (FileEntry K)} {files : List (FileMetaData K)}
    {status : Status} (hphase : m.phase = .built number room files status) :
    Relaxes { m with phase := .completed number room files } m := by
  have hholds : (Phase.completed number room files : Phase K).holds = m.phase.holds := by
    rw [hphase]
    cases room with
    | none => rfl
    | some e => rfl
  refine ⟨rfl, ?_, ?_, nofun, ?_⟩
  · rw [hphase]
    exact .refl _
  · show (Phase.completed number room files : Phase K).holds.Sublist _
    rw [hholds]
  intro h f hf
  have hfiles : m.phase.files = files := by rw [hphase]; rfl
  obtain ⟨hsingle, hnumber, hnvm, hlargest⟩ := h f (by rw [hfiles]; exact hf)
  rw [hfiles] at hsingle
  refine ⟨hsingle, ?_, hnvm, hlargest⟩
  show f.number ∈ (Phase.completed number room files : Phase K).holds
  rw [hholds]
  exact hnumber

/-- A step that only relaxes memtables, with the numbers of the directory as they
    were. -/
structure Relaxed (s s' : State K) : Prop where
  memlist : List.Forall₂ Relaxes s'.memlist s.memlist
  tables : tableNumbers s'.cf = tableNumbers s.cf
  next : s'.nextFileNumber = s.nextFileNumber
  l0 : s'.l0 = s.l0

theorem Relaxed.mem (h : Relaxed s s') {m' : MemTable K} (hm : m' ∈ s'.memlist) :
    ∃ m ∈ s.memlist, Relaxes m' m := by
  obtain ⟨i, hi, rfl⟩ := mem_iff_getElem.mp hm
  have hlen := h.memlist.length_eq
  exact ⟨s.memlist[i], getElem_mem _, (List.forall₂_iff_get.mp h.memlist).2 i hi (by omega)⟩

theorem Relaxed.contents (h : Relaxed s s') :
    s'.memlist.map MemTable.content = s.memlist.map MemTable.content := by
  have heq : List.Forall₂ (· = ·) (s'.memlist.map MemTable.content)
      (s.memlist.map MemTable.content) := by
    rw [List.forall₂_map_left_iff, List.forall₂_map_right_iff]
    exact h.memlist.imp (fun _ _ hr => hr.content)
  exact List.forall₂_eq_eq_eq ▸ heq

theorem Relaxed.numbers (h : Relaxed s s') : s'.numbers.Sublist s.numbers := by
  rw [State.numbers, State.numbers, h.l0]
  exact (flatMap_sublist (h.memlist.imp (fun _ _ hr => hr.numbers))).append
    (.refl _)

theorem Inv.relaxed (h : Inv s) (hr : Relaxed s s') : Inv s' where
  level := by
    rw [hr.l0]
    exact h.level
  nodup := h.nodup.sublist hr.numbers
  below n hn := by
    rw [hr.next]
    exact h.below n (hr.numbers.subset hn)
  tables := by
    rw [hr.tables]
    exact h.tables
  tablesBelow := by
    rw [hr.tables, hr.next]
    exact h.tablesBelow
  unroomed m' hm' n hn := by
    obtain ⟨m, hm, hrel⟩ := hr.mem hm'
    rw [hr.tables]
    exact h.unroomed m hm n (hrel.picked n hn)
  roomed m' hm' n hn := by
    obtain ⟨m, hm, hrel⟩ := hr.mem hm'
    rw [hr.tables]
    exact h.roomed m hm n (hrel.holds.subset hn)
  newest := by
    rw [NewestContents, hr.contents]
    exact h.newest
  older := by
    rw [hr.l0, hr.contents]
    exact h.older
  files m' hm' := by
    obtain ⟨m, hm, hrel⟩ := hr.mem hm'
    exact hrel.files (h.files m hm)

theorem Ordered.relaxed (h : Ordered s) (hr : Relaxed s s') : Ordered s' := by
  rw [Ordered, hr.tables, hr.l0]
  exact ((flatMap_sublist (hr.memlist.imp (fun _ _ hrel => hrel.holds))).append
    (.refl _)).trans h

/-! ## Committing a batch -/

/-- **THE EDITS OF A BATCH** put its files in front of level 0. -/
theorem foldl_edits {l0 : List (FileMetaData K)} (hlevel : LevelOK l0) :
    ∀ batch : List (MemTable K), (∀ m ∈ batch, FilesOK m) →
      (batch.flatMap (fun m => m.phase.numbers) ++ l0.map FileMetaData.number).Nodup →
      NewestContents batch → OlderFiles l0 (batch.map MemTable.content) →
      EditsOK l0 (batch.reverse.map MemTable.edit) ∧
      (batch.reverse.map MemTable.edit).foldl applyEdit l0
        = batch.flatMap (fun m => m.phase.files) ++ l0 ∧
      NewestFirst (batch.flatMap (fun m => m.phase.files) ++ l0) := by
  intro batch
  induction batch with
  | nil => exact fun _ _ _ _ => ⟨trivial, rfl, hlevel.sorted⟩
  | cons m batch ih =>
  intro hfiles hnodup hnewest holder
  rw [flatMap_cons, append_assoc] at hnodup
  rw [NewestContents, map_cons, pairwise_cons] at hnewest
  obtain ⟨hedits, hfold, hsorted⟩ := ih (fun x hx => hfiles x (.tail m hx))
    (nodup_append.mp hnodup).2.1 hnewest.2
    (fun f hf c hc => holder f hf c (.tail _ hc))
  have hm := hfiles m (.head _)
  rw [reverse_cons, map_append, map_cons, map_nil, editsOK_append,
    foldl_append, hfold, foldl_cons, foldl_nil, flatMap_cons]
  cases hf : m.phase.files with
  | nil =>
    have hedit : m.edit = {} := by rw [MemTable.edit, hf]
    rw [hedit, applyEdit_empty hsorted]
    exact ⟨⟨hedits, ⟨nofun, nofun, nofun⟩⟩, rfl, hsorted⟩
  | cons f fs =>
  obtain ⟨hsingle, hnumber, hnvm, hlargest⟩ :=
    hm f (by rw [hf]; exact .head _)
  rw [hf] at hsingle
  have hedit : m.edit = { newFiles := [f] } := by rw [MemTable.edit, hf, hsingle]
  -- the numbers of the files below are those of other jobs and of level 0
  have hfresh : f.number ∉
      (batch.flatMap (fun m => m.phase.files) ++ l0).map FileMetaData.number := by
    intro hmem
    refine (nodup_append.mp hnodup).2.2 f.number
      ((holds_sublist_numbers _).subset hnumber) f.number ?_ rfl
    rw [map_append, mem_append] at hmem
    rcases hmem with hmem | hmem
    · obtain ⟨g, hg, hgn⟩ := mem_map.mp hmem
      obtain ⟨x, hx, hgx⟩ := mem_flatMap.mp hg
      obtain ⟨-, hxn, -, -⟩ := hfiles x (.tail m hx) g hgx
      refine mem_append_left _ (mem_flatMap.mpr ⟨x, hx, ?_⟩)
      rw [← hgn]
      exact (holds_sublist_numbers _).subset hxn
    · exact mem_append_right _ hmem
  have hnewer : NewestFirst (f :: (batch.flatMap (fun m => m.phase.files) ++ l0)) := by
    refine pairwise_cons.mpr ⟨?_, hsorted⟩
    intro g hg
    refine seqRank_lt_of_largestSeqno ?_
    rcases mem_append.mp hg with hg | hg
    · obtain ⟨x, hx, hgx⟩ := mem_flatMap.mp hg
      obtain ⟨-, -, -, hxl⟩ := hfiles x (.tail m hx) g hgx
      exact hnewest.1 x.content (mem_map_of_mem hx) _ hlargest _ hxl
    · exact holder g hg m.content (.head _) _ hlargest
  rw [hedit, applyEdit_newest hnewer hnvm hfresh, hsingle]
  refine ⟨⟨hedits, ⟨nofun, ?_, ?_⟩⟩, rfl, hnewer⟩
  · intro g hg
    rw [mem_singleton.mp hg]
    exact hnvm
  · intro g hg b hb heq
    rw [mem_singleton.mp hg, hfold] at *
    exact absurd (heq ▸ mem_map_of_mem hb) hfresh

/-- The numbers of a batch's files are numbers of its jobs. -/
theorem map_number_batch_sublist (h : ∀ m ∈ batch, FilesOK m) :
    ((batch.flatMap (fun m => m.phase.files)).map FileMetaData.number).Sublist
      (batch.flatMap (fun m => m.phase.holds)) := by
  rw [map_flatMap]
  exact flatMap_sublist (List.forall₂_same.mpr (fun m hm => map_number_files_sublist (h m hm)))

/-- **COMMIT**: the files of the batch go in front of level 0. -/
theorem Inv.applyEdits_batch (h : Inv s) (hlist : s.memlist = newer ++ batch) :
    applyEdits s.l0 (batch.reverse.map MemTable.edit)
      = batch.flatMap (fun m => m.phase.files) ++ s.l0 ∧
    LevelOK (batch.flatMap (fun m => m.phase.files) ++ s.l0) := by
  have hnodup := h.nodup
  rw [State.numbers, hlist, flatMap_append, append_assoc] at hnodup
  have hnewest := h.newest
  rw [NewestContents, hlist, map_append] at hnewest
  obtain ⟨hedits, hfold, -⟩ := foldl_edits h.level batch
    (fun m hm => h.files m (by rw [hlist]; exact mem_append_right _ hm))
    (nodup_append.mp hnodup).2.1 (pairwise_append.mp hnewest).2.1
    (fun f hf c hc => h.older f hf c (by
      rw [hlist, map_append]
      exact mem_append_right _ hc))
  obtain ⟨heq, hsorted, hdistinct, -⟩ := applyEdits_eq_foldl h.level hedits
  rw [hfold] at heq
  rw [heq] at hsorted hdistinct
  exact ⟨heq, hsorted, hdistinct⟩

theorem Inv.installed (h : Inv s) (hlist : s.memlist = newer ++ batch) (hcf : s'.cf = s.cf)
    (hnext : s'.nextFileNumber = s.nextFileNumber) (hmemlist : s'.memlist = newer)
    (hl0 : s'.l0 = applyEdits s.l0 (batch.reverse.map MemTable.edit)) : Inv s' := by
  obtain ⟨heq, hlevel⟩ := h.applyEdits_batch hlist
  rw [heq] at hl0
  have hfiles : ∀ m ∈ batch, FilesOK m :=
    fun m hm => h.files m (by rw [hlist]; exact mem_append_right _ hm)
  have hmem : ∀ m ∈ newer, m ∈ s.memlist := by
    intro m hm
    rw [hlist]
    exact mem_append_left _ hm
  have hsub : s'.numbers.Sublist s.numbers := by
    rw [State.numbers, State.numbers, hmemlist, hl0, hlist, map_append, flatMap_append,
      append_assoc]
    refine (List.Sublist.refl _).append (List.Sublist.append ?_ (List.Sublist.refl _))
    exact (map_number_batch_sublist hfiles).trans
      (flatMap_sublist (List.forall₂_same.mpr (fun m _ => holds_sublist_numbers m.phase)))
  have hnewest := h.newest
  rw [NewestContents, hlist, map_append, pairwise_append] at hnewest
  refine ⟨hl0 ▸ hlevel, h.nodup.sublist hsub, ?_, ?_, ?_, ?_, ?_, ?_, ?_, ?_⟩
  · intro n hn
    rw [hnext]
    exact h.below n (hsub.subset hn)
  · rw [hcf]
    exact h.tables
  · rw [hcf, hnext]
    exact h.tablesBelow
  · rw [hcf, hmemlist]
    exact fun m hm => h.unroomed m (hmem m hm)
  · rw [hcf, hmemlist]
    exact fun m hm => h.roomed m (hmem m hm)
  · rw [NewestContents, hmemlist]
    exact hnewest.1
  · rw [hl0, hmemlist]
    intro f hf c hc x hx
    rcases mem_append.mp hf with hf | hf
    · -- a file of the batch is older than the memtables that are left
      obtain ⟨m, hm, hfm⟩ := mem_flatMap.mp hf
      obtain ⟨-, -, -, hlargest⟩ := hfiles m hm f hfm
      exact hnewest.2.2 c hc m.content (mem_map_of_mem hm) x hx _ hlargest
    · refine h.older f hf c ?_ x hx
      rw [hlist, map_append]
      exact mem_append_left _ hc
  · rw [hmemlist]
    exact fun m hm => h.files m (hmem m hm)

/-! ## One step -/

section Split

variable {newer older : List (MemTable K)} {m : MemTable K}
  (hlist : s.memlist = newer ++ m :: older)
include hlist

/-- The numbers around one memtable. -/
theorem numbers_split :
    s.numbers = newer.flatMap (fun m => m.phase.numbers) ++ (m.phase.numbers ++
      (older.flatMap (fun m => m.phase.numbers) ++ s.l0.map FileMetaData.number)) := by
  rw [State.numbers, hlist, flatMap_append, flatMap_cons, append_assoc, append_assoc]

theorem mem_of_split (x : MemTable K) (hx : x ∈ newer ∨ x ∈ older) : x ∈ s.memlist := by
  rw [hlist]
  rcases hx with hx | hx
  · exact mem_append_left _ hx
  · exact mem_append_right _ (.tail m hx)

theorem self_mem_of_split : m ∈ s.memlist := by
  rw [hlist]
  exact mem_append_right _ (.head _)

/-- A memtable after the step of `m`'s job is `m'`, or one of the others. -/
theorem mem_swap {m' x : MemTable K} (hx : x ∈ newer ++ m' :: older) :
    x = m' ∨ x ∈ s.memlist ∧ (x ∈ newer ∨ x ∈ older) := by
  have hother := mem_of_split hlist x
  rcases mem_append.mp hx with hx | hx
  · exact .inr ⟨hother (.inl hx), .inl hx⟩
  rcases mem_cons.mp hx with hx | hx
  · exact .inl hx
  · exact .inr ⟨hother (.inr hx), .inr hx⟩

theorem contents_swap (phase : Phase K) :
    (newer ++ { m with phase := phase } :: older).map MemTable.content
      = s.memlist.map MemTable.content := by
  rw [hlist, map_append, map_append, map_cons, map_cons]

end Split

theorem Inv.switch (h : Inv s) (hphase : m.phase = .waiting) (hnewer : ∀ x ∈ sequences m.content, (∀
      o ∈ s.memlist, ∀ y ∈ sequences o.content, y < x) ∧ ∀ f ∈ s.l0, f.largestSeqno < x) :
    Inv { s with memlist := m :: s.memlist } := by
  have hnumbers : State.numbers { s with memlist := m :: s.memlist } = s.numbers := by
    rw [State.numbers, State.numbers, flatMap_cons, hphase]
    rfl
  refine ⟨h.level, hnumbers ▸ h.nodup, hnumbers ▸ h.below, h.tables, h.tablesBelow, ?_, ?_, ?_, ?_,
    ?_⟩
  · intro x hx n hn
    rcases mem_cons.mp hx with rfl | hx
    · rw [hphase] at hn
      exact nomatch hn
    · exact h.unroomed x hx n hn
  · intro x hx n hn
    rcases mem_cons.mp hx with rfl | hx
    · rw [hphase] at hn
      exact nomatch hn
    · exact h.roomed x hx n hn
  · refine pairwise_cons.mpr ⟨?_, h.newest⟩
    intro c hc x hx y hy
    obtain ⟨o, ho, rfl⟩ := mem_map.mp hc
    exact (hnewer x hx).1 o ho y hy
  · intro f hf c hc x hx
    rcases mem_cons.mp hc with rfl | hc
    · exact (hnewer x hx).2 f hf
    · exact h.older f hf c hc x hx
  · intro x hx
    rcases mem_cons.mp hx with rfl | hx
    · intro f hf
      rw [hphase] at hf
      exact nomatch hf
    · exact h.files x hx

theorem Inv.pick (h : Inv s) (hlist : s.memlist = newer ++ m :: older)
    (hphase : m.phase = .waiting) :
    Inv (pickState s newer m older) := by
  have hold := numbers_split hlist
  rw [hphase] at hold
  have hnew := numbers_split (s := pickState s newer m older) rfl
  have hmem : ∀ n ∈ (pickState s newer m older).numbers,
      n = s.nextFileNumber ∨ n ∈ s.numbers := by
    intro n hn
    rw [hnew] at hn
    rw [hold]
    rcases mem_append.mp hn with hn | hn
    · exact .inr (mem_append_left _ hn)
    rcases mem_append.mp hn with hn | hn
    · exact .inl (mem_singleton.mp hn)
    · exact .inr (mem_append_right _ hn)
  refine ⟨h.level, ?_, ?_, h.tables, ?_, ?_, ?_, ?_, ?_, ?_⟩
  · rw [hnew]
    have hnodup := h.nodup
    rw [hold] at hnodup
    refine nodup_middle.mpr (nodup_cons.mpr ⟨?_, hnodup⟩)
    intro hn
    have hlt := h.below s.nextFileNumber (by rw [hold]; exact hn)
    exact lt_irrefl _ hlt
  · intro n hn
    rcases hmem n hn with rfl | hn
    · exact Nat.lt_succ_self _
    · exact Nat.lt_succ_of_lt (h.below n hn)
  · exact fun n hn => Nat.lt_succ_of_lt (h.tablesBelow n hn)
  · intro x hx n hn
    rcases mem_swap hlist hx with rfl | ⟨hx, -⟩
    · rw [Phase.picked.injEq] at hn
      intro hmem
      have hlt := h.tablesBelow n hmem
      rw [hn] at hlt
      exact lt_irrefl _ hlt
    · exact h.unroomed x hx n hn
  · intro x hx n hn
    rcases mem_swap hlist hx with rfl | ⟨hx, -⟩
    · exact nomatch hn
    · exact h.roomed x hx n hn
  · rw [NewestContents, pickState, contents_swap hlist]
    exact h.newest
  · rw [pickState, contents_swap hlist]
    exact h.older
  · intro x hx
    rcases mem_swap hlist hx with rfl | ⟨hx, -⟩
    · exact nofun
    · exact h.files x hx

/-- The number of a job stands in the directory once its room is taken. -/
theorem Inv.room (h : Inv s) (hlist : s.memlist = newer ++ m :: older)
    (hphase : m.phase = .picked number) : Inv (roomState s newer m older number) := by
  have hold : s.numbers = newer.flatMap (fun m => m.phase.numbers) ++ number ::
      (older.flatMap (fun m => m.phase.numbers) ++ s.l0.map FileMetaData.number) := by
    rw [numbers_split hlist, hphase]
    rfl
  have hnumbers : (roomState s newer m older number).numbers = s.numbers := by
    rw [hold]
    exact numbers_split (s := roomState s newer m older number) rfl
  -- no other job has the number
  have hne : ∀ x, x ∈ newer ∨ x ∈ older → ∀ n, x.phase = .picked n → n ≠ number := by
    intro x hx n hn heq
    have hnodup := h.nodup
    rw [hold] at hnodup
    refine (nodup_cons.mp (nodup_middle.mp hnodup)).1 ?_
    have hmem : number ∈ x.phase.numbers := by
      rw [hn, heq]
      exact mem_singleton.mpr rfl
    rcases hx with hx | hx
    · exact mem_append_left _ (mem_flatMap.mpr ⟨x, hx, hmem⟩)
    · exact mem_append_right _
        (mem_append_left _ (mem_flatMap.mpr ⟨x, hx, hmem⟩))
  have htables : ∀ n ∈ tableNumbers (roomState s newer m older number).cf,
      n = number ∨ n ∈ tableNumbers s.cf := by
    intro n hn
    rcases requestRoom_spec s.cf (m.input number) with ⟨-, heq⟩ | ⟨e, -, heq⟩
    · exact .inr (heq ▸ hn)
    · exact mem_cons.mp (heq ▸ hn)
  refine ⟨h.level, hnumbers ▸ h.nodup, hnumbers ▸ h.below, ?_, ?_, ?_, ?_, ?_, ?_, ?_⟩
  · show (tableNumbers (requestRoom s.cf (m.input number)).1).Nodup
    rcases requestRoom_spec s.cf (m.input number) with ⟨-, heq⟩ | ⟨e, -, heq⟩
    · rw [heq]
      exact h.tables
    · rw [heq]
      exact nodup_cons.mpr ⟨h.unroomed m (self_mem_of_split hlist) number hphase, h.tables⟩
  · intro n hn
    rcases htables n hn with rfl | hn
    · refine h.below n ?_
      rw [hold]
      exact mem_append_right _ (.head _)
    · exact h.tablesBelow n hn
  · intro x hx n hn hmem
    rcases mem_swap hlist hx with rfl | ⟨hx, hx'⟩
    · exact nomatch hn
    rcases htables n hmem with heq | hmem
    · exact hne x hx' n hn heq
    · exact h.unroomed x hx n hn hmem
  · intro x hx n hn
    show n ∈ tableNumbers (requestRoom s.cf (m.input number)).1
    rcases mem_swap hlist hx with rfl | ⟨hx, -⟩
    · rcases requestRoom_spec s.cf (m.input number) with ⟨hroom, -⟩ | ⟨e, hroom, heq⟩
      · rw [hroom] at hn
        exact nomatch hn
      · rw [hroom] at hn
        rw [heq, mem_singleton.mp hn]
        exact .head _
    · exact (requestRoom_sublist s.cf (m.input number)).subset (h.roomed x hx n hn)
  · rw [NewestContents, roomState, contents_swap hlist]
    exact h.newest
  · rw [roomState, contents_swap hlist]
    exact h.older
  · intro x hx
    rcases mem_swap hlist hx with rfl | ⟨hx, -⟩
    · exact nofun
    · exact h.files x hx

theorem Initial.inv (h : Initial s) : Inv s ∧ Ordered s := by
  have hnumbers : s.numbers = s.l0.map FileMetaData.number := by
    rw [State.numbers, h.memlist]
    rfl
  have hordered : Ordered s := by
    rw [Ordered, h.memlist]
    exact h.ordered
  refine ⟨⟨h.level, ?_, ?_, h.tables, h.below, ?_, ?_, ?_, ?_, ?_⟩, hordered⟩
  · rw [hnumbers]
    exact pairwise_map.mpr h.level.distinct
  · rw [hnumbers]
    exact fun n hn => h.below n (h.ordered.subset hn)
  all_goals rw [h.memlist]
  · exact nofun
  · exact nofun
  · exact .nil
  · exact nofun
  · exact nofun

/-- What a step can do to the numbers. -/
inductive Effect (s s' : State K) : Prop
  | switched (m : MemTable K) (hphase : m.phase = .waiting)
      (hnewer : ∀ x ∈ sequences m.content,
        (∀ o ∈ s.memlist, ∀ y ∈ sequences o.content, y < x) ∧ ∀ f ∈ s.l0, f.largestSeqno < x)
      (heq : s' = { s with memlist := m :: s.memlist })
  | picked (newer older : List (MemTable K)) (m : MemTable K)
      (hlist : s.memlist = newer ++ m :: older) (hphase : m.phase = .waiting)
      (heq : s' = pickState s newer m older)
  | roomed (newer older : List (MemTable K)) (m : MemTable K) (number : Nat)
      (hlist : s.memlist = newer ++ m :: older) (hphase : m.phase = .picked number)
      (heq : s' = roomState s newer m older number)
  | relaxed (h : Relaxed s s')
  | installed (newer batch : List (MemTable K)) (hlist : s.memlist = newer ++ batch)
      (hcf : s'.cf = s.cf) (hnext : s'.nextFileNumber = s.nextFileNumber)
      (hmemlist : s'.memlist = newer)
      (hl0 : s'.l0 = applyEdits s.l0 (batch.reverse.map MemTable.edit))

/-! ## Rooms in turn -/

/-- A job takes its room before the jobs of newer memtables do. -/
def InTurn (s s' : State K) : Prop :=
  ∀ newer older m number, s.memlist = newer ++ m :: older → m.phase = .picked number →
    s' = roomState s newer m older number → ∀ x ∈ newer, x.phase.holds = []

theorem holds_split (newer older : List (MemTable K)) (m : MemTable K) :
    (newer ++ m :: older).flatMap (fun m => m.phase.holds)
      = newer.flatMap (fun m => m.phase.holds)
        ++ (m.phase.holds ++ older.flatMap (fun m => m.phase.holds)) := by
  rw [flatMap_append, flatMap_cons]

/-! ## Rooms out of turn -/

/-- The memtable of a job, or the file of level 0, that has the number `n` has the
    sequence number `x`. -/
def HasSequence (s : State K) (n x : Nat) : Prop :=
  (∃ m ∈ s.memlist, n ∈ m.phase.numbers ∧ x ∈ sequences m.content) ∨
  ∃ f ∈ s.l0, f.number = n ∧ f.largestSeqno = x

/-- The table `n` stands in front of the table `k` in the directory, while its
    entries are older. -/
structure Crossed (n k : Nat) (s : State K) : Prop where
  tables : [n, k].Sublist (tableNumbers s.cf)
  older : ∀ x y, HasSequence s n x → HasSequence s k y → x < y

/-- A step that gives the numbers below `nextFileNumber` to nobody else. -/
theorem Crossed.mono {n k : Nat} (hc : Crossed n k s)
    (htables : (tableNumbers s.cf).Sublist (tableNumbers s'.cf))
    (hseq : ∀ j x, j = n ∨ j = k → HasSequence s' j x → HasSequence s j x) : Crossed n k s' :=
  ⟨hc.tables.trans htables, fun x y hx hy =>
    hc.older x y (hseq n x (.inl rfl) hx) (hseq k y (.inr rfl) hy)⟩

/-- The entries of a number are those of the job that has it. -/
theorem Inv.sequence_mem (h : Inv s) (hm : m ∈ s.memlist) {n x : Nat} (hn : n ∈ m.phase.numbers)
    (hx : HasSequence s n x) : x ∈ sequences m.content := by
  obtain ⟨hjobs, -, hcross⟩ := nodup_append.mp h.nodup
  have hnm : n ∈ s.memlist.flatMap (fun m => m.phase.numbers) := mem_flatMap.mpr ⟨m, hm, hn⟩
  rcases hx with ⟨o, ho, hno, hxo⟩ | ⟨f, hf, hnum, -⟩
  · have hsymm : Std.Symm (fun a b : MemTable K =>
        List.Disjoint a.phase.numbers b.phase.numbers) :=
      ⟨fun a b hab n hb ha => hab ha hb⟩
    by_cases heq : o = m
    · rw [← heq]
      exact hxo
    · have hdisjoint := (nodup_flatMap.mp hjobs).2.forall ho hm heq
      exact absurd hn (hdisjoint hno)
  · exact absurd rfl (hcross n hnm n (hnum ▸ mem_map_of_mem hf))

/-- A room that is taken while a newer memtable has one crosses the two tables. -/
theorem crossed_room (h : Inv s) {j : MemTable K} {k : Nat}
    (hlist : s.memlist = newer ++ m :: older) (hphase : m.phase = .picked number) (hj : j ∈ newer)
    (hk : k ∈ j.phase.holds) (hroom : (requestRoom s.cf (m.input number)).2 ≠ none) :
    Crossed number k (roomState s newer m older number) := by
  have hinv := h.room hlist hphase
  constructor
  · show [number, k].Sublist (tableNumbers (requestRoom s.cf (m.input number)).1)
    rcases requestRoom_spec s.cf (m.input number) with ⟨hnone, -⟩ | ⟨e, -, heq⟩
    · exact absurd hnone hroom
    rw [heq]
    exact (singleton_sublist.mpr
      (h.roomed j (mem_of_split hlist j (.inl hj)) k hk)).cons_cons number
  intro x y hx hy
  have hx' := hinv.sequence_mem (m := { m with
      phase := .roomed number (requestRoom s.cf (m.input number)).2 })
    (mem_append_right _ (.head _)) (mem_singleton.mpr rfl) hx
  have hy' := hinv.sequence_mem (mem_append_left _ hj)
    ((holds_sublist_numbers _).subset hk) hy
  -- the newer memtable stands in front
  have hnewest := h.newest
  rw [NewestContents, hlist, map_append, pairwise_append] at hnewest
  exact hnewest.2.2 j.content (mem_map_of_mem hj) m.content (.head _) y hy' x
    hx'

/-- Without repetition two elements stand in one order only. -/
theorem not_pair_sublist {α : Type} {a b : α} {l : List α} (hl : l.Nodup)
    (hab : [a, b].Sublist l) : ¬ [b, a].Sublist l := by
  induction l with
  | nil => exact nofun
  | cons c l ih =>
  obtain ⟨hc, hl'⟩ := nodup_cons.mp hl
  intro hba
  rw [cons_sublist_cons'] at hab hba
  rcases hab with hab | ⟨rfl, hb⟩
  · rcases hba with hba | ⟨rfl, -⟩
    · exact ih hl' hab hba
    · exact hc (hab.subset (.tail _ (.head _)))
  · rcases hba with hba | ⟨rfl, ha⟩
    · exact hc (hba.subset (.tail _ (.head _)))
    · exact hc (hb.subset (.head _))

theorem Crossed.not_inDirOrder (h : Inv s) {n k : Nat} (hc : Crossed n k s)
    (hn : n ∈ s.l0.map FileMetaData.number) (hk : k ∈ s.l0.map FileMetaData.number) :
    ¬ InDirOrder s.cf.dir s.l0 := by
  intro hord
  obtain ⟨f, hf, rfl⟩ := mem_map.mp hn
  obtain ⟨g, hg, rfl⟩ := mem_map.mp hk
  have hlt := hc.older f.largestSeqno g.largestSeqno (.inr ⟨f, hf, rfl, rfl⟩)
    (.inr ⟨g, hg, rfl, rfl⟩)
  have hpair := pair_sublist h.level.sorted hg hf (seqRank_lt_of_largestSeqno hlt)
  exact not_pair_sublist h.tables hc.tables
    ((hpair.map FileMetaData.number).trans hord)

/-- `GetL0Files` finds an entry for every file of a version. -/
def Readable (dir : SstableMetadata K) (l0 : List (FileMetaData K)) : Prop :=
  (dir.getL0Files l0).map FileEntry.filenum = l0.map FileMetaData.number

theorem readable_iff (dir : SstableMetadata K) (l0 : List (FileMetaData K)) :
    Readable dir l0 ↔ InDirOrder dir l0 := by
  obtain ⟨hnums, hsub, hmax⟩ := matchL0Files_spec l0 dir.files
  constructor
  · intro h
    rw [InDirOrder, ← h]
    exact hsub.map _
  · intro h
    have hlen := hmax l0.length le_rfl (by rw [take_length]; exact h)
    rw [take_of_length_le hlen] at hnums
    exact hnums

/-! ## What a step does -/

variable [LinearOrder K] [UserKeyCodec K]

/-- A finished table keeps the number and the room of its job. -/
theorem relaxes_built {room : Option (FileEntry K)} {res : FlushResult K}
    (hphase : m.phase = .roomed number room) {cf : NvmCf K}
    (hrun : finishRoom cf (m.input number) room = some res) :
    Relaxes { m with phase := .built number room (flushedFiles number res) res.status } m := by
  obtain ⟨-, hfiles⟩ := finishRoom_spec hrun
  refine ⟨rfl, ?_, ?_, nofun, ?_⟩
  · rw [hphase]
    exact .refl _
  · rw [hphase]
    cases room with
    | none => exact .refl _
    | some e => exact .refl _
  · intro _ f hf
    obtain ⟨hsingle, hroom, hnumber, hnvm, hlargest⟩ := hfiles f hf
    refine ⟨hsingle, ?_, hnvm, hlargest⟩
    cases room with
    | none => exact absurd rfl hroom
    | some e => exact mem_singleton.mpr hnumber

theorem Step.effect (h : Step s s') : Effect s s' := by
  cases h with
  | switch m hphase hnewer => exact .switched m hphase hnewer rfl
  | pick newer older m hlist hphase _ => exact .picked newer older m hlist hphase rfl
  | room newer older m number hlist hphase => exact .roomed newer older m number hlist hphase rfl
  | finish newer older m number room res hlist hphase hrun =>
    refine .relaxed ⟨?_, (finishRoom_spec hrun).1, rfl, rfl⟩
    rw [hlist]
    exact forall₂_swap (relaxes_built hphase hrun)
  | rollback newer older m number room files status hlist hphase =>
    refine .relaxed ⟨?_, rfl, rfl, rfl⟩
    rw [hlist]
    exact forall₂_swap (relaxes_waiting m)
  | complete newer older m number room files hlist hphase =>
    refine .relaxed ⟨?_, rfl, rfl, rfl⟩
    rw [hlist]
    exact forall₂_swap (relaxes_completed hphase)
  | install newer batch hlist hbatch => exact .installed newer batch hlist rfl rfl rfl rfl
  | installFailed newer batch hlist hbatch =>
  refine .relaxed ⟨?_, rfl, rfl, rfl⟩
  rw [hlist]
  refine rel_append (forall₂_relaxes_refl newer) ?_
  rw [List.forall₂_map_left_iff]
  exact List.forall₂_same.mpr (fun m _ => relaxes_waiting m)

/-- **STEP**: every step of the jobs keeps the invariant. -/
theorem Inv.step (h : Inv s) (hstep : Step s s') : Inv s' := by
  cases hstep.effect with
  | switched m hphase hnewer heq => exact heq ▸ h.switch hphase hnewer
  | picked newer older m hlist hphase heq => exact heq ▸ h.pick hlist hphase
  | roomed newer older m number hlist hphase heq => exact heq ▸ h.room hlist hphase
  | relaxed hr => exact h.relaxed hr
  | installed newer batch hlist hcf hnext hmemlist hl0 =>
    exact h.installed hlist hcf hnext hmemlist hl0

/-- **STEP**: a step in turn keeps the directory in the order of level 0. -/
theorem Ordered.step (h : Inv s) (ho : Ordered s) (hstep : Step s s') (hturn : InTurn s s') :
    Ordered s' := by
  cases hstep.effect with
  | switched m hphase hnewer heq =>
    rw [heq, Ordered, flatMap_cons, hphase]
    exact ho
  | picked newer older m hlist hphase heq =>
    rw [Ordered, hlist, holds_split, hphase] at ho
    rw [heq, Ordered, pickState, holds_split]
    exact ho
  | roomed newer older m number hlist hphase heq =>
    have hnone := hturn newer older m number hlist hphase heq
    have hnil : newer.flatMap (fun m => m.phase.holds) = [] := flatMap_eq_nil_iff.mpr hnone
    rw [Ordered, hlist, holds_split, hphase, hnil] at ho
    rw [heq, Ordered, roomState, holds_split, hnil]
    rcases requestRoom_spec s.cf (m.input number) with ⟨hroom, htables⟩ | ⟨e, hroom, htables⟩
    · rw [hroom, htables]
      exact ho
    · rw [hroom, htables]
      exact ho.cons_cons number
  | relaxed hr => exact ho.relaxed hr
  | installed newer batch hlist hcf hnext hmemlist hl0 =>
  obtain ⟨heq, -⟩ := h.applyEdits_batch hlist
  rw [Ordered, hlist, flatMap_append, append_assoc] at ho
  rw [Ordered, hmemlist, hl0, heq, hcf, map_append]
  refine .trans ?_ ho
  refine (List.Sublist.refl _).append (List.Sublist.append ?_ (List.Sublist.refl _))
  exact map_number_batch_sublist
    (fun m hm => h.files m (by rw [hlist]; exact mem_append_right _ hm))

/-- **STEP**: crossed tables stay crossed. -/
theorem Crossed.step (h : Inv s) {n k : Nat} (hc : Crossed n k s) (hstep : Step s s') :
    Crossed n k s' := by
  have hbelow : ∀ j, j = n ∨ j = k → j < s.nextFileNumber := by
    intro j hj
    refine h.tablesBelow j (hc.tables.subset ?_)
    rcases hj with rfl | rfl
    · exact .head _
    · exact .tail _ (.head _)
  cases hstep.effect with
  | switched m hphase hnewer heq =>
    subst heq
    refine hc.mono (.refl _) ?_
    rintro j x - (⟨o, ho, hj, hx⟩ | hf)
    · rcases mem_cons.mp ho with rfl | ho
      · rw [hphase] at hj
        exact nomatch hj
      · exact .inl ⟨o, ho, hj, hx⟩
    · exact .inr hf
  | picked newer older m hlist hphase heq =>
    subst heq
    refine hc.mono (.refl _) ?_
    rintro j x hjn (⟨o, ho, hj, hx⟩ | hf)
    · rcases mem_swap hlist ho with rfl | ⟨ho, -⟩
      · -- the new number is neither of the two
        have hlt := hbelow j hjn
        rw [mem_singleton.mp hj] at hlt
        exact absurd hlt (lt_irrefl _)
      · exact .inl ⟨o, ho, hj, hx⟩
    · exact .inr hf
  | roomed newer older m number hlist hphase heq =>
    subst heq
    refine hc.mono (requestRoom_sublist s.cf (m.input number)) ?_
    rintro j x - (⟨o, ho, hj, hx⟩ | hf)
    · rcases mem_swap hlist ho with rfl | ⟨ho, -⟩
      · refine .inl ⟨m, self_mem_of_split hlist, ?_, hx⟩
        rw [hphase]
        exact hj
      · exact .inl ⟨o, ho, hj, hx⟩
    · exact .inr hf
  | relaxed hr =>
    refine hc.mono (hr.tables ▸ .refl _) ?_
    rintro j x - (⟨o, ho, hj, hx⟩ | ⟨f, hf, hnum, hlargest⟩)
    · obtain ⟨m, hm, hrel⟩ := hr.mem ho
      exact .inl ⟨m, hm, hrel.numbers.subset hj, hrel.content ▸ hx⟩
    · exact .inr ⟨f, hr.l0 ▸ hf, hnum, hlargest⟩
  | installed newer batch hlist hcf hnext hmemlist hl0 =>
  obtain ⟨heq, -⟩ := h.applyEdits_batch hlist
  rw [heq] at hl0
  refine hc.mono (hcf ▸ .refl _) ?_
  rintro j x - (⟨o, ho, hj, hx⟩ | ⟨f, hf, hnum, hlargest⟩)
  · rw [hmemlist] at ho
    exact .inl ⟨o, by rw [hlist]; exact mem_append_left _ ho, hj, hx⟩
  rw [hl0] at hf
  rcases mem_append.mp hf with hf | hf
  · -- the file comes from a memtable of the batch
    obtain ⟨m, hm, hfm⟩ := mem_flatMap.mp hf
    have hm' : m ∈ s.memlist := by
      rw [hlist]
      exact mem_append_right _ hm
    obtain ⟨-, hholds, -, hseq⟩ := h.files m hm' f hfm
    exact .inl ⟨m, hm', hnum ▸ (holds_sublist_numbers _).subset hholds, hlargest ▸ hseq⟩
  · exact .inr ⟨f, hf, hnum, hlargest⟩

/-! ## Runs -/

/-- The states of runs whose steps all meet the condition `C`. -/
inductive Reachable (C : State K → State K → Prop) : State K → Prop
  | initial (s : State K) (h : Initial s) : Reachable C s
  | step (s s' : State K) (hrun : Reachable C s) (hstep : Step s s') (hcond : C s s') :
      Reachable C s'

theorem Reachable.inv {C : State K → State K → Prop} (h : Reachable C s) : Inv s := by
  induction h with
  | initial s h => exact h.inv.1
  | step s s' _ hstep _ ih => exact ih.step hstep

theorem Reachable.ordered (h : Reachable InTurn s) : Ordered s := by
  induction h with
  | initial s h => exact h.inv.2
  | step s s' hrun hstep hturn ih => exact ih.step hrun.inv hstep hturn

/-- **LEVEL 0 IN ORDER**: however the jobs are interleaved, the files are sorted from
    new to old and older than every memtable, and no number is used twice. -/
theorem level0_in_order {C : State K → State K → Prop} (h : Reachable C s) :
    LevelOK s.l0 ∧ NewestContents s.memlist ∧ OlderFiles s.l0 (s.memlist.map MemTable.content) ∧
      s.numbers.Nodup ∧ (tableNumbers s.cf).Nodup := by
  have hinv := h.inv
  exact ⟨hinv.level, hinv.newest, hinv.older, hinv.nodup, hinv.tables⟩

/-- Tables are only added to the directory. -/
theorem Step.tables_sublist (h : Step s s') : (tableNumbers s.cf).Sublist (tableNumbers s'.cf) := by
  cases h.effect with
  | switched m hphase hnewer heq => exact heq ▸ .refl _
  | picked newer older m hlist hphase heq => exact heq ▸ .refl _
  | roomed newer older m number hlist hphase heq =>
    subst heq
    exact requestRoom_sublist s.cf (m.input number)
  | relaxed hr => exact hr.tables ▸ .refl _
  | installed newer batch hlist hcf hnext hmemlist hl0 => exact hcf ▸ .refl _

/-- **CONCURRENT FLUSHES** keep every version readable when the rooms are taken in
    turn: a version stays a part of the directory, in its order, and `GetL0Files`
    finds an entry for each of its files.  A job that takes its room while a newer
    memtable has one spoils every version that lists both tables. -/
theorem readable_inTurn_not_crossed :
    (∀ s t : State K, Reachable InTurn s → Relation.ReflTransGen Step s t →
      InDirOrder t.cf.dir s.l0 ∧ Readable t.cf.dir s.l0) ∧
    (∀ (s t : State K) (newer older : List (MemTable K)) (m j : MemTable K) (number k : Nat),
      Reachable (fun _ _ => True) s → s.memlist = newer ++ m :: older →
      m.phase = .picked number → j ∈ newer → k ∈ j.phase.holds →
      (requestRoom s.cf (m.input number)).2 ≠ none →
      Relation.ReflTransGen Step (roomState s newer m older number) t →
      number ∈ t.l0.map FileMetaData.number → k ∈ t.l0.map FileMetaData.number →
      ¬ Readable t.cf.dir t.l0) := by
  constructor
  · intro s t hrun hpath
    have hord : InDirOrder t.cf.dir s.l0 := by
      induction hpath with
      | refl => exact (sublist_append_right _ _).trans hrun.ordered
      | tail _ hstep ih => exact ih.trans hstep.tables_sublist
    exact ⟨hord, (readable_iff _ _).mpr hord⟩
  intro s t newer older m j number k hrun hlist hphase hj hk hroom hpath hn hk'
  have hstart : Inv (roomState s newer m older number) := hrun.inv.room hlist hphase
  have hcrossed := crossed_room hrun.inv hlist hphase hj hk hroom
  have hend : Inv t ∧ Crossed number k t := by
    clear hn hk'
    induction hpath with
    | refl => exact ⟨hstart, hcrossed⟩
    | tail _ hstep ih => exact ⟨ih.1.step hstep, ih.2.step ih.1 hstep⟩
  rw [readable_iff]
  exact hend.2.not_inDirOrder hend.1 hn hk'

end Run

/-! ## Two jobs

    The older memtable holds key 5, the newer one key 6.  The job of the newer one
    is the first to take its room. -/

def openDb : State (Fin 256) := { cf := smallModule, nextFileNumber := 1 }

theorem initial_openDb : Initial openDb where
  memlist := rfl
  committing := rfl
  level := ⟨.nil, .nil⟩
  ordered := .refl _
  tables := nodup_nil
  below := nofun

/-- The two memtables, with the older job behind its pick and the newer one behind its
    room. -/
def overtaken : State (Fin 256) :=
  roomState
    (pickState
      (pickState { openDb with memlist := [⟨newerFlush, .waiting⟩, ⟨olderFlush, .waiting⟩] }
        [⟨newerFlush, .waiting⟩] ⟨olderFlush, .waiting⟩ [])
      [] ⟨newerFlush, .waiting⟩ [⟨olderFlush, .picked 1⟩])
    [] ⟨newerFlush, .picked 2⟩ [⟨olderFlush, .picked 1⟩] 2

theorem reachable_overtaken : Reachable (fun _ _ => True) overtaken := by
  have h0 : Reachable (fun _ _ => True) openDb := .initial openDb initial_openDb
  have h1 := Reachable.step _ _ h0
    (.switch openDb ⟨olderFlush, .waiting⟩ rfl
      (fun x _ => ⟨nofun, nofun⟩)) trivial
  have h2 := Reachable.step _ _ h1 (.switch _ ⟨newerFlush, .waiting⟩ rfl (by decide)) trivial
  have h3 := Reachable.step _ _ h2
    (.pick _ [⟨newerFlush, .waiting⟩] [] ⟨olderFlush, .waiting⟩ rfl rfl nofun)
    trivial
  have h4 := Reachable.step _ _ h3
    (.pick _ [] [⟨olderFlush, .picked 1⟩] ⟨newerFlush, .waiting⟩ rfl rfl (by
      intro o ho
      rw [mem_singleton.mp ho]
      exact fun h => nomatch h)) trivial
  exact .step _ _ h4 (.room _ [] [⟨olderFlush, .picked 1⟩] ⟨newerFlush, .picked 2⟩ 2 rfl
    rfl) trivial

/-- The newer job, with the first slot. -/
def newerRoomed : MemTable (Fin 256) :=
  ⟨newerFlush, .roomed 2 (some { filenum := 2, sstableIndex := 0 })⟩

/-- The older job takes the second slot. -/
def crossing : State (Fin 256) :=
  roomState overtaken [newerRoomed] ⟨olderFlush, .picked 1⟩ [] 1

/-- Both tables are finished and committed. -/
theorem crossing_committed :
    ∃ t : State (Fin 256), Relation.ReflTransGen Step crossing t ∧
      t.l0.map FileMetaData.number = [2, 1] ∧ tableNumbers t.cf = [1, 2] ∧
      (t.cf.dir.getL0Files t.l0).map FileEntry.filenum = [2] := by
  have h1 : Relation.ReflTransGen Step crossing _ := .single
    (.finish crossing [] _ newerRoomed 2 _ _ rfl rfl rfl)
  have h2 := h1.tail (.finish _ [_] [] _ 1 _ _ rfl rfl rfl)
  have h3 := h2.tail (.complete _ [_] [] _ 1 _ _ rfl rfl)
  have h4 := h3.tail (.complete _ [] [_] _ 2 _ _ rfl rfl)
  have h5 := h4.tail (.install _ [_] [_] rfl rfl)
  exact ⟨_, h5.tail (.install _ [] [_] rfl rfl), by decide, by decide, by decide⟩

theorem Reachable.path {s t : State (Fin 256)} (h : Reachable (fun _ _ => True) s)
    (hpath : Relation.ReflTransGen Step s t) : Reachable (fun _ _ => True) t := by
  induction hpath with
  | refl => exact h
  | tail _ hstep ih => exact .step _ _ ih hstep trivial

theorem reachable_crossing : Reachable (fun _ _ => True) crossing :=
  .step _ _ reachable_overtaken (.room _ [newerRoomed] [] ⟨olderFlush, .picked 1⟩ 1 rfl rfl) trivial

theorem level0_in_order_crossing : ∃ t : State (Fin 256), LevelOK t.l0 ∧
    t.l0.map FileMetaData.number = [2, 1] ∧ tableNumbers t.cf = [1, 2] := by
  obtain ⟨t, hpath, hl0, htables, -⟩ := crossing_committed
  exact ⟨t, (level0_in_order (reachable_crossing.path hpath)).1, hl0, htables⟩

/-- `GetL0Files` drops table 1, which the installed version lists. -/
theorem readable_fails :
    ∃ t : State (Fin 256), Reachable (fun _ _ => True) t ∧
      t.l0.map FileMetaData.number = [2, 1] ∧ tableNumbers t.cf = [1, 2] ∧
      (t.cf.dir.getL0Files t.l0).map FileEntry.filenum = [2] ∧ ¬ Readable t.cf.dir t.l0 := by
  obtain ⟨t, hpath, hl0, htables, hfound⟩ := crossing_committed
  refine ⟨t, reachable_crossing.path hpath, hl0, htables, hfound, ?_⟩
  rw [Readable, hfound, hl0]
  exact nofun

/-- A single memtable is always in turn. -/
theorem inTurn_of_single {s s' : State (Fin 256)} (h : s.memlist.length ≤ 1) : InTurn s s' := by
  intro newer older m number hlist _ _ x hx
  rw [hlist, length_append, length_cons] at h
  rw [length_eq_zero_iff.mp (show newer.length = 0 by omega)] at hx
  exact nomatch hx

theorem readable_inTurn_not_crossed_twoJobs :
    (∃ s : State (Fin 256), Reachable InTurn s ∧ s.l0.map FileMetaData.number = [1] ∧
      Readable s.cf.dir s.l0) ∧
    ∃ t : State (Fin 256), Relation.ReflTransGen Step crossing t ∧ ¬ Readable t.cf.dir t.l0 := by
  constructor
  · have h0 : Reachable InTurn openDb := .initial openDb initial_openDb
    have h1 := Reachable.step _ _ h0 (.switch openDb ⟨olderFlush, .waiting⟩ rfl
      (fun x _ => ⟨nofun, nofun⟩))
      (inTurn_of_single (by decide))
    have h2 := Reachable.step _ _ h1 (.pick _ [] [] ⟨olderFlush, .waiting⟩ rfl rfl
      nofun) (inTurn_of_single (by decide))
    have h3 := Reachable.step _ _ h2 (.room _ [] [] ⟨olderFlush, .picked 1⟩ 1 rfl rfl)
      (inTurn_of_single (by decide))
    have h4 := Reachable.step _ _ h3 (.finish _ [] [] _ 1 _ _ rfl rfl rfl)
      (inTurn_of_single (by decide))
    have h5 := Reachable.step _ _ h4 (.complete _ [] [] _ 1 _ _ rfl rfl)
      (inTurn_of_single (by decide))
    have h6 := Reachable.step _ _ h5 (.install _ [] [_] rfl rfl) (inTurn_of_single (by decide))
    exact ⟨_, h6, by decide, (readable_inTurn_not_crossed.1 _ _ h6 .refl).2⟩
  · obtain ⟨t, hpath, hl0, -, -⟩ := crossing_committed
    refine ⟨t, hpath, ?_⟩
    exact readable_inTurn_not_crossed.2 overtaken t [newerRoomed] [] ⟨olderFlush, .picked 1⟩
      newerRoomed 1 2 reachable_overtaken rfl rfl (mem_singleton.mpr rfl) (mem_singleton.mpr rfl)
      nofun hpath (by rw [hl0]; decide) (by rw [hl0]; decide)

end ConcurrentFlush
