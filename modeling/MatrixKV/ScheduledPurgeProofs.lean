import MatrixKV.NvmFlushProofs

/-! # Purging obsolete files, at once and from the queue

    `PurgeObsoleteFiles` decides for every candidate whether it goes.  What goes is
    deleted at once, by a call that knows the NVM modules of the job, or put into a
    queue that `BackgroundCallPurge` empties later, without them.

    * `purgeObsoleteFiles`, `backgroundCallPurge` — `none` stands for the access
      through the missing module list.
    * **`scheduled_purge_iff`** — when the queue deletes what a call would have deleted
      at once. -/

namespace ScheduledPurge

open SstableMeta NvmFlush

variable {K : Type}

/-! ## The model -/

inductive FileType
  | log | dbLock | table | descriptor | current | temp | infoLog | metaDatabase | identity
  | options | blob
  deriving DecidableEq

/-- A file name, with what `ParseFileName` reads in it. -/
structure FileName where
  text : String
  parsed : Option (Nat × FileType)
  deriving DecidableEq

structure CandidateFileInfo where
  fileName : FileName
  filePath : String
  deriving DecidableEq

/-- The six digits of a file number. -/
def sixDigits (n : Nat) : String := "".pushn '0' (6 - (toString n).length) ++ toString n

def makeTableFileName (path : String) (n : Nat) : FileName :=
  ⟨path ++ "/" ++ sixDigits n ++ ".sst", some (n, .table)⟩

def logFileName (path : String) (n : Nat) : FileName :=
  ⟨path ++ "/" ++ sixDigits n ++ ".log", some (n, .log)⟩

/-- An entry of `sst_delete_files`; `nvmcf` is the NVM module of the file's family. -/
structure ObsoleteFileInfo where
  number : Nat
  path : String
  nvmcf : Option Nat

structure JobContext where
  fullScanCandidateFiles : List CandidateFileInfo := []
  sstDeleteFiles : List ObsoleteFileInfo := []
  logDeleteFiles : List Nat := []
  manifestDeleteFiles : List FileName := []
  sstLive : List Nat := []
  logRecycleFiles : List Nat := []
  nvmcfs : List Nat := []
  logNumber : Nat := 0
  prevLogNumber : Nat := 0
  manifestFileNumber : Nat
  pendingManifestFileNumber : Nat := 0
  minPendingOutput : Nat

structure DbOptions where
  dbname : String
  walDir : String
  /-- `wal_ttl_seconds` or `wal_size_limit_mb` is set -/
  archivesLogs : Bool

/-- `PurgeFileInfo`; the name of a file in its directory. -/
structure PurgeFileInfo where
  fname : String
  dirToSync : String
  type : FileType
  number : Nat
  deriving DecidableEq

structure State (K : Type) where
  /-- the NVM module at an address -/
  modules : Nat → NvmCf K
  deletedSst : List (String × String) := []
  deletedFiles : List String := []
  archived : List (String × Nat) := []

/-- The modules of the deleted files join those of the job. -/
def collectNvmcfs : List Nat → List ObsoleteFileInfo → List Nat
  | nvmcfs, [] => nvmcfs
  | nvmcfs, f :: fs =>
    match f.nvmcf with
    | none => collectNvmcfs nvmcfs fs
    | some m => collectNvmcfs (if m ∈ nvmcfs then nvmcfs else nvmcfs ++ [m]) fs

/-- `CompareCandidateFile`, for files that may be equal. -/
def CandidateOrder (a b : CandidateFileInfo) : Prop :=
  b.fileName.text < a.fileName.text ∨
    (a.fileName.text = b.fileName.text ∧ ¬ a.filePath < b.filePath)

instance : DecidableRel CandidateOrder := fun _ _ => inferInstanceAs (Decidable (_ ∨ _))

/-- The candidates, sorted, each once. -/
def candidateFiles (db : DbOptions) (job : JobContext) : List CandidateFileInfo :=
  ((job.fullScanCandidateFiles
    ++ job.sstDeleteFiles.map (fun f => CandidateFileInfo.mk (makeTableFileName "" f.number) f.path)
    ++ (job.logDeleteFiles.filter (0 < ·)).map (fun n =>
      CandidateFileInfo.mk (logFileName "" n) db.walDir)
    ++ job.manifestDeleteFiles.map (fun name => CandidateFileInfo.mk name db.dbname)).insertionSort
      CandidateOrder).dedup

/-- The numbers of the two most recent OPTIONS files. -/
def optsfileNums : Nat × Nat → List CandidateFileInfo → Nat × Nat
  | nums, [] => nums
  | nums, c :: cs =>
    match c.fileName.parsed with
    | some (n, .options) =>
      optsfileNums (if nums.1 < n then (n, nums.1)
        else if nums.2 < n then (nums.1, n) else nums) cs
    | _ => optsfileNums nums cs

def keepTable (job : JobContext) (n : Nat) : Bool := n ∈ job.sstLive || job.minPendingOutput ≤ n

def keep (job : JobContext) (optsfileNum2 : Nat) (name : FileName) (n : Nat) : FileType → Bool
  | .log => job.logNumber ≤ n || n = job.prevLogNumber || n ∈ job.logRecycleFiles
  | .descriptor => job.manifestFileNumber ≤ n
  | .table => keepTable job n
  | .temp => n ∈ job.sstLive || n = job.pendingManifestFileNumber ||
      name.text.toList.tails.any ("OPTIONS-".toList.isPrefixOf ·)
  | .options => optsfileNum2 ≤ n
  | .infoLog | .current | .dbLock | .identity | .metaDatabase | .blob => true

inductive Action
  | archive (fname : String) (number : Nat)
  | delete (info : PurgeFileInfo)

/-- The name of a file that is no table, in its directory. -/
def pathIn (dir toDelete : String) : String :=
  dir ++ (if dir.toList.getLast? = some '/' || toDelete.toList.head? = some '/' then "" else "/")
    ++ toDelete

/-- What becomes of a candidate. -/
def purgeAction (db : DbOptions) (job : JobContext) (c : CandidateFileInfo) : Option Action :=
  match c.fileName.parsed with
  | none => none
  | some (n, type) =>
    if keep job (optsfileNums (0, 0) (candidateFiles db job)).2 c.fileName n type then none
    else if type = .table then
      some (.delete ⟨(makeTableFileName c.filePath n).text, c.filePath, type, n⟩)
    else
      let dir := if type = .log then db.walDir else db.dbname
      let fname := pathIn dir c.fileName.text
      if type = .log ∧ db.archivesLogs = true then some (.archive fname n)
      else some (.delete ⟨fname, dir, type, n⟩)

/-- `DeleteObsoleteFileImpl`: a table file is looked for in the given modules first. -/
def deleteObsoleteFileImpl (nvmcfs : Option (List Nat)) (st : State K) (info : PurgeFileInfo) :
    Option (State K) :=
  if info.type = .table then
    match nvmcfs with
    | none => none
    | some ms =>
      match ms.find? (fun m => ((st.modules m).dir.findFile info.number).isSome) with
      | some m =>
        some { st with
          modules := Function.update st.modules m (deleteL0file (st.modules m) info.number) }
      | none => some { st with deletedSst := st.deletedSst ++ [(info.fname, info.dirToSync)] }
  else some { st with deletedFiles := st.deletedFiles ++ [info.fname] }

/-- The loop of `PurgeObsoleteFiles` over what is not kept, with the queue. -/
def purgeLoop (scheduleOnly : Bool) (nvmcfs : List Nat) :
    List Action → State K → List PurgeFileInfo → Option (State K × List PurgeFileInfo)
  | [], st, queue => some (st, queue)
  | .archive fname n :: as, st, queue =>
    purgeLoop scheduleOnly nvmcfs as { st with archived := st.archived ++ [(fname, n)] } queue
  | .delete info :: as, st, queue =>
    if scheduleOnly then purgeLoop scheduleOnly nvmcfs as st (queue ++ [info])
    else
      (deleteObsoleteFileImpl (some nvmcfs) st info).bind
        (fun st => purgeLoop scheduleOnly nvmcfs as st queue)

def purgeObsoleteFiles (db : DbOptions) (job : JobContext) (scheduleOnly : Bool) (st : State K) :
    Option (State K × List PurgeFileInfo) :=
  purgeLoop scheduleOnly (collectNvmcfs job.nvmcfs job.sstDeleteFiles)
    ((candidateFiles db job).filterMap (purgeAction db job)) st []

/-- `BackgroundCallPurge`: the calls leave the module list out. -/
def backgroundCallPurge : List PurgeFileInfo → State K → Option (State K)
  | [], st => some st
  | info :: queue, st =>
    (deleteObsoleteFileImpl none st info).bind (backgroundCallPurge queue)

/-- Both ways end, and in the same state. -/
def SameEffect (db : DbOptions) (job : JobContext) (st : State K) : Prop :=
  ∃ st', purgeObsoleteFiles db job false st = some (st', []) ∧
    (purgeObsoleteFiles db job true st).bind (fun r => backgroundCallPurge r.2 r.1) = some st'

/-! ## What the loops do -/

def archivedBy (as : List Action) : List (String × Nat) :=
  as.filterMap (fun | .archive fname n => some (fname, n) | .delete _ => none)

def deletedBy (as : List Action) : List PurgeFileInfo :=
  as.filterMap (fun | .archive _ _ => none | .delete info => some info)

/-- The scheduled loop only archives and queues. -/
theorem purgeLoop_scheduled (nvmcfs : List Nat) (as : List Action) :
    ∀ (st : State K) (queue : List PurgeFileInfo), purgeLoop true nvmcfs as st queue
      = some ({ st with archived := st.archived ++ archivedBy as }, queue ++ deletedBy as) := by
  induction as with
  | nil =>
    intro st queue
    simp [purgeLoop, archivedBy, deletedBy]
  | cons a as ih =>
  intro st queue
  cases a with
  | archive fname n =>
    rw [purgeLoop, ih]
    simp [archivedBy, deletedBy]
  | delete info =>
    rw [purgeLoop, if_pos rfl, ih]
    simp [archivedBy, deletedBy]

theorem deleteObsoleteFileImpl_other (nvmcfs : Option (List Nat)) (st : State K)
    {info : PurgeFileInfo} (h : info.type ≠ .table) : deleteObsoleteFileImpl nvmcfs st info
      = some { st with deletedFiles := st.deletedFiles ++ [info.fname] } :=
  if_neg h

/-- Without table files the module list is not needed. -/
theorem purgeLoop_inline (nvmcfs : List Nat) (as : List Action)
    (h : ∀ info ∈ deletedBy as, info.type ≠ .table) :
    ∀ st : State K, purgeLoop false nvmcfs as st [] = some ({ st with
      archived := st.archived ++ archivedBy as
      deletedFiles := st.deletedFiles ++ (deletedBy as).map PurgeFileInfo.fname }, []) := by
  induction as with
  | nil =>
    intro st
    simp [purgeLoop, archivedBy, deletedBy]
  | cons a as ih =>
  intro st
  cases a with
  | archive fname n =>
    rw [purgeLoop, ih h]
    simp [archivedBy, deletedBy]
  | delete info =>
  obtain ⟨hinfo, hrest⟩ := List.forall_mem_cons.mp h
  rw [purgeLoop, if_neg Bool.false_ne_true, deleteObsoleteFileImpl_other _ st hinfo,
    Option.bind_some, ih hrest]
  simp [archivedBy, deletedBy]

theorem backgroundCallPurge_eq (queue : List PurgeFileInfo) (h : ∀ info ∈ queue, info.type ≠ .table)
    (st : State K) :
    backgroundCallPurge queue st = some
      { st with deletedFiles := st.deletedFiles ++ queue.map PurgeFileInfo.fname } := by
  induction queue generalizing st with
  | nil =>
    simp [backgroundCallPurge]
  | cons info queue ih =>
  obtain ⟨hinfo, hrest⟩ := List.forall_mem_cons.mp h
  rw [backgroundCallPurge, deleteObsoleteFileImpl_other _ st hinfo, Option.bind_some, ih hrest]
  simp

/-- A table file in the queue is looked for through the missing list. -/
theorem backgroundCallPurge_table (queue : List PurgeFileInfo)
    (h : ∃ info ∈ queue, info.type = .table) : ∀ st : State K,
      backgroundCallPurge queue st = none := by
  induction queue with
  | nil => exact absurd h (fun ⟨_, hmem, _⟩ => nomatch hmem)
  | cons info queue ih =>
  intro st
  rw [backgroundCallPurge]
  by_cases hinfo : info.type = .table
  · rw [deleteObsoleteFileImpl, if_pos hinfo]
    rfl
  rw [deleteObsoleteFileImpl_other _ st hinfo]
  obtain ⟨x, hx, htable⟩ := h
  rcases List.mem_cons.mp hx with rfl | hx
  · exact absurd htable hinfo
  · exact ih ⟨x, hx, htable⟩ _

/-- A table file is deleted when it is not kept. -/
theorem purgeAction_table_iff (db : DbOptions) (job : JobContext) (c : CandidateFileInfo) :
    (∃ info, purgeAction db job c = some (.delete info) ∧ info.type = .table) ↔
      ∃ n, c.fileName.parsed = some (n, .table) ∧ keepTable job n = false := by
  rw [purgeAction]
  cases hparsed : c.fileName.parsed with
  | none => simp
  | some p =>
  obtain ⟨n, type⟩ := p
  by_cases htable : type = .table
  · subst htable
    cases hkeep : keepTable job n <;> simp [keep, hkeep]
  have hne : ∀ m, ¬ some (n, type) = some (m, FileType.table) :=
    fun m h => htable (congrArg Prod.snd (Option.some.inj h))
  refine iff_of_false ?_ (fun ⟨m, h, _⟩ => hne m h)
  rintro ⟨info, hinfo, htype⟩
  simp only [if_neg htable] at hinfo
  split at hinfo
  · exact nomatch hinfo
  split at hinfo
  · exact nomatch hinfo
  · cases hinfo
    exact htable htype

/-- **THE TWO PURGES AGREE** exactly when the job deletes no table file. -/
theorem scheduled_purge_iff (db : DbOptions) (job : JobContext) (st : State K) :
    SameEffect db job st ↔ ∀ c ∈ candidateFiles db job, ∀ n,
      c.fileName.parsed = some (n, .table) → n ∈ job.sstLive ∨ job.minPendingOutput ≤ n := by
  have hkeep : (∀ c ∈ candidateFiles db job, ∀ n, c.fileName.parsed = some (n, .table) →
      n ∈ job.sstLive ∨ job.minPendingOutput ≤ n) ↔
      ∀ info ∈ deletedBy ((candidateFiles db job).filterMap (purgeAction db job)),
        info.type ≠ .table := by
    constructor
    · intro hall info hinfo htable
      obtain ⟨a, ha, hdelete⟩ := List.mem_filterMap.mp hinfo
      obtain ⟨c, hc, haction⟩ := List.mem_filterMap.mp ha
      cases a with
      | archive fname n => exact nomatch hdelete
      | delete info' =>
      cases hdelete
      obtain ⟨n, hn, hgo⟩ := (purgeAction_table_iff db job c).mp ⟨info, haction, htable⟩
      have hstay : keepTable job n = true := by simpa [keepTable] using hall c hc n hn
      exact absurd (hgo.symm.trans hstay) Bool.noConfusion
    · intro hall c hc n hn
      by_contra hgo
      obtain ⟨info, haction, htable⟩ := (purgeAction_table_iff db job c).mpr
        ⟨n, hn, by simpa [keepTable] using hgo⟩
      refine hall info (List.mem_filterMap.mpr ⟨.delete info, ?_, rfl⟩) htable
      exact List.mem_filterMap.mpr ⟨c, hc, haction⟩
  rw [hkeep, SameEffect, purgeObsoleteFiles, purgeObsoleteFiles, purgeLoop_scheduled,
    Option.bind_some, List.nil_append]
  constructor
  · rintro ⟨st', -, hscheduled⟩ info hinfo htable
    rw [backgroundCallPurge_table _ ⟨info, hinfo, htable⟩] at hscheduled
    exact nomatch hscheduled
  · intro hall
    exact ⟨_, purgeLoop_inline _ _ hall st, backgroundCallPurge_eq _ hall _⟩

/-- An obsolete NVM table in the queue. -/
theorem scheduled_purge_of_nvm_table :
    let job : JobContext :=
      { sstDeleteFiles := [⟨7, "/db", some 0⟩], manifestFileNumber := 3, minPendingOutput := 10 }
    let db : DbOptions := ⟨"/db", "/db", false⟩
    let st : State Nat :=
      { modules := fun _ => ⟨⟨[], [⟨7, 0, [], 0⟩]⟩, ⟨fun _ => 0, [true], 100, 1⟩⟩ }
    ((purgeObsoleteFiles db job false st).map (fun r => (r.1.modules 0).dir.files.length)
      = some 0) ∧
    ((purgeObsoleteFiles db job true st).bind
      (fun r => backgroundCallPurge r.2 r.1)).isNone = true := by
  decide

end ScheduledPurge
