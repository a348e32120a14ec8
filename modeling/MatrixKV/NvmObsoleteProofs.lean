import MatrixKV.NvmRunProofs
import MatrixKV.SlotOwnershipProofs
import MatrixKV.RefCountProofs

/-! # The life of an NVM table — Version::~Version, Find/PurgeObsoleteFiles

    Versions hold file objects and count references to them; several objects may
    carry one file number, since a column compaction deletes and adds a table again
    under its number.  An object that loses its last reference goes to
    `obsolete_files_`.  A job takes the obsolete files below the smallest pending
    output, together with a snapshot of the numbers of all live versions, and
    deletes what is not in the snapshot.

    * `Step` interleaves flushes, edits, readers, jobs and the single deletions of purges.
    * `Inv` — a table that is listed, or waits to be, is in the directory, and no job is
      about to delete it.
    * `follows_run` — without counts and jobs these are runs of `NvmRun.Step`.
    * `lives_while_listed` — a table is there as long as a version lists it, and no longer. -/

namespace NvmObsolete

open List DbFormat SstableMeta L0TableBuilder NvmFlush VersionBuilder NvmRun SlotOwnership
  RefCount

variable {K : Type}

/-! ## The model -/

/-- A `FileMetaData` object: its identity and its content. -/
structure Obj (K : Type) where
  id : Nat
  file : FileMetaData K
  deriving DecidableEq

/-- A version with its reference count and its level 0. -/
structure Version (K : Type) where
  refs : Nat
  files : List (Obj K)

/-- What `FindObsoleteFiles` hands to a purge. -/
structure JobContext (K : Type) where
  jobId : Nat
  sstDeleteFiles : List (FileMetaData K)
  sstLive : List Nat
  /-- `none` when nothing is pending: then it is the largest number there is -/
  minPendingOutput : Option Nat
  /-- numbers of the table files a full scan has found on disk -/
  fullScanCandidates : List Nat

/-- A job and the numbers its purge has still to delete. -/
structure Purge (K : Type) where
  job : JobContext K
  remaining : List Nat

structure State (K : Type) where
  cf : NvmCf K
  nextFileNumber : Nat
  /-- numbers of flush jobs that have not built their table yet -/
  picked : List Nat := []
  /-- tables of finished flush jobs whose edit is not installed yet -/
  built : List (FileMetaData K) := []
  current : Version K
  /-- the other versions that are still referenced -/
  older : List (Version K) := []
  /-- `FileMetaData::refs` -/
  refs : Obj K → Nat := fun _ => 0
  nextObj : Nat := 0
  obsoleteFiles : List (FileMetaData K) := []
  pendingOutputs : List Nat := []
  nextJobId : Nat := 0
  jobs : List (Purge K) := []

/-- What the versions of the family hold. -/
def State.holders (s : State K) : List (List (Obj K)) :=
  s.current.files :: s.older.map Version.files

/-- A live version holds the object. -/
def State.Holds (s : State K) (o : Obj K) : Prop := ∃ l ∈ s.holders, o ∈ l

/-- A live version lists the number. -/
def State.Lists (s : State K) (n : Nat) : Prop := ∃ o, s.Holds o ∧ o.file.number = n

/-- Level 0 of the current version. -/
def State.level0 (s : State K) : List (FileMetaData K) := s.current.files.map Obj.file

/-- The number is below every pending output. -/
def State.Below (s : State K) (n : Nat) : Prop := ∀ p ∈ s.pendingOutputs, n < p

/-- `Version::Unref` for the version `v` between `l₁` and `l₂`: with its last
    reference `~Version` gives back its objects. -/
def unref (s : State K) [DecidableEq K] (l₁ : List (Version K)) (v : Version K)
    (l₂ : List (Version K)) : State K :=
  if v.refs - 1 = 0 then
    { s with
      older := l₁ ++ l₂
      refs := (dropAll s.refs v.files).1
      obsoleteFiles := s.obsoleteFiles ++ (dropAll s.refs v.files).2.map Obj.file }
  else { s with older := l₁ ++ { v with refs := v.refs - 1 } :: l₂ }

/-- New objects for the new files of an edit. -/
def newObjects (next : Nat) (fs : List (FileMetaData K)) : List (Obj K) :=
  fs.mapIdx (fun i f => { id := next + i, file := f })

/-- The objects of a saved level: the edit's own before those of the base. -/
def saveObjects [DecidableEq K] (objs : List (Obj K)) (fs : List (FileMetaData K)) :
    List (Obj K) :=
  fs.filterMap (fun f => objs.find? (fun o => o.file = f))

/-- The objects of the version an edit leads to. -/
def savedObjects [DecidableEq K] (s : State K) (edit : VersionEdit K) : List (Obj K) :=
  saveObjects (newObjects s.nextObj edit.newFiles ++ s.current.files) (applyEdit s.level0 edit)

/-- The saved version takes its references and becomes the current one. -/
def appendVersion [DecidableEq K] (s : State K) (edit : VersionEdit K)
    (built : List (FileMetaData K)) : State K :=
  { s with
    built := built
    nextObj := s.nextObj + edit.newFiles.length
    refs := retain s.refs (savedObjects s edit)
    current := { refs := 1, files := savedObjects s edit } }

/-- `LogAndApply`: with the new version in place the old current one is
    unreferenced. -/
def installEdit [DecidableEq K] (s : State K) (edit : VersionEdit K)
    (built : List (FileMetaData K)) : State K :=
  unref (appendVersion s edit built) [] s.current s.older

/-! ## Jobs -/

/-- The test of `GetObsoleteFiles`. -/
def belowPending (minPendingOutput : Option Nat) (n : Nat) : Bool :=
  match minPendingOutput with
  | none => true
  | some p => n < p

/-- `FindObsoleteFiles`. -/
def jobContext (s : State K) (scan : List Nat) : JobContext K :=
  { jobId := s.nextJobId
    sstDeleteFiles := s.obsoleteFiles.filter (fun f => belowPending s.pendingOutputs.head? f.number)
    sstLive := s.holders.flatten.map (fun o => o.file.number)
    minPendingOutput := s.pendingOutputs.head?
    fullScanCandidates := scan }

/-- `keep` of `PurgeObsoleteFiles` for a table file. -/
def keepTable (job : JobContext K) (n : Nat) : Bool :=
  n ∈ job.sstLive || !belowPending job.minPendingOutput n

/-- The candidates of `PurgeObsoleteFiles` that are deleted, each one once. -/
def filesToDel (job : JobContext K) : List Nat :=
  (job.fullScanCandidates ++ job.sstDeleteFiles.map FileMetaData.number).dedup.filter
    (fun n => !keepTable job n)

/-- The NVM module is known to the purge through an obsolete NVM file. -/
def hasNvmcf (job : JobContext K) : Bool := job.sstDeleteFiles.any FileMetaData.isNvmLevel0

/-- `DeleteObsoleteFileImpl` for a table file. -/
def deleteObsoleteFileImpl (job : JobContext K) (cf : NvmCf K) (n : Nat) : NvmCf K :=
  if hasNvmcf job && (cf.dir.findFile n).isSome then deleteL0file cf n else cf

def findObsoleteFiles (s : State K) (scan : List Nat) : State K :=
  { s with
    obsoleteFiles := s.obsoleteFiles.filter
      (fun f => !belowPending s.pendingOutputs.head? f.number)
    nextJobId := s.nextJobId + 1
    jobs := { job := jobContext s scan, remaining := filesToDel (jobContext s scan) } :: s.jobs }

/-! ## Steps -/

inductive Event
  | flush
  | edit
  | reader
  | pending
  | find
  | purge (jobId : Nat)
  deriving DecidableEq, Repr

variable [LinearOrder K] [UserKeyCodec K]

inductive Step : State K → Event → State K → Prop
  /-- a flush job takes its file number -/
  | pick (s : State K) :
      Step s .flush { s with
        nextFileNumber := s.nextFileNumber + 1
        picked := s.nextFileNumber :: s.picked }
  /-- a flush job builds its table, with success or not -/
  | build (s : State K) (inp : FlushInput K) (res : FlushResult K)
      (hpicked : inp.number ∈ s.picked) (hrun : buildInsertNvm s.cf inp = some res) :
      Step s .flush { s with
        cf := res.cf
        picked := s.picked.erase inp.number
        built := flushedFiles inp.number res ++ s.built }
  /-- the edit of a finished flush is installed -/
  | install (s : State K) (f : FileMetaData K) (hbuilt : f ∈ s.built) :
      Step s .edit (installEdit s { newFiles := [f] } (s.built.erase f))
  /-- the edit of a column compaction is installed -/
  | columnEdit (s : State K) (edit : VersionEdit K) (hedit : ColumnEdit s.level0 edit) :
      Step s .edit (installEdit s edit s.built)
  /-- a reader references the current version -/
  | refCurrent (s : State K) :
      Step s .reader { s with current := { s.current with refs := s.current.refs + 1 } }
  /-- a reader references a version it holds -/
  | refOlder (s : State K) (l₁ l₂ : List (Version K)) (v : Version K)
      (holder : s.older = l₁ ++ v :: l₂) :
      Step s .reader { s with older := l₁ ++ { v with refs := v.refs + 1 } :: l₂ }
  /-- a reader lets go of the current version; one reference is the family's own -/
  | unrefCurrent (s : State K) (hrefs : 1 < s.current.refs) :
      Step s .reader { s with current := { s.current with refs := s.current.refs - 1 } }
  /-- a reader lets go of another version -/
  | unrefOlder (s : State K) (l₁ l₂ : List (Version K)) (v : Version K)
      (holder : s.older = l₁ ++ v :: l₂) : Step s .reader (unref s l₁ v l₂)
  /-- `CaptureCurrentFileNumberInPendingOutputs` -/
  | capture (s : State K) :
      Step s .pending { s with pendingOutputs := s.pendingOutputs ++ [s.nextFileNumber] }
  /-- `ReleaseFileNumberFromPendingOutputs` -/
  | release (s : State K) (i : Nat) :
      Step s .pending { s with pendingOutputs := s.pendingOutputs.eraseIdx i }
  /-- `FindObsoleteFiles`; the files of a full scan are not in NVM -/
  | find (s : State K) (scan : List Nat)
      (hscan : ∀ n ∈ scan, n < s.nextFileNumber ∧ n ∉ s.picked ∧
        ∀ e ∈ s.cf.dir.files, e.filenum ≠ n) :
      Step s .find (findObsoleteFiles s scan)
  /-- a purge deletes its next file -/
  | purgeFile (s : State K) (js₁ js₂ : List (Purge K)) (p : Purge K) (n : Nat) (rest : List Nat)
      (hjobs : s.jobs = js₁ ++ p :: js₂) (hnext : p.remaining = n :: rest) :
      Step s (.purge p.job.jobId) { s with
        cf := deleteObsoleteFileImpl p.job s.cf n
        jobs := js₁ ++ { p with remaining := rest } :: js₂ }
  /-- a purge ends -/
  | finish (s : State K) (js₁ js₂ : List (Purge K)) (p : Purge K)
      (hjobs : s.jobs = js₁ ++ p :: js₂) (hdone : p.remaining = []) :
      Step s (.purge p.job.jobId) { s with jobs := js₁ ++ js₂ }

/-- A new database, with nothing in NVM. -/
structure Initial (s : State K) : Prop where
  files : s.cf.dir.files = []
  slots : ∀ i, ¬ s.cf.pool.Used i
  useNum : s.cf.pool.useNum = 0
  picked : s.picked = []
  built : s.built = []
  current : s.current.files = []
  older : s.older = []
  refs : ∀ o, s.refs o = 0
  obsolete : s.obsoleteFiles = []
  pending : s.pendingOutputs = []
  jobs : s.jobs = []

/-- Runs whose events all meet the condition `C`. -/
def Path (C : State K → Event → Prop) : State K → State K → Prop :=
  Relation.ReflTransGen (fun s s' => ∃ e, C s e ∧ Step s e s')

/-- The states of all runs from a new database. -/
def Reachable (s : State K) : Prop := ∃ s₀, Initial s₀ ∧ Path (fun _ _ => True) s₀ s

/-- The job's purge is not over. -/
def State.Open (s : State K) (jobId : Nat) : Prop := ∃ p ∈ s.jobs, p.job.jobId = jobId

/-! ## Versions come and go -/

variable {fs : List (FileMetaData K)} {s : State K}

section Versions

omit [LinearOrder K] [UserKeyCodec K]

variable [DecidableEq K]

/-- What becomes of the objects when a version is unreferenced. -/
structure Unreferenced (s : State K) (v : Version K) (rest : List (List (Obj K)))
    (s' : State K) : Prop where
  counts : Counts s'.refs s'.holders
  held : ∀ l ∈ s'.holders, l = v.files ∨ l ∈ rest
  kept : ∀ l ∈ rest, l ∈ s'.holders
  dropped : ∀ o ∈ v.files, s'.Holds o ∨ o.file ∈ s'.obsoleteFiles
  obsolete : ∀ f ∈ s'.obsoleteFiles, f ∈ s.obsoleteFiles ∨ ∃ o ∈ v.files, o.file = f
  mono : ∀ f ∈ s.obsoleteFiles, f ∈ s'.obsoleteFiles

theorem unref_spec (l₁ l₂ : List (Version K)) (v : Version K)
    (h : Counts s.refs (s.current.files :: (l₁ ++ v :: l₂).map Version.files)) :
    Unreferenced s v (s.current.files :: (l₁ ++ l₂).map Version.files) (unref s l₁ v l₂) := by
  have hperm : (s.current.files :: (l₁ ++ v :: l₂).map Version.files).Perm
      (v.files :: s.current.files :: (l₁ ++ l₂).map Version.files) := by
    refine List.Perm.trans (List.Perm.cons _ ?_) (List.Perm.swap _ _ _)
    exact perm_middle.map Version.files
  obtain ⟨hcounts, hcollected⟩ := (h.perm hperm).dropAll
  rw [unref]
  split_ifs with hlast
  · exact {
      counts := hcounts
      held := fun l hl => .inr hl
      kept := fun l hl => hl
      dropped := by
        intro o ho
        by_cases hheld : ∃ l ∈ s.current.files :: (l₁ ++ l₂).map Version.files, o ∈ l
        · exact .inl hheld
        · refine .inr (mem_append_right _ (mem_map_of_mem ((hcollected o).mpr ?_)))
          exact ⟨ho, fun l hl hol => hheld ⟨l, hl, hol⟩⟩
      obsolete := by
        intro f hf
        rcases mem_append.mp hf with hf | hf
        · exact .inl hf
        · obtain ⟨o, ho, rfl⟩ := mem_map.mp hf
          exact .inr ⟨o, ((hcollected o).mp ho).1, rfl⟩
      mono := fun f hf => mem_append_left _ hf }
  have hsame : (l₁ ++ { v with refs := v.refs - 1 } :: l₂).map Version.files
      = (l₁ ++ v :: l₂).map Version.files := by
    rw [map_append, map_append]
    rfl
  have hholders : ({ s with older := l₁ ++ { v with refs := v.refs - 1 } :: l₂ } : State K).holders
      = s.current.files :: (l₁ ++ v :: l₂).map Version.files :=
    congrArg (List.cons s.current.files) hsame
  exact {
    counts := by rw [hholders]; exact h
    held := by
      intro l hl
      rw [hholders] at hl
      exact mem_cons.mp (hperm.mem_iff.mp hl)
    kept := by
      intro l hl
      rw [hholders]
      exact hperm.mem_iff.mpr (.tail _ hl)
    dropped := by
      intro o ho
      refine .inl ⟨v.files, ?_, ho⟩
      rw [hholders]
      exact hperm.mem_iff.mpr (.head _)
    obsolete := fun f hf => .inl hf
    mono := fun f hf => hf }

/-- The rest of the state does not change. -/
theorem unref_frame (s : State K) (l₁ l₂ : List (Version K)) (v : Version K) :
    (unref s l₁ v l₂).cf = s.cf ∧ (unref s l₁ v l₂).nextFileNumber = s.nextFileNumber ∧
    (unref s l₁ v l₂).picked = s.picked ∧ (unref s l₁ v l₂).built = s.built ∧
    (unref s l₁ v l₂).current = s.current ∧ (unref s l₁ v l₂).pendingOutputs = s.pendingOutputs ∧
    (unref s l₁ v l₂).nextJobId = s.nextJobId ∧ (unref s l₁ v l₂).jobs = s.jobs := by
  rw [unref]
  split <;> exact ⟨rfl, rfl, rfl, rfl, rfl, rfl, rfl, rfl⟩

omit [DecidableEq K] in
theorem map_file_newObjects (next : Nat) (fs : List (FileMetaData K)) :
    (newObjects next fs).map Obj.file = fs := by
  refine ext_getElem (by rw [newObjects, length_map, length_mapIdx]) ?_
  intro i _ _
  rw [getElem_map]
  simp only [newObjects, getElem_mapIdx]

theorem map_file_saveObjects {objs : List (Obj K)} :
    (∀ f ∈ fs, ∃ o ∈ objs, o.file = f) → (saveObjects objs fs).map Obj.file = fs := by
  induction fs with
  | nil => exact fun _ => rfl
  | cons f fs ih =>
  intro h
  obtain ⟨o, ho, hof⟩ := h f (.head _)
  cases hfind : objs.find? (fun o => o.file = f) with
  | none =>
    have hnone := find?_eq_none.mp hfind o ho
    exact absurd hof (by simpa using hnone)
  | some o' =>
  have hfile : o'.file = f := by simpa using find?_some hfind
  rw [saveObjects, filterMap_cons, hfind]
  show o'.file :: (saveObjects objs fs).map Obj.file = _
  rw [hfile, ih (fun g hg => h g (.tail f hg))]

theorem mem_saveObjects {objs : List (Obj K)} {o : Obj K} (h : o ∈ saveObjects objs fs) :
    o ∈ objs := by
  obtain ⟨f, -, hfind⟩ := mem_filterMap.mp h
  exact mem_of_find?_eq_some hfind

/-- What becomes of the versions when one or more of them change hands. -/
structure Changed (s s' : State K) (added : List (FileMetaData K)) : Prop where
  counts : Counts s'.refs s'.holders
  held : ∀ o, s'.Holds o → s.Holds o ∨ o.file ∈ added
  dropped : ∀ o, s.Holds o → s'.Holds o ∨ o.file ∈ s'.obsoleteFiles
  obsolete : ∀ f ∈ s'.obsoleteFiles, f ∈ s.obsoleteFiles ∨ ∃ o, s.Holds o ∧ o.file = f
  mono : ∀ f ∈ s.obsoleteFiles, f ∈ s'.obsoleteFiles

theorem unref_changed {l₁ l₂ : List (Version K)} {v : Version K} (h : Counts s.refs s.holders)
    (holder : s.older = l₁ ++ v :: l₂) : Changed s (unref s l₁ v l₂) [] := by
  have hholders : s.holders = s.current.files :: (l₁ ++ v :: l₂).map Version.files := by
    rw [State.holders, holder]
  have hun := unref_spec l₁ l₂ v (hholders ▸ h)
  have hv : v.files ∈ s.holders := by
    rw [hholders]
    exact .tail _ (mem_map_of_mem (mem_append_right _ (.head _)))
  have hrest : ∀ l ∈ s.current.files :: (l₁ ++ l₂).map Version.files, l ∈ s.holders := by
    intro l hl
    rw [hholders]
    rcases mem_cons.mp hl with rfl | hl
    · exact .head _
    · refine mem_cons_of_mem _ (map_subset _ ?_ hl)
      exact ((sublist_cons_self v l₂).append_left l₁).subset
  exact { hun with
    held := by
      rintro o ⟨l, hl, ho⟩
      rcases hun.held l hl with rfl | hl
      · exact .inl ⟨_, hv, ho⟩
      · exact .inl ⟨l, hrest l hl, ho⟩
    dropped := by
      rintro o ⟨l, hl, ho⟩
      rw [hholders] at hl
      rcases mem_cons.mp hl with rfl | hl
      · exact .inl ⟨_, hun.kept _ (.head _), ho⟩
      rw [map_append, map_cons] at hl
      rcases mem_append.mp hl with hl | hl
      · refine .inl ⟨l, hun.kept l (.tail _ ?_), ho⟩
        rw [map_append]
        exact mem_append_left _ hl
      rcases mem_cons.mp hl with rfl | hl
      · exact hun.dropped o ho
      refine .inl ⟨l, hun.kept l (.tail _ ?_), ho⟩
      rw [map_append]
      exact mem_append_right _ hl
    obsolete := by
      intro f hf
      rcases hun.obsolete f hf with hf | ⟨o, ho, hof⟩
      · exact .inl hf
      · exact .inr ⟨o, ⟨_, hv, ho⟩, hof⟩ }

/-- **ONE EDIT**: the new level is the one the builder saves; an object is held
    on, was added by the edit, or is obsolete. -/
theorem installEdit_changed (edit : VersionEdit K) (h : Counts s.refs s.holders)
    (hsave : ∀ f ∈ applyEdit s.level0 edit, f ∈ edit.newFiles ∨ f ∈ s.level0)
    (built : List (FileMetaData K)) :
    (installEdit s edit built).level0 = applyEdit s.level0 edit ∧
    Changed s (installEdit s edit built) edit.newFiles := by
  have hnew : (newObjects s.nextObj edit.newFiles).map Obj.file = edit.newFiles :=
    map_file_newObjects _ _
  have hlevel : (savedObjects s edit).map Obj.file = applyEdit s.level0 edit := by
    refine map_file_saveObjects ?_
    intro f hf
    rcases hsave f hf with hf | hf
    · rw [← hnew] at hf
      obtain ⟨o, ho, hof⟩ := mem_map.mp hf
      exact ⟨o, mem_append_left _ ho, hof⟩
    · obtain ⟨o, ho, hof⟩ := mem_map.mp hf
      exact ⟨o, mem_append_right _ ho, hof⟩
  have hsaved : ∀ o ∈ savedObjects s edit, o.file ∈ edit.newFiles ∨ o ∈ s.current.files := by
    intro o ho
    rcases mem_append.mp (mem_saveObjects ho) with ho | ho
    · refine .inl ?_
      rw [← hnew]
      exact mem_map_of_mem ho
    · exact .inr ho
  -- the references are taken before the old current version gives up its own
  have hun : Unreferenced (appendVersion s edit built) s.current
      (savedObjects s edit :: s.older.map Version.files) (installEdit s edit built) :=
    unref_spec [] s.older s.current (h.retain (savedObjects s edit))
  have hcurrent : (installEdit s edit built).current = (appendVersion s edit built).current :=
    (unref_frame _ [] s.older s.current).2.2.2.2.1
  refine ⟨(congrArg (fun v => v.files.map Obj.file) hcurrent).trans hlevel, ?_⟩
  exact { hun with
    held := by
      rintro o ⟨l, hl, ho⟩
      rcases hun.held l hl with rfl | hl
      · exact .inl ⟨_, .head _, ho⟩
      rcases mem_cons.mp hl with rfl | hl
      · rcases hsaved o ho with hnewo | hold
        · exact .inr hnewo
        · exact .inl ⟨_, .head _, hold⟩
      · exact .inl ⟨l, .tail _ hl, ho⟩
    dropped := by
      rintro o ⟨l, hl, ho⟩
      rcases mem_cons.mp hl with rfl | hl
      · exact hun.dropped o ho
      · exact .inl ⟨l, hun.kept l (.tail _ hl), ho⟩
    obsolete := by
      intro f hf
      rcases hun.obsolete f hf with hf | ⟨o, ho, hof⟩
      · exact .inl hf
      · exact .inr ⟨o, ⟨_, .head _, ho⟩, hof⟩ }

end Versions

/-! ## The room of a flush -/

/-- A flush that ran leaves the module as it is, or with one more entry; the file
    it delivers describes that entry. -/
theorem build_room {cf : NvmCf K} {inp : FlushInput K} {res : FlushResult K}
    (hrun : buildInsertNvm cf inp = some res) :
    (res.cf = cf ∧ flushedFiles inp.number res = []) ∨
    ∃ e, res.cf.dir.files = e :: cf.dir.files ∧ e.filenum = inp.number ∧
      cf.pool.bitmap[e.sstableIndex]? = some false ∧
      (∀ i, res.cf.pool.Used i ↔ i = e.sstableIndex ∨ cf.pool.Used i) ∧
      res.cf.pool.useNum = (cf.pool.useNum + 1) % 2 ^ 64 ∧
      ∀ f ∈ flushedFiles inp.number res,
        f.number = e.filenum ∧ f.nvmSstableIndex = e.sstableIndex ∧ f.isNvmLevel0 = true := by
  refine (build_adds hrun).imp_right fun ⟨e, h⟩ =>
    ⟨e, h.files, h.number, h.free, h.used, h.useNum, fun f hf => ?_⟩
  have hfin := h.finished f hf
  exact ⟨hfin.number.trans h.number.symm, hfin.slot, hfin.nvm⟩

/-! ## The invariant -/

variable {n : Nat}

section Invariant

omit [UserKeyCodec K]

/-- The directory has the entry the file describes. -/
def EntryFor (cf : NvmCf K) (f : FileMetaData K) : Prop :=
  ∃ e ∈ cf.dir.files, e.filenum = f.number ∧ e.sstableIndex = f.nvmSstableIndex

/-- The number was handed out, and no flush is under way that uses it. -/
structure Taken (s : State K) (n : Nat) : Prop where
  lt : n < s.nextFileNumber
  picked : n ∉ s.picked
  built : ∀ f ∈ s.built, f.number ≠ n

/-- Nobody will list the number again. -/
structure Dead (s : State K) (n : Nat) : Prop where
  taken : Taken s n
  unlisted : ¬ s.Lists n

structure Inv (s : State K) : Prop where
  owns : Owns s.cf
  counts : Counts s.refs s.holders
  files : ∀ e ∈ s.cf.dir.files, e.filenum < s.nextFileNumber ∧ e.filenum ∉ s.picked
  picked : ∀ n ∈ s.picked, n < s.nextFileNumber
  pickedNodup : s.picked.Nodup
  held : ∀ o, s.Holds o → EntryFor s.cf o.file ∧ o.file.isNvmLevel0 = true
  built : ∀ f ∈ s.built, EntryFor s.cf f ∧ f.isNvmLevel0 = true
  builtUnlisted : ∀ f ∈ s.built, ¬ s.Lists f.number
  builtDistinct : DistinctNumbers s.built
  sorted : NewestFirst s.level0
  obsolete : ∀ f ∈ s.obsoleteFiles, Taken s f.number ∧ f.isNvmLevel0 = true
  jobs : ∀ p ∈ s.jobs, ∀ n ∈ p.remaining, Dead s n
  jobIds : ∀ p ∈ s.jobs, p.job.jobId < s.nextJobId
  jobIdsNodup : (s.jobs.map (fun p => p.job.jobId)).Nodup

theorem Inv.entry_of_lists (h : Inv s) (hn : s.Lists n) : ∃ e ∈ s.cf.dir.files, e.filenum = n := by
  obtain ⟨o, ho, rfl⟩ := hn
  obtain ⟨⟨e, he, hnum, -⟩, -⟩ := h.held o ho
  exact ⟨e, he, hnum⟩

/-- A listed number is taken. -/
theorem Inv.taken_of_lists (h : Inv s) (hn : s.Lists n) : Taken s n := by
  obtain ⟨e, he, hnum⟩ := h.entry_of_lists hn
  obtain ⟨hlt, hpicked⟩ := h.files e he
  refine ⟨hnum ▸ hlt, hnum ▸ hpicked, ?_⟩
  intro f hf heq
  exact h.builtUnlisted f hf (heq ▸ hn)

theorem Inv.initial (h : Initial s) : Inv s where
  owns :=
    { numbers := by rw [h.files]; exact nodup_nil
      slots := by rw [h.files]; exact nodup_nil
      used := by
        intro i
        rw [h.files]
        exact iff_of_false (h.slots i) (fun ⟨_, he, _⟩ => nomatch he)
      useNum := by rw [h.files, h.useNum]; rfl }
  counts := by
    intro o
    rw [h.refs, State.holders, h.current, h.older]
    rfl
  files := by rw [h.files]; exact nofun
  picked := by rw [h.picked]; exact nofun
  pickedNodup := by rw [h.picked]; exact nodup_nil
  held := by
    rintro o ⟨l, hl, ho⟩
    rw [State.holders, h.current, h.older] at hl
    rw [mem_singleton.mp hl] at ho
    exact nomatch ho
  built := by rw [h.built]; exact nofun
  builtUnlisted := by rw [h.built]; exact nofun
  builtDistinct := by rw [h.built]; exact .nil
  sorted := by rw [State.level0, h.current]; exact .nil
  obsolete := by rw [h.obsolete]; exact nofun
  jobs := by rw [h.jobs]; exact nofun
  jobIds := by rw [h.jobs]; exact nofun
  jobIdsNodup := by rw [h.jobs]; exact nodup_nil

end Invariant

/-! ## What a step can do -/

/-- The effect of a step on the numbers: which ones come into use, which tables
    come into the directory, and what becomes of listed and obsolete files. -/
structure Effect (s : State K) (ev : Event) (s' : State K) : Prop where
  next : s.nextFileNumber ≤ s'.nextFileNumber
  picked : ∀ n ∈ s'.picked, n ∈ s.picked ∨ s.nextFileNumber ≤ n
  built : ∀ f ∈ s'.built, f ∈ s.built ∨ f.number ∈ s.picked
  lists : ∀ n, s'.Lists n → s.Lists n ∨ ∃ f ∈ s.built, f.number = n
  entries : ∀ e ∈ s'.cf.dir.files, e ∈ s.cf.dir.files ∨ e.filenum ∈ s.picked
  dropped : ∀ o, s.Holds o → s'.Holds o ∨ o.file ∈ s'.obsoleteFiles
  obsolete : ∀ f ∈ s.obsoleteFiles, f ∈ s'.obsoleteFiles ∨ (ev = .find ∧
    belowPending s.pendingOutputs.head? f.number = true)
  purges : ∀ p ∈ s.jobs, hasNvmcf p.job = true → ∀ n ∈ p.remaining,
    (∃ p' ∈ s'.jobs, p'.job = p.job ∧ n ∈ p'.remaining) ∨
    ∀ e ∈ s'.cf.dir.files, e.filenum ≠ n

variable {ev : Event} {s' : State K}

section Effect

omit [LinearOrder K] [UserKeyCodec K]

theorem Effect.refl (s : State K) (ev : Event) : Effect s ev s where
  next := le_rfl
  picked := fun _ => .inl
  built := fun _ => .inl
  lists := fun _ => .inl
  entries := fun _ => .inl
  dropped := fun _ => .inl
  obsolete := fun _ => .inl
  purges := fun p hp _ _ hn => .inl ⟨p, hp, rfl, hn⟩

theorem Effect.taken (h : Effect s ev s') (hn : Taken s n) : Taken s' n where
  lt := hn.lt.trans_le h.next
  picked := by
    intro hmem
    rcases h.picked n hmem with hmem | hle
    · exact hn.picked hmem
    · exact absurd hn.lt (not_lt.mpr hle)
  built := by
    intro f hf heq
    rcases h.built f hf with hf | hf
    · exact hn.built f hf heq
    · exact hn.picked (heq ▸ hf)

theorem Effect.dead (h : Effect s ev s') (hn : Dead s n) : Dead s' n where
  taken := h.taken hn.taken
  unlisted := by
    intro hlists
    rcases h.lists n hlists with hlists | ⟨f, hf, heq⟩
    · exact hn.unlisted hlists
    · exact hn.taken.built f hf heq

/-- A taken number that is not in the directory does not come back. -/
theorem Effect.absent (h : Effect s ev s') (hn : Taken s n)
    (habsent : ∀ e ∈ s.cf.dir.files, e.filenum ≠ n) : ∀ e ∈ s'.cf.dir.files, e.filenum ≠ n := by
  intro e he heq
  rcases h.entries e he with he | he
  · exact habsent e he heq
  · exact hn.picked (heq ▸ he)

end Effect

section Changed

omit [UserKeyCodec K]

/-- A step that keeps the invariant and has its effect. -/
def Keeps (s : State K) (ev : Event) (s' : State K) : Prop := Inv s' ∧ Effect s ev s'

theorem Effect.keeps (heffect : Effect s ev s') (hinv : Effect s ev s' → Inv s') : Keeps s ev s' :=
  ⟨hinv heffect, heffect⟩

/-- A change of the versions has the effect of a step when its new files belong to
    listed or built tables. -/
theorem Changed.effect (h : Changed s s' fs) (hcf : s'.cf = s.cf)
    (hnext : s'.nextFileNumber = s.nextFileNumber) (hpicked : s'.picked = s.picked)
    (hbuilt : ∀ f ∈ s'.built, f ∈ s.built) (hjobs : s'.jobs = s.jobs)
    (hfs : ∀ f ∈ fs, s.Lists f.number ∨ ∃ b ∈ s.built, b.number = f.number) : Effect s ev s' where
  next := hnext ▸ le_refl _
  picked := fun n hn => .inl (hpicked ▸ hn)
  built := fun f hf => .inl (hbuilt f hf)
  lists := by
    rintro n ⟨o, ho, rfl⟩
    rcases h.held o ho with ho | ho
    · exact .inl ⟨o, ho, rfl⟩
    · exact hfs o.file ho
  entries := fun e he => .inl (hcf ▸ he)
  dropped := h.dropped
  obsolete := fun f hf => .inl (h.mono f hf)
  purges := fun p hp _ n hn => .inl ⟨p, hjobs ▸ hp, rfl, hn⟩

/-- A change of the versions keeps the invariant. -/
theorem Inv.changed (h : Inv s) (hchanged : Changed s s' fs) (heffect : Effect s ev s')
    (hcf : s'.cf = s.cf) (hnext : s'.nextFileNumber = s.nextFileNumber)
    (hpicked : s'.picked = s.picked) (hsub : s'.built.Sublist s.built) (hjobs : s'.jobs = s.jobs)
    (hjobId : s'.nextJobId = s.nextJobId) (hsorted : NewestFirst s'.level0)
    (hfs : ∀ f ∈ fs, EntryFor s.cf f ∧ f.isNvmLevel0 = true)
    (hbuilt : ∀ f ∈ s'.built, ∀ g ∈ fs, f.number ≠ g.number) : Inv s' where
  owns := hcf ▸ h.owns
  counts := hchanged.counts
  files := by
    rw [hcf, hnext, hpicked]
    exact h.files
  picked := by
    rw [hpicked, hnext]
    exact h.picked
  pickedNodup := hpicked ▸ h.pickedNodup
  held := by
    intro o ho
    rw [hcf]
    rcases hchanged.held o ho with ho | ho
    · exact h.held o ho
    · exact hfs o.file ho
  built := by
    intro f hf
    rw [hcf]
    exact h.built f (hsub.subset hf)
  builtUnlisted := by
    rintro f hf ⟨o, ho, heq⟩
    rcases hchanged.held o ho with ho | ho
    · exact h.builtUnlisted f (hsub.subset hf) ⟨o, ho, heq⟩
    · exact hbuilt f hf o.file ho heq.symm
  builtDistinct := h.builtDistinct.sublist hsub
  sorted := hsorted
  obsolete := by
    intro f hf
    rcases hchanged.obsolete f hf with hf | ⟨o, ho, rfl⟩
    · exact ⟨heffect.taken (h.obsolete f hf).1, (h.obsolete f hf).2⟩
    · exact ⟨heffect.taken (h.taken_of_lists ⟨o, ho, rfl⟩), (h.held o ho).2⟩
  jobs := by
    intro p hp n hn
    rw [hjobs] at hp
    exact heffect.dead (h.jobs p hp n hn)
  jobIds := by
    rw [hjobs, hjobId]
    exact h.jobIds
  jobIdsNodup := hjobs ▸ h.jobIdsNodup

/-- The versions keep their objects. -/
theorem changed_of_holders (h : Counts s.refs s.holders) (hholders : s'.holders = s.holders)
    (hrefs : s'.refs = s.refs) (hobsolete : s'.obsoleteFiles = s.obsoleteFiles) :
    Changed s s' [] where
  counts := by
    rw [hholders, hrefs]
    exact h
  held := by
    rintro o ⟨l, hl, ho⟩
    exact .inl ⟨l, hholders ▸ hl, ho⟩
  dropped := by
    rintro o ⟨l, hl, ho⟩
    exact .inl ⟨l, hholders ▸ hl, ho⟩
  obsolete := fun f hf => .inl (hobsolete ▸ hf)
  mono := fun f hf => hobsolete ▸ hf

/-- A step that touches neither the files nor the module. -/
theorem Inv.idle (h : Inv s) (ev : Event) (hholders : s'.holders = s.holders)
    (hrefs : s'.refs = s.refs) (hobsolete : s'.obsoleteFiles = s.obsoleteFiles) (hcf : s'.cf = s.cf)
    (hnext : s'.nextFileNumber = s.nextFileNumber) (hpicked : s'.picked = s.picked)
    (hbuilt : s'.built = s.built) (hjobs : s'.jobs = s.jobs) (hjobId : s'.nextJobId = s.nextJobId) :
    Keeps s ev s' := by
  have hchanged := changed_of_holders h.counts hholders hrefs hobsolete
  have hlevel : s'.level0 = s.level0 :=
    congrArg (fun l => (l.headD []).map Obj.file) hholders
  exact (hchanged.effect hcf hnext hpicked (fun f hf => hbuilt ▸ hf) hjobs nofun).keeps
    fun heffect => h.changed hchanged heffect hcf hnext hpicked (hbuilt ▸ .refl _)
      hjobs hjobId (hlevel ▸ h.sorted) (fun f hf => nomatch hf) (fun f _ g hg => nomatch hg)

end Changed

/-! ## One step -/

section Steps

variable {s : State K}

section

omit [UserKeyCodec K]

theorem Inv.pick (h : Inv s) : Keeps s .flush { s with
    nextFileNumber := s.nextFileNumber + 1
    picked := s.nextFileNumber :: s.picked } := by
  refine Effect.keeps ?_ fun heffect => ?_
  · exact { Effect.refl s .flush with
      next := Nat.le_succ _
      picked := by
        intro n hn
        rcases mem_cons.mp hn with rfl | hn
        · exact .inr le_rfl
        · exact .inl hn }
  · exact { h with
      files := fun e he => inUse_pick (h.files e he)
      picked := (picked_pick h.picked h.pickedNodup).1
      pickedNodup := (picked_pick h.picked h.pickedNodup).2
      obsolete := fun f hf => ⟨heffect.taken (h.obsolete f hf).1, (h.obsolete f hf).2⟩
      jobs := fun p hp n hn => heffect.dead (h.jobs p hp n hn) }

/-- An edit whose new files describe known tables, and that adds a listed number
    only if it deletes it. -/
theorem Inv.edit (h : Inv s) {edit : VersionEdit K} (built : List (FileMetaData K))
    (hnew : ∀ f ∈ edit.newFiles, EntryFor s.cf f ∧ f.isNvmLevel0 = true)
    (hdist : DistinctNumbers edit.newFiles)
    (hdeleted : ∀ f ∈ edit.newFiles, ∀ b ∈ s.level0, f.number = b.number →
      b.number ∈ edit.deletedFiles)
    (hlists : ∀ f ∈ edit.newFiles, s.Lists f.number ∨ ∃ b ∈ s.built, b.number = f.number)
    (hsub : built.Sublist s.built)
    (hbuilt : ∀ f ∈ built, ∀ g ∈ edit.newFiles, f.number ≠ g.number) :
    Keeps s .edit (installEdit s edit built) ∧
    (installEdit s edit built).level0 = applyEdit s.level0 edit := by
  obtain ⟨hsorted, hmem⟩ := applyEdit_spec edit h.sorted (fun f hf => (hnew f hf).2) hdist hdeleted
  obtain ⟨hlevel, hchanged⟩ := installEdit_changed edit h.counts
    (fun f hf => ((hmem f).mp hf).imp_right And.left) built
  obtain ⟨h1, h2, h3, h4, -, -, h7, h8⟩ :=
    unref_frame (appendVersion s edit built) [] s.older s.current
  have hbuilt' : (installEdit s edit built).built = built := h4
  refine ⟨(hchanged.effect h1 h2 h3 (fun f hf => hsub.subset (hbuilt' ▸ hf)) h8 hlists).keeps
    fun heffect => h.changed hchanged heffect h1 h2 h3 ?_ h8 h7 (hlevel ▸ hsorted) hnew ?_, hlevel⟩
  · rw [hbuilt']
    exact hsub
  · rw [hbuilt']
    exact hbuilt

omit [LinearOrder K] in
theorem lists_of_level0 {f : FileMetaData K} (hf : f ∈ s.level0) : s.Lists f.number := by
  obtain ⟨o, ho, rfl⟩ := mem_map.mp hf
  exact ⟨o, ⟨_, .head _, ho⟩, rfl⟩

theorem Inv.install (h : Inv s) (f : FileMetaData K) (hbuilt : f ∈ s.built) :
    Keeps s .edit (installEdit s { newFiles := [f] } (s.built.erase f)) ∧
    (installEdit s { newFiles := [f] } (s.built.erase f)).level0
      = applyEdit s.level0 { newFiles := [f] } := by
  refine h.edit _ ?_ (pairwise_singleton _ _) ?_ ?_ erase_sublist ?_
  · intro g hg
    rw [mem_singleton.mp hg]
    exact h.built f hbuilt
  · intro g hg b hb heq
    rw [mem_singleton.mp hg] at heq
    exact absurd (heq ▸ lists_of_level0 hb) (h.builtUnlisted f hbuilt)
  · intro g hg
    rw [mem_singleton.mp hg]
    exact .inr ⟨f, hbuilt, rfl⟩
  · intro g hg x hx
    rw [mem_singleton.mp hx]
    exact h.builtDistinct.ne_of_mem_erase hbuilt hg

theorem Inv.columnEdit (h : Inv s) (edit : VersionEdit K) (hedit : ColumnEdit s.level0 edit) :
    Keeps s .edit (installEdit s edit s.built) ∧
    (installEdit s edit s.built).level0 = applyEdit s.level0 edit := by
  refine h.edit s.built ?_ hedit.distinct hedit.deleted ?_ (.refl _) ?_
  · intro f' hf'
    obtain ⟨f, hf, -, hadv⟩ := hedit.advanced f' hf'
    obtain ⟨o, ho, rfl⟩ := mem_map.mp hf
    obtain ⟨⟨e, he, hnum, hslot⟩, hnvm⟩ := h.held o ⟨_, .head _, ho⟩
    exact ⟨⟨e, he, hnum.trans hadv.number.symm, hslot.trans hadv.slot.symm⟩, hadv.nvm.trans hnvm⟩
  · intro f' hf'
    obtain ⟨f, hf, -, hadv⟩ := hedit.advanced f' hf'
    exact .inl (hadv.number ▸ lists_of_level0 hf)
  · intro g hg f' hf' heq
    obtain ⟨f, hf, -, hadv⟩ := hedit.advanced f' hf'
    rw [hadv.number] at heq
    exact h.builtUnlisted g hg (heq ▸ lists_of_level0 hf)

theorem Inv.unrefOlder (h : Inv s) {l₁ l₂ : List (Version K)} {v : Version K}
    (holder : s.older = l₁ ++ v :: l₂) : Keeps s .reader (unref s l₁ v l₂) := by
  have hchanged := unref_changed h.counts holder
  obtain ⟨h1, h2, h3, h4, h5, -, h7, h8⟩ := unref_frame s l₁ l₂ v
  have hlevel : (unref s l₁ v l₂).level0 = s.level0 :=
    congrArg (fun v => v.files.map Obj.file) h5
  exact (hchanged.effect h1 h2 h3 (fun f hf => h4 ▸ hf) h8 nofun).keeps fun heffect =>
    h.changed hchanged heffect h1 h2 h3 (h4 ▸ .refl _) h8 h7 (hlevel ▸ h.sorted)
      (fun f hf => nomatch hf) (fun f _ g hg => nomatch hg)

omit [LinearOrder K] in
/-- A job deletes the candidates below its smallest pending output that no live
    version lists. -/
theorem mem_filesToDel_iff (s : State K) (scan : List Nat) (n : Nat) :
    n ∈ filesToDel (jobContext s scan) ↔
      (n ∈ scan ∨ ∃ f ∈ s.obsoleteFiles, f.number = n) ∧
      belowPending s.pendingOutputs.head? n = true ∧ ¬ s.Lists n := by
  have hlive : n ∈ (jobContext s scan).sstLive ↔ s.Lists n := by
    show n ∈ s.holders.flatten.map _ ↔ _
    rw [mem_map]
    constructor
    · rintro ⟨o, ho, rfl⟩
      obtain ⟨l, hl, hol⟩ := mem_flatten.mp ho
      exact ⟨o, ⟨l, hl, hol⟩, rfl⟩
    · rintro ⟨o, ⟨l, hl, hol⟩, rfl⟩
      exact ⟨o, mem_flatten.mpr ⟨l, hl, hol⟩, rfl⟩
  rw [filesToDel, mem_filter, mem_dedup, mem_append, mem_map]
  show (_ ∨ ∃ f ∈ s.obsoleteFiles.filter _, f.number = n) ∧
    (!(decide (n ∈ (jobContext s scan).sstLive) ||
      !belowPending s.pendingOutputs.head? n)) = true ↔ _
  rw [Bool.not_or, Bool.not_not, Bool.and_eq_true, Bool.not_eq_true', decide_eq_false_iff_not,
    hlive]
  constructor
  · rintro ⟨hcand, hunlisted, hbelow⟩
    refine ⟨hcand.imp_right ?_, hbelow, hunlisted⟩
    rintro ⟨f, hf, hnum⟩
    exact ⟨f, (mem_filter.mp hf).1, hnum⟩
  · rintro ⟨hcand, hbelow, hunlisted⟩
    refine ⟨hcand.imp_right ?_, hunlisted, hbelow⟩
    rintro ⟨f, hf, rfl⟩
    exact ⟨f, mem_filter.mpr ⟨hf, hbelow⟩, rfl⟩

theorem Inv.find (h : Inv s) (scan : List Nat)
    (hscan : ∀ n ∈ scan, n < s.nextFileNumber ∧ n ∉ s.picked ∧
      ∀ e ∈ s.cf.dir.files, e.filenum ≠ n) :
    Keeps s .find (findObsoleteFiles s scan) := by
  have heffect : Effect s .find (findObsoleteFiles s scan) :=
    { Effect.refl s .find with
      dropped := fun o ho => .inl ho
      obsolete := by
        intro f hf
        cases hbelow : belowPending s.pendingOutputs.head? f.number with
        | true => exact .inr ⟨rfl, rfl⟩
        | false => exact .inl (mem_filter.mpr ⟨hf, by rw [hbelow]; rfl⟩)
      purges := fun p hp _ n hn => .inl ⟨p, .tail _ hp, rfl, hn⟩ }
  have hdead : ∀ n ∈ filesToDel (jobContext s scan), Dead s n := by
    intro n hn
    obtain ⟨hcand, -, hunlisted⟩ := (mem_filesToDel_iff s scan n).mp hn
    refine ⟨?_, hunlisted⟩
    rcases hcand with hn | ⟨f, hf, rfl⟩
    · obtain ⟨hlt, hpicked, habsent⟩ := hscan n hn
      refine ⟨hlt, hpicked, ?_⟩
      intro f hf heq
      obtain ⟨⟨e, he, hnum, -⟩, -⟩ := h.built f hf
      exact habsent e he (hnum.trans heq)
    · exact (h.obsolete f hf).1
  refine ⟨{ h with
    held := h.held
    builtUnlisted := h.builtUnlisted
    obsolete := ?_
    jobs := ?_
    jobIds := ?_
    jobIdsNodup := ?_ }, heffect⟩
  · intro f hf
    have hf' := (mem_filter.mp hf).1
    exact ⟨heffect.taken (h.obsolete f hf').1, (h.obsolete f hf').2⟩
  · intro p hp n hn
    rcases mem_cons.mp hp with rfl | hp
    · exact heffect.dead (hdead n hn)
    · exact heffect.dead (h.jobs p hp n hn)
  · intro p hp
    rcases mem_cons.mp hp with rfl | hp
    · exact Nat.lt_succ_self _
    · exact Nat.lt_succ_of_lt (h.jobIds p hp)
  · refine nodup_cons.mpr ⟨?_, h.jobIdsNodup⟩
    intro hmem
    obtain ⟨p, hp, heq⟩ := mem_map.mp hmem
    exact absurd (h.jobIds p hp) (by rw [heq]; exact lt_irrefl _)

omit [LinearOrder K] in
/-- A deletion takes out the entry of its number and leaves the others. -/
theorem deleteObsoleteFileImpl_spec {cf : NvmCf K} (h : Owns cf) (job : JobContext K) (n : Nat) :
    Owns (deleteObsoleteFileImpl job cf n) ∧
    (∀ e ∈ (deleteObsoleteFileImpl job cf n).dir.files, e ∈ cf.dir.files) ∧
    (∀ e ∈ cf.dir.files, e.filenum ≠ n → e ∈ (deleteObsoleteFileImpl job cf n).dir.files) ∧
    (hasNvmcf job = true → ∀ e ∈ (deleteObsoleteFileImpl job cf n).dir.files, e.filenum ≠ n) := by
  rw [deleteObsoleteFileImpl]
  cases hfind : cf.dir.findFile n with
  | none =>
    rw [Option.isSome_none, Bool.and_false]
    refine ⟨h, fun e he => he, fun e he _ => he, ?_⟩
    intro _ e he
    have hnone := find?_eq_none.mp hfind e he
    simpa using hnone
  | some e =>
  rw [Option.isSome_some, Bool.and_true]
  split_ifs with hnvm
  · have howns := h.deleteL0file n
    rw [NvmFlush.deleteL0file, hfind] at howns ⊢
    have hmem := mem_deteleFile_iff h.numbers n
    exact ⟨howns, fun o ho => ((hmem o).mp ho).1, fun o ho hne => (hmem o).mpr ⟨ho, hne⟩,
      fun _ o ho => ((hmem o).mp ho).2⟩
  · exact ⟨h, fun o ho => ho, fun o ho _ => ho, fun hnvm' => absurd hnvm' hnvm⟩

theorem Inv.purgeFile (h : Inv s) {js₁ js₂ : List (Purge K)} {p : Purge K} {rest : List Nat}
    (hjobs : s.jobs = js₁ ++ p :: js₂) (hnext : p.remaining = n :: rest) :
    Keeps s (.purge p.job.jobId) { s with
      cf := deleteObsoleteFileImpl p.job s.cf n
      jobs := js₁ ++ { p with remaining := rest } :: js₂ } := by
  have hp : p ∈ s.jobs := by
    rw [hjobs]
    exact mem_append_right _ (.head _)
  have hdead : Dead s n := h.jobs p hp n (hnext ▸ .head _)
  obtain ⟨howns, hsub, hkept, hgone⟩ := deleteObsoleteFileImpl_spec h.owns p.job n
  have hstill : ∀ f, EntryFor s.cf f → f.number ≠ n →
      EntryFor (deleteObsoleteFileImpl p.job s.cf n) f :=
    fun f ⟨e, he, hnum, hslot⟩ hne => ⟨e, hkept e he (hnum ▸ hne), hnum, hslot⟩
  have hcases : ∀ q ∈ js₁ ++ { p with remaining := rest } :: js₂,
      q ∈ s.jobs ∨ (q.job = p.job ∧ q.remaining = rest) := by
    intro q hq
    rw [hjobs]
    rcases mem_append.mp hq with hq | hq
    · exact .inl (mem_append_left _ hq)
    rcases mem_cons.mp hq with rfl | hq
    · exact .inr ⟨rfl, rfl⟩
    · exact .inl (mem_append_right _ (.tail p hq))
  refine Effect.keeps ?_ fun heffect => ?_
  · exact { Effect.refl s (.purge p.job.jobId) with
      entries := fun e he => .inl (hsub e he)
      purges := by
        intro q hq hnvm m hm
        rw [hjobs] at hq
        rcases mem_append.mp hq with hq | hq
        · exact .inl ⟨q, mem_append_left _ hq, rfl, hm⟩
        rcases mem_cons.mp hq with rfl | hq
        · rw [hnext] at hm
          rcases mem_cons.mp hm with rfl | hm
          · exact .inr (hgone hnvm)
          · exact .inl ⟨_, mem_append_right _ (.head _), rfl, hm⟩
        · exact .inl ⟨q, mem_append_right _ (.tail _ hq), rfl, hm⟩ }
  refine { h with
    owns := howns
    files := fun e he => h.files e (hsub e he)
    held := ?_
    built := fun f hf => ⟨hstill f (h.built f hf).1 (hdead.taken.built f hf), (h.built f hf).2⟩
    builtUnlisted := h.builtUnlisted
    obsolete := fun f hf => ⟨heffect.taken (h.obsolete f hf).1, (h.obsolete f hf).2⟩
    jobs := ?_
    jobIds := ?_
    jobIdsNodup := ?_ }
  · intro o ho
    refine ⟨hstill o.file (h.held o ho).1 ?_, (h.held o ho).2⟩
    intro heq
    exact hdead.unlisted ⟨o, ho, heq⟩
  · intro q hq m hm
    rcases hcases q hq with hq | ⟨-, hrest⟩
    · exact heffect.dead (h.jobs q hq m hm)
    · rw [hrest] at hm
      exact heffect.dead (h.jobs p hp m (hnext ▸ .tail n hm))
  · intro q hq
    rcases hcases q hq with hq | ⟨hjob, -⟩
    · exact h.jobIds q hq
    · rw [hjob]
      exact h.jobIds p hp
  · have hids := h.jobIdsNodup
    rw [hjobs, map_append, map_cons] at hids
    show ((js₁ ++ { p with remaining := rest } :: js₂).map _).Nodup
    rw [map_append, map_cons]
    exact hids

theorem Inv.finish (h : Inv s) {js₁ js₂ : List (Purge K)} {p : Purge K}
    (hjobs : s.jobs = js₁ ++ p :: js₂) (hdone : p.remaining = []) :
    Keeps s (.purge p.job.jobId) { s with jobs := js₁ ++ js₂ } := by
  have hsub : (js₁ ++ js₂).Sublist s.jobs := by
    rw [hjobs]
    exact (sublist_cons_self p js₂).append_left js₁
  refine Effect.keeps ?_ fun heffect => ?_
  · exact { Effect.refl s (.purge p.job.jobId) with
      purges := by
        intro q hq _ m hm
        rw [hjobs] at hq
        rcases mem_append.mp hq with hq | hq
        · exact .inl ⟨q, mem_append_left _ hq, rfl, hm⟩
        rcases mem_cons.mp hq with rfl | hq
        · rw [hdone] at hm
          exact nomatch hm
        · exact .inl ⟨q, mem_append_right _ hq, rfl, hm⟩ }
  · exact { h with
      held := h.held
      builtUnlisted := h.builtUnlisted
      obsolete := fun f hf => ⟨heffect.taken (h.obsolete f hf).1, (h.obsolete f hf).2⟩
      jobs := fun q hq n hn => heffect.dead (h.jobs q (hsub.subset hq) n hn)
      jobIds := fun q hq => h.jobIds q (hsub.subset hq)
      jobIdsNodup := h.jobIdsNodup.sublist (hsub.map _) }

end

theorem Inv.build (h : Inv s) (inp : FlushInput K) (res : FlushResult K)
    (hpicked : inp.number ∈ s.picked) (hrun : buildInsertNvm s.cf inp = some res) :
    Keeps s .flush { s with
      cf := res.cf
      picked := s.picked.erase inp.number
      built := flushedFiles inp.number res ++ s.built } := by
  -- the number of the flush is in use nowhere yet
  have hdir : ∀ e ∈ s.cf.dir.files, e.filenum ≠ inp.number := by
    intro e he heq
    exact (h.files e he).2 (heq ▸ hpicked)
  have hentry : ∀ f, EntryFor s.cf f → f.number ≠ inp.number := by
    rintro f ⟨e, he, hnum, -⟩ heq
    exact hdir e he (hnum.trans heq)
  have hnumber : ∀ f ∈ flushedFiles inp.number res, f.number = inp.number :=
    fun f hf => (mem_flushedFiles hf).2.2.1
  -- whatever the flush did, the entries from before are there
  have hroom : Owns res.cf ∧ (∀ e ∈ s.cf.dir.files, e ∈ res.cf.dir.files) ∧
      (∀ e ∈ res.cf.dir.files, e ∈ s.cf.dir.files ∨ e.filenum = inp.number) ∧
      ∀ f ∈ flushedFiles inp.number res, EntryFor res.cf f ∧ f.isNvmLevel0 = true := by
    rcases build_room hrun with ⟨hcf, hnone⟩ | ⟨e, hfiles, hnum, hfree, hused, hcount, hflushed⟩
    · rw [hcf, hnone]
      exact ⟨h.owns, fun e he => he, fun e he => .inl he, nofun⟩
    refine ⟨h.owns.cons hfiles hfree hused hcount (fun o ho => hnum ▸ hdir o ho), ?_, ?_, ?_⟩
    · intro o ho
      rw [hfiles]
      exact .tail e ho
    · intro o ho
      rw [hfiles] at ho
      rcases mem_cons.mp ho with rfl | ho
      · exact .inr hnum
      · exact .inl ho
    · intro f hf
      obtain ⟨h1, h2, h3⟩ := hflushed f hf
      refine ⟨⟨e, ?_, h1.symm, h2.symm⟩, h3⟩
      rw [hfiles]
      exact .head _
  obtain ⟨howns, hkept, hnew, hflushed⟩ := hroom
  have hstill : ∀ f, EntryFor s.cf f → EntryFor res.cf f :=
    fun f ⟨e, he, hnum⟩ => ⟨e, hkept e he, hnum⟩
  refine Effect.keeps ?_ fun heffect => ?_
  · exact { Effect.refl s .flush with
      picked := fun n hn => .inl (mem_of_mem_erase hn)
      built := by
        intro f hf
        rcases mem_append.mp hf with hf | hf
        · exact .inr ((hnumber f hf).symm ▸ hpicked)
        · exact .inl hf
      entries := by
        intro e he
        rcases hnew e he with he | hnum
        · exact .inl he
        · exact .inr (hnum ▸ hpicked)
      purges := fun p hp _ n hn => .inl ⟨p, hp, rfl, hn⟩ }
  exact { h with
    owns := howns
    files := by
      intro e he
      rcases hnew e he with he | hnum
      · exact inUse_erase _ (h.files e he)
      · rw [hnum]
        exact ⟨h.picked _ hpicked, h.pickedNodup.not_mem_erase⟩
    picked := fun n hn => h.picked n (mem_of_mem_erase hn)
    pickedNodup := h.pickedNodup.erase _
    held := fun o ho => ⟨hstill _ (h.held o ho).1, (h.held o ho).2⟩
    built := by
      intro f hf
      rcases mem_append.mp hf with hf | hf
      · exact hflushed f hf
      · exact ⟨hstill f (h.built f hf).1, (h.built f hf).2⟩
    builtUnlisted := by
      rintro f hf ⟨o, ho, heq⟩
      rcases mem_append.mp hf with hf | hf
      · exact hentry o.file (h.held o ho).1 (heq.trans (hnumber f hf))
      · exact h.builtUnlisted f hf ⟨o, ho, heq⟩
    builtDistinct := distinctNumbers_flushed res h.builtDistinct
      (fun g hg => hentry g (h.built g hg).1)
    obsolete := fun f hf => ⟨heffect.taken (h.obsolete f hf).1, (h.obsolete f hf).2⟩
    jobs := fun p hp n hn => heffect.dead (h.jobs p hp n hn) }

/-- **ONE STEP** keeps the invariant and has its effect. -/
theorem Inv.step (h : Inv s) (hstep : Step s ev s') : Inv s' ∧ Effect s ev s' := by
  cases hstep with
  | pick => exact h.pick
  | build inp res hpicked hrun => exact h.build inp res hpicked hrun
  | install f hbuilt => exact (h.install f hbuilt).1
  | columnEdit edit hedit => exact (h.columnEdit edit hedit).1
  | refCurrent => exact h.idle _ rfl rfl rfl rfl rfl rfl rfl rfl rfl
  | refOlder l₁ l₂ v holder =>
    refine h.idle _ ?_ rfl rfl rfl rfl rfl rfl rfl rfl
    show s.current.files :: (l₁ ++ { v with refs := v.refs + 1 } :: l₂).map Version.files = _
    rw [State.holders, holder, map_append, map_append]
    rfl
  | unrefCurrent hrefs => exact h.idle _ rfl rfl rfl rfl rfl rfl rfl rfl rfl
  | unrefOlder l₁ l₂ v holder => exact h.unrefOlder holder
  | capture => exact h.idle _ rfl rfl rfl rfl rfl rfl rfl rfl rfl
  | release i => exact h.idle _ rfl rfl rfl rfl rfl rfl rfl rfl rfl
  | find scan hscan => exact h.find scan hscan
  | purgeFile js₁ js₂ p n rest hjobs hnext => exact h.purgeFile hjobs hnext
  | finish js₁ js₂ p hjobs hdone => exact h.finish hjobs hdone

end Steps

/-! ## Pending outputs -/

/-- The pending outputs are captured in the order of the file numbers. -/
structure PendingOK (s : State K) : Prop where
  sorted : s.pendingOutputs.Pairwise (· ≤ ·)
  le : ∀ p ∈ s.pendingOutputs, p ≤ s.nextFileNumber

theorem PendingOK.step (h : PendingOK s) (hinv : Inv s) (hstep : Step s ev s') : PendingOK s' := by
  have hnext := (hinv.step hstep).2.next
  have hsame : s'.pendingOutputs = s.pendingOutputs → PendingOK s' := by
    intro heq
    refine ⟨heq ▸ h.sorted, ?_⟩
    rw [heq]
    exact fun p hp => (h.le p hp).trans hnext
  cases hstep with
  | pick | build | refCurrent | refOlder | unrefCurrent | find | purgeFile | finish =>
    exact hsame rfl
  | install f hbuilt => exact hsame (unref_frame _ _ _ _).2.2.2.2.2.1
  | columnEdit edit hedit => exact hsame (unref_frame _ _ _ _).2.2.2.2.2.1
  | unrefOlder l₁ l₂ v holder => exact hsame (unref_frame _ _ _ _).2.2.2.2.2.1
  | capture =>
    refine ⟨pairwise_append.mpr ⟨h.sorted, pairwise_singleton _ _, ?_⟩, ?_⟩
    · intro p hp q hq
      rw [mem_singleton.mp hq]
      exact h.le p hp
    · intro p hp
      rcases mem_append.mp hp with hp | hp
      · exact h.le p hp
      · rw [mem_singleton.mp hp]
  | release i =>
    exact ⟨h.sorted.sublist (eraseIdx_sublist _ _),
      fun p hp => h.le p (mem_of_mem_eraseIdx hp)⟩

omit [LinearOrder K] [UserKeyCodec K] in
/-- The first pending output is the smallest. -/
theorem PendingOK.belowPending_iff (h : PendingOK s) (n : Nat) :
    belowPending s.pendingOutputs.head? n = true ↔ s.Below n := by
  have hsorted := h.sorted
  rw [State.Below]
  generalize s.pendingOutputs = pending at hsorted
  cases pending with
  | nil => exact iff_of_true rfl nofun
  | cons p ps =>
  rw [head?_cons, belowPending, decide_eq_true_iff]
  refine ⟨?_, fun hall => hall p (.head _)⟩
  intro hlt q hq
  rcases mem_cons.mp hq with rfl | hq
  · exact hlt
  · exact hlt.trans_le ((pairwise_cons.mp hsorted).1 q hq)

/-! ## Runs -/

/-- The invariant and the order of the pending outputs. -/
structure Good (s : State K) : Prop where
  inv : Inv s
  pending : PendingOK s

theorem Good.step (h : Good s) (hstep : Step s ev s') : Good s' :=
  ⟨(h.inv.step hstep).1, h.pending.step h.inv hstep⟩

/-- A path under a condition is a path. -/
theorem Path.any {C : State K → Event → Prop} (h : Path C s s') : Path (fun _ _ => True) s s' :=
  .mono (fun _ _ ⟨ev, _, hstep⟩ => ⟨ev, trivial, hstep⟩) _ _ h

/-- A property that each step from a good state keeps holds along a path. -/
theorem Good.path {C : State K → Event → Prop} {P : State K → Prop}
    (hkeep : ∀ {t t' : State K} {ev : Event}, Good t → P t → C t ev → Step t ev t' → P t')
    (hpath : Path C s s') (h : Good s) (hP : P s) : Good s' ∧ P s' := by
  induction hpath with
  | refl => exact ⟨h, hP⟩
  | tail _ hstep ih =>
    obtain ⟨ev, hC, hstep⟩ := hstep
    exact ⟨ih.1.step hstep, hkeep ih.1 ih.2 hC hstep⟩

/-- **EVERY RUN** keeps the invariant. -/
theorem good_reachable (h : Reachable s) : Good s := by
  obtain ⟨s₀, hinit, hpath⟩ := h
  have hpending : PendingOK s₀ := by
    refine ⟨?_, ?_⟩ <;> rw [hinit.pending]
    · exact .nil
    · exact nofun
  have hgood : Good s₀ := ⟨Inv.initial hinit, hpending⟩
  exact (hgood.path (P := fun _ => True) (fun _ _ _ _ => trivial) hpath trivial).1

/-! ## From the last version to the purge -/

/-- The number waits in `obsolete_files_`, and nobody will list it again. -/
structure Waiting (s : State K) (n : Nat) : Prop where
  dead : Dead s n
  obsolete : ∃ f ∈ s.obsoleteFiles, f.number = n

/-- The purge of the job is going to delete the number, or the table is gone. -/
structure Claimed (s : State K) (jobId n : Nat) : Prop where
  dead : Dead s n
  job : (∃ p ∈ s.jobs, p.job.jobId = jobId ∧ hasNvmcf p.job = true ∧ n ∈ p.remaining) ∨
    ∀ e ∈ s.cf.dir.files, e.filenum ≠ n

section Phases

variable {s s' : State K} {n : Nat}

/-- With the last version that lists it a number becomes obsolete. -/
theorem waiting_of_dropped (h : Good s) (hstep : Step s ev s') (hlists : s.Lists n)
    (hgone : ¬ s'.Lists n) : Waiting s' n := by
  have heffect := (h.inv.step hstep).2
  refine ⟨⟨heffect.taken (h.inv.taken_of_lists hlists), hgone⟩, ?_⟩
  obtain ⟨o, ho, rfl⟩ := hlists
  rcases heffect.dropped o ho with ho | ho
  · exact absurd ⟨o, ho, rfl⟩ hgone
  · exact ⟨o.file, ho, rfl⟩

/-- It stays so until a job may take it. -/
theorem Waiting.step (hwait : Waiting s n) (h : Good s) (hkeep : ¬ (ev = .find ∧ s.Below n))
    (hstep : Step s ev s') : Waiting s' n := by
  have heffect := (h.inv.step hstep).2
  refine ⟨heffect.dead hwait.dead, ?_⟩
  obtain ⟨f, hf, rfl⟩ := hwait.obsolete
  rcases heffect.obsolete f hf with hf | ⟨hev, hbelow⟩
  · exact ⟨f, hf, rfl⟩
  · exact absurd ⟨hev, (h.pending.belowPending_iff _).mp hbelow⟩ hkeep

/-- The first job that may take it does. -/
theorem Waiting.find (hwait : Waiting s n) (h : Good s) (hbelow : s.Below n)
    (hstep : Step s .find s') : Claimed s' s.nextJobId n ∧ s'.Open s.nextJobId := by
  have heffect := (h.inv.step hstep).2
  cases hstep with
  | find scan hscan =>
  obtain ⟨f, hf, rfl⟩ := hwait.obsolete
  have hpending := (h.pending.belowPending_iff f.number).mpr hbelow
  have hdel : f.number ∈ filesToDel (jobContext s scan) :=
    (mem_filesToDel_iff s scan _).mpr ⟨.inr ⟨f, hf, rfl⟩, hpending, hwait.dead.unlisted⟩
  have hnvm : hasNvmcf (jobContext s scan) = true :=
    any_eq_true.mpr ⟨f, mem_filter.mpr ⟨hf, hpending⟩, (h.inv.obsolete f hf).2⟩
  exact ⟨⟨heffect.dead hwait.dead, .inl ⟨_, .head _, rfl, hnvm, hdel⟩⟩, _, .head _, rfl⟩

theorem Claimed.step {jobId : Nat} (hclaim : Claimed s jobId n) (h : Good s)
    (hstep : Step s ev s') :
    Claimed s' jobId n := by
  have heffect := (h.inv.step hstep).2
  refine ⟨heffect.dead hclaim.dead, ?_⟩
  rcases hclaim.job with ⟨p, hp, hid, hnvm, hn⟩ | habsent
  · rcases heffect.purges p hp hnvm n hn with ⟨p', hp', hjob, hn'⟩ | habsent
    · exact .inl ⟨p', hp', hjob ▸ hid, hjob ▸ hnvm, hn'⟩
    · exact .inr habsent
  · exact .inr (heffect.absent hclaim.dead.taken habsent)

/-- A purge can always run to its end. -/
theorem purge_ends (jobId : Nat) :
    ∀ (remaining : List Nat) (s : State K), Good s → ∀ (js₁ js₂ : List (Purge K)) (p : Purge K),
      s.jobs = js₁ ++ p :: js₂ → p.job.jobId = jobId → p.remaining = remaining →
      ∃ s', Path (fun _ ev => ev = .purge jobId) s s' ∧ ¬ s'.Open jobId := by
  intro remaining
  induction remaining with
  | nil =>
    intro s h js₁ js₂ p hjobs hid hdone
    refine ⟨_, .single ⟨_, by rw [hid], Step.finish s js₁ js₂ p hjobs hdone⟩,
      ?_⟩
    rintro ⟨q, hq, hqid⟩
    have hids := h.inv.jobIdsNodup
    rw [hjobs] at hids
    have hnot := (nodup_cons.mp ((perm_middle.map _).nodup_iff.mp hids)).1
    exact hnot (mem_map.mpr ⟨q, hq, hqid.trans hid.symm⟩)
  | cons n rest ih =>
  intro s h js₁ js₂ p hjobs hid hnext
  have hstep := Step.purgeFile s js₁ js₂ p n rest hjobs hnext
  obtain ⟨s', hpath, hclosed⟩ := ih _ (h.step hstep) js₁ js₂ { p with remaining := rest } rfl
    hid rfl
  exact ⟨s', .head ⟨_, by rw [hid], hstep⟩ hpath, hclosed⟩

end Phases

/-- **AN NVM TABLE LIVES AS LONG AS A VERSION NEEDS IT.** In every reachable state a file held
    by a version has its entry and its slot. When no version lists `n` any more, the first
    `FindObsoleteFiles` at which `n` is below every pending output starts a purge that can run to
    its end; however it is interleaved, `n` then has no entry and no slot. -/
theorem lives_while_listed {s : State K} (h : Reachable s) :
    (∀ o, s.Holds o → ∃ e ∈ s.cf.dir.files, e.filenum = o.file.number ∧
      e.sstableIndex = o.file.nvmSstableIndex ∧ s.cf.pool.Used e.sstableIndex) ∧
    ∀ (n : Nat) (ev : Event) (s₁ s₂ s₃ : State K), Step s ev s₁ → s.Lists n → ¬ s₁.Lists n →
      Path (fun t ev => ¬ (ev = .find ∧ t.Below n)) s₁ s₂ → s₂.Below n → Step s₂ .find s₃ →
      (∃ s₄, Path (fun _ ev => ev = .purge s₂.nextJobId) s₃ s₄ ∧ ¬ s₄.Open s₂.nextJobId) ∧
      ∀ s₄, Path (fun _ _ => True) s₃ s₄ → ¬ s₄.Open s₂.nextJobId →
        (∀ e ∈ s₄.cf.dir.files, e.filenum ≠ n) ∧
        ∀ i, s₄.cf.pool.Used i → ∃ e ∈ s₄.cf.dir.files, e.sstableIndex = i ∧ e.filenum ≠ n := by
  have hgood := good_reachable h
  constructor
  · intro o ho
    obtain ⟨⟨e, he, hnum, hslot⟩, -⟩ := hgood.inv.held o ho
    exact ⟨e, he, hnum, hslot, (hgood.inv.owns.used _).mpr ⟨e, he, rfl⟩⟩
  intro n ev s₁ s₂ s₃ hstep hlists hgone hkeep hbelow hfind
  obtain ⟨hgood₂, hwait⟩ := (hgood.step hstep).path (P := fun t => Waiting t n)
    (fun ht hw hC hs => hw.step ht hC hs) hkeep (waiting_of_dropped hgood hstep hlists hgone)
  obtain ⟨hclaim, p, hp, hid⟩ := hwait.find hgood₂ hbelow hfind
  have hgood₃ := hgood₂.step hfind
  constructor
  · obtain ⟨js₁, js₂, hjobs⟩ := append_of_mem hp
    exact purge_ends s₂.nextJobId p.remaining s₃ hgood₃ js₁ js₂ p hjobs hid rfl
  intro s₄ hpath hclosed
  obtain ⟨hgood₄, hclaim₄⟩ := hgood₃.path (P := fun t => Claimed t s₂.nextJobId n)
    (fun ht hc _ hs => hc.step ht hs) hpath hclaim
  have habsent : ∀ e ∈ s₄.cf.dir.files, e.filenum ≠ n := by
    rcases hclaim₄.job with ⟨q, hq, hqid, -⟩ | habsent
    · exact absurd ⟨q, hq, hqid⟩ hclosed
    · exact habsent
  refine ⟨habsent, ?_⟩
  intro i hi
  obtain ⟨e, he, hslot⟩ := (hgood₄.inv.owns.used i).mp hi
  exact ⟨e, he, hslot, habsent e he⟩

/-! ## The same runs without counts and jobs -/

section Follows

variable {logged : Nat} {old : List (List (FileMetaData K))}

/-- The state of `NvmRun` with the same module, flushes and current version. -/
def State.toDb (s : State K) (logged : Nat) (old : List (List (FileMetaData K))) : DbState K :=
  { cf := s.cf, nextFileNumber := s.nextFileNumber, loggedFileNumber := logged
    picked := s.picked, built := s.built, current := s.level0, old := old }

/-- The other versions, in any order. -/
def State.Old (s : State K) (old : List (List (FileMetaData K))) : Prop :=
  old.Perm (s.older.map fun v => v.files.map Obj.file)

/-- A run of `NvmRun.Step` leads from `d` to the state of `s`. -/
def Follows (d : DbState K) (s : State K) : Prop :=
  ∃ logged old, Relation.ReflTransGen NvmRun.Step d (s.toDb logged old) ∧ s.Old old

variable (logged) in
/-- `Unref` is a release, or nothing while there are other references. -/
theorem follows_unref {l₁ l₂ : List (Version K)} {v : Version K} (hold : s.Old old)
    (holder : s.older = l₁ ++ v :: l₂) : Follows (s.toDb logged old) (unref s l₁ v l₂) := by
  rw [State.Old, holder, map_append, map_cons] at hold
  rw [unref]
  split
  · refine ⟨logged, _, .single (.release _ (v.files.map Obj.file)), ?_⟩
    have herase := (hold.trans perm_middle).erase (v.files.map Obj.file)
    rw [erase_cons_head, ← map_append] at herase
    exact herase
  · refine ⟨logged, old, .refl, ?_⟩
    rw [State.Old, map_append, map_cons]
    exact hold

/-- An edit puts a version in front; then the one before it is unreferenced. -/
theorem follows_edit {edit : VersionEdit K} {built : List (FileMetaData K)} (hold : s.Old old)
    (hlevel : (installEdit s edit built).level0 = applyEdit s.level0 edit)
    (hstep : NvmRun.Step (s.toDb logged old) { s.toDb s.nextFileNumber (s.level0 :: old) with
      built := built
      current := applyEdit s.level0 edit }) :
    Follows (s.toDb logged old) (installEdit s edit built) := by
  have hcurrent := (unref_frame (appendVersion s edit built) [] s.older s.current).2.2.2.2.1
  rw [State.level0, installEdit, hcurrent] at hlevel
  rw [← hlevel] at hstep
  have holder : (s.current :: s.older) = [] ++ s.current :: s.older := rfl
  obtain ⟨logged', old', hpath, hold'⟩ := follows_unref
    (s := { appendVersion s edit built with older := s.current :: s.older })
    s.nextFileNumber (hold.cons s.level0) holder
  exact ⟨logged', old', .head hstep hpath, hold'⟩

omit [LinearOrder K] [UserKeyCodec K] in
/-- What a purge deletes is listed nowhere. -/
theorem Dead.unlisted_toDb {n : Nat} (h : Dead s n) (hold : s.Old old) :
    ∀ f, (s.toDb logged old).Lists f → f.number ≠ n := by
  rintro f (hf | ⟨v, hv, hf⟩) rfl
  · exact h.taken.built f hf rfl
  have hmem : v ∈ s.holders.map (map Obj.file) := by
    rw [State.holders, map_cons, map_map]
    exact (hold.cons s.level0).mem_iff.mp hv
  obtain ⟨l, hl, rfl⟩ := mem_map.mp hmem
  obtain ⟨o, ho, rfl⟩ := mem_map.mp hf
  exact h.unlisted ⟨o, ⟨l, hl, ho⟩, rfl⟩

/-- A flush builds from pairs that no compaction iterator delivers. -/
def BuildsUnsorted (s s' : State K) : Prop :=
  ∃ inp res, inp.number ∈ s.picked ∧ buildInsertNvm s.cf inp = some res ∧ s'.cf = res.cf ∧
    s'.picked = s.picked.erase inp.number ∧ ¬ FlushOK inp

/-- **ONE STEP** is a run of `NvmRun.Step`. -/
theorem follows_step (hold : s.Old old) (hinv : Inv s) (hstep : Step s ev s') :
    Follows (s.toDb logged old) s' ∨ BuildsUnsorted s s' := by
  cases hstep with
  | pick => exact .inl ⟨logged, old, .single (.pick _), hold⟩
  | build inp res hpicked hrun =>
    by_cases hinp : FlushOK inp
    · exact .inl ⟨logged, old, .single (.build _ inp res hpicked hinp hrun), hold⟩
    · exact .inr ⟨inp, res, hpicked, hrun, rfl, rfl, hinp⟩
  | install f hbuilt =>
    exact .inl (follows_edit hold (hinv.install f hbuilt).2 (.install _ f hbuilt))
  | columnEdit edit hedit =>
    exact .inl (follows_edit hold (hinv.columnEdit edit hedit).2 (.columnEdit _ edit hedit))
  | refOlder l₁ l₂ v holder =>
    refine .inl ⟨logged, old, .refl, ?_⟩
    rw [State.Old, holder, map_append, map_cons] at hold
    rw [State.Old, map_append, map_cons]
    exact hold
  | unrefOlder l₁ l₂ v holder => exact .inl (follows_unref logged hold holder)
  | purgeFile js₁ js₂ p n rest hjobs hnext =>
    have hp : p ∈ s.jobs := by
      rw [hjobs]
      exact mem_append_right _ (.head _)
    have hdead := hinv.jobs p hp n (hnext ▸ .head _)
    rw [deleteObsoleteFileImpl]
    split
    · exact .inl ⟨logged, old, .single (.delete _ n (hdead.unlisted_toDb hold)), hold⟩
    · exact .inl ⟨logged, old, .refl, hold⟩
  | refCurrent | unrefCurrent | capture | release | find | finish =>
    exact .inl ⟨logged, old, .refl, hold⟩

/-- **EVERY RUN** with counts and jobs is a run of `NvmRun.Step`. -/
theorem follows_run (hold : s.Old old) (hinv : Inv s)
    (hrun : Relation.ReflTransGen (fun s s' => ∃ ev, Step s ev s' ∧ ¬ BuildsUnsorted s s') s s') :
    Inv s' ∧ Follows (s.toDb logged old) s' := by
  induction hrun with
  | refl => exact ⟨hinv, logged, old, .refl, hold⟩
  | tail _ hstep ih =>
    obtain ⟨hinv', logged', old', hpath, hold'⟩ := ih
    obtain ⟨ev, hstep, hsorted⟩ := hstep
    obtain ⟨logged'', old'', hpath', hold''⟩ :=
      (follows_step hold' hinv' hstep).resolve_right hsorted
    exact ⟨(hinv'.step hstep).1, logged'', old'', hpath.trans hpath', hold''⟩

end Follows

/-- The file of the table a flush of a single pair builds. -/
def oneTable : FileMetaData (Fin 256) :=
  { number := 7, fileSize := 26, smallest := ⟨5, 1, .value⟩, largest := ⟨5, 1, .value⟩
    smallestSeqno := 1, largestSeqno := 1, isNvmLevel0 := true, keysNum := 1
    rawFileSize := 26, nvmMetaSize := 37 }

/-- A database with one version, over the module `cf`. -/
def oneVersion (cf : NvmCf (Fin 256)) (next : Nat) (picked : List Nat)
    (built : List (FileMetaData (Fin 256))) : State (Fin 256) :=
  { cf := cf, nextFileNumber := next, picked := picked, built := built
    current := { refs := 1, files := [] } }

/-- A table is added again under its number, and dropped while a reader holds the version.  The
    reader lets go, and the next purge deletes it. -/
theorem lives_while_listed_lastReader :
    ∃ s s₃ : State (Fin 256), Reachable s ∧ s.level0 = [] ∧ s.Lists 7 ∧
      ∃ s₄, Path (fun _ ev => ev = .purge 0) s₃ s₄ ∧ ∀ e ∈ s₄.cf.dir.files, e.filenum ≠ 7 := by
  have hinit : Initial (oneVersion smallModule 7 [] []) := by
    constructor <;> try rfl
    · intro i hi
      have hbits : ∀ b ∈ smallModule.pool.bitmap, b = false := by decide
      cases hbits true (mem_of_getElem? hi)
    · exact fun _ => rfl
  have hagain : ColumnEdit [oneTable] { deletedFiles := [7], newFiles := [oneTable] } := by
    refine ⟨fun f hf => ⟨oneTable, mem_singleton.mpr rfl, mem_singleton.mpr rfl, ?_⟩,
      pairwise_singleton _ _⟩
    rw [mem_singleton.mp hf]
    constructor <;> decide
  obtain ⟨s, hreach, hcurrent, holder, hpending, hjob⟩ : ∃ s : State (Fin 256), Reachable s ∧
      s.current.files = [] ∧ s.older = [⟨1, [⟨1, oneTable⟩]⟩] ∧ s.pendingOutputs = [] ∧
      s.nextJobId = 0 :=
    ⟨_, ⟨_, hinit, .tail (.tail (.tail (.tail (.tail (.single ⟨_, trivial, .pick _⟩)
      ⟨_, trivial, .build _ onePair _ (mem_singleton.mpr rfl) rfl⟩)
      ⟨_, trivial, .install _ oneTable (mem_singleton.mpr rfl)⟩)
      ⟨_, trivial, .columnEdit _ _ hagain⟩) ⟨_, trivial, .refCurrent _⟩)
      ⟨_, trivial, .columnEdit _ { deletedFiles := [7] } ⟨forall_mem_nil _, .nil⟩⟩⟩,
      rfl, rfl, rfl, rfl⟩
  have hlists : s.Lists 7 := by
    refine ⟨⟨1, oneTable⟩, ⟨_, ?_, mem_singleton.mpr rfl⟩, rfl⟩
    rw [State.holders, holder]
    exact .tail _ (.head _)
  have hgone : ¬ (unref s [] ⟨1, [⟨1, oneTable⟩]⟩ []).Lists 7 := by
    rintro ⟨o, ⟨l, hl, ho⟩, -⟩
    rw [mem_singleton.mp hl] at ho
    cases hcurrent ▸ ho
  have hbelow : (unref s [] ⟨1, [⟨1, oneTable⟩]⟩ []).Below 7 := by
    intro p hp
    cases hpending ▸ hp
  obtain ⟨⟨s₄, hpurge, hclosed⟩, hall⟩ := (lives_while_listed hreach).2 7 .reader _ _ _
    (.unrefOlder s [] [] _ holder) hlists hgone .refl hbelow
    (.find _ [] (forall_mem_nil _))
  exact ⟨s, _, hreach, by rw [State.level0, hcurrent]; rfl, hlists, s₄, hjob ▸ hpurge,
    (hall s₄ hpurge.any hclosed).1⟩

end NvmObsolete
