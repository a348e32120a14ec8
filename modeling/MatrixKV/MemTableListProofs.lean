import MatrixKV.EventRunProofs

/-! # The list of immutable memtables — committing flush results in order

    Flush threads pick memtables one by one and finish them in any order.  Whoever
    finishes while nobody commits becomes the committer: it writes the edits of all
    finished memtables from the oldest on, with the mutex released, again and again
    until the oldest one is not finished.

    * `step` — `Add`, `PickMemtablesToFlush`, `RollbackMemtableFlush`, and
      `TryInstallMemtableFlushResults` cut where `LogAndApply` releases the mutex.
      The threads inside `LogAndApply` are a list: that there is at most one is
      proved.
    * `Inv` — the written edits and the list together are all memtables in the order
      of their creation; a batch on its way to the manifest stays the oldest part of
      the list (`Inv.step`).
    * **`flushResults_committed_in_order`** for every run. -/

namespace MemTableList

open List EventRun

/-! ## The list -/

structure MemTable where
  id : Nat
  flushInProgress : Bool := false
  flushCompleted : Bool := false
  fileNumber : Nat := 0
  /-- the file that `edit_` adds, if the edit is not cleared -/
  edit : Option Nat := none
  deriving DecidableEq, Repr

/-- What a committer takes into `LogAndApply`: `batch_count` and the edits, each with
    its memtable. -/
structure Batch where
  count : Nat
  edits : List (Nat × Option Nat)
  deriving DecidableEq, Repr

structure State where
  /-- `memlist_` from the back: the oldest first -/
  memlist : List MemTable := []
  numFlushNotStarted : Int := 0
  commitInProgress : Bool := false
  flushRequested : Bool := false
  immFlushNeeded : Bool := false
  nextId : Nat := 0
  nextFileNumber : Nat := 1
  /-- flush jobs between pick and end, with their memtable and file number -/
  jobs : List (Nat × Nat) := []
  /-- the threads in `LogAndApply` -/
  committing : List Batch := []
  /-- the edits in the manifest, with their memtables -/
  written : List (Nat × Option Nat) := []

/-- A memtable is changed through its pointer. -/
def modify (id : Nat) (f : MemTable → MemTable) (l : List MemTable) : List MemTable :=
  l.map (fun m => if m.id = id then f m else m)

def MemTable.new (id : Nat) : MemTable := { id := id }

/-- New memtables come in at the front. -/
def add (s : State) : State :=
  { s with
    memlist := s.memlist ++ [MemTable.new s.nextId]
    nextId := s.nextId + 1
    numFlushNotStarted := s.numFlushNotStarted + 1
    immFlushNeeded := if s.numFlushNotStarted + 1 = 1 then true else s.immFlushNeeded }

/-- The loop of `PickMemtablesToFlush`: the oldest memtable whose flush is not started,
    up to `max_memtable_id`. -/
def findToFlush (maxMemtableId : Option Nat) : List MemTable → Option Nat
  | [] => none
  | m :: ms =>
    if maxMemtableId.any (fun max => m.id > max) then none
    else if m.flushInProgress then findToFlush maxMemtableId ms
    else some m.id

/-- `PickMemTable`: the job also takes a file number. -/
def pickMemtablesToFlush (s : State) (maxMemtableId : Option Nat) : State :=
  match findToFlush maxMemtableId s.memlist with
  | none => { s with flushRequested := false }
  | some id =>
    { s with
      memlist := modify id (fun m => { m with flushInProgress := true }) s.memlist
      numFlushNotStarted := s.numFlushNotStarted - 1
      immFlushNeeded := if s.numFlushNotStarted - 1 = 0 then false else s.immFlushNeeded
      flushRequested := false
      jobs := s.jobs ++ [(id, s.nextFileNumber)]
      nextFileNumber := s.nextFileNumber + 1 }

def rollbackMemtableFlush (s : State) (id : Nat) : State :=
  { s with
    memlist := modify id (fun m =>
      { m with flushInProgress := false, flushCompleted := false, edit := none }) s.memlist
    numFlushNotStarted := s.numFlushNotStarted + 1
    immFlushNeeded := true }

/-- The scan from the oldest memtable: how many are finished, and the edits of those
    that start a new file. -/
def scan (batchFileNumber : Option Nat) : List MemTable → Batch
  | [] => ⟨0, []⟩
  | m :: ms =>
    if m.flushCompleted then
      if batchFileNumber ≠ some m.fileNumber then
        ⟨(scan (some m.fileNumber) ms).count + 1,
          (m.id, m.edit) :: (scan (some m.fileNumber) ms).edits⟩
      else ⟨(scan batchFileNumber ms).count + 1, (scan batchFileNumber ms).edits⟩
    else ⟨0, []⟩

/-- The loop goes on while the oldest memtable is finished. -/
def nextBatch (memlist : List MemTable) : Option Batch :=
  match memlist with
  | [] => none
  | m :: _ => if m.flushCompleted then some (scan none memlist) else none

/-- The head of the committer's loop: it enters `LogAndApply` or stops. -/
def commitLoop (s : State) : State :=
  match nextBatch s.memlist with
  | none => { s with commitInProgress := false }
  | some b => { s with committing := b :: s.committing }

/-- `TryInstallMemtableFlushResults` up to the first `LogAndApply`. -/
def tryInstallMemtableFlushResults (s : State) (id fileNumber : Nat) : State :=
  let s' := { s with
    memlist := modify id (fun m =>
      { m with flushCompleted := true, fileNumber := fileNumber, edit := some fileNumber })
      s.memlist }
  if s.commitInProgress then s' else commitLoop { s' with commitInProgress := true }

/-- `Remove` of the oldest memtable, `n` times. -/
def removeOldest : Nat → List MemTable → List MemTable
  | 0, l => l
  -- the source would take the back of an empty list
  | _ + 1, [] => []
  | n + 1, m :: ms => removeOldest n (ms.filter (fun x => x.id ≠ m.id))

/-- A memtable that can be flushed again. -/
def reset (m : MemTable) : MemTable :=
  { m with flushCompleted := false, flushInProgress := false, edit := none, fileNumber := 0 }

/-- After a commit that failed the `n` oldest memtables can be flushed again. -/
def resetOldest : Nat → List MemTable → List MemTable
  | 0, l => l
  | _ + 1, [] => []
  | n + 1, m :: ms => reset m :: resetOldest n ms

/-- `LogAndApply` returns, and the loop goes on. -/
def afterLogAndApply (s : State) (b : Batch) (ok : Bool) : State :=
  if ok then
    commitLoop { s with
      written := s.written ++ b.edits
      memlist := removeOldest b.count s.memlist }
  else
    { s with
      memlist := resetOldest b.count s.memlist
      numFlushNotStarted := s.numFlushNotStarted + b.count
      immFlushNeeded := if b.count = 0 then s.immFlushNeeded else true
      commitInProgress := false }

/-! ## Runs -/

inductive Event
  | add
  | flushRequested
  /-- somebody else takes a file number -/
  | newFileNumber
  | pick (maxMemtableId : Option Nat)
  /-- the flush of the job fails -/
  | rollback (job : Nat)
  /-- the flush of the job succeeds -/
  | install (job : Nat)
  /-- a thread returns from `LogAndApply`; a dropped family, for which nothing is
      written, ends like a failure -/
  | logAndApply (thread : Nat) (ok : Bool)

def step (s : State) : Event → State
  | .add => add s
  | .flushRequested => { s with flushRequested := true }
  | .newFileNumber => { s with nextFileNumber := s.nextFileNumber + 1 }
  | .pick maxMemtableId => pickMemtablesToFlush s maxMemtableId
  | .rollback i =>
    match s.jobs[i]? with
    | none => s
    | some job => rollbackMemtableFlush { s with jobs := s.jobs.eraseIdx i } job.1
  | .install i =>
    match s.jobs[i]? with
    | none => s
    | some job =>
      tryInstallMemtableFlushResults { s with jobs := s.jobs.eraseIdx i } job.1 job.2
  | .logAndApply i ok =>
    match s.committing[i]? with
    | none => s
    | some b => afterLogAndApply { s with committing := s.committing.eraseIdx i } b ok

/-- The memtables of which the flush is not started. -/
def notStarted (l : List MemTable) : Nat := l.countP (fun m => !m.flushInProgress)

/-- A finished memtable and its file. -/
structure Finished (nextFileNumber : Nat) (jobs : List (Nat × Nat)) (m : MemTable) : Prop where
  inProgress : m.flushInProgress = true
  edit : m.edit = some m.fileNumber
  fileNumber : m.fileNumber < nextFileNumber
  jobs : ∀ job ∈ jobs, m.fileNumber ≠ job.2

/-- The batch is the oldest part of the list, all of it finished. -/
structure BatchOK (memlist : List MemTable) (b : Batch) : Prop where
  count : b.count ≤ memlist.length
  edits : b.edits = (memlist.take b.count).map (fun m => (m.id, m.edit))
  completed : ∀ m ∈ memlist.take b.count, m.flushCompleted = true

/-- What holds of the list and the flush jobs. -/
structure Base (s : State) : Prop where
  order : s.written.map Prod.fst ++ s.memlist.map MemTable.id = List.range s.nextId
  count : s.numFlushNotStarted = notStarted s.memlist
  jobMem : ∀ job ∈ s.jobs, ∃ m ∈ s.memlist, m.id = job.1 ∧ m.flushInProgress = true ∧
    m.flushCompleted = false
  jobFile : ∀ job ∈ s.jobs, job.2 < s.nextFileNumber
  jobs : s.jobs.Pairwise (fun a b => a.1 ≠ b.1 ∧ a.2 ≠ b.2)
  finished : ∀ m ∈ s.memlist, m.flushCompleted = true →
    Finished s.nextFileNumber s.jobs m
  files : s.memlist.Pairwise (fun a b =>
    a.flushCompleted = true → b.flushCompleted = true → a.fileNumber ≠ b.fileNumber)
  edits : ∀ e ∈ s.written, e.2 ≠ none

structure Inv (s : State) : Prop extends Base s where
  committing : (s.committing = [] ∧ s.commitInProgress = false) ∨
    ∃ b, s.committing = [b] ∧ s.commitInProgress = true ∧ BatchOK s.memlist b

/-! ## The helpers of the source -/

/-- The batch of a thread in `LogAndApply`. -/
theorem Inv.batch {s : State} (h : Inv s) {i : Nat} {b : Batch} (hi : s.committing[i]? = some b) :
    s.committing = [b] ∧ s.commitInProgress = true ∧ BatchOK s.memlist b := by
  rcases h.committing with ⟨halone, -⟩ | ⟨b', hb, hflag, hok⟩
  · rw [halone] at hi
    cases hi
  have hmem := mem_of_getElem? hi
  rw [hb, mem_singleton] at hmem
  subst hmem
  exact ⟨hb, hflag, hok⟩

theorem Base.nodup {s : State} (h : Base s) : (s.memlist.map MemTable.id).Nodup := by
  have hall := @nodup_range s.nextId
  rw [← h.order] at hall
  exact (nodup_append.mp hall).2.1

variable {l : List MemTable}

/-- With distinct ids the pointer names one memtable. -/
theorem modify_split (hnodup : (l.map MemTable.id).Nodup) {m : MemTable} (hm : m ∈ l)
    (f : MemTable → MemTable) :
    ∃ newer older, l = older ++ m :: newer ∧ modify m.id f l = older ++ f m :: newer := by
  obtain ⟨older, newer, rfl⟩ := append_of_mem hm
  refine ⟨newer, older, rfl, ?_⟩
  rw [map_append, map_cons, nodup_append, nodup_cons] at hnodup
  obtain ⟨-, ⟨hnewer, -⟩, holder⟩ := hnodup
  have hsame : ∀ l : List MemTable, (∀ x ∈ l, x.id ≠ m.id) → modify m.id f l = l := by
    intro l hl
    rw [modify]
    refine (map_congr_left ?_).trans (map_id l)
    intro x hx
    rw [if_neg (hl x hx)]
    rfl
  rw [modify, map_append, map_cons, if_pos rfl, ← modify, ← modify, hsame newer, hsame older]
  · intro x hx heq
    exact holder _ (mem_map_of_mem hx) _ (.head _) heq
  · intro x hx heq
    exact hnewer (heq ▸ mem_map_of_mem hx)

variable {f : MemTable → MemTable}

theorem map_id_modify (id : Nat) (hf : ∀ m, (f m).id = m.id) (l : List MemTable) :
    (modify id f l).map MemTable.id = l.map MemTable.id := by
  rw [modify, map_map]
  refine map_congr_left ?_
  intro m _
  show (if m.id = id then f m else m).id = m.id
  split_ifs with h
  · rw [hf]
  · rfl

theorem mem_modify_iff {id : Nat} {x : MemTable} :
    x ∈ modify id f l ↔ ∃ m ∈ l, x = if m.id = id then f m else m := by
  rw [modify, mem_map]
  exact exists_congr (fun m => and_congr_right (fun _ => eq_comm))

theorem removeOldest_eq : ∀ (n : Nat) (l : List MemTable), (l.map MemTable.id).Nodup →
    removeOldest n l = l.drop n := by
  intro n
  induction n with
  | zero => exact fun l _ => rfl
  | succ n ih =>
  intro l hnodup
  cases l with
  | nil => rfl
  | cons m ms =>
  obtain ⟨hfresh, hrest⟩ := nodup_cons.mp hnodup
  have hkeep : ms.filter (fun x => x.id ≠ m.id) = ms := by
    refine filter_eq_self.mpr ?_
    intro x hx
    refine decide_eq_true ?_
    intro heq
    exact hfresh (heq ▸ mem_map_of_mem hx)
  rw [removeOldest, hkeep, ih ms hrest, drop_succ_cons]

theorem resetOldest_eq : ∀ (n : Nat) (l : List MemTable), n ≤ l.length →
    resetOldest n l = (l.take n).map reset ++ l.drop n := by
  intro n
  induction n with
  | zero => exact fun l _ => rfl
  | succ n ih =>
  intro l hlen
  cases l with
  | nil => exact absurd hlen (by simp)
  | cons m ms =>
  rw [resetOldest, ih ms (Nat.le_of_succ_le_succ hlen), take_succ_cons, map_cons,
    drop_succ_cons]
  rfl

/-- Files are not shared, so the scan takes the edit of every finished memtable up to
    the first that is not. -/
theorem scan_batchOK (l : List MemTable) :
    ∀ batchFileNumber : Option Nat,
      (∀ m ∈ l, m.flushCompleted = true → batchFileNumber ≠ some m.fileNumber) →
      l.Pairwise (fun a b =>
        a.flushCompleted = true → b.flushCompleted = true → a.fileNumber ≠ b.fileNumber) →
      BatchOK l (scan batchFileNumber l) := by
  induction l with
  | nil => exact fun _ _ _ => ⟨le_rfl, rfl, nofun⟩
  | cons m ms ih =>
  intro batchFileNumber hfresh hfiles
  obtain ⟨hm, hrest⟩ := pairwise_cons.mp hfiles
  rw [scan]
  by_cases hdone : m.flushCompleted = true
  · obtain ⟨hcount, hedits, hcompleted⟩ := ih (some m.fileNumber)
      (fun x hx hxdone heq => hm x hx hdone hxdone (Option.some.inj heq)) hrest
    rw [if_pos hdone, if_pos (hfresh m (.head _) hdone)]
    refine ⟨Nat.succ_le_succ hcount, ?_, ?_⟩
    · rw [take_succ_cons, map_cons, ← hedits]
    · rw [take_succ_cons]
      exact forall_mem_cons.mpr ⟨hdone, hcompleted⟩
  · rw [if_neg hdone]
    exact ⟨Nat.zero_le _, rfl, nofun⟩

variable {b : Batch}

/-- A batch does not see what happens to memtables that are not finished. -/
theorem BatchOK.modify (h : BatchOK l b) {id : Nat} (f : MemTable → MemTable)
    (hopen : ∀ m ∈ l, m.id = id → m.flushCompleted = false) : BatchOK (modify id f l) b := by
  have htake : (MemTableList.modify id f l).take b.count = l.take b.count := by
    rw [MemTableList.modify, ← map_take]
    refine (map_congr_left ?_).trans (map_id _)
    intro m hm
    rw [if_neg]
    · rfl
    · intro hid
      have hdone := h.completed m hm
      rw [hopen m (mem_of_mem_take hm) hid] at hdone
      exact nomatch hdone
  refine ⟨?_, by rw [htake]; exact h.edits, by rw [htake]; exact h.completed⟩
  rw [MemTableList.modify, length_map]
  exact h.count

/-- What is not finished stays behind the batch. -/
theorem BatchOK.mem_drop (h : BatchOK l b) {m : MemTable} (hm : m ∈ l)
    (hopen : m.flushCompleted = false) : m ∈ l.drop b.count := by
  rw [← take_append_drop b.count l] at hm
  rcases mem_append.mp hm with htake | hdrop
  · have hdone := h.completed m htake
    rw [hopen] at hdone
    exact nomatch hdone
  · exact hdrop

/-! ## Steps -/

section Steps

variable {s : State}

theorem inv_new : Inv {} where
  order := rfl
  count := rfl
  jobMem := nofun
  jobFile := nofun
  jobs := .nil
  finished := nofun
  files := .nil
  edits := nofun
  committing := .inl ⟨rfl, rfl⟩

/-- A committer that is alone goes on. -/
theorem Base.commitLoop (h : Base s) (halone : s.committing = [])
    (hflag : s.commitInProgress = true) : Inv (commitLoop s) := by
  have hbatch : ∀ b, nextBatch s.memlist = some b → BatchOK s.memlist b := by
    intro b hb
    cases hl : s.memlist with
    | nil =>
      rw [hl] at hb
      exact nomatch hb
    | cons m ms =>
    have hfiles := h.files
    rw [hl, nextBatch] at hb
    rw [hl] at hfiles
    split at hb
    · rw [Option.some.injEq] at hb
      rw [← hb]
      exact scan_batchOK _ none nofun hfiles
    · exact nomatch hb
  rw [MemTableList.commitLoop]
  cases hnext : nextBatch s.memlist with
  | none =>
    exact { h with committing := .inl ⟨halone, rfl⟩ }
  | some b =>
    exact { h with committing := .inr ⟨b, by rw [halone], hflag, hbatch b hnext⟩ }

/-- The memtable of a job, and the other jobs. -/
theorem Base.job (h : Base s) {i : Nat} {job : Nat × Nat} (hi : s.jobs[i]? = some job) :
    job ∈ s.jobs ∧ (s.jobs.eraseIdx i).Sublist s.jobs ∧
    ∀ other ∈ s.jobs.eraseIdx i, other.1 ≠ job.1 ∧ other.2 ≠ job.2 := by
  refine ⟨mem_of_getElem? hi, eraseIdx_sublist .., ?_⟩
  obtain ⟨hlt, rfl⟩ := List.getElem?_eq_some_iff.mp hi
  have hpair := h.jobs
  rw [← take_append_drop i s.jobs, drop_eq_getElem_cons hlt, pairwise_append,
    pairwise_cons] at hpair
  obtain ⟨-, ⟨hafter, -⟩, hbefore⟩ := hpair
  intro other hother
  rw [eraseIdx_eq_take_drop_succ, mem_append] at hother
  rcases hother with hother | hother
  · exact hbefore other hother _ (.head _)
  · exact ⟨(hafter other hother).1.symm, (hafter other hother).2.symm⟩

/-- A finished memtable is none of a job. -/
theorem Base.open_of_job (h : Base s) {job : Nat × Nat} (hjob : job ∈ s.jobs) :
    ∀ m ∈ s.memlist, m.id = job.1 → m.flushInProgress = true ∧ m.flushCompleted = false := by
  intro m hm hid
  obtain ⟨m', hm', hid', hflags⟩ := h.jobMem job hjob
  rw [inj_on_of_nodup_map h.nodup hm hm' (hid.trans hid'.symm)]
  exact hflags

theorem Inv.add (h : Inv s) : Inv (add s) where
  order := by
    show s.written.map Prod.fst ++ (s.memlist ++ [MemTable.new s.nextId]).map MemTable.id
      = List.range (s.nextId + 1)
    rw [map_append, ← append_assoc, h.order, List.range_succ]
    rfl
  count := by
    show s.numFlushNotStarted + 1 = notStarted (s.memlist ++ [MemTable.new s.nextId])
    rw [notStarted, countP_append, h.count]
    rfl
  jobMem := fun job hjob =>
    let ⟨m, hm, hflags⟩ := h.jobMem job hjob
    ⟨m, mem_append_left _ hm, hflags⟩
  jobFile := h.jobFile
  jobs := h.jobs
  finished := by
    intro m hm hdone
    rcases mem_append.mp hm with hm | hm
    · exact h.finished m hm hdone
    · rw [mem_singleton.mp hm] at hdone
      exact nomatch hdone
  files := by
    refine pairwise_append.mpr ⟨h.files, pairwise_singleton _ _, ?_⟩
    intro a _ b hb _ hdone
    rw [mem_singleton.mp hb] at hdone
    exact nomatch hdone
  edits := h.edits
  committing := by
    refine h.committing.imp_right ?_
    rintro ⟨b, hb, hflag, hcount, hedits, hcompleted⟩
    have htake : (s.memlist ++ [MemTable.new s.nextId]).take b.count = s.memlist.take b.count :=
      take_append_of_le_length hcount
    refine ⟨b, hb, hflag, ?_, ?_, ?_⟩
    · exact hcount.trans (by simp [MemTableList.add])
    · show b.edits = ((s.memlist ++ [MemTable.new s.nextId]).take b.count).map _
      rw [htake]
      exact hedits
    · show ∀ m ∈ (s.memlist ++ [MemTable.new s.nextId]).take b.count, _
      rw [htake]
      exact hcompleted

theorem findToFlush_spec (maxMemtableId : Option Nat) (l : List MemTable) {id : Nat}
    (h : findToFlush maxMemtableId l = some id) :
    ∃ m ∈ l, m.id = id ∧ m.flushInProgress = false := by
  induction l with
  | nil => exact nomatch h
  | cons m ms ih =>
  rw [findToFlush] at h
  split at h
  · exact nomatch h
  split_ifs at h with hprog
  · obtain ⟨m', hm', hspec⟩ := ih h
    exact ⟨m', .tail _ hm', hspec⟩
  · rw [Option.some.injEq] at h
    exact ⟨m, .head _, h, Bool.eq_false_iff.mpr hprog⟩

/-- The number of waiting memtables when the flags of one change. -/
theorem notStarted_modify (hnodup : (l.map MemTable.id).Nodup) {m : MemTable} (hm : m ∈ l)
    (f : MemTable → MemTable) :
    (notStarted (modify m.id f l) : Int)
      = notStarted l + (if (f m).flushInProgress then 0 else 1)
        - (if m.flushInProgress then 0 else 1) := by
  obtain ⟨newer, older, hl, hmod⟩ := modify_split hnodup hm f
  rw [hmod, hl, notStarted, notStarted, countP_append, countP_append, countP_cons, countP_cons]
  cases m.flushInProgress <;> cases (f m).flushInProgress <;> simp <;> omega

/-- One memtable that is not finished changes, together with the jobs. -/
theorem Base.change (h : Base s) {m : MemTable} (hm : m ∈ s.memlist) {s' : State}
    (hmemlist : s'.memlist = modify m.id f s.memlist) (hid : ∀ x, (f x).id = x.id)
    (hwritten : s'.written = s.written) (hnext : s'.nextId = s.nextId)
    (hfiles : s.nextFileNumber ≤ s'.nextFileNumber) (hcount : s'.numFlushNotStarted =
      s.numFlushNotStarted + (if (f m).flushInProgress then 0 else 1) - (if m.flushInProgress then 0
      else 1)) (hjobs : s'.jobs.Pairwise (fun a b => a.1 ≠ b.1 ∧ a.2 ≠ b.2))
    (hjob : ∀ job ∈ s'.jobs, job.2 < s'.nextFileNumber ∧ (job.1 = m.id → (f m).flushInProgress =
      true ∧ (f m).flushCompleted = false) ∧ (job ∈ s.jobs ∧ job.1 ≠ m.id ∨ job.1 = m.id ∧
      s.nextFileNumber ≤ job.2)) (hdone : (f m).flushCompleted = true → Finished s'.nextFileNumber
      s'.jobs (f m) ∧ ∀ x ∈ s.memlist, x.flushCompleted = true → x.fileNumber ≠ (f m).fileNumber) :
    Base s' := by
  have hmem : ∀ x, x ∈ s'.memlist → x = f m ∨ (x ∈ s.memlist ∧ x.id ≠ m.id) := by
    intro x hx
    rw [hmemlist, mem_modify_iff] at hx
    obtain ⟨y, hy, rfl⟩ := hx
    split_ifs with hyid
    · rw [inj_on_of_nodup_map h.nodup hy hm hyid]
      exact .inl rfl
    · exact .inr ⟨hy, hyid⟩
  have hkeep : ∀ x ∈ s.memlist, x.id ≠ m.id → x ∈ s'.memlist := by
    intro x hx hne
    rw [hmemlist, mem_modify_iff]
    exact ⟨x, hx, by rw [if_neg hne]⟩
  have hself : f m ∈ s'.memlist := by
    rw [hmemlist, mem_modify_iff]
    exact ⟨m, hm, by rw [if_pos rfl]⟩
  constructor
  · rw [hwritten, hmemlist, hnext, map_id_modify m.id hid]
    exact h.order
  · rw [hcount, hmemlist, notStarted_modify h.nodup hm f, h.count]
  · intro job hj
    obtain ⟨-, hflags, hold | hnew⟩ := hjob job hj
    · obtain ⟨x, hx, hxid, hxflags⟩ := h.jobMem job hold.1
      exact ⟨x, hkeep x hx (by rw [hxid]; exact hold.2), hxid, hxflags⟩
    · exact ⟨f m, hself, (hid m).trans hnew.1.symm, hflags hnew.1⟩
  · exact fun job hj => (hjob job hj).1
  · exact hjobs
  · intro x hx hxdone
    rcases hmem x hx with rfl | ⟨hold, -⟩
    · exact (hdone hxdone).1
    obtain ⟨hprog, hedit, hfile, hothers⟩ := h.finished x hold hxdone
    refine ⟨hprog, hedit, hfile.trans_le hfiles, ?_⟩
    intro job hj
    rcases (hjob job hj).2.2 with ⟨hj', -⟩ | ⟨-, hge⟩
    · exact hothers job hj'
    · exact Nat.ne_of_lt (hfile.trans_le hge)
  · rw [hmemlist, modify, pairwise_map]
    refine (pairwise_map.mp h.nodup |>.and h.files).imp_of_mem ?_
    intro a b ha hb hab hadone hbdone
    obtain ⟨hne, hab⟩ := hab
    by_cases haid : a.id = m.id
    · have hbid : b.id ≠ m.id := fun hb' => hne (haid.trans hb'.symm)
      rw [if_pos haid, inj_on_of_nodup_map h.nodup ha hm haid] at hadone ⊢
      rw [if_neg hbid] at hbdone ⊢
      exact ((hdone hadone).2 b hb hbdone).symm
    rw [if_neg haid] at hadone ⊢
    split_ifs at hbdone ⊢ with hbid
    · rw [inj_on_of_nodup_map h.nodup hb hm hbid] at hbdone ⊢
      exact (hdone hbdone).2 a ha hadone
    · exact hab hadone hbdone
  · rw [hwritten]
    exact h.edits

/-- The committer does not see the change. -/
theorem Inv.committing_modify (h : Inv s) {m : MemTable} (hm : m ∈ s.memlist)
    (hopen : m.flushCompleted = false) (f : MemTable → MemTable) :
    (s.committing = [] ∧ s.commitInProgress = false) ∨
      ∃ b, s.committing = [b] ∧ s.commitInProgress = true ∧ BatchOK
        (modify m.id f s.memlist) b := by
  refine h.committing.imp_right fun ⟨b, hb, hflag, hok⟩ => ⟨b, hb, hflag, hok.modify f ?_⟩
  intro x hx hxid
  rw [inj_on_of_nodup_map h.nodup hx hm hxid]
  exact hopen

theorem Inv.pick (h : Inv s) (maxMemtableId : Option Nat) :
    Inv (pickMemtablesToFlush s maxMemtableId) := by
  rw [pickMemtablesToFlush]
  cases hfind : findToFlush maxMemtableId s.memlist with
  | none =>
    exact { h with }
  | some id =>
  obtain ⟨m, hm, rfl, hidle⟩ := findToFlush_spec maxMemtableId s.memlist hfind
  have hmopen : m.flushCompleted = false := by
    refine Bool.eq_false_iff.mpr ?_
    intro hdone
    have hprog := (h.finished m hm hdone).inProgress
    rw [hidle] at hprog
    exact nomatch hprog
  have hnew : ∀ job ∈ s.jobs, job.1 ≠ m.id := by
    intro job hjob heq
    have hprog := (h.open_of_job hjob m hm heq.symm).1
    rw [hidle] at hprog
    exact nomatch hprog
  refine { toBase := h.toBase.change hm rfl (fun _ => rfl) rfl rfl (Nat.le_succ _) ?_ ?_
            ?_ ?_
           committing := h.committing_modify hm hmopen _ }
  · show s.numFlushNotStarted - 1 = s.numFlushNotStarted + 0 - if m.flushInProgress then 0 else 1
    rw [hidle, Int.add_zero]
    rfl
  · refine pairwise_append.mpr ⟨h.jobs, pairwise_singleton _ _, ?_⟩
    intro job hjob new hn
    rw [mem_singleton.mp hn]
    exact ⟨hnew job hjob, Nat.ne_of_lt (h.jobFile job hjob)⟩
  · intro job hjob
    rcases mem_append.mp hjob with hjob | hjob
    · exact ⟨(h.jobFile job hjob).trans (Nat.lt_succ_self _), fun _ => ⟨rfl, hmopen⟩,
        .inl ⟨hjob, hnew job hjob⟩⟩
    · rw [mem_singleton.mp hjob]
      exact ⟨Nat.lt_succ_self _, fun _ => ⟨rfl, hmopen⟩, .inr ⟨rfl, le_rfl⟩⟩
  · intro hdone
    have hdone' : m.flushCompleted = true := hdone
    rw [hmopen] at hdone'
    exact nomatch hdone'

theorem Inv.rollback (h : Inv s) {i : Nat} {job : Nat × Nat} (hi : s.jobs[i]? = some job) :
    Inv (rollbackMemtableFlush { s with jobs := s.jobs.eraseIdx i } job.1) := by
  obtain ⟨hjob, hsub, hothers⟩ := h.toBase.job hi
  obtain ⟨m, hm, hmid, hprog, hmopen⟩ := h.jobMem job hjob
  rw [← hmid] at hothers ⊢
  refine { toBase := h.toBase.change hm rfl (fun _ => rfl) rfl rfl le_rfl ?_
            (h.jobs.sublist hsub) ?_ ?_
           committing := h.committing_modify hm hmopen _ }
  · show s.numFlushNotStarted + 1 = s.numFlushNotStarted + 1 - if m.flushInProgress then 0 else 1
    rw [hprog]
    simp
  · intro other hother
    obtain ⟨hne, -⟩ := hothers other hother
    exact ⟨h.jobFile other (hsub.subset hother), fun heq => absurd heq hne,
      .inl ⟨hsub.subset hother, hne⟩⟩
  · intro hdone
    exact nomatch hdone

theorem Inv.install (h : Inv s) {i : Nat} {job : Nat × Nat} (hi : s.jobs[i]? = some job) :
    Inv (tryInstallMemtableFlushResults { s with jobs := s.jobs.eraseIdx i } job.1 job.2) := by
  obtain ⟨hjob, hsub, hothers⟩ := h.toBase.job hi
  obtain ⟨m, hm, hmid, hprog, hmopen⟩ := h.jobMem job hjob
  let installed : State := { s with
    jobs := s.jobs.eraseIdx i
    memlist := modify m.id (fun m =>
      { m with flushCompleted := true, fileNumber := job.2, edit := some job.2 }) s.memlist }
  have hbase : Base installed := by
    refine h.toBase.change hm rfl (fun _ => rfl) rfl rfl le_rfl ?_
      (h.jobs.sublist hsub) ?_ ?_
    · show s.numFlushNotStarted = s.numFlushNotStarted + (if m.flushInProgress then 0 else 1)
        - if m.flushInProgress then 0 else 1
      omega
    · intro other hother
      obtain ⟨hne, -⟩ := hothers other hother
      rw [← hmid] at hne
      exact ⟨h.jobFile other (hsub.subset hother), fun heq => absurd heq hne,
        .inl ⟨hsub.subset hother, hne⟩⟩
    · intro _
      refine ⟨⟨hprog, rfl, h.jobFile job hjob, ?_⟩, ?_⟩
      · intro other hother
        exact (hothers other hother).2.symm
      · intro x hx hxdone
        exact (h.finished x hx hxdone).jobs job hjob
  rw [tryInstallMemtableFlushResults, ← hmid]
  rcases h.committing_modify hm hmopen _ with ⟨halone, hflag⟩ | ⟨b, hb, hflag, hok⟩
  · simp only [hflag]
    exact Base.commitLoop (s := { installed with commitInProgress := true })
      { hbase with } halone rfl
  · rw [if_pos hflag]
    exact { toBase := hbase, committing := .inr ⟨b, hb, hflag, hok⟩ }

section

variable (h : Base s) (hok : BatchOK s.memlist b)
include h hok

/-- The flushes of a batch are all started. -/
theorem Base.notStarted_drop :
    notStarted (s.memlist.drop b.count) = notStarted s.memlist := by
  have hzero : notStarted (s.memlist.take b.count) = 0 := by
    refine countP_eq_zero.mpr ?_
    intro m hm
    rw [(h.finished m (mem_of_mem_take hm) (hok.completed m hm)).inProgress]
    exact Bool.false_ne_true
  conv_rhs => rw [← take_append_drop b.count s.memlist]
  rw [notStarted, notStarted, countP_append]
  show notStarted _ = notStarted _ + notStarted _
  rw [hzero, Nat.zero_add]

/-- The written batch leaves the list. -/
theorem Base.commit :
    Base { s with
      committing := []
      written := s.written ++ b.edits
      memlist := s.memlist.drop b.count } := by
  have hsplit := take_append_drop b.count s.memlist
  constructor
  · show (s.written ++ b.edits).map Prod.fst ++ (s.memlist.drop b.count).map MemTable.id
      = List.range s.nextId
    rw [map_append, hok.edits, map_map, append_assoc]
    show s.written.map Prod.fst ++ ((s.memlist.take b.count).map MemTable.id
      ++ (s.memlist.drop b.count).map MemTable.id) = List.range s.nextId
    rw [← map_append, hsplit]
    exact h.order
  · show s.numFlushNotStarted = notStarted (s.memlist.drop b.count)
    rw [h.count, h.notStarted_drop hok]
  · intro job hjob
    obtain ⟨m, hm, hid, hprog, hopen⟩ := h.jobMem job hjob
    exact ⟨m, hok.mem_drop hm hopen, hid, hprog, hopen⟩
  · exact h.jobFile
  · exact h.jobs
  · exact fun m hm => h.finished m (mem_of_mem_drop hm)
  · exact h.files.sublist (drop_sublist _ _)
  intro e he
  rcases mem_append.mp he with he | he
  · exact h.edits e he
  rw [hok.edits] at he
  obtain ⟨m, hm, rfl⟩ := mem_map.mp he
  show m.edit ≠ none
  rw [(h.finished m (mem_of_mem_take hm) (hok.completed m hm)).edit]
  exact Option.some_ne_none _

/-- A batch that could not be written can be flushed again. -/
theorem Base.uncommit {needed flag : Bool} :
    Base { s with
      committing := []
      memlist := (s.memlist.take b.count).map reset ++ s.memlist.drop b.count
      numFlushNotStarted := s.numFlushNotStarted + b.count
      immFlushNeeded := needed
      commitInProgress := flag } := by
  have hsplit := take_append_drop b.count s.memlist
  constructor
  · show s.written.map Prod.fst ++ ((s.memlist.take b.count).map reset
      ++ s.memlist.drop b.count).map MemTable.id = List.range s.nextId
    rw [map_append, map_map]
    show s.written.map Prod.fst ++ ((s.memlist.take b.count).map MemTable.id
      ++ (s.memlist.drop b.count).map MemTable.id) = List.range s.nextId
    rw [← map_append, hsplit]
    exact h.order
  · show s.numFlushNotStarted + b.count = notStarted ((s.memlist.take b.count).map reset
      ++ s.memlist.drop b.count)
    have hall : notStarted ((s.memlist.take b.count).map reset) = b.count := by
      rw [notStarted, countP_map]
      refine (countP_eq_length.mpr (fun _ _ => rfl)).trans ?_
      rw [length_take, Nat.min_eq_left hok.count]
    rw [notStarted, countP_append, ← notStarted, ← notStarted, hall, h.notStarted_drop hok, h.count]
    omega
  · intro job hjob
    obtain ⟨m, hm, hid, hprog, hopen⟩ := h.jobMem job hjob
    exact ⟨m, mem_append_right _ (hok.mem_drop hm hopen), hid, hprog, hopen⟩
  · exact h.jobFile
  · exact h.jobs
  · intro m hm hdone
    rcases mem_append.mp hm with hm | hm
    · obtain ⟨x, -, rfl⟩ := mem_map.mp hm
      exact nomatch hdone
    · exact h.finished m (mem_of_mem_drop hm) hdone
  · refine pairwise_append.mpr
      ⟨?_, h.files.sublist (drop_sublist _ _), ?_⟩
    · refine pairwise_map.mpr (pairwise_of_forall ?_)
      intro a b hdone
      exact nomatch hdone
    · intro m hm _ _ hdone
      obtain ⟨x, -, rfl⟩ := mem_map.mp hm
      exact nomatch hdone
  · exact h.edits

end

theorem Inv.logAndApply (h : Inv s) {i : Nat} (hi : s.committing[i]? = some b) (ok : Bool) :
    Inv (afterLogAndApply { s with committing := s.committing.eraseIdx i } b ok) := by
  rcases h.committing with ⟨halone, -⟩ | ⟨b', hb, hflag, hok⟩
  · rw [halone] at hi
    exact nomatch hi
  -- the committer is the only thread in there
  obtain ⟨hlt, hget⟩ := List.getElem?_eq_some_iff.mp hi
  have hzero : i = 0 := by
    rw [hb] at hlt
    exact Nat.lt_one_iff.mp hlt
  subst hzero
  have hbb : b' = b := by
    rw [hb] at hi
    exact Option.some.inj hi
  subst hbb
  have hrest : s.committing.eraseIdx 0 = [] := by
    rw [hb]
    rfl
  rw [hrest, afterLogAndApply]
  cases ok with
  | true =>
    rw [if_pos rfl]
    show Inv (MemTableList.commitLoop { s with
      committing := []
      written := s.written ++ b'.edits
      memlist := removeOldest b'.count s.memlist })
    rw [removeOldest_eq _ _ h.nodup]
    exact (h.toBase.commit hok).commitLoop rfl hflag
  | false =>
    rw [if_neg Bool.false_ne_true, resetOldest_eq _ _ hok.count]
    exact { toBase := h.toBase.uncommit hok, committing := .inl ⟨rfl, rfl⟩ }

theorem Inv.step (h : Inv s) (e : Event) : Inv (step s e) := by
  cases e with
  | add => exact h.add
  | flushRequested =>
    exact { h with }
  | newFileNumber =>
    refine { h with jobFile := ?_, finished := ?_ }
    · exact fun job hjob => (h.jobFile job hjob).trans (Nat.lt_succ_self _)
    · intro m hm hdone
      obtain ⟨hprog, hedit, hfile, hjobs⟩ := h.finished m hm hdone
      exact ⟨hprog, hedit, hfile.trans (Nat.lt_succ_self _), hjobs⟩
  | pick maxMemtableId => exact h.pick maxMemtableId
  | rollback i =>
    rw [MemTableList.step]
    cases hi : s.jobs[i]? with
    | none => exact h
    | some job => exact h.rollback hi
  | install i =>
    rw [MemTableList.step]
    cases hi : s.jobs[i]? with
    | none => exact h
    | some job => exact h.install hi
  | logAndApply i ok =>
  rw [MemTableList.step]
  cases hi : s.committing[i]? with
  | none => exact h
  | some b => exact h.logAndApply hi ok

end Steps

/-! ## Every run -/

theorem inv_run (es : List Event) : Inv (run step {} es) :=
  run_induction (I := Inv) (fun _ e h => h.step e) es {} inv_new

/-- What was written is an initial segment of the memtables, in their order. -/
theorem Base.written {s : State} (h : Base s) :
    s.written.map Prod.fst = List.range s.written.length := by
  have hlen : (s.written.map Prod.fst).length ≤ s.nextId := by
    have hsum := congrArg List.length h.order
    rw [length_append, length_range] at hsum
    exact (Nat.le_add_right _ _).trans hsum.le
  have htake := congrArg (List.take (s.written.map Prod.fst).length) h.order
  rw [take_left, take_range, Nat.min_eq_left hlen, length_map] at htake
  exact htake

/-- A memtable is in the list or written, never both. -/
theorem Base.listed_iff {s : State} (h : Base s) {id : Nat} (hid : id < s.nextId) :
    id ∈ s.memlist.map MemTable.id ↔ id ∉ s.written.map Prod.fst := by
  have hall := @nodup_range s.nextId
  rw [← h.order] at hall
  obtain ⟨-, -, hdisjoint⟩ := nodup_append.mp hall
  refine ⟨fun hlisted hwritten => hdisjoint id hwritten id hlisted rfl, ?_⟩
  intro hwritten
  have hmem : id ∈ s.written.map Prod.fst ++ s.memlist.map MemTable.id := by
    rw [h.order]
    exact mem_range.mpr hid
  exact (mem_append.mp hmem).resolve_left hwritten

/-- **FLUSH RESULTS ARE COMMITTED IN CREATION ORDER, EACH ONCE**: memtable `k` gives the
    `k`-th edit of the manifest, never a cleared one; a memtable is listed until its edit
    is written; one thread at most is in `LogAndApply`, the one that holds the flag; and
    the counter counts. -/
theorem flushResults_committed_in_order (es : List Event) :
    let s := run step {} es
    s.written.map Prod.fst = List.range s.written.length ∧
    (∀ e ∈ s.written, e.2 ≠ none) ∧
    (∀ id < s.nextId, id ∈ s.memlist.map MemTable.id ↔ id ∉ s.written.map Prod.fst) ∧
    s.committing.length ≤ 1 ∧
    (s.commitInProgress = true ↔ s.committing ≠ []) ∧
    s.numFlushNotStarted = notStarted s.memlist := by
  intro s
  have h : Inv s := inv_run es
  refine ⟨h.written, h.edits, fun id hid => h.listed_iff hid, ?_, ?_, h.count⟩
  · rcases h.committing with ⟨halone, -⟩ | ⟨b, hb, -⟩
    · rw [halone]
      exact Nat.zero_le _
    · rw [hb]
      exact le_rfl
  · rcases h.committing with ⟨halone, hflag⟩ | ⟨b, hb, hflag, -⟩
    · rw [halone, hflag]
      exact ⟨nofun, fun hne => absurd rfl hne⟩
    · rw [hb, hflag]
      exact ⟨nofun, fun _ => rfl⟩

/-- **NO MEMTABLE IS FLUSHED TWICE AT A TIME**: jobs differ in memtable and file, are for
    listed memtables, and no two finished ones share a file. -/
theorem jobs_apart (es : List Event) : let s := run step {} es
    s.jobs.Pairwise (fun a b => a.1 ≠ b.1 ∧ a.2 ≠ b.2) ∧
    (∀ job ∈ s.jobs, ∃ m ∈ s.memlist, m.id = job.1 ∧ m.flushInProgress = true ∧
      m.flushCompleted = false) ∧
    s.memlist.Pairwise (fun a b =>
      a.flushCompleted = true → b.flushCompleted = true → a.fileNumber ≠ b.fileNumber) := by
  have h := inv_run es
  exact ⟨h.jobs, h.jobMem, h.files⟩

end MemTableList
