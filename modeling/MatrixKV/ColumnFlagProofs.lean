import MatrixKV.EventRunProofs
import MatrixKV.DbFormatProofs

/-! # The column-compaction flag — `BackgroundCompaction` as a state machine

    `bg_column_compaction_` allows one column compaction of a family at a time.
    `BackgroundCompaction` sets it before it picks; a failed pick and a
    successful run clear it.  The machine below has one event for each point at
    which the database mutex changes hands: a call up to the moment it returns,
    forwards its compaction to the bottom pool or starts to run it; the end of a
    running compaction; and the removal of a forwarded one from the pool's queue.

    * `Tracked` — the flag is exactly the number of unfinished column compactions.
    * `tracked_step` — every step that is not a leak keeps it.
    * `stuck_of_leaks` — a leak leaves the flag set over nothing.
    * `stuck_run` — from then on no column compaction is ever needed again. -/

namespace ColumnFlag

open DbFormat EventRun

/-! ## Compactions -/

/-- A compaction without a column item.  `trivialMove` is the answer of
    `IsTrivialMove`. -/
structure PlainCompaction where
  outputLevel : Nat
  deletionCompaction : Bool := false
  trivialMove : Bool := false
  deriving DecidableEq, Repr

/-- What `BackgroundCompaction` distinguishes of a `Compaction`: whether it
    carries a column item. -/
inductive Compaction
  | column (outputLevel : Nat)
  | plain (c : PlainCompaction)
  deriving DecidableEq, Repr

def Compaction.isColumn : Compaction → Bool
  | .column _ => true
  | .plain _ => false

def Compaction.outputLevel : Compaction → Nat
  | .column level => level
  | .plain c => c.outputLevel

/-- Only FIFO compactions delete files. -/
def Compaction.deletionCompaction : Compaction → Bool
  | .column _ => false
  | .plain c => c.deletionCompaction

/-- `IsTrivialMove`: never with a column item, which starts at level 0. -/
def Compaction.isTrivialMove : Compaction → Bool
  | .column _ => false
  | .plain c => c.trivialMove

/-! ## The family and its environment -/

/-- The column family; the trigger is that of its NVM module, if it has one. -/
structure Family where
  style : CompactionStyle
  level0ColumnCompactionTriggerSize : Option Nat

/-- What a call of `BackgroundCompaction` finds.  The last group is what the
    pickers, the file manager and the thread pools answer. -/
structure Call where
  bgWorkStopped : Bool := false
  shuttingDown : Bool := false
  compactionQueueEmpty : Bool := false
  hasExclusiveManualCompaction : Bool := false
  lastReference : Bool := false
  disableAutoCompactions : Bool := false
  isDropped : Bool := false
  numLevelFiles0 : Nat := 0
  numLevelBytes0 : Nat := 0
  numLevelFiles1 : Nat := 0
  level0FileNumCompactionTrigger : Nat := 4
  baseLevel : Nat := 1
  columnItemPicked : Bool := false
  level1BeingCompacted : Bool := false
  plainPick : Option PlainCompaction := none
  enoughRoom : Bool := true
  maxOutputLevel : Nat := 6
  bottomThreads : Nat := 0

/-- A background error or a shutdown: the call returns at once. -/
def Call.stopped (call : Call) : Bool := call.bgWorkStopped || call.shuttingDown

/-- The call has popped the family from the compaction queue and still holds it. -/
def Call.popped (call : Call) : Bool :=
  !call.stopped && !call.compactionQueueEmpty && !call.hasExclusiveManualCompaction &&
    !call.lastReference

def needsColumnCompaction (fam : Family) (call : Call) (bgColumnCompaction : Bool) : Bool :=
  match fam.level0ColumnCompactionTriggerSize with
  | none => false
  | some size =>
    if bgColumnCompaction then false
    else if call.numLevelFiles1 = 0 then decide (call.numLevelBytes0 ≥ size)
    else decide (call.numLevelFiles0 ≥ call.level0FileNumCompactionTrigger)

/-- `SetupColumnCompactionInputs`: it fails without an item, and when a chosen
    level-1 file is being compacted. -/
def setupColumnCompactionInputs (call : Call) : Option Compaction :=
  if call.columnItemPicked && !call.level1BeingCompacted then some (.column call.baseLevel)
  else none

/-- `PickCompaction`.  Only the level picker knows the column request; the others
    ignore it, and the null picker picks nothing. -/
def pickCompaction (fam : Family) (call : Call) (forColumnCompaction : Bool) :
    Option Compaction :=
  match fam.style with
  | .level =>
    if forColumnCompaction then setupColumnCompactionInputs call
    else call.plainPick.map .plain
  | .universal => call.plainPick.map .plain
  | .fifo => call.plainPick.map .plain
  | .none => none

/-! ## The machine -/

/-- The flag, the compactions that run, and those waiting in the bottom pool. -/
structure State where
  bgColumnCompaction : Bool := false
  running : List Compaction := []
  bottom : List Compaction := []
  deriving DecidableEq, Repr

/-- How a run ended: `Run` failed, `InstallCompactionResults` failed, or neither. -/
inductive RunResult
  | runFailed
  | installFailed
  | succeeded
  deriving DecidableEq, Repr

inductive Event
  /-- a call without a prepicked compaction -/
  | background (call : Call)
  /-- a call for a manual compaction, with what it picked -/
  | manual (call : Call) (c : Option PlainCompaction) (disallowTrivialMove : Bool)
  /-- a call of the bottom pool for its compaction `index` -/
  | bottomCall (call : Call) (index : Nat)
  /-- the running compaction `index` ends -/
  | finish (index : Nat) (result : RunResult)
  /-- `UnscheduleCallback` for the bottom pool's compaction `index` -/
  | unschedule (index : Nat)

/-- The branches on a compaction in hand: deletions and moves end within the call,
    the others are forwarded or start to run. -/
def dispatch (call : Call) (isPrepicked trivialMoveDisallowed : Bool) (s : State)
    (c : Compaction) : State :=
  if c.deletionCompaction then s
  else if !trivialMoveDisallowed && c.isTrivialMove then s
  else if !isPrepicked && decide (c.outputLevel > 0) &&
      c.outputLevel = call.maxOutputLevel && decide (call.bottomThreads > 0) then
    { s with bottom := s.bottom ++ [c] }
  else { s with running := s.running ++ [c] }

/-- A picked compaction needs room on disk. -/
def startCompaction (call : Call) (s : State) : Option Compaction → State
  | none => s
  | some c => if call.enoughRoom then dispatch call false false s c else s

/-- The call's automatic branch. -/
def backgroundCompaction (fam : Family) (s : State) (call : Call) : State :=
  if call.popped then
    let isColumnCompaction := needsColumnCompaction fam call s.bgColumnCompaction
    let s := if isColumnCompaction then { s with bgColumnCompaction := true } else s
    if call.disableAutoCompactions || call.isDropped then s
    else
      let picked := pickCompaction fam call isColumnCompaction
      -- the column pick failed: clear the flag and pick an ordinary compaction
      let failed := isColumnCompaction && picked.isNone
      let s := if failed then { s with bgColumnCompaction := false } else s
      startCompaction call s (if failed then pickCompaction fam call false else picked)
  else s

/-- The call's manual branch. -/
def manualCompaction (s : State) (call : Call) (c : Option PlainCompaction)
    (disallowTrivialMove : Bool) : State :=
  if call.stopped then s
  else match c with
    | none => s
    | some c => if call.enoughRoom then dispatch call true disallowTrivialMove s (.plain c) else s

/-- The call of the bottom pool: its compaction is released if the call returns at
    once. -/
def bottomCompaction (s : State) (call : Call) (index : Nat) : State :=
  match s.bottom[index]? with
  | none => s
  | some c =>
    let s := { s with bottom := s.bottom.eraseIdx index }
    if call.stopped then s else dispatch call true false s c

/-- `CompactionJob::Install`: the item is installed, and the flag cleared, if `Run`
    was successful, whatever the installation of the results said. -/
def installFlag (c : Compaction) (result : RunResult) (bgColumnCompaction : Bool) : Bool :=
  match result, c with
  | .runFailed, _ => bgColumnCompaction
  | _, .column _ => false
  | _, .plain _ => bgColumnCompaction

def finishCompaction (s : State) (index : Nat) (result : RunResult) : State :=
  match s.running[index]? with
  | none => s
  | some c =>
    { s with
      running := s.running.eraseIdx index
      bgColumnCompaction := installFlag c result s.bgColumnCompaction }

def unscheduleCallback (s : State) (index : Nat) : State :=
  { s with bottom := s.bottom.eraseIdx index }

def step (fam : Family) (s : State) : Event → State
  | .background call => backgroundCompaction fam s call
  | .manual call c disallow => manualCompaction s call c disallow
  | .bottomCall call index => bottomCompaction s call index
  | .finish index result => finishCompaction s index result
  | .unschedule index => unscheduleCallback s index

/-! ## Unfinished column compactions -/

/-- The number of column compactions picked and not yet over. -/
def State.columns (s : State) : Nat :=
  s.running.countP Compaction.isColumn + s.bottom.countP Compaction.isColumn

/-- With no column compaction unfinished, the flag is clear. -/
def FlagClear (s : State) : Prop := s.columns = 0 → s.bgColumnCompaction = false

instance (s : State) : Decidable (FlagClear s) := inferInstanceAs (Decidable (_ → _))

/-- The invariant: the flag is set exactly while one column compaction is
    unfinished, and there is never a second one. -/
def Tracked (s : State) : Prop := s.columns = s.bgColumnCompaction.toNat

/-- The flag is set over nothing. -/
def Stuck (s : State) : Prop := s.columns = 0 ∧ s.bgColumnCompaction = true

instance (s : State) : Decidable (Stuck s) := inferInstanceAs (Decidable (_ ∧ _))

theorem Stuck.not_flagClear {s : State} (h : Stuck s) : ¬ FlagClear s := by
  intro hclear
  rw [Stuck, hclear h.1] at h
  exact nomatch h.2

theorem Tracked.flagClear {s : State} (h : Tracked s) : FlagClear s := by
  intro hzero
  rw [Tracked, hzero] at h
  cases hflag : s.bgColumnCompaction with
  | false => rfl
  | true => simp [hflag] at h

variable {c : Compaction}

/-- A compaction taken out of a list no longer counts. -/
theorem countP_eraseIdx {l : List Compaction} {index : Nat} (h : l[index]? = some c) :
    (l.eraseIdx index).countP Compaction.isColumn + c.isColumn.toNat
      = l.countP Compaction.isColumn := by
  obtain ⟨hlt, rfl⟩ := List.getElem?_eq_some_iff.mp h
  rw [← (List.getElem_cons_eraseIdx_perm hlt).countP_eq, List.countP_cons]
  cases l[index].isColumn <;> rfl

section

variable (call : Call) (pre dis : Bool) (s : State) (c : Compaction)

theorem dispatch_flag : (dispatch call pre dis s c).bgColumnCompaction = s.bgColumnCompaction := by
  rw [dispatch]
  split_ifs <;> rfl

/-- A dispatched column compaction is unfinished; of the others none counts. -/
theorem dispatch_columns : (dispatch call pre dis s c).columns = s.columns + c.isColumn.toNat := by
  cases c with
  | column level =>
    rw [dispatch, if_neg (by simp [Compaction.deletionCompaction]),
      if_neg (by simp [Compaction.isTrivialMove])]
    split_ifs <;> simp [State.columns, Compaction.isColumn] <;> omega
  | plain c =>
    rw [dispatch]
    split_ifs <;> simp [State.columns, Compaction.isColumn]

end

theorem startCompaction_flag (call : Call) (s : State) (c : Option Compaction) :
    (startCompaction call s c).bgColumnCompaction = s.bgColumnCompaction := by
  cases c with
  | none => rfl
  | some c =>
  rw [startCompaction]
  split_ifs with hroom
  · rw [dispatch_flag]
  · rfl

theorem startCompaction_columns (call : Call) (s : State) (c : Option Compaction) :
    (startCompaction call s c).columns
      = s.columns + (call.enoughRoom && c.any Compaction.isColumn).toNat := by
  cases c with
  | none => simp [startCompaction]
  | some c =>
  rw [startCompaction]
  split_ifs with hroom
  · rw [dispatch_columns]
    simp [hroom]
  · simp [hroom]

/-! ## Leaks -/

/-- The events that leave the flag set over nothing: a column need in a family that is dropped
    or has automatic compactions disabled, or whose pick has no room or is no column compaction; a
    forwarded one that is stopped or unscheduled; and one whose `Run` failed. -/
def Leaks (fam : Family) (s : State) : Event → Prop
  | .background call =>
    call.popped = true ∧ needsColumnCompaction fam call s.bgColumnCompaction = true ∧
      (call.disableAutoCompactions = true ∨ call.isDropped = true ∨
        ∃ c, pickCompaction fam call true = some c ∧
          (call.enoughRoom = false ∨ c.isColumn = false))
  | .manual _ _ _ => False
  | .bottomCall call index =>
    call.stopped = true ∧ ∃ c, s.bottom[index]? = some c ∧ c.isColumn = true
  | .finish index result =>
    result = .runFailed ∧ ∃ c, s.running[index]? = some c ∧ c.isColumn = true
  | .unschedule index => ∃ c, s.bottom[index]? = some c ∧ c.isColumn = true

variable {call : Call}

theorem needsColumnCompaction_flag {fam : Family} {flag : Bool}
    (h : needsColumnCompaction fam call flag = true) : flag = false := by
  cases flag with
  | false => rfl
  | true =>
    rw [needsColumnCompaction] at h
    cases hsize : fam.level0ColumnCompactionTriggerSize <;> simp [hsize] at h

/-- Without the column request no picker returns a column compaction. -/
theorem pickCompaction_plain (fam : Family) (call : Call) :
    (pickCompaction fam call false).any Compaction.isColumn = false := by
  have hplain : (call.plainPick.map Compaction.plain).any Compaction.isColumn = false := by
    cases call.plainPick <;> rfl
  rw [pickCompaction]
  cases fam.style with
  | level => exact hplain
  | universal => exact hplain
  | fifo => exact hplain
  | none => rfl

/-! ## The call, exit by exit -/

section Background

variable {fam : Family} {s : State} {call : Call}

/-- The call when it has nothing to pick for: the flag may be set, nothing else. -/
theorem backgroundCompaction_of_off (hpop : call.popped = true)
    (hoff : (call.disableAutoCompactions || call.isDropped) = true) :
    backgroundCompaction fam s call
      = { s with bgColumnCompaction :=
            needsColumnCompaction fam call s.bgColumnCompaction || s.bgColumnCompaction } := by
  rw [backgroundCompaction, if_pos hpop]
  cases hneed : needsColumnCompaction fam call s.bgColumnCompaction <;> simp [hoff]

section

variable (hpop : call.popped = true)
  (hoff : (call.disableAutoCompactions || call.isDropped) = false)
include hpop hoff

/-- The call when no column compaction is needed. -/
theorem backgroundCompaction_of_not_needed
    (hneed : needsColumnCompaction fam call s.bgColumnCompaction = false) :
    backgroundCompaction fam s call = startCompaction call s (pickCompaction fam call false) := by
  rw [backgroundCompaction, if_pos hpop]
  simp [hoff, hneed]

/-- The call when the column pick failed. -/
theorem backgroundCompaction_of_failed
    (hneed : needsColumnCompaction fam call s.bgColumnCompaction = true)
    (hpick : pickCompaction fam call true = none) :
    backgroundCompaction fam s call = startCompaction call s (pickCompaction fam call false) := by
  have hflag := needsColumnCompaction_flag hneed
  rw [backgroundCompaction, if_pos hpop]
  simp [hoff, hneed, hpick, ← hflag]

/-- The call when the column pick returned a compaction. -/
theorem backgroundCompaction_of_picked
    (hneed : needsColumnCompaction fam call s.bgColumnCompaction = true)
    (hpick : pickCompaction fam call true = some c) :
    backgroundCompaction fam s call
      = startCompaction call { s with bgColumnCompaction := true } (some c) := by
  rw [backgroundCompaction, if_pos hpop]
  simp [hoff, hneed, hpick]

end

/-- An ordinary compaction changes neither the flag nor the count. -/
theorem startCompaction_plain (h : Tracked s) :
    Tracked (startCompaction call s (pickCompaction fam call false)) := by
  rw [Tracked, startCompaction_columns, startCompaction_flag, pickCompaction_plain, Bool.and_false]
  exact h

theorem tracked_background (h : Tracked s) (hleak : ¬ Leaks fam s (.background call)) :
    Tracked (backgroundCompaction fam s call) := by
  by_cases hpop : call.popped = true
  · cases hneed : needsColumnCompaction fam call s.bgColumnCompaction with
    | false =>
      cases hoff : call.disableAutoCompactions || call.isDropped with
      | false =>
        rw [backgroundCompaction_of_not_needed hpop hoff hneed]
        exact startCompaction_plain h
      | true =>
        rw [backgroundCompaction_of_off hpop hoff, hneed]
        exact h
    | true =>
    have hoff : (call.disableAutoCompactions || call.isDropped) = false := by
      by_contra hon
      rw [Bool.not_eq_false, Bool.or_eq_true] at hon
      exact hleak ⟨hpop, hneed, hon.imp id .inl⟩
    cases hpick : pickCompaction fam call true with
    | none =>
      rw [backgroundCompaction_of_failed hpop hoff hneed hpick]
      exact startCompaction_plain h
    | some c =>
    -- the one exit with a column compaction in hand: it has room
    have hok : call.enoughRoom = true ∧ c.isColumn = true := by
      by_contra hno
      refine hleak ⟨hpop, hneed, .inr (.inr ⟨c, hpick, ?_⟩)⟩
      rcases not_and_or.mp hno with hroom | hcol
      · exact .inl (by simpa using hroom)
      · exact .inr (by simpa using hcol)
    have hzero : s.columns = 0 := by
      rw [h, needsColumnCompaction_flag hneed]
      rfl
    rw [backgroundCompaction_of_picked hpop hoff hneed hpick, Tracked,
      startCompaction_columns, startCompaction_flag]
    simpa [hok, State.columns] using hzero
  · rw [backgroundCompaction, if_neg hpop]
    exact h

/-- After a leaking call the flag is set and nothing is unfinished. -/
theorem background_leaks (h : Tracked s) (hleak : Leaks fam s (.background call)) :
    Stuck (backgroundCompaction fam s call) := by
  obtain ⟨hpop, hneed, hexit⟩ := hleak
  have hzero : s.columns = 0 := by
    rw [h, needsColumnCompaction_flag hneed]
    rfl
  cases hoff : call.disableAutoCompactions || call.isDropped with
  | true =>
    rw [backgroundCompaction_of_off hpop hoff, hneed]
    exact ⟨hzero, rfl⟩
  | false =>
  obtain ⟨c, hpick, hc⟩ : ∃ c, pickCompaction fam call true = some c ∧
      (call.enoughRoom = false ∨ c.isColumn = false) := by
    rw [Bool.or_eq_false_iff] at hoff
    simpa [hoff] using hexit
  rw [backgroundCompaction_of_picked hpop hoff hneed hpick, Stuck, startCompaction_columns,
    startCompaction_flag]
  have hnone : (call.enoughRoom && (some c).any Compaction.isColumn) = false := by
    rcases hc with hc | hc <;> simp [hc]
  rw [hnone]
  exact ⟨hzero, rfl⟩

end Background

/-! ## The other events -/

variable {result : RunResult}

section Others

variable {fam : Family} {s : State} {index : Nat} {c : Compaction}

/-- A manual compaction changes neither the flag nor the count. -/
theorem manualCompaction_frame (s : State) (call : Call) (c : Option PlainCompaction)
    (disallow : Bool) :
    (manualCompaction s call c disallow).columns = s.columns ∧
      (manualCompaction s call c disallow).bgColumnCompaction = s.bgColumnCompaction := by
  by_cases hstop : call.stopped = true
  · simp [manualCompaction, hstop]
  cases c with
  | none => simp [manualCompaction, hstop]
  | some c =>
  by_cases hroom : call.enoughRoom = true
  · have heq : manualCompaction s call (some c) disallow
        = dispatch call true disallow s (.plain c) := by
      simp [manualCompaction, hstop, hroom]
    rw [heq, dispatch_columns, dispatch_flag]
    exact ⟨rfl, rfl⟩
  · simp [manualCompaction, hstop, hroom]

theorem tracked_manual (h : Tracked s) (call : Call) (c : Option PlainCompaction)
    (disallow : Bool) : Tracked (manualCompaction s call c disallow) := by
  obtain ⟨hcols, hflag⟩ := manualCompaction_frame s call c disallow
  rw [Tracked, hcols, hflag]
  exact h

/-- Taking a compaction from the bottom pool. -/
theorem columns_eraseIdx_bottom (hc : s.bottom[index]? = some c) :
    State.columns { s with bottom := s.bottom.eraseIdx index } + c.isColumn.toNat = s.columns := by
  have hcount := countP_eraseIdx hc
  simp only [State.columns]
  omega

/-- Taking a compaction from those that run. -/
theorem columns_eraseIdx_running (hc : s.running[index]? = some c) (flag : Bool) :
    State.columns { s with running := s.running.eraseIdx index, bgColumnCompaction := flag } +
      c.isColumn.toNat = s.columns := by
  have hcount := countP_eraseIdx hc
  simp only [State.columns]
  omega

/-- While a column compaction is unfinished, it is the only one and the flag is set. -/
theorem Tracked.of_column (h : Tracked s) {n : Nat} (hn : n + c.isColumn.toNat = s.columns)
    (hc : c.isColumn = true) : n = 0 ∧ s.bgColumnCompaction = true := by
  rw [h, hc] at hn
  cases hflag : s.bgColumnCompaction with
  | false => simp [hflag] at hn
  | true => simpa [hflag] using hn

theorem bottomCompaction_of_stopped (hc : s.bottom[index]? = some c) (hstop : call.stopped = true) :
    bottomCompaction s call index = { s with bottom := s.bottom.eraseIdx index } := by
  simp [bottomCompaction, hc, hstop]

theorem bottomCompaction_of_started (hc : s.bottom[index]? = some c)
    (hstop : ¬ call.stopped = true) :
    bottomCompaction s call index
      = dispatch call true false { s with bottom := s.bottom.eraseIdx index } c := by
  simp [bottomCompaction, hc, hstop]

theorem tracked_bottomCall (h : Tracked s) (hleak : ¬ Leaks fam s (.bottomCall call index)) :
    Tracked (bottomCompaction s call index) := by
  cases hc : s.bottom[index]? with
  | none =>
    rw [bottomCompaction, hc]
    exact h
  | some c =>
  have hcols := columns_eraseIdx_bottom hc
  by_cases hstop : call.stopped = true
  · have hplain : c.isColumn = false := by
      by_contra hcol
      exact hleak ⟨hstop, c, hc, by simpa using hcol⟩
    rw [hplain] at hcols
    rw [bottomCompaction_of_stopped hc hstop]
    exact hcols.trans h
  · rw [bottomCompaction_of_started hc hstop, Tracked, dispatch_columns, dispatch_flag, hcols]
    exact h

theorem bottomCall_leaks (h : Tracked s) (hleak : Leaks fam s (.bottomCall call index)) :
    Stuck (bottomCompaction s call index) := by
  obtain ⟨hstop, c, hc, hcol⟩ := hleak
  rw [bottomCompaction_of_stopped hc hstop]
  exact h.of_column (columns_eraseIdx_bottom hc) hcol

theorem finishCompaction_of_running (hc : s.running[index]? = some c) (result : RunResult) :
    finishCompaction s index result
      = { s with
          running := s.running.eraseIdx index
          bgColumnCompaction := installFlag c result s.bgColumnCompaction } := by
  rw [finishCompaction, hc]

theorem installFlag_plain (hc : c.isColumn = false) (result : RunResult) (flag : Bool) :
    installFlag c result flag = flag := by
  cases c with
  | column level => exact nomatch hc
  | plain p => cases result <;> rfl

theorem installFlag_column (hc : c.isColumn = true) (hrun : result ≠ .runFailed) (flag : Bool) :
    installFlag c result flag = false := by
  cases c with
  | plain p => exact nomatch hc
  | column level =>
  cases result with
  | runFailed => exact absurd rfl hrun
  | installFailed => rfl
  | succeeded => rfl

theorem tracked_finish (h : Tracked s) (hleak : ¬ Leaks fam s (.finish index result)) :
    Tracked (finishCompaction s index result) := by
  cases hc : s.running[index]? with
  | none =>
    rw [finishCompaction, hc]
    exact h
  | some c =>
  rw [finishCompaction_of_running hc]
  cases hcol : c.isColumn with
  | false =>
    have hcols := columns_eraseIdx_running hc s.bgColumnCompaction
    rw [hcol] at hcols
    rw [installFlag_plain hcol]
    exact hcols.trans h
  | true =>
  have hrun : result ≠ .runFailed := fun hr => hleak ⟨hr, c, hc, hcol⟩
  rw [installFlag_column hcol hrun]
  exact (h.of_column (columns_eraseIdx_running hc false) hcol).1

theorem finish_leaks (h : Tracked s) (hleak : Leaks fam s (.finish index result)) :
    Stuck (finishCompaction s index result) := by
  obtain ⟨rfl, c, hc, hcol⟩ := hleak
  rw [finishCompaction_of_running hc]
  exact h.of_column (columns_eraseIdx_running hc _) hcol

theorem tracked_unschedule (h : Tracked s) (hleak : ¬ Leaks fam s (.unschedule index)) :
    Tracked (unscheduleCallback s index) := by
  cases hc : s.bottom[index]? with
  | none =>
    rw [unscheduleCallback, List.eraseIdx_of_length_le (List.getElem?_eq_none_iff.mp hc)]
    exact h
  | some c =>
  have hplain : c.isColumn = false := by
    by_contra hcol
    exact hleak ⟨c, hc, by simpa using hcol⟩
  have hcols := columns_eraseIdx_bottom hc
  rw [hplain] at hcols
  exact hcols.trans h

theorem unschedule_leaks (h : Tracked s) (hleak : Leaks fam s (.unschedule index)) :
    Stuck (unscheduleCallback s index) := by
  obtain ⟨c, hc, hcol⟩ := hleak
  exact h.of_column (columns_eraseIdx_bottom hc) hcol

end Others

/-! ## Runs -/

/-- **STEP**: an event that is not a leak keeps the invariant. -/
theorem tracked_step (fam : Family) (s : State) (e : Event) (h : Tracked s)
    (hleak : ¬ Leaks fam s e) : Tracked (step fam s e) := by
  cases e with
  | background call => exact tracked_background h hleak
  | manual call c disallow => exact tracked_manual h call c disallow
  | bottomCall call index => exact tracked_bottomCall h hleak
  | finish index result => exact tracked_finish h hleak
  | unschedule index => exact tracked_unschedule h hleak

/-- **LEAK**: after a leak the flag is set over nothing. -/
theorem stuck_of_leaks (fam : Family) (s : State) (e : Event) (h : Tracked s)
    (hleak : Leaks fam s e) : Stuck (step fam s e) := by
  cases e with
  | background call => exact background_leaks h hleak
  | manual call c disallow => exact hleak.elim
  | bottomCall call index => exact bottomCall_leaks h hleak
  | finish index result => exact finish_leaks h hleak
  | unschedule index => exact unschedule_leaks h hleak

/-- What is taken from a list without column compactions is not one. -/
theorem Stuck.of_plain {s : State} (h : Stuck s) {n : Nat} (hn : n + c.isColumn.toNat = s.columns) :
    n = 0 ∧ c.isColumn = false := by
  rw [h.1] at hn
  cases hc : c.isColumn with
  | false => simpa [hc] using hn
  | true => simp [hc] at hn

theorem stuck_background {fam : Family} {s : State} (h : Stuck s) (call : Call) :
    Stuck (backgroundCompaction fam s call) := by
  have hneed : needsColumnCompaction fam call s.bgColumnCompaction = false := by
    by_contra hneed
    rw [Bool.not_eq_false] at hneed
    exact absurd (needsColumnCompaction_flag hneed) (by simp [h.2])
  by_cases hpop : call.popped = true
  · cases hoff : call.disableAutoCompactions || call.isDropped with
    | true =>
      rw [backgroundCompaction_of_off hpop hoff, hneed]
      exact h
    | false =>
    rw [backgroundCompaction_of_not_needed hpop hoff hneed, Stuck, startCompaction_columns,
      startCompaction_flag, pickCompaction_plain, Bool.and_false]
    exact h
  · rw [backgroundCompaction, if_neg hpop]
    exact h

/-- No event clears a flag that is set over nothing. -/
theorem stuck_step (fam : Family) (s : State) (e : Event) (h : Stuck s) :
    Stuck (step fam s e) := by
  cases e with
  | background call => exact stuck_background h call
  | manual call c disallow =>
    obtain ⟨hcols, hflag⟩ := manualCompaction_frame s call c disallow
    exact ⟨hcols.trans h.1, hflag.trans h.2⟩
  | bottomCall call index =>
    cases hc : s.bottom[index]? with
    | none =>
      rw [step, bottomCompaction, hc]
      exact h
    | some c =>
    have hzero := h.of_plain (columns_eraseIdx_bottom hc)
    by_cases hstop : call.stopped = true
    · rw [step, bottomCompaction_of_stopped hc hstop]
      exact ⟨hzero.1, h.2⟩
    rw [step, bottomCompaction_of_started hc hstop, Stuck, dispatch_columns, dispatch_flag,
      hzero.1, hzero.2]
    exact ⟨rfl, h.2⟩
  | finish index result =>
    cases hc : s.running[index]? with
    | none =>
      rw [step, finishCompaction, hc]
      exact h
    | some c =>
    have hzero := h.of_plain (columns_eraseIdx_running hc s.bgColumnCompaction)
    rw [step, finishCompaction_of_running hc, installFlag_plain hzero.2]
    exact ⟨hzero.1, h.2⟩
  | unschedule index =>
  cases hc : s.bottom[index]? with
  | none =>
    rw [step, unscheduleCallback, List.eraseIdx_of_length_le (List.getElem?_eq_none_iff.mp hc)]
    exact h
  | some c => exact ⟨(h.of_plain (columns_eraseIdx_bottom hc)).1, h.2⟩

/-- **BLOCKED FOR GOOD**: after a leak, however the run goes on, the family never
    needs a column compaction again. -/
theorem stuck_run (fam : Family) (es : List Event) (s : State) (h : Stuck s) (call : Call) :
    needsColumnCompaction fam call (run (step fam) s es).bgColumnCompaction = false := by
  have hrun : Stuck (run (step fam) s es) :=
    run_induction (fun s e hs => stuck_step fam s e hs) es s h
  by_contra hneed
  rw [Bool.not_eq_false] at hneed
  exact absurd (needsColumnCompaction_flag hneed) (by simp [hrun.2])

/-- **THE FLAG TRACKS THE RUNNING COLUMN COMPACTION** throughout a run exactly when
    the run has no leak. -/
theorem flagClear_always_iff (fam : Family) (es : List Event) :
    Always (step fam) FlagClear {} es ↔ Never (step fam) (Leaks fam) {} es :=
  always_iff_never (fun _ h => h.flagClear) (tracked_step fam)
    (fun s e h hleak => (stuck_of_leaks fam s e h hleak).not_flagClear) es {} rfl

/-- **ONE AT A TIME**: in every run, leaks included, at most one column compaction is
    unfinished, and the flag is set meanwhile. -/
theorem columns_le_flag (fam : Family) (es : List Event) :
    (run (step fam) {} es).columns ≤ (run (step fam) {} es).bgColumnCompaction.toNat := by
  have hrun : Tracked (run (step fam) {} es) ∨ Stuck (run (step fam) {} es) := by
    refine run_induction (I := fun s => Tracked s ∨ Stuck s) (fun s e hs => ?_) es {} (.inl rfl)
    rcases hs with htracked | hstuck
    · by_cases hleak : Leaks fam s e
      · exact .inr (stuck_of_leaks fam s e htracked hleak)
      · exact .inl (tracked_step fam s e htracked hleak)
    · exact .inr (stuck_step fam s e hstuck)
  rcases hrun with htracked | hstuck
  · exact htracked.le
  · exact hstuck.1.trans_le (Nat.zero_le _)

/-- A family with level style and a trigger of 100 bytes. -/
def nvmFamily : Family := { style := .level, level0ColumnCompactionTriggerSize := some 100 }

/-- Level 0 has reached the trigger, level 1 is empty and the pick succeeds. -/
def needyCall : Call := { numLevelBytes0 := 100, columnItemPicked := true }

/-- A picked column compaction for which there is no room, or whose `Run` fails,
    leaves the flag set: no later call sees the need for a column compaction. -/
theorem flag_outlives_compaction :
    (∃ s, s = run (step nvmFamily) {} [.background { needyCall with enoughRoom := false }] ∧
      s.columns = 0 ∧ s.bgColumnCompaction = true ∧
      ∀ es call, needsColumnCompaction nvmFamily call
        (run (step nvmFamily) s es).bgColumnCompaction = false) ∧
    (∃ s, s = run (step nvmFamily) {} [.background needyCall, .finish 0 .runFailed] ∧
      s.columns = 0 ∧ s.bgColumnCompaction = true ∧
      ∀ es call, needsColumnCompaction nvmFamily call
        (run (step nvmFamily) s es).bgColumnCompaction = false) :=
  ⟨⟨_, rfl, by decide, by decide, fun es => stuck_run nvmFamily es _ (by decide)⟩,
    ⟨_, rfl, by decide, by decide, fun es => stuck_run nvmFamily es _ (by decide)⟩⟩

end ColumnFlag
