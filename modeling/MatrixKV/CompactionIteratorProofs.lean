import MatrixKV.CutPointsProofs
import MatrixKV.TableGetProofs

/-! # The compaction iterator — CompactionIterator and MergeHelper::MergeUntil

    A flush and a compaction pass their sorted input through `CompactionIterator`,
    which leaves out what no live snapshot can see, folds merge operands, and sets
    sequence numbers to zero at the bottommost level.

    * `round` is one turn of the loop of `NextFromInput`, branch by branch; `output`
      is what `SeekToFirst` and `Next` deliver.  There is no compaction filter and no
      snapshot checker.
    * `keyNotExistsBeyondOutputLevel` keeps the source's cursors, as what is left of
      the files of each level. -/

namespace CompactionIterator

open DbFormat TableGet

variable {K : Type} [LinearOrder K]

/-- A key with its value. -/
abbrev Entry (K : Type) := InternalKey K × Bytes

/-! ## What the iterator is given -/

/-- A file below the output level, with what it holds. -/
structure LevelFile (K : Type) [LinearOrder K] where
  smallest : InternalKey K
  largest : InternalKey K
  entries : List (Entry K)
  bounds : smallest.userKey ≤ largest.userKey
  inRange : ∀ e ∈ entries, smallest.userKey ≤ e.1.userKey ∧ e.1.userKey ≤ largest.userKey

/-- The files of a level below level 0 are sorted. -/
structure Level (K : Type) [LinearOrder K] where
  files : List (LevelFile K)
  ordered : files.Pairwise (fun f g => f.largest.userKey ≤ g.smallest.userKey)

def Level.entries (l : Level K) : List (Entry K) := l.files.flatMap LevelFile.entries

/-- The part of a `Compaction` that the iterator asks for.  `deeper` are the levels
    below the output level. -/
structure Compaction (K : Type) [LinearOrder K] where
  bottommostLevel : Bool
  outputLevel : Nat
  style : CompactionStyle
  deeper : List (Level K)
  largestUserKey : K
  preserveDeletes : Bool := false
  allowIngestBehind : Bool := false

/-- The operator behind a `MergeHelper`.  Operands are given oldest first. -/
structure MergeHelper (K : Type) where
  fullMergeV2 : K → Option Bytes → List Bytes → Option Bytes
  partialMergeMulti : K → List Bytes → Option Bytes
  allowSingleOperand : Bool := false

structure Config (K : Type) [LinearOrder K] where
  snapshots : List Nat
  earliestWriteConflictSnapshot : Nat := maxSequenceNumber
  preserveDeletesSeqnum : Nat := 0
  /-- none for a flush -/
  compaction : Option (Compaction K) := none
  tombstones : List (Tombstone K) := []
  mergeHelper : Option (MergeHelper K) := none

def Config.bottommostLevel (cfg : Config K) : Bool :=
  match cfg.compaction with
  | none => false
  | some c => c.bottommostLevel

def Config.earliestSnapshot (cfg : Config K) : Nat := cfg.snapshots.head?.getD maxSequenceNumber

/-- `findEarliestVisibleSnapshot`: the first snapshot that sees the sequence number,
    and the one before it. -/
def findEarliestVisibleSnapshot (snapshots : List Nat) (seq : Nat) : Nat × Nat :=
  (CutPoints.ceil snapshots maxSequenceNumber seq, CutPoints.floor snapshots seq)

/-- The two snapshots of an entry; without snapshots only the tip sees it. -/
def Config.snapshotsOf (cfg : Config K) (seq : Nat) : Nat × Nat :=
  if cfg.snapshots = [] then (cfg.earliestSnapshot, 0)
  else findEarliestVisibleSnapshot cfg.snapshots seq

/-- `CompactionRangeDelAggregator::ShouldDelete`: a newer tombstone of the same snapshot
    stripe covers the key. -/
def Config.shouldDelete (cfg : Config K) (key : InternalKey K) : Bool :=
  cfg.tombstones.any (fun t =>
    decide (t.start ≤ key.userKey ∧ key.userKey < t.fin ∧ key.sequence < t.seq ∧
      (findEarliestVisibleSnapshot cfg.snapshots t.seq).1
        = (findEarliestVisibleSnapshot cfg.snapshots key.sequence).1))

/-- `ikeyNotNeededForIncrementalSnapshot` -/
def Config.notNeededForIncrementalSnapshot (cfg : Config K) (c : Compaction K) (seq : Nat) : Bool :=
  !c.preserveDeletes || decide (seq < cfg.preserveDeletesSeqnum)

/-! ## Deeper levels -/

/-- What is left of the files of each deeper level. -/
abbrev LevelPtrs (K : Type) [LinearOrder K] := List (List (LevelFile K))

/-- The loop of `KeyNotExistsBeyondOutputLevel` over the levels; a level in which the key
    lies in the range of a file ends it. -/
def notInLevels (k : K) : LevelPtrs K → Bool × LevelPtrs K
  | [] => (true, [])
  | fs :: rest =>
    let fs := fs.dropWhile (fun f => decide (f.largest.userKey < k))
    match fs.head? with
    | some f =>
      if f.smallest.userKey ≤ k then (false, fs :: rest)
      else ((notInLevels k rest).1, fs :: (notInLevels k rest).2)
    | none => ((notInLevels k rest).1, fs :: (notInLevels k rest).2)

/-- `Compaction::KeyNotExistsBeyondOutputLevel` -/
def keyNotExistsBeyondOutputLevel (c : Compaction K) (k : K) (ptrs : LevelPtrs K) :
    Bool × LevelPtrs K :=
  if c.bottommostLevel then (true, ptrs)
  else if c.outputLevel ≠ 0 ∧ c.style = .level then notInLevels k ptrs
  else (false, ptrs)

/-! ## Merge operands -/

/-- Why `MergeUntil` stops. -/
inductive Stop (K : Type)
  | exhausted
  | nextUserKey
  | nextStripe
  | base (e : Entry K)
  deriving DecidableEq, Repr

structure Collected (K : Type) where
  /-- newest first -/
  operands : List (Entry K)
  stop : Stop K
  rest : List (Entry K)
  deriving DecidableEq, Repr

/-- The loop of `MergeUntil`.  Operands under a tombstone are left out; a base with no
    operand above it is not consumed. -/
def collect (cfg : Config K) (k : K) (stopBefore : Nat) :
    Bool → List (Entry K) → List (Entry K) → Collected K
  | _, acc, [] => ⟨acc, .exhausted, []⟩
  | firstKey, acc, e :: es =>
    if firstKey = false ∧ e.1.userKey ≠ k then ⟨acc, .nextUserKey, e :: es⟩
    else if firstKey = false ∧ stopBefore > 0 ∧ e.1.sequence ≤ stopBefore then
      ⟨acc, .nextStripe, e :: es⟩
    else if e.1.type ≠ .merge then ⟨acc, .base e, if acc = [] then e :: es else es⟩
    else if cfg.shouldDelete e.1 then collect cfg k stopBefore false acc es
    else collect cfg k stopBefore false (acc ++ [e]) es

/-- The operands as the merge operator gets them. -/
def mergeOperands (acc : List (Entry K)) : List Bytes := (acc.map Prod.snd).reverse

/-- A full merge replaces the operands by a value under the newest key. -/
def fullMerged (helper : MergeHelper K) (newest : Entry K) (base : Option Bytes)
    (operands : List Bytes) : Except Status (List (Entry K)) :=
  match helper.fullMergeV2 newest.1.userKey base operands with
  | none => .error .corruption
  | some v => .ok [({ newest.1 with type := .value }, v)]

/-- The end of `MergeUntil`: the entries of the merge output, newest first. -/
def mergeFinish (helper : MergeHelper K) (atBottom : Bool) (operands : List (Entry K))
    (stop : Stop K) : Except Status (List (Entry K)) :=
  match operands with
  | [] => .ok []
  | newest :: older =>
    let ops := mergeOperands (newest :: older)
    match stop with
    | .base b => fullMerged helper newest (if b.1.type = .value then some b.2 else none) ops
    | stop =>
      if stop = .nextUserKey ∧ atBottom = true then fullMerged helper newest none ops
      else if older ≠ [] ∨ helper.allowSingleOperand = true then
        match helper.partialMergeMulti newest.1.userKey ops with
        | some v => .ok [(newest.1, v)]
        | none => .ok (newest :: older)
      else .ok (newest :: older)

/-- `MergeHelper::MergeUntil` from the operand `e` on: the merge output and what is left
    of the input. -/
def mergeUntil (cfg : Config K) (helper : MergeHelper K) (stopBefore : Nat) (e : Entry K)
    (rest : List (Entry K)) : Except Status (List (Entry K)) × List (Entry K) :=
  let c := collect cfg e.1.userKey stopBefore true [] (e :: rest)
  (mergeFinish helper cfg.bottommostLevel c.operands c.stop, c.rest)

/-! ## The loop of NextFromInput -/

structure State (K : Type) [LinearOrder K] where
  input : List (Entry K)
  /-- `current_user_key_`, while `has_current_user_key_` -/
  currentUserKey : Option K := none
  hasOutputtedKey : Bool := false
  currentUserKeySnapshot : Nat := 0
  clearAndOutputNextKey : Bool := false
  levelPtrs : LevelPtrs K

/-- What a turn of the loop comes to.  The input of the new state begins after what was
    output, where the next call finds it. -/
inductive Round (K : Type) [LinearOrder K]
  | skip (st : State K)
  | output (entries : List (Entry K)) (st : State K)
  | fail (status : Status)

/-- The first occurrence of a user key. -/
def State.enter (st : State K) (k : K) : State K :=
  if st.currentUserKey = some k then st
  else { st with currentUserKey := some k, hasOutputtedKey := false, currentUserKeySnapshot := 0 }

/-- The next entry belongs to the same user key. -/
def nextOfKey (k : K) : List (Entry K) → Option (Entry K)
  | [] => none
  | n :: _ => if n.1.userKey = k then some n else none

/-- A single deletion peeks at the next entry. -/
def singleDeletionRound (cfg : Config K) (st : State K) (e : Entry K) (rest : List (Entry K))
    (prevSnapshot : Nat) : Round K :=
  match nextOfKey e.1.userKey rest with
  | some n =>
    if prevSnapshot = 0 ∨ n.1.sequence > prevSnapshot then
      if n.1.type = .singleDeletion then .skip { st with input := rest }
      else if st.hasOutputtedKey = true ∨
          e.1.sequence ≤ cfg.earliestWriteConflictSnapshot then
        .skip { st with input := rest.tail }
      else .output [e] { st with input := rest, clearAndOutputNextKey := true }
    else .output [e] { st with input := rest }
  | none =>
    let st := { st with currentUserKey := none, input := rest }
    match cfg.compaction with
    | none => .output [e] st
    | some c =>
      if e.1.sequence ≤ cfg.earliestSnapshot then
        let r := keyNotExistsBeyondOutputLevel c e.1.userKey st.levelPtrs
        if r.1 then .skip { st with levelPtrs := r.2 }
        else .output [e] { st with levelPtrs := r.2 }
      else .output [e] st

/-- The test whether a deletion is obsolete, which may move the cursors. -/
def obsoleteDeletion (cfg : Config K) (key : InternalKey K) (ptrs : LevelPtrs K) :
    Bool × LevelPtrs K :=
  match cfg.compaction with
  | none => (false, ptrs)
  | some c =>
    if key.type = .deletion ∧ key.sequence ≤ cfg.earliestSnapshot ∧
        cfg.notNeededForIncrementalSnapshot c key.sequence = true then
      keyNotExistsBeyondOutputLevel c key.userKey ptrs
    else (false, ptrs)

/-- Whether a deletion at the bottommost level looks ahead. -/
def looksAhead (cfg : Config K) (key : InternalKey K) : Bool :=
  match cfg.compaction with
  | none => false
  | some c => decide (key.type = .deletion) && c.bottommostLevel &&
      cfg.notNeededForIncrementalSnapshot c key.sequence

/-- The entries after a deletion that are not of its snapshot stripe. -/
def skipStripe (k : K) (prevSnapshot : Nat) (rest : List (Entry K)) : List (Entry K) :=
  rest.dropWhile (fun n =>
    decide (n.1.userKey = k ∧ (prevSnapshot = 0 ∨ n.1.sequence > prevSnapshot)))

/-- A merge output is delivered; without one the key is taken for a new one. -/
def mergeRound (st : State K) (m : Except Status (List (Entry K)) × List (Entry K)) : Round K :=
  match m.1 with
  | .error s => .fail s
  | .ok [] => .skip { st with input := m.2, currentUserKey := none }
  | .ok out => .output out { st with input := m.2 }

/-- The branches for an entry that is neither a single deletion nor hidden. -/
def visibleRound (cfg : Config K) (st : State K) (e : Entry K) (rest : List (Entry K))
    (prevSnapshot : Nat) : Round K :=
  let r := obsoleteDeletion cfg e.1 st.levelPtrs
  let st := { st with levelPtrs := r.2 }
  if r.1 then .skip { st with input := rest }
  else if looksAhead cfg e.1 then
    let rest := skipStripe e.1.userKey prevSnapshot rest
    match nextOfKey e.1.userKey rest with
    | some _ => .output [e] { st with input := rest }
    | none => .skip { st with input := rest }
  else if e.1.type = .merge then
    match cfg.mergeHelper with
    | none => .fail .invalidArgument
    | some helper => mergeRound st (mergeUntil cfg helper prevSnapshot e rest)
  else if cfg.shouldDelete e.1 then .skip { st with input := rest }
  else .output [e] { st with input := rest }

/-- A turn of the loop at the entry `e`. -/
def round (cfg : Config K) (st : State K) (e : Entry K) (rest : List (Entry K)) : Round K :=
  let st := st.enter e.1.userKey
  let lastSnapshot := st.currentUserKeySnapshot
  let snap := cfg.snapshotsOf e.1.sequence
  let st := { st with currentUserKeySnapshot := snap.1 }
  if st.clearAndOutputNextKey then
    .output [(e.1, [])] { st with input := rest, clearAndOutputNextKey := false }
  else if e.1.type = .singleDeletion then singleDeletionRound cfg st e rest snap.2
  else if lastSnapshot = snap.1 then .skip { st with input := rest }
  else visibleRound cfg st e rest snap.2

def prepareOutput (cfg : Config K) (e : Entry K) : Entry K :=
  match cfg.compaction with
  | none => e
  | some c =>
    if c.allowIngestBehind = false ∧
        cfg.notNeededForIncrementalSnapshot c e.1.sequence = true ∧
        c.bottommostLevel = true ∧ e.1.sequence ≤ cfg.earliestSnapshot ∧
        e.1.type ≠ .merge ∧ c.largestUserKey ≠ e.1.userKey then
      ({ e.1 with sequence := 0 }, e.2)
    else e

/-- `Next` notes that the key has an output; `SeekToFirst` does not. -/
def State.outputted (st : State K) (first : Bool) (entries : List (Entry K)) : State K :=
  if first = true ∧ entries.length ≤ 1 then st else { st with hasOutputtedKey := true }

/-- The entries from the state on, and the status at the end.  Every turn consumes an
    entry, so the length of the input is enough. -/
def run (cfg : Config K) : Nat → Bool → State K → List (Entry K) × Status
  | 0, _, _ => ([], .ok)
  | fuel + 1, first, st =>
    match st.input with
    | [] => ([], .ok)
    | e :: rest =>
      match round cfg st e rest with
      | .skip st' => run cfg fuel first st'
      | .output entries st' =>
        (entries.map (prepareOutput cfg) ++
          (run cfg fuel false (st'.outputted first entries)).1,
          (run cfg fuel false (st'.outputted first entries)).2)
      | .fail s => ([], s)

section Run

variable {cfg : Config K} {st st' : State K} {e : Entry K} {rest entries : List (Entry K)}

theorem run_nil (hinput : st.input = []) (fuel : Nat) (first : Bool) :
    run cfg fuel first st = ([], .ok) := by
  cases fuel with
  | zero => rfl
  | succ fuel => simp only [run, hinput]

theorem run_skip (hinput : st.input = e :: rest) (h : round cfg st e rest = .skip st')
    (fuel : Nat) (first : Bool) : run cfg (fuel + 1) first st = run cfg fuel first st' := by
  simp only [run, hinput, h]

theorem run_output (hinput : st.input = e :: rest)
    (h : round cfg st e rest = .output entries st') (fuel : Nat) (first : Bool) :
    run cfg (fuel + 1) first st = (entries.map (prepareOutput cfg) ++
      (run cfg fuel false (st'.outputted first entries)).1,
      (run cfg fuel false (st'.outputted first entries)).2) := by
  simp only [run, hinput, h]

end Run

/-- The levels at the start. -/
def Config.levelPtrs (cfg : Config K) : LevelPtrs K :=
  match cfg.compaction with
  | none => []
  | some c => c.deeper.map Level.files

/-- What a `CompactionIterator` delivers for its input. -/
def output (cfg : Config K) (input : List (Entry K)) : List (Entry K) × Status :=
  run cfg input.length true { input := input, levelPtrs := cfg.levelPtrs }

end CompactionIterator
