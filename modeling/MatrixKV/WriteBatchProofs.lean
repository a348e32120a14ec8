import MatrixKV.VersionEditProofs
import MatrixKV.EventRunProofs

/-! # Write batches — a list of records with savepoints

    A write batch is a string of encoded records behind a header with their number.
    An operation appends its record and takes it back if the batch gets too large; a
    savepoint remembers the size, the number and the content flags of the batch.

    * `Spec` is what a batch is for: the records, and the records at each savepoint.
    * `step_represent` — a batch takes every step that its list takes.
    * **`iterate_after`**: when the records are read back. -/

namespace WriteBatch

open List ByteReader VersionEditCoding EventRun

/-! ## Records -/

/-- The records of a column family. -/
inductive Kind
  | put | delete | singleDelete | deleteRange | merge | blobIndex
  deriving DecidableEq, Repr

/-- The tag in the default column family and in the others. -/
def Kind.tag : Kind → Bool → UInt8
  | .put, false => 0x01
  | .put, true => 0x05
  | .delete, false => 0x00
  | .delete, true => 0x04
  | .singleDelete, false => 0x07
  | .singleDelete, true => 0x08
  | .deleteRange, false => 0x0F
  | .deleteRange, true => 0x0E
  | .merge, false => 0x02
  | .merge, true => 0x06
  | .blobIndex, false => 0x11
  | .blobIndex, true => 0x10

def Kind.hasValue : Kind → Bool
  | .delete | .singleDelete => false
  | _ => true

def Kind.flag : Kind → UInt32
  | .put => 0x002
  | .delete => 0x004
  | .singleDelete => 0x008
  | .deleteRange => 0x200
  | .merge => 0x010
  | .blobIndex => 0x400

/-- The message of a record that cannot be read. -/
def Kind.bad : Kind → String
  | .put => "bad WriteBatch Put"
  | .delete | .singleDelete => "bad WriteBatch Delete"
  | .deleteRange => "bad WriteBatch DeleteRange"
  | .merge => "bad WriteBatch Merge"
  | .blobIndex => "bad WriteBatch BlobIndex"

/-- What a handler is called with. -/
inductive Record
  | entry (kind : Kind) (cf : UInt32) (key value : List UInt8)
  | logData (blob : List UInt8)
  /-- the marks of a transaction, with its name if it is written -/
  | mark (tag : UInt8) (xid : List UInt8)
  deriving DecidableEq, Repr

/-- The marks that name their transaction, with the message if the name cannot be read. -/
def xidError : UInt8 → Option String
  | 0x0A => some "bad EndPrepare XID"
  | 0x0B => some "bad Commit XID"
  | 0x0C => some "bad Rollback XID"
  | _ => none

def encode : Record → List UInt8
  | .entry kind cf key value =>
    (if cf = 0 then [kind.tag false] else kind.tag true :: putVarint32 cf) ++
      putLengthPrefixedSlice key ++ if kind.hasValue then putLengthPrefixedSlice value else []
  | .logData blob => 0x03 :: putLengthPrefixedSlice blob
  | .mark tag xid => tag :: if (xidError tag).isSome then putLengthPrefixedSlice xid else []

/-- How often a record counts. -/
def Record.counts : Record → Nat
  | .entry .. => 1
  | _ => 0

def Record.flag : Record → UInt32
  | .entry kind .. => kind.flag
  | _ => 0

/-! ## Reading — ReadRecordFromWriteBatch and Iterate -/

def entryTag : UInt8 → Option (Kind × Bool)
  | 0x05 => some (.put, true)
  | 0x01 => some (.put, false)
  | 0x04 => some (.delete, true)
  | 0x08 => some (.singleDelete, true)
  | 0x00 => some (.delete, false)
  | 0x07 => some (.singleDelete, false)
  | 0x0E => some (.deleteRange, true)
  | 0x0F => some (.deleteRange, false)
  | 0x06 => some (.merge, true)
  | 0x02 => some (.merge, false)
  | 0x10 => some (.blobIndex, true)
  | 0x11 => some (.blobIndex, false)
  | _ => none

def readFamily (kind : Kind) (other : Bool) : Reader String UInt32 :=
  if other then getVarint32.orFail kind.bad else pure 0

def readValue (kind : Kind) : Reader String (List UInt8) :=
  if kind.hasValue then getLengthPrefixedSlice.orFail kind.bad else pure []

/-- The record behind its tag. -/
def readRecord (tag : UInt8) : Reader String Record :=
  match entryTag tag with
  | some (kind, other) => do
    let cf ← readFamily kind other
    let key ← getLengthPrefixedSlice.orFail kind.bad
    let value ← readValue kind
    pure (.entry kind cf key value)
  | none =>
    if tag = 0x03 then do
      let blob ← getLengthPrefixedSlice.orFail "bad WriteBatch Blob"
      pure (.logData blob)
    else if tag = 0x0D ∨ tag = 0x09 ∨ tag = 0x12 ∨ tag = 0x13 then pure (.mark tag [])
    else
      match xidError tag with
      | some message => do
        let xid ← getLengthPrefixedSlice.orFail message
        pure (.mark tag xid)
      | none => Reader.fail "unknown WriteBatch tag"

/-- One round of the loop: the record that is next, or all that were found. -/
def readRound (found : List Record) : Reader String (List Record ⊕ List Record)
  | [] => .ok (.inr found, [])
  | tag :: rest => (readRecord tag >>= fun r => pure (.inl (found ++ [r]))) rest

/-! ## The batch -/

structure SavePoint where
  size : Nat
  count : Nat
  contentFlags : UInt32
  deriving DecidableEq, Repr

/-- The bytes of `rep_` behind its header, and the number in the header. -/
structure Batch where
  body : List UInt8 := []
  count : Nat := 0
  contentFlags : UInt32 := 0
  /-- the latest first -/
  savePoints : List SavePoint := []
  deriving DecidableEq, Repr

inductive Status
  | ok | notFound | memoryLimit | invalidArgument
  deriving DecidableEq, Repr

/-- The calls of a handler that accepts everything. -/
def Batch.iterate (b : Batch) : Except String (List Record) :=
  match ByteReader.iterate readRound "" [] b.body with
  | .error e => .error e
  | .ok (found, _) =>
    if (found.map Record.counts).sum ≠ b.count then .error "WriteBatch has wrong count"
    else .ok found

def kHeader : Nat := 12

def Batch.getDataSize (b : Batch) : Nat := kHeader + b.body.length

def Batch.savePoint (b : Batch) : SavePoint := ⟨b.getDataSize, b.count, b.contentFlags⟩

/-- `rep_.resize`, which fills up with zeros, and the two counters. -/
def Batch.restore (b : Batch) (sp : SavePoint) : Batch :=
  { b with
    body := b.body.take (sp.size - kHeader) ++ replicate (sp.size - kHeader - b.body.length) 0
    count := sp.count
    contentFlags := sp.contentFlags }

/-- A record is appended under a `LocalSavePoint`; without a limit `maxBytes` is 0. -/
def Batch.add (maxBytes : Nat) (b : Batch) (r : Record) : Status × Batch :=
  let added := { b with
    body := b.body ++ encode r
    count := (b.count + r.counts) % 2 ^ 32
    contentFlags := b.contentFlags ||| r.flag }
  if maxBytes ≠ 0 ∧ maxBytes < added.getDataSize then (.memoryLimit, added.restore b.savePoint)
  else (.ok, added)

/-- A deletion has no value. -/
def Kind.value (kind : Kind) (value : List UInt8) : List UInt8 :=
    if kind.hasValue then value else []

/-- Only `Put` and `Merge` look at the lengths. -/
def Kind.rejects : Kind → List UInt8 → List UInt8 → Bool
  | .put, key, value | .merge, key, value =>
    2 ^ 32 - 1 < key.length || 2 ^ 32 - 1 < value.length
  | _, _, _ => false

inductive Op
  /-- `Put`, `Delete`, `SingleDelete`, `DeleteRange`, `Merge` or `PutBlobIndex` -/
  | write (kind : Kind) (cf : UInt32) (key value : List UInt8)
  | putLogData (blob : List UInt8)
  | setSavePoint
  | popSavePoint
  | rollbackToSavePoint
  | clear
  deriving DecidableEq, Repr

def Batch.rollbackToSavePoint (b : Batch) : Status × Batch :=
  match b.savePoints with
  | [] => (.notFound, b)
  | sp :: rest =>
    if sp.size = b.getDataSize then (.ok, { b with savePoints := rest })
    else if sp.size = 0 then (.ok, {})
    else (.ok, { b.restore sp with savePoints := rest })

def Batch.step (maxBytes : Nat) (b : Batch) : Op → Status × Batch
  | .write kind cf key value =>
    if kind.rejects key value then (.invalidArgument, b)
    else b.add maxBytes (.entry kind cf key (kind.value value))
  | .putLogData blob => b.add maxBytes (.logData blob)
  | .setSavePoint => (.ok, { b with savePoints := b.savePoint :: b.savePoints })
  | .popSavePoint =>
    match b.savePoints with
    | [] => (.notFound, b)
    | _ :: rest => (.ok, { b with savePoints := rest })
  | .rollbackToSavePoint => b.rollbackToSavePoint
  | .clear => (.ok, {})

/-- The batch after some operations. -/
def after (maxBytes : Nat) (ops : List Op) : Batch :=
  run (fun b op => (b.step maxBytes op).2) {} ops

/-! ## The list of records -/

def contents (records : List Record) : List UInt8 := records.flatMap encode

/-- The records, and those at the savepoints. -/
structure Spec where
  records : List Record := []
  saved : List (List Record) := []

def Spec.add (maxBytes : Nat) (s : Spec) (r : Record) : Status × Spec :=
  if maxBytes ≠ 0 ∧ maxBytes < kHeader + (contents (s.records ++ [r])).length then (.memoryLimit, s)
  else (.ok, { s with records := s.records ++ [r] })

def Spec.step (maxBytes : Nat) (s : Spec) : Op → Status × Spec
  | .write kind cf key value =>
    if kind.rejects key value then (.invalidArgument, s)
    else s.add maxBytes (.entry kind cf key (kind.value value))
  | .putLogData blob => s.add maxBytes (.logData blob)
  | .setSavePoint => (.ok, { s with saved := s.records :: s.saved })
  | .popSavePoint =>
    match s.saved with
    | [] => (.notFound, s)
    | _ :: rest => (.ok, { s with saved := rest })
  | .rollbackToSavePoint =>
    match s.saved with
    | [] => (.notFound, s)
    | records :: rest => (.ok, ⟨records, rest⟩)
  | .clear => (.ok, {})

def specAfter (maxBytes : Nat) (ops : List Op) : Spec :=
  run (fun s op => (s.step maxBytes op).2) {} ops

/-- The size, the number and the content flags of some records. -/
def savePointOf (records : List Record) : SavePoint :=
  ⟨kHeader + (contents records).length, (records.map Record.counts).sum % 2 ^ 32,
    records.foldl (fun flags r => flags ||| r.flag) 0⟩

/-- The batch of a list of records. -/
def represent (s : Spec) : Batch :=
  { body := contents s.records
    count := (savePointOf s.records).count
    contentFlags := (savePointOf s.records).contentFlags
    savePoints := s.saved.map savePointOf }

/-! ## Reading back -/

/-- The strings of a record fit into the lengths that are written. -/
def Record.Fits : Record → Prop
  | .entry kind _ key value => key.length < 2 ^ 32 ∧ value.length < 2 ^ 32 ∧
      (kind.hasValue = false → value = [])
  | .logData blob => blob.length < 2 ^ 32
  | .mark .. => False

theorem entryTag_tag (kind : Kind) (other : Bool) :
    entryTag (kind.tag other) = some (kind, other) := by
  cases kind <;> cases other <;> rfl

theorem reads_entry {kind : Kind} {cf : UInt32} {key value : List UInt8}
    (h : (Record.entry kind cf key value).Fits) (other : Bool) {bytes : List UInt8}
    (hcf : Reads (readFamily kind other) bytes cf) :
    Reads (readRecord (kind.tag other)) (bytes ++ (putLengthPrefixedSlice key ++
      if kind.hasValue then putLengthPrefixedSlice value else [])) (.entry kind cf key value) := by
  obtain ⟨hkey, hvalue, hnone⟩ := h
  rw [readRecord, entryTag_tag]
  refine hcf.bind (((reads_getLengthPrefixedSlice hkey).orFail _).bind ?_)
  refine Reads.map ?_
  rw [readValue]
  cases hkind : kind.hasValue with
  | true => exact (reads_getLengthPrefixedSlice hvalue).orFail _
  | false =>
    rw [hnone hkind]
    exact Reads.pure _

/-- **ROUND TRIP** of a record behind its tag. -/
theorem reads_encode {r : Record} (h : r.Fits) :
    ∃ tag bytes, encode r = tag :: bytes ∧ Reads (readRecord tag) bytes r := by
  cases r with
  | entry kind cf key value =>
    by_cases hcf : cf = 0
    · subst hcf
      refine ⟨_, _, ?_, reads_entry h false (Reads.pure 0)⟩
      rw [encode, if_pos rfl, append_assoc]
      rfl
    · refine ⟨_, _, ?_, reads_entry h true ((reads_getVarint32 cf).orFail _)⟩
      rw [encode, if_neg hcf, append_assoc]
      rfl
  | logData blob => exact ⟨0x03, _, rfl, ((reads_getLengthPrefixedSlice h).orFail _).map⟩
  | mark tag xid => exact h.elim

theorem shrinks_readRecord (tag : UInt8) : Shrinks (readRecord tag) := by
  have hslice : ∀ e : String, Shrinks (getLengthPrefixedSlice.orFail e) := fun e =>
    shrinks_getLengthPrefixedSlice.orFail e
  rw [readRecord]
  split
  · refine Shrinks.bind ?_ fun _ => (hslice _).bind fun _ => Shrinks.bind ?_ fun _ => Shrinks.pure _
    · rw [readFamily]
      split
      · exact shrinks_getVarint32.orFail _
      · exact Shrinks.pure _
    · rw [readValue]
      split
      · exact hslice _
      · exact Shrinks.pure _
  · split
    · exact (hslice _).bind fun _ => Shrinks.pure _
    · split
      · exact Shrinks.pure _
      · split
        · exact (hslice _).bind fun _ => Shrinks.pure _
        · exact Shrinks.fail _

theorem progresses_readRound : Progresses readRound := by
  intro found input found' rest h
  cases input with
  | nil => exact nomatch h
  | cons tag bytes =>
  obtain ⟨r, mid, hr, hmid⟩ := of_bind_ok h
  cases hmid
  exact Nat.lt_succ_of_le (shrinks_readRecord tag bytes r _ hr)

/-- **ALL RECORDS** are read, in their order. -/
theorem iterate_contents (records : List Record) (found : List Record) (h : ∀ r ∈ records, r.Fits) :
    ByteReader.iterate readRound "" found (contents records) = .ok (found ++ records, []) := by
  induction records generalizing found with
  | nil =>
    rw [append_nil]
    exact iterate_of_inr rfl
  | cons r records ih =>
  obtain ⟨hr, hrest⟩ := forall_mem_cons.mp h
  obtain ⟨tag, bytes, hencode, hreads⟩ := reads_encode hr
  have hround : readRound found (contents (r :: records))
      = .ok (.inl (found ++ [r]), contents records) := by
    rw [contents, flatMap_cons, hencode, cons_append, readRound, bind_ok (hreads _)]
    rfl
  rw [iterate_of_inl progresses_readRound hround, ih _ hrest, append_assoc]
  rfl

/-! ## One step -/

/-- Every savepoint is a beginning of the later ones and of the batch. -/
def Spec.Nested (s : Spec) : Prop := (s.records :: s.saved).Pairwise (fun later rs => rs <+: later)

theorem contents_append (rs rs' : List Record) :
    contents (rs ++ rs') = contents rs ++ contents rs' := flatMap_append

/-- Going back to a beginning of the batch. -/
theorem restore_eq {b : Batch} {sp : SavePoint} {body bytes : List UInt8}
    (hbody : b.body = body ++ bytes) (hsize : sp.size = kHeader + body.length) :
    b.restore sp = ⟨body, sp.count, sp.contentFlags, b.savePoints⟩ := by
  rw [Batch.restore, hsize, Nat.add_sub_cancel_left, hbody, take_left, length_append,
    Nat.sub_add_eq, Nat.sub_self, Nat.zero_sub, replicate_zero, append_nil]

theorem add_represent (maxBytes : Nat) (s : Spec) (r : Record) :
    (represent s).add maxBytes r = ((s.add maxBytes r).1, represent (s.add maxBytes r).2) := by
  have hcontents : contents (s.records ++ [r]) = contents s.records ++ encode r := by
    rw [contents_append, contents, contents, flatMap_singleton]
  unfold Batch.add Spec.add
  rw [hcontents]
  split_ifs with hlarge
  · exact (if_pos hlarge).trans (Prod.ext rfl (restore_eq rfl rfl))
  refine (if_neg hlarge).trans (Prod.ext rfl ?_)
  simp only [represent, savePointOf, hcontents, map_append, sum_append, map_cons, map_nil,
    sum_cons, sum_nil, Nat.add_zero, Nat.mod_add_mod, foldl_append, foldl_cons, foldl_nil]

theorem encode_ne_nil (r : Record) : encode r ≠ [] := by
  cases r with
  | entry kind cf key value =>
    rw [encode]
    split <;> simp
  | logData blob => exact cons_ne_nil _ _
  | mark tag xid => exact cons_ne_nil _ _

/-- Records that take no more bytes than a beginning of them are that beginning. -/
theorem eq_of_contents_length {rs later : List Record} (hrs : rs <+: later)
    (hlen : (contents rs).length = (contents later).length) : rs = later := by
  obtain ⟨more, rfl⟩ := hrs
  cases more with
  | nil => exact (append_nil rs).symm
  | cons r more =>
  rw [contents_append, length_append, contents, contents, flatMap_cons, length_append] at hlen
  have := length_pos_iff.mpr (encode_ne_nil r)
  omega

/-- **A ROLLBACK** restores the records of its savepoint. -/
theorem rollback_represent {s : Spec} {rs : List Record} {rest : List (List Record)}
    (hnested : s.Nested) (hsaved : s.saved = rs :: rest) :
    (represent s).rollbackToSavePoint = (.ok, represent ⟨rs, rest⟩) := by
  have hrs : rs <+: s.records := (pairwise_cons.mp hnested).1 rs (hsaved ▸ .head _)
  have hpoints : (represent s).savePoints = savePointOf rs :: rest.map savePointOf := by
    rw [represent, hsaved, map_cons]
  rw [Batch.rollbackToSavePoint, hpoints]
  dsimp only
  by_cases hsame : (savePointOf rs).size = (represent s).getDataSize
  · have heq := eq_of_contents_length hrs (Nat.add_left_cancel hsame)
    rw [if_pos hsame, heq]
    rfl
  obtain ⟨more, hmore⟩ := hrs
  have hbody : (represent s).body = contents rs ++ contents more := by
    rw [represent, ← hmore, contents_append]
  rw [if_neg hsame, if_neg (by simp [savePointOf, kHeader]), restore_eq hbody rfl]
  rfl

/-- **STEP**: the batch of a list takes the step of the list. -/
theorem step_represent (maxBytes : Nat) {s : Spec} (h : s.Nested) (op : Op) :
    (represent s).step maxBytes op
      = ((s.step maxBytes op).1, represent (s.step maxBytes op).2) := by
  cases op with
  | write kind cf key value =>
    simp only [Batch.step, Spec.step]
    split
    · rfl
    · exact add_represent maxBytes s _
  | putLogData blob => exact add_represent maxBytes s _
  | setSavePoint => rfl
  | popSavePoint =>
    obtain ⟨records, saved⟩ := s
    cases saved <;> rfl
  | rollbackToSavePoint =>
    obtain ⟨records, saved⟩ := s
    cases saved with
    | nil => rfl
    | cons rs rest => exact rollback_represent h rfl
  | clear => rfl

/-- **MEMORY LIMIT**: a record that does not fit changes nothing. -/
theorem Spec.step_of_memoryLimit {maxBytes : Nat} {s : Spec} {op : Op}
    (h : (s.step maxBytes op).1 = .memoryLimit) : (s.step maxBytes op).2 = s := by
  obtain ⟨records, saved⟩ := s
  cases op with
  | write kind cf key value =>
    simp only [Spec.step, Spec.add] at h ⊢
    split_ifs at h ⊢
    rfl
  | putLogData blob =>
    simp only [Spec.step, Spec.add] at h ⊢
    split_ifs at h ⊢
    rfl
  | setSavePoint => exact nomatch h
  | clear => exact nomatch h
  | popSavePoint => cases saved <;> exact nomatch h
  | rollbackToSavePoint => cases saved <;> exact nomatch h

/-! ## Runs -/

/-- A string that is not looked at fits into its length. -/
def Op.Fits : Op → Prop
  | .write kind _ key value => kind ≠ .put → kind ≠ .merge →
      key.length < 2 ^ 32 ∧ (kind.value value).length < 2 ^ 32
  | .putLogData blob => blob.length < 2 ^ 32
  | _ => True

/-- At most `n` records, all of which fit. -/
structure Sound (n : Nat) (s : Spec) : Prop where
  nested : s.Nested
  fits : ∀ r ∈ s.records, r.Fits
  few : (s.records.map Record.counts).sum ≤ n

theorem sound_new : Sound 0 {} where
  nested := pairwise_singleton _ _
  fits := nofun
  few := le_rfl

section Steps

variable {n : Nat} {s : Spec}

theorem Sound.add (h : Sound n s) (maxBytes : Nat) {r : Record} (hr : r.Fits) :
    Sound (n + 1) (s.add maxBytes r).2 := by
  have hfew := h.few
  rw [Spec.add]
  split
  · exact ⟨h.nested, h.fits, Nat.le_succ_of_le hfew⟩
  obtain ⟨hfirst, hrest⟩ := pairwise_cons.mp h.nested
  refine ⟨pairwise_cons.mpr ⟨fun rs hrs => (hfirst rs hrs).trans <| prefix_append .., hrest⟩,
    forall_mem_append.mpr ⟨h.fits, forall_mem_singleton.mpr hr⟩, ?_⟩
  have hcounts : r.counts ≤ 1 := by cases r <;> simp [Record.counts]
  simp only [map_append, sum_append, map_cons, map_nil, sum_cons, sum_nil]
  omega

/-- The records of a savepoint are some of the first ones. -/
theorem Sound.rollback {rs : List Record} {rest : List (List Record)} (h : Sound n s)
    (hsaved : s.saved = rs :: rest) : Sound n ⟨rs, rest⟩ := by
  obtain ⟨hfirst, hrest⟩ := pairwise_cons.mp h.nested
  rw [hsaved] at hfirst hrest
  obtain ⟨more, hmore⟩ := hfirst rs (.head _)
  have hfew := h.few
  rw [← hmore, map_append, sum_append] at hfew
  exact ⟨hrest, fun r hr => h.fits r (hmore ▸ mem_append_left _ hr),
    (Nat.le_add_right _ _).trans hfew⟩

theorem fits_entry {kind : Kind} {cf : UInt32} {key value : List UInt8}
    (hop : (Op.write kind cf key value).Fits) (hw : ¬ kind.rejects key value = true) :
    (Record.entry kind cf key (kind.value value)).Fits := by
  have hlen : key.length < 2 ^ 32 ∧ (kind.value value).length < 2 ^ 32 := by
    cases kind with
    | put | merge =>
      simp only [Kind.rejects, Bool.or_eq_true, decide_eq_true_eq] at hw
      simp only [Kind.value, Kind.hasValue, if_true]
      omega
    | delete | singleDelete | deleteRange | blobIndex => exact hop nofun nofun
  exact ⟨hlen.1, hlen.2, fun hnone => by rw [Kind.value, hnone]; rfl⟩

theorem Sound.step (h : Sound n s) (maxBytes : Nat) {op : Op} (hop : op.Fits) :
    Sound (n + 1) (s.step maxBytes op).2 := by
  have hmono : Sound (n + 1) s := ⟨h.nested, h.fits, Nat.le_succ_of_le h.few⟩
  cases op with
  | write kind cf key value =>
    rw [Spec.step]
    split
    · exact hmono
    · next hw => exact h.add maxBytes (fits_entry hop hw)
  | putLogData blob => exact h.add maxBytes hop
  | setSavePoint =>
    obtain ⟨hfirst, -⟩ := pairwise_cons.mp h.nested
    exact ⟨pairwise_cons.mpr ⟨forall_mem_cons.mpr ⟨prefix_rfl, hfirst⟩, h.nested⟩, h.fits,
      hmono.few⟩
  | popSavePoint =>
    obtain ⟨records, saved⟩ := s
    cases saved with
    | nil => exact hmono
    | cons rs rest =>
      exact ⟨h.nested.sublist (.cons_cons _ (sublist_cons_self ..)), h.fits, hmono.few⟩
  | rollbackToSavePoint =>
    obtain ⟨records, saved⟩ := s
    cases saved with
    | nil => exact hmono
    | cons rs rest => exact hmono.rollback rfl
  | clear => exact ⟨sound_new.nested, sound_new.fits, Nat.zero_le _⟩

end Steps

/-- **RUN**: the batch stays that of the list. -/
theorem run_represent (maxBytes : Nat) (ops : List Op) (n : Nat) (s : Spec) (h : Sound n s)
    (hops : ∀ op ∈ ops, op.Fits) :
    run (fun b op => (Batch.step maxBytes b op).2) (represent s) ops = represent
      (run (fun s op => (Spec.step maxBytes s op).2) s ops) ∧ Sound (n + ops.length)
      (run (fun s op => (Spec.step maxBytes s op).2) s ops) := by
  induction ops generalizing n s with
  | nil => exact ⟨rfl, h⟩
  | cons op ops ih =>
  obtain ⟨hop, hrest⟩ := forall_mem_cons.mp hops
  have hlen : n + (op :: ops).length = n + 1 + ops.length := by
    rw [length_cons]
    omega
  rw [hlen, run, run, step_represent maxBytes h.nested op]
  exact ih (n + 1) _ (h.step maxBytes hop) hrest

/-- **A BATCH IS ITS LIST OF RECORDS**: with no unchecked string of 4 GB and less than 2³¹
    operations, contents, number, content flags and savepoints are those of the list, the records
    are read back, and every further operation answers as the list does and changes nothing when
    it exceeds the limit. -/
theorem iterate_after (maxBytes : Nat) (ops : List Op) (hfits : ∀ op ∈ ops, op.Fits)
    (hfew : ops.length < 2 ^ 31) :
    after maxBytes ops = represent (specAfter maxBytes ops) ∧
    (after maxBytes ops).iterate = .ok (specAfter maxBytes ops).records ∧
    ∀ op, ((after maxBytes ops).step maxBytes op).1 =
      ((specAfter maxBytes ops).step maxBytes op).1 ∧
      (((after maxBytes ops).step maxBytes op).1 = .memoryLimit →
        ((after maxBytes ops).step maxBytes op).2 = after maxBytes ops) := by
  obtain ⟨hrun, hsound⟩ := run_represent maxBytes ops 0 {} sound_new hfits
  change after maxBytes ops = represent (specAfter maxBytes ops) at hrun
  change Sound _ (specAfter maxBytes ops) at hsound
  rw [hrun]
  refine ⟨rfl, ?_, ?_⟩
  · have hfew' := hsound.few
    have hcount : (represent (specAfter maxBytes ops)).count
        = ((specAfter maxBytes ops).records.map Record.counts).sum := by
      refine Nat.mod_eq_of_lt ?_
      omega
    have hread : ByteReader.iterate readRound "" [] (represent (specAfter maxBytes ops)).body
        = .ok ([] ++ (specAfter maxBytes ops).records, []) :=
      iterate_contents (specAfter maxBytes ops).records [] hsound.fits
    rw [Batch.iterate, hread, hcount]
    exact if_neg (fun h => h rfl)
  · intro op
    rw [step_represent maxBytes hsound.nested op]
    exact ⟨rfl, fun hlimit => congrArg represent (Spec.step_of_memoryLimit hlimit)⟩

/-- A deletion is rolled back, and what is left is read. -/
theorem iterate_after_rollback :
    (after 64 [.write .put 0 [1] [2], .setSavePoint, .write .delete 3 [1] [], .rollbackToSavePoint,
      .putLogData [7]]).iterate = .ok [.entry .put 0 [1] [2], .logData [7]] :=
  (iterate_after 64 [.write .put 0 [1] [2], .setSavePoint, .write .delete 3 [1] [],
    .rollbackToSavePoint, .putLogData [7]] (by simp [Op.Fits, Kind.value]) (by decide)).2.1

/-- The length of a key of 4 GB is written as 0, and the key is read as records. -/
theorem iterate_longKey {key rest : List UInt8} (hkey : key = 0xFF :: rest)
    (hlen : key.length = 2 ^ 32) :
    (after 0 [.write .delete 0 key []]).iterate = .error "unknown WriteBatch tag" := by
  have hbody : (after 0 [.write .delete 0 key []]).body = 0x00 :: 0x00 :: 0xFF :: rest := by
    show [] ++ ([0x00] ++ (putVarint32 (UInt32.ofNat key.length) ++ key) ++ []) = _
    rw [hlen, hkey, append_nil]
    rfl
  have hfirst : readRound [] (0x00 :: 0x00 :: 0xFF :: rest)
      = .ok (.inl [.entry .delete 0 [] []], 0xFF :: rest) := rfl
  have hsecond : readRound [.entry .delete 0 [] []] (0xFF :: rest)
      = .error "unknown WriteBatch tag" := rfl
  rw [Batch.iterate, hbody, iterate_of_inl progresses_readRound hfirst]
  rw [show ByteReader.iterate readRound "" [.entry .delete 0 [] []] (0xFF :: rest)
    = .error "unknown WriteBatch tag" from loop_of_error _ hsecond]

/-- The deletion of such a key cannot be read, although it was accepted. -/
theorem iterate_hugeKey :
    (specAfter 0 [.write .delete 0 (replicate (2 ^ 32) 0xFF) []]).records
      = [.entry .delete 0 (replicate (2 ^ 32) 0xFF) []] ∧
    (after 0 [.write .delete 0 (replicate (2 ^ 32) 0xFF) []]).iterate
      = .error "unknown WriteBatch tag" :=
  ⟨rfl, iterate_longKey (replicate_succ (n := 2 ^ 32 - 1)) length_replicate⟩

end WriteBatch
