import MatrixKV.VersionEditProofs

/-! # Reading the manifest — VersionSet::Recover

    Recovery reads the edits of the manifest one by one.  A standalone edit is applied
    at once; the edits of an atomic group wait in the replay buffer, whose size the
    first of them gives, and are applied when it is full.

    * `applyOneVersionEdit`, `recoverStep`, `finish`, `recover` — the source, with the
      texts of its errors.  A builder is what it has been given, and its account of the
      files beyond `num_levels`.
    * `recoverLoop_block` — a whole group is applied as if its edits stood alone.
    * `recoverLoop_unfinished` — the beginning of a group changes nothing.
    * `recoverLoop_interrupted` — neither does a group that is interrupted or
      miscounted, but recovery stops with a corruption. -/

namespace ManifestRecover

open List VersionEditCoding

/-! ## Column families -/

inductive Status
  | corruption (msg : String) (arg : List UInt8)
  | invalidArgument (msg : String) (args : List (List UInt8))
  deriving DecidableEq, Repr

/-- `ColumnFamilyOptions`, as far as recovery reads them. -/
structure Options where
  comparator : List UInt8
  numLevels : Int32
  deriving DecidableEq

/-- A `ColumnFamilyData` and its version builder. -/
structure ColumnFamily where
  comparator : List UInt8
  numLevels : Int32
  logNumber : UInt64
  fileEdits : List (DeletedFileSet × List (Int32 × FileMetaData)) := []
  invalidLevels : List (Int32 × UInt64) := []
  hasInvalidLevels : Bool := false
  deriving DecidableEq

/-- `VersionBuilder::Apply` on a deleted file: beyond the levels it is only counted. -/
def ColumnFamily.deleteFile (cf : ColumnFamily) (d : Int32 × UInt64) : ColumnFamily :=
  if d.1 < cf.numLevels then cf
  else if d ∈ cf.invalidLevels then { cf with invalidLevels := cf.invalidLevels.filter (· ≠ d) }
  else { cf with hasInvalidLevels := true }

def ColumnFamily.addFile (cf : ColumnFamily) (f : Int32 × FileMetaData) : ColumnFamily :=
  if f.1 < cf.numLevels then cf
  else if (f.1, f.2.fd.getNumber) ∈ cf.invalidLevels then { cf with hasInvalidLevels := true }
  else { cf with invalidLevels := (f.1, f.2.fd.getNumber) :: cf.invalidLevels }

def ColumnFamily.apply (cf : ColumnFamily) (e : VersionEdit) : ColumnFamily :=
  e.newFiles.foldl ColumnFamily.addFile (e.deletedFiles.files.foldl ColumnFamily.deleteFile
    { cf with fileEdits := cf.fileEdits ++ [(e.deletedFiles, e.newFiles)] })

def ColumnFamily.checkConsistencyForNumLevels (cf : ColumnFamily) : Bool :=
  !cf.hasInvalidLevels && cf.invalidLevels.isEmpty

/-! ## Applying an edit -/

/-- The variables of `Recover`. -/
structure Recovery where
  builders : AList (fun _ : UInt32 => ColumnFamily)
  columnFamiliesNotFound : AList (fun _ : UInt32 => List UInt8) := ∅
  haveLogNumber : Bool := false
  previousLogNumber : Option UInt64 := none
  nextFile : Option UInt64 := none
  lastSequence : Option UInt64 := none
  minLogNumberToKeep : UInt64 := 0
  maxColumnFamily : UInt32 := 0
  status : Option Status := none
  deriving DecidableEq

def Recovery.fail (r : Recovery) (s : Status) : Recovery := { r with status := some s }

/-- The numbers of an edit, at the end of `ApplyOneVersionEdit`. -/
def applyNumbers (r : Recovery) (e : VersionEdit) : Recovery :=
  { r with
    previousLogNumber := e.prevLogNumber <|> r.previousLogNumber
    nextFile := e.nextFileNumber <|> r.nextFile
    maxColumnFamily := e.maxColumnFamily.getD r.maxColumnFamily
    minLogNumberToKeep :=
      match e.minLogNumberToKeep with
      | none => r.minLogNumberToKeep
      | some n => max r.minLogNumberToKeep n
    lastSequence := e.lastSequence <|> r.lastSequence }

/-- The family gets its log number; one that goes back is ignored. -/
def setLogNumber (r : Recovery) (id : UInt32) (cf : ColumnFamily) (e : VersionEdit) : Recovery :=
  match e.logNumber with
  | none => { r with builders := r.builders.insert id cf }
  | some n =>
    if cf.logNumber > n then { r with builders := r.builders.insert id cf }
    else
      { r with
        builders := r.builders.insert id { cf with logNumber := n }
        haveLogNumber := true }

/-- The part of `ApplyOneVersionEdit` about `cfd`: another comparator is an error. -/
def applyToFamily (r : Recovery) (id : UInt32) (cf : ColumnFamily) (e : VersionEdit) : Recovery :=
  match e.comparator with
  | none => applyNumbers (setLogNumber r id cf e) e
  | some name =>
    if name ≠ cf.comparator then
      (setLogNumber r id cf e).fail
        (.invalidArgument "does not match existing comparator " [cf.comparator, name])
    else applyNumbers (setLogNumber r id cf e) e

def applyOneVersionEdit (options : AList (fun _ : List UInt8 => Options)) (r : Recovery)
    (e : VersionEdit) : Recovery :=
  match e.columnFamilyAdd with
  | some name =>
    if e.columnFamily ∈ r.builders ∨ e.columnFamily ∈ r.columnFamiliesNotFound then
      r.fail (.corruption "Manifest adding the same column family twice: " name)
    else
      match options.lookup name with
      | none =>
        applyNumbers { r with
          columnFamiliesNotFound := r.columnFamiliesNotFound.insert e.columnFamily name } e
      | some o =>
        applyToFamily r e.columnFamily
          { comparator := o.comparator, numLevels := o.numLevels,
            logNumber := e.logNumber.getD 0 } e
  | none =>
    if e.isColumnFamilyDrop then
      if e.columnFamily ∈ r.builders then
        applyNumbers { r with builders := r.builders.erase e.columnFamily } e
      else if e.columnFamily ∈ r.columnFamiliesNotFound then
        applyNumbers { r with
          columnFamiliesNotFound := r.columnFamiliesNotFound.erase e.columnFamily } e
      else
        r.fail (.corruption "Manifest - dropping non-existing column family" [])
    else if e.columnFamily ∈ r.columnFamiliesNotFound then applyNumbers r e
    else
      match r.builders.lookup e.columnFamily with
      | none =>
        r.fail (.corruption "Manifest record referencing unknown column family" [])
      | some cf => applyToFamily r e.columnFamily (cf.apply e) e

/-- The edits of a group, up to the first error. -/
def applyEdits (options : AList (fun _ : List UInt8 => Options)) :
    Recovery → List VersionEdit → Recovery
  | r, [] => r
  | r, e :: es =>
    if (applyOneVersionEdit options r e).status.isSome then applyOneVersionEdit options r e
    else applyEdits options (applyOneVersionEdit options r e) es

/-! ## Reading the edits -/

/-- A new `VersionEdit`. -/
def cleared : VersionEdit := {}

/-- The loop: `replay_buffer`, `num_entries_decoded`, and the rest. -/
structure Loop where
  replayBuffer : List VersionEdit := []
  numEntriesDecoded : Nat := 0
  r : Recovery

def Loop.fail (l : Loop) : Loop :=
  { l with r := l.r.fail (.corruption "corrupted atomic group" []) }

/-- A group entry, with the buffer resized. -/
def bufferStep (options : AList (fun _ : List UInt8 => Options)) (l : Loop)
    (remaining : UInt32) (e : VersionEdit) : Loop :=
  let num := l.numEntriesDecoded + 1
  if num + remaining.toNat ≠ l.replayBuffer.length % 2 ^ 32 then
    { l with numEntriesDecoded := num }.fail
  else
    let buffer := l.replayBuffer.set (num - 1) e
    if num = buffer.length then { r := applyEdits options l.r buffer }
    else { l with replayBuffer := buffer, numEntriesDecoded := num }

def recoverStep (options : AList (fun _ : List UInt8 => Options)) (l : Loop) (e : VersionEdit) :
    Loop :=
  if l.r.status.isSome then l
  else
    match e.atomicGroup with
    | some remaining =>
      bufferStep options
        (if l.replayBuffer.isEmpty then
          -- a sum of 32 bits
          { l with replayBuffer := List.replicate (remaining + 1).toNat cleared }
        else l) remaining e
    | none =>
      if l.replayBuffer.isEmpty then { l with r := applyOneVersionEdit options l.r e }
      else l.fail

def kDefaultColumnFamilyName : List UInt8 := [100, 101, 102, 97, 117, 108, 116]

/-- Before the loop, with the default family. -/
def start (o : Options) : Loop :=
  { r := { builders := (∅ : AList (fun _ : UInt32 => ColumnFamily)).insert 0
             { comparator := o.comparator, numLevels := o.numLevels, logNumber := 0 } } }

/-- After the loop: the header fields. -/
def checkHeader (r : Recovery) : Option Status :=
  if r.nextFile.isNone then
    some (.corruption "no meta-nextfile entry in descriptor" [])
  else if r.haveLogNumber = false then
    some (.corruption "no meta-lognumber entry in descriptor" [])
  else if r.lastSequence.isNone then
    some (.corruption "no last-sequence-number entry in descriptor" [])
  else none

/-- The status that `Recover` returns; `none` is OK. -/
def finish (readOnly : Bool) (r : Recovery) : Option Status :=
  let s := r.status <|> checkHeader r
  let s :=
    -- this error takes the place of an earlier one
    if readOnly = false ∧ r.columnFamiliesNotFound.entries ≠ [] then
      some (.invalidArgument
        "You have to open all column families. Column families not opened: "
        (r.columnFamiliesNotFound.entries.map Sigma.snd))
    else s
  match s with
  | some err => some err
  | none =>
    if r.builders.entries.all (fun x => x.2.checkConsistencyForNumLevels) then none
    else some (.invalidArgument "db has more levels than options.num_levels" [])

def recoverLoop (options : AList (fun _ : List UInt8 => Options)) (l : Loop)
    (edits : List VersionEdit) : Loop :=
  edits.foldl (recoverStep options) l

def recover (options : AList (fun _ : List UInt8 => Options)) (readOnly : Bool)
    (edits : List VersionEdit) : Option Status :=
  match options.lookup kDefaultColumnFamilyName with
  | none => some (.invalidArgument "Default column family not specified" [])
  | some o => finish readOnly (recoverLoop options (start o) edits).r

/-! ## Groups -/

/-- The remaining-entry counts go down by one to zero. -/
def CountsDown : List VersionEdit → Prop
  | [] => True
  | e :: es => e.atomicGroup = some (UInt32.ofNat es.length) ∧ CountsDown es

/-- A standalone edit, or a whole group. -/
inductive IsBlock : List VersionEdit → Prop
  | standalone (e : VersionEdit) (h : e.atomicGroup = none) : IsBlock [e]
  /-- the number of entries is a `uint32_t` -/
  | group (es : List VersionEdit) (hne : es ≠ []) (hsize : es.length < 2 ^ 32)
      (hcounts : CountsDown es) : IsBlock es

/-- The beginning of a group: the counts go down by one from `c` and are not at zero
    yet. -/
def StartsGroup : UInt32 → List VersionEdit → Prop
  | _, [] => True
  | c, e :: es => e.atomicGroup = some c ∧ c ≠ 0 ∧ StartsGroup (c - 1) es

variable {r : Recovery} {e : VersionEdit}

section Groups

variable {options : AList (fun _ : List UInt8 => Options)} {l : Loop}

theorem recoverStep_of_status (h : l.r.status.isSome) (e : VersionEdit) :
    recoverStep options l e = l := if_pos h

theorem recoverLoop_of_status (h : l.r.status.isSome) (es : List VersionEdit) :
    recoverLoop options l es = l := by
  induction es with
  | nil => rfl
  | cons e es ih =>
    rw [recoverLoop, foldl_cons, recoverStep_of_status h]
    exact ih

theorem recoverLoop_append (es₁ es₂ : List VersionEdit) :
    recoverLoop options l (es₁ ++ es₂)
      = recoverLoop options (recoverLoop options l es₁) es₂ := foldl_append ..

theorem applyEdits_append (r : Recovery) (es₁ es₂ : List VersionEdit) :
    applyEdits options r (es₁ ++ es₂)
      = if (applyEdits options r es₁).status.isSome ∧ es₁ ≠ [] then applyEdits options r es₁
        else applyEdits options (applyEdits options r es₁) es₂ := by
  induction es₁ generalizing r with
  | nil =>
    rw [if_neg (fun h => h.2 rfl)]
    rfl
  | cons e es ih =>
  rw [cons_append, applyEdits, applyEdits]
  by_cases hstop : (applyOneVersionEdit options r e).status.isSome
  · rw [if_pos hstop, if_pos hstop, if_pos ⟨hstop, cons_ne_nil e es⟩]
  rw [if_neg hstop, if_neg hstop, ih]
  cases es with
  | nil =>
    rw [if_neg (fun h => h.2 rfl), if_neg (fun h => hstop h.1)]
  | cons e' es =>
    simp only [ne_eq, reduceCtorEq, not_false_eq_true, and_true]

/-- The loop inside a group, or before one: `done` has been read and `rest` entries are
    to come. -/
inductive Reading (r : Recovery) : Loop → List VersionEdit → Nat → Prop
  | before {rest : Nat} (hstatus : r.status = none) (hsize : rest < 2 ^ 32) :
      Reading r { r := r } [] rest
  | inside {done : List VersionEdit} {rest : Nat} (hstatus : r.status = none)
      (hdone : done ≠ []) (hsize : done.length + rest < 2 ^ 32) :
      Reading r ⟨done ++ List.replicate rest cleared, done.length, r⟩ done rest

/-- An entry with the right count goes into the buffer. -/
theorem bufferStep_fits {done : List VersionEdit} {rest : Nat} {remaining : UInt32}
    (hrem : remaining.toNat = rest) (hsize : done.length + (rest + 1) < 2 ^ 32) :
    bufferStep options ⟨done ++ List.replicate (rest + 1) cleared, done.length, r⟩ remaining e =
      if rest = 0 then { r := applyEdits options r (done ++ [e]) }
      else ⟨(done ++ [e]) ++ List.replicate rest cleared, done.length + 1, r⟩ := by
  have hset : (done ++ List.replicate (rest + 1) cleared).set (done.length + 1 - 1) e
      = (done ++ [e]) ++ List.replicate rest cleared := by
    rw [Nat.add_sub_cancel, replicate_succ, set_append_right _ _ le_rfl,
      Nat.sub_self, set_cons_zero, append_assoc]
    rfl
  have hfit : ¬ (done.length + 1 + remaining.toNat
      ≠ (done ++ List.replicate (rest + 1) cleared).length % 2 ^ 32) := by
    rw [length_append, length_replicate, Nat.mod_eq_of_lt hsize, hrem]
    omega
  simp only [bufferStep, if_neg hfit, hset]
  rw [length_append, length_append, length_replicate]
  by_cases hrest : rest = 0
  · subst hrest
    rw [if_pos rfl, replicate_zero, append_nil]
    exact if_pos rfl
  · rw [if_neg hrest, if_neg]
    show ¬ done.length + 1 = done.length + 1 + rest
    omega

theorem recoverStep_fits {done : List VersionEdit} {rest : Nat} {remaining : UInt32}
    (h : Reading r l done (rest + 1)) (he : e.atomicGroup = some remaining)
    (hrem : remaining.toNat = rest) :
    recoverStep options l e =
      if rest = 0 then { r := applyEdits options r (done ++ [e]) }
      else ⟨(done ++ [e]) ++ List.replicate rest cleared, done.length + 1, r⟩ := by
  cases h with
  | before hstatus hsize =>
    have hadd : (remaining + 1).toNat = rest + 1 := by
      rw [UInt32.toNat_add, hrem]
      exact Nat.mod_eq_of_lt hsize
    rw [recoverStep, if_neg (by simp [hstatus]), he]
    simp only [isEmpty_nil, if_true, hadd]
    exact @bufferStep_fits r e options [] rest remaining hrem (by simpa using hsize)
  | inside hstatus hdone hsize =>
  have hempty : (done ++ List.replicate (rest + 1) cleared).isEmpty = false := by
    cases done with
    | nil => exact absurd rfl hdone
    | cons x xs => rfl
  rw [recoverStep, if_neg (by simp [hstatus]), he]
  simp only [hempty, Bool.false_eq_true, if_false]
  exact bufferStep_fits hrem hsize

/-- The beginning of a group is read into the buffer. -/
theorem Reading.starts {c : UInt32} {es done : List VersionEdit} (hstarts : StartsGroup c es) :
    ∀ {l : Loop}, Reading r l done (c.toNat + 1) →
      es.length ≤ c.toNat ∧
      Reading r (recoverLoop options l es) (done ++ es) (c.toNat + 1 - es.length) := by
  induction es generalizing c done with
  | nil =>
    intro l h
    rw [append_nil]
    exact ⟨Nat.zero_le _, h⟩
  | cons e es ih =>
  intro l h
  obtain ⟨he, hc, hstarts⟩ := hstarts
  have hpos : c.toNat ≠ 0 := by
    intro hzero
    exact hc (UInt32.toNat_inj.mp hzero)
  have hpred : (c - 1).toNat + 1 = c.toNat := by
    have hone : (1 : UInt32).toNat ≤ c.toNat := Nat.one_le_iff_ne_zero.mpr hpos
    rw [UInt32.toNat_sub_of_le _ _ (UInt32.le_iff_toNat_le.mpr hone)]
    exact Nat.sub_add_cancel hone
  have hnext : Reading r (recoverStep options l e) (done ++ [e]) ((c - 1).toNat + 1) := by
    rw [recoverStep_fits h he rfl, if_neg hpos, hpred]
    have hsize : done.length + (c.toNat + 1) < 2 ^ 32 ∧ r.status = none := by
      cases h with
      | before hstatus hsize => exact ⟨by simpa using hsize, hstatus⟩
      | inside hstatus _ hsize => exact ⟨hsize, hstatus⟩
    have hlen : (done ++ [e]).length = done.length + 1 := length_append
    rw [← hlen]
    exact Reading.inside hsize.2 (by simp) (by rw [hlen]; omega)
  obtain ⟨hle, hread⟩ := ih hstarts hnext
  rw [append_assoc] at hread
  refine ⟨by rw [length_cons]; omega, ?_⟩
  rw [length_cons, show c.toNat + 1 - (es.length + 1) = (c - 1).toNat + 1 - es.length by omega]
  exact hread

/-- A whole group without its last entry. -/
theorem CountsDown.starts {es more : List VersionEdit} (h : CountsDown (es ++ more))
    (hmore : more ≠ []) (hsize : (es ++ more).length < 2 ^ 32) :
    StartsGroup (UInt32.ofNat (es.length + more.length - 1)) es := by
  induction es with
  | nil => trivial
  | cons e es ih =>
  obtain ⟨he, hrest⟩ := h
  have hpos : 0 < more.length := length_pos_of_ne_nil hmore
  rw [length_append, length_cons] at hsize
  have hless : es.length + more.length < 2 ^ 32 := by omega
  have hlen : (e :: es).length + more.length - 1 = (es ++ more).length := by
    rw [length_append, length_cons]
    omega
  rw [hlen]
  refine ⟨he, ?_, ?_⟩
  · intro hzero
    have hnat := congrArg UInt32.toNat hzero
    rw [UInt32.toNat_ofNat_of_lt' (by rw [length_append]; exact hless), length_append]
      at hnat
    have hnat' : es.length + more.length = 0 := hnat
    omega
  · have hpred : UInt32.ofNat (es ++ more).length - 1
        = UInt32.ofNat (es.length + more.length - 1) := by
      rw [length_append, UInt32.ofNat_sub (by omega)]
      rfl
    rw [hpred]
    exact ih hrest (by rw [length_append]; exact hless)

theorem CountsDown.of_append_right {es more : List VersionEdit} (h : CountsDown (es ++ more)) :
    CountsDown more := by
  induction es with
  | nil => exact h
  | cons e es ih => exact ih h.2

theorem Reading.r_eq {done : List VersionEdit} {rest : Nat} (h : Reading r l done rest) :
    l.r = r := by
  cases h with
  | before _ _ => rfl
  | inside _ _ _ => rfl

/-- **A WHOLE BLOCK IS APPLIED**, as if its edits stood alone. -/
theorem recoverLoop_block (hstatus : r.status = none) {es : List VersionEdit} (h : IsBlock es) :
    recoverLoop options { r := r } es = { r := applyEdits options r es } := by
  cases h with
  | standalone e he =>
    show recoverStep options { r := r } e = _
    rw [recoverStep, if_neg (by simp [hstatus]), he, applyEdits, applyEdits, ite_self]
    rfl
  | group es hne hsize hcounts =>
  obtain ⟨init, last, rfl⟩ := eq_nil_or_concat' es |>.resolve_left hne
  rw [length_append] at hsize
  have hsize' : init.length < 2 ^ 32 := by
    have hlast : [last].length = 1 := rfl
    omega
  have htoNat : (UInt32.ofNat init.length).toNat = init.length :=
    UInt32.toNat_ofNat_of_lt' hsize'
  have hstarts : StartsGroup (UInt32.ofNat init.length) init :=
    hcounts.starts (cons_ne_nil _ _) (by rw [length_append]; exact hsize)
  have hbefore : Reading r { r := r } [] ((UInt32.ofNat init.length).toNat + 1) :=
    Reading.before hstatus (by rw [htoNat]; exact hsize)
  have hread : Reading r (recoverLoop options { r := r } init) init
      ((UInt32.ofNat init.length).toNat + 1 - init.length) := (hbefore.starts hstarts).2
  rw [htoNat, Nat.add_sub_cancel_left] at hread
  have hlast : last.atomicGroup = some 0 := (hcounts.of_append_right).1
  rw [recoverLoop_append]
  show recoverStep options _ last = _
  rw [recoverStep_fits hread hlast rfl, if_pos rfl]

/-- **AN UNFINISHED BLOCK CHANGES NOTHING.** -/
theorem recoverLoop_unfinished (hstatus : r.status = none) {es more : List VersionEdit}
    (h : IsBlock (es ++ more)) (hmore : more ≠ []) : (recoverLoop options { r := r } es).r = r := by
  generalize hall : es ++ more = all at h
  cases h with
  | standalone e he =>
    cases es with
    | nil => rfl
    | cons x xs =>
      obtain ⟨-, hnil⟩ := List.cons.inj hall
      exact absurd (append_eq_nil_iff.mp hnil).2 hmore
  | group all hne hsize hcounts =>
  subst hall
  have hpos : 0 < more.length := length_pos_of_ne_nil hmore
  rw [length_append] at hsize
  have hstarts := hcounts.starts hmore (by rw [length_append]; exact hsize)
  have hbefore : Reading r { r := r } []
      ((UInt32.ofNat (es.length + more.length - 1)).toNat + 1) := by
    refine Reading.before hstatus ?_
    rw [UInt32.toNat_ofNat_of_lt' (by show es.length + more.length - 1 < 2 ^ 32; omega)]
    omega
  exact (hbefore.starts hstarts).2.r_eq

/-- An entry that does not fit. -/
theorem recoverStep_misfit {done : List VersionEdit} {rest : Nat} {x : VersionEdit} {c : UInt32}
    (hdone : done ≠ []) (h : Reading r l done (rest + 1)) (hc : c.toNat = rest)
    (hx : x.atomicGroup ≠ some c) :
    (recoverStep options l x).r = r.fail (.corruption "corrupted atomic group" []) := by
  cases h with
  | before _ _ => exact absurd rfl hdone
  | inside hstatus _ hsize =>
  have hempty : (done ++ List.replicate (rest + 1) cleared).isEmpty = false := by
    cases done with
    | nil => exact absurd rfl hdone
    | cons y ys => rfl
  rw [recoverStep, if_neg (by simp [hstatus])]
  cases hgroup : x.atomicGroup with
  | none =>
    simp only [hempty, Bool.false_eq_true, if_false]
    rfl
  | some remaining =>
  have hmiss : done.length + 1 + remaining.toNat
      ≠ (done ++ List.replicate (rest + 1) cleared).length % 2 ^ 32 := by
    rw [length_append, length_replicate, Nat.mod_eq_of_lt hsize]
    intro heq
    refine hx (hgroup.trans (congrArg some (UInt32.toNat_inj.mp ?_)))
    omega
  simp only [hempty, Bool.false_eq_true, if_false, bufferStep, if_pos hmiss]
  rfl

/-- **A GROUP THAT IS INTERRUPTED OR MISCOUNTED IS A CORRUPTION**, and none of its edits is
    applied. -/
theorem recoverLoop_interrupted (hstatus : r.status = none) {c : UInt32} {g : List VersionEdit}
    (hne : g ≠ []) (hstarts : StartsGroup c g) {x : VersionEdit}
    (hx : x.atomicGroup ≠ some (c - UInt32.ofNat g.length)) (rest : List VersionEdit) :
    (recoverLoop options { r := r } (g ++ x :: rest)).r
      = r.fail (.corruption "corrupted atomic group" []) := by
  by_cases hmax : c.toNat + 1 < 2 ^ 32
  · have hbefore : Reading r { r := r } [] (c.toNat + 1) := Reading.before hstatus hmax
    obtain ⟨hle, hread⟩ : g.length ≤ c.toNat ∧
      Reading r (recoverLoop options { r := r } g) g (c.toNat + 1 - g.length) :=
        hbefore.starts hstarts
    have hlen : (UInt32.ofNat g.length).toNat = g.length :=
      UInt32.toNat_ofNat_of_lt' (by show g.length < 2 ^ 32; omega)
    have hc : (c - UInt32.ofNat g.length).toNat = c.toNat - g.length := by
      rw [UInt32.toNat_sub_of_le _ _ (UInt32.le_iff_toNat_le.mpr (by rw [hlen]; exact hle)), hlen]
    rw [show c.toNat + 1 - g.length = (c.toNat - g.length) + 1 by omega] at hread
    have hfail := @recoverStep_misfit r options _ g _ x _ hne hread hc hx
    rw [recoverLoop_append]
    show (recoverLoop options (recoverStep options _ x) rest).r = _
    rw [recoverLoop_of_status (by rw [hfail]; rfl), hfail]
  -- the size of the buffer overflows to zero
  have hlast : (c + 1).toNat = 0 := by
    rw [UInt32.toNat_add]
    have hlt := c.toNat_lt
    show (c.toNat + 1) % 2 ^ 32 = 0
    omega
  cases g with
  | nil => exact absurd rfl hne
  | cons e g =>
  have hfail : (recoverStep options { r := r } e).r
      = r.fail (.corruption "corrupted atomic group" []) := by
    rw [recoverStep, if_neg (by simp [hstatus]), hstarts.1]
    simp only [isEmpty_nil, if_true, hlast, replicate_zero, bufferStep]
    rw [if_pos (by simp)]
    rfl
  show (recoverLoop options (recoverStep options _ e) (g ++ x :: rest)).r = _
  rw [recoverLoop_of_status (by rw [hfail]; rfl), hfail]

end Groups

/-! ## What is accepted -/

section Accepted

variable {options : AList (fun _ : List UInt8 => Options)} {readOnly : Bool} {r : Recovery}

/-- `Recover` returns OK. -/
structure Accepted (readOnly : Bool) (r : Recovery) : Prop where
  status : r.status = none
  nextFile : r.nextFile.isSome
  haveLogNumber : r.haveLogNumber = true
  lastSequence : r.lastSequence.isSome
  opened : readOnly = true ∨ r.columnFamiliesNotFound.entries = []
  levels : ∀ id cf, r.builders.lookup id = some cf → cf.checkConsistencyForNumLevels = true

theorem levels_iff : r.builders.entries.all (fun x => x.2.checkConsistencyForNumLevels) = true ↔
    ∀ id cf, r.builders.lookup id = some cf → cf.checkConsistencyForNumLevels = true := by
  rw [all_eq_true]
  constructor
  · intro h id cf hcf
    exact h ⟨id, cf⟩ (AList.mem_lookup_iff.mp hcf)
  · intro h x hx
    exact h x.1 x.2 (AList.mem_lookup_iff.mpr hx)

theorem checkHeader_eq_none_iff : checkHeader r = none ↔
    r.nextFile.isSome ∧ r.haveLogNumber = true ∧ r.lastSequence.isSome := by
  cases hnext : r.nextFile <;> cases hlog : r.haveLogNumber <;> cases hlast : r.lastSequence <;>
    simp [checkHeader, hnext, hlog, hlast]

theorem finish_eq_none_iff : finish readOnly r = none ↔ Accepted readOnly r := by
  by_cases hopened : readOnly = false ∧ r.columnFamiliesNotFound.entries ≠ []
  · -- the families that are not opened are reported
    simp only [finish, if_pos hopened, reduceCtorEq, false_iff]
    intro h
    rcases h.opened with hro | hnil
    · rw [hopened.1] at hro
      exact nomatch hro
    · exact hopened.2 hnil
  have hopened' : readOnly = true ∨ r.columnFamiliesNotFound.entries = [] := by
    by_contra hneither
    rw [not_or, Bool.not_eq_true] at hneither
    exact hopened hneither
  simp only [finish, if_neg hopened]
  cases hstatus : r.status with
  | some err => exact ⟨nofun, fun h => absurd h.status (by simp [hstatus])⟩
  | none =>
  have hor : (none <|> checkHeader r) = checkHeader r := rfl
  rw [hor]
  cases hheader : checkHeader r with
  | some err =>
    refine ⟨nofun, fun h => ?_⟩
    rw [checkHeader_eq_none_iff.mpr ⟨h.nextFile, h.haveLogNumber, h.lastSequence⟩] at hheader
    exact nomatch hheader
  | none =>
  obtain ⟨hnext, hlog, hlast⟩ := checkHeader_eq_none_iff.mp hheader
  simp only [ite_eq_left_iff, reduceCtorEq, imp_false, Decidable.not_not]
  rw [levels_iff]
  exact ⟨fun hlevels => ⟨hstatus, hnext, hlog, hlast, hopened', hlevels⟩, fun h => h.levels⟩

/-- An error of the loop is what is returned, but for the families that are not opened. -/
theorem finish_fail (s : Status) : finish readOnly (r.fail s) =
    if readOnly = false ∧ r.columnFamiliesNotFound.entries ≠ [] then
      some (.invalidArgument "You have to open all column families. Column families not opened: "
        (r.columnFamiliesNotFound.entries.map Sigma.snd))
    else some s := by
  by_cases hopened : readOnly = false ∧ (r.fail s).columnFamiliesNotFound.entries ≠ []
  · simp only [finish, if_pos hopened]
    exact (if_pos hopened).symm
  · simp only [finish, if_neg hopened]
    exact (if_neg hopened).symm

/-- An edit of a family that the manifest knows, on the family's levels. -/
inductive Fits (r : Recovery) (e : VersionEdit) : Prop
  | notFound (hadd : e.columnFamilyAdd = none) (hdrop : e.isColumnFamilyDrop = false)
      (hmem : e.columnFamily ∈ r.columnFamiliesNotFound)
  | family (cf : ColumnFamily) (hadd : e.columnFamilyAdd = none)
      (hdrop : e.isColumnFamilyDrop = false) (hmem : e.columnFamily ∉ r.columnFamiliesNotFound)
      (hcf : r.builders.lookup e.columnFamily = some cf)
      (hcomparator : e.comparator = none ∨ e.comparator = some cf.comparator)
      (hdeleted : ∀ d ∈ e.deletedFiles.files, d.1 < cf.numLevels)
      (hnew : ∀ f ∈ e.newFiles, f.1 < cf.numLevels)

/-- A family is added under a new id, and opened with its comparator; or one is dropped. -/
inductive Manipulates (options : AList (fun _ : List UInt8 => Options)) (readOnly : Bool)
    (r : Recovery) (e : VersionEdit) : Prop
  | addUnopened (name : List UInt8) (hadd : e.columnFamilyAdd = some name)
      (hfresh : e.columnFamily ∉ r.builders) (hfresh' : e.columnFamily ∉ r.columnFamiliesNotFound)
      (hname : options.lookup name = none) (hro : readOnly = true)
  | add (name : List UInt8) (o : Options) (hadd : e.columnFamilyAdd = some name)
      (hfresh : e.columnFamily ∉ r.builders) (hfresh' : e.columnFamily ∉ r.columnFamiliesNotFound)
      (hname : options.lookup name = some o)
      (hcomparator : e.comparator = none ∨ e.comparator = some o.comparator)
  | drop (hadd : e.columnFamilyAdd = none) (hdrop : e.isColumnFamilyDrop = true)
      (hmem : e.columnFamily ∈ r.builders ∨ e.columnFamily ∈ r.columnFamiliesNotFound)

theorem ColumnFamily.apply_of_levels {cf : ColumnFamily}
    (hdeleted : ∀ d ∈ e.deletedFiles.files, d.1 < cf.numLevels)
    (hnew : ∀ f ∈ e.newFiles, f.1 < cf.numLevels) :
    cf.apply e = { cf with fileEdits := cf.fileEdits ++ [(e.deletedFiles, e.newFiles)] } := by
  have hfixed : ∀ {α : Type} (f : ColumnFamily → α → ColumnFamily) (cf : ColumnFamily)
      (l : List α), (∀ a ∈ l, f cf a = cf) → l.foldl f cf = cf := by
    intro α f cf l
    induction l with
    | nil => exact fun _ => rfl
    | cons a l ih =>
    intro h
    rw [foldl_cons, h a mem_cons_self]
    exact ih (fun b hb => h b (.tail _ hb))
  rw [ColumnFamily.apply, hfixed ColumnFamily.deleteFile, hfixed ColumnFamily.addFile]
  · exact fun f hf => if_pos (hnew f hf)
  · exact fun d hd => if_pos (hdeleted d hd)

/-- The numbers of an edit do not take the header away. -/
theorem Accepted.applyNumbers (h : Accepted readOnly r) (e : VersionEdit) :
    Accepted readOnly (applyNumbers r e) where
  status := h.status
  nextFile := by
    show (e.nextFileNumber <|> r.nextFile).isSome
    cases hnext : e.nextFileNumber with
    | none => exact h.nextFile
    | some n => rfl
  haveLogNumber := h.haveLogNumber
  lastSequence := by
    show (e.lastSequence <|> r.lastSequence).isSome
    cases hlast : e.lastSequence with
    | none => exact h.lastSequence
    | some n => rfl
  opened := h.opened
  levels := h.levels

theorem applyToFamily_eq {id : UInt32} {cf : ColumnFamily}
    (hcomparator : e.comparator = none ∨ e.comparator = some cf.comparator) :
    applyToFamily r id cf e = applyNumbers (setLogNumber r id cf e) e := by
  rcases hcomparator with hnone | hsome
  · rw [applyToFamily, hnone]
  · rw [applyToFamily, hsome]
    exact if_neg (fun hne => hne rfl)

/-- Only the log number of the family changes, and a log number is not taken away. -/
theorem setLogNumber_spec (id : UInt32) (cf : ColumnFamily) (e : VersionEdit) :
    ∃ logNumber haveLogNumber, setLogNumber r id cf e = { r with
      builders := r.builders.insert id { cf with logNumber := logNumber }
      haveLogNumber := r.haveLogNumber || haveLogNumber } := by
  have hkeep : ∃ logNumber haveLogNumber,
      ({ r with builders := r.builders.insert id cf } : Recovery)
      = { r with
        builders := r.builders.insert id { cf with logNumber := logNumber }
        haveLogNumber := r.haveLogNumber || haveLogNumber } :=
    ⟨cf.logNumber, false, by rw [Bool.or_false]⟩
  cases hlog : e.logNumber with
  | none =>
    rw [setLogNumber, hlog]
    exact hkeep
  | some n =>
  rw [setLogNumber, hlog]
  show ∃ _ _, (if cf.logNumber > n then _ else _) = _
  split_ifs with hback
  · exact hkeep
  · exact ⟨n, true, by rw [Bool.or_true]⟩

section

variable (h : Accepted readOnly r)
include h

theorem Accepted.applyToFamily {id : UInt32} {cf : ColumnFamily}
    (hcomparator : e.comparator = none ∨ e.comparator = some cf.comparator)
    (hlevels : cf.checkConsistencyForNumLevels = true) :
    Accepted readOnly (applyToFamily r id cf e) := by
  obtain ⟨logNumber, haveLogNumber, heq⟩ := @setLogNumber_spec r id cf e
  rw [applyToFamily_eq hcomparator, heq]
  refine Accepted.applyNumbers ?_ e
  refine ⟨h.status, h.nextFile, ?_, h.lastSequence, h.opened, ?_⟩
  · show (r.haveLogNumber || haveLogNumber) = true
    rw [h.haveLogNumber]
    rfl
  intro id' cf' hcf'
  by_cases hid : id' = id
  · subst hid
    rw [AList.lookup_insert] at hcf'
    rw [← Option.some.inj hcf']
    exact hlevels
  · rw [AList.lookup_insert_ne hid] at hcf'
    exact h.levels id' cf' hcf'

theorem Accepted.applyFits (hfits : Fits r e) :
    Accepted readOnly (applyOneVersionEdit options r e) ∧
    ∀ e', Fits r e' → Fits (applyOneVersionEdit options r e) e' := by
  cases hfits with
  | notFound hadd hdrop hmem =>
    simp only [applyOneVersionEdit, hadd, hdrop, Bool.false_eq_true, if_false, if_pos hmem]
    refine ⟨h.applyNumbers e, fun e' h' => ?_⟩
    cases h' with
    | notFound hadd hdrop hmem => exact .notFound hadd hdrop hmem
    | family cf hadd hdrop hmem hcf hcomparator hdeleted hnew =>
      exact .family cf hadd hdrop hmem hcf hcomparator hdeleted hnew
  | family cf hadd hdrop hmem hcf hcomparator hdeleted hnew =>
  simp only [applyOneVersionEdit, hadd, hdrop, Bool.false_eq_true, if_false, if_neg hmem, hcf,
    ColumnFamily.apply_of_levels hdeleted hnew]
  refine ⟨h.applyToFamily hcomparator (h.levels _ cf hcf), fun e' h' => ?_⟩
  obtain ⟨logNumber, haveLogNumber, heq⟩ := @setLogNumber_spec r e.columnFamily
    { cf with fileEdits := cf.fileEdits ++ [(e.deletedFiles, e.newFiles)] } e
  rw [@applyToFamily_eq e r e.columnFamily
    { cf with fileEdits := cf.fileEdits ++ [(e.deletedFiles, e.newFiles)] } hcomparator, heq]
  cases h' with
  | notFound hadd hdrop hmem => exact .notFound hadd hdrop hmem
  | family cf' hadd' hdrop' hmem' hcf' hcomparator' hdeleted' hnew' =>
  by_cases hid : e'.columnFamily = e.columnFamily
  · rw [hid, hcf] at hcf'
    obtain rfl := Option.some.inj hcf'
    refine .family { cf with
        fileEdits := cf.fileEdits ++ [(e.deletedFiles, e.newFiles)]
        logNumber := logNumber } hadd' hdrop' hmem' ?_ hcomparator' hdeleted' hnew'
    rw [hid]
    exact AList.lookup_insert r.builders
  · exact .family cf' hadd' hdrop' hmem' ((AList.lookup_insert_ne hid).trans hcf')
      hcomparator' hdeleted' hnew'

theorem Accepted.applyManipulates (hmanip : Manipulates options readOnly r e) :
    Accepted readOnly (applyOneVersionEdit options r e) := by
  cases hmanip with
  | addUnopened name hadd hfresh hfresh' hname hro =>
    simp only [applyOneVersionEdit, hadd, hfresh, hfresh', or_self, if_false, hname]
    refine Accepted.applyNumbers ?_ e
    exact { h with opened := .inl hro }
  | add name o hadd hfresh hfresh' hname hcomparator =>
    simp only [applyOneVersionEdit, hadd, hfresh, hfresh', or_self, if_false, hname]
    exact h.applyToFamily hcomparator rfl
  | drop hadd hdrop hmem =>
  simp only [applyOneVersionEdit, hadd, hdrop, if_true]
  by_cases hbuilder : e.columnFamily ∈ r.builders
  · rw [if_pos hbuilder]
    refine Accepted.applyNumbers ?_ e
    refine { h with levels := ?_ }
    intro id cf hcf
    by_cases hid : id = e.columnFamily
    · subst hid
      rw [AList.lookup_erase] at hcf
      exact nomatch hcf
    · rw [AList.lookup_erase_ne hid] at hcf
      exact h.levels id cf hcf
  · have hnot := hmem.resolve_left hbuilder
    rw [if_neg hbuilder, if_pos hnot]
    refine Accepted.applyNumbers ?_ e
    refine { h with opened := ?_ }
    refine h.opened.imp_right (fun hnil => ?_)
    show List.kerase _ _ = []
    rw [hnil]
    rfl

theorem Accepted.applyEdits {es : List VersionEdit}
    (hfits : ∀ e ∈ es, Fits r e) :
    Accepted readOnly (applyEdits options r es) ∧
    ∀ e', Fits r e' → Fits (applyEdits options r es) e' := by
  induction es generalizing r with
  | nil => exact ⟨h, fun _ h' => h'⟩
  | cons e es ih =>
  obtain ⟨hacc, hkeep⟩ := @Accepted.applyFits e options readOnly r h
    (hfits e (.head _))
  rw [ManifestRecover.applyEdits, if_neg (by rw [hacc.status]; exact Bool.false_ne_true)]
  obtain ⟨hacc', hkeep'⟩ := ih hacc
    (fun e' he' => hkeep e' (hfits e' (.tail _ he')))
  exact ⟨hacc', fun e' h' => hkeep' e' (hkeep e' h')⟩

theorem applyEdits_append_of_fits {es₁ : List VersionEdit}
    (hfits : ∀ e ∈ es₁, Fits r e) (es₂ : List VersionEdit) :
    applyEdits options r (es₁ ++ es₂) = applyEdits options (applyEdits options r es₁) es₂ := by
  rw [applyEdits_append, if_neg]
  rw [(Accepted.applyEdits h hfits).1.status]
  exact fun hstatus => Bool.false_ne_true hstatus.1

/-- **A MANIFEST CUT ANYWHERE**: the blocks that are whole are applied, and it is
    accepted. -/
theorem recoverLoop_take {blocks : List (List VersionEdit)}
    (hblocks : ∀ b ∈ blocks, b = [] ∨ IsBlock b) (hfits : ∀ e ∈ blocks.flatten, Fits r e)
    (n : Nat) :
    ∃ j ≤ blocks.length, (blocks.take j).flatten.length ≤ n ∧
      (j < blocks.length → n < (blocks.take (j + 1)).flatten.length) ∧
      (recoverLoop options { r := r } (blocks.flatten.take n)).r
        = applyEdits options r (blocks.take j).flatten ∧
      Accepted readOnly (applyEdits options r (blocks.take j).flatten) := by
  induction blocks generalizing r n with
  | nil =>
    refine ⟨0, le_rfl, Nat.zero_le _, fun hlt => absurd hlt (Nat.lt_irrefl _), ?_, h⟩
    rw [flatten_nil, take_nil]
    rfl
  | cons b bs ih =>
  rw [flatten_cons] at hfits
  by_cases hn : b.length ≤ n
  · have hb : ∀ e ∈ b, Fits r e := fun e he => hfits e (mem_append_left _ he)
    obtain ⟨hacc, hkeep⟩ := @Accepted.applyEdits options readOnly r h b hb
    obtain ⟨j, hj, hle, hlt, hloop, hacc'⟩ := ih hacc
      (fun b' hb' => hblocks b' (.tail _ hb'))
      (fun e he => hkeep e (hfits e (mem_append_right _ he))) (n - b.length)
    have hwhole : recoverLoop options { r := r } b =
        { r := ManifestRecover.applyEdits options r b } := by
      rcases hblocks b (.head _) with rfl | hblock
      · rfl
      · exact recoverLoop_block h.status hblock
    refine ⟨j + 1, Nat.succ_le_succ hj, ?_, ?_, ?_, ?_⟩
    · rw [take_succ_cons, flatten_cons, length_append]
      omega
    · intro hlt'
      have hlt'' := hlt (Nat.lt_of_succ_lt_succ hlt')
      rw [take_succ_cons, flatten_cons, length_append]
      omega
    · rw [take_succ_cons, flatten_cons, flatten_cons,
        applyEdits_append_of_fits h hb, ← hloop, take_append, take_of_length_le hn,
        recoverLoop_append, hwhole]
    · rw [take_succ_cons, flatten_cons, applyEdits_append_of_fits h hb]
      exact hacc'
  · refine ⟨0, Nat.zero_le _, Nat.zero_le _, fun _ => ?_, ?_, h⟩
    · rw [take_succ_cons, take_zero, flatten_cons, flatten_nil, append_nil]
      exact Nat.lt_of_not_le hn
    · rw [flatten_cons, take_append_of_le_length (Nat.le_of_not_le hn)]
      have hmore : b.drop n ≠ [] := by
        intro hnil
        exact hn (drop_eq_nil_iff.mp hnil)
      have hblock : IsBlock (b.take n ++ b.drop n) := by
        rw [take_append_drop]
        refine (hblocks b (.head _)).resolve_left ?_
        rintro rfl
        exact hmore drop_nil
      exact recoverLoop_unfinished h.status hblock hmore

end

end Accepted

end ManifestRecover
