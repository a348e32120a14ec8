import MatrixKV.ManifestRecoverProofs

/-! # Atomic groups in the manifest — VersionSet::ProcessManifestWrites

    The thread at the head of the queue writes the edits of all waiting writers, up to
    the next one that adds or drops a column family.  Edits of dropped families are
    left out, and the remaining-entry counts of the edits of their group that are
    already in the batch are patched.

    * `Pending` — what the batch is between two edits: the blocks that are through,
      with their counts, and the begun one, counted as if all its later edits came.
    * `foldl_addWriter_eq` — the records are the live edits of each block, counted
      down to zero.
    * **`atomicGroups_all_or_nothing`** — read back after any cut. -/

namespace AtomicGroup

open List VersionEditCoding ManifestRecover

/-! ## The batch -/

def isColumnFamilyManipulation (e : VersionEdit) : Bool :=
  e.columnFamilyAdd.isSome || e.isColumnFamilyDrop

/-- What the version set writes into an edit. -/
structure Numbers where
  prevLogNumber : UInt64
  nextFileNumber : UInt64
  lastSequence : UInt64
  maxColumnFamily : UInt32

def logAndApplyHelper (v : Numbers) (e : VersionEdit) : VersionEdit :=
  { e with
    prevLogNumber := e.prevLogNumber <|> some v.prevLogNumber
    nextFileNumber := some v.nextFileNumber
    lastSequence := some v.lastSequence }

def logAndApplyCFHelper (v : Numbers) (e : VersionEdit) : VersionEdit :=
  { e with
    nextFileNumber := some v.nextFileNumber
    lastSequence := some v.lastSequence
    maxColumnFamily := if e.isColumnFamilyDrop then some v.maxColumnFamily else e.maxColumnFamily }

/-- A writer with its `edit_list`, which has a front.  `LogAndApply` lets nothing stand
    beside an edit that adds or drops a family. -/
structure ManifestWriter where
  /-- not read where a family is added: there is none yet -/
  cfd : UInt32
  front : VersionEdit
  others : List VersionEdit := []
  alone : others = [] ∨ ∀ e ∈ front :: others, isColumnFamilyManipulation e = false

def ManifestWriter.editList (w : ManifestWriter) : List VersionEdit := w.front :: w.others

/-- `batch_edits` and `group_start`. -/
structure Batch where
  edits : List VersionEdit := []
  groupStart : Option Nat := none

/-- The last edit of the batch is in a group that goes on. -/
def openGroup (edits : List VersionEdit) : Bool :=
  match edits.getLast? with
  | none => false
  | some e => e.atomicGroup.any (fun remaining => remaining ≠ 0)

/-- `k`: the edits of the list that belong to the group. -/
def groupEdits : List VersionEdit → Nat
  | [] => 0
  | e :: es =>
    match e.atomicGroup with
    | none => 0
    | some remaining => if remaining = 0 then 1 else groupEdits es + 1

def subRemaining (k : Nat) (e : VersionEdit) : VersionEdit :=
  { e with atomicGroup := e.atomicGroup.map (fun remaining => remaining - UInt32.ofNat k) }

/-- The writer's family is dropped: the counts of the begun group are patched. -/
def dropEdits (b : Batch) (editList : List VersionEdit) : Batch :=
  if openGroup b.edits then
    match b.groupStart with
    | none => b
    | some start =>
      { b with edits := b.edits.take start ++
          (b.edits.drop start).map (subRemaining (groupEdits editList)) }
  else b

def pushEdit (v : Numbers) (b : Batch) (e : VersionEdit) : Batch :=
  { edits := b.edits ++ [logAndApplyHelper v e]
    groupStart :=
      if e.atomicGroup.isSome then
        if openGroup b.edits then b.groupStart else some b.edits.length
      else none }

def addWriter (v : Numbers) (dropped : UInt32 → Bool) (b : Batch) (w : ManifestWriter) : Batch :=
  if dropped w.cfd then dropEdits b w.editList else w.editList.foldl (pushEdit v) b

/-- The writers whose edits go into one batch. -/
def batchWriters (queue : List ManifestWriter) : List ManifestWriter :=
  queue.takeWhile (fun w => !isColumnFamilyManipulation w.front)

/-- `ProcessManifestWrites`: the edits in the order in which they are written. -/
def processManifestWrites (v : Numbers) (dropped : UInt32 → Bool) (queue : List ManifestWriter) :
    List VersionEdit :=
  match queue with
  | [] => []
  | first :: _ =>
    if isColumnFamilyManipulation first.front then [logAndApplyCFHelper v first.front]
    else ((batchWriters queue).foldl (addWriter v dropped) {}).edits

/-! ## One edit at a time -/

/-- The edits of the writers, each with whether its family is dropped. -/
def flagged (dropped : UInt32 → Bool) (ws : List ManifestWriter) : List (Bool × VersionEdit) :=
  ws.flatMap (fun w => w.editList.map (fun e => (dropped w.cfd, e)))

/-- The edits that are written. -/
def live (v : Numbers) (es : List (Bool × VersionEdit)) : List VersionEdit :=
  (es.filter (fun x => !x.1)).map (fun x => logAndApplyHelper v x.2)

/-- The edit of a group gets another count. -/
def withCount (n : Nat) (e : VersionEdit) : VersionEdit :=
  { e with atomicGroup := e.atomicGroup.map (fun _ => UInt32.ofNat n) }

/-- The counts of a group that goes on for `m` more edits. -/
def countFrom (m : Nat) : List VersionEdit → List VersionEdit
  | [] => []
  | e :: es => withCount (es.length + m) e :: countFrom m es

/-- Between two edits: `front` is through, `part` is begun, `gs` is the rest of its block
    and `blocks` follow; `out` is what will be written. -/
inductive Pending (v : Numbers) (out : List VersionEdit) : Batch → List (Bool × VersionEdit) → Prop
  | mk (front part : List VersionEdit) (start : Option Nat) (gs : List (Bool × VersionEdit))
      (blocks : List (List (Bool × VersionEdit)))
      (hfront : openGroup front = false)
      (hpart : ∀ e ∈ part, e.atomicGroup.isSome)
      (hstart : part ≠ [] → start = some front.length)
      (hgs : CountsDown (gs.map Prod.snd))
      (hsize : part.length + gs.length < 2 ^ 32)
      (hblocks : ∀ b ∈ blocks, IsBlock (b.map Prod.snd))
      (hout : out = front ++ countFrom 0 (part ++ live v gs)
        ++ blocks.flatMap (fun b => countFrom 0 (live v b))) :
      Pending v out ⟨front ++ countFrom gs.length part, start⟩ (gs ++ blocks.flatten)

variable {part : List VersionEdit} {e : VersionEdit}

section Counts

variable {m : Nat}

theorem withCount_of_none {n : Nat} (h : e.atomicGroup = none) : withCount n e = e := by
  cases e
  subst h
  rfl

theorem withCount_of_some {n : Nat} (h : e.atomicGroup = some (UInt32.ofNat n)) :
    withCount n e = e := by
  cases e
  subst h
  rfl

theorem length_countFrom (es : List VersionEdit) : (countFrom m es).length = es.length := by
  induction es with
  | nil => rfl
  | cons e es ih => rw [countFrom, length_cons, ih, length_cons]

theorem countFrom_concat (es : List VersionEdit) (e : VersionEdit) :
    countFrom m (es ++ [e]) = countFrom (m + 1) es ++ [withCount m e] := by
  induction es with
  | nil =>
    show [withCount (0 + m) e] = [withCount m e]
    rw [Nat.zero_add]
  | cons x es ih =>
    rw [cons_append, countFrom, countFrom, ih, length_append, cons_append]
    rw [show es.length + [e].length + m = es.length + (m + 1) by simp; omega]

theorem subRemaining_countFrom (k : Nat) (es : List VersionEdit) :
    (countFrom (m + k) es).map (subRemaining k) = countFrom m es := by
  induction es with
  | nil => rfl
  | cons e es ih =>
  have hsub : UInt32.ofNat (es.length + (m + k)) - UInt32.ofNat k
      = UInt32.ofNat (es.length + m) := by
    rw [← Nat.add_assoc, UInt32.ofNat_add, UInt32.add_sub_cancel]
  rw [countFrom, map_cons, ih, countFrom, subRemaining, withCount, withCount]
  simp only [Option.map_map, Function.comp_def, hsub]

/-- The group of a counted part goes on if more is to come. -/
theorem openGroup_countFrom (front : List VersionEdit) (hne : part ≠ [])
    (hpart : ∀ e ∈ part, e.atomicGroup.isSome) (hm : m < 2 ^ 32) :
    openGroup (front ++ countFrom m part) = decide (m ≠ 0) := by
  obtain ⟨init, last, rfl⟩ := eq_nil_or_concat' part |>.resolve_left hne
  obtain ⟨c, hc⟩ := Option.isSome_iff_exists.mp (hpart last (by simp))
  rw [countFrom_concat, ← append_assoc, openGroup, getLast?_concat, withCount, hc]
  show decide (UInt32.ofNat m ≠ 0) = decide (m ≠ 0)
  refine decide_eq_decide.mpr (not_congr ?_)
  constructor
  · intro h
    have hnat := congrArg UInt32.toNat h
    rw [UInt32.toNat_ofNat_of_lt' hm] at hnat
    exact hnat
  · rintro rfl
    rfl

end Counts

/-! ## The batch keeps its invariant -/

variable {rest : List (Bool × VersionEdit)} {es : List VersionEdit}

section Batch

variable {v : Numbers} {out : List VersionEdit} {b : Batch}

theorem dropEdits_of_closed (h : openGroup b.edits = false) (es : List VersionEdit) :
    dropEdits b es = b := by
  rw [dropEdits, h]
  exact if_neg Bool.false_ne_true

theorem dropEdits_of_open {front : List VersionEdit} {m : Nat} (hne : part ≠ [])
    (hpart : ∀ e ∈ part, e.atomicGroup.isSome) (hm : m + 1 < 2 ^ 32) (es : List VersionEdit) :
    dropEdits ⟨front ++ countFrom (m + 1) part, some front.length⟩ es
      = ⟨front ++ (countFrom (m + 1) part).map (subRemaining (groupEdits es)),
          some front.length⟩ := by
  have hopen : openGroup (front ++ countFrom (m + 1) part) = true := by
    rw [openGroup_countFrom front hne hpart hm]
    exact decide_eq_true (Nat.succ_ne_zero m)
  rw [dropEdits, if_pos hopen]
  show Batch.mk (List.take _ _ ++ List.map _ (List.drop _ _)) _ = _
  rw [take_left, drop_left]

/-- A begun block that is through. -/
theorem openGroup_done {front : List VersionEdit} (hfront : openGroup front = false)
    (hpart : ∀ e ∈ part, e.atomicGroup.isSome) : openGroup (front ++ countFrom 0 part) = false := by
  by_cases hne : part = []
  · rw [hne, countFrom, append_nil]
    exact hfront
  · rw [openGroup_countFrom front hne hpart (by decide)]
    rfl

/-- The next edit stands alone, or it is the next one of a group. -/
theorem Pending.next {x : Bool × VersionEdit} (h : Pending v out b (x :: rest)) :
    (x.2.atomicGroup = none ∧ openGroup b.edits = false ∧
      ∃ blocks : List (List (Bool × VersionEdit)), rest = blocks.flatten ∧
        (∀ b ∈ blocks, IsBlock (b.map Prod.snd)) ∧
        out = b.edits ++ live v [x] ++ blocks.flatMap (fun b => countFrom 0 (live v b))) ∨
    ∃ (front part : List VersionEdit) (gs : List (Bool × VersionEdit))
      (blocks : List (List (Bool × VersionEdit))),
      b.edits = front ++ countFrom (gs.length + 1) part ∧ rest = gs ++ blocks.flatten ∧
      openGroup front = false ∧ (∀ e ∈ part, e.atomicGroup.isSome) ∧
      (part ≠ [] → b.groupStart = some front.length) ∧
      CountsDown ((x :: gs).map Prod.snd) ∧ part.length + (gs.length + 1) < 2 ^ 32 ∧
      (∀ b ∈ blocks, IsBlock (b.map Prod.snd)) ∧
      out = front ++ countFrom 0 (part ++ live v (x :: gs))
        ++ blocks.flatMap (fun b => countFrom 0 (live v b)) := by
  generalize hall : x :: rest = all at h
  cases h with
  | mk front part start gs blocks hfront hpart hstart hgs hsize hblocks hout =>
  cases gs with
  | cons y gs =>
    obtain ⟨rfl, rfl⟩ := List.cons.inj hall
    exact .inr ⟨front, part, gs, blocks, rfl, rfl, hfront, hpart, hstart, hgs, hsize,
      hblocks, hout⟩
  | nil =>
  have hclosed := openGroup_done hfront hpart
  cases blocks with
  | nil => exact nomatch hall
  | cons block blocks =>
  have hblock := hblocks block (.head _)
  have hrest : ∀ b ∈ blocks, IsBlock (b.map Prod.snd) :=
    fun b hb => hblocks b (.tail _ hb)
  rw [flatMap_cons, ← append_assoc] at hout
  change out = front ++ countFrom 0 (part ++ []) ++ _ ++ _ at hout
  rw [append_nil] at hout
  change x :: rest = (block :: blocks).flatten at hall
  rw [flatten_cons] at hall
  cases block with
  | nil =>
    -- a block is not empty
    generalize hnil : ([] : List (Bool × VersionEdit)).map Prod.snd = es at hblock
    cases hblock with
    | standalone e he => exact nomatch hnil
    | group es hne _ _ => exact absurd hnil.symm hne
  | cons y ys =>
  obtain ⟨rfl, hrest'⟩ := List.cons.inj hall
  generalize hes : (x :: ys).map Prod.snd = es at hblock
  cases hblock with
  | standalone e he =>
    obtain ⟨hxe, hys⟩ := List.cons.inj hes
    obtain rfl := map_eq_nil_iff.mp hys
    refine .inl ⟨hxe ▸ he, hclosed, blocks, hrest', hrest, ?_⟩
    have hlive : countFrom 0 (live v [x]) = live v [x] := by
      have hnone : (logAndApplyHelper v x.2).atomicGroup = none := by
        show x.2.atomicGroup = none
        rw [hxe]
        exact he
      cases hx : x.1 with
      | true => simp [live, hx, countFrom]
      | false => simp [live, hx, countFrom, withCount_of_none hnone]
    rw [hout, hlive]
    rfl
  | group es hne hlen hcounts =>
  subst hes
  rw [length_map] at hlen
  exact .inr ⟨front ++ countFrom 0 part, [], ys, blocks,
    (append_nil _).symm, hrest', hclosed, nofun,
    fun hne => absurd rfl hne, hcounts, by simpa using hlen, hrest, hout⟩

/-- Between two blocks. -/
theorem Pending.of_closed {edits : List VersionEdit} (start : Option Nat)
    {blocks : List (List (Bool × VersionEdit))} (hclosed : openGroup edits = false)
    (hblocks : ∀ b ∈ blocks, IsBlock (b.map Prod.snd))
    (hout : out = edits ++ blocks.flatMap (fun b => countFrom 0 (live v b))) :
    Pending v out ⟨edits, start⟩ blocks.flatten := by
  have hpending : Pending v out ⟨edits ++ [], start⟩ ([] ++ blocks.flatten) :=
    Pending.mk edits [] start [] blocks hclosed (nofun)
      (fun hne => absurd rfl hne) trivial (by decide) hblocks (by
        show out = edits ++ [] ++ _
        rw [append_nil]
        exact hout)
  rw [append_nil] at hpending
  exact hpending

theorem live_cons_true (e : VersionEdit) (gs : List (Bool × VersionEdit)) :
    live v ((true, e) :: gs) = live v gs := rfl

theorem live_cons_false (e : VersionEdit) (gs : List (Bool × VersionEdit)) :
    live v ((false, e) :: gs) = logAndApplyHelper v e :: live v gs := rfl

/-- One edit of a dropped family. -/
theorem Pending.dropEdit (h : Pending v out b ((true, e) :: rest)) :
    Pending v out (dropEdits b [e]) rest := by
  obtain ⟨edits, groupStart⟩ := b
  rcases h.next with ⟨-, hclosed, blocks, rfl, hblocks, hout⟩ |
    ⟨front, part, gs, blocks, hb, rfl, hfront, hpart, hstart, hcounts, hsize, hblocks, hout⟩
  · rw [dropEdits_of_closed hclosed]
    refine Pending.of_closed groupStart hclosed hblocks ?_
    change out = edits ++ [] ++ _ at hout
    rw [hout, append_nil]
  · change edits = _ at hb
    change part ≠ [] → groupStart = _ at hstart
    subst hb
    rw [live_cons_true] at hout
    have hsize' : part.length + gs.length < 2 ^ 32 := by omega
    by_cases hne : part = []
    · -- nothing of the group is in the batch
      subst hne
      rw [dropEdits_of_closed (by rw [countFrom, append_nil]; exact hfront)]
      exact Pending.mk front [] groupStart gs blocks hfront hpart (fun hne => absurd rfl hne)
        hcounts.2 hsize' hblocks hout
    obtain rfl := hstart hne
    have hone : groupEdits [e] = 1 := by
      rw [groupEdits, hcounts.1]
      exact ite_eq_left_iff.mpr (fun _ => rfl)
    rw [dropEdits_of_open hne hpart (by omega), hone, subRemaining_countFrom]
    exact Pending.mk front part _ gs blocks hfront hpart (fun _ => rfl) hcounts.2 hsize' hblocks
      hout

/-- One edit of a family that is there. -/
theorem Pending.pushEdit (h : Pending v out b ((false, e) :: rest)) :
    Pending v out (pushEdit v b e) rest := by
  obtain ⟨edits, groupStart⟩ := b
  rcases h.next with ⟨hnone, hclosed, blocks, rfl, hblocks, hout⟩ |
    ⟨front, part, gs, blocks, hb, rfl, hfront, hpart, hstart, hcounts, hsize, hblocks, hout⟩
  · have hfront : openGroup (edits ++ [logAndApplyHelper v e]) = false := by
      rw [openGroup, getLast?_concat]
      show Option.any _ e.atomicGroup = false
      rw [hnone]
      rfl
    rw [AtomicGroup.pushEdit, hnone]
    exact Pending.of_closed none hfront hblocks hout
  · change edits = _ at hb
    change part ≠ [] → groupStart = _ at hstart
    subst hb
    have hcount : e.atomicGroup = some (UInt32.ofNat gs.length) := by
      have hcount := hcounts.1
      rw [length_map] at hcount
      exact hcount
    have hpart' : ∀ e' ∈ part ++ [logAndApplyHelper v e], e'.atomicGroup.isSome := by
      intro e' he'
      rcases mem_append.mp he' with he' | he'
      · exact hpart e' he'
      rw [mem_singleton.mp he']
      show e.atomicGroup.isSome
      rw [hcount]
      rfl
    have hstart' : (if openGroup (front ++ countFrom (gs.length + 1) part) then groupStart
        else some (front ++ countFrom (gs.length + 1) part).length) = some front.length := by
      by_cases hne : part = []
      · subst hne
        rw [countFrom, append_nil, hfront]
        rfl
      · rw [openGroup_countFrom front hne hpart (by omega),
          if_pos (decide_eq_true (Nat.succ_ne_zero _)), hstart hne]
    have hedits : front ++ countFrom (gs.length + 1) part ++ [logAndApplyHelper v e]
        = front ++ countFrom gs.length (part ++ [logAndApplyHelper v e]) := by
      rw [countFrom_concat, withCount_of_some (show (logAndApplyHelper v e).atomicGroup
        = _ from hcount),
        append_assoc]
    rw [AtomicGroup.pushEdit, hedits, hcount]
    show Pending v out ⟨_, if openGroup (front ++ countFrom (gs.length + 1) part) then groupStart
        else some (front ++ countFrom (gs.length + 1) part).length⟩ _
    rw [hstart']
    refine Pending.mk front (part ++ [logAndApplyHelper v e]) _ gs blocks hfront hpart'
      (fun _ => rfl) hcounts.2 ?_ hblocks ?_
    · rw [length_append]
      show part.length + 1 + gs.length < 2 ^ 32
      omega
    · rw [hout, live_cons_false, append_assoc part]
      rfl

theorem dropEdits_nil : dropEdits b [] = b := by
  obtain ⟨edits, groupStart⟩ := b
  have hzero : ∀ e : VersionEdit, subRemaining 0 e = e := by
    intro e
    cases e
    simp [subRemaining]
  rw [AtomicGroup.dropEdits]
  split
  · cases groupStart with
    | none => rfl
    | some start =>
      show Batch.mk (List.take start edits ++ List.map (subRemaining 0)
          (List.drop start edits)) _ = _
      rw [map_congr_left (fun e _ => hzero e), map_id', take_append_drop]
  · rfl

theorem subRemaining_succ (k : Nat) (e : VersionEdit) :
    subRemaining (k + 1) e = subRemaining k (subRemaining 1 e) := by
  have hsub : ∀ c : UInt32, c - UInt32.ofNat (k + 1) = c - UInt32.ofNat 1 - UInt32.ofNat k := by
    intro c
    rw [UInt32.ofNat_add]
    grind
  simp only [subRemaining, Option.map_map, Function.comp_def, hsub]

/-- The patch for a list of dropped edits, by the first of them. -/
theorem Pending.dropEdits_cons (h : Pending v out b ((true, e) :: rest)) (es : List VersionEdit) :
    dropEdits b (e :: es) = dropEdits (dropEdits b [e]) es := by
  obtain ⟨edits, groupStart⟩ := b
  rcases h.next with ⟨-, hclosed, -⟩ |
    ⟨front, part, gs, -, hb, -, hfront, hpart, hstart, hcounts, hsize, -, -⟩
  · rw [dropEdits_of_closed hclosed, dropEdits_of_closed hclosed, dropEdits_of_closed hclosed]
  · change edits = _ at hb
    change part ≠ [] → groupStart = _ at hstart
    subst hb
    have hcount : e.atomicGroup = some (UInt32.ofNat gs.length) := by
      have hcount := hcounts.1
      rw [length_map] at hcount
      exact hcount
    by_cases hne : part = []
    · subst hne
      have hclosed : openGroup (front ++ countFrom (gs.length + 1) []) = false := by
        rw [countFrom, append_nil]
        exact hfront
      have hsame := @dropEdits_of_closed ⟨front ++ countFrom (gs.length + 1) [], groupStart⟩ hclosed
      rw [hsame, hsame, hsame]
    obtain rfl := hstart hne
    have hone : groupEdits [e] = 1 := by
      rw [groupEdits, hcount]
      exact ite_eq_left_iff.mpr (fun _ => rfl)
    rw [dropEdits_of_open hne hpart (by omega), dropEdits_of_open hne hpart (by omega), hone,
      subRemaining_countFrom, groupEdits, hcount]
    cases hgs : gs.length with
    | zero =>
      -- the group ends here
      rw [dropEdits_of_closed (openGroup_done hfront hpart)]
      show Batch.mk (front ++ List.map (subRemaining (if (0 : UInt32) = 0 then 1 else _)) _) _ = _
      rw [if_pos rfl, subRemaining_countFrom]
    | succ m =>
    rw [hgs] at hsize
    have hnot : ¬ UInt32.ofNat (m + 1) = 0 := by
      intro hzero
      have hnat := congrArg UInt32.toNat hzero
      rw [UInt32.toNat_ofNat_of_lt' (by show m + 1 < 2 ^ 32; omega)] at hnat
      exact Nat.succ_ne_zero m hnat
    have hsplit : (countFrom (m + 1 + 1) part).map (subRemaining (groupEdits es + 1))
        = (countFrom (m + 1) part).map (subRemaining (groupEdits es)) := by
      have htwice : (countFrom (m + 1 + 1) part).map (subRemaining (groupEdits es + 1))
          = ((countFrom (m + 1 + 1) part).map (subRemaining 1)).map
              (subRemaining (groupEdits es)) := by
        rw [map_map]
        exact map_congr_left (fun e _ => subRemaining_succ (groupEdits es) e)
      rw [htwice, subRemaining_countFrom]
    rw [dropEdits_of_open hne hpart (by omega)]
    show Batch.mk (front ++ List.map (subRemaining
      (if UInt32.ofNat (m + 1) = 0 then 1 else groupEdits es + 1)) _) _ = _
    rw [if_neg hnot, hsplit]

/-- The patch for a list of dropped edits is the patch for one after the other. -/
theorem Pending.dropEdits (h : Pending v out b (es.map (fun e => (true, e)) ++ rest)) :
    Pending v out (dropEdits b es) rest := by
  induction es generalizing b with
  | nil =>
    rw [dropEdits_nil]
    exact h
  | cons e es ih =>
  rw [map_cons, cons_append] at h
  rw [h.dropEdits_cons]
  exact ih h.dropEdit

theorem Pending.pushEdits (h : Pending v out b (es.map (fun e => (false, e)) ++ rest)) :
    Pending v out (es.foldl (AtomicGroup.pushEdit v) b) rest := by
  induction es generalizing b with
  | nil => exact h
  | cons e es ih => exact ih h.pushEdit

theorem Pending.addWriters {dropped : UInt32 → Bool} {ws : List ManifestWriter}
    (h : Pending v out b (flagged dropped ws)) :
    Pending v out (ws.foldl (addWriter v dropped) b) [] := by
  induction ws generalizing b with
  | nil => exact h
  | cons w ws ih =>
  rw [flagged, flatMap_cons] at h
  refine ih ?_
  rw [addWriter]
  cases hdropped : dropped w.cfd with
  | true =>
    rw [hdropped] at h
    exact h.dropEdits
  | false =>
    rw [hdropped] at h
    exact h.pushEdits

theorem Pending.edits_eq (h : Pending v out b []) : b.edits = out := by
  generalize hall : ([] : List (Bool × VersionEdit)) = all at h
  cases h with
  | mk front part start gs blocks hfront hpart hstart hgs hsize hblocks hout =>
  obtain ⟨hgs', hflat⟩ := append_eq_nil_iff.mp hall.symm
  subst hgs'
  have hlive : blocks.flatMap (fun b => countFrom 0 (live v b)) = [] := by
    refine flatMap_eq_nil_iff.mpr ?_
    intro block hblock
    rw [flatten_eq_nil_iff.mp hflat block hblock]
    rfl
  rw [hout, hlive, append_nil]
  show _ = front ++ countFrom 0 (part ++ [])
  rw [append_nil]
  rfl

/-- **THE RECORDS**: the live edits of each block, counted down to zero. -/
theorem foldl_addWriter_eq (dropped : UInt32 → Bool) {ws : List ManifestWriter}
    {blocks : List (List (Bool × VersionEdit))} (hws : flagged dropped ws = blocks.flatten)
    (hblocks : ∀ b ∈ blocks, IsBlock (b.map Prod.snd)) :
    (ws.foldl (addWriter v dropped) {}).edits
      = blocks.flatMap (fun b => countFrom 0 (live v b)) := by
  refine Pending.edits_eq (@Pending.addWriters v _ _ dropped ws ?_)
  rw [hws]
  exact Pending.of_closed none rfl hblocks rfl

end Batch

/-! ## Reading the records back -/

variable {r : Recovery}

section ReadBack

variable {options : AList (fun _ : List UInt8 => Options)} {v : Numbers}

/-- Applying an edit does not look at its count. -/
theorem applyEdits_map_withCount (n : Nat) (es : List VersionEdit) (r : Recovery) :
    applyEdits options r (es.map (withCount n)) = applyEdits options r es := by
  induction es generalizing r with
  | nil => exact rfl
  | cons e es ih =>
  have hsame : applyOneVersionEdit options r (withCount n e) = applyOneVersionEdit options r e :=
    rfl
  rw [map_cons, applyEdits, applyEdits, hsame, ih]

theorem map_withCount_countFrom (n m : Nat) (es : List VersionEdit) :
    (countFrom m es).map (withCount n) = es.map (withCount n) := by
  induction es with
  | nil => rfl
  | cons e es ih =>
    rw [countFrom, map_cons, map_cons, ih, withCount, withCount, withCount]
    simp only [Option.map_map, Function.comp_def]

theorem applyEdits_counted (r : Recovery) (blocks : List (List (Bool × VersionEdit))) :
    applyEdits options r (blocks.flatMap (fun b => countFrom 0 (live v b)))
      = applyEdits options r (blocks.flatMap (live v)) := by
  rw [← applyEdits_map_withCount 0, ← applyEdits_map_withCount 0 (blocks.flatMap (live v)),
    map_flatMap, map_flatMap]
  simp only [map_withCount_countFrom]

theorem countsDown_countFrom (h : ∀ e ∈ es, e.atomicGroup.isSome) :
    CountsDown (countFrom 0 es) := by
  induction es with
  | nil => trivial
  | cons e es ih =>
  refine ⟨?_, ih (fun e' he' => h e' (.tail _ he'))⟩
  obtain ⟨c, hc⟩ := Option.isSome_iff_exists.mp (h e (.head _))
  rw [length_countFrom, withCount, hc]
  rfl

theorem isSome_of_countsDown (h : CountsDown es) : ∀ e ∈ es, e.atomicGroup.isSome := by
  induction es with
  | nil => exact nofun
  | cons e es ih =>
  intro e' he'
  rcases mem_cons.mp he' with rfl | he'
  · rw [h.1]
    rfl
  · exact ih h.2 e' he'

theorem mem_live {b : List (Bool × VersionEdit)} :
    e ∈ live v b ↔ ∃ x ∈ b, x.1 = false ∧ logAndApplyHelper v x.2 = e := by
  rw [live, mem_map]
  constructor
  · rintro ⟨x, hx, rfl⟩
    obtain ⟨hmem, hflag⟩ := mem_filter.mp hx
    exact ⟨x, hmem, by simpa using hflag, rfl⟩
  · rintro ⟨x, hmem, hflag, rfl⟩
    exact ⟨x, mem_filter.mpr ⟨hmem, by simp [hflag]⟩, rfl⟩

/-- What is written of a block is a block. -/
theorem isBlock_counted {b : List (Bool × VersionEdit)} (h : IsBlock (b.map Prod.snd)) :
    countFrom 0 (live v b) = [] ∨ IsBlock (countFrom 0 (live v b)) := by
  by_cases hnil : live v b = []
  · rw [hnil]
    exact .inl rfl
  refine .inr ?_
  generalize hes : b.map Prod.snd = es at h
  cases h with
  | standalone e he =>
    obtain ⟨x, rfl, hx⟩ := map_eq_singleton_iff.mp hes
    cases hflag : x.1 with
    | true => exact absurd (by simp [live, hflag]) hnil
    | false =>
    have hlive : live v [x] = [logAndApplyHelper v e] := by simp [live, hflag, hx]
    rw [hlive, countFrom, countFrom,
      withCount_of_none (show (logAndApplyHelper v e).atomicGroup = none from he)]
    exact IsBlock.standalone _ he
  | group es hne hsize hcounts =>
  subst hes
  have hlen : (live v b).length ≤ b.length := by
    rw [live, length_map]
    exact length_filter_le _ _
  rw [length_map] at hsize
  refine IsBlock.group _ ?_ ?_ (countsDown_countFrom ?_)
  · intro hempty
    exact hnil (length_eq_zero_iff.mp (by
      rw [← @length_countFrom 0 (live v b), hempty]
      rfl))
  · rw [length_countFrom]
    exact hlen.trans_lt hsize
  · intro e he
    obtain ⟨x, hx, -, rfl⟩ := mem_live.mp he
    exact isSome_of_countsDown hcounts x.2 (mem_map_of_mem hx)

theorem fits_withCount (h : Fits r e) (n : Nat) : Fits r (withCount n e) := by
  cases h with
  | notFound hadd hdrop hmem => exact .notFound hadd hdrop hmem
  | family cf hadd hdrop hmem hcf hcomparator hdeleted hnew =>
    exact .family cf hadd hdrop hmem hcf hcomparator hdeleted hnew

theorem fits_logAndApplyHelper (h : Fits r e) : Fits r (logAndApplyHelper v e) := by
  cases h with
  | notFound hadd hdrop hmem => exact .notFound hadd hdrop hmem
  | family cf hadd hdrop hmem hcf hcomparator hdeleted hnew =>
    exact .family cf hadd hdrop hmem hcf hcomparator hdeleted hnew

theorem fits_countFrom (h : ∀ e ∈ es, Fits r e) : ∀ e ∈ countFrom 0 es, Fits r e := by
  induction es with
  | nil => exact nofun
  | cons e es ih =>
  intro e' he'
  rcases mem_cons.mp he' with rfl | he'
  · exact fits_withCount (h e (.head _)) _
  · exact ih (fun x hx => h x (.tail _ hx)) e' he'

theorem length_flatMap_counted (blocks : List (List (Bool × VersionEdit))) :
    (blocks.flatMap (fun b => countFrom 0 (live v b))).length =
      (blocks.flatMap (live v)).length := by
  rw [length_flatMap, length_flatMap]
  simp only [length_countFrom]

/-- The records of a batch, cut anywhere. -/
theorem recoverLoop_written {readOnly : Bool} (h : Accepted readOnly r)
    {blocks : List (List (Bool × VersionEdit))} (hblocks : ∀ b ∈ blocks, IsBlock (b.map Prod.snd))
    (hfits : ∀ x ∈ blocks.flatten, x.1 = false → Fits r x.2) (n : Nat) :
    ∃ j ≤ blocks.length, ((blocks.take j).flatMap (live v)).length ≤ n ∧
      (j < blocks.length → n < ((blocks.take (j + 1)).flatMap (live v)).length) ∧
      (recoverLoop options { r := r }
          ((blocks.flatMap (fun b => countFrom 0 (live v b))).take n)).r
        = applyEdits options r ((blocks.take j).flatMap (live v)) ∧
      Accepted readOnly (applyEdits options r ((blocks.take j).flatMap (live v))) := by
  have hblocks' : ∀ b ∈ blocks.map (fun b => countFrom 0 (live v b)), b = [] ∨ IsBlock b := by
    intro b' hb'
    obtain ⟨b, hb, rfl⟩ := mem_map.mp hb'
    exact isBlock_counted (hblocks b hb)
  have hfits' : ∀ e ∈ (blocks.map (fun b => countFrom 0 (live v b))).flatten, Fits r e := by
    intro e he
    obtain ⟨b', hb', he⟩ := mem_flatten.mp he
    obtain ⟨b, hb, rfl⟩ := mem_map.mp hb'
    refine fits_countFrom ?_ e he
    intro e' he'
    obtain ⟨x, hx, hflag, rfl⟩ := mem_live.mp he'
    exact fits_logAndApplyHelper (hfits x (mem_flatten.mpr ⟨b, hb, hx⟩) hflag)
  obtain ⟨j, hj, hle, hlt, hloop, hacc⟩ := @recoverLoop_take options readOnly r h _
      hblocks' hfits' n
  have hflat : ∀ k, ((blocks.map (fun b => countFrom 0 (live v b))).take k).flatten
      = (blocks.take k).flatMap (fun b => countFrom 0 (live v b)) := by
    intro k
    rw [flatMap_def, map_take]
  rw [hflat, length_flatMap_counted] at hle
  rw [hflat, length_flatMap_counted, length_map] at hlt
  rw [hflat, applyEdits_counted, ← flatMap_def] at hloop
  rw [hflat, applyEdits_counted] at hacc
  rw [length_map] at hj
  exact ⟨j, hj, hle, hlt, hloop, hacc⟩

theorem manipulates_logAndApplyCFHelper {readOnly : Bool} (h : Manipulates options readOnly r e) :
    Manipulates options readOnly r (logAndApplyCFHelper v e) := by
  cases h with
  | addUnopened name hadd hfresh hfresh' hname hro =>
    exact .addUnopened name hadd hfresh hfresh' hname hro
  | add name o hadd hfresh hfresh' hname hcomparator =>
    exact .add name o hadd hfresh hfresh' hname hcomparator
  | drop hadd hdrop hmem => exact .drop hadd hdrop hmem

end ReadBack

section Results

variable (options : AList (fun _ : List UInt8 => Options)) (o : Options) (readOnly : Bool)
  (prior : List VersionEdit) (r : Recovery)

/-- Of the records cut after `n`, the live edits of the whole blocks among them are applied,
    and the manifest is accepted. -/
def AppliesWholeBlocks (v : Numbers) (blocks : List (List (Bool × VersionEdit)))
    (records : List VersionEdit) (n : Nat) : Prop :=
  ∃ j ≤ blocks.length, ((blocks.take j).flatMap (live v)).length ≤ n ∧
    (j < blocks.length → n < ((blocks.take (j + 1)).flatMap (live v)).length) ∧
    (recoverLoop options (start o) (prior ++ records.take n)).r
      = applyEdits options r ((blocks.take j).flatMap (live v)) ∧
    recover options readOnly (prior ++ records.take n) = none

/-- The record of an edit that adds or drops a family is applied. -/
def AppliesManipulation (v : Numbers) (e : VersionEdit) (records : List VersionEdit) : Prop :=
  (recoverLoop options (start o) (prior ++ records)).r
      = applyOneVersionEdit options r (logAndApplyCFHelper v e) ∧
    recover options readOnly (prior ++ records) = none

/-- Nothing of the records is applied, and the status is a corruption, unless the check for
    families that were not opened overwrites it. -/
def ReportsCorruption (records : List VersionEdit) : Prop :=
  (recoverLoop options (start o) (prior ++ records)).r
      = r.fail (.corruption "corrupted atomic group" []) ∧
    recover options readOnly (prior ++ records) =
      if readOnly = false ∧ r.columnFamiliesNotFound.entries ≠ [] then
        some (.invalidArgument
          "You have to open all column families. Column families not opened: "
          (r.columnFamiliesNotFound.entries.map Sigma.snd))
      else some (.corruption "corrupted atomic group" [])

end Results

/-- **ATOMIC GROUPS ARE ALL OR NOTHING** behind every manifest `prior` that recovery reads
    without an error and with no group begun. Of the records of a batch, cut anywhere, the whole
    blocks are applied, each standalone edit or all live edits of a group; an edit that adds or
    drops a family is a batch of its own. Of a group that is interrupted or miscounted nothing is
    applied, and the status is a corruption, unless the check for families that were not opened
    overwrites it. -/
theorem atomicGroups_all_or_nothing {options : AList (fun _ : List UInt8 => Options)}
    {o : Options} (ho : options.lookup kDefaultColumnFamilyName = some o) (readOnly : Bool)
    {prior : List VersionEdit} {r : Recovery}
    (hprior : recoverLoop options (start o) prior = { r := r }) (hstatus : r.status = none) :
    (recover options readOnly prior = none → ∀ (v : Numbers) (dropped : UInt32 → Bool)
      (first : ManifestWriter) (queue : List ManifestWriter),
      (isColumnFamilyManipulation first.front = false →
        ∀ blocks : List (List (Bool × VersionEdit)),
        flagged dropped (batchWriters (first :: queue)) = blocks.flatten →
        (∀ b ∈ blocks, IsBlock (b.map Prod.snd)) →
        (∀ x ∈ blocks.flatten, x.1 = false → Fits r x.2) →
        ∀ n, AppliesWholeBlocks options o readOnly prior r v blocks
          (processManifestWrites v dropped (first :: queue)) n) ∧
      (isColumnFamilyManipulation first.front = true → first.front.atomicGroup = none →
        Manipulates options readOnly r first.front →
        AppliesManipulation options o readOnly prior r v first.front
          (processManifestWrites v dropped (first :: queue)))) ∧
    (∀ (c : UInt32) (g : List VersionEdit) (x : VersionEdit) (rest : List VersionEdit),
      g ≠ [] → StartsGroup c g → x.atomicGroup ≠ some (c - UInt32.ofNat g.length) →
      ReportsCorruption options o readOnly prior r (g ++ x :: rest)) := by
  have hloop : ∀ es, recoverLoop options (start o) (prior ++ es) = recoverLoop options
      { r := r } es := by
    intro es
    rw [recoverLoop_append, hprior]
  have hrecover : ∀ es, recover options readOnly (prior ++ es)
      = finish readOnly (recoverLoop options { r := r } es).r := by
    intro es
    rw [recover, ho]
    show finish readOnly (recoverLoop options (start o) (prior ++ es)).r = _
    rw [hloop]
  refine ⟨?_, ?_⟩
  · intro hok v dropped first queue
    have hacc : Accepted readOnly r := by
      have hr := hrecover []
      rw [append_nil, hok] at hr
      exact finish_eq_none_iff.mp hr.symm
    refine ⟨?_, ?_⟩
    · intro hfirst blocks hws hblocks hfits n
      have hwritten : processManifestWrites v dropped (first :: queue)
          = blocks.flatMap (fun b => countFrom 0 (live v b)) := by
        rw [processManifestWrites, hfirst]
        exact (if_neg Bool.false_ne_true).trans (foldl_addWriter_eq dropped hws hblocks)
      obtain ⟨j, hj, hle, hlt, hr, hacc'⟩ := @recoverLoop_written r options v _ hacc _
          hblocks hfits n
      refine ⟨j, hj, hle, hlt, ?_, ?_⟩
      · rw [hloop, hwritten]
        exact hr
      · rw [hrecover, hwritten]
        exact finish_eq_none_iff.mpr (hr ▸ hacc')
    intro hfirst halone hmanip
    have hwritten : processManifestWrites v dropped (first :: queue)
        = [logAndApplyCFHelper v first.front] := by
      rw [processManifestWrites]
      exact if_pos hfirst
    have hblock : IsBlock [logAndApplyCFHelper v first.front] := IsBlock.standalone _ halone
    have hr : (recoverLoop options { r := r } [logAndApplyCFHelper v first.front]).r
        = applyOneVersionEdit options r (logAndApplyCFHelper v first.front) := by
      rw [recoverLoop_block hstatus hblock, applyEdits, applyEdits, ite_self]
    refine ⟨?_, ?_⟩
    · rw [hloop, hwritten, hr]
    · rw [hrecover, hwritten, hr]
      exact finish_eq_none_iff.mpr
        (hacc.applyManipulates (manipulates_logAndApplyCFHelper hmanip))
  · intro c g x rest hne hstarts hx
    have hr := @recoverLoop_interrupted r options hstatus c g hne hstarts x hx rest
    exact ⟨by rw [hloop, hr], by rw [hrecover, hr, finish_fail]⟩

/-! ## A small manifest -/

def demoOptions : AList (fun _ : List UInt8 => Options) :=
  AList.insert kDefaultColumnFamilyName ⟨[1], 7⟩ ∅

def demoHeader : VersionEdit :=
  { logNumber := some 0, nextFileNumber := some 2, lastSequence := some 0 }

def demoEdit (cf : UInt32) (group : Option UInt32) : VersionEdit :=
  { columnFamily := cf, atomicGroup := group }

/-- Two writers with the two edits of a group. -/
def demoWriter (cf : UInt32) (group : Option UInt32) : ManifestWriter :=
  ⟨cf, demoEdit cf group, [], .inl rfl⟩

/-- The second family of the group is dropped; and a group that is interrupted. -/
theorem atomicGroups_all_or_nothing_dropped :
    (recover demoOptions false ([demoHeader] ++
        (processManifestWrites ⟨0, 3, 5, 1⟩ (fun cf => cf = 1)
          [demoWriter 0 (some 1), demoWriter 1 (some 0)]).take 1) = none) ∧
      recover demoOptions false ([demoHeader] ++ ([demoEdit 0 (some 1)] ++ demoEdit 0 none :: []))
        = some (.corruption "corrupted atomic group" []) := by
  obtain ⟨hwritten, hinterrupted⟩ := @atomicGroups_all_or_nothing demoOptions ⟨[1], 7⟩ rfl false
    [demoHeader] (recoverLoop demoOptions (start ⟨[1], 7⟩) [demoHeader]).r rfl rfl
  refine ⟨?_, ?_⟩
  · obtain ⟨-, -, -, -, -, hok⟩ := (hwritten (by decide) ⟨0, 3, 5, 1⟩ (fun cf => cf = 1)
      (demoWriter 0 (some 1)) [demoWriter 1 (some 0)]).1 rfl
      [[(false, demoEdit 0 (some 1)), (true, demoEdit 1 (some 0))]] rfl
      (by
        intro b hb
        rw [mem_singleton.mp hb]
        exact IsBlock.group _ (cons_ne_nil _ _) (by decide) ⟨rfl, rfl, trivial⟩)
      (by
        intro x hx hlive
        rcases mem_cons.mp hx with rfl | hx
        · exact .family ⟨[1], 7, 0, [(DeletedFileSet.empty, [])], [], false⟩ rfl rfl
            (by decide) rfl (.inl rfl)
            nofun nofun
        · rw [mem_singleton.mp hx] at hlive
          exact nomatch hlive) 1
    exact hok
  · exact (hinterrupted 1 [demoEdit 0 (some 1)] (demoEdit 0 none) [] (cons_ne_nil _ _)
      ⟨rfl, by decide, trivial⟩ (by decide)).2

/-- A group is interrupted in a manifest with a family that is not opened: the corruption
    is not what `Recover` returns. -/
theorem interrupted_group_not_corruption :
    recover demoOptions false
      ([demoHeader, { columnFamily := 1, columnFamilyAdd := some [120] }] ++
        ([demoEdit 0 (some 1)] ++ demoEdit 0 none :: []))
      = some (.invalidArgument
        "You have to open all column families. Column families not opened: " [[120]]) := by
  decide

end AtomicGroup
