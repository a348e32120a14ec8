import MatrixKV.PreparedHeapProofs

/-! # Visibility of prepared data — WritePreparedTxnDB

    Data is written at prepare with its prepare sequence; whether a snapshot sees it is
    inferred from a commit cache of fixed size, the largest evicted commit, the set of
    transactions that were still prepared when that number passed them, what was kept
    of evicted commits for old snapshots, and the smallest uncommitted sequence that a
    snapshot remembers.

    * `Inv` — where the state of each transaction and snapshot is kept.
    * **`visible_always_iff`**: when every snapshot sees just what was committed up to it. -/

namespace WritePrepared

open List EventRun PreparedHeap

/-! ## Commit entries -/

/-- The low bits are cleared: `x & ~((1 << n) - 1)`. -/
def clearLow (n x : Nat) : Nat := x / 2 ^ n * 2 ^ n

/-- `CommitEntry64b` of a cache with `2 ^ bits` entries: `PAD_BITS` is 8, so
    `COMMIT_BITS` is `8 + bits`. -/
def encode (bits prepSeq commitSeq : Nat) : Nat :=
  clearLow (8 + bits) ((prepSeq <<< 8) % 2 ^ 64) ||| (commitSeq - prepSeq + 1)

/-- `Parse`: the low bits of the prepare sequence are the index. -/
def parse (bits indexedSeq rep : Nat) : Option (Nat × Nat) :=
  let delta := rep % 2 ^ (8 + bits)
  if delta = 0 then none
  else
    let prepSeq := (clearLow (8 + bits) rep >>> 8) ||| indexedSeq
    some (prepSeq, prepSeq + delta - 1)

/-- A commit that fits into the packed word is read back from its slot. -/
theorem parse_encode {bits p c : Nat} (hp : p < 2 ^ 56) (hpc : p ≤ c)
    (hdelta : c - p + 1 < 2 ^ (8 + bits)) :
    parse bits (p % 2 ^ bits) (encode bits p c) = some (p, c) := by
  have hpow : 0 < 2 ^ (8 + bits) := Nat.two_pow_pos _
  have hshift : (p <<< 8) % 2 ^ 64 = p * 2 ^ 8 := by
    rw [Nat.shiftLeft_eq]
    exact Nat.mod_eq_of_lt (by omega)
  have hclear : clearLow (8 + bits) (p * 2 ^ 8) = 2 ^ (8 + bits) * (p / 2 ^ bits) := by
    rw [clearLow, Nat.pow_add, Nat.mul_comm (2 ^ 8) (2 ^ bits),
      Nat.mul_div_mul_right _ _ (by decide : 0 < 2 ^ 8), Nat.mul_comm]
  have hrep : encode bits p c = 2 ^ (8 + bits) * (p / 2 ^ bits) + (c - p + 1) := by
    rw [encode, hshift, hclear, Nat.two_pow_add_eq_or_of_lt hdelta]
  have hmod : encode bits p c % 2 ^ (8 + bits) = c - p + 1 := by
    rw [hrep, Nat.mul_add_mod, Nat.mod_eq_of_lt hdelta]
  have hdiv : encode bits p c / 2 ^ (8 + bits) = p / 2 ^ bits := by
    rw [hrep, Nat.mul_add_div hpow, Nat.div_eq_of_lt hdelta, Nat.add_zero]
  have hprep : (clearLow (8 + bits) (encode bits p c) >>> 8) ||| (p % 2 ^ bits) = p := by
    have hup : clearLow (8 + bits) (encode bits p c) >>> 8 = 2 ^ bits * (p / 2 ^ bits) := by
      rw [clearLow, hdiv, Nat.shiftRight_eq_div_pow, Nat.pow_add, Nat.mul_comm (2 ^ 8) (2 ^ bits),
        ← Nat.mul_assoc, Nat.mul_div_cancel _ (by decide : 0 < 2 ^ 8), Nat.mul_comm]
    rw [hup, ← Nat.two_pow_add_eq_or_of_lt (Nat.mod_lt _ (Nat.two_pow_pos _))]
    exact Nat.div_add_mod p (2 ^ bits)
  simp only [parse, hmod, hprep]
  rw [if_neg (Nat.succ_ne_zero _)]
  congr 2
  omega

/-! ## The old commit map -/

/-- `old_commit_map_` with its flag. -/
structure OldCommitMap where
  map : AList (fun _ : Nat => List Nat) := ∅
  empty : Bool := true

/-- The prepare sequences kept for a snapshot. -/
def OldCommitMap.preps (o : OldCommitMap) (snapshotSeq : Nat) : List Nat :=
  (o.map.lookup snapshotSeq).getD []

/-- `vec.insert(upper_bound(..), prep_seq)`. -/
def OldCommitMap.record (o : OldCommitMap) (snapshotSeq prepSeq : Nat) : OldCommitMap :=
  { map := o.map.insert snapshotSeq ((o.preps snapshotSeq).takeWhile (· ≤ prepSeq)
      ++ prepSeq :: (o.preps snapshotSeq).dropWhile (· ≤ prepSeq))
    empty := false }

/-- `std::binary_search` on a sorted vector. -/
def binarySearch (vec : List Nat) (prepSeq : Nat) : Bool :=
  match vec.dropWhile (· < prepSeq) with
  | [] => false
  | x :: _ => x ≤ prepSeq

/-- `MaybeUpdateOldCommitMap`, with whether the search goes on. -/
def maybeUpdateOldCommitMap (prepSeq commitSeq snapshotSeq : Nat) (nextIsLarger : Bool)
    (o : OldCommitMap) : OldCommitMap × Bool :=
  if commitSeq ≤ snapshotSeq then (o, !nextIsLarger)
  else if prepSeq ≤ snapshotSeq then (o.record snapshotSeq prepSeq, true)
  else (o, nextIsLarger)

/-- A loop over snapshots, which may break. -/
def checkLoop (prepSeq commitSeq : Nat) (nextIsLarger : Bool) :
    List Nat → OldCommitMap → OldCommitMap
  | [], o => o
  | s :: ss, o =>
    if (maybeUpdateOldCommitMap prepSeq commitSeq s nextIsLarger o).2 then
      checkLoop prepSeq commitSeq nextIsLarger ss
        (maybeUpdateOldCommitMap prepSeq commitSeq s nextIsLarger o).1
    else (maybeUpdateOldCommitMap prepSeq commitSeq s nextIsLarger o).1

/-- `ReleaseSnapshotInternal`: drops the vector of a snapshot below the maximum. -/
def releaseSnapshotInternal (maxEvictedSeq : Nat) (o : OldCommitMap) (snapSeq : Nat) :
    OldCommitMap :=
  if snapSeq < maxEvictedSeq ∧ snapSeq ∈ o.map then
    ⟨o.map.erase snapSeq, (o.map.erase snapSeq).entries.isEmpty⟩
  else o

/-- The walk of `CleanupReleasedSnapshots` over the two lists. -/
def releasedSnapshots : Nat → List Nat → List Nat → List Nat
  | 0, _, _ => []
  | _ + 1, [], old => old
  | _ + 1, _ :: _, [] => []
  | fuel + 1, n :: ns, o :: os =>
    if n = o then releasedSnapshots fuel (ns.dropWhile (· = n)) (os.dropWhile (· = o))
    else o :: releasedSnapshots fuel (n :: ns) os

/-- `CleanupReleasedSnapshots`: releases what has left the list of snapshots. -/
def cleanupReleasedSnapshots (maxEvictedSeq : Nat) (newSnapshots oldSnapshots : List Nat)
    (o : OldCommitMap) : OldCommitMap :=
  (releasedSnapshots (newSnapshots.length + oldSnapshots.length) newSnapshots
    oldSnapshots).foldl (releaseSnapshotInternal maxEvictedSeq) o

/-! ## The state -/

structure Config where
  snapshotCacheBits : Nat
  commitCacheBits : Nat

def Config.snapshotCacheSize (cfg : Config) : Nat := 2 ^ cfg.snapshotCacheBits

def Config.commitCacheSize (cfg : Config) : Nat := 2 ^ cfg.commitCacheBits

/-- `INC_STEP_FOR_MAX_EVICTED` as `Init` computes it. -/
def Config.incStep (cfg : Config) : Nat := max (cfg.commitCacheSize / 100) 1

structure State where
  preparedTxns : Heap := {}
  delayedPrepared : List Nat := []
  delayedPreparedEmpty : Bool := true
  commitCache : Nat → Nat := fun _ => 0
  maxEvictedSeq : Nat := 0
  snapshotsTotal : Nat := 0
  snapshotCache : List Nat
  snapshots : List Nat := []
  snapshotsAll : List Nat := []
  snapshotsVersion : Nat := 0
  oldCommitMap : OldCommitMap := {}
  /-- of the database: its last sequence, and its snapshots with `min_uncommitted_` -/
  lastSequence : Nat := 0
  liveSnapshots : List (Nat × Nat) := []
  /-- what has happened: who was prepared, and who was committed with which sequence -/
  prepared : List Nat := []
  committed : List (Nat × Nat) := []
  /-- `AddPrepared` has thrown -/
  stopped : Bool := false

section Source

variable (cfg : Config)

def new : State := { snapshotCache := List.replicate cfg.snapshotCacheSize 0 }

/-- `GetCommitEntry`: the commit cached in the slot. -/
def getCommitEntry (st : State) (indexedSeq : Nat) : Option (Nat × Nat) :=
  parse cfg.commitCacheBits indexedSeq (st.commitCache indexedSeq)

/-- `IsInSnapshot`, with its tests in the order of the source. -/
def isInSnapshot (st : State) (prepSeq snapshotSeq minUncommitted : Nat) : Bool :=
  if prepSeq = 0 then true
  else if snapshotSeq < prepSeq then false
  else if !st.delayedPreparedEmpty && decide (prepSeq ∈ st.delayedPrepared) then false
  else if prepSeq < minUncommitted then true
  else
    match (getCommitEntry cfg st (prepSeq % cfg.commitCacheSize)).filter (·.1 = prepSeq) with
    | some cached => cached.2 ≤ snapshotSeq
    | none =>
      if st.maxEvictedSeq < prepSeq then false
      else if st.maxEvictedSeq < snapshotSeq then true
      else if st.oldCommitMap.empty then true
      else !binarySearch (st.oldCommitMap.preps snapshotSeq) prepSeq

/-- `AddPrepared`: a number that is not above the maximum fails its assertion. -/
def addPrepared (st : State) (seq : Nat) : State :=
  if seq ≤ st.maxEvictedSeq then { st with stopped := true }
  else
    { st with
      preparedTxns := st.preparedTxns.push seq
      prepared := seq :: st.prepared
      lastSequence := seq }

/-- `UpdateSnapshots`: the cache first, the rest in a vector. -/
def updateSnapshots (st : State) (snapshots : List Nat) (version : Nat) : State :=
  { st with
    snapshotsVersion := version
    snapshotCache := snapshots.take cfg.snapshotCacheSize
      ++ st.snapshotCache.drop (snapshots.take cfg.snapshotCacheSize).length
    snapshots := snapshots.drop cfg.snapshotCacheSize
    snapshotsTotal := snapshots.length
    oldCommitMap := cleanupReleasedSnapshots st.maxEvictedSeq snapshots st.snapshotsAll
      st.oldCommitMap
    snapshotsAll := snapshots }

/-- `GetSnapshotListFromDB`: the snapshots up to `max`, oldest first. -/
def getSnapshotListFromDB (st : State) (max : Nat) : List Nat :=
  (st.liveSnapshots.map Prod.fst).takeWhile (· ≤ max)

/-- `AdvanceMaxEvictedSeq`: the prepared numbers it passes become delayed ones. -/
def advanceMaxEvictedSeq (st : State) (newMax : Nat) : State :=
  let moved := popUpTo newMax st.preparedTxns.heap.length st.preparedTxns st.delayedPrepared
  let st := { st with
    preparedTxns := moved.1
    delayedPrepared := moved.2
    delayedPreparedEmpty := st.delayedPreparedEmpty &&
      st.preparedTxns.heap.head?.all (fun top => newMax < top) }
  let st :=
    if newMax > st.snapshotsVersion then updateSnapshots cfg st
      (getSnapshotListFromDB st newMax) newMax
    else st
  { st with maxEvictedSeq := max st.maxEvictedSeq newMax }

/-- `CheckAgainstSnapshots`: the cache, then the vector if it may matter. -/
def checkAgainstSnapshots (st : State) (prepSeq commitSeq : Nat) : State :=
  let cnt := st.snapshotsTotal
  let n := min cnt cfg.snapshotCacheSize
  let searchLargerList := decide (n = cfg.snapshotCacheSize) &&
    decide (st.snapshotCache.getD (n - 1) 0 < commitSeq)
  let o := checkLoop prepSeq commitSeq false (st.snapshotCache.take n).reverse st.oldCommitMap
  { st with
    oldCommitMap :=
      if cfg.snapshotCacheSize < cnt ∧ searchLargerList = true then
        checkLoop prepSeq commitSeq true st.snapshots
          (checkLoop prepSeq commitSeq true st.snapshotCache o)
      else o }

/-- The eviction in `AddCommitted`. -/
def evict (st : State) (evicted : Nat × Nat) : State :=
  checkAgainstSnapshots cfg
    (if st.maxEvictedSeq < evicted.2 then advanceMaxEvictedSeq cfg st (evicted.2 + cfg.incStep)
      else st) evicted.1 evicted.2

/-- `AddCommitted`: what it evicts goes through the snapshots. -/
def addCommitted (st : State) (prepareSeq commitSeq : Nat) : State :=
  let indexedSeq := prepareSeq % cfg.commitCacheSize
  let st :=
    match getCommitEntry cfg st indexedSeq with
    | none => st
    | some evicted => evict cfg st evicted
  { st with
    commitCache := Function.update st.commitCache indexedSeq
      (encode cfg.commitCacheBits prepareSeq commitSeq) }

/-- `RemovePrepared`: from the heap and from the delayed numbers. -/
def removePrepared (st : State) (prepareSeq : Nat) : State :=
  let st := { st with preparedTxns := st.preparedTxns.erase prepareSeq }
  if st.delayedPrepared.isEmpty then st
  else
    { st with
      delayedPrepared := st.delayedPrepared.filter (· ≠ prepareSeq)
      delayedPreparedEmpty :=
        (st.delayedPrepared.filter (· ≠ prepareSeq)).isEmpty || st.delayedPreparedEmpty }

/-- `SmallestUnCommittedSeq`: the top of the heap, at most the next number. -/
def smallestUnCommittedSeq (st : State) : Nat :=
  match st.preparedTxns.heap with
  | [] => st.lastSequence + 1
  | top :: _ => min top (st.lastSequence + 1)

/-- `GetSnapshot`, with the smallest uncommitted number of its time. -/
def getSnapshot (st : State) : State :=
  { st with liveSnapshots := st.liveSnapshots ++ [(st.lastSequence, smallestUnCommittedSeq st)] }

inductive Event
  | addPrepared (p : Nat)
  /-- `AddCommitted(p, c)` and `RemovePrepared(p)` -/
  | commit (p c : Nat)
  | getSnapshot
  | releaseSnapshot (i : Nat)

def step (st : State) (e : Event) : State :=
  if st.stopped then st
  else
    match e with
    | .addPrepared p => addPrepared st p
    | .commit p c =>
      { removePrepared (addCommitted cfg st p c) p with
        committed := (p, c) :: st.committed
        lastSequence := c }
    | .getSnapshot => getSnapshot st
    | .releaseSnapshot i => { st with liveSnapshots := st.liveSnapshots.eraseIdx i }

/-! ## What is asked -/

/-- Sequence numbers have 56 bits and are handed out increasing; who commits is prepared,
    and the distance of its two sequences fits into an entry. -/
def Allowed (st : State) : Event → Prop
  | .addPrepared p => st.lastSequence < p ∧ p < 2 ^ 56
  | .commit p c => p ∈ st.prepared ∧ p ∉ st.committed.map Prod.fst ∧ st.lastSequence ≤ c ∧
      c < 2 ^ 56 ∧ c - p + 1 < 2 ^ (8 + cfg.commitCacheBits)
  | .getSnapshot => True
  | .releaseSnapshot _ => True

instance (st : State) (e : Event) : Decidable (Allowed cfg st e) :=
  match e with
  | .addPrepared _ => inferInstanceAs (Decidable (_ ∧ _))
  | .commit _ _ => inferInstanceAs (Decidable (_ ∧ _ ∧ _ ∧ _ ∧ _))
  | .getSnapshot => inferInstanceAs (Decidable True)
  | .releaseSnapshot _ => inferInstanceAs (Decidable True)

/-- Every snapshot sees what was committed up to it. -/
def Visible (st : State) : Prop :=
  ∀ snap ∈ st.liveSnapshots, ∀ p ∈ st.prepared,
    (isInSnapshot cfg st p snap.1 snap.2 = true ↔ ∃ c ≤ snap.1, (p, c) ∈ st.committed)

/-- A transaction is committed that an older snapshot, taken while it was delayed, does
    not count as uncommitted. -/
def Forgotten (st : State) : Event → Prop
  | .commit p c => st.stopped = false ∧ ∃ snap ∈ st.liveSnapshots, p < snap.2 ∧ snap.1 < c
  | _ => False

instance (st : State) (e : Event) : Decidable (Forgotten st e) :=
  match e with
  | .addPrepared _ => inferInstanceAs (Decidable False)
  | .commit _ _ => inferInstanceAs (Decidable (_ ∧ ∃ snap ∈ _, _ ∧ _))
  | .getSnapshot => inferInstanceAs (Decidable False)
  | .releaseSnapshot _ => inferInstanceAs (Decidable False)

end Source

/-! ## The old commit map and the snapshot list -/

/-- The vectors are sorted and the flag is right. -/
structure OldCommitMap.OK (o : OldCommitMap) : Prop where
  sorted : ∀ s, (o.preps s).Pairwise (· ≤ ·)
  empty : o.empty = true → ∀ s, o.preps s = []

/-- `std::binary_search` on a sorted vector is membership. -/
theorem binarySearch_iff {vec : List Nat} (h : vec.Pairwise (· ≤ ·)) (p : Nat) :
    binarySearch vec p = true ↔ p ∈ vec := by
  induction vec with
  | nil => exact ⟨nofun, nofun⟩
  | cons x xs ih =>
  obtain ⟨hx, hxs⟩ := pairwise_cons.mp h
  rw [binarySearch]
  by_cases hlt : x < p
  · rw [dropWhile_cons, if_pos (decide_eq_true hlt), mem_cons]
    exact (ih hxs).trans ⟨.inr, fun h => h.resolve_left (Nat.ne_of_lt hlt).symm⟩
  rw [dropWhile_cons_of_neg (by simpa using hlt)]
  show decide (x ≤ p) = true ↔ _
  rw [decide_eq_true_iff, mem_cons]
  constructor
  · exact fun hle => .inl (Nat.le_antisymm (Nat.le_of_not_lt hlt) hle)
  · rintro (rfl | hmem)
    · exact le_rfl
    · exact hx p hmem

section OldMap

variable {o : OldCommitMap}

theorem preps_record (s p t : Nat) : (o.record s p).preps t =
    if t = s then (o.preps s).takeWhile (· ≤ p) ++ p :: (o.preps s).dropWhile (· ≤ p)
    else o.preps t := by
  by_cases hts : t = s
  · subst hts
    rw [if_pos rfl, OldCommitMap.preps, OldCommitMap.record, AList.lookup_insert]
    rfl
  · rw [if_neg hts, OldCommitMap.preps, OldCommitMap.record, AList.lookup_insert_ne hts]
    rfl

/-- Recording adds one prepare number to one snapshot. -/
theorem mem_preps_record {s p t x : Nat} :
    x ∈ (o.record s p).preps t ↔ x ∈ o.preps t ∨ (x = p ∧ t = s) := by
  rw [preps_record]
  by_cases hts : t = s
  · subst hts
    rw [if_pos rfl, mem_append, mem_cons]
    have hsplit : x ∈ o.preps t ↔ x ∈ (o.preps t).takeWhile (· ≤ p) ∨
        x ∈ (o.preps t).dropWhile (· ≤ p) := by
      rw [← mem_append, takeWhile_append_dropWhile]
    rw [hsplit]
    constructor
    · rintro (h | h | h)
      · exact .inl (.inl h)
      · exact .inr ⟨h, rfl⟩
      · exact .inl (.inr h)
    · rintro ((h | h) | h)
      · exact .inl h
      · exact .inr (.inr h)
      · exact .inr (.inl h.1)
  · rw [if_neg hts]
    exact ⟨.inl, fun h => h.resolve_right (fun h => hts h.2)⟩

theorem OldCommitMap.OK.record (h : o.OK) (s p : Nat) : (o.record s p).OK where
  sorted := by
    intro t
    rw [preps_record]
    split_ifs with hts
    · have hsorted := h.sorted s
      rw [← @takeWhile_append_dropWhile _ (· ≤ p) (o.preps s)] at hsorted
      obtain ⟨htake, hdrop, hcross⟩ := pairwise_append.mp hsorted
      have hlow : ∀ x ∈ (o.preps s).takeWhile (· ≤ p), x ≤ p := by
        intro x hx
        have hle := mem_takeWhile_imp hx
        exact of_decide_eq_true hle
      have hhigh : ∀ x ∈ (o.preps s).dropWhile (· ≤ p), p ≤ x := by
        intro x hx
        cases hd : (o.preps s).dropWhile (· ≤ p) with
        | nil =>
          rw [hd] at hx
          exact nomatch hx
        | cons y ys =>
        have hy : ¬ (y ≤ p) := by
          have hhead := head?_dropWhile_not (· ≤ p) (o.preps s)
          rw [hd] at hhead
          simpa using hhead
        rw [hd] at hx hdrop
        rcases mem_cons.mp hx with rfl | hx
        · exact Nat.le_of_not_le hy
        · exact (Nat.le_of_not_le hy).trans ((pairwise_cons.mp hdrop).1 x hx)
      refine pairwise_append.mpr ⟨htake, pairwise_cons.mpr ⟨hhigh, hdrop⟩, ?_⟩
      intro x hx y hy
      rcases mem_cons.mp hy with rfl | hy
      · exact hlow x hx
      · exact hcross x hx y hy
    · exact h.sorted t
  empty := nofun

/-- A loop over sorted snapshots records the entry for those between its two
    sequences. -/
theorem mem_preps_checkLoop {p c : Nat} {nextIsLarger : Bool} {ss : List Nat}
    (hsorted : ss.Pairwise (fun a b => if nextIsLarger then a ≤ b else b ≤ a)) (t x : Nat) :
    x ∈ (checkLoop p c nextIsLarger ss o).preps t ↔
      x ∈ o.preps t ∨ (x = p ∧ t ∈ ss ∧ p ≤ t ∧ t < c) := by
  induction ss generalizing o with
  | nil => exact ⟨.inl, fun h => h.resolve_right (fun h => nomatch h.2.1)⟩
  | cons s ss ih =>
  obtain ⟨hs, hss⟩ := pairwise_cons.mp hsorted
  -- the loop passes a snapshot that is not between the two sequences, and it ends where
  -- all later ones are on its side
  have hskip : ¬ (p ≤ s ∧ s < c) → (x ∈ o.preps t ∨ (x = p ∧ t ∈ ss ∧ p ≤ t ∧ t < c) ↔
      x ∈ o.preps t ∨ (x = p ∧ t ∈ s :: ss ∧ p ≤ t ∧ t < c)) := by
    intro hnot
    refine or_congr_right (and_congr_right (fun _ => ?_))
    refine ⟨fun h => ⟨.tail _ h.1, h.2⟩, fun h => ⟨?_, h.2⟩⟩
    refine (mem_cons.mp h.1).resolve_left ?_
    rintro rfl
    exact hnot h.2
  rw [checkLoop, maybeUpdateOldCommitMap]
  by_cases hcs : c ≤ s
  · -- committed for this snapshot
    rw [if_pos hcs]
    cases nextIsLarger with
    | true =>
      refine ⟨.inl, fun h => h.resolve_right ?_⟩
      rintro ⟨-, ht, -, htc⟩
      rcases mem_cons.mp ht with rfl | ht
      · exact absurd htc (Nat.not_lt_of_le hcs)
      · exact absurd htc (Nat.not_lt_of_le (hcs.trans (hs t ht)))
    | false => exact (ih hss).trans (hskip (fun h => absurd h.2 (Nat.not_lt_of_le hcs)))
  rw [if_neg hcs]
  by_cases hps : p ≤ s
  · rw [if_pos hps]
    refine (ih hss).trans ?_
    rw [mem_preps_record, or_assoc]
    refine or_congr_right ?_
    constructor
    · rintro (⟨rfl, rfl⟩ | ⟨rfl, ht, hlt⟩)
      · exact ⟨rfl, .head _, hps, Nat.lt_of_not_le hcs⟩
      · exact ⟨rfl, .tail _ ht, hlt⟩
    · rintro ⟨rfl, ht, hlt⟩
      exact (mem_cons.mp ht).imp (fun h => ⟨rfl, h⟩) (fun h => ⟨rfl, h, hlt⟩)
  · -- taken before the entry was prepared
    rw [if_neg hps]
    cases nextIsLarger with
    | true => exact (ih hss).trans (hskip (fun h => hps h.1))
    | false =>
    refine ⟨.inl, fun h => h.resolve_right ?_⟩
    rintro ⟨-, ht, hpt, -⟩
    rcases mem_cons.mp ht with rfl | ht
    · exact hps hpt
    · exact hps (hpt.trans (hs t ht))

theorem OldCommitMap.OK.checkLoop (h : o.OK) (p c : Nat) (nextIsLarger : Bool) (ss : List Nat) :
    (checkLoop p c nextIsLarger ss o).OK := by
  induction ss generalizing o with
  | nil => exact h
  | cons s ss ih =>
  have hone : (maybeUpdateOldCommitMap p c s nextIsLarger o).1.OK := by
    rw [maybeUpdateOldCommitMap]
    split
    · exact h
    split
    · exact h.record s p
    · exact h
  rw [WritePrepared.checkLoop]
  split
  · exact ih hone
  · exact hone

/-- Releasing a snapshot leaves the others alone, -/
theorem preps_release {max s t : Nat} (h : t ≠ s) :
    (releaseSnapshotInternal max o s).preps t = o.preps t := by
  rw [releaseSnapshotInternal]
  split
  · rw [OldCommitMap.preps, OldCommitMap.preps, AList.lookup_erase_ne h]
  · rfl

/-- and empties its own vector or keeps it. -/
theorem preps_release_self {max s : Nat} :
    (releaseSnapshotInternal max o s).preps s = [] ∨
      (releaseSnapshotInternal max o s).preps s = o.preps s := by
  rw [releaseSnapshotInternal]
  split
  · refine .inl ?_
    rw [OldCommitMap.preps, AList.lookup_erase]
    rfl
  · exact .inr rfl

theorem preps_release_or (max s t : Nat) :
    (releaseSnapshotInternal max o s).preps t = [] ∨
      (releaseSnapshotInternal max o s).preps t = o.preps t := by
  by_cases hts : t = s
  · subst hts
    exact preps_release_self
  · exact .inr (preps_release hts)

theorem OldCommitMap.OK.release (h : o.OK) (max s : Nat) :
    (releaseSnapshotInternal max o s).OK := by
  constructor
  · intro t
    rcases @preps_release_or o max s t with heq | heq
    · rw [heq]
      exact .nil
    · rw [heq]
      exact h.sorted t
  intro hempty t
  rw [releaseSnapshotInternal] at hempty ⊢
  split at hempty
  · rename_i hcond
    rw [if_pos hcond]
    have hnil := List.isEmpty_iff.mp hempty
    rw [OldCommitMap.preps, AList.lookup]
    show (List.dlookup t (o.map.erase s).entries).getD [] = []
    rw [hnil]
    rfl
  · rename_i hcond
    rw [if_neg hcond]
    exact h.empty hempty t

theorem OldCommitMap.OK.releaseAll (h : o.OK) (max : Nat) (ss : List Nat) :
    (ss.foldl (releaseSnapshotInternal max) o).OK := by
  induction ss generalizing o with
  | nil => exact h
  | cons s ss ih => exact ih (h.release max s)

/-- Only what is released is forgotten. -/
theorem preps_releaseAll (max : Nat) {ss : List Nat} {t : Nat} (ht : t ∉ ss) :
    (ss.foldl (releaseSnapshotInternal max) o).preps t = o.preps t := by
  induction ss generalizing o with
  | nil => rfl
  | cons s ss ih =>
    rw [mem_cons, not_or] at ht
    exact (ih ht.2).trans (preps_release ht.1)

theorem mem_of_mem_preps_releaseAll (max : Nat) {ss : List Nat} {t x : Nat}
    (hx : x ∈ (ss.foldl (releaseSnapshotInternal max) o).preps t) : x ∈ o.preps t := by
  induction ss generalizing o with
  | nil => exact hx
  | cons s ss ih =>
  have hx' := ih hx
  rcases @preps_release_or o max s t with heq | heq
  · rw [heq] at hx'
    exact nomatch hx'
  · rw [heq] at hx'
    exact hx'

end OldMap

/-- The elements behind those that are equal to the head of a sorted list. -/
theorem mem_dropWhile_eq {x : Nat} {xs : List Nat} (h : (x :: xs).Pairwise (· ≤ ·)) {y : Nat} :
    y ∈ xs.dropWhile (· = x) ↔ y ∈ xs ∧ y ≠ x := by
  induction xs with
  | nil => exact ⟨nofun, fun h => (nomatch h.1)⟩
  | cons z zs ih =>
  obtain ⟨hx, hzs⟩ := pairwise_cons.mp h
  by_cases hz : z = x
  · rw [dropWhile_cons, if_pos (decide_eq_true hz), mem_cons,
      ih (pairwise_cons.mpr ⟨fun w hw => hx w (.tail _ hw), (pairwise_cons.mp hzs).2⟩)]
    subst hz
    exact ⟨fun h => ⟨.inr h.1, h.2⟩, fun h => ⟨h.1.resolve_left h.2, h.2⟩⟩
  rw [dropWhile_cons_of_neg (by simpa using hz)]
  refine ⟨fun hy => ⟨hy, ?_⟩, fun h => h.1⟩
  rintro rfl
  rcases mem_cons.mp hy with rfl | hy
  · exact hz rfl
  · exact hz (Nat.le_antisymm ((pairwise_cons.mp hzs).1 _ hy)
      (hx z (.head _)))

/-- Only snapshots of the old list are released. -/
theorem mem_old_of_released {fuel : Nat} {new old : List Nat} {x : Nat}
    (hx : x ∈ releasedSnapshots fuel new old) : x ∈ old := by
  fun_induction releasedSnapshots fuel new old with
  | case1 => exact nomatch hx
  | case2 => exact hx
  | case3 => exact nomatch hx
  | case4 fuel ns n os ih => exact .tail _ ((dropWhile_sublist _).subset (ih hx))
  | case5 fuel n ns o os _ ih =>
  rcases mem_cons.mp hx with rfl | hx
  · exact .head _
  · exact .tail _ (ih hx)

/-- Released is only what the new list does not have, if what is new in it is not below
    the old ones. -/
theorem not_mem_released {fuel : Nat} {new old : List Nat} (hnew : new.Pairwise (· ≤ ·))
    (hold : old.Pairwise (· ≤ ·)) (hfresh : ∀ n ∈ new, n ∉ old → ∀ o ∈ old, o ≤ n) (t : Nat)
    (ht : t ∈ new) : t ∉ releasedSnapshots fuel new old := by
  intro hrel
  fun_induction releasedSnapshots fuel new old with
  | case1 => exact nomatch hrel
  | case2 => exact nomatch ht
  | case3 => exact nomatch hrel
  | case4 fuel ns n os ih =>
    have hns' := hnew.of_cons.sublist (dropWhile_sublist (· = n))
    have hos' := hold.of_cons.sublist (dropWhile_sublist (· = n))
    have hfresh' : ∀ m ∈ ns.dropWhile (· = n), m ∉ os.dropWhile (· = n) →
        ∀ o ∈ os.dropWhile (· = n), o ≤ m := by
      intro m hm hmos o' ho'
      obtain ⟨hm, hmn⟩ := (mem_dropWhile_eq hnew).mp hm
      refine hfresh m (.tail _ hm) ?_ o'
        (.tail _ ((mem_dropWhile_eq hold).mp ho').1)
      intro hmold
      rcases mem_cons.mp hmold with h | h
      · exact hmn h
      · exact hmos ((mem_dropWhile_eq hold).mpr ⟨h, hmn⟩)
    by_cases htn : t = n
    · -- the rest of both lists is larger
      subst htn
      exact ((mem_dropWhile_eq hold).mp (mem_old_of_released hrel)).2 rfl
    · have htns := (mem_cons.mp ht).resolve_left htn
      exact ih hns' hos' hfresh' ((mem_dropWhile_eq hnew).mpr ⟨htns, htn⟩) hrel
  | case5 fuel n ns o os heq ih =>
    obtain ⟨hn, -⟩ := pairwise_cons.mp hnew
    obtain ⟨ho, hos⟩ := pairwise_cons.mp hold
    have hlt : o < n := by
      refine Nat.lt_of_le_of_ne ?_ (Ne.symm heq)
      by_cases hmem : n ∈ o :: os
      · exact ho n ((mem_cons.mp hmem).resolve_left heq)
      · exact hfresh n (.head _) hmem o (.head _)
    have hnot : ∀ m ∈ n :: ns, m ≠ o := by
      intro m hm hmo
      rcases mem_cons.mp hm with rfl | hm
      · exact heq hmo
      · exact absurd (hn m hm) (Nat.not_le_of_lt (hmo ▸ hlt))
    rcases mem_cons.mp hrel with h | hrel
    · exact hnot t ht h
    refine ih hnew hos ?_ ht hrel
    intro m hm hmos o' ho'
    refine hfresh m hm ?_ o' (.tail _ ho')
    intro hmold
    rcases mem_cons.mp hmold with h | h
    · exact hnot m hm h
    · exact hmos h

/-! ## The invariant -/

/-- The parts of the snapshot list hold `snapshots_all_`. -/
structure Listed (cfg : Config) (st : State) : Prop where
  total : st.snapshotsTotal = st.snapshotsAll.length
  size : st.snapshotCache.length = cfg.snapshotCacheSize
  cache : st.snapshotCache.take (min st.snapshotsAll.length cfg.snapshotCacheSize)
    = st.snapshotsAll.take cfg.snapshotCacheSize
  rest : st.snapshots = st.snapshotsAll.drop cfg.snapshotCacheSize
  sorted : st.snapshotsAll.Pairwise (· ≤ ·)

structure Inv (cfg : Config) (st : State) : Prop where
  heap : WF st.preparedTxns
  heapLe : ∀ x ∈ st.preparedTxns.heap, x ≤ st.lastSequence
  open_iff : ∀ p, p ∈ st.prepared ∧ p ∉ st.committed.map Prod.fst ↔
    p ∈ st.preparedTxns.live ∨ p ∈ st.delayedPrepared
  above : ∀ p ∈ st.preparedTxns.live, st.maxEvictedSeq < p
  below : ∀ p ∈ st.delayedPrepared, p ≤ st.maxEvictedSeq
  delayedEmpty : st.delayedPreparedEmpty = st.delayedPrepared.isEmpty
  prepared : ∀ p ∈ st.prepared, 0 < p ∧ p ≤ st.lastSequence
  committed : ∀ p c, (p, c) ∈ st.committed → p ∈ st.prepared ∧ p ≤ c ∧ c ≤ st.lastSequence
  once : (st.committed.map Prod.fst).Nodup
  cached : ∀ i p c, getCommitEntry cfg st i = some (p, c) →
    (p, c) ∈ st.committed ∧ p % cfg.commitCacheSize = i
  /-- an evicted commit is kept for the snapshots that do not see it -/
  evicted : ∀ p c, (p, c) ∈ st.committed →
    getCommitEntry cfg st (p % cfg.commitCacheSize) = some (p, c) ∨
    (c ≤ st.maxEvictedSeq ∧ ∀ snap ∈ st.liveSnapshots, p ≤ snap.1 → snap.1 < c →
      p ∈ st.oldCommitMap.preps snap.1)
  old : ∀ s p, p ∈ st.oldCommitMap.preps s → ∃ c, (p, c) ∈ st.committed ∧ p ≤ s ∧ s < c
  oldOK : st.oldCommitMap.OK
  snapshots : (st.liveSnapshots.map Prod.fst).Pairwise (· ≤ ·)
  snapshotLe : ∀ snap ∈ st.liveSnapshots, snap.1 ≤ st.lastSequence ∧ snap.2 ≤ snap.1 + 1
  listed : Listed cfg st
  listedLe : ∀ s ∈ st.snapshotsAll, s ≤ st.maxEvictedSeq ∧ s ≤ st.lastSequence
  version : st.snapshotsVersion = st.maxEvictedSeq
  /-- what is not in the list was taken after it -/
  newer : ∀ snap ∈ st.liveSnapshots, snap.1 ∉ st.snapshotsAll → ∀ s ∈ st.snapshotsAll, s ≤ snap.1
  heapMin : ∀ snap ∈ st.liveSnapshots, ∀ p ∈ st.preparedTxns.live, snap.2 ≤ p
  commitMin : ∀ snap ∈ st.liveSnapshots, ∀ p c, (p, c) ∈ st.committed → p < snap.2 → c ≤ snap.1
  /-- a snapshot below the largest evicted sequence that the list does not know was taken
      when everything before it was committed or delayed -/
  late : ∀ snap ∈ st.liveSnapshots, snap.1 ≤ st.maxEvictedSeq → snap.1 ∉ st.snapshotsAll →
    (∀ p ∈ st.delayedPrepared, p ≤ snap.1 → p < snap.2) ∧
    ∀ p c, (p, c) ∈ st.committed → p ≤ snap.1 → c ≤ snap.1

section Steps

variable {cfg : Config} {st : State}

theorem inv_new (cfg : Config) : Inv cfg (new cfg) where
  heap := wf_empty
  heapLe := nofun
  open_iff := fun p => ⟨fun h => (nomatch h.1), fun h => h.elim nofun nofun⟩
  above := nofun
  below := nofun
  delayedEmpty := rfl
  prepared := nofun
  committed := nofun
  once := nodup_nil
  cached := by
    intro i p c h
    have hnone : getCommitEntry cfg (new cfg) i = none := by
      show parse cfg.commitCacheBits i 0 = none
      simp [parse]
    rw [hnone] at h
    exact nomatch h
  evicted := nofun
  old := nofun
  oldOK := ⟨fun _ => .nil, fun _ _ => rfl⟩
  snapshots := .nil
  snapshotLe := nofun
  listed := ⟨rfl, length_replicate, by simp [new], drop_nil.symm, .nil⟩
  listedLe := nofun
  version := rfl
  newer := nofun
  heapMin := nofun
  commitMin := nofun
  late := nofun

/-- A transaction commits once. -/
theorem Inv.commit_unique (h : Inv cfg st) {p c c' : Nat} (hc : (p, c) ∈ st.committed)
    (hc' : (p, c') ∈ st.committed) : c = c' :=
  (Prod.mk.inj (inj_on_of_nodup_map h.once hc hc' rfl)).2

/-- What a snapshot sees of a commit that was evicted. -/
theorem Inv.evicted_visible (h : Inv cfg st) {p c : Nat} (hpc : (p, c) ∈ st.committed)
    {snap : Nat × Nat} (hsnap : snap ∈ st.liveSnapshots) (hp : p ≤ snap.1)
    (hnot : getCommitEntry cfg st (p % cfg.commitCacheSize) ≠ some (p, c)) :
    c ≤ st.maxEvictedSeq ∧ (p ∈ st.oldCommitMap.preps snap.1 ↔ ¬ c ≤ snap.1) := by
  obtain ⟨hmax, hkept⟩ := (h.evicted p c hpc).resolve_left hnot
  refine ⟨hmax, fun hmem hle => ?_, fun hlt => hkept snap hsnap hp (Nat.lt_of_not_le hlt)⟩
  obtain ⟨c', hc', -, hlt⟩ := h.old snap.1 p hmem
  exact absurd hle (Nat.not_le_of_lt (h.commit_unique hc' hpc ▸ hlt))

/-- The cache has no entry of `p` unless one of its commits is there. -/
theorem Inv.not_cached (h : Inv cfg st) {p : Nat} (hnot : ∀ c, (p, c) ∈ st.committed →
      getCommitEntry cfg st (p % cfg.commitCacheSize) ≠ some (p, c)) :
    (getCommitEntry cfg st (p % cfg.commitCacheSize)).filter (·.1 = p) = none := by
  rw [Option.filter_eq_none_iff]
  rintro ⟨q, d⟩ hqd hq
  have hq' : q = p := by simpa using hq
  subst hq'
  have hentry := Option.mem_def.mp hqd
  exact hnot d (h.cached _ q d hentry).1 hentry

/-- **THE INVARIANT SETTLES VISIBILITY.** -/
theorem Inv.visible (h : Inv cfg st) : Visible cfg st := by
  intro snap hsnap p hp
  obtain ⟨hpos, -⟩ := h.prepared p hp
  rw [isInSnapshot, if_neg (Nat.ne_of_gt hpos)]
  by_cases hsp : snap.1 < p
  · -- prepared after the snapshot
    rw [if_pos hsp]
    refine iff_of_false Bool.false_ne_true ?_
    rintro ⟨c, hc, hpc⟩
    exact absurd ((h.committed p c hpc).2.1.trans hc) (Nat.not_le_of_lt hsp)
  have hps : p ≤ snap.1 := Nat.le_of_not_lt hsp
  rw [if_neg hsp, h.delayedEmpty]
  by_cases hcommitted : p ∈ st.committed.map Prod.fst
  · obtain ⟨⟨p', c⟩, hpc, hfst⟩ := mem_map.mp hcommitted
    obtain rfl : p' = p := hfst
    have hiff : (∃ c' ≤ snap.1, (p', c') ∈ st.committed) ↔ c ≤ snap.1 :=
      ⟨fun ⟨c', hle, hc'⟩ => h.commit_unique hpc hc' ▸ hle, fun hle => ⟨c, hle, hpc⟩⟩
    have hdelayed : p' ∉ st.delayedPrepared :=
      fun hmem => ((h.open_iff p').mpr (.inr hmem)).2 hcommitted
    rw [hiff, if_neg (by simp [hdelayed])]
    split
    · rename_i hmin
      exact iff_of_true rfl (h.commitMin snap hsnap p' c hpc hmin)
    by_cases hcache : getCommitEntry cfg st (p' % cfg.commitCacheSize) = some (p', c)
    · have hfilter : (some (p', c)).filter (·.1 = p') = some (p', c) := by simp
      rw [hcache, hfilter]
      exact decide_eq_true_iff
    obtain ⟨hmax, hold⟩ := h.evicted_visible hpc hsnap hps hcache
    rw [h.not_cached (fun d hd => h.commit_unique hpc hd ▸ hcache)]
    show (if st.maxEvictedSeq < p' then _ else _ : Bool) = true ↔ _
    rw [if_neg (Nat.not_lt_of_le ((h.committed p' c hpc).2.1.trans hmax))]
    split
    · rename_i hms
      exact iff_of_true rfl (hmax.trans hms.le)
    cases hempty : st.oldCommitMap.empty with
    | true =>
      refine iff_of_true rfl ?_
      by_contra hlt
      have hmem := hold.mpr hlt
      rw [h.oldOK.empty hempty] at hmem
      exact nomatch hmem
    | false =>
    show (!binarySearch _ _) = true ↔ _
    rw [Bool.not_eq_true', ← Bool.not_eq_true,
      binarySearch_iff (h.oldOK.sorted snap.1), hold, not_not]
  · -- still prepared
    have hnone : ¬ ∃ c ≤ snap.1, (p, c) ∈ st.committed :=
      fun ⟨c, _, hpc⟩ => hcommitted (mem_map_of_mem hpc)
    refine iff_of_false ?_ hnone
    rcases (h.open_iff p).mp ⟨hp, hcommitted⟩ with hheap | hdelayed
    · have hdelayed : p ∉ st.delayedPrepared :=
        fun hmem => absurd (h.below p hmem) (Nat.not_le_of_lt (h.above p hheap))
      rw [if_neg (by simp [hdelayed]), if_neg (Nat.not_lt_of_le (h.heapMin snap hsnap p hheap))]
      rw [h.not_cached (fun c hpc => absurd (mem_map_of_mem hpc) hcommitted)]
      show ¬ (if st.maxEvictedSeq < p then _ else _ : Bool) = true
      rw [if_pos (h.above p hheap)]
      exact Bool.false_ne_true
    have hne : st.delayedPrepared.isEmpty = false := by
      cases hd : st.delayedPrepared with
      | nil =>
        rw [hd] at hdelayed
        exact nomatch hdelayed
      | cons x xs => rfl
    rw [if_pos (by simp [hne, hdelayed])]
    exact Bool.false_ne_true

/-! ## Advancing the largest evicted sequence -/

/-- The snapshots of the database up to `max`. -/
theorem mem_getSnapshotListFromDB (h : (st.liveSnapshots.map Prod.fst).Pairwise (· ≤ ·))
    {max s : Nat} : s ∈ getSnapshotListFromDB st max ↔ s ∈ st.liveSnapshots.map Prod.fst ∧
      s ≤ max := by
  rw [getSnapshotListFromDB]
  generalize st.liveSnapshots.map Prod.fst = l at h
  induction l with
  | nil => exact ⟨nofun, fun h => (nomatch h.1)⟩
  | cons x xs ih =>
  obtain ⟨hx, hxs⟩ := pairwise_cons.mp h
  rw [takeWhile_cons]
  by_cases hle : x ≤ max
  · rw [if_pos (decide_eq_true hle), mem_cons, ih hxs, mem_cons]
    constructor
    · rintro (rfl | ⟨hs, hmax⟩)
      · exact ⟨.inl rfl, hle⟩
      · exact ⟨.inr hs, hmax⟩
    · rintro ⟨rfl | hs, hmax⟩
      · exact .inl rfl
      · exact .inr ⟨hs, hmax⟩
  · rw [if_neg (by simpa using hle)]
    refine ⟨nofun, ?_⟩
    rintro ⟨hs, hmax⟩
    rcases mem_cons.mp hs with rfl | hs
    · exact absurd hmax hle
    · exact absurd ((hx s hs).trans hmax) hle

theorem listed_updateSnapshots (hsize : st.snapshotCache.length = cfg.snapshotCacheSize)
    {snapshots : List Nat} (hsorted : snapshots.Pairwise (· ≤ ·)) (version : Nat) :
    Listed cfg (updateSnapshots cfg st snapshots version) where
  total := rfl
  size := by
    show (snapshots.take _ ++ st.snapshotCache.drop _).length = _
    rw [length_append, length_drop, hsize, length_take]
    omega
  cache := by
    show (snapshots.take _ ++ st.snapshotCache.drop _).take (min snapshots.length _)
      = snapshots.take _
    rw [take_append_of_le_length (by rw [length_take]; omega), take_take]
    conv_rhs => rw [take_eq_take_min]
    congr 1
    omega
  rest := rfl
  sorted := hsorted

/-- The flag after some transactions were moved. -/
theorem delayedEmpty_moved {heap : Heap} {delayed moved : List Nat} {newMax : Nat} {flag : Bool}
    (hwf : WF heap) (hflag : flag = delayed.isEmpty)
    (hmoved : ∀ x, x ∈ moved ↔ x ∈ delayed ∨ (x ∈ heap.live ∧ x ≤ newMax)) :
    (flag && heap.heap.head?.all (fun top => newMax < top)) = moved.isEmpty := by
  have hempty : moved.isEmpty = true ↔ ∀ x, x ∉ moved := by
    rw [List.isEmpty_iff, eq_nil_iff_forall_not_mem]
  rw [Bool.eq_iff_iff, hempty, Bool.and_eq_true, hflag, List.isEmpty_iff]
  constructor
  · rintro ⟨rfl, hall⟩ x hx
    rcases (hmoved x).mp hx with hx | ⟨hx, hle⟩
    · exact nomatch hx
    cases hheap : heap.heap with
    | nil =>
      have hmem := (mem_live.mp hx).1
      rw [hheap] at hmem
      exact nomatch hmem
    | cons t ts =>
    rw [hheap] at hall
    have hlt : newMax < t := of_decide_eq_true hall
    exact absurd (((hwf.top_live hheap).2 x hx).trans hle) (Nat.not_le_of_lt hlt)
  · intro hnone
    refine ⟨eq_nil_iff_forall_not_mem.mpr (fun x hx => hnone x ((hmoved x).mpr (.inl hx))), ?_⟩
    cases hheap : heap.heap with
    | nil => rfl
    | cons t ts =>
      refine decide_eq_true (Nat.lt_of_not_le (fun hle => ?_))
      exact hnone t ((hmoved t).mpr (.inr ⟨(hwf.top_live hheap).1, hle⟩))

/-- Raising the evicted maximum keeps the invariant. -/
theorem Inv.advance (h : Inv cfg st) {newMax : Nat} (hmax : st.maxEvictedSeq < newMax) :
    Inv cfg (advanceMaxEvictedSeq cfg st newMax) := by
  obtain ⟨hwf, hlive, hout⟩ := @popUpTo_spec newMax st.preparedTxns.heap.length st.preparedTxns
    st.delayedPrepared h.heap le_rfl
  have hsub := popUpTo_subset newMax st.preparedTxns.heap.length st.preparedTxns st.delayedPrepared
  have hflag := delayedEmpty_moved h.heap h.delayedEmpty hout
  have hlist := @mem_getSnapshotListFromDB st h.snapshots newMax
  have hsorted : (getSnapshotListFromDB st newMax).Pairwise (· ≤ ·) :=
    h.snapshots.sublist (takeWhile_sublist _)
  -- the list has every snapshot up to the new maximum, so none of them is forgotten
  have hmem : ∀ snap ∈ st.liveSnapshots, snap.1 ≤ newMax →
      snap.1 ∈ getSnapshotListFromDB st newMax :=
    fun snap hsnap hle => hlist.mpr ⟨mem_map_of_mem hsnap, hle⟩
  have hkept : ∀ snap ∈ st.liveSnapshots, snap.1 ≤ newMax →
      (cleanupReleasedSnapshots st.maxEvictedSeq (getSnapshotListFromDB st newMax)
        st.snapshotsAll st.oldCommitMap).preps snap.1 = st.oldCommitMap.preps snap.1 := by
    intro snap hsnap hle
    refine preps_releaseAll _ (not_mem_released hsorted h.listed.sorted ?_ _ (hmem snap hsnap hle))
    intro n hn hnot s hs
    obtain ⟨snap', hsnap', rfl⟩ := mem_map.mp (hlist.mp hn).1
    exact h.newer snap' hsnap' hnot s hs
  have hopen : ∀ p, p ∈ st.preparedTxns.live ∨ p ∈ st.delayedPrepared ↔
      p ∈ (popUpTo newMax st.preparedTxns.heap.length st.preparedTxns st.delayedPrepared).1.live ∨
      p ∈ (popUpTo newMax st.preparedTxns.heap.length st.preparedTxns st.delayedPrepared).2 := by
    intro p
    rw [hlive, hout]
    constructor
    · rintro (hp | hp)
      · exact (Nat.lt_or_ge newMax p).imp (fun hlt => ⟨hp, hlt⟩) (fun hle => .inr ⟨hp, hle⟩)
      · exact .inr (.inl hp)
    · rintro (⟨hp, -⟩ | hp | ⟨hp, -⟩)
      · exact .inl hp
      · exact .inr hp
      · exact .inl hp
  have heq : advanceMaxEvictedSeq cfg st newMax =
      { updateSnapshots cfg { st with
          preparedTxns := (popUpTo newMax st.preparedTxns.heap.length st.preparedTxns
            st.delayedPrepared).1
          delayedPrepared := (popUpTo newMax st.preparedTxns.heap.length st.preparedTxns
            st.delayedPrepared).2
          delayedPreparedEmpty := st.delayedPreparedEmpty &&
            st.preparedTxns.heap.head?.all (fun top => newMax < top) }
          (getSnapshotListFromDB st newMax) newMax with maxEvictedSeq := newMax } := by
    have hversion : newMax > st.snapshotsVersion := by
      rw [h.version]
      exact hmax
    simp only [advanceMaxEvictedSeq, if_pos hversion]
    show State.mk _ _ _ _ (max st.maxEvictedSeq newMax) _ _ _ _ _ _ _ _ _ _ _ = _
    rw [Nat.max_eq_right hmax.le]
    rfl
  rw [heq]
  exact { h with
    heap := hwf
    heapLe := fun x hx => h.heapLe x (hsub x hx)
    open_iff := fun p => (h.open_iff p).trans (hopen p)
    above := fun p hp => ((hlive p).mp hp).2
    below := by
      intro p hp
      rcases (hout p).mp hp with hp | hp
      · exact (h.below p hp).trans hmax.le
      · exact hp.2
    delayedEmpty := hflag
    evicted := by
      intro p c hpc
      refine (h.evicted p c hpc).imp_right ?_
      rintro ⟨hc, hold⟩
      refine ⟨hc.trans hmax.le, fun snap hsnap hps hsc => ?_⟩
      have hle : snap.1 ≤ newMax := hsc.le.trans (hc.trans hmax.le)
      show p ∈ OldCommitMap.preps (cleanupReleasedSnapshots _ _ _ _) _
      rw [hkept snap hsnap hle]
      exact hold snap hsnap hps hsc
    old := fun s p hp => h.old s p (mem_of_mem_preps_releaseAll _ hp)
    oldOK := h.oldOK.releaseAll _ _
    listed := by
      obtain ⟨htotal, hsize, hcache, hrest, hsort⟩ := @listed_updateSnapshots cfg st
        h.listed.size _ hsorted newMax
      exact ⟨htotal, hsize, hcache, hrest, hsort⟩
    listedLe := by
      intro s hs
      obtain ⟨hlive', hle⟩ := hlist.mp hs
      obtain ⟨snap, hsnap, rfl⟩ := mem_map.mp hlive'
      exact ⟨hle, (h.snapshotLe snap hsnap).1⟩
    version := rfl
    newer := by
      intro snap hsnap hnot s hs
      have hlt : newMax < snap.1 := Nat.lt_of_not_le (fun hle => hnot (hmem snap hsnap hle))
      exact (hlist.mp hs).2.trans hlt.le
    heapMin := fun snap hsnap p hp => h.heapMin snap hsnap p ((hlive p).mp hp).1
    late := fun snap hsnap hle hnot => absurd (hmem snap hsnap hle) hnot }

theorem maxEvictedSeq_advance (newMax : Nat) :
    newMax ≤ (advanceMaxEvictedSeq cfg st newMax).maxEvictedSeq := by
  simp only [advanceMaxEvictedSeq]
  exact Nat.le_max_right _ _

/-! ## Evicting a commit -/

/-- The evicted entry is kept for every listed snapshot between its two sequences. -/
theorem mem_preps_checkAgainstSnapshots (h : Listed cfg st) (p c t x : Nat) :
    x ∈ (checkAgainstSnapshots cfg st p c).oldCommitMap.preps t ↔
      x ∈ st.oldCommitMap.preps t ∨ (x = p ∧ t ∈ st.snapshotsAll ∧ p ≤ t ∧ t < c) := by
  have hpos : 0 < cfg.snapshotCacheSize := Nat.two_pow_pos _
  have htake : st.snapshotCache.take (min st.snapshotsTotal cfg.snapshotCacheSize)
      = st.snapshotsAll.take cfg.snapshotCacheSize := by
    rw [h.total]
    exact h.cache
  have hsplit := take_append_drop cfg.snapshotCacheSize st.snapshotsAll
  have hsorted := h.sorted
  rw [← hsplit, pairwise_append] at hsorted
  obtain ⟨hlow, hhigh, hcross⟩ := hsorted
  have hmem : t ∈ st.snapshotsAll ↔ t ∈ st.snapshotsAll.take cfg.snapshotCacheSize ∨
      t ∈ st.snapshotsAll.drop cfg.snapshotCacheSize := by
    rw [← mem_append, hsplit]
  have hdown : (st.snapshotsAll.take cfg.snapshotCacheSize).reverse.Pairwise
      (fun a b => if false then a ≤ b else b ≤ a) := by
    rw [pairwise_reverse]
    exact hlow.imp (fun hab => hab)
  have hfirst := fun x => @mem_preps_checkLoop st.oldCommitMap p c false _ hdown t x
  simp only [mem_reverse] at hfirst
  simp only [checkAgainstSnapshots, htake]
  by_cases hlarge : cfg.snapshotCacheSize < st.snapshotsTotal
  · have hn : min st.snapshotsTotal cfg.snapshotCacheSize = cfg.snapshotCacheSize :=
      Nat.min_eq_right hlarge.le
    have hcache : st.snapshotCache = st.snapshotsAll.take cfg.snapshotCacheSize := by
      rw [hn, take_of_length_le h.size.le] at htake
      exact htake
    rw [hn]
    by_cases hborder : st.snapshotCache.getD (cfg.snapshotCacheSize - 1) 0 < c
    · -- the search goes on in the second list
      rw [if_pos ⟨hlarge, by simp only [Bool.and_eq_true, decide_eq_true_eq]; exact
        ⟨trivial, hborder⟩⟩]
      have hup : ∀ {l : List Nat}, l.Pairwise (· ≤ ·) →
          l.Pairwise (fun a b => if true then a ≤ b else b ≤ a) := fun hl => hl.imp (fun hab => hab)
      rw [h.rest, mem_preps_checkLoop (hup hhigh), hcache, mem_preps_checkLoop (hup hlow),
        hfirst, hmem]
      constructor
      · rintro (((hx | ⟨hx, ht⟩) | ⟨hx, ht⟩) | ⟨hx, ht⟩)
        · exact .inl hx
        · exact .inr ⟨hx, .inl ht.1, ht.2⟩
        · exact .inr ⟨hx, .inl ht.1, ht.2⟩
        · exact .inr ⟨hx, .inr ht.1, ht.2⟩
      · rintro (hx | ⟨hx, ht | ht, hlt⟩)
        · exact .inl (.inl (.inl hx))
        · exact .inl (.inl (.inr ⟨hx, ht, hlt⟩))
        · exact .inr ⟨hx, ht, hlt⟩
    · -- the last snapshot of the cache sees the commit, and so do all later ones
      rw [if_neg (by
        rintro ⟨-, hb⟩
        simp only [Bool.and_eq_true, decide_eq_true_eq] at hb
        exact hborder hb.2), hfirst, hmem]
      refine or_congr_right (and_congr_right (fun _ => ?_))
      refine ⟨fun ht => ⟨.inl ht.1, ht.2⟩, fun ht => ⟨ht.1.resolve_right (fun htd => ?_), ht.2⟩⟩
      have hlen : (st.snapshotsAll.take cfg.snapshotCacheSize).length = cfg.snapshotCacheSize := by
        rw [length_take, ← h.total]
        exact Nat.min_eq_left hlarge.le
      have hlast : st.snapshotCache.getD (cfg.snapshotCacheSize - 1) 0
          ∈ st.snapshotsAll.take cfg.snapshotCacheSize := by
        rw [hcache, getD_eq_getElem _ _ (by rw [hlen]; exact Nat.sub_lt hpos Nat.one_pos)]
        exact getElem_mem _
      exact hborder ((hcross _ hlast t htd).trans_lt ht.2.2)
  · -- everything is in the cache
    have hnil : st.snapshotsAll.drop cfg.snapshotCacheSize = [] := by
      rw [drop_eq_nil_iff, ← h.total]
      exact Nat.le_of_not_lt hlarge
    rw [if_neg (fun hb => hlarge hb.1), hfirst, hmem, hnil]
    refine or_congr_right (and_congr_right (fun _ => and_congr_left (fun _ => ?_)))
    exact ⟨.inl, fun ht => ht.resolve_right nofun⟩

theorem OldCommitMap.OK.checkAgainst (h : st.oldCommitMap.OK) (p c : Nat) :
    (checkAgainstSnapshots cfg st p c).oldCommitMap.OK := by
  simp only [checkAgainstSnapshots]
  split
  · exact ((h.checkLoop _ _ _ _).checkLoop _ _ _ _).checkLoop _ _ _ _
  · exact h.checkLoop _ _ _ _

/-- The entry is kept for every snapshot that does not see it. -/
def Kept (st : State) (p c : Nat) : Prop :=
  c ≤ st.maxEvictedSeq ∧ ∀ snap ∈ st.liveSnapshots, p ≤ snap.1 → snap.1 < c →
    p ∈ st.oldCommitMap.preps snap.1

/-- A commit that is evicted is noted for the snapshots that need it. -/
theorem Inv.check (h : Inv cfg st) {p c : Nat} (hpc : (p, c) ∈ st.committed)
    (hc : c ≤ st.maxEvictedSeq) :
    Inv cfg (checkAgainstSnapshots cfg st p c) ∧ Kept (checkAgainstSnapshots cfg st p c) p c := by
  have hpreps := mem_preps_checkAgainstSnapshots h.listed p c
  refine ⟨{ h with
    evicted := ?_
    old := ?_
    oldOK := h.oldOK.checkAgainst p c
    listed := { h.listed with } }, hc, ?_⟩
  · intro p' c' hpc'
    refine (h.evicted p' c' hpc').imp_right ?_
    rintro ⟨hc', hold⟩
    exact ⟨hc', fun snap hsnap hps hsc => (hpreps _ _).mpr (.inl (hold snap hsnap hps hsc))⟩
  · intro s p' hp'
    rcases (hpreps s p').mp hp' with hp' | ⟨rfl, -, hps, hsc⟩
    · exact h.old s p' hp'
    · exact ⟨c, hpc, hps, hsc⟩
  · intro snap hsnap hps hsc
    refine (hpreps _ _).mpr (.inr ⟨rfl, ?_, hps, hsc⟩)
    by_contra hnot
    have hle : snap.1 ≤ st.maxEvictedSeq := hsc.le.trans hc
    exact absurd ((h.late snap hsnap hle hnot).2 p c hpc hps) (Nat.not_le_of_lt hsc)

/-- What an eviction does not touch. -/
structure SameRun (st st' : State) : Prop where
  commitCache : st'.commitCache = st.commitCache
  lastSequence : st'.lastSequence = st.lastSequence
  liveSnapshots : st'.liveSnapshots = st.liveSnapshots
  prepared : st'.prepared = st.prepared
  committed : st'.committed = st.committed
  stopped : st'.stopped = st.stopped

theorem sameRun_advance (newMax : Nat) : SameRun st (advanceMaxEvictedSeq cfg st newMax) := by
  simp only [advanceMaxEvictedSeq]
  split
  · exact ⟨rfl, rfl, rfl, rfl, rfl, rfl⟩
  · exact ⟨rfl, rfl, rfl, rfl, rfl, rfl⟩

theorem sameRun_evict (evicted : Nat × Nat) : SameRun st (evict cfg st evicted) := by
  rw [evict]
  split
  · obtain ⟨h1, h2, h3, h4, h5, h6⟩ := @sameRun_advance cfg st (evicted.2 + cfg.incStep)
    exact ⟨h1, h2, h3, h4, h5, h6⟩
  · exact ⟨rfl, rfl, rfl, rfl, rfl, rfl⟩

/-- An evicted commit stays known. -/
theorem Inv.evict (h : Inv cfg st) {p c : Nat} (hpc : (p, c) ∈ st.committed) :
    Inv cfg (evict cfg st (p, c)) ∧ Kept (evict cfg st (p, c)) p c := by
  rw [WritePrepared.evict]
  split_ifs with hmax
  · have hpc' : (p, c) ∈ (advanceMaxEvictedSeq cfg st (c + cfg.incStep)).committed := by
      rw [(sameRun_advance _).committed]
      exact hpc
    exact (h.advance (hmax.trans_le (Nat.le_add_right _ _))).check hpc'
      ((Nat.le_add_right c cfg.incStep).trans (maxEvictedSeq_advance _))
  · exact h.check hpc (Nat.le_of_not_lt hmax)

/-! ## The steps -/

/-- Who is committed leaves the heap or the delayed set. -/
theorem Inv.erase (h : Inv cfg st) {p : Nat}
    (hp : p ∈ st.preparedTxns.live ∨ p ∈ st.delayedPrepared) :
    WF (st.preparedTxns.erase p) ∧
    ∀ x, x ∈ (st.preparedTxns.erase p).live ↔ x ∈ st.preparedTxns.live ∧ x ≠ p := by
  rcases hp with hheap | hdelayed
  · exact mem_live_erase h.heap hheap
  have hlt : ∀ x ∈ st.preparedTxns.live, p < x :=
    fun x hx => (h.below p hdelayed).trans_lt (h.above x hx)
  rw [erase_of_lt h.heap hlt]
  exact ⟨h.heap, fun x => ⟨fun hx => ⟨hx, (Nat.ne_of_lt (hlt x hx)).symm⟩, fun hx => hx.1⟩⟩

theorem removePrepared_eq (hflag : st.delayedPreparedEmpty = st.delayedPrepared.isEmpty) (p : Nat) :
    removePrepared st p = { st with
      preparedTxns := st.preparedTxns.erase p
      delayedPrepared := st.delayedPrepared.filter (· ≠ p)
      delayedPreparedEmpty := (st.delayedPrepared.filter (· ≠ p)).isEmpty } := by
  obtain ⟨heap, delayed, flag⟩ := st
  cases delayed with
  | nil =>
    have hflag : flag = true := hflag
    subst hflag
    rfl
  | cons x xs =>
  have hflag : flag = false := hflag
  subst hflag
  rw [removePrepared, if_neg (by simp)]
  simp only [Bool.or_false]

theorem getCommitEntry_update {i : Nat} {rep : Nat} (j : Nat) :
    getCommitEntry cfg { st with commitCache := Function.update st.commitCache i rep } j
      = if j = i then parse cfg.commitCacheBits i rep else getCommitEntry cfg st j := by
  by_cases hij : j = i
  · subst hij
    rw [if_pos rfl, getCommitEntry]
    show parse _ j (Function.update st.commitCache j rep j) = _
    rw [Function.update_self]
  · rw [if_neg hij, getCommitEntry]
    show parse _ j (Function.update st.commitCache i rep j) = _
    rw [Function.update_of_ne hij]
    rfl

/-- A commit keeps the invariant when the one whose slot it takes is kept. -/
theorem Inv.commit (h : Inv cfg st) {p c : Nat} (hallowed : Allowed cfg st (.commit p c))
    (hkept : ∀ p' c', getCommitEntry cfg st (p % cfg.commitCacheSize) = some (p', c') →
      Kept st p' c')
    (hgood : ∀ snap ∈ st.liveSnapshots, p < snap.2 → c ≤ snap.1) :
    Inv cfg { removePrepared { st with
        commitCache := Function.update st.commitCache (p % cfg.commitCacheSize)
          (encode cfg.commitCacheBits p c) } p with
      committed := (p, c) :: st.committed
      lastSequence := c } := by
  obtain ⟨hprep, hnew, hlast, hc, hdelta⟩ := hallowed
  have hopen := (h.open_iff p).mp ⟨hprep, hnew⟩
  obtain ⟨hwf, hlive⟩ := h.erase hopen
  have hpc : p ≤ c := (h.prepared p hprep).2.trans hlast
  have hparse : parse cfg.commitCacheBits (p % cfg.commitCacheSize)
      (encode cfg.commitCacheBits p c) = some (p, c) :=
    parse_encode (hpc.trans_lt hc) hpc hdelta
  have hentry := @getCommitEntry_update cfg st (p % cfg.commitCacheSize)
    (encode cfg.commitCacheBits p c)
  rw [hparse] at hentry
  have hdelayed : ∀ x, x ∈ st.delayedPrepared.filter (· ≠ p) ↔ x ∈ st.delayedPrepared ∧ x ≠ p := by
    intro x
    rw [mem_filter, decide_eq_true_iff]
  rw [removePrepared_eq (by exact h.delayedEmpty)]
  exact { h with
    heap := hwf
    heapLe := fun x hx => (h.heapLe x (erase_subset p x hx)).trans hlast
    open_iff := by
      intro x
      show x ∈ st.prepared ∧ x ∉ p :: st.committed.map Prod.fst ↔
        x ∈ (st.preparedTxns.erase p).live ∨ x ∈ st.delayedPrepared.filter (· ≠ p)
      rw [mem_cons, not_or, hlive, hdelayed, ← or_and_right, ← h.open_iff x]
      exact ⟨fun hx => ⟨⟨hx.1, hx.2.2⟩, hx.2.1⟩, fun hx => ⟨hx.1.1, hx.2, hx.1.2⟩⟩
    above := fun x hx => h.above x ((hlive x).mp hx).1
    below := fun x hx => h.below x ((hdelayed x).mp hx).1
    delayedEmpty := rfl
    prepared := fun x hx => ⟨(h.prepared x hx).1, (h.prepared x hx).2.trans hlast⟩
    committed := by
      intro x d hxd
      rcases mem_cons.mp hxd with heq | hxd
      · obtain ⟨rfl, rfl⟩ := Prod.mk.inj heq
        exact ⟨hprep, hpc, le_rfl⟩
      · obtain ⟨hx, hle, hd⟩ := h.committed x d hxd
        exact ⟨hx, hle, hd.trans hlast⟩
    once := nodup_cons.mpr ⟨hnew, h.once⟩
    cached := by
      intro i x d hxd
      have hxd' := (hentry i).symm.trans hxd
      split_ifs at hxd' with hi
      · obtain ⟨rfl, rfl⟩ := Prod.mk.inj (Option.some.inj hxd')
        exact ⟨.head _, hi.symm⟩
      · obtain ⟨hmem, hmod⟩ := h.cached i x d hxd'
        exact ⟨.tail _ hmem, hmod⟩
    evicted := by
      intro x d hxd
      rcases mem_cons.mp hxd with heq | hxd
      · obtain ⟨rfl, rfl⟩ := Prod.mk.inj heq
        exact .inl ((hentry _).trans (if_pos rfl))
      rcases h.evicted x d hxd with hcached | hold
      · by_cases hi : x % cfg.commitCacheSize = p % cfg.commitCacheSize
        · -- this is the entry that is evicted
          rw [hi] at hcached
          exact .inr (hkept x d hcached)
        · exact .inl ((hentry _).trans ((if_neg hi).trans hcached))
      · exact .inr hold
    old := by
      intro s x hx
      obtain ⟨d, hd, hle⟩ := h.old s x hx
      exact ⟨d, .tail _ hd, hle⟩
    snapshotLe := fun snap hsnap =>
      ⟨(h.snapshotLe snap hsnap).1.trans hlast, (h.snapshotLe snap hsnap).2⟩
    listed := { h.listed with }
    listedLe := fun s hs => ⟨(h.listedLe s hs).1, (h.listedLe s hs).2.trans hlast⟩
    heapMin := fun snap hsnap x hx => h.heapMin snap hsnap x ((hlive x).mp hx).1
    commitMin := by
      intro snap hsnap x d hxd hlt
      rcases mem_cons.mp hxd with heq | hxd
      · obtain ⟨rfl, rfl⟩ := Prod.mk.inj heq
        exact hgood snap hsnap hlt
      · exact h.commitMin snap hsnap x d hxd hlt
    late := by
      intro snap hsnap hle hnot
      obtain ⟨hdel, hcom⟩ := h.late snap hsnap hle hnot
      refine ⟨fun x hx => hdel x ((hdelayed x).mp hx).1, ?_⟩
      intro x d hxd hxs
      rcases mem_cons.mp hxd with heq | hxd
      · -- below the largest evicted sequence it was delayed when the snapshot was taken
        obtain ⟨rfl, rfl⟩ := Prod.mk.inj heq
        rcases hopen with hheap | hd
        · exact absurd (hxs.trans hle) (Nat.not_le_of_lt (h.above x hheap))
        · exact hgood snap hsnap (hdel x hd hxs)
      · exact hcom x d hxd hxs }

theorem Inv.addPrepared (h : Inv cfg st) {p : Nat} (hallowed : Allowed cfg st (.addPrepared p))
    (hmax : st.maxEvictedSeq < p) :
    Inv cfg { st with
      preparedTxns := st.preparedTxns.push p
      prepared := p :: st.prepared
      lastSequence := p } := by
  obtain ⟨hlast, -⟩ := hallowed
  obtain ⟨hwf, hlive⟩ := mem_live_push h.heap (fun x hx => (h.heapLe x hx).trans_lt hlast)
  have hle := hlast.le
  have hfresh : p ∉ st.committed.map Prod.fst := by
    intro hmem
    obtain ⟨⟨q, d⟩, hqd, rfl⟩ := mem_map.mp hmem
    exact absurd (h.prepared q (h.committed q d hqd).1).2 (Nat.not_le_of_lt hlast)
  exact { h with
    heap := hwf
    heapLe := by
      intro x hx
      rcases (mem_orderedInsert _).mp hx with rfl | hx
      · exact le_rfl
      · exact (h.heapLe x hx).trans hle
    open_iff := by
      intro x
      show x ∈ p :: st.prepared ∧ x ∉ st.committed.map Prod.fst ↔
        x ∈ (st.preparedTxns.push p).live ∨ x ∈ st.delayedPrepared
      rw [mem_cons, hlive, or_right_comm, ← h.open_iff x]
      constructor
      · rintro ⟨rfl | hx, hnot⟩
        · exact .inr rfl
        · exact .inl ⟨hx, hnot⟩
      · rintro (⟨hx, hnot⟩ | rfl)
        · exact ⟨.inr hx, hnot⟩
        · exact ⟨.inl rfl, hfresh⟩
    above := by
      intro x hx
      rcases (hlive x).mp hx with hx | rfl
      · exact h.above x hx
      · exact hmax
    prepared := by
      intro x hx
      rcases mem_cons.mp hx with rfl | hx
      · exact ⟨(Nat.zero_le _).trans_lt hlast, le_rfl⟩
      · exact ⟨(h.prepared x hx).1, (h.prepared x hx).2.trans hle⟩
    committed := by
      intro x d hxd
      obtain ⟨hx, hxd', hd⟩ := h.committed x d hxd
      exact ⟨.tail _ hx, hxd', hd.trans hle⟩
    snapshotLe := fun snap hsnap =>
      ⟨(h.snapshotLe snap hsnap).1.trans hle, (h.snapshotLe snap hsnap).2⟩
    listed := { h.listed with }
    listedLe := fun s hs => ⟨(h.listedLe s hs).1, (h.listedLe s hs).2.trans hle⟩
    heapMin := by
      intro snap hsnap x hx
      rcases (hlive x).mp hx with hx | rfl
      · exact h.heapMin snap hsnap x hx
      · obtain ⟨hs, hm⟩ := h.snapshotLe snap hsnap
        omega }

/-- The smallest uncommitted sequence, with the delayed ones left out. -/
theorem Inv.smallest (h : Inv cfg st) :
    smallestUnCommittedSeq st ≤ st.lastSequence + 1 ∧
    (∀ p ∈ st.preparedTxns.live, smallestUnCommittedSeq st ≤ p) ∧
    (st.preparedTxns.live = [] → smallestUnCommittedSeq st = st.lastSequence + 1) := by
  rw [smallestUnCommittedSeq]
  cases hheap : st.preparedTxns.heap with
  | nil =>
    refine ⟨le_rfl, fun p hp => ?_, fun _ => rfl⟩
    have hmem := (mem_live.mp hp).1
    rw [hheap] at hmem
    exact nomatch hmem
  | cons top ts =>
  obtain ⟨htop, hmin⟩ := h.heap.top_live hheap
  refine ⟨Nat.min_le_right _ _, fun p hp => (Nat.min_le_left _ _).trans (hmin p hp), fun hnil => ?_⟩
  rw [hnil] at htop
  exact nomatch htop

theorem Inv.getSnapshot (h : Inv cfg st) : Inv cfg (getSnapshot st) := by
  obtain ⟨hsmall, hheap, hnone⟩ := h.smallest
  have hmem : ∀ snap ∈ (WritePrepared.getSnapshot st).liveSnapshots,
      snap ∈ st.liveSnapshots ∨ snap = (st.lastSequence, smallestUnCommittedSeq st) := by
    intro snap hsnap
    exact (mem_append.mp hsnap).imp_right mem_singleton.mp
  exact { h with
    evicted := by
      intro p c hpc
      refine (h.evicted p c hpc).imp_right ?_
      rintro ⟨hc, hold⟩
      refine ⟨hc, fun snap hsnap hps hsc => ?_⟩
      rcases hmem snap hsnap with hsnap | rfl
      · exact hold snap hsnap hps hsc
      · exact absurd (h.committed p c hpc).2.2 (Nat.not_le_of_lt hsc)
    snapshots := by
      show ((st.liveSnapshots ++ [_]).map Prod.fst).Pairwise (· ≤ ·)
      rw [map_append]
      refine pairwise_append.mpr ⟨h.snapshots, pairwise_singleton _ _, ?_⟩
      intro s hs t ht
      obtain ⟨snap, hsnap, rfl⟩ := mem_map.mp hs
      rw [mem_singleton.mp ht]
      exact (h.snapshotLe snap hsnap).1
    snapshotLe := by
      intro snap hsnap
      rcases hmem snap hsnap with hsnap | rfl
      · exact h.snapshotLe snap hsnap
      · exact ⟨le_rfl, hsmall⟩
    listed := { h.listed with }
    newer := by
      intro snap hsnap hnot s hs
      rcases hmem snap hsnap with hsnap | rfl
      · exact h.newer snap hsnap hnot s hs
      · exact (h.listedLe s hs).2
    heapMin := by
      intro snap hsnap p hp
      rcases hmem snap hsnap with hsnap | rfl
      · exact h.heapMin snap hsnap p hp
      · exact hheap p hp
    commitMin := by
      intro snap hsnap p c hpc hlt
      rcases hmem snap hsnap with hsnap | rfl
      · exact h.commitMin snap hsnap p c hpc hlt
      · exact (h.committed p c hpc).2.2
    late := by
      intro snap hsnap hle hnot
      rcases hmem snap hsnap with hsnap | rfl
      · exact h.late snap hsnap hle hnot
      -- nothing can be in the heap, so every delayed transaction is left out
      have hnil : st.preparedTxns.live = [] := by
        refine eq_nil_iff_forall_not_mem.mpr (fun x hx => ?_)
        have hlt : st.lastSequence < x := hle.trans_lt (h.above x hx)
        exact absurd (h.heapLe x (mem_live.mp hx).1) (Nat.not_le_of_lt hlt)
      refine ⟨fun p _ hp => ?_, fun p c hpc _ => (h.committed p c hpc).2.2⟩
      rw [hnone hnil]
      exact Nat.lt_succ_of_le hp }

theorem Inv.releaseSnapshot (h : Inv cfg st) (i : Nat) :
    Inv cfg { st with liveSnapshots := st.liveSnapshots.eraseIdx i } := by
  have hsub : (st.liveSnapshots.eraseIdx i).Sublist st.liveSnapshots := eraseIdx_sublist ..
  exact { h with
    evicted := fun p c hpc => (h.evicted p c hpc).imp_right
      (fun ⟨hc, hold⟩ => ⟨hc, fun snap hsnap => hold snap (hsub.subset hsnap)⟩)
    snapshots := h.snapshots.sublist (hsub.map _)
    snapshotLe := fun snap hsnap => h.snapshotLe snap (hsub.subset hsnap)
    listed := { h.listed with }
    newer := fun snap hsnap => h.newer snap (hsub.subset hsnap)
    heapMin := fun snap hsnap => h.heapMin snap (hsub.subset hsnap)
    commitMin := fun snap hsnap => h.commitMin snap (hsub.subset hsnap)
    late := fun snap hsnap => h.late snap (hsub.subset hsnap) }

/-- The state in which `AddCommitted` writes its entry. -/
def evictedState (cfg : Config) (st : State) (p : Nat) : State :=
  match getCommitEntry cfg st (p % cfg.commitCacheSize) with
  | none => st
  | some evicted => evict cfg st evicted

theorem Inv.evictedState (h : Inv cfg st) (p : Nat) :
    Inv cfg (evictedState cfg st p) ∧ SameRun st (evictedState cfg st p) ∧
    ∀ p' c', getCommitEntry cfg (evictedState cfg st p) (p % cfg.commitCacheSize) = some (p', c') →
      Kept (evictedState cfg st p) p' c' := by
  rw [WritePrepared.evictedState]
  cases hentry : getCommitEntry cfg st (p % cfg.commitCacheSize) with
  | none =>
    refine ⟨h, ⟨rfl, rfl, rfl, rfl, rfl, rfl⟩, fun p' c' hpc => ?_⟩
    rw [hentry] at hpc
    exact nomatch hpc
  | some evicted =>
  obtain ⟨ep, ec⟩ := evicted
  obtain ⟨hinv, hkept⟩ := h.evict (h.cached _ ep ec hentry).1
  have hsame := @sameRun_evict cfg st (ep, ec)
  refine ⟨hinv, hsame, fun p' c' hpc => ?_⟩
  have hsame' : getCommitEntry cfg (WritePrepared.evict cfg st (ep, ec)) (p % cfg.commitCacheSize)
      = getCommitEntry cfg st (p % cfg.commitCacheSize) := by
    rw [getCommitEntry, getCommitEntry, hsame.commitCache]
  rw [hsame', hentry] at hpc
  obtain ⟨rfl, rfl⟩ := Prod.mk.inj (Option.some.inj hpc)
  exact hkept

/-- What an event does when nothing was thrown. -/
def act (cfg : Config) (st : State) : Event → State
  | .addPrepared p => WritePrepared.addPrepared st p
  | .commit p c =>
    { removePrepared (addCommitted cfg st p c) p with
      committed := (p, c) :: st.committed
      lastSequence := c }
  | .getSnapshot => WritePrepared.getSnapshot st
  | .releaseSnapshot i => { st with liveSnapshots := st.liveSnapshots.eraseIdx i }

/-- After a failed assertion nothing changes. -/
theorem step_stopped {e : Event} (h : st.stopped = true) : step cfg st e = st := if_pos h

theorem step_running {e : Event} (h : ¬ st.stopped = true) : step cfg st e = act cfg st e := by
  cases e <;> exact if_neg h

/-- **ONE EVENT** that forgets nothing keeps the invariant. -/
theorem Inv.step (h : Inv cfg st) {e : Event} (hallowed : Allowed cfg st e)
    (hgood : ¬ Forgotten st e) : Inv cfg (step cfg st e) := by
  by_cases hstopped : st.stopped = true
  · rw [step_stopped hstopped]
    exact h
  rw [step_running hstopped]
  cases e with
  | addPrepared p =>
    rw [act, WritePrepared.addPrepared]
    split_ifs with hmax
    · exact { h with listed := { h.listed with } }
    · exact h.addPrepared hallowed (Nat.lt_of_not_le hmax)
  | commit p c =>
    obtain ⟨hinv, hsame, hkept⟩ := h.evictedState p
    have hallowed' : Allowed cfg (WritePrepared.evictedState cfg st p) (.commit p c) := by
      rw [Allowed, hsame.prepared, hsame.committed, hsame.lastSequence]
      exact hallowed
    have hgood' : ∀ snap ∈ (WritePrepared.evictedState cfg st p).liveSnapshots,
        p < snap.2 → c ≤ snap.1 := by
      rw [hsame.liveSnapshots]
      intro snap hsnap hlt
      by_contra hle
      exact hgood ⟨Bool.eq_false_iff.mpr hstopped, snap, hsnap, hlt, Nat.lt_of_not_le hle⟩
    rw [act, ← hsame.committed]
    exact hinv.commit hallowed' hkept hgood'
  | getSnapshot => exact h.getSnapshot
  | releaseSnapshot i => exact h.releaseSnapshot i

/-- The shortcut: below the recorded minimum nothing but the delayed set is asked. -/
theorem isInSnapshot_min {p s m : Nat} (hpos : 0 < p) (hps : p ≤ s)
    (hdelayed : p ∉ st.delayedPrepared) (hlt : p < m) : isInSnapshot cfg st p s m = true := by
  rw [isInSnapshot, if_neg (Nat.ne_of_gt hpos), if_neg (Nat.not_lt_of_le hps),
    if_neg (by simp [hdelayed]), if_pos hlt]

/-- A forgotten transaction is seen by the older snapshot as soon as it is committed. -/
theorem Inv.forgotten (h : Inv cfg st) {e : Event} (hallowed : Allowed cfg st e)
    (hbad : Forgotten st e) : ¬ Visible cfg (WritePrepared.step cfg st e) := by
  cases e with
  | addPrepared p => exact hbad.elim
  | getSnapshot => exact hbad.elim
  | releaseSnapshot i => exact hbad.elim
  | commit p c =>
  obtain ⟨hrun, ⟨s, m⟩, hsnap, hlt, hsc⟩ := hbad
  obtain ⟨hprep, hnew, -⟩ := hallowed
  obtain ⟨hinv, hsame, -⟩ := h.evictedState p
  rw [step_running (by rw [hrun]; exact Bool.false_ne_true), act,
    removePrepared_eq (by exact hinv.delayedEmpty)]
  intro hvisible
  have hps : p ≤ s := by
    have hm : m ≤ s + 1 := (h.snapshotLe (s, m) hsnap).2
    have hlt : p < m := hlt
    omega
  have hsnap' : (s, m) ∈ (WritePrepared.evictedState cfg st p).liveSnapshots := by
    rw [hsame.liveSnapshots]
    exact hsnap
  have hprep' : p ∈ (WritePrepared.evictedState cfg st p).prepared := by
    rw [hsame.prepared]
    exact hprep
  -- not in the delayed set any more, and below the recorded minimum
  have htrue := (hvisible (s, m) hsnap' p hprep').mp (by
    refine isInSnapshot_min (h.prepared p hprep).1 hps ?_ hlt
    intro hmem
    exact absurd rfl (of_decide_eq_true (mem_filter.mp hmem).2))
  obtain ⟨d, hd, hmem⟩ := htrue
  rcases mem_cons.mp hmem with heq | hmem
  · obtain ⟨-, rfl⟩ := Prod.mk.inj heq
    exact absurd hd (Nat.not_le_of_lt hsc)
  · exact hnew (mem_map.mpr ⟨(p, d), hmem, rfl⟩)

end Steps

/-! ## The result -/

/-- **VISIBILITY IS BY COMMIT SEQUENCE exactly on the runs that never commit a transaction
    which a live older snapshot left out of its smallest uncommitted sequence.** -/
theorem visible_always_iff (cfg : Config) (es : List Event)
    (h : Never (step cfg) (fun st e => ¬ Allowed cfg st e) (new cfg) es) :
    Always (step cfg) (Visible cfg) (new cfg) es ↔ Never (step cfg) Forgotten (new cfg) es :=
  always_iff_never_of_allowed (fun _ hinv => Inv.visible hinv)
    (fun _ _ hinv hallowed hgood => Inv.step hinv hallowed hgood)
    (fun _ _ hinv hallowed hbad => Inv.forgotten hinv hallowed hbad) es (new cfg) (inv_new cfg) h

/-- A cache of one entry: the second commit evicts the first one and the snapshot between
    them still sees the first only. -/
theorem visible_always_evicted :
    Always (step ⟨0, 0⟩) (Visible ⟨0, 0⟩) (new ⟨0, 0⟩)
      [.addPrepared 1, .addPrepared 2, .commit 1 3, .getSnapshot, .commit 2 4] := by
  refine (visible_always_iff ⟨0, 0⟩ _ ?_).mpr ?_
  · exact ⟨by decide, by decide, by decide, by decide, by decide, trivial⟩
  · exact ⟨by decide, by decide, by decide, by decide, by decide, trivial⟩

/-- Three transactions are prepared, two are committed, and the eviction of the first moves
    the third to the delayed set. The snapshot taken then has 6 as its smallest uncommitted
    sequence, and the commit of the third with sequence 6 becomes visible at 5. -/
theorem delayed_commit_seen_by_older_snapshot :
    (run (step ⟨0, 0⟩) (new ⟨0, 0⟩) [.addPrepared 1, .addPrepared 2, .addPrepared 3,
      .commit 1 4, .commit 2 5, .getSnapshot, .commit 3 6]).liveSnapshots = [(5, 6)] ∧
    (run (step ⟨0, 0⟩) (new ⟨0, 0⟩) [.addPrepared 1, .addPrepared 2, .addPrepared 3,
      .commit 1 4, .commit 2 5, .getSnapshot, .commit 3 6]).committed = [(3, 6), (2, 5), (1, 4)] ∧
    isInSnapshot ⟨0, 0⟩ (run (step ⟨0, 0⟩) (new ⟨0, 0⟩) [.addPrepared 1, .addPrepared 2,
      .addPrepared 3, .commit 1 4, .commit 2 5, .getSnapshot, .commit 3 6]) 3 5 6 = true := by
  exact ⟨rfl, rfl, rfl⟩

end WritePrepared
