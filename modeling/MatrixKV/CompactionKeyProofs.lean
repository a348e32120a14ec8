import MatrixKV.CompactionIteratorProofs

/-! # The compaction iterator key by key

    User keys do not influence each other in the compaction iterator, except that the
    end of a key is seen when another key follows.  `keyOut` is the iterator on the
    entries of one key, newest first; it knows the snapshot of the entry before and,
    instead of the cursors, whether anything of the key lies below the output level.

    * `notInLevels_spec` — the cursors give what a search of all files gives, as long
      as the keys ascend.
    * **`run_spec`** — what the iterator delivers for a key is `keyOut` of its entries, and
      the keys ascend, for inputs without single deletions. -/

namespace CompactionKey

open List DbFormat TableGet CompactionIterator

variable {K : Type} [LinearOrder K]

/-! ## Stripes -/

/-- The snapshot stripe of a sequence number, by the first snapshot that sees it. -/
def stripe (cfg : Config K) (seq : Nat) : Nat :=
  CutPoints.ceil cfg.snapshots maxSequenceNumber seq

/-- What the list of live snapshots is: ascending sequence numbers. -/
structure LiveSnapshots (snapshots : List Nat) : Prop where
  ascending : snapshots.Pairwise (· ≤ ·)
  le : ∀ s ∈ snapshots, s ≤ maxSequenceNumber

/-- Live snapshots of databases that had something in them. -/
structure Snapshots (snapshots : List Nat) : Prop where
  ascending : snapshots.Pairwise (· ≤ ·)
  positive : ∀ s ∈ snapshots, 0 < s
  le : ∀ s ∈ snapshots, s ≤ maxSequenceNumber

theorem Snapshots.live {snapshots : List Nat} (h : Snapshots snapshots) : LiveSnapshots snapshots :=
  ⟨h.ascending, h.le⟩

/-- A sequence number of an entry.  The iterator takes 0 for no snapshot, so that an entry
    of this number must not meet the snapshot of an empty database. -/
def Proper (snapshots : List Nat) (q : Nat) : Prop :=
  q ≤ maxSequenceNumber ∧ (0 ∈ snapshots → 0 < q)

instance (snapshots : List Nat) (q : Nat) : Decidable (Proper snapshots q) :=
  inferInstanceAs (Decidable (_ ∧ _))

variable {q : Nat}

theorem Snapshots.proper {snapshots : List Nat} (h : Snapshots snapshots)
    (hq : q ≤ maxSequenceNumber) : Proper snapshots q :=
  ⟨hq, fun hzero => absurd (h.positive 0 hzero) (Nat.lt_irrefl 0)⟩

theorem snapshotsOf_eq (cfg : Config K) (seq : Nat) :
    cfg.snapshotsOf seq = (stripe cfg seq, CutPoints.floor cfg.snapshots seq) := by
  rw [Config.snapshotsOf]
  split_ifs with h
  · rw [stripe, Config.earliestSnapshot, h]
    rfl
  · rfl

section Stripes

variable {cfg : Config K} (hsnap : LiveSnapshots cfg.snapshots)

include hsnap

omit hsnap in
theorem stripe_pos (hq : Proper cfg.snapshots q) : 0 < stripe cfg q := by
  refine Nat.pos_of_ne_zero fun hzero => ?_
  have hle : q ≤ stripe cfg q := CutPoints.le_ceil hq.1
  rcases CutPoints.ceil_mem cfg.snapshots maxSequenceNumber q with h | h
  · have hpos := hq.2 (hzero ▸ h)
    omega
  · rw [stripe, h] at hzero
    exact nomatch hzero

theorem stripe_mono {q' : Nat} (hq : q' ≤ maxSequenceNumber) (h : q ≤ q') :
    stripe cfg q ≤ stripe cfg q' :=
  CutPoints.ceil_mono hsnap.ascending hsnap.le hq h

theorem lt_of_stripe_lt {q' : Nat} (hq : q ≤ maxSequenceNumber) (h : stripe cfg q < stripe cfg q') :
    q < q' :=
  CutPoints.lt_of_ceil_lt hsnap.ascending hsnap.le hq h

/-- The test of the source for the stripe of an older entry. -/
theorem same_stripe_iff {q' : Nat} (hq : q ≤ maxSequenceNumber) (h : q' ≤ q)
    (hq' : Proper cfg.snapshots q') :
    (CutPoints.floor cfg.snapshots q = 0 ∨ q' > CutPoints.floor cfg.snapshots q) ↔
      stripe cfg q' = stripe cfg q :=
  (CutPoints.ceil_eq_iff_floor_lt hsnap.ascending hq'.2 hsnap.le hq h).symm

omit hsnap in
/-- The earliest stripe. -/
theorem le_earliest_iff (hq : q ≤ maxSequenceNumber) :
    q ≤ cfg.earliestSnapshot ↔ stripe cfg q = cfg.earliestSnapshot := by
  rw [Config.earliestSnapshot, stripe]
  cases hs : cfg.snapshots with
  | nil => exact ⟨fun _ => rfl, fun _ => hq⟩
  | cons c cs =>
  show q ≤ c ↔ CutPoints.ceil (c :: cs) maxSequenceNumber q = c
  constructor
  · exact CutPoints.ceil_cons_of_le
  · intro h
    have hle : q ≤ CutPoints.ceil (c :: cs) maxSequenceNumber q := CutPoints.le_ceil hq
    omega

theorem earliest_le_stripe (q : Nat) : cfg.earliestSnapshot ≤ stripe cfg q := by
  have hlow : ∀ s ∈ cfg.snapshots, cfg.earliestSnapshot ≤ s := by
    intro s hs
    rw [Config.earliestSnapshot]
    have hsorted := hsnap.ascending
    cases hc : cfg.snapshots with
    | nil => rw [hc] at hs; exact nomatch hs
    | cons c cs =>
    rw [hc] at hs hsorted
    rcases mem_cons.mp hs with rfl | hs
    · exact le_rfl
    · exact (pairwise_cons.mp hsorted).1 s hs
  rcases CutPoints.ceil_mem cfg.snapshots maxSequenceNumber q with h | h
  · exact hlow _ h
  rw [stripe, h, Config.earliestSnapshot]
  cases hc : cfg.snapshots with
  | nil => exact le_rfl
  | cons c cs => exact hsnap.le c (hc ▸ .head _)

end Stripes

/-- The sequence numbers at which someone may read: the live snapshots and the tip. -/
def Live (cfg : Config K) (s : Nat) : Prop := s ∈ cfg.snapshots ∨ s = maxSequenceNumber

variable {cfg : Config K}

/-- A reader does not tell the entries of a stripe apart. -/
theorem sequence_le_iff (hsnap : LiveSnapshots cfg.snapshots) {s : Nat} (hq : q ≤ maxSequenceNumber)
    (hs : Live cfg s) : q ≤ s ↔ stripe cfg q ≤ s :=
  CutPoints.le_iff_ceil_le hsnap.ascending hsnap.le hq hs

theorem earliest_le (hsnap : LiveSnapshots cfg.snapshots) {s : Nat} (hs : Live cfg s) :
    cfg.earliestSnapshot ≤ s := by
  have hle : s ≤ maxSequenceNumber := by
    rcases hs with hs | hs
    · exact hsnap.le s hs
    · exact hs.le
  exact Nat.le_trans (earliest_le_stripe hsnap s)
    ((sequence_le_iff hsnap hle hs).mp (Nat.le_refl s))

/-! ## Deeper levels -/

def LevelFile.Holds (f : LevelFile K) (k : K) : Prop :=
  f.smallest.userKey ≤ k ∧ k ≤ f.largest.userKey

instance (f : LevelFile K) (k : K) : Decidable (LevelFile.Holds f k) :=
  inferInstanceAs (Decidable (_ ∧ _))

/-- No file of the levels has the key in its range. -/
def notIn (levels : List (Level K)) (k : K) : Bool :=
  levels.all (fun l => l.files.all (fun f => !decide (LevelFile.Holds f k)))

/-- `KeyNotExistsBeyondOutputLevel` without cursors. -/
def gone (cfg : Config K) (k : K) : Bool :=
  match cfg.compaction with
  | none => false
  | some c => c.bottommostLevel ||
      (decide (c.outputLevel ≠ 0 ∧ c.style = .level) && notIn c.deeper k)

/-- The cursors have passed only files that end before the key. -/
def PtrsAt (k : K) (levels : List (Level K)) (ptrs : LevelPtrs K) : Prop :=
  List.Forall₂ (fun l fs => ∃ passed, l.files = passed ++ fs ∧
    ∀ f ∈ passed, f.largest.userKey < k) levels ptrs

theorem ptrsAt_start (k : K) (levels : List (Level K)) :
    PtrsAt k levels (levels.map Level.files) := by
  rw [PtrsAt, List.forall₂_map_right_iff]
  exact List.forall₂_same.mpr fun l _ => ⟨[], rfl, nofun⟩

variable {k : K} {ptrs : LevelPtrs K}

theorem PtrsAt.mono {k' : K} {levels : List (Level K)} (h : PtrsAt k levels ptrs) (hk : k ≤ k') :
    PtrsAt k' levels ptrs := by
  refine .imp ?_ h
  rintro l fs ⟨passed, hfiles, hpassed⟩
  exact ⟨passed, hfiles, fun f hf => (hpassed f hf).trans_le hk⟩

variable {fs : List (LevelFile K)}

/-- The first file that does not end before the key decides about its level. -/
theorem head_decides (hordered : fs.Pairwise (fun f g => f.largest.userKey ≤ g.smallest.userKey)) :
    (∃ f ∈ fs, LevelFile.Holds f k) ↔
      ∃ f, (fs.dropWhile (fun f => decide (f.largest.userKey < k))).head? = some f ∧
        f.smallest.userKey ≤ k := by
  induction fs with
  | nil => simp
  | cons f fs ih =>
  obtain ⟨hf, hfs⟩ := pairwise_cons.mp hordered
  by_cases hlt : f.largest.userKey < k
  · rw [dropWhile_cons_of_pos (by rw [decide_eq_true_eq]; exact hlt), ← ih hfs,
      exists_mem_cons_iff]
    exact or_iff_right fun h => not_le_of_gt hlt h.2
  rw [dropWhile_cons_of_neg (by rw [decide_eq_true_eq]; exact hlt)]
  constructor
  · rintro ⟨g, hg, hholds⟩
    refine ⟨f, rfl, ?_⟩
    rcases mem_cons.mp hg with rfl | hg
    · exact hholds.1
    · exact f.bounds.trans ((hf g hg).trans hholds.1)
  · rintro ⟨g, hg, hle⟩
    cases hg
    exact ⟨f, .head _, hle, le_of_not_gt hlt⟩

theorem notIn_cons {l : Level K} {ls : List (Level K)} :
    notIn (l :: ls) k = true ↔ (¬ ∃ f ∈ l.files, LevelFile.Holds f k) ∧ notIn ls k = true := by
  simp only [notIn, all_cons, Bool.and_eq_true, all_eq_true, Bool.not_eq_true',
    decide_eq_false_iff_not, not_exists, not_and]

/-- **THE CURSORS** say what a search of all files says, and stay before the key. -/
theorem notInLevels_spec {levels : List (Level K)} (h : PtrsAt k levels ptrs) :
    (notInLevels k ptrs).1 = notIn levels k ∧ PtrsAt k levels (notInLevels k ptrs).2 := by
  induction h with
  | nil => exact ⟨rfl, .nil⟩
  | @cons l fs ls rest hl hls ih =>
  obtain ⟨passed, hfiles, hpassed⟩ := hl
  -- what the cursor passed does not matter to later keys
  have hdrop : fs.dropWhile (fun f => decide (f.largest.userKey < k))
      = l.files.dropWhile (fun f => decide (f.largest.userKey < k)) := by
    rw [hfiles, dropWhile_append_of_pos fun f hf => decide_eq_true (hpassed f hf)]
  have hholds := @head_decides _ _ k _ l.ordered
  have hmoved : ∃ passed', l.files = passed' ++
      l.files.dropWhile (fun f => decide (f.largest.userKey < k)) ∧
      ∀ f ∈ passed', f.largest.userKey < k :=
    ⟨_, takeWhile_append_dropWhile.symm, fun f hf => by simpa using mem_takeWhile_imp hf⟩
  simp only [notInLevels, hdrop]
  cases hhead : (l.files.dropWhile (fun f => decide (f.largest.userKey < k))).head? with
  | none =>
    have hnone : ¬ ∃ f ∈ l.files, LevelFile.Holds f k := by
      rw [hholds, hhead]
      rintro ⟨f, hf, -⟩
      exact nomatch hf
    refine ⟨?_, .cons hmoved ih.2⟩
    rw [Bool.eq_iff_iff, notIn_cons, ih.1]
    exact ⟨fun hrest => ⟨hnone, hrest⟩, And.right⟩
  | some f =>
  simp only
  split_ifs with hle
  · refine ⟨?_, .cons hmoved hls⟩
    symm
    rw [Bool.eq_false_iff, ne_eq, notIn_cons, hholds]
    exact fun hnot => hnot.1 ⟨f, hhead, hle⟩
  refine ⟨?_, .cons hmoved ih.2⟩
  rw [Bool.eq_iff_iff, notIn_cons, hholds, ih.1, hhead]
  refine ⟨fun hrest => ⟨?_, hrest⟩, And.right⟩
  rintro ⟨g, hg, hgle⟩
  cases hg
  exact hle hgle

/-- The cursors of a compaction; a flush has none. -/
def PtrsOk (cfg : Config K) (k : K) (ptrs : LevelPtrs K) : Prop :=
  ∀ c, cfg.compaction = some c → PtrsAt k c.deeper ptrs

theorem keyNotExists_spec {c : Compaction K} (hc : cfg.compaction = some c)
    (h : PtrsOk cfg k ptrs) :
    (keyNotExistsBeyondOutputLevel c k ptrs).1 = gone cfg k ∧
      PtrsOk cfg k (keyNotExistsBeyondOutputLevel c k ptrs).2 := by
  obtain ⟨hnot, hptrs⟩ := notInLevels_spec (h c hc)
  have hok : ∀ ptrs', PtrsAt k c.deeper ptrs' → PtrsOk cfg k ptrs' := by
    intro ptrs' hat c' hc'
    rw [hc] at hc'
    cases hc'
    exact hat
  simp only [keyNotExistsBeyondOutputLevel, gone, hc]
  cases hbottom : c.bottommostLevel with
  | true => exact ⟨rfl, h⟩
  | false =>
  simp only [Bool.false_eq_true, if_false, Bool.false_or]
  split_ifs with hlevel
  · rw [decide_eq_true hlevel, Bool.true_and]
    exact ⟨hnot, hok _ hptrs⟩
  · rw [decide_eq_false hlevel]
    exact ⟨rfl, h⟩

/-! ## One key -/

/-- The deletion is dropped, whatever follows. -/
def obsolete (cfg : Config K) (key : InternalKey K) : Bool :=
  match cfg.compaction with
  | none => false
  | some c => decide (key.type = .deletion ∧ key.sequence ≤ cfg.earliestSnapshot ∧
      cfg.notNeededForIncrementalSnapshot c key.sequence = true) && gone cfg key.userKey

/-- The end of the entries of a key is the next key, when there is one. -/
def Stop.seen (more : Bool) : Stop K → Stop K
  | .exhausted => if more then .nextUserKey else .exhausted
  | s => s

/-- The merge output for the operand `e` and the older entries `es` of its key. -/
def mergeOut (cfg : Config K) (helper : MergeHelper K) (more : Bool) (e : Entry K)
    (es : List (Entry K)) : Except Status (List (Entry K)) :=
  let c := collect cfg e.1.userKey (CutPoints.floor cfg.snapshots e.1.sequence) true [] (e :: es)
  mergeFinish helper cfg.bottommostLevel c.operands (Stop.seen more c.stop)

/-- The iterator on the entries of one key.  `last` is the stripe of the entry before. -/
def keyOut (cfg : Config K) (more : Bool) : Nat → List (Entry K) → List (Entry K)
  | _, [] => []
  | last, e :: es =>
    let cur := stripe cfg e.1.sequence
    if last = cur then keyOut cfg more last es
    else if obsolete cfg e.1 then keyOut cfg more cur es
    else if looksAhead cfg e.1 then
      if es.any (fun n => decide (stripe cfg n.1.sequence ≠ cur)) then
        prepareOutput cfg e :: keyOut cfg more cur es
      else keyOut cfg more cur es
    else if e.1.type = .merge then
      match cfg.mergeHelper with
      | none => []
      | some helper =>
        match mergeOut cfg helper more e es with
        | .error _ => []
        | .ok [] => keyOut cfg more 0 es
        | .ok (o :: os) => (o :: os).map (prepareOutput cfg) ++ keyOut cfg more cur es
    else if cfg.shouldDelete e.1 then keyOut cfg more cur es
    else prepareOutput cfg e :: keyOut cfg more cur es

variable {e : Entry K}

theorem keyOut_hidden {more : Bool} {last : Nat} {es : List (Entry K)}
    (h : stripe cfg e.1.sequence = last) :
    keyOut cfg more last (e :: es) = keyOut cfg more last es := by
  rw [keyOut, if_pos h.symm]

/-- Entries of the stripe of the entry before are not there. -/
theorem keyOut_used {more : Bool} {last : Nat} {used es : List (Entry K)}
    (h : ∀ n ∈ used, stripe cfg n.1.sequence = last) :
    keyOut cfg more last (used ++ es) = keyOut cfg more last es := by
  induction used with
  | nil => rfl
  | cons n ns ih =>
    rw [cons_append, keyOut_hidden (h n (.head _))]
    exact ih fun m hm => h m (.tail n hm)

/-- **A PLAIN ENTRY** that is not hidden is dropped, for one of three reasons, or output. -/
theorem keyOut_plain (more : Bool) {last : Nat} (es : List (Entry K))
    (hlast : last ≠ stripe cfg e.1.sequence) (htype : e.1.type ≠ .merge) :
    (keyOut cfg more last (e :: es) = keyOut cfg more (stripe cfg e.1.sequence) es ∧
      (obsolete cfg e.1 = true ∨
        looksAhead cfg e.1 = true ∧ (∀ n ∈ es, stripe cfg n.1.sequence = stripe cfg e.1.sequence) ∨
        looksAhead cfg e.1 = false ∧ cfg.shouldDelete e.1 = true)) ∨
    (keyOut cfg more last (e :: es)
        = prepareOutput cfg e :: keyOut cfg more (stripe cfg e.1.sequence) es ∧
      obsolete cfg e.1 = false ∧ (looksAhead cfg e.1 = false → cfg.shouldDelete e.1 = false)) := by
  rw [keyOut, if_neg hlast]
  cases hob : obsolete cfg e.1 with
  | true => exact .inl ⟨if_pos rfl, .inl rfl⟩
  | false =>
  rw [if_neg Bool.false_ne_true]
  cases hlook : looksAhead cfg e.1 with
  | true =>
    rw [if_pos rfl]
    split
    · exact .inr ⟨rfl, rfl, fun h => by cases h⟩
    rename_i hany
    refine .inl ⟨rfl, .inr (.inl ⟨rfl, fun n hn => ?_⟩)⟩
    rw [Bool.not_eq_true, any_eq_false] at hany
    have hn := hany n hn
    rw [decide_eq_true_eq] at hn
    exact not_not.mp hn
  | false =>
  rw [if_neg Bool.false_ne_true, if_neg htype]
  cases hdel : cfg.shouldDelete e.1 with
  | true => exact .inl ⟨if_pos rfl, .inr (.inr ⟨rfl, rfl⟩)⟩
  | false => exact .inr ⟨if_neg Bool.false_ne_true, rfl, fun _ => rfl⟩

theorem merge_neither (cfg : Config K) (h : e.1.type = .merge) :
    obsolete cfg e.1 = false ∧ looksAhead cfg e.1 = false := by
  constructor
  · rw [obsolete]
    split <;> simp [h]
  · rw [looksAhead]
    split <;> simp [h]

variable {outs : List (Entry K)} {helper : MergeHelper K}

/-- An operand that is not hidden. -/
theorem keyOut_merge {more : Bool} {last : Nat} {es : List (Entry K)}
    (hlast : last ≠ stripe cfg e.1.sequence) (htype : e.1.type = .merge)
    (hhelper : cfg.mergeHelper = some helper) (hout : mergeOut cfg helper more e es = .ok outs) :
    keyOut cfg more last (e :: es) = if outs = [] then keyOut cfg more 0 es
      else outs.map (prepareOutput cfg) ++ keyOut cfg more (stripe cfg e.1.sequence) es := by
  obtain ⟨hob, hlook⟩ := merge_neither cfg htype
  rw [keyOut]
  simp only [hhelper, hout]
  rw [if_neg hlast, if_neg (by rw [hob]; decide), if_neg (by rw [hlook]; decide), if_pos htype]
  cases outs with
  | nil => rfl
  | cons o os => rfl

/-- The entries of one key as the iterator gets them, newest first. -/
structure KeyEntries (cfg : Config K) (k : K) (es : List (Entry K)) : Prop where
  key : ∀ e ∈ es, e.1.userKey = k
  sequence : ∀ e ∈ es, Proper cfg.snapshots e.1.sequence
  sorted : es.Pairwise (fun a b => b.1.sequence ≤ a.1.sequence)

section Entries

variable {cfg : Config K} {k : K} {e : Entry K} {es : List (Entry K)}

theorem KeyEntries.sublist {es' : List (Entry K)} (h : KeyEntries cfg k es)
    (hsub : es'.Sublist es) : KeyEntries cfg k es' :=
  ⟨fun n hn => h.key n (hsub.subset hn), fun n hn => h.sequence n (hsub.subset hn),
    h.sorted.sublist hsub⟩

theorem KeyEntries.suffix {front : List (Entry K)} (h : KeyEntries cfg k (front ++ es)) :
    KeyEntries cfg k es := h.sublist (sublist_append_right front es)

theorem KeyEntries.tail (h : KeyEntries cfg k (e :: es)) : KeyEntries cfg k es :=
  h.sublist (sublist_cons_self e es)

/-- Entries of the key `k` up to the sequence number `q`. -/
def Older (cfg : Config K) (k : K) (q : Nat) (es : List (Entry K)) : Prop :=
  ∀ n ∈ es, n.1.userKey = k ∧ n.1.sequence ≤ q ∧ Proper cfg.snapshots n.1.sequence

theorem KeyEntries.older (h : KeyEntries cfg k (e :: es)) :
    Older cfg e.1.userKey e.1.sequence es := fun n hn =>
  ⟨(h.tail.key n hn).trans (h.key e (.head _)).symm,
    (pairwise_cons.mp h.sorted).1 n hn, h.tail.sequence n hn⟩

/-- Behind an entry of a key the stripes are not higher. -/
theorem KeyEntries.stripe_le (hsnap : LiveSnapshots cfg.snapshots)
    (h : KeyEntries cfg k (e :: es)) :
    ∀ n ∈ es, stripe cfg n.1.sequence ≤ stripe cfg e.1.sequence := fun n hn =>
  stripe_mono hsnap (h.sequence e (.head _)).1 (h.older n hn).2.1

end Entries

theorem obsolete_cases {key : InternalKey K} (h : obsolete cfg key = true) :
    key.type = .deletion ∧ gone cfg key.userKey = true ∧ key.sequence ≤ cfg.earliestSnapshot := by
  rw [obsolete] at h
  split at h
  · exact nomatch h
  obtain ⟨hcond, hgone⟩ := Bool.and_eq_true_iff.mp h
  have hcond := of_decide_eq_true hcond
  exact ⟨hcond.1, hgone, hcond.2.1⟩

theorem looksAhead_cases {key : InternalKey K} (h : looksAhead cfg key = true) :
    key.type = .deletion ∧ gone cfg key.userKey = true := by
  rw [looksAhead] at h
  cases hc : cfg.compaction with
  | none =>
    rw [hc] at h
    exact nomatch h
  | some c =>
  simp only [hc, Bool.and_eq_true, decide_eq_true_eq] at h
  refine ⟨h.1.1, ?_⟩
  simp only [gone, hc, h.1.2, Bool.true_or]

section

variable (cfg : Config K) (e : Entry K)

@[simp]
theorem prepareOutput_userKey : (prepareOutput cfg e).1.userKey = e.1.userKey := by
  rw [prepareOutput]
  split
  · rfl
  · split <;> rfl

@[simp]
theorem prepareOutput_type : (prepareOutput cfg e).1.type = e.1.type := by
  rw [prepareOutput]
  split
  · rfl
  · split <;> rfl

@[simp]
theorem prepareOutput_value : (prepareOutput cfg e).2 = e.2 := by
  rw [prepareOutput]
  split
  · rfl
  · split <;> rfl

theorem prepareOutput_sequence_le : (prepareOutput cfg e).1.sequence ≤ e.1.sequence := by
  rw [prepareOutput]
  split
  · exact le_rfl
  split
  · exact Nat.zero_le _
  · exact le_rfl

end

/-- When `PrepareOutput` renumbers an entry. -/
structure Zeroed (cfg : Config K) (e : Entry K) : Prop where
  bottommost : cfg.bottommostLevel = true
  le : e.1.sequence ≤ cfg.earliestSnapshot
  type : e.1.type ≠ .merge
  gone : gone cfg e.1.userKey = true
  /-- a deletion would have been dropped before -/
  obsolete : e.1.type = .deletion → obsolete cfg e.1 = true

theorem prepareOutput_cases (cfg : Config K) (e : Entry K) :
    prepareOutput cfg e = e ∨
      prepareOutput cfg e = ({ e.1 with sequence := 0 }, e.2) ∧ Zeroed cfg e := by
  rw [prepareOutput]
  cases hc : cfg.compaction with
  | none => exact .inl rfl
  | some c =>
  simp only
  split
  · rename_i h
    obtain ⟨-, hneeded, hbottom, hle, htype, -⟩ := h
    have hgone : gone cfg e.1.userKey = true := by
      simp only [gone, hc, hbottom, Bool.true_or]
    refine .inr ⟨rfl, ?_, hle, htype, hgone, fun hdel => ?_⟩
    · simp only [Config.bottommostLevel, hc, hbottom]
    · simp only [CompactionKey.obsolete, hc, hgone, Bool.and_true, decide_eq_true_eq]
      exact ⟨hdel, hle, hneeded⟩
  · exact .inl rfl

/-- Operands keep their numbers. -/
theorem prepareOutput_merge (h : e.1.type = .merge) : prepareOutput cfg e = e :=
  (prepareOutput_cases cfg e).resolve_right fun hzero => hzero.2.type h

/-! ## The first entry of a key -/

section First

variable {cfg : Config K} {k : K} {e : Entry K} {es : List (Entry K)} {more : Bool}

/-- The entries of the stripe are hidden; the first one behind them starts afresh. -/
theorem keyOut_fresh {used r : List (Entry K)}
    (hused : ∀ n ∈ used, stripe cfg n.1.sequence = stripe cfg e.1.sequence)
    (hr : ∀ n ∈ r, stripe cfg n.1.sequence ≠ stripe cfg e.1.sequence)
    (hproper : ∀ n ∈ r, Proper cfg.snapshots n.1.sequence) :
    keyOut cfg more (stripe cfg e.1.sequence) (used ++ r) = keyOut cfg more 0 r := by
  rw [keyOut_used hused]
  cases r with
  | nil => rfl
  | cons n ns =>
    have hpos := stripe_pos (hproper n (.head _))
    rw [keyOut, if_neg (hr n (.head _)).symm, keyOut, if_neg (Nat.ne_of_lt hpos)]

variable (hsnap : LiveSnapshots cfg.snapshots)
include hsnap

/-- The entries of a key behind `e` are those of its stripe and older ones. -/
theorem split_stripe (hes : KeyEntries cfg k (e :: es)) :
    ∃ used r, es = used ++ r ∧
      (∀ n ∈ used, stripe cfg n.1.sequence = stripe cfg e.1.sequence) ∧
      ∀ n ∈ r, stripe cfg n.1.sequence < stripe cfg e.1.sequence := by
  induction es with
  | nil => exact ⟨[], [], rfl, forall_mem_nil _, forall_mem_nil _⟩
  | cons n ns ih =>
  by_cases hstripe : stripe cfg n.1.sequence = stripe cfg e.1.sequence
  · obtain ⟨used, r, hsplit, hused, hr⟩ :=
      ih (hes.sublist ((sublist_cons_self n ns).cons_cons e))
    exact ⟨n :: used, r, congrArg (n :: ·) hsplit, forall_mem_cons.mpr ⟨hstripe, hused⟩, hr⟩
  · have hlt := lt_of_le_of_ne (hes.stripe_le hsnap n (.head _)) hstripe
    refine ⟨[], n :: ns, rfl, forall_mem_nil _, forall_mem_cons.mpr ⟨hlt, ?_⟩⟩
    exact fun m hm => (hes.tail.stripe_le hsnap m hm).trans_lt hlt

/-- There is no stripe behind the earliest one. -/
theorem eq_nil_of_earliest {r : List (Entry K)} (hq : e.1.sequence ≤ maxSequenceNumber)
    (hle : e.1.sequence ≤ cfg.earliestSnapshot)
    (hr : ∀ n ∈ r, stripe cfg n.1.sequence < stripe cfg e.1.sequence) : r = [] := by
  refine eq_nil_iff_forall_not_mem.mpr fun n hn => ?_
  have hlt := hr n hn
  rw [(le_earliest_iff hq).mp hle] at hlt
  exact absurd (earliest_le_stripe hsnap n.1.sequence) (Nat.not_le_of_lt hlt)

/-- What becomes of a value or a deletion `e` that is the first entry of its key, with the
    entries `r` behind its stripe. -/
inductive First (cfg : Config K) (more : Bool) (e : Entry K) (es r : List (Entry K)) : Prop
  /-- a deletion with nothing left to delete -/
  | dropped (hout : keyOut cfg more 0 (e :: es) = keyOut cfg more 0 r)
      (hdel : e.1.type = .deletion) (hgone : gone cfg e.1.userKey = true) (hr : r = [])
  | covered (hout : keyOut cfg more 0 (e :: es) = keyOut cfg more 0 r)
      (hdel : cfg.shouldDelete e.1 = true)
  | kept (hout : keyOut cfg more 0 (e :: es) = prepareOutput cfg e :: keyOut cfg more 0 r)
      (hob : obsolete cfg e.1 = false)
      (hdel : looksAhead cfg e.1 = false → cfg.shouldDelete e.1 = false)

theorem keyOut_first (more : Bool) (hes : KeyEntries cfg k (e :: es)) (htype : e.1.type ≠ .merge) :
    ∃ used r, es = used ++ r ∧
      (∀ n ∈ used, stripe cfg n.1.sequence = stripe cfg e.1.sequence) ∧
      (∀ n ∈ r, stripe cfg n.1.sequence < stripe cfg e.1.sequence) ∧ First cfg more e es r := by
  obtain ⟨used, r, rfl, hused, hr⟩ := split_stripe hsnap hes
  have hfresh : keyOut cfg more (stripe cfg e.1.sequence) (used ++ r) = keyOut cfg more 0 r :=
    keyOut_fresh hused (fun n hn => Nat.ne_of_lt (hr n hn)) fun n hn =>
      hes.tail.sequence n (mem_append_right used hn)
  refine ⟨used, r, rfl, hused, hr, ?_⟩
  rcases keyOut_plain more (used ++ r) (Nat.ne_of_lt (stripe_pos (hes.sequence e (.head _)))) htype
    with ⟨hout, hob | ⟨hlook, hall⟩ | ⟨-, hdel⟩⟩ | ⟨hout, hob, hdel⟩
  · obtain ⟨hdel, hgone, hle⟩ := obsolete_cases hob
    exact .dropped (hout.trans hfresh) hdel hgone
      (eq_nil_of_earliest hsnap (hes.sequence e (.head _)).1 hle hr)
  · obtain ⟨hdel, hgone⟩ := looksAhead_cases hlook
    refine .dropped (hout.trans hfresh) hdel hgone (eq_nil_iff_forall_not_mem.mpr fun n hn => ?_)
    exact absurd (hall n (mem_append_right used hn)) (Nat.ne_of_lt (hr n hn))
  · exact .covered (hout.trans hfresh) hdel
  · exact .kept (hfresh ▸ hout) hob hdel

/-- **STRIPE BY STRIPE**: induction over the entries of a key without merge operands. -/
theorem plain_induction (more : Bool) {motive : List (Entry K) → Prop} (nil : motive [])
    (step : ∀ e used r, KeyEntries cfg k (e :: (used ++ r)) →
      (∀ n ∈ used, stripe cfg n.1.sequence = stripe cfg e.1.sequence) →
      (∀ n ∈ r, stripe cfg n.1.sequence < stripe cfg e.1.sequence) →
      (∀ n ∈ r, n.1.type ≠ .merge) → First cfg more e (used ++ r) r → motive r →
      motive (e :: (used ++ r))) :
    ∀ es, KeyEntries cfg k es → (∀ e ∈ es, e.1.type ≠ .merge) → motive es := by
  intro es
  induction hn : es.length using Nat.strong_induction_on generalizing es with
  | _ n ih =>
  intro hes htypes
  cases es with
  | nil => exact nil
  | cons e es =>
  obtain ⟨used, r, rfl, hused, hr, hfirst⟩ := keyOut_first hsnap more hes (htypes e (.head _))
  have hrtypes : ∀ n ∈ r, n.1.type ≠ .merge := fun n hn =>
    htypes n (.tail e (mem_append_right used hn))
  refine step e used r hes hused hr hrtypes hfirst
    (ih r.length ?_ r rfl hes.tail.suffix hrtypes)
  rw [← hn, length_cons, length_append]
  omega

end First

/-! ## Merge operands of one key -/

variable {c : Collected K} {g ms : List (Entry K)}

section Collect

variable {cfg : Config K} {k : K} {p : Nat}

/-- What follows the entries of the key is not looked at. -/
theorem collect_append {tail : List (Entry K)} (htail : ∀ n ∈ tail, n.1.userKey ≠ k)
    (g : List (Entry K)) (firstKey : Bool) (acc : List (Entry K)) (hkeys : ∀ n ∈ g, n.1.userKey = k)
    (hfirst : firstKey = false ∨ g ≠ []) :
    collect cfg k p firstKey acc (g ++ tail) =
      ⟨(collect cfg k p firstKey acc g).operands,
        Stop.seen (decide (tail ≠ [])) (collect cfg k p firstKey acc g).stop,
        (collect cfg k p firstKey acc g).rest ++ tail⟩ := by
  induction g generalizing firstKey acc with
  | nil =>
    obtain rfl : firstKey = false := hfirst.resolve_right fun h => h rfl
    rw [nil_append]
    cases tail with
    | nil => rfl
    | cons t ts =>
    have hstop : collect cfg k p false acc (t :: ts) = ⟨acc, .nextUserKey, t :: ts⟩ := by
      rw [collect, if_pos ⟨rfl, htail t (.head _)⟩]
    exact hstop
  | cons e es ih =>
  have hkey := hkeys e (.head _)
  have ih := fun acc => ih false acc (fun n hn => hkeys n (.tail e hn))
    (.inl rfl)
  have hnot : ¬ (firstKey = false ∧ e.1.userKey ≠ k) := fun h => h.2 hkey
  simp only [cons_append, collect]
  rw [if_neg hnot, if_neg hnot]
  by_cases hstripe : firstKey = false ∧ p > 0 ∧ e.1.sequence ≤ p
  · rw [if_pos hstripe, if_pos hstripe]
    rfl
  rw [if_neg hstripe, if_neg hstripe]
  by_cases htype : e.1.type ≠ .merge
  · rw [if_pos htype, if_pos htype]
    split <;> rfl
  rw [if_neg htype, if_neg htype]
  split
  · exact ih acc
  · exact ih (acc ++ [e])

/-- How the loop of `MergeUntil` ends, for a key whose first operand has the sequence
    number `q`: `ms` are the operands it went over. -/
inductive Ends (cfg : Config K) (q : Nat) (g : List (Entry K)) (ms : List (Entry K))
    (c : Collected K) : Prop
  /-- the key has no more entries -/
  | exhausted (hg : g = ms) (hstop : c.stop = .exhausted) (hrest : c.rest = [])
  /-- the next entry is of another stripe -/
  | nextStripe (n : Entry K) (r : List (Entry K)) (hg : g = ms ++ n :: r)
      (hn : stripe cfg n.1.sequence ≠ stripe cfg q) (hstop : c.stop = .nextStripe)
      (hrest : c.rest = n :: r)
  /-- the next entry is not an operand -/
  | base (n : Entry K) (r : List (Entry K)) (hg : g = ms ++ n :: r)
      (hn : stripe cfg n.1.sequence = stripe cfg q) (htype : n.1.type ≠ .merge)
      (hstop : c.stop = .base n) (hrest : c.rest = if c.operands = [] then n :: r else r)

theorem Ends.cons (e : Entry K) (h : Ends cfg q g ms c) : Ends cfg q (e :: g) (e :: ms) c := by
  cases h with
  | exhausted hg hstop hrest => exact .exhausted (congrArg (e :: ·) hg) hstop hrest
  | nextStripe n r hg hn hstop hrest =>
    exact .nextStripe n r (congrArg (e :: ·) hg) hn hstop hrest
  | base n r hg hn htype hstop hrest =>
    exact .base n r (congrArg (e :: ·) hg) hn htype hstop hrest

/-- **THE OPERANDS** are those of the stripe that no tombstone of the stripe covers. -/
theorem collect_spec (hsnap : LiveSnapshots cfg.snapshots) (hq : q ≤ maxSequenceNumber)
    (g : List (Entry K)) (acc) (hkeys : Older cfg k q g) :
    ∃ ms, (∀ m ∈ ms, m.1.type = .merge ∧ stripe cfg m.1.sequence = stripe cfg q) ∧
      (collect cfg k (CutPoints.floor cfg.snapshots q) false acc g).operands = acc ++ ms.filter
      (fun m => !cfg.shouldDelete m.1) ∧ Ends cfg q g ms
      (collect cfg k (CutPoints.floor cfg.snapshots q) false acc g) := by
  induction g generalizing acc with
  | nil =>
    exact ⟨[], forall_mem_nil _, (append_nil acc).symm, .exhausted rfl rfl rfl⟩
  | cons e es ih =>
  obtain ⟨hkey, hle, hproper⟩ := hkeys e (.head _)
  have ih := fun acc => ih acc (fun n hn => hkeys n (.tail e hn))
  have hsame := same_stripe_iff hsnap hq hle hproper
  rw [collect, if_neg (fun h => h.2 hkey)]
  by_cases hstripe : stripe cfg e.1.sequence = stripe cfg q
  · have hnot := hsame.mpr hstripe
    rw [if_neg (by omega)]
    split
    · rename_i htype
      exact ⟨[], forall_mem_nil _, (append_nil acc).symm, .base e es rfl hstripe htype rfl rfl⟩
    rename_i htype
    have hmerge : e.1.type = .merge ∧ stripe cfg e.1.sequence = stripe cfg q :=
      ⟨not_not.mp htype, hstripe⟩
    cases hdel : cfg.shouldDelete e.1 with
    | true =>
      obtain ⟨ms, hms, hops, hends⟩ := ih acc
      rw [if_pos rfl]
      refine ⟨e :: ms, ?_, ?_, hends.cons e⟩
      · exact forall_mem_cons.mpr ⟨hmerge, hms⟩
      · rw [hops, filter_cons_of_neg (by rw [hdel]; decide)]
    | false =>
    obtain ⟨ms, hms, hops, hends⟩ := ih (acc ++ [e])
    rw [if_neg Bool.false_ne_true]
    refine ⟨e :: ms, ?_, ?_, hends.cons e⟩
    · exact forall_mem_cons.mpr ⟨hmerge, hms⟩
    · rw [hops, filter_cons_of_pos (by rw [hdel]; rfl), append_assoc]
      rfl
  · have hnot := fun h => hstripe (hsame.mp h)
    rw [if_pos ⟨rfl, by omega, by omega⟩]
    exact ⟨[], forall_mem_nil _, (append_nil acc).symm, .nextStripe e es rfl hstripe rfl rfl⟩

theorem Ends.used (hms : ∀ m ∈ ms, m.1.type = .merge ∧ stripe cfg m.1.sequence = stripe cfg q)
    (hends : Ends cfg q g ms c) (hops : c.operands ≠ []) :
    ∃ used, g = used ++ c.rest ∧ ∀ n ∈ used, stripe cfg n.1.sequence = stripe cfg q := by
  cases hends with
  | exhausted hg _ hrest =>
    exact ⟨ms, by rw [hrest, append_nil, hg], fun n hn => (hms n hn).2⟩
  | nextStripe n r hg _ _ hrest => exact ⟨ms, by rw [hrest, hg], fun n hn => (hms n hn).2⟩
  | base n r hg hn _ _ hrest =>
  rw [if_neg hops] at hrest
  refine ⟨ms ++ [n], by rw [hrest, hg, append_assoc]; rfl, fun m hm => ?_⟩
  rcases mem_append.mp hm with hm | hm
  · exact (hms m hm).2
  · rw [mem_singleton.mp hm]
    exact hn

/-- Without operands nothing but them was consumed. -/
theorem Ends.unused (hends : Ends cfg q g ms c) (hops : c.operands = []) : g = ms ++ c.rest := by
  cases hends with
  | exhausted hg _ hrest => rw [hrest, append_nil, hg]
  | nextStripe n r hg _ _ hrest => rw [hrest, hg]
  | base n r hg _ _ _ hrest => rw [hrest, if_pos hops, hg]

theorem Ends.subset (hends : Ends cfg q g ms c) : ∀ m ∈ ms, m ∈ g := by
  intro m hm
  cases hends with
  | exhausted hg => exact hg ▸ hm
  | nextStripe n r hg => exact hg ▸ mem_append_left _ hm
  | base n r hg => exact hg ▸ mem_append_left _ hm

/-- The first operand of `MergeUntil`. -/
theorem collect_first (htype : e.1.type = .merge) (es : List (Entry K)) :
    collect cfg k p true [] (e :: es) =
      collect cfg k p false (if cfg.shouldDelete e.1 then [] else [e]) es := by
  rw [collect, if_neg (fun h => by cases h.1), if_neg (fun h => by cases h.1),
    if_neg (fun h => h htype)]
  cases cfg.shouldDelete e.1 <;> rfl

/-- An operator that does not fail. -/
def MergeHelper.Total (helper : MergeHelper K) : Prop :=
  ∀ k base ops, (helper.fullMergeV2 k base ops).isSome

/-- What the end of `MergeUntil` makes of the operands `newest :: older`. -/
inductive Finished (helper : MergeHelper K) (atBottom : Bool) (newest : Entry K)
    (older : List (Entry K)) (stop : Stop K) : List (Entry K) → Prop
  /-- a full merge with the base -/
  | base (b : Entry K) (v : Bytes) (hstop : stop = .base b)
      (hv : helper.fullMergeV2 newest.1.userKey (if b.1.type = .value then some b.2 else none)
        (mergeOperands (newest :: older)) = some v) :
      Finished helper atBottom newest older stop [({ newest.1 with type := .value }, v)]
  /-- a full merge at the root of the history -/
  | root (v : Bytes) (hroot : stop = .nextUserKey ∧ atBottom = true)
      (hv : helper.fullMergeV2 newest.1.userKey none (mergeOperands (newest :: older)) = some v) :
      Finished helper atBottom newest older stop [({ newest.1 with type := .value }, v)]
  /-- the operands, or one for all of them -/
  | operands (outs : List (Entry K)) (hstop : ∀ b, stop ≠ .base b)
      (houts : outs = newest :: older ∨ ∃ v, outs = [(newest.1, v)] ∧
        helper.partialMergeMulti newest.1.userKey (mergeOperands (newest :: older)) = some v) :
      Finished helper atBottom newest older stop outs

theorem mergeFinish_spec (htotal : MergeHelper.Total helper) (atBottom : Bool) (newest : Entry K)
    (older : List (Entry K)) (stop : Stop K) :
    ∃ outs, mergeFinish helper atBottom (newest :: older) stop = .ok outs ∧
      Finished helper atBottom newest older stop outs := by
  have hfull : ∀ base, ∃ v,
      helper.fullMergeV2 newest.1.userKey base (mergeOperands (newest :: older)) = some v ∧
      fullMerged helper newest base (mergeOperands (newest :: older))
        = .ok [({ newest.1 with type := .value }, v)] := by
    intro base
    obtain ⟨v, hv⟩ := Option.isSome_iff_exists.mp (htotal newest.1.userKey base _)
    exact ⟨v, hv, by rw [fullMerged, hv]⟩
  by_cases hbase : ∃ b, stop = .base b
  · obtain ⟨b, rfl⟩ := hbase
    obtain ⟨v, hv, hok⟩ := hfull (if b.1.type = .value then some b.2 else none)
    exact ⟨_, hok, .base b v rfl hv⟩
  have hstop := not_exists.mp hbase
  rw [mergeFinish]
  · by_cases hroot : stop = .nextUserKey ∧ atBottom = true
    · obtain ⟨v, hv, hok⟩ := hfull none
      rw [if_pos hroot]
      exact ⟨_, hok, .root v hroot hv⟩
    · rw [if_neg hroot]
      split
      · split
        · rename_i v hv
          exact ⟨_, rfl, .operands _ hstop (.inr ⟨v, rfl, hv⟩)⟩
        · exact ⟨_, rfl, .operands _ hstop (.inl rfl)⟩
      · exact ⟨_, rfl, .operands _ hstop (.inl rfl)⟩
  · exact hstop

/-- The end of `MergeUntil` writes under the keys of its operands. -/
theorem mergeFinish_keys (htotal : MergeHelper.Total helper) (atBottom : Bool)
    (operands : List (Entry K)) (stop : Stop K) :
    ∃ outs, mergeFinish helper atBottom operands stop = .ok outs ∧
      (outs = [] → operands = []) ∧ ∀ o ∈ outs, ∃ m ∈ operands, o.1.userKey = m.1.userKey := by
  cases operands with
  | nil => exact ⟨[], rfl, fun _ => rfl, nofun⟩
  | cons newest older =>
  obtain ⟨outs, hout, hfinished⟩ := mergeFinish_spec htotal atBottom newest older stop
  have hone : ∀ (t : ValueType) (v : Bytes), ∀ o ∈ [(({ newest.1 with type := t }, v) : Entry K)],
      ∃ m ∈ newest :: older, o.1.userKey = m.1.userKey :=
    fun t v o ho => ⟨newest, .head _, by rw [mem_singleton.mp ho]⟩
  refine ⟨outs, hout, ?_⟩
  cases hfinished with
  | base b v => exact ⟨nofun, hone _ v⟩
  | root v => exact ⟨nofun, hone _ v⟩
  | operands _ _ houts =>
  rcases houts with rfl | ⟨v, rfl, -⟩
  · exact ⟨id, fun o ho => ⟨o, ho, rfl⟩⟩
  · exact ⟨nofun, hone newest.1.type v⟩

end Collect

/-! ## A turn of the loop -/

theorem obsoleteDeletion_spec {key : InternalKey K} (h : PtrsOk cfg key.userKey ptrs) :
    (obsoleteDeletion cfg key ptrs).1 = obsolete cfg key ∧
      PtrsOk cfg key.userKey (obsoleteDeletion cfg key ptrs).2 := by
  rw [obsoleteDeletion, obsolete]
  cases hc : cfg.compaction with
  | none => exact ⟨rfl, h⟩
  | some c =>
  simp only
  split
  · rename_i hcond
    obtain ⟨hgone, hptrs⟩ := keyNotExists_spec hc h
    rw [decide_eq_true hcond, Bool.true_and]
    exact ⟨hgone, hptrs⟩
  · rename_i hcond
    rw [decide_eq_false hcond]
    exact ⟨rfl, h⟩

/-- The stripe of the entry before, if it was of the key `k`. -/
def State.last (st : State K) (k : K) : Nat :=
  if st.currentUserKey = some k then st.currentUserKeySnapshot else 0

variable {st : State K}

section Turn

variable {cfg : Config K} {k : K} {es tail : List (Entry K)}

theorem enter_at (st : State K) (k : K) :
    (st.enter k).currentUserKey = some k ∧
      (st.enter k).currentUserKeySnapshot = State.last st k ∧
      (st.enter k).clearAndOutputNextKey = st.clearAndOutputNextKey ∧
      (st.enter k).levelPtrs = st.levelPtrs := by
  rw [State.enter, State.last]
  split
  · rename_i h
    exact ⟨h, rfl, rfl, rfl⟩
  · exact ⟨rfl, rfl, rfl, rfl⟩

/-- The effect of a turn at the entry `e`, whose key has the older entries `es`, with the
    entries `tail` of other keys behind them. -/
structure Turn (cfg : Config K) (last : Nat) (e : Entry K) (es tail : List (Entry K))
    (outs : List (Entry K)) (st' : State K) : Prop where
  left : ∃ used es', es = used ++ es' ∧ st'.input = es' ++ tail ∧
    keyOut cfg (decide (tail ≠ [])) last (e :: es) =
      outs.map (prepareOutput cfg) ++ keyOut cfg (decide (tail ≠ []))
        (State.last st' e.1.userKey) es'
  key : st'.currentUserKey = some e.1.userKey ∨ st'.currentUserKey = none
  clear : st'.clearAndOutputNextKey = false
  ptrs : PtrsOk cfg e.1.userKey st'.levelPtrs
  keys : ∀ o ∈ outs, o.1.userKey = e.1.userKey

/-- A turn ends well, with this effect. -/
inductive Turned (cfg : Config K) (last : Nat) (e : Entry K) (es tail : List (Entry K)) :
    Round K → Prop
  | skip {st' : State K} (h : Turn cfg last e es tail [] st') : Turned cfg last e es tail
      (.skip st')
  | output {outs : List (Entry K)} {st' : State K} (h : Turn cfg last e es tail outs st') :
      Turned cfg last e es tail (.output outs st')

/-- A state in the middle of the key of `e`, whose stripe is noted. -/
structure At (cfg : Config K) (e : Entry K) (st : State K) : Prop where
  key : st.currentUserKey = some e.1.userKey
  snapshot : st.currentUserKeySnapshot = stripe cfg e.1.sequence
  clear : st.clearAndOutputNextKey = false
  ptrs : PtrsOk cfg e.1.userKey st.levelPtrs

theorem At.last (h : At cfg e st) : State.last st e.1.userKey = stripe cfg e.1.sequence := by
  rw [State.last, if_pos h.key, h.snapshot]

/-- Most turns stay at the key and consume entries of the stripe. -/
theorem At.turn (h : At cfg e st) {last : Nat} {used es' : List (Entry K)} (hes : es = used ++ es')
    (hinput : st.input = es' ++ tail)
    (hused : ∀ n ∈ used, stripe cfg n.1.sequence = stripe cfg e.1.sequence)
    (hout : keyOut cfg (decide (tail ≠ [])) last (e :: es) = outs.map (prepareOutput cfg) ++ keyOut
      cfg (decide (tail ≠ [])) (stripe cfg e.1.sequence) es)
    (hkeys : ∀ o ∈ outs, o.1.userKey = e.1.userKey) : Turn cfg last e es tail outs st where
  left := by
    refine ⟨used, es', hes, hinput, ?_⟩
    rw [hout, h.last, hes, keyOut_used hused]
  key := .inl h.key
  clear := h.clear
  ptrs := h.ptrs
  keys := hkeys

/-- `MergeUntil` stays within the entries of the key. -/
theorem mergeUntil_append (helper : MergeHelper K) (hes : ∀ n ∈ es, n.1.userKey = e.1.userKey)
    (htail : ∀ n ∈ tail, n.1.userKey ≠ e.1.userKey) :
    mergeUntil cfg helper (CutPoints.floor cfg.snapshots e.1.sequence) e (es ++ tail) =
      (mergeOut cfg helper (decide (tail ≠ [])) e es,
        (collect cfg e.1.userKey (CutPoints.floor cfg.snapshots e.1.sequence) true []
          (e :: es)).rest ++ tail) := by
  have hkeys : ∀ n ∈ e :: es, n.1.userKey = e.1.userKey :=
    forall_mem_cons.mpr ⟨rfl, hes⟩
  have happend : collect cfg e.1.userKey (CutPoints.floor cfg.snapshots e.1.sequence) true []
      (e :: (es ++ tail)) = _ := collect_append htail (e :: es) true [] hkeys
    (.inr (cons_ne_nil e es))
  rw [mergeUntil, mergeOut, happend]

/-- Whether an entry of the key is next. -/
theorem nextOfKey_append (hes : ∀ n ∈ es, n.1.userKey = k)
    (htail : ∀ n ∈ tail, n.1.userKey ≠ k) : nextOfKey k (es ++ tail) = es.head? := by
  cases es with
  | nil =>
    cases tail with
    | nil => rfl
    | cons t ts => exact if_neg (htail t (.head _))
  | cons n ns => exact if_pos (hes n (.head _))

variable (hsnap : LiveSnapshots cfg.snapshots)
include hsnap

/-- The stripe of a deletion is skipped within the entries of its key. -/
theorem skipStripe_append (hq : q ≤ maxSequenceNumber) (hes : Older cfg k q es)
    (htail : ∀ n ∈ tail, n.1.userKey ≠ k) :
    skipStripe k (CutPoints.floor cfg.snapshots q) (es ++ tail) =
      es.dropWhile (fun n => decide (stripe cfg n.1.sequence = stripe cfg q)) ++ tail := by
  induction es with
  | nil =>
    cases tail with
    | nil => rfl
    | cons t ts =>
    exact dropWhile_cons_of_neg (by
      rw [decide_eq_true_eq]
      exact fun h => htail t (.head _) h.1)
  | cons n ns ih =>
  obtain ⟨hkey, hle, hproper⟩ := hes n (.head _)
  have hsame := same_stripe_iff hsnap hq hle hproper
  by_cases hstripe : stripe cfg n.1.sequence = stripe cfg q
  · rw [dropWhile_cons_of_pos (by rw [decide_eq_true_eq]; exact hstripe), skipStripe,
      cons_append, dropWhile_cons_of_pos (by
        rw [decide_eq_true_eq]
        exact ⟨hkey, hsame.mpr hstripe⟩)]
    exact ih fun m hm => hes m (.tail n hm)
  · rw [dropWhile_cons_of_neg (by rw [decide_eq_true_eq]; exact hstripe), skipStripe,
      cons_append, dropWhile_cons_of_neg (by
        rw [decide_eq_true_eq]
        exact fun h => hstripe (hsame.mp h.2))]

/-- Covered operands are gone over one by one. -/
theorem keyOut_covered (hhelper : cfg.mergeHelper = some helper) (more : Bool)
    (hq : q ≤ maxSequenceNumber) (g : List (Entry K)) (hg : Older cfg k q g)
    (hops : (collect cfg k (CutPoints.floor cfg.snapshots q) false [] g).operands = []) :
    keyOut cfg more 0 g =
      keyOut cfg more 0 (collect cfg k (CutPoints.floor cfg.snapshots q) false [] g).rest := by
  induction g with
  | nil => rfl
  | cons e es ih =>
  obtain ⟨hkey, hle, hproper⟩ := hg e (.head _)
  have hsame := same_stripe_iff hsnap hq hle hproper
  have ih := ih (fun n hn => hg n (.tail e hn))
  rw [collect, if_neg (fun h => h.2 hkey)] at hops ⊢
  by_cases hstripe : stripe cfg e.1.sequence = stripe cfg q
  · have hnot := hsame.mpr hstripe
    rw [if_neg (by omega)] at hops ⊢
    by_cases htype : e.1.type ≠ .merge
    · rw [if_pos htype, if_pos rfl]
    rw [if_neg htype] at hops ⊢
    have hmerge := not_not.mp htype
    cases hdel : cfg.shouldDelete e.1 with
    | true =>
      rw [hdel, if_pos rfl] at hops
      rw [if_pos rfl, ← ih hops]
      -- `MergeUntil` from the covered operand on finds nothing either
      have hfloor : CutPoints.floor cfg.snapshots e.1.sequence
          = CutPoints.floor cfg.snapshots q :=
        CutPoints.floor_eq_of_ceil_eq hsnap.ascending hproper.2 hsnap.le hq hle hstripe
      have hout : mergeOut cfg helper more e es = .ok [] := by
        rw [mergeOut]
        simp only [hkey, hfloor, collect_first hmerge, hdel, if_true, hops]
        rfl
      have hcur := stripe_pos hproper
      rw [keyOut_merge (by omega) hmerge hhelper hout, if_pos rfl]
    | false =>
    obtain ⟨ms, -, hmsops, -⟩ := collect_spec hsnap hq es ([] ++ [e])
      (fun n hn => hg n (.tail e hn))
    rw [hdel, if_neg Bool.false_ne_true, hmsops] at hops
    exact nomatch hops
  · have hnot := fun h => hstripe (hsame.mp h)
    rw [if_pos ⟨rfl, by omega, by omega⟩]

section

variable {last : Nat} (hst : At cfg e st) (hlast : last ≠ stripe cfg e.1.sequence)
  (hkey : KeyEntries cfg e.1.userKey (e :: es)) (htail : ∀ n ∈ tail, n.1.userKey ≠ e.1.userKey)
include hst hlast hkey htail

theorem mergeRound_turn
    (hhelper : cfg.mergeHelper = some helper) (htotal : MergeHelper.Total helper)
    (htype : e.1.type = .merge) :
    Turned cfg last e es tail (mergeRound st
      (mergeUntil cfg helper (CutPoints.floor cfg.snapshots e.1.sequence) e (es ++ tail))) := by
  have hes := hkey.older
  have hq := (hkey.sequence e (.head _)).1
  obtain ⟨outs, hout, hnil, hkeys⟩ : ∃ outs, mergeOut cfg helper (decide (tail ≠ [])) e es
      = .ok outs ∧
    _ := mergeFinish_keys htotal _ _ _
  have hfirst : collect cfg e.1.userKey (CutPoints.floor cfg.snapshots e.1.sequence) true []
      (e :: es) = _ := collect_first htype es
  obtain ⟨ms, hms, hops, hends⟩ := collect_spec hsnap hq es
    (if cfg.shouldDelete e.1 then [] else [e]) hes
  have hkeyOut := keyOut_merge hlast htype hhelper hout
  rw [mergeUntil_append helper (fun n hn => (hes n hn).1) htail, mergeRound, hout, hfirst]
  rw [hfirst] at hnil hkeys
  have hopskeys : ∀ m ∈ (collect cfg e.1.userKey (CutPoints.floor cfg.snapshots e.1.sequence) false
      (if cfg.shouldDelete e.1 then [] else [e]) es).operands, m.1.userKey = e.1.userKey := by
    intro m hm
    rw [hops] at hm
    rcases mem_append.mp hm with hm | hm
    · split at hm
      · exact nomatch hm
      · rw [mem_singleton.mp hm]
    · exact (hes m (hends.subset m (mem_of_mem_filter hm))).1
  cases outs with
  | nil =>
    -- every operand is covered, and the key is taken for a new one
    have hnone := hnil rfl
    have hcov : cfg.shouldDelete e.1 = true := by
      by_contra hcov
      rw [hops, if_neg hcov] at hnone
      exact nomatch hnone
    rw [if_pos hcov] at hnone hends ⊢
    rw [if_pos rfl] at hkeyOut
    refine .skip ⟨⟨ms, _, hends.unused hnone, rfl, ?_⟩, .inr rfl, hst.clear, hst.ptrs,
      forall_mem_nil _⟩
    rw [hkeyOut, keyOut_covered hsnap hhelper _ hq es hes hnone]
    rfl
  | cons o os =>
  have hsome : (collect cfg e.1.userKey (CutPoints.floor cfg.snapshots e.1.sequence) false
      (if cfg.shouldDelete e.1 then [] else [e]) es).operands ≠ [] := by
    obtain ⟨m, hm, -⟩ := hkeys o (.head _)
    exact ne_nil_of_mem hm
  obtain ⟨used, hsplit, hused⟩ := hends.used hms hsome
  rw [if_neg (cons_ne_nil o os)] at hkeyOut
  have hst' : ∀ input, At cfg e { st with input := input } :=
    fun _ => ⟨hst.key, hst.snapshot, hst.clear, hst.ptrs⟩
  refine .output ((hst' _).turn hsplit rfl hused hkeyOut ?_)
  intro o' ho'
  obtain ⟨m, hm, hkey⟩ := hkeys o' ho'
  rw [hkey, hopskeys m hm]

/-- The branches behind the test for hidden entries. -/
theorem visibleRound_turn
    (hmerge : e.1.type = .merge → ∃ helper, cfg.mergeHelper = some helper ∧ MergeHelper.Total
      helper) :
    Turned cfg last e es tail
      (visibleRound cfg st e (es ++ tail) (CutPoints.floor cfg.snapshots e.1.sequence)) := by
  have hes := hkey.older
  obtain ⟨hobs, hptrs⟩ := obsoleteDeletion_spec hst.ptrs
  have hst' : ∀ input, At cfg e { st with
      input := input, levelPtrs := (obsoleteDeletion cfg e.1 st.levelPtrs).2 } :=
    fun _ => ⟨hst.key, hst.snapshot, hst.clear, hptrs⟩
  have hsingle : ∀ o ∈ [e], o.1.userKey = e.1.userKey := fun o ho => by
    rw [mem_singleton.mp ho]
  simp only [visibleRound]
  rw [hobs]
  split
  · rename_i hob
    refine .skip ((hst' _).turn (nil_append es).symm rfl (forall_mem_nil _) ?_
      (forall_mem_nil _))
    rw [keyOut, if_neg hlast, if_pos hob]
    rfl
  rename_i hob
  by_cases hlook : looksAhead cfg e.1 = true
  · have hsplit := (takeWhile_append_dropWhile (l := es)
      (p := fun n => decide (stripe cfg n.1.sequence = stripe cfg e.1.sequence))).symm
    have hused : ∀ n ∈ es.takeWhile
        (fun n => decide (stripe cfg n.1.sequence = stripe cfg e.1.sequence)),
        stripe cfg n.1.sequence = stripe cfg e.1.sequence := by
      intro n hn
      have hsame := mem_takeWhile_imp hn
      exact of_decide_eq_true hsame
    have hany : es.any (fun n => decide (stripe cfg n.1.sequence ≠ stripe cfg e.1.sequence)) = true
        ↔ es.dropWhile (fun n => decide (stripe cfg n.1.sequence = stripe cfg e.1.sequence)) ≠ []
        := by
      rw [ne_eq, dropWhile_eq_nil_iff]
      simp only [any_eq_true, decide_eq_true_eq, not_forall, exists_prop]
    rw [if_pos hlook, skipStripe_append hsnap (hkey.sequence e (.head _)).1 hes htail,
      nextOfKey_append (fun n hn => (hes n ((dropWhile_suffix _).subset hn)).1) htail]
    cases hleft : es.dropWhile
        (fun n => decide (stripe cfg n.1.sequence = stripe cfg e.1.sequence)) with
    | nil =>
      refine .skip ((hst' _).turn (hleft ▸ hsplit) rfl hused ?_ (forall_mem_nil _))
      rw [keyOut, if_neg hlast, if_neg hob, if_pos hlook, if_neg (fun h => hany.mp h hleft)]
      rfl
    | cons n ns =>
      refine .output ((hst' _).turn (hleft ▸ hsplit) rfl hused ?_ hsingle)
      rw [keyOut, if_neg hlast, if_neg hob, if_pos hlook,
        if_pos (hany.mpr (hleft ▸ cons_ne_nil n ns))]
      rfl
  rw [if_neg hlook]
  by_cases htype : e.1.type = .merge
  · obtain ⟨helper, hhelper, htotal⟩ := hmerge htype
    rw [if_pos htype, hhelper]
    exact mergeRound_turn hsnap (hst' _) hlast hkey htail hhelper htotal htype
  rw [if_neg htype]
  cases hdel : cfg.shouldDelete e.1 with
  | true =>
    refine .skip ((hst' _).turn (nil_append es).symm rfl (forall_mem_nil _) ?_
      (forall_mem_nil _))
    rw [keyOut, if_neg hlast, if_neg hob, if_neg hlook, if_neg htype, if_pos hdel]
    rfl
  | false =>
  refine .output ((hst' _).turn (nil_append es).symm rfl (forall_mem_nil _) ?_ hsingle)
  rw [keyOut, if_neg hlast, if_neg hob, if_neg hlook, if_neg htype, if_neg (by rw [hdel]; decide)]
  rfl

end

/-- **A TURN** of the loop, for an entry that is not a single deletion. -/
theorem round_turn (hclear : st.clearAndOutputNextKey = false)
    (hptrs : PtrsOk cfg e.1.userKey st.levelPtrs) (hentries : KeyEntries cfg e.1.userKey (e :: es))
    (htail : ∀ n ∈ tail, n.1.userKey ≠ e.1.userKey) (hsingle : e.1.type ≠ .singleDeletion)
    (hmerge : e.1.type = .merge → ∃ helper, cfg.mergeHelper = some helper ∧ MergeHelper.Total
      helper) :
    Turned cfg (State.last st e.1.userKey) e es tail (CompactionIterator.round cfg st e
      (es ++ tail)) := by
  obtain ⟨hkey, hlast, hclear', hptrs'⟩ := enter_at st e.1.userKey
  simp only [CompactionIterator.round, snapshotsOf_eq]
  generalize st.enter e.1.userKey = st1 at hkey hlast hclear' hptrs' ⊢
  have hst : ∀ input, At cfg e { st1 with
      currentUserKeySnapshot := stripe cfg e.1.sequence, input := input } :=
    fun _ => ⟨hkey, rfl, hclear'.trans hclear, hptrs'.symm ▸ hptrs⟩
  have hnot : ¬ st1.clearAndOutputNextKey = true := by
    rw [hclear', hclear]
    exact Bool.false_ne_true
  rw [if_neg hnot, if_neg hsingle, hlast]
  split_ifs with hhidden
  · refine .skip ((hst _).turn (nil_append es).symm rfl (forall_mem_nil _) ?_
      (forall_mem_nil _))
    rw [keyOut, if_pos hhidden, hhidden]
    rfl
  · exact visibleRound_turn hsnap (hst _) hhidden hentries htail hmerge

end Turn

/-! ## The run -/

/-- What the iterator is given: entries in the order of their internal keys. -/
structure Input (cfg : Config K) (input : List (Entry K)) : Prop where
  sorted : input.Pairwise (fun a b => a.1.rank ≤ b.1.rank)
  sequence : ∀ e ∈ input, Proper cfg.snapshots e.1.sequence
  noSingle : ∀ e ∈ input, e.1.type ≠ .singleDeletion
  merges : ∀ e ∈ input, e.1.type = .merge →
    ∃ helper, cfg.mergeHelper = some helper ∧ MergeHelper.Total helper

variable {input : List (Entry K)}

theorem Input.suffix {used rest : List (Entry K)} (h : Input cfg input)
    (hsplit : input = used ++ rest) : Input cfg rest := by
  have hmem : ∀ e ∈ rest, e ∈ input := fun e he => hsplit ▸ mem_append_right used he
  have hsorted := h.sorted
  rw [hsplit] at hsorted
  exact ⟨(pairwise_append.mp hsorted).2.1, fun e he => h.sequence e (hmem e he),
    fun e he => h.noSingle e (hmem e he), fun e he => h.merges e (hmem e he)⟩

/-- The entries of the first key come first. -/
theorem split_key (l : List (Entry K)) (hsorted : l.Pairwise (fun a b => a.1.rank ≤ b.1.rank))
    (hle : ∀ n ∈ l, k ≤ n.1.userKey) :
    l = l.filter (fun n => decide (n.1.userKey = k)) ++
      l.filter (fun n => decide (n.1.userKey ≠ k)) := by
  induction l with
  | nil => rfl
  | cons n ns ih =>
  obtain ⟨hn, hns⟩ := pairwise_cons.mp hsorted
  by_cases hk : n.1.userKey = k
  · rw [filter_cons_of_pos (by rw [decide_eq_true_eq]; exact hk),
      filter_cons_of_neg (by rw [decide_eq_true_eq]; exact not_not.mpr hk),
      cons_append, ← ih hns fun m hm => hle m (.tail n hm)]
  have hlt : ∀ m ∈ n :: ns, m.1.userKey ≠ k := by
    intro m hm heq
    have hkn := lt_of_le_of_ne (hle n (.head _)) (Ne.symm hk)
    rcases mem_cons.mp hm with rfl | hm
    · exact hk heq
    · exact absurd (userKey_le_of_rank_le (hn m hm)) (not_le_of_gt (heq ▸ hkn))
  rw [filter_eq_nil_iff.mpr (fun m hm => by rw [decide_eq_true_eq]; exact hlt m hm),
    filter_eq_self.mpr (fun m hm => by rw [decide_eq_true_eq]; exact hlt m hm)]
  rfl

omit [LinearOrder K] in
theorem sequence_le_of_packed_le {a b : InternalKey K} (h : a.packed ≤ b.packed) :
    a.sequence ≤ b.sequence := by
  refine Nat.le_of_not_lt fun hlt => ?_
  have hpacked := packed_lt_of_sequence_lt hlt
  omega

/-- Later entries of a key are older. -/
theorem sequence_le_of_rank_le {a b : InternalKey K} (h : a.rank ≤ b.rank)
    (hkey : b.userKey = a.userKey) : b.sequence ≤ a.sequence := by
  rcases (rank_le_iff a b).mp h with hlt | ⟨-, hpacked⟩
  · exact absurd hkey (ne_of_gt hlt)
  · exact sequence_le_of_packed_le hpacked

/-- The entries of a key of the input are what the iterator expects. -/
theorem keyEntries_filter (hinput : Input cfg input) (k : K) :
    KeyEntries cfg k (input.filter (fun n => decide (n.1.userKey = k))) := by
  have hkey : ∀ e ∈ input.filter (fun n => decide (n.1.userKey = k)), e.1.userKey = k :=
    fun e he => of_decide_eq_true (mem_filter.mp he).2
  refine ⟨hkey, fun e he => hinput.sequence e (mem_of_mem_filter he), ?_⟩
  exact (hinput.sorted.filter _).imp_of_mem fun ha hb hab =>
    sequence_le_of_rank_le hab ((hkey _ hb).trans (hkey _ ha).symm)

/-- A state of the run. -/
structure Ready (cfg : Config K) (st : State K) : Prop where
  input : Input cfg st.input
  clear : st.clearAndOutputNextKey = false
  key : ∀ c, st.currentUserKey = some c → ∀ e ∈ st.input, c ≤ e.1.userKey
  ptrs : ∀ e ∈ st.input, PtrsOk cfg e.1.userKey st.levelPtrs

/-- What the entries of a key come to in a state. -/
def keyPart (cfg : Config K) (st : State K) (k : K) : List (Entry K) :=
  keyOut cfg (st.input.any (fun n => decide (k < n.1.userKey))) (State.last st k)
    (st.input.filter (fun n => decide (n.1.userKey = k)))

section Run

variable {cfg : Config K} {e : Entry K} {es tail outs : List (Entry K)} {st st' : State K}

/-- The entries of a key, and whether others follow, in an input that begins with the
    entries `es` of the key `c`. -/
theorem filter_same {c : K} (hes : ∀ n ∈ es, n.1.userKey = c)
    (htail : ∀ n ∈ tail, c < n.1.userKey) :
    (es ++ tail).filter (fun n => decide (n.1.userKey = c)) = es ∧
      (es ++ tail).any (fun n => decide (c < n.1.userKey)) = decide (tail ≠ []) := by
  constructor
  · rw [filter_append, filter_eq_self.mpr (fun n hn => decide_eq_true (hes n hn)),
      filter_eq_nil_iff.mpr (fun n hn => by
        rw [decide_eq_true_eq]
        exact ne_of_gt (htail n hn)), append_nil]
  rw [any_append, any_eq_false.mpr (fun n hn => by
      rw [decide_eq_true_eq, hes n hn]
      exact lt_irrefl c), Bool.false_or]
  cases tail with
  | nil => rfl
  | cons t ts => rw [any_cons, decide_eq_true (htail t (.head _))]; rfl

theorem filter_other (tail : List (Entry K)) {c : K} (hes : ∀ n ∈ es, n.1.userKey = c)
    (hk : c < k) :
    (es ++ tail).filter (fun n => decide (n.1.userKey = k))
        = tail.filter (fun n => decide (n.1.userKey = k)) ∧
      (es ++ tail).any (fun n => decide (k < n.1.userKey))
        = tail.any (fun n => decide (k < n.1.userKey)) := by
  constructor
  · rw [filter_append, filter_eq_nil_iff.mpr (fun n hn => by
        rw [decide_eq_true_eq, hes n hn]
        exact ne_of_lt hk), nil_append]
  · rw [any_append, any_eq_false.mpr (fun n hn => by
        rw [decide_eq_true_eq, hes n hn]
        exact not_lt_of_gt hk), Bool.false_or]

/-- A turn leaves a state of the run, with less input. -/
theorem Turn.ready (hst : Ready cfg st) (hinput : st.input = e :: (es ++ tail))
    (h : Turn cfg (State.last st e.1.userKey) e es tail outs st') :
    Ready cfg st' ∧ st'.input.length < st.input.length := by
  obtain ⟨used, es', hsplit, hinput', -⟩ := h.left
  have hsuffix : st.input = (e :: used) ++ st'.input := by
    rw [hinput, hinput', hsplit, append_assoc]
    rfl
  have hle : ∀ n ∈ st'.input, e.1.userKey ≤ n.1.userKey := by
    intro n hn
    have hsorted := hst.input.sorted
    rw [hsuffix] at hsorted
    exact userKey_le_of_rank_le
      ((pairwise_append.mp hsorted).2.2 e (.head _) n hn)
  refine ⟨⟨hst.input.suffix hsuffix, h.clear, fun c hc n hn => ?_, fun n hn => ?_⟩, ?_⟩
  · rcases h.key with hkey | hkey
    · rw [hkey, Option.some.injEq] at hc
      exact hc ▸ hle n hn
    · rw [hkey] at hc
      exact nomatch hc
  · intro c hc
    exact (h.ptrs c hc).mono (hle n hn)
  · rw [hsuffix, length_append, length_cons]
    omega

theorem Turn.userKey {last : Nat} (h : Turn cfg last e es tail outs st') :
    ∀ o ∈ outs.map (prepareOutput cfg), o.1.userKey = e.1.userKey := by
  intro o ho
  obtain ⟨o', ho', rfl⟩ := mem_map.mp ho
  rw [prepareOutput_userKey, h.keys o' ho']

/-- The key of the entry gets its output, the others wait. -/
theorem Turn.keyPart (hst : Ready cfg st) (hinput : st.input = e :: (es ++ tail))
    (hes : ∀ n ∈ es, n.1.userKey = e.1.userKey) (htail : ∀ n ∈ tail, e.1.userKey < n.1.userKey)
    (h : Turn cfg (State.last st e.1.userKey) e es tail outs st') (k : K) :
    CompactionKey.keyPart cfg st k =
      (outs.map (prepareOutput cfg)).filter (fun o => decide (o.1.userKey = k)) ++
        CompactionKey.keyPart cfg st' k := by
  obtain ⟨used, es', hsplit, hinput', hout⟩ := h.left
  have hkeys : ∀ n ∈ e :: es, n.1.userKey = e.1.userKey := forall_mem_cons.mpr ⟨rfl, hes⟩
  have hkeys' : ∀ n ∈ es', n.1.userKey = e.1.userKey := fun n hn =>
    hes n (hsplit ▸ mem_append_right used hn)
  have houts := h.userKey
  rw [CompactionKey.keyPart, CompactionKey.keyPart, hinput, hinput', ← cons_append]
  by_cases hk : k = e.1.userKey
  · subst hk
    obtain ⟨hfilter, hany⟩ := filter_same hkeys htail
    obtain ⟨hfilter', hany'⟩ := filter_same hkeys' htail
    rw [hfilter, hany, hfilter', hany', hout,
      filter_eq_self.mpr (fun o ho => decide_eq_true (houts o ho))]
  have hskip : (outs.map (prepareOutput cfg)).filter (fun o => decide (o.1.userKey = k)) = [] := by
    refine filter_eq_nil_iff.mpr fun o ho => ?_
    rw [decide_eq_true_eq, houts o ho]
    exact Ne.symm hk
  rw [hskip, nil_append]
  rcases lt_or_gt_of_ne hk with hlt | hgt
  · -- the key has been passed
    have hnone : ∀ l : List (Entry K), (∀ n ∈ l, e.1.userKey ≤ n.1.userKey) →
        l.filter (fun n => decide (n.1.userKey = k)) = [] := by
      intro l hl
      refine filter_eq_nil_iff.mpr fun n hn => ?_
      rw [decide_eq_true_eq]
      exact ne_of_gt (hlt.trans_le (hl n hn))
    have hle : ∀ {l : List (Entry K)}, (∀ n ∈ l, n.1.userKey = e.1.userKey) →
        ∀ n ∈ l ++ tail, e.1.userKey ≤ n.1.userKey := by
      intro l hl n hn
      rcases mem_append.mp hn with hn | hn
      · exact le_of_eq (hl n hn).symm
      · exact (htail n hn).le
    rw [hnone _ (hle hkeys), hnone _ (hle hkeys')]
    rfl
  · obtain ⟨hfilter, hany⟩ := filter_other tail hkeys hgt
    obtain ⟨hfilter', hany'⟩ := filter_other tail hkeys' hgt
    have hlast : State.last st k = 0 := by
      refine if_neg fun hc => ?_
      exact absurd (hst.key k hc e (hinput ▸ .head _)) (not_le_of_gt hgt)
    have hlast' : State.last st' k = 0 := by
      refine if_neg fun hc => ?_
      rcases h.key with hkey | hkey
      · rw [hkey, Option.some.injEq] at hc
        exact hk hc.symm
      · rw [hkey] at hc
        exact nomatch hc
    rw [hfilter, hany, hfilter', hany', hlast, hlast']

@[simp]
theorem keyPart_nil (hinput : st.input = []) (k : K) : CompactionKey.keyPart cfg st k = [] := by
  rw [CompactionKey.keyPart, hinput]
  rfl

theorem exists_of_mem_keyPart {o : Entry K} (h : o ∈ CompactionKey.keyPart cfg st k) :
    ∃ n ∈ st.input, n.1.userKey = k := by
  by_contra hnone
  have hnil : st.input.filter (fun n => decide (n.1.userKey = k)) = [] :=
    filter_eq_nil_iff.mpr fun n hn heq => hnone ⟨n, hn, of_decide_eq_true heq⟩
  rw [CompactionKey.keyPart, hnil] at h
  exact nomatch h

/-- `hasOutputtedKey` only matters to single deletions. -/
theorem outputted_same (st : State K) (first : Bool) (outs : List (Entry K)) :
    (st.outputted first outs).input = st.input ∧
      (Ready cfg st → Ready cfg (st.outputted first outs)) ∧
      ∀ k, CompactionKey.keyPart cfg (st.outputted first outs) k
        = CompactionKey.keyPart cfg st k := by
  rw [State.outputted]
  split
  · exact ⟨rfl, id, fun _ => rfl⟩
  · exact ⟨rfl, fun h => ⟨h.input, h.clear, h.key, h.ptrs⟩, fun _ => rfl⟩

/-- An order of the entries is checked key by key. -/
theorem pairwise_of_keys {R : Entry K → Entry K → Prop}
    (hlt : ∀ a b : Entry K, a.1.userKey < b.1.userKey → R a b) {l : List (Entry K)}
    (hkeys : l.Pairwise (fun a b => a.1.userKey ≤ b.1.userKey))
    (hkey : ∀ k, (l.filter (fun n => decide (n.1.userKey = k))).Pairwise R) : l.Pairwise R := by
  induction l with
  | nil => exact .nil
  | cons e es ih =>
  obtain ⟨he, hes⟩ := pairwise_cons.mp hkeys
  refine pairwise_cons.mpr ⟨fun n hn => ?_, ih hes fun k => ?_⟩
  · rcases lt_or_eq_of_le (he n hn) with hless | heq
    · exact hlt e n hless
    · have hown := hkey e.1.userKey
      rw [filter_cons_of_pos (by rw [decide_eq_true_eq])] at hown
      exact (pairwise_cons.mp hown).1 n
        (mem_filter.mpr ⟨hn, decide_eq_true heq.symm⟩)
  · have hown := hkey k
    rw [filter_cons] at hown
    split at hown
    · exact (pairwise_cons.mp hown).2
    · exact hown

theorem ready_start (hinput : Input cfg input) :
    Ready cfg { input := input, levelPtrs := cfg.levelPtrs } := by
  refine ⟨hinput, rfl, ?_, ?_⟩
  · intro c hc
    exact nomatch hc
  · intro e _ c hc
    rw [Config.levelPtrs, hc]
    exact ptrsAt_start e.1.userKey c.deeper

variable (hsnap : LiveSnapshots cfg.snapshots)
include hsnap

/-- The state finds the older entries of its first key, and the other keys behind them. -/
theorem Ready.turn (hst : Ready cfg st) {rest : List (Entry K)}
    (hinput : st.input = e :: rest) :
    ∃ es tail, st.input = e :: (es ++ tail) ∧ (∀ n ∈ es, n.1.userKey = e.1.userKey) ∧
      (∀ n ∈ tail, e.1.userKey < n.1.userKey) ∧
      Turned cfg (State.last st e.1.userKey) e es tail
        (CompactionIterator.round cfg st e rest) := by
  have hsorted := hst.input.sorted
  rw [hinput] at hsorted
  obtain ⟨hrank, hrest⟩ := pairwise_cons.mp hsorted
  have hmem : ∀ n ∈ e :: rest, n ∈ st.input := fun n hn => hinput.symm ▸ hn
  have hle : ∀ n ∈ rest, e.1.userKey ≤ n.1.userKey := fun n hn =>
    userKey_le_of_rank_le (hrank n hn)
  have hsplit := split_key rest hrest hle
  generalize hes : rest.filter (fun n => decide (n.1.userKey = e.1.userKey)) = es at hsplit
  generalize htl : rest.filter (fun n => decide (n.1.userKey ≠ e.1.userKey)) = tail at hsplit
  have hkeys : ∀ n ∈ es, n.1.userKey = e.1.userKey := by
    intro n hn
    rw [← hes] at hn
    exact of_decide_eq_true (mem_filter.mp hn).2
  have htail : ∀ n ∈ tail, e.1.userKey < n.1.userKey := by
    intro n hn
    rw [← htl] at hn
    obtain ⟨hn, hne⟩ := mem_filter.mp hn
    exact lt_of_le_of_ne (hle n hn) (of_decide_eq_true hne).symm
  have hentries := keyEntries_filter hst.input e.1.userKey
  rw [hinput, filter_cons_of_pos (by rw [decide_eq_true_eq]), hes] at hentries
  have hturn := round_turn hsnap hst.clear (hst.ptrs e (hmem e (.head _))) hentries
    (fun n hn => ne_of_gt (htail n hn))
    (hst.input.noSingle e (hmem e (.head _)))
    (hst.input.merges e (hmem e (.head _)))
  rw [hsplit] at hinput ⊢
  exact ⟨es, tail, hinput, hkeys, htail, hturn⟩

/-- **KEY BY KEY**: the output of the iterator for a key is that of its entries alone, and
    the keys ascend, as they do in the input. -/
theorem run_spec :
    ∀ (fuel : Nat) (first : Bool) (st : State K), st.input.length ≤ fuel → Ready cfg st →
      (run cfg fuel first st).2 = .ok ∧
      (∀ k, (run cfg fuel first st).1.filter (fun o => decide (o.1.userKey = k))
        = CompactionKey.keyPart cfg st k) ∧
      (run cfg fuel first st).1.Pairwise (fun a b => a.1.userKey ≤ b.1.userKey) := by
  intro fuel
  induction fuel with
  | zero =>
    intro first st hlen _
    have hinput : st.input = [] := eq_nil_of_length_eq_zero (Nat.le_zero.mp hlen)
    exact ⟨rfl, fun k => (keyPart_nil hinput k).symm, .nil⟩
  | succ fuel ih =>
  intro first st hlen hst
  cases hinput : st.input with
  | nil =>
    rw [run_nil hinput]
    exact ⟨rfl, fun k => (keyPart_nil hinput k).symm, .nil⟩
  | cons e rest =>
  obtain ⟨es, tail, hsplit, hkeys, htail, hturn⟩ := hst.turn hsnap hinput
  generalize hround : CompactionIterator.round cfg st e rest = r at hturn
  cases hturn with
  | skip h =>
    rw [run_skip hinput hround]
    obtain ⟨hready, hless⟩ := h.ready hst hsplit
    obtain ⟨hok, hpart, hpair⟩ := ih first _ (by omega) hready
    refine ⟨hok, fun k => ?_, hpair⟩
    rw [h.keyPart hst hsplit hkeys htail k]
    exact hpart k
  | @output outs st' h =>
  rw [run_output hinput hround]
  obtain ⟨hready, hless⟩ := h.ready hst hsplit
  obtain ⟨hinput', hready', hpart'⟩ := outputted_same st' first outs
  obtain ⟨hok, hpart, hpair⟩ := ih false (st'.outputted first outs) (by
    rw [hinput']
    omega) (hready' hready)
  refine ⟨hok, fun k => ?_, pairwise_append.mpr ⟨?_, hpair, fun a ha b hb => ?_⟩⟩
  · rw [h.keyPart hst hsplit hkeys htail k, filter_append, hpart, hpart']
  · exact pairwise_of_forall_mem_list fun a ha b hb =>
      ((h.userKey a ha).trans (h.userKey b hb).symm).le
  -- what follows is of a key that is still to come
  have hmem : b ∈ CompactionKey.keyPart cfg (st'.outputted first outs) b.1.userKey := by
    rw [← hpart]
    exact mem_filter.mpr ⟨hb, decide_eq_true rfl⟩
  obtain ⟨n, hn, hkey⟩ := exists_of_mem_keyPart hmem
  obtain ⟨used, es', hes, hleft, -⟩ := h.left
  rw [hinput', hleft] at hn
  rw [h.userKey a ha, ← hkey]
  rcases mem_append.mp hn with hn | hn
  · exact le_of_eq (hkeys n (hes ▸ mem_append_right used hn)).symm
  · exact (htail n hn).le

/-- The whole output, key by key. -/
theorem filter_output (hinput : Input cfg input) :
    (output cfg input).2 = .ok ∧
    ∀ k, (output cfg input).1.filter (fun o => decide (o.1.userKey = k)) =
      keyOut cfg (input.any (fun n => decide (k < n.1.userKey))) 0
        (input.filter (fun n => decide (n.1.userKey = k))) :=
  (run_spec hsnap input.length true _ le_rfl (ready_start hinput)).imp_right And.left

theorem output_ascending (hinput : Input cfg input) :
    (output cfg input).1.Pairwise (fun a b => a.1.userKey ≤ b.1.userKey) :=
  (run_spec hsnap input.length true _ le_rfl (ready_start hinput)).2.2

end Run

end CompactionKey
