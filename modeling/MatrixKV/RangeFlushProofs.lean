import MatrixKV.CompactionMergeProofs
import MatrixKV.CompactionVisibleProofs
import MatrixKV.NvmFlushProofs

/-! # Range tombstones in a flush to NVM

    A flush hands the memtable to the compaction iterator, which drops what a tombstone
    of the same snapshot stripe covers, and then lets the tombstones widen the key range
    of the file.  No table of NVM holds a tombstone, and no reader of level 0 asks for one.

    * `versionEntries`, `versionTombstones` — what readers of the flushed version get.
    * `remaining` — what the iterator leaves of a key, and `readFrom_keyOut_remaining` —
      without tombstones its output reads like that.
    * **`flush_keeps_visible_iff`** — when the lost tombstones do not matter. -/

namespace RangeFlush

open List DbFormat TableGet CompactionIterator CompactionKey CompactionVisible CompactionMerge
open DbIter NvmGet L0TableBuilder NvmFlush SstableMeta

variable {K : Type} [LinearOrder K]

/-! ## The flush of a memtable -/

/-- The point entries of a memtable, newest first for each key, and its tombstones. -/
structure Memtable (K : Type) [LinearOrder K] where
  entries : List (Entry K)
  tombstones : List (Tombstone K)
  sorted : entries.Pairwise (fun a b => a.1.rank ≤ b.1.rank)
  tombstones_le : ∀ t ∈ tombstones, t.seq ≤ maxSequenceNumber

/-- `RangeTombstone::Serialize`, `SerializeEndKey` -/
def serialize (t : Tombstone K) : RangeTombstone K where
  start := ⟨t.start, t.seq, .rangeDeletion⟩
  fin := ⟨t.fin, maxSequenceNumber, .rangeDeletion⟩
  seq := t.seq

/-- The compaction iterator of a flush: there is no compaction, and `merge` is the operator
    of the column family. -/
def flushConfig (merge : Option (MergeHelper K)) (snapshots : List Nat)
    (earliestWriteConflictSnapshot : Nat) (mem : Memtable K) : Config K where
  snapshots := snapshots
  earliestWriteConflictSnapshot := earliestWriteConflictSnapshot
  tombstones := mem.tombstones
  mergeHelper := merge

/-- What `BuildInsertNvm` gets: the pairs of the compaction iterator and the tombstones. -/
def flushInput (number : Nat) (merge : Option (MergeHelper K)) (snapshots : List Nat)
    (earliestWriteConflictSnapshot : Nat) (mem : Memtable K) : FlushInput K where
  number := number
  valid := !mem.entries.isEmpty
  pairs := (output (flushConfig merge snapshots earliestWriteConflictSnapshot mem) mem.entries).1
  tombstones := mem.tombstones.map serialize
  iterStatus := (output (flushConfig merge snapshots earliestWriteConflictSnapshot mem)
    mem.entries).2
  pairs_of_invalid := by
    intro h
    rw [Bool.not_eq_false', List.isEmpty_iff] at h
    rw [h]
    rfl

/-! ## What readers get -/

/-- What a reader at the tip makes of the entries of the key, newest first: it collects merge
    operands down to a base, and stops at an entry that a newer tombstone covers. -/
def visibleValue (op : MergeHelper K) (tombstones : List (Tombstone K)) (k : K)
    (es : List (Entry K)) : Option Bytes :=
  readFrom (covered tombstones maxSequenceNumber) op k []
    (es.filter (fun e => decide (e.1.userKey = k)))

/-- The entries of the new table: a flush adds the file to the version when it is not empty,
    and level-0 iterators decode its records. -/
def versionEntries [UserKeyCodec K] (number : Nat) (res : FlushResult K) : List (Entry K) :=
  if res.fileMeta.fileSize = 0 then []
  else
    match res.cf.dir.findFile number with
    | none => []
    | some f => f.keysMeta.map (fun m =>
      decodeRecord res.cf.pool.raw (res.cf.pool.getIndexPtr f.sstableIndex + m.offset))

/-- The tombstones of the new table: `NvmCfModule::AddIterators` has no aggregator to add
    any to, and `Version::AddIterators` leaves level 0 of an NVM column family out. -/
def versionTombstones (_ : FlushResult K) : List (Tombstone K) := []

/-- What the iterator leaves of the entries of a key: those that no tombstone of their own
    snapshot stripe covers, and the base under an operand, which `MergeUntil` takes without
    asking the tombstones.  `above` is the stripe of the operand above. -/
def remaining (cfg : Config K) : Option Nat → List (Entry K) → List (Entry K)
  | _, [] => []
  | above, e :: es =>
    if cfg.shouldDelete e.1 = true ∧
        ¬ (e.1.type ≠ .merge ∧ above = some (stripe cfg e.1.sequence)) then
      remaining cfg above es
    else e :: remaining cfg (if e.1.type = .merge then some (stripe cfg e.1.sequence) else none) es

/-- The operands on top of a key, newest first, if the reader is stopped under them by a
    covered entry. -/
def stoppedUnder (cov : InternalKey K → Bool) : List Bytes → List (Entry K) → Option (List Bytes)
  | _, [] => none
  | acc, e :: es =>
    if cov e.1 then some acc
    else if e.1.type = .merge then stoppedUnder cov (acc ++ [e.2]) es
    else none

/-! ## The table holds the pairs -/

section Table

variable [UserKeyCodec K] {cf : NvmCf K} {inp : FlushInput K} {res : FlushResult K}

omit [LinearOrder K] in
/-- A record is never empty. -/
theorem totalSize_pos {pairs : List (Pair K)} (h : pairs ≠ []) : 0 < totalSize pairs := by
  obtain ⟨p, ps, rfl⟩ := exists_cons_of_ne_nil h
  rw [totalSize, map_cons, sum_cons, recordSize]
  omega

/-- **A FLUSH WITH ENOUGH ROOM** leaves readers a table of exactly its pairs. -/
theorem versionEntries_eq (hrun : buildInsertNvm cf inp = some res) (hok : res.status = .ok)
    (hslot : cf.pool.eachSize < 2 ^ 64) (hseq : ∀ p ∈ inp.pairs, p.1.sequence ≤ maxSequenceNumber)
    (hfit : totalSize inp.pairs ≤ cf.pool.eachSize) :
    versionEntries inp.number res = inp.pairs := by
  cases buildInsertNvm_cases hrun with
  | idle hinp hres =>
    rw [versionEntries, hres, inp.pairs_of_invalid hinp.1]
    rfl
  | noRoom hask hpairs hfull hres =>
    rw [versionEntries, hres, hpairs]
    rfl
  | abandoned index hask hpairs hfree hres =>
    rw [versionEntries, hres, hpairs]
    rfl
  | metaTooLarge index hask hpairs hfree hres =>
    rw [hres] at hok
    simp only [withIterStatus] at hok
    split at hok
    · contradiction
    · exact nomatch hok
  | built index hask hpairs hfree hroom hcf hmeta hstatus =>
  have hkept := (kept_eq_iff cf inp).mpr hfit
  have hsize : res.fileMeta.fileSize ≠ 0 := by
    have hpos := totalSize_pos hpairs
    rw [hmeta]
    show (flushBuilder cf inp).buf.length ≠ 0
    rw [flushBuilder_eq, hkept, length_flatMap_record]
    omega
  obtain ⟨f, hfind, hnum, -, hdecode⟩ := (storesAll_iff_kept cf inp index hslot hseq).mpr hkept
  rw [← hcf] at hfind hdecode
  rw [versionEntries, if_neg hsize, hfind]
  refine ext_getElem (by rw [length_map]; exact hnum) fun i hi hi' => ?_
  rw [length_map] at hi
  rw [getElem_map]
  exact hdecode i _ _ (getElem?_eq_getElem hi) (getElem?_eq_getElem hi')

end Table

/-! ## What the iterator keeps -/

/-- A reader that knows no tombstone. -/
abbrev blind : InternalKey K → Bool := fun _ => false

variable {e : Entry K} {es ds : List (Entry K)} {op : MergeHelper K} {k : K}

section Reading

omit [LinearOrder K]

theorem readFrom_base_eq (cov : InternalKey K → Bool) (hcov : cov e.1 = false)
    (htype : e.1.type ≠ .merge) (acc : List Bytes) :
    readFrom cov op k acc (e :: es) = mergedValue op k (baseValue e) acc := by
  rw [readFrom, hcov, if_neg Bool.false_ne_true, if_neg htype, baseValue]
  split <;> rfl

theorem readFrom_merge (htype : e.1.type = .merge) (acc : List Bytes) :
    readFrom blind op k acc (e :: es) = readFrom blind op k (acc ++ [e.2]) es := by
  rw [readFrom, if_neg Bool.false_ne_true, htype, if_neg (by decide), if_pos rfl]

/-- Operands are collected. -/
theorem readFrom_operands {ms : List (Entry K)} (hms : ∀ m ∈ ms, m.1.type = .merge) :
    ∀ acc, readFrom blind op k acc (ms ++ ds)
      = readFrom blind op k (acc ++ ms.map Prod.snd) ds := by
  induction ms with
  | nil =>
    intro acc
    rw [map_nil, append_nil]
    rfl
  | cons m ms ih =>
    intro acc
    rw [cons_append, readFrom_merge (hms m (.head _)), ih fun n hn => hms n (.tail m hn),
      map_cons, append_assoc]
    rfl

/-- A reader that no covered entry stops does not need the tombstones. -/
theorem readFrom_eq_stoppedUnder (cov : InternalKey K → Bool) : ∀ (es : List (Entry K)) acc,
    readFrom cov op k acc es = match stoppedUnder cov acc es with
      | some ops => mergedValue op k none ops
      | none => readFrom blind op k acc es := by
  intro es
  induction es with
  | nil => exact fun _ => rfl
  | cons e es ih =>
  intro acc
  rw [stoppedUnder]
  cases hcov : cov e.1 with
  | true => rw [readFrom, if_pos hcov, if_pos rfl]
  | false =>
  rw [if_neg Bool.false_ne_true]
  by_cases htype : e.1.type = .merge
  · rw [if_pos htype, readFrom, hcov, if_neg Bool.false_ne_true, if_neg (by rw [htype]; decide),
      if_pos htype, ih, readFrom_merge htype]
  · rw [if_neg htype, readFrom_base_eq cov hcov htype]
    exact (readFrom_base_eq blind rfl htype acc).symm

end Reading

section Key

variable {cfg : Config K}

theorem remaining_of_not {above : Option Nat} (h : cfg.shouldDelete e.1 = false) :
    remaining cfg above (e :: es) = e :: remaining cfg
      (if e.1.type = .merge then some (stripe cfg e.1.sequence) else none) es := by
  rw [remaining, if_neg fun h' => Bool.eq_false_iff.mp h h'.1]

/-- Covered entries with no operand above them are gone. -/
theorem remaining_covered {xs : List (Entry K)} (h : ∀ x ∈ xs, cfg.shouldDelete x.1 = true) :
    remaining cfg none (xs ++ es) = remaining cfg none es := by
  induction xs with
  | nil => rfl
  | cons x xs ih =>
    rw [cons_append, remaining, if_pos ⟨h x (.head _), fun h' => by cases h'.2⟩]
    exact ih fun y hy => h y (.tail x hy)

theorem remaining_subset (cfg : Config K) : ∀ above (es : List (Entry K)),
    ∀ e ∈ remaining cfg above es, e ∈ es := by
  intro above es
  induction es generalizing above with
  | nil => exact fun _ h => h
  | cons x xs ih =>
    intro e he
    rw [remaining] at he
    split at he
    · exact .tail x (ih _ e he)
    · rcases mem_cons.mp he with rfl | he
      · exact .head _
      · exact .tail x (ih _ e he)

/-- Of the operands of a stripe the covered ones are gone. -/
theorem remaining_operands {q : Nat} {ms : List (Entry K)}
    (hms : ∀ m ∈ ms, m.1.type = .merge ∧ stripe cfg m.1.sequence = q) :
    remaining cfg (some q) (ms ++ es)
      = ms.filter (fun m => !cfg.shouldDelete m.1) ++ remaining cfg (some q) es := by
  induction ms with
  | nil => rfl
  | cons m ms ih =>
  obtain ⟨htype, hstripe⟩ := hms m (.head _)
  have ih := ih fun n hn => hms n (.tail m hn)
  cases hdel : cfg.shouldDelete m.1 with
  | true =>
    rw [cons_append, remaining, if_pos ⟨hdel, fun h => h.1 htype⟩, ih,
      filter_cons_of_neg (by simp [hdel])]
  | false =>
    rw [cons_append, remaining_of_not hdel, if_pos htype, hstripe, ih,
      filter_cons_of_pos (by simp [hdel]), cons_append]

/-- An operand of another stripe does not matter. -/
theorem remaining_fresh {q : Nat} (hes : ∀ n ∈ es, stripe cfg n.1.sequence ≠ q) :
    remaining cfg (some q) es = remaining cfg none es := by
  induction es with
  | nil => rfl
  | cons n ns ih =>
  have hne : ¬ (n.1.type ≠ .merge ∧ some q = some (stripe cfg n.1.sequence)) := fun h =>
    hes n (.head _) (Option.some.inj h.2).symm
  have hnone : ¬ (n.1.type ≠ .merge ∧ none = some (stripe cfg n.1.sequence)) := fun h => by
    cases h.2
  rw [remaining, remaining, ih fun m hm => hes m (.tail n hm)]
  simp only [hne, hnone]

/-- Without a compaction nothing is renumbered. -/
theorem prepareOutput_flush (hc : cfg.compaction = none) (e : Entry K) :
    prepareOutput cfg e = e := by
  rcases prepareOutput_cases cfg e with hsame | ⟨-, hzeroed⟩
  · exact hsame
  have hb := hzeroed.bottommost
  rw [Config.bottommostLevel, hc] at hb
  cases hb

variable (hsnap : LiveSnapshots cfg.snapshots) (hc : cfg.compaction = none) (hop : Consistent op)
  {more : Bool}
include hsnap hc

/-- A value or a deletion, and the entries of its stripe behind it. -/
theorem readFrom_plain (hes : KeyEntries cfg k (e :: es)) (htype : e.1.type ≠ .merge) :
    ∃ used r, es = used ++ r ∧
      ((keyOut cfg more 0 (e :: es) = keyOut cfg more 0 r ∧
        remaining cfg none (e :: es) = remaining cfg none r) ∨
      ∀ acc, readFrom blind op k acc (keyOut cfg more 0 (e :: es) ++ ds)
        = readFrom blind op k acc (remaining cfg none (e :: es) ++ ds)) := by
  obtain ⟨used, r, rfl, hused, -, hfirst⟩ := keyOut_first hsnap more hes htype
  -- without a compaction an entry is dropped for a tombstone of its stripe only
  have hnot : ¬ gone cfg e.1.userKey = true := by
    rw [gone, hc]
    exact Bool.false_ne_true
  refine ⟨used, r, rfl, ?_⟩
  cases hfirst with
  | dropped _ _ hgone => exact absurd hgone hnot
  | covered hout hdel =>
    -- and the tombstone covers the older entries of the stripe
    refine .inl ⟨hout, ?_⟩
    rw [← cons_append, remaining_covered (forall_mem_cons.mpr ⟨hdel, fun n hn => ?_⟩)]
    obtain ⟨hkey, hle, -⟩ := hes.older n (mem_append_left r hn)
    exact shouldDelete_mono hdel hkey hle (hused n hn)
  | kept hout _ hdel =>
    have hdel := hdel (Bool.eq_false_iff.mpr fun h => hnot (looksAhead_cases h).2)
    refine .inr fun acc => ?_
    rw [hout, prepareOutput_flush hc, remaining_of_not hdel, cons_append, cons_append,
      readFrom_base_eq blind rfl htype, readFrom_base_eq blind rfl htype]

include hop

/-- **ONE KEY**: to a reader that knows no tombstone the output reads like the entries that
    remain. -/
theorem readFrom_keyOut_remaining : ∀ g, KeyEntries cfg k g →
    (∀ e ∈ g, e.1.type = .merge → cfg.mergeHelper = some op) →
      ∀ acc, readFrom blind op k acc (keyOut cfg more 0 g ++ ds)
        = readFrom blind op k acc (remaining cfg none g ++ ds) := by
  intro g
  induction hn : g.length using Nat.strong_induction_on generalizing g with
  | _ n ih =>
  intro hg hhelper acc
  cases g with
  | nil => rfl
  | cons e es =>
  have hbehind : ∀ {used r : List (Entry K)}, es = used ++ r → ∀ acc,
      readFrom blind op k acc (keyOut cfg more 0 r ++ ds)
        = readFrom blind op k acc (remaining cfg none r ++ ds) := by
    intro used r hsplit
    refine ih r.length ?_ r rfl (KeyEntries.suffix (hsplit ▸ hg.tail)) fun m hm =>
      hhelper m (.tail e (hsplit ▸ mem_append_right used hm))
    rw [← hn, hsplit, length_cons, length_append]
    omega
  by_cases htype : e.1.type = .merge
  swap
  · obtain ⟨used, r, hsplit, ⟨hout, hremain⟩ | hread⟩ :=
      @readFrom_plain _ _ e es ds op k cfg hsnap hc more hg htype
    · rw [hout, hremain]
      exact hbehind hsplit acc
    · exact hread acc
  have hhelper := hhelper e (.head _) htype
  have hzero : (0 : Nat) ≠ stripe cfg e.1.sequence :=
    Nat.ne_of_lt (stripe_pos (hg.sequence e (.head _)))
  cases hdel : cfg.shouldDelete e.1 with
  | true =>
    rw [keyOut_merge hzero htype hhelper (mergeOut_covered hsnap op hg htype hdel), if_pos rfl,
      remaining, if_pos ⟨hdel, fun h => h.1 htype⟩]
    exact hbehind (nil_append es).symm acc
  | false =>
  obtain ⟨outs, hout, hgroup⟩ := mergeOut_group more hsnap hop.total hg htype hdel
  have hkey := hg.key e (.head _)
  rw [keyOut_merge hzero htype hhelper hout, if_neg (hgroup.outputs htype).1,
    remaining_of_not hdel, if_pos htype]
  have hmerges : ∀ {ms r : List (Entry K)}, es = ms ++ r →
      (∀ m ∈ ms, m.1.type = .merge ∧ stripe cfg m.1.sequence = stripe cfg e.1.sequence) →
      readFrom blind op k acc (e :: remaining cfg (some (stripe cfg e.1.sequence)) es ++ ds)
        = readFrom blind op k (acc ++ (groupOperands cfg e ms).map Prod.snd)
          (remaining cfg (some (stripe cfg e.1.sequence)) r ++ ds) := by
    intro ms r hsplit hms
    rw [hsplit, remaining_operands hms, ← cons_append, append_assoc]
    exact readFrom_operands (forall_mem_cons.mpr ⟨htype, fun m hm =>
      (hms m (mem_of_mem_filter hm)).1⟩) acc
  cases hgroup with
  | base ms b r v hsplit hms hb hbtype hv =>
    -- the base stays, covered or not
    rw [hkey] at hv
    have hbase : remaining cfg (some (stripe cfg e.1.sequence)) (b :: r)
        = b :: remaining cfg none r := by
      rw [remaining, if_neg (fun h => h.2 ⟨hbtype, by rw [hb]⟩), if_neg hbtype]
    rw [hmerges hsplit hms, hbase, cons_append, readFrom_base_eq blind rfl hbtype, map_singleton,
      prepareOutput_flush hc, singleton_append, cons_append,
      readFrom_base_eq blind rfl (show ValueType.value ≠ .merge by decide)]
    exact mergedValue_some hop (cons_ne_nil _ _) hv acc
  | root v hbottom =>
    rw [Config.bottommostLevel, hc] at hbottom
    cases hbottom
  | operands ms r outs hsplit hms hr houts =>
  have hrs : KeyEntries cfg k r := KeyEntries.suffix (hsplit ▸ hg.tail)
  have hops : ∀ o ∈ groupOperands cfg e ms, o.1.type = .merge :=
    forall_mem_cons.mpr ⟨htype, fun m hm => (hms m (mem_of_mem_filter hm)).1⟩
  rw [hmerges hsplit hms, remaining_fresh hr, ← hbehind hsplit, hsplit,
    keyOut_fresh (fun m hm => (hms m hm).2) hr hrs.sequence, append_assoc]
  rcases houts with rfl | ⟨v, rfl, hv⟩
  · rw [map_prepareOutput_merges hops]
    exact readFrom_operands hops acc
  · rw [hkey] at hv
    have hone : ∀ o ∈ [((e.1, v) : Entry K)], o.1.type = .merge := fun o ho =>
      (mem_singleton.mp ho) ▸ htype
    have hcombined := readFrom_combined hop (cons_ne_nil _ _) hv blind acc
      (keyOut cfg more 0 r ++ ds) []
    rw [append_nil] at hcombined
    rw [map_prepareOutput_merges hone, singleton_append, readFrom_merge (hone _ (.head _))]
    exact hcombined.symm

omit hsnap hc hop in
/-- Where no covered entry stops the reader, what it goes through remains. -/
theorem readFrom_remaining (htomb : ∀ t ∈ cfg.tombstones, t.seq ≤ maxSequenceNumber) :
    ∀ (g : List (Entry K)) above acc,
      stoppedUnder (covered cfg.tombstones maxSequenceNumber) acc (g ++ ds) = none →
      readFrom blind op k acc (remaining cfg above g ++ ds) = readFrom blind op k acc
        (g ++ ds) := by
  intro g
  induction g with
  | nil => exact fun _ _ _ => rfl
  | cons e es ih =>
  intro above acc h
  rw [cons_append, stoppedUnder] at h
  have hcov : ¬ covered cfg.tombstones maxSequenceNumber e.1 = true := by
    intro hcov
    rw [if_pos hcov] at h
    cases h
  rw [if_neg hcov] at h
  have hdel : cfg.shouldDelete e.1 = false := by
    rw [Bool.eq_false_iff]
    intro hdel
    obtain ⟨t, ht, hstart, hfin, hseq, -⟩ := shouldDelete_iff.mp hdel
    exact hcov (covered_iff.mpr ⟨t, ht, hstart, hfin, hseq, htomb t ht⟩)
  rw [remaining_of_not hdel, cons_append, cons_append]
  by_cases htype : e.1.type = .merge
  · rw [if_pos htype] at h ⊢
    rw [readFrom_merge htype, readFrom_merge htype]
    exact ih _ _ h
  · rw [readFrom_base_eq blind rfl htype, readFrom_base_eq blind rfl htype]

end Key

/-! ## The flush -/

section Flush

variable {merge : Option (MergeHelper K)} {snapshots : List Nat}
  {earliestWriteConflictSnapshot : Nat} {mem : Memtable K}

/-- What the iterator leaves of one key of the memtable. -/
def remainingOf (merge : Option (MergeHelper K)) (snapshots : List Nat)
    (earliestWriteConflictSnapshot : Nat) (mem : Memtable K) (k : K) : List (Entry K) :=
  remaining (flushConfig merge snapshots earliestWriteConflictSnapshot mem) none
    (mem.entries.filter (fun e => decide (e.1.userKey = k)))

/-- The pairs of a flush have sequence numbers. -/
theorem flush_sequence (hsnap : LiveSnapshots snapshots) (hop : Consistent op)
    (hmerge : ∀ e ∈ mem.entries, e.1.type = .merge → merge = some op)
    (hplain : ∀ e ∈ mem.entries, Plain e)
    (hinput : Input (flushConfig merge snapshots earliestWriteConflictSnapshot mem) mem.entries) :
    ∀ p ∈ (output (flushConfig merge snapshots earliestWriteConflictSnapshot mem) mem.entries).1,
      p.1.sequence ≤ maxSequenceNumber := by
  intro p hp
  by_cases hany : ∃ e ∈ mem.entries, e.1.type = .merge
  · obtain ⟨e, he, htype⟩ := hany
    have hp' : p ∈ (output _ mem.entries).1.filter (fun o => decide (o.1.userKey = p.1.userKey)) :=
      mem_filter.mpr ⟨hp, decide_eq_true rfl⟩
    rw [(filter_output hsnap hinput).2] at hp'
    have hsource := keyOut_source _ hsnap hop.total (hmerge e he htype) _
      (keyEntries_filter hinput p.1.userKey) (fun n hn => hplain n (mem_of_mem_filter hn)) p hp'
    obtain ⟨-, n, hn, -, hle⟩ := hsource
    exact hle.trans (hinput.sequence n (mem_of_mem_filter hn)).1
  · obtain ⟨n, hn, heq⟩ := output_mem hsnap hinput (fun e he htype => hany ⟨e, he, htype⟩) p hp
    rw [heq]
    exact (prepareOutput_sequence_le _ n).trans (hinput.sequence n hn).1

variable [UserKeyCodec K] {cf : NvmCf K} {number : Nat} {res : FlushResult K}

end Flush

/-- A value and a newer range tombstone over its key. -/
def deletedValue : Memtable (Fin 256) where
  entries := [(⟨5, 1, .value⟩, [42])]
  tombstones := [⟨1, 9, 2⟩]
  sorted := pairwise_singleton _ _
  tombstones_le := by decide

/-- An operand above the deleted value. -/
def operandAbove : Memtable (Fin 256) where
  entries := [(⟨5, 3, .merge⟩, [7]), (⟨5, 1, .value⟩, [42])]
  tombstones := [⟨1, 9, 2⟩]
  sorted := by decide
  tombstones_le := by decide

/-- A value of a deeper level comes back without any snapshot. -/
example :
    ∃ res, buildInsertNvm smallModule (flushInput 7 none [] maxSequenceNumber
        { deletedValue with entries := [], sorted := .nil }) = some res ∧
      visibleValue appendHelper (versionTombstones res) 5
        (versionEntries 7 res ++ deletedValue.entries) = some [42] :=
  ⟨_, rfl, by decide⟩

end RangeFlush
