import MatrixKV.DbIterProofs

/-! # Merge operands and range tombstones in a compaction

    A reader collects operands down to a base and stops at the first entry that a
    tombstone covers.  `MergeUntil` leaves covered operands out, but takes the value
    under them for the base without asking the tombstones.

    * `Respected` — where a covered value stands under an operand, the operator must
      not care for it.
    * **`reads_preserved_iff`** — a `DBIter` reads the same exactly when this holds. -/

namespace CompactionMerge

open List DbFormat TableGet CompactionIterator CompactionKey DbIter

variable {K : Type} [LinearOrder K]

/-! ## Tombstones -/

/-- `FinishCompactionOutputFile` leaves out tombstones of the bottommost level that every
    snapshot sees. -/
def keptTombstones (cfg : Config K) : List (Tombstone K) :=
  cfg.tombstones.filter (fun t =>
    !(cfg.bottommostLevel && decide (t.seq ≤ cfg.earliestSnapshot)))

variable {key : InternalKey K}

theorem covered_iff {ts : List (Tombstone K)} {s : Nat} :
    covered ts s key = true ↔ ∃ t ∈ ts, t.start ≤ key.userKey ∧ key.userKey < t.fin ∧
      key.sequence < t.seq ∧ t.seq ≤ s := by
  simp only [covered, any_eq_true, decide_eq_true_eq]

/-- A tombstone that covers an entry covers the older ones of the key. -/
theorem covered_mono {ts : List (Tombstone K)} {s : Nat} {key' : InternalKey K}
    (h : covered ts s key = true) (hkey : key'.userKey = key.userKey)
    (hle : key'.sequence ≤ key.sequence) : covered ts s key' = true := by
  obtain ⟨t, ht, hstart, hfin, hseq, hs⟩ := covered_iff.mp h
  exact covered_iff.mpr ⟨t, ht, hkey ▸ hstart, hkey ▸ hfin, by omega, hs⟩

variable {cfg : Config K}

theorem shouldDelete_iff :
    cfg.shouldDelete key = true ↔ ∃ t ∈ cfg.tombstones, t.start ≤ key.userKey ∧
      key.userKey < t.fin ∧ key.sequence < t.seq ∧ stripe cfg t.seq = stripe cfg key.sequence := by
  simp only [Config.shouldDelete, any_eq_true, decide_eq_true_eq]
  rfl

/-- Within a stripe, too. -/
theorem shouldDelete_mono {key' : InternalKey K} (h : cfg.shouldDelete key = true)
    (hkey : key'.userKey = key.userKey) (hle : key'.sequence ≤ key.sequence)
    (hstripe : stripe cfg key'.sequence = stripe cfg key.sequence) :
    cfg.shouldDelete key' = true := by
  obtain ⟨t, ht, hstart, hfin, hseq, hs⟩ := shouldDelete_iff.mp h
  exact shouldDelete_iff.mpr
    ⟨t, ht, hkey ▸ hstart, hkey ▸ hfin, by omega, hs.trans hstripe.symm⟩

theorem mem_keptTombstones {t : Tombstone K} :
    t ∈ keptTombstones cfg ↔ t ∈ cfg.tombstones ∧
      (cfg.bottommostLevel = true → cfg.earliestSnapshot < t.seq) := by
  rw [keptTombstones, mem_filter]
  refine and_congr_right fun _ => ?_
  cases cfg.bottommostLevel <;> simp

variable {e : Entry K}

section Covered

variable {cfg : Config K} {s : Nat} {key key' : InternalKey K}

theorem covered_of_kept (h : covered (keptTombstones cfg) s key = true) :
    covered cfg.tombstones s key = true := by
  obtain ⟨t, ht, hcover⟩ := covered_iff.mp h
  exact covered_iff.mpr ⟨t, (mem_keptTombstones.mp ht).1, hcover⟩

theorem not_covered_kept (h : covered cfg.tombstones s key = false) :
    covered (keptTombstones cfg) s key = false :=
  Bool.eq_false_iff.mpr fun hkept => Bool.eq_false_iff.mp h (covered_of_kept hkept)

variable (hsnap : LiveSnapshots cfg.snapshots)
  (htomb : ∀ t ∈ cfg.tombstones, t.seq ≤ maxSequenceNumber)

include hsnap htomb

section

variable (hs : Live cfg s) (hq : key.sequence ≤ maxSequenceNumber) (hle : key.sequence ≤ s)
include hs hq hle

/-- A reader who sees an entry sees the tombstones of its stripe. -/
theorem covered_of_shouldDelete (h : cfg.shouldDelete key = true) :
    covered cfg.tombstones s key = true := by
  obtain ⟨t, ht, hstart, hfin, hseq, hstripe⟩ := shouldDelete_iff.mp h
  refine covered_iff.mpr ⟨t, ht, hstart, hfin, hseq, ?_⟩
  rw [sequence_le_iff hsnap (htomb t ht) hs, hstripe]
  exact (sequence_le_iff hsnap hq hs).mp hle

theorem not_shouldDelete (h : covered cfg.tombstones s key = false) :
    cfg.shouldDelete key = false :=
  Bool.eq_false_iff.mpr fun hdel =>
    Bool.eq_false_iff.mp h (covered_of_shouldDelete hsnap htomb hs hq hle hdel)

end

omit hsnap in
/-- A tombstone that is left out covers only the earliest stripe, which is its own. -/
theorem covered_cases (hq : key.sequence ≤ maxSequenceNumber)
    (h : covered cfg.tombstones s key = true) :
    covered (keptTombstones cfg) s key = true ∨
      key.sequence ≤ cfg.earliestSnapshot ∧ cfg.shouldDelete key = true := by
  obtain ⟨t, ht, hstart, hfin, hseq, hs⟩ := covered_iff.mp h
  by_cases hkept : cfg.bottommostLevel = true → cfg.earliestSnapshot < t.seq
  · exact .inl (covered_iff.mpr ⟨t, mem_keptTombstones.mpr ⟨ht, hkept⟩, hstart, hfin, hseq, hs⟩)
  obtain ⟨-, hle⟩ := Classical.not_imp.mp hkept
  have hle' : key.sequence ≤ cfg.earliestSnapshot := by omega
  refine .inr ⟨hle', shouldDelete_iff.mpr ⟨t, ht, hstart, hfin, hseq, ?_⟩⟩
  rw [(le_earliest_iff (htomb t ht)).mp (by omega), (le_earliest_iff hq).mp hle']

/-- Within a stripe, what covers an entry but not another is of the stripe. -/
theorem shouldDelete_of_covered (hq : key.sequence ≤ maxSequenceNumber)
    (hkey : key'.userKey = key.userKey)
    (hstripe : stripe cfg key'.sequence = stripe cfg key.sequence)
    (hnot : covered cfg.tombstones s key = false) (h : covered cfg.tombstones s key' = true) :
    cfg.shouldDelete key' = true := by
  obtain ⟨t, ht, hstart, hfin, hseq, hs⟩ := covered_iff.mp h
  refine shouldDelete_iff.mpr ⟨t, ht, hstart, hfin, hseq, ?_⟩
  have hmono : stripe cfg key'.sequence ≤ stripe cfg t.seq :=
    stripe_mono hsnap (htomb t ht) hseq.le
  refine Nat.le_antisymm (Nat.le_of_not_lt fun hlt => ?_) hmono
  have hnewer : key.sequence < t.seq := lt_of_stripe_lt hsnap hq (hstripe ▸ hlt)
  have hcover : covered cfg.tombstones s key = true :=
    covered_iff.mpr ⟨t, ht, hkey ▸ hstart, hkey ▸ hfin, hnewer, hs⟩
  rw [hnot] at hcover
  exact nomatch hcover

omit hsnap htomb in
/-- Renumbering does not put an entry under a kept tombstone. -/
theorem covered_prepareOutput (h : covered (keptTombstones cfg) s (prepareOutput cfg e).1 = true) :
    covered (keptTombstones cfg) s e.1 = true := by
  rcases prepareOutput_cases cfg e with hsame | ⟨hzero, hzeroed⟩
  · rw [hsame] at h
    exact h
  rw [hzero] at h
  obtain ⟨t, ht, hstart, hfin, -, hs⟩ := covered_iff.mp h
  have hlt := (mem_keptTombstones.mp ht).2 hzeroed.bottommost
  have hle := hzeroed.le
  exact covered_iff.mpr ⟨t, ht, hstart, hfin, by omega, hs⟩

end Covered

/-! ## The operator -/

/-- A merge operator as merge_operator.h asks for it: it does not fail, a full merge can be
    done in steps, and a combined operand stands for the operands it was made of. -/
structure Consistent (helper : MergeHelper K) : Prop where
  total : MergeHelper.Total helper
  stepwise : ∀ k base xs ys v, xs ≠ [] → ys ≠ [] → helper.fullMergeV2 k base xs = some v →
    helper.fullMergeV2 k base (xs ++ ys) = helper.fullMergeV2 k (some v) ys
  combined : ∀ k xs v, xs ≠ [] → helper.partialMergeMulti k xs = some v →
    ∀ base older newer, helper.fullMergeV2 k base (older ++ xs ++ newer)
      = helper.fullMergeV2 k base (older ++ v :: newer)

section Merged

variable {helper : MergeHelper K} (hop : Consistent helper) {k : K}

include hop

section

omit [LinearOrder K]

/-- A full merge of the older operands is a base for the newer ones. -/
theorem mergedValue_some {base : Option Bytes} {ops : List Bytes} {v : Bytes} (hops : ops ≠ [])
    (hv : helper.fullMergeV2 k base ops.reverse = some v) (acc : List Bytes) :
    mergedValue helper k (some v) acc = mergedValue helper k base (acc ++ ops) := by
  rw [mergedValue, mergedValue, if_neg (fun h => hops (append_eq_nil_iff.mp h).2)]
  by_cases hacc : acc = []
  · rw [if_pos hacc, hacc, nil_append, hv]
  rw [if_neg hacc, reverse_append, hop.stepwise k base ops.reverse acc.reverse v
    (by rw [ne_eq, reverse_eq_nil_iff]; exact hops)
    (by rw [ne_eq, reverse_eq_nil_iff]; exact hacc) hv]

/-- A combined operand reads like the operands. -/
theorem mergedValue_combined {ops : List Bytes} {v : Bytes} (hops : ops ≠ [])
    (hv : helper.partialMergeMulti k ops.reverse = some v) (base : Option Bytes)
    (acc newer : List Bytes) :
    mergedValue helper k base (acc ++ ops ++ newer) = mergedValue helper k base
      (acc ++ v :: newer) := by
  have hleft : acc ++ ops ++ newer ≠ [] := by simp [hops]
  have hright : acc ++ v :: newer ≠ [] := by simp
  rw [mergedValue, mergedValue, if_neg hleft, if_neg hright]
  have hcombined := hop.combined k ops.reverse v
    (by rw [ne_eq, reverse_eq_nil_iff]; exact hops) hv base newer.reverse acc.reverse
  simpa [reverse_append, append_assoc] using hcombined

theorem readFrom_combined {ops : List Bytes} {v : Bytes} (hops : ops ≠ [])
    (hv : helper.partialMergeMulti k ops.reverse = some v) (cov : InternalKey K → Bool)
    (acc : List Bytes) (es : List (Entry K)) (newer) :
    readFrom cov helper k (acc ++ ops ++ newer) es = readFrom cov helper k (acc ++ v :: newer) es
      := by
  induction es generalizing newer with
  | nil =>
    exact mergedValue_combined hop hops hv none acc newer
  | cons e es ih =>
  have ih := ih (newer ++ [e.2])
  rw [← append_assoc] at ih
  have ih : readFrom cov helper k (acc ++ ops ++ newer ++ [e.2]) es
      = readFrom cov helper k (acc ++ v :: newer ++ [e.2]) es := by
    rw [ih, append_assoc, cons_append]
  rw [readFrom, readFrom, ih, mergedValue_combined hop hops hv, mergedValue_combined hop hops hv]

end

end Merged

variable {es : List (Entry K)}

section Reading

variable {helper : MergeHelper K} {k : K} {cov : InternalKey K → Bool}

omit [LinearOrder K] in
/-- Covered entries and deletions give nothing to a reader. -/
theorem readFrom_of_covered (h : ∀ e ∈ es, cov e.1 = true ∨ e.1.type = .deletion)
    (acc : List Bytes) :
    readFrom cov helper k acc es = mergedValue helper k none acc := by
  cases es with
  | nil => rfl
  | cons e es =>
  rw [readFrom]
  rcases h e (.head _) with hcov | hdel
  · rw [if_pos hcov]
  · rw [hdel]
    split <;> rfl

omit [LinearOrder K] in
/-- A reader collects operands until one is covered. -/
theorem readFrom_merges {ms : List (Entry K)} (hms : ∀ m ∈ ms, m.1.type = .merge)
    (hclosed : ms.Pairwise (fun a b => cov a.1 = true → cov b.1 = true)) (rest : List (Entry K)) :
    ∀ acc, readFrom cov helper k acc (ms ++ rest) =
      if ms.any (fun m => cov m.1) then
        mergedValue helper k none (acc ++ (ms.filter (fun m => !cov m.1)).map Prod.snd)
      else readFrom cov helper k (acc ++ ms.map Prod.snd) rest := by
  induction ms with
  | nil =>
    intro acc
    rw [map_nil, append_nil]
    rfl
  | cons m ms ih =>
  intro acc
  obtain ⟨hm, hms'⟩ := pairwise_cons.mp hclosed
  have ih := ih (fun n hn => hms n (.tail m hn)) hms'
  have htype := hms m (.head _)
  rw [cons_append, readFrom]
  cases hcov : cov m.1 with
  | true =>
    have hnone : (m :: ms).filter (fun n => !cov n.1) = [] := by
      refine filter_eq_nil_iff.mpr fun n hn => ?_
      rcases mem_cons.mp hn with rfl | hn
      · rw [hcov]
        decide
      · rw [hm n hn hcov]
        decide
    rw [if_pos rfl, any_cons, hcov, Bool.true_or, if_pos rfl, hnone, map_nil, append_nil]
  | false =>
  rw [if_neg Bool.false_ne_true, htype, if_neg (by decide), if_pos rfl, ih,
    any_cons, hcov, Bool.false_or, filter_cons_of_pos (by rw [hcov]; rfl),
    map_cons, map_cons, append_assoc, append_assoc]
  rfl

end Reading

/-! ## The entries of a stripe -/

/-- The base that `MergeUntil` gives to the operator. -/
def baseValue (b : Entry K) : Option Bytes := if b.1.type = .value then some b.2 else none

/-- The operands of a group that no tombstone of the stripe covers. -/
def groupOperands (cfg : Config K) (e : Entry K) (ms : List (Entry K)) : List (Entry K) :=
  e :: ms.filter (fun m => !cfg.shouldDelete m.1)

/-- What `MergeUntil` makes of an operand `e` that is not covered and the older entries `es`
    of its key: `ms` are the operands of the stripe behind it. -/
inductive Group (cfg : Config K) (helper : MergeHelper K) (e : Entry K) (es : List (Entry K)) :
    List (Entry K) → Prop
  /-- a full merge with the base -/
  | base (ms : List (Entry K)) (b : Entry K) (r : List (Entry K)) (v : Bytes)
      (hes : es = ms ++ b :: r)
      (hms : ∀ m ∈ ms, m.1.type = .merge ∧ stripe cfg m.1.sequence = stripe cfg e.1.sequence)
      (hb : stripe cfg b.1.sequence = stripe cfg e.1.sequence) (htype : b.1.type ≠ .merge)
      (hv : helper.fullMergeV2 e.1.userKey (baseValue b) (mergeOperands (groupOperands cfg e ms))
        = some v) :
      Group cfg helper e es [({ e.1 with type := .value }, v)]
  /-- a full merge at the root of the history -/
  | root (v : Bytes) (hbottom : cfg.bottommostLevel = true)
      (hms : ∀ m ∈ es, m.1.type = .merge ∧ stripe cfg m.1.sequence = stripe cfg e.1.sequence)
      (hv : helper.fullMergeV2 e.1.userKey none (mergeOperands (groupOperands cfg e es)) = some v) :
      Group cfg helper e es [({ e.1 with type := .value }, v)]
  /-- the operands, or one for all of them -/
  | operands (ms r outs : List (Entry K)) (hes : es = ms ++ r)
      (hms : ∀ m ∈ ms, m.1.type = .merge ∧ stripe cfg m.1.sequence = stripe cfg e.1.sequence)
      (hr : ∀ n ∈ r, stripe cfg n.1.sequence ≠ stripe cfg e.1.sequence)
      (houts : outs = groupOperands cfg e ms ∨ ∃ v, outs = [(e.1, v)] ∧
        helper.partialMergeMulti e.1.userKey (mergeOperands (groupOperands cfg e ms)) = some v) :
      Group cfg helper e es outs

variable {outs : List (Entry K)}

section Stripe

variable {cfg : Config K} {helper : MergeHelper K} {k : K} {more : Bool}

/-- **A GROUP**: what `MergeUntil` makes of an operand that no tombstone of its stripe
    covers. -/
theorem mergeOut_group (more : Bool) (hsnap : LiveSnapshots cfg.snapshots)
    (htotal : MergeHelper.Total helper) (hes : KeyEntries cfg k (e :: es))
    (htype : e.1.type = .merge) (hcov : cfg.shouldDelete e.1 = false) :
    ∃ outs, mergeOut cfg helper more e es = .ok outs ∧ Group cfg helper e es outs := by
  obtain ⟨ms, hms, hops, hends⟩ :=
    collect_spec hsnap (hes.sequence e (.head _)).1 es [e] hes.older
  rw [mergeOut]
  simp only [collect_first htype, hcov, Bool.false_eq_true, if_false]
  generalize collect cfg e.1.userKey (CutPoints.floor cfg.snapshots e.1.sequence) false [e] es = c
    at hops hends ⊢
  obtain ⟨outs, hout, hfinished⟩ := mergeFinish_spec htotal cfg.bottommostLevel e
    (ms.filter (fun m => !cfg.shouldDelete m.1)) (Stop.seen more c.stop)
  rw [hops]
  refine ⟨outs, hout, ?_⟩
  cases hends with
  | base b r hsplit hb hbtype hstop hrest =>
    rw [hstop] at hfinished
    cases hfinished with
    | base b' v hb' hv =>
      cases hb'
      exact .base ms b r v hsplit hms hb hbtype hv
    | root v hroot => cases hroot.1
    | operands outs hnot => exact absurd rfl (hnot b)
  | nextStripe n r hsplit hn hstop hrest =>
    rw [hstop] at hfinished
    cases hfinished with
    | base b v hb => cases hb
    | root v hroot => cases hroot.1
    | operands outs hnot houts =>
    -- stripes only go down
    have hmem : n ∈ es := hsplit ▸ mem_append_right ms (.head _)
    have hlt := lt_of_le_of_ne (hes.stripe_le hsnap n hmem) hn
    have hnr : KeyEntries cfg k (n :: r) := KeyEntries.suffix (hsplit ▸ hes.tail)
    exact .operands ms (n :: r) outs hsplit hms (forall_mem_cons.mpr ⟨hn, fun n' hn' =>
      Nat.ne_of_lt ((hnr.stripe_le hsnap n' hn').trans_lt hlt)⟩) houts
  | exhausted hsplit hstop hrest =>
  subst hsplit
  rw [hstop] at hfinished
  cases hfinished with
  | base b v hb => cases more <;> cases hb
  | root v hroot hv => exact .root v hroot.2 hms hv
  | operands outs hnot houts =>
    exact .operands es [] outs (append_nil es).symm hms (forall_mem_nil _) houts

/-- `MergeUntil` finds no operand from a covered one on. -/
theorem mergeOut_covered (hsnap : LiveSnapshots cfg.snapshots) (helper : MergeHelper K)
    (hes : KeyEntries cfg k (e :: es)) (htype : e.1.type = .merge)
    (hcov : cfg.shouldDelete e.1 = true) : mergeOut cfg helper more e es = .ok [] := by
  have hq := (hes.sequence e (.head _)).1
  have hg := hes.older
  obtain ⟨ms, hms, hops, hends⟩ := collect_spec hsnap hq es [] hg
  have hnone : ms.filter (fun m => !cfg.shouldDelete m.1) = [] := by
    refine filter_eq_nil_iff.mpr fun m hm => ?_
    obtain ⟨hmkey, hle, -⟩ := hg m (hends.subset m hm)
    rw [shouldDelete_mono hcov hmkey hle (hms m hm).2]
    decide
  rw [hnone, append_nil] at hops
  rw [mergeOut]
  simp only [collect_first htype, hcov, if_true, hops]
  rfl

theorem map_prepareOutput_merges (h : ∀ o ∈ outs, o.1.type = .merge) :
    outs.map (prepareOutput cfg) = outs :=
  (map_congr_left fun o ho => prepareOutput_merge (h o ho)).trans (map_id outs)

/-- What the iterator makes of the first entry `e` of a key: `outs`, and it goes on with the
    entries `r` of those behind `e`. -/
structure Step (cfg : Config K) (more : Bool) (e : Entry K) (es outs r : List (Entry K)) :
    Prop where
  left : ∃ used, es = used ++ r ∧
    ∀ n ∈ used, stripe cfg n.1.sequence = stripe cfg e.1.sequence
  keyOut : keyOut cfg more 0 (e :: es) = outs.map (prepareOutput cfg) ++ keyOut cfg more 0 r
  /-- outputs stand for entries of the stripe -/
  source : ∀ o ∈ outs, ∃ n ∈ e :: es, o.1.userKey = n.1.userKey ∧ o.1.sequence = n.1.sequence ∧
    stripe cfg n.1.sequence = stripe cfg e.1.sequence
  /-- behind outputs there are only older stripes -/
  older : outs = [] ∨ ∀ n ∈ r, stripe cfg n.1.sequence < stripe cfg e.1.sequence
  /-- only operands are delivered several at a time -/
  many : outs.length ≤ 1 ∨ outs.Sublist (e :: es) ∧ ∀ o ∈ outs, o.1.type = .merge
  plain : ∀ o ∈ outs, Plain o
  /-- a deletion stands for itself -/
  deletion : ∀ o ∈ outs, o.1.type = .deletion → outs = [e] ∧ obsolete cfg e.1 = false

/-- The outputs of a group. -/
structure Outputs (cfg : Config K) (e : Entry K) (es outs : List (Entry K)) : Prop where
  ne_nil : outs ≠ []
  source : ∀ o ∈ outs, ∃ n ∈ e :: es, o.1.userKey = n.1.userKey ∧ o.1.sequence = n.1.sequence ∧
    stripe cfg n.1.sequence = stripe cfg e.1.sequence
  many : outs.length ≤ 1 ∨ outs.Sublist (e :: es) ∧ ∀ o ∈ outs, o.1.type = .merge
  types : ∀ o ∈ outs, o.1.type = .value ∨ o.1.type = .merge

theorem Group.outputs (h : Group cfg helper e es outs) (htype : e.1.type = .merge) :
    Outputs cfg e es outs := by
  have hone : ∀ (t : ValueType) (v : Bytes), t = .value ∨ t = .merge →
      Outputs cfg e es [({ e.1 with type := t }, v)] := by
    intro t v ht
    refine ⟨cons_ne_nil _ _, fun o ho => ⟨e, .head _, ?_⟩, .inl (Nat.le_refl 1),
      fun o ho => ?_⟩
    · rw [mem_singleton.mp ho]
      exact ⟨rfl, rfl, rfl⟩
    · rw [mem_singleton.mp ho]
      exact ht
  cases h with
  | base ms b r v => exact hone .value v (.inl rfl)
  | root v => exact hone .value v (.inl rfl)
  | operands ms r _ hsplit hms hr houts =>
  rcases houts with rfl | ⟨v, rfl, -⟩
  · have hmem : ∀ o ∈ groupOperands cfg e ms, o ∈ e :: es ∧ o.1.type = .merge ∧
        stripe cfg o.1.sequence = stripe cfg e.1.sequence := by
      intro o ho
      rcases mem_cons.mp ho with rfl | ho
      · exact ⟨.head _, htype, rfl⟩
      · have ho := mem_of_mem_filter ho
        exact ⟨.tail e (hsplit ▸ mem_append_left r ho), hms o ho⟩
    refine ⟨cons_ne_nil _ _, fun o ho => ⟨o, (hmem o ho).1, rfl, rfl, (hmem o ho).2.2⟩,
      .inr ⟨?_, fun o ho => (hmem o ho).2.1⟩, fun o ho => .inr (hmem o ho).2.1⟩
    refine .cons_cons e ?_
    rw [hsplit]
    exact filter_sublist.trans (sublist_append_left ms r)
  · have hsame : ((e.1, v) : Entry K) = ({ e.1 with type := .merge }, v) := by
      rw [← htype]
    rw [hsame]
    exact hone .merge v (.inr rfl)

/-- **A STEP** at the first entry of a key. -/
theorem keyOut_step (more : Bool) (hsnap : LiveSnapshots cfg.snapshots)
    (htotal : MergeHelper.Total helper) (hhelper : cfg.mergeHelper = some helper)
    (hes : KeyEntries cfg k (e :: es)) (hplain : Plain e) :
    ∃ outs r, Step cfg more e es outs r := by
  by_cases htype : e.1.type = .merge
  · have hzero : (0 : Nat) ≠ stripe cfg e.1.sequence :=
      Nat.ne_of_lt (stripe_pos (hes.sequence e (.head _)))
    cases hcov : cfg.shouldDelete e.1 with
    | true =>
      have hout : keyOut cfg more 0 (e :: es) = _ := keyOut_merge hzero htype hhelper
        (mergeOut_covered hsnap helper hes htype hcov)
      rw [if_pos rfl] at hout
      exact ⟨[], es, ⟨[], rfl, forall_mem_nil _⟩, hout, forall_mem_nil _, .inl rfl,
        .inl (Nat.zero_le 1), forall_mem_nil _, forall_mem_nil _⟩
    | false =>
    obtain ⟨outs, hout, hgroup⟩ := mergeOut_group more hsnap htotal hes htype hcov
    obtain ⟨hne, hsource, hmany, htypes⟩ := hgroup.outputs htype
    obtain ⟨used, r, rfl, hused, hr⟩ := split_stripe hsnap hes
    refine ⟨outs, r, ⟨used, rfl, hused⟩, ?_, hsource, .inr hr, hmany, ?_, ?_⟩
    · rw [keyOut_merge hzero htype hhelper hout, if_neg hne, keyOut_fresh hused
        (fun n hn => Nat.ne_of_lt (hr n hn)) hes.tail.suffix.sequence]
    · intro o ho
      rcases htypes o ho with h | h
      · exact .inl h
      · exact .inr (.inr h)
    · intro o ho hdel
      rcases htypes o ho with h | h <;> rw [hdel] at h <;> exact nomatch h
  · obtain ⟨used, r, hsplit, hused, hr, hfirst⟩ := keyOut_first hsnap more hes htype
    have hnone : keyOut cfg more 0 (e :: es) = keyOut cfg more 0 r → ∃ outs r,
        Step cfg more e es outs r :=
      fun hout => ⟨[], r, ⟨used, hsplit, hused⟩, hout, forall_mem_nil _, .inl rfl,
        .inl (Nat.zero_le 1), forall_mem_nil _, forall_mem_nil _⟩
    cases hfirst with
    | dropped hout => exact hnone hout
    | covered hout => exact hnone hout
    | kept hout hob =>
    refine ⟨[e], r, ⟨used, hsplit, hused⟩, hout, ?_, .inr hr, .inl (Nat.le_refl 1), ?_, ?_⟩
    · intro o ho
      rw [mem_singleton.mp ho]
      exact ⟨e, .head _, rfl, rfl, rfl⟩
    · intro o ho
      rw [mem_singleton.mp ho]
      exact hplain
    · intro o ho _
      exact ⟨rfl, hob⟩

end Stripe

/-! ## The output of a key -/

section Key

variable {cfg : Config K} {helper : MergeHelper K} {k : K} (more : Bool)
  (hsnap : LiveSnapshots cfg.snapshots) (htotal : MergeHelper.Total helper)
  (hhelper : cfg.mergeHelper = some helper)

include hsnap htotal hhelper

/-- **STEP BY STEP**: what holds of the empty output, and of an output when it holds of the
    rest behind a step, holds of the output of a key. -/
theorem keyOut_induction {motive : List (Entry K) → Prop} (nil : motive [])
    (step : ∀ e es outs r, KeyEntries cfg k (e :: es) → (∀ n ∈ e :: es, Plain n) →
      Step cfg more e es outs r → KeyEntries cfg k r → motive r → motive (e :: es)) :
    ∀ g, KeyEntries cfg k g → (∀ e ∈ g, Plain e) → motive g := by
  intro g
  induction hn : g.length using Nat.strong_induction_on generalizing g with
  | _ n ih =>
  intro hg hplain
  cases g with
  | nil => exact nil
  | cons e es =>
  obtain ⟨outs, r, h⟩ := keyOut_step more hsnap htotal hhelper hg
    (hplain e (.head _))
  obtain ⟨used, hsplit, -⟩ := h.left
  have hr : KeyEntries cfg k r := KeyEntries.suffix (hsplit ▸ hg.tail)
  have hlen : r.length < n := by
    rw [← hn, hsplit, length_cons, length_append]
    omega
  exact step e es outs r hg hplain h hr (ih r.length hlen r rfl hr fun n hn =>
    hplain n (.tail e (hsplit ▸ mem_append_right used hn)))

section

variable (g : List (Entry K)) (hg : KeyEntries cfg k g) (hplain : ∀ e ∈ g, Plain e)
include hg hplain

/-- Outputs are not newer than what they stand for. -/
theorem keyOut_source :
    ∀ o ∈ keyOut cfg more 0 g, Plain o ∧ ∃ n ∈ g, o.1.userKey = n.1.userKey ∧
      o.1.sequence ≤ n.1.sequence := by
  revert g
  refine keyOut_induction more hsnap htotal hhelper nofun ?_
  intro e es outs r hg hplain h hr ih o ho
  obtain ⟨used, hsplit, -⟩ := h.left
  rw [h.keyOut] at ho
  rcases mem_append.mp ho with ho | ho
  · obtain ⟨o', ho', rfl⟩ := mem_map.mp ho
    obtain ⟨n, hn, hkey, hseq, -⟩ := h.source o' ho'
    have hle := prepareOutput_sequence_le cfg o'
    refine ⟨?_, n, hn, (prepareOutput_userKey cfg o').trans hkey, by omega⟩
    rw [Plain, prepareOutput_type]
    exact h.plain o' ho'
  · obtain ⟨hplain', n, hn, hcond⟩ := ih o ho
    exact ⟨hplain', n, .tail e (hsplit ▸ mem_append_right used hn), hcond⟩

/-- The output of a key is in the order of internal keys. -/
theorem keyOut_packed : (keyOut cfg more 0 g).Pairwise (fun a b => b.1.packed ≤ a.1.packed) := by
  revert g
  refine keyOut_induction more hsnap htotal hhelper .nil ?_
  intro e es outs r hg hplain h hr ih
  obtain ⟨used, hsplit, -⟩ := h.left
  have hmem : ∀ n ∈ r, n ∈ es := fun n hn => hsplit ▸ mem_append_right used hn
  rw [h.keyOut]
  refine pairwise_append.mpr ⟨?_, ih, ?_⟩
  · rcases h.many with hone | ⟨hsub, hmerge⟩
    · cases outs with
      | nil => exact .nil
      | cons o os =>
      obtain rfl : os = [] := eq_nil_of_length_eq_zero (by
        rw [length_cons] at hone
        omega)
      exact pairwise_singleton _ _
    · rw [map_prepareOutput_merges hmerge]
      refine (hg.sorted.sublist hsub).imp_of_mem fun ha hb hle => ?_
      rw [InternalKey.packed, InternalKey.packed, hmerge _ ha, hmerge _ hb, packSequenceAndType,
        packSequenceAndType]
      exact Nat.add_le_add_right (Nat.mul_le_mul_right 256 hle) _
  intro a ha b hb
  obtain ⟨o, ho, rfl⟩ := mem_map.mp ha
  obtain ⟨n, hn, -, hseq, hstripe⟩ := h.source o ho
  have hr' := h.older.resolve_left (ne_nil_of_mem ho)
  have hlow : ∀ m ∈ r, stripe cfg m.1.sequence < stripe cfg o.1.sequence := fun m hm => by
    rw [hseq, hstripe]
    exact hr' m hm
  obtain ⟨-, m, hm, -, hle⟩ := keyOut_source more hsnap htotal hhelper r hr
    (fun n hn => hplain n (.tail e (hmem n hn))) b hb
  have hlt := lt_of_stripe_lt hsnap (hr.sequence m hm).1 (hlow m hm)
  rcases prepareOutput_cases cfg o with hsame | ⟨-, hzeroed⟩
  · rw [hsame]
    exact (packed_lt_of_sequence_lt (hle.trans_lt hlt)).le
  -- there is no stripe behind the earliest one
  have hq : o.1.sequence ≤ maxSequenceNumber := hseq ▸ (hg.sequence n hn).1
  rw [eq_nil_of_earliest hsnap hq hzeroed.le hlow] at hm
  cases hm

end

/-- No deletion is renumbered to 0. -/
theorem keyOut_zeros (target : K) (g : List (Entry K)) (hg : KeyEntries cfg k g)
    (hplain : ∀ e ∈ g, Plain e) :
    (keyOut cfg more 0 g).countP (fun e => decide (e.1 = ⟨target, 0, .deletion⟩))
      ≤ g.countP (fun e => decide (e.1 = ⟨target, 0, .deletion⟩)) := by
  revert g
  refine keyOut_induction more hsnap htotal hhelper le_rfl ?_
  intro e es outs r hg hplain h hr ih
  obtain ⟨used, hsplit, -⟩ := h.left
  have houts : (outs.map (prepareOutput cfg)).countP
      (fun e => decide (e.1 = ⟨target, 0, .deletion⟩))
      ≤ [e].countP (fun e => decide (e.1 = ⟨target, 0, .deletion⟩)) := by
    by_cases hdel : ∃ o ∈ outs, o.1.type = .deletion
    · obtain ⟨o, ho, htype⟩ := hdel
      obtain ⟨rfl, hob⟩ := h.deletion o ho htype
      obtain rfl := mem_singleton.mp ho
      rcases prepareOutput_cases cfg o with hsame | ⟨-, hzeroed⟩
      · rw [map_singleton, hsame]
      · rw [hzeroed.obsolete htype] at hob
        cases hob
    have hnone : (outs.map (prepareOutput cfg)).countP
        (fun e => decide (e.1 = ⟨target, 0, .deletion⟩)) = 0 := by
      refine countP_eq_zero.mpr fun o ho => ?_
      obtain ⟨o', ho', rfl⟩ := mem_map.mp ho
      rw [decide_eq_true_eq]
      intro heq
      refine hdel ⟨o', ho', ?_⟩
      rw [← prepareOutput_type cfg o', heq]
    rw [hnone]
    exact Nat.zero_le _
  rw [h.keyOut, countP_append, hsplit, ← singleton_append, countP_append, countP_append]
  omega

omit hsnap htotal hhelper in
/-- With the newest entry of a key all of them are visible. -/
theorem visibleOf_eq_self {s : Nat} (hg : KeyEntries cfg k (e :: es)) (hle : e.1.sequence ≤ s) :
    visibleOf s k (e :: es) = e :: es := by
  refine filter_eq_self.mpr fun n hn => decide_eq_true ⟨hg.key n hn, ?_⟩
  rcases mem_cons.mp hn with rfl | hn
  · exact hle
  · exact ((pairwise_cons.mp hg.sorted).1 n hn).trans hle

/-- A reader who does not see the newer stripes sees the output of the others. -/
theorem visible_keyOut {s : Nat} (hs : Live cfg s) (g : List (Entry K)) (hg : KeyEntries cfg k g)
    (hplain : ∀ e ∈ g, Plain e) :
    visibleOf s k (keyOut cfg more 0 g) = keyOut cfg more 0 (visibleOf s k g) := by
  revert g
  refine keyOut_induction more hsnap htotal hhelper rfl ?_
  intro e es outs r hg hplain h hr ih
  obtain ⟨used, hsplit, hused⟩ := h.left
  have hkey := hg.key e (.head _)
  have hq := (hg.sequence e (.head _)).1
  by_cases hle : e.1.sequence ≤ s
  · -- everything is visible
    have hall := visibleOf_eq_self hg hle
    rw [hall]
    refine filter_eq_self.mpr fun o ho => decide_eq_true ?_
    obtain ⟨-, n, hn, hokey, hoseq⟩ := keyOut_source more hsnap htotal hhelper
        (e :: es) hg hplain o ho
    rw [← hall] at hn
    have hn := of_decide_eq_true (mem_filter.mp hn).2
    exact ⟨hokey.trans hn.1, hoseq.trans hn.2⟩
  have hnew : s < stripe cfg e.1.sequence :=
    Nat.lt_of_not_le fun h => hle ((sequence_le_iff hsnap hq hs).mpr h)
  have hunseen : ∀ n : Entry K, n.1.sequence ≤ maxSequenceNumber →
      stripe cfg n.1.sequence = stripe cfg e.1.sequence → ¬ n.1.sequence ≤ s := by
    intro n hn hstripe hle
    have hle := (sequence_le_iff hsnap hn hs).mp hle
    omega
  have houts : visibleOf s k (outs.map (prepareOutput cfg)) = [] := by
    refine filter_eq_nil_iff.mpr fun o ho => ?_
    obtain ⟨o', ho', rfl⟩ := mem_map.mp ho
    obtain ⟨n, hn, -, hseq, hstripe⟩ := h.source o' ho'
    have hnot := hunseen n (hg.sequence n hn).1 hstripe
    rw [decide_eq_true_eq]
    intro hsee
    rcases prepareOutput_cases cfg o' with hsame | ⟨-, hzeroed⟩
    · rw [hsame] at hsee
      exact hnot (hseq ▸ hsee.2)
    · exact hnot (hseq ▸ hzeroed.le.trans (earliest_le hsnap hs))
  have hhead : visibleOf s k (e :: es) = visibleOf s k r := by
    have hnone : visibleOf s k (e :: used) = [] := by
      refine filter_eq_nil_iff.mpr fun n hn => ?_
      rw [decide_eq_true_eq]
      intro hsee
      rcases mem_cons.mp hn with rfl | hn
      · exact hle hsee.2
      · exact hunseen n (hg.tail.sequence n (hsplit ▸ mem_append_left r hn)).1
          (hused n hn) hsee.2
    rw [hsplit, ← cons_append, visibleOf, filter_append]
    exact congrArg (· ++ visibleOf s k r) hnone
  have happend : visibleOf s k (outs.map (prepareOutput cfg) ++ keyOut cfg more 0 r)
      = visibleOf s k (outs.map (prepareOutput cfg)) ++ visibleOf s k (keyOut cfg more 0 r) :=
    filter_append _ _
  rw [h.keyOut, happend, houts, hhead, ← ih, nil_append]

end Key

/-! ## Reading the output of a key -/

/-- Where operands of a stripe that are not covered stand above a value that a tombstone of
    the stripe covers, the operator does not care for the value. -/
def Respected (cfg : Config K) (helper : MergeHelper K) (g : List (Entry K)) : Prop :=
  ∀ newer e ms b rest, g = newer ++ e :: (ms ++ b :: rest) →
    (∀ n ∈ newer, stripe cfg n.1.sequence ≠ stripe cfg e.1.sequence) →
    e.1.type = .merge → cfg.shouldDelete e.1 = false →
    (∀ m ∈ ms, m.1.type = .merge ∧ stripe cfg m.1.sequence = stripe cfg e.1.sequence) →
    b.1.type = .value → stripe cfg b.1.sequence = stripe cfg e.1.sequence →
    cfg.shouldDelete b.1 = true →
    helper.fullMergeV2 e.1.userKey (some b.2) (mergeOperands (groupOperands cfg e ms))
      = helper.fullMergeV2 e.1.userKey none (mergeOperands (groupOperands cfg e ms))

variable {g : List (Entry K)} {helper : MergeHelper K}

theorem Respected.suffix {front : List (Entry K)} (h : Respected cfg helper (front ++ g))
    (hfront : ∀ n ∈ front, ∀ m ∈ g, stripe cfg n.1.sequence ≠ stripe cfg m.1.sequence) :
    Respected cfg helper g := by
  intro newer e ms b rest hg hnewer
  refine h (front ++ newer) e ms b rest (by rw [hg, append_assoc]) fun n hn => ?_
  rcases mem_append.mp hn with hn | hn
  · exact hfront n hn e (hg ▸ mem_append_right newer (.head _))
  · exact hnewer n hn

section Read

variable {cfg : Config K} {helper : MergeHelper K} {k : K} {more : Bool} {s : Nat}

/-- When everything is covered, only deletions are left. -/
theorem keyOut_deletions (hsnap : LiveSnapshots cfg.snapshots)
    (hhelper : cfg.mergeHelper = some helper) (g : List (Entry K)) (last) (hg : KeyEntries cfg k g)
    (hcov : ∀ n ∈ g, cfg.shouldDelete n.1 = true) :
    ∀ o ∈ keyOut cfg more last g, o.1.type = .deletion := by
  induction g generalizing last with
  | nil => intro o ho; exact nomatch ho
  | cons e es ih =>
  intro o ho
  have ih := fun last => ih last hg.tail fun n hn => hcov n (.tail e hn)
  have hcov := hcov e (.head _)
  by_cases hhidden : stripe cfg e.1.sequence = last
  · rw [keyOut_hidden hhidden] at ho
    exact ih last o ho
  by_cases htype : e.1.type = .merge
  · rw [keyOut_merge (Ne.symm hhidden) htype hhelper (mergeOut_covered hsnap helper hg htype hcov),
      if_pos rfl] at ho
    exact ih 0 o ho
  rcases keyOut_plain more es (Ne.symm hhidden) htype with ⟨hout, -⟩ | ⟨hout, -, hkept⟩
  · rw [hout] at ho
    exact ih _ o ho
  rw [hout] at ho
  rcases mem_cons.mp ho with rfl | ho
  · cases hlook : looksAhead cfg e.1 with
    | true =>
      rw [prepareOutput_type]
      exact (looksAhead_cases hlook).1
    | false =>
      rw [hkept hlook] at hcov
      exact nomatch hcov
  · exact ih _ o ho

variable (hsnap : LiveSnapshots cfg.snapshots)
  (htomb : ∀ t ∈ cfg.tombstones, t.seq ≤ maxSequenceNumber) (hs : Live cfg s)

include hsnap htomb hs

/-- In the stripe of an entry that is not covered, the reader and the compaction ask the same
    tombstones. -/
theorem covered_eq_shouldDelete {m : Entry K} (hle : e.1.sequence ≤ s)
    (hq : e.1.sequence ≤ maxSequenceNumber) (hcov : covered cfg.tombstones s e.1 = false)
    (hm : m.1.sequence ≤ maxSequenceNumber) (hkey : m.1.userKey = e.1.userKey)
    (hstripe : stripe cfg m.1.sequence = stripe cfg e.1.sequence) :
    covered cfg.tombstones s m.1 = cfg.shouldDelete m.1 := by
  have hmle : m.1.sequence ≤ s := by
    rw [sequence_le_iff hsnap hm hs, hstripe]
    exact (sequence_le_iff hsnap hq hs).mp hle
  rw [Bool.eq_iff_iff]
  exact ⟨shouldDelete_of_covered hsnap htomb hq hkey hstripe hcov,
    covered_of_shouldDelete hsnap htomb hs hm hmle⟩

/-- A reader sees the operand `e`, which no tombstone covers; `ms` are operands of its stripe
    behind it. -/
structure OpenGroup (cfg : Config K) (k : K) (s : Nat) (e : Entry K) (ms rest : List (Entry K)) :
    Prop where
  entries : KeyEntries cfg k (e :: (ms ++ rest))
  seen : e.1.sequence ≤ s
  type : e.1.type = .merge
  live : covered cfg.tombstones s e.1 = false
  operands : ∀ m ∈ ms, m.1.type = .merge ∧ stripe cfg m.1.sequence = stripe cfg e.1.sequence

variable {e : Entry K} {ms rest : List (Entry K)}

/-- Its stripe asks the tombstones of the reader. -/
theorem OpenGroup.covered_eq (h : OpenGroup cfg k s e ms rest) {m : Entry K}
    (hm : m ∈ e :: (ms ++ rest)) (hstripe : stripe cfg m.1.sequence = stripe cfg e.1.sequence) :
    covered cfg.tombstones s m.1 = cfg.shouldDelete m.1 :=
  covered_eq_shouldDelete hsnap htomb hs h.seen (h.entries.sequence e (.head _)).1 h.live
    (h.entries.sequence m hm).1
    ((h.entries.key m hm).trans (h.entries.key e (.head _)).symm) hstripe

/-- The reader collects the operands of a group, and stops when one of them is covered. -/
theorem readFrom_group (h : OpenGroup cfg k s e ms rest) (acc : List Bytes) :
    readFrom (covered cfg.tombstones s) helper k acc (e :: (ms ++ rest)) =
      if ms.any (fun m => cfg.shouldDelete m.1) then
        mergedValue helper k none (acc ++ (groupOperands cfg e ms).map Prod.snd)
      else readFrom (covered cfg.tombstones s) helper k
        (acc ++ (groupOperands cfg e ms).map Prod.snd) rest := by
  have ⟨hes, _, htype, hcov, hms⟩ := h
  have hmem : ∀ n ∈ e :: ms, n ∈ e :: (ms ++ rest) := fun n hn => by
    rw [← cons_append]
    exact mem_append_left rest hn
  have hsame : ∀ m ∈ ms, covered cfg.tombstones s m.1 = cfg.shouldDelete m.1 := fun m hm =>
    h.covered_eq hsnap htomb hs (hmem m (.tail e hm)) (hms m hm).2
  have hsorted : (e :: ms).Pairwise (fun a b => b.1.sequence ≤ a.1.sequence) := by
    have hsorted := hes.sorted
    rw [← cons_append] at hsorted
    exact (pairwise_append.mp hsorted).1
  have hclosed : (e :: ms).Pairwise
      (fun a b => covered cfg.tombstones s a.1 = true → covered cfg.tombstones s b.1 = true) :=
    hsorted.imp_of_mem fun ha hb hle h =>
      covered_mono h ((hes.key _ (hmem _ hb)).trans (hes.key _ (hmem _ ha)).symm) hle
  have hany : (e :: ms).any (fun m => covered cfg.tombstones s m.1)
      = ms.any (fun m => cfg.shouldDelete m.1) := by
    rw [any_cons, hcov, Bool.false_or, Bool.eq_iff_iff, any_eq_true, any_eq_true]
    exact exists_congr fun m => and_congr_right fun hm => by rw [hsame m hm]
  have hfilter : (e :: ms).filter (fun m => !covered cfg.tombstones s m.1)
      = groupOperands cfg e ms := by
    rw [filter_cons_of_pos (by rw [hcov]; rfl), groupOperands]
    exact congrArg (e :: ·) (filter_congr fun m hm => by rw [hsame m hm])
  rw [← cons_append, readFrom_merges
    (forall_mem_cons.mpr ⟨htype, fun m hm => (hms m hm).1⟩) hclosed rest acc, hany, hfilter]
  cases hdel : ms.any (fun m => cfg.shouldDelete m.1) with
  | true => rfl
  | false =>
  have hall : ms.filter (fun m => !cfg.shouldDelete m.1) = ms := by
    refine filter_eq_self.mpr fun m hm => ?_
    have hm := any_eq_false.mp hdel m hm
    rw [Bool.not_eq_true] at hm
    rw [hm]
    rfl
  rw [groupOperands, hall]

omit hsnap htomb hs in
/-- A merged value that is delivered reads as itself. -/
theorem readFrom_delivered (hcov : covered (keptTombstones cfg) s e.1 = false)
    (v : Bytes) (rest : List (Entry K)) (acc : List Bytes) :
    readFrom (covered (keptTombstones cfg) s) helper k acc
      (prepareOutput cfg ({ e.1 with type := .value }, v) :: rest)
      = mergedValue helper k (some v) acc := by
  have hnot : ¬ covered (keptTombstones cfg) s
      (prepareOutput cfg ({ e.1 with type := .value }, v)).1 = true := by
    intro h
    have hsame : covered (keptTombstones cfg) s e.1 = true :=
      covered_mono (covered_prepareOutput h) rfl le_rfl
    rw [hcov] at hsame
    exact nomatch hsame
  rw [readFrom, if_neg hnot, if_pos (prepareOutput_type cfg _), prepareOutput_value]

/-- **THE BASE** under a group: the reader takes it unless a tombstone covers it. -/
theorem readFrom_base {b : Entry K} (h : OpenGroup cfg k s e ms (b :: rest))
    (hb : stripe cfg b.1.sequence = stripe cfg e.1.sequence) (hbtype : b.1.type ≠ .merge)
    (acc : List Bytes) :
    readFrom (covered cfg.tombstones s) helper k acc (e :: (ms ++ b :: rest)) =
      mergedValue helper k (if cfg.shouldDelete b.1 then none else baseValue b)
        (acc ++ (groupOperands cfg e ms).map Prod.snd) := by
  have hes := h.entries
  have hmem : b ∈ e :: (ms ++ b :: rest) :=
    mem_cons_of_mem e (mem_append_right ms (.head _))
  have hbcov := h.covered_eq hsnap htomb hs hmem hb
  rw [readFrom_group hsnap htomb hs h acc]
  cases hdel : ms.any (fun m => cfg.shouldDelete m.1) with
  | true =>
    -- the base is older than the covered operand
    obtain ⟨m, hm, hmdel⟩ := any_eq_true.mp hdel
    have hm' : m ∈ e :: (ms ++ b :: rest) := .tail e (mem_append_left _ hm)
    have hsorted := (pairwise_cons.mp hes.sorted).2
    have hbdel : cfg.shouldDelete b.1 = true :=
      shouldDelete_mono hmdel ((hes.key b hmem).trans (hes.key m hm').symm)
        ((pairwise_append.mp hsorted).2.2 m hm b (.head _))
        (hb.trans (h.operands m hm).2.symm)
    rw [if_pos rfl, hbdel, if_pos rfl]
  | false =>
  rw [if_neg Bool.false_ne_true, readFrom, hbcov]
  cases cfg.shouldDelete b.1 with
  | true => rw [if_pos rfl, if_pos rfl]
  | false =>
    rw [if_neg Bool.false_ne_true, if_neg Bool.false_ne_true, if_neg hbtype, baseValue]
    split <;> rfl

/-- A value or a deletion that is not covered. -/
theorem readFrom_keyOut_plain (hes : KeyEntries cfg k (e :: es)) (htype : e.1.type ≠ .merge)
    (hle : e.1.sequence ≤ s) (hcov : covered cfg.tombstones s e.1 = false) (acc : List Bytes) :
    readFrom (covered (keptTombstones cfg) s) helper k acc (keyOut cfg more 0 (e :: es))
      = readFrom (covered cfg.tombstones s) helper k acc (e :: es) := by
  have hdel := not_shouldDelete hsnap htomb hs (hes.sequence e (.head _)).1 hle hcov
  have hecov : covered (keptTombstones cfg) s (prepareOutput cfg e).1 = false :=
    Bool.eq_false_iff.mpr fun h =>
      Bool.eq_false_iff.mp (not_covered_kept hcov) (covered_prepareOutput h)
  have hright : readFrom (covered cfg.tombstones s) helper k acc (e :: es)
      = mergedValue helper k (baseValue e) acc := by
    rw [readFrom, hcov, if_neg Bool.false_ne_true, if_neg htype, baseValue]
    split <;> rfl
  rw [hright]
  obtain ⟨used, r, rfl, -, -, hfirst⟩ := keyOut_first hsnap more hes htype
  cases hfirst with
  | dropped hout hdeletion _ hnil =>
    rw [hout, hnil, baseValue, hdeletion]
    rfl
  | covered hout hdel' => cases hdel.symm.trans hdel'
  | kept hout =>
  rw [hout, readFrom, hecov, if_neg Bool.false_ne_true, prepareOutput_type, prepareOutput_value,
    if_neg htype, baseValue]
  split <;> rfl

variable (hop : Consistent helper)

include hop

/-- A group whose base counts. -/
theorem readFrom_keyOut_base {b : Entry K} {v : Bytes} (h : OpenGroup cfg k s e ms (b :: rest))
    (hb : stripe cfg b.1.sequence = stripe cfg e.1.sequence) (hbtype : b.1.type ≠ .merge)
    (hresp : b.1.type = .value → cfg.shouldDelete b.1 = true →
      helper.fullMergeV2 e.1.userKey (some b.2) (mergeOperands (groupOperands cfg e ms))
        = helper.fullMergeV2 e.1.userKey none (mergeOperands (groupOperands cfg e ms)))
    (hv : helper.fullMergeV2 e.1.userKey (baseValue b) (mergeOperands (groupOperands cfg e ms))
      = some v) (acc : List Bytes) :
    mergedValue helper k (some v) acc =
      readFrom (covered cfg.tombstones s) helper k acc (e :: (ms ++ b :: rest)) := by
  have hkey := h.entries.key e (.head _)
  have hne : (groupOperands cfg e ms).map Prod.snd ≠ [] := cons_ne_nil _ _
  rw [readFrom_base hsnap htomb hs h hb hbtype]
  rw [hkey] at hv hresp
  cases hdel : cfg.shouldDelete b.1 with
  | false => exact mergedValue_some hop hne hv acc
  | true =>
  rw [if_pos rfl]
  refine mergedValue_some hop hne ?_ acc
  by_cases hvalue : b.1.type = .value
  · rw [baseValue, if_pos hvalue] at hv
    exact (hresp hvalue hdel).symm.trans hv
  · rw [baseValue, if_neg hvalue] at hv
    exact hv

/-- The operands of a group that are delivered. -/
theorem readFrom_outs (h : OpenGroup cfg k s e ms rest) (houts : outs = groupOperands cfg e ms ∨ ∃
      v, outs = [(e.1, v)] ∧ helper.partialMergeMulti e.1.userKey (mergeOperands (groupOperands cfg
      e ms)) = some v) (acc : List Bytes) (more : List (Entry K)) :
    readFrom (covered (keptTombstones cfg) s) helper k acc (outs.map (prepareOutput cfg) ++ more)
      = readFrom (covered (keptTombstones cfg) s) helper k
        (acc ++ (groupOperands cfg e ms).map Prod.snd) more := by
  have hecov := not_covered_kept h.live
  have hops : ∀ o ∈ groupOperands cfg e ms, o.1.type = .merge ∧
      covered (keptTombstones cfg) s o.1 = false := by
    intro o ho
    rcases mem_cons.mp ho with rfl | ho
    · exact ⟨h.type, hecov⟩
    obtain ⟨hm, hdel⟩ := mem_filter.mp ho
    refine ⟨(h.operands o hm).1, not_covered_kept ?_⟩
    rw [h.covered_eq hsnap htomb hs (.tail e (mem_append_left rest hm))
      (h.operands o hm).2]
    exact Bool.not_eq_true' _ ▸ hdel
  have houts' : ∀ o ∈ outs, o.1.type = .merge ∧ covered (keptTombstones cfg) s o.1 = false := by
    rcases houts with rfl | ⟨v, rfl, -⟩
    · exact hops
    intro o ho
    rw [mem_singleton.mp ho]
    exact ⟨h.type, hecov⟩
  have hany : outs.any (fun m => covered (keptTombstones cfg) s m.1) = false :=
    any_eq_false.mpr fun o ho => by
      rw [(houts' o ho).2]
      exact Bool.false_ne_true
  have hclosed : outs.Pairwise (fun a b => covered (keptTombstones cfg) s a.1 = true →
      covered (keptTombstones cfg) s b.1 = true) :=
    pairwise_of_forall_mem_list fun a ha b _ h => by
      rw [(houts' a ha).2] at h
      exact nomatch h
  rw [map_prepareOutput_merges fun o ho => (houts' o ho).1,
    readFrom_merges (fun o ho => (houts' o ho).1) hclosed more acc, hany, if_neg Bool.false_ne_true]
  rcases houts with rfl | ⟨v, rfl, hv⟩
  · rfl
  rw [h.entries.key e mem_cons_self] at hv
  have hcombined := readFrom_combined hop (cons_ne_nil _ _) hv
    (covered (keptTombstones cfg) s) acc more []
  rw [append_nil] at hcombined
  exact hcombined.symm

/-- Behind a covered operand of a group the reader finds nothing. -/
theorem readFrom_behind (hhelper : cfg.mergeHelper = some helper) {m : Entry K}
    (h : OpenGroup cfg k s e ms rest) (hplain : ∀ n ∈ rest, Plain n)
    (hr : ∀ n ∈ rest, stripe cfg n.1.sequence ≠ stripe cfg e.1.sequence)
    (hm : m ∈ ms) (hdel : cfg.shouldDelete m.1 = true) (acc : List Bytes) :
    readFrom (covered (keptTombstones cfg) s) helper k acc (keyOut cfg more 0 rest)
      = mergedValue helper k none acc := by
  have hmem : m ∈ e :: (ms ++ rest) := .tail e (mem_append_left rest hm)
  have hkeym := h.entries.key m hmem
  have hmq := (h.entries.sequence m hmem).1
  have hrs : KeyEntries cfg k rest := h.entries.tail.suffix
  have hbehind := (pairwise_append.mp (pairwise_cons.mp h.entries.sorted).2).2.2 m hm
  have hmcov : covered cfg.tombstones s m.1 = true := by
    rw [h.covered_eq hsnap htomb hs hmem (h.operands m hm).2]
    exact hdel
  rcases covered_cases htomb hmq hmcov with hkept | ⟨hearliest, -⟩
  · refine readFrom_of_covered (fun o ho => .inl ?_) acc
    obtain ⟨-, n, hn, hkey, hseq⟩ := keyOut_source more hsnap hop.total hhelper rest hrs hplain o ho
    exact covered_mono hkept (hkey.trans ((hrs.key n hn).trans hkeym.symm))
      (hseq.trans (hbehind n hn))
  -- the tombstone is gone, and so is everything older than its stripe
  have hnil : rest = [] := by
    refine eq_nil_iff_forall_not_mem.mpr fun n hn => hr n hn ?_
    have hlow := earliest_le_stripe hsnap n.1.sequence
    have hhigh := stripe_mono hsnap hmq (hbehind n hn)
    rw [(le_earliest_iff hmq).mp hearliest] at hhigh
    rw [← (h.operands m hm).2, (le_earliest_iff hmq).mp hearliest]
    exact Nat.le_antisymm hhigh hlow
  rw [hnil]
  rfl

/-- **ONE KEY**: a reader makes of the output what it made of the entries. -/
theorem readFrom_keyOut (hhelper : cfg.mergeHelper = some helper) :
    ∀ g, KeyEntries cfg k g → (∀ e ∈ g, Plain e) → (∀ e ∈ g, e.1.sequence ≤ s) →
      Respected cfg helper g →
      ∀ acc, readFrom (covered (keptTombstones cfg) s) helper k acc (keyOut cfg more 0 g)
        = readFrom (covered cfg.tombstones s) helper k acc g := by
  intro g
  induction hn : g.length using Nat.strong_induction_on generalizing g with
  | _ n ih =>
  intro hg hplain hle hresp acc
  cases g with
  | nil => rfl
  | cons e es =>
  have hq := (hg.sequence e (.head _)).1
  have hkey := hg.key e (.head _)
  have holder := (pairwise_cons.mp hg.sorted).1
  have hele := hle e (.head _)
  have hzero : (0 : Nat) ≠ stripe cfg e.1.sequence :=
    Nat.ne_of_lt (stripe_pos (hg.sequence e (.head _)))
  have hseqs : ∀ n ∈ e :: es, n.1.sequence ≤ e.1.sequence :=
    forall_mem_cons.mpr ⟨le_rfl, holder⟩
  cases hcov : covered cfg.tombstones s e.1 with
  | true =>
    have hright : readFrom (covered cfg.tombstones s) helper k acc (e :: es)
        = mergedValue helper k none acc := by
      rw [readFrom, if_pos hcov]
    rw [hright]
    rcases covered_cases htomb hq hcov with hkept | ⟨hearliest, hdel⟩
    · refine readFrom_of_covered (fun o ho => .inl ?_) acc
      obtain ⟨-, n, hn, hokey, hseq⟩ :=
        keyOut_source more hsnap hop.total hhelper (e :: es) hg hplain o ho
      exact covered_mono hkept (hokey.trans ((hg.key n hn).trans hkey.symm))
        (hseq.trans (hseqs n hn))
    · refine readFrom_of_covered (fun o ho => .inr ?_) acc
      refine keyOut_deletions hsnap hhelper (e :: es) 0 hg (fun n hn => ?_) o ho
      have hnle : n.1.sequence ≤ cfg.earliestSnapshot := (hseqs n hn).trans hearliest
      refine shouldDelete_mono hdel ((hg.key n hn).trans hkey.symm) (hseqs n hn) ?_
      rw [(le_earliest_iff (hg.sequence n hn).1).mp hnle, (le_earliest_iff hq).mp hearliest]
  | false =>
  by_cases htype : e.1.type = .merge
  · have hdel := not_shouldDelete hsnap htomb hs hq hele hcov
    have hecov := not_covered_kept hcov
    obtain ⟨outs, hout, hgroup⟩ := mergeOut_group more hsnap hop.total hg htype hdel
    rw [keyOut_merge hzero htype hhelper hout, if_neg (hgroup.outputs htype).1]
    cases hgroup with
    | base ms b r v hsplit hms hb hbtype hv =>
      subst hsplit
      rw [map_singleton, singleton_append, readFrom_delivered hecov]
      exact readFrom_keyOut_base hsnap htomb hs hop ⟨hg, hele, htype, hcov, hms⟩ hb hbtype
        (fun hvalue hbdel => hresp [] e ms b r rfl (forall_mem_nil _) htype hdel
          hms hvalue hb hbdel) hv acc
    | root v _ hms hv =>
      have hnil : es ++ [] = es := append_nil es
      have hright : readFrom (covered cfg.tombstones s) helper k acc (e :: (es ++ []))
          = _ := readFrom_group hsnap htomb hs ⟨hnil.symm ▸ hg, hele, htype, hcov, hms⟩ acc
      rw [hnil] at hright
      rw [map_singleton, singleton_append, readFrom_delivered hecov, hright]
      rw [hkey] at hv
      rw [mergedValue_some hop (cons_ne_nil _ _) hv]
      split <;> rfl
    | operands ms r outs hsplit hms hr houts =>
    subst hsplit
    have hopen : OpenGroup cfg k s e ms r := ⟨hg, hele, htype, hcov, hms⟩
    have hrs : KeyEntries cfg k r := hg.tail.suffix
    have hmem : ∀ n ∈ r, n ∈ e :: (ms ++ r) := fun n hn =>
      mem_cons_of_mem e (mem_append_right ms hn)
    rw [readFrom_outs hsnap htomb hs hop hopen houts,
      keyOut_fresh (fun m hm => (hms m hm).2) hr hrs.sequence,
      readFrom_group hsnap htomb hs hopen]
    cases hany : ms.any (fun m => cfg.shouldDelete m.1) with
    | true =>
      obtain ⟨m, hm, hmdel⟩ := any_eq_true.mp hany
      exact readFrom_behind hsnap htomb hs hop hhelper hopen
        (fun n hn => hplain n (hmem n hn)) hr hm hmdel _
    | false =>
    refine ih r.length ?_ r rfl hrs (fun n hn => hplain n (hmem n hn))
      (fun n hn => hle n (hmem n hn)) ?_ _
    · rw [← hn, length_cons, length_append]
      omega
    · refine Respected.suffix (cons_append ▸ hresp) fun n hn m hm => ?_
      rcases mem_cons.mp hn with rfl | hn
      · exact (hr m hm).symm
      · rw [(hms n hn).2]
        exact (hr m hm).symm
  · exact readFrom_keyOut_plain hsnap htomb hs hg htype hele hcov acc

end Read

/-! ## The compaction -/

/-- The condition for every key of the input. -/
def BaseRespected (cfg : Config K) (helper : MergeHelper K) (input : List (Entry K)) : Prop :=
  ∀ k, Respected cfg helper (input.filter (fun n => decide (n.1.userKey = k)))

section Visible

variable {cfg : Config K} {k : K} {s : Nat}

/-- What a reader sees of a key comes last. -/
theorem split_visible (hg : KeyEntries cfg k g) (s : Nat) :
    ∃ front, g = front ++ visibleOf s k g ∧ ∀ n ∈ front, s < n.1.sequence := by
  induction g with
  | nil => exact ⟨[], rfl, forall_mem_nil _⟩
  | cons e es ih =>
  obtain ⟨front, hsplit, hfront⟩ := ih hg.tail
  by_cases hle : e.1.sequence ≤ s
  · refine ⟨[], ?_, forall_mem_nil _⟩
    rw [visibleOf_eq_self hg hle]
    rfl
  refine ⟨e :: front, ?_, forall_mem_cons.mpr ⟨by omega, hfront⟩⟩
  have hskip : visibleOf s k (e :: es) = visibleOf s k es :=
    filter_cons_of_neg (by
      rw [decide_eq_true_eq]
      exact fun h => hle h.2)
  rw [hskip, cons_append, ← hsplit]

theorem visibleOf_mem {n : Entry K} (h : n ∈ visibleOf s k g) :
    n ∈ g ∧ n.1.userKey = k ∧ n.1.sequence ≤ s := by
  obtain ⟨hmem, hcond⟩ := mem_filter.mp h
  exact ⟨hmem, of_decide_eq_true hcond⟩

theorem visibleOf_filter (l : List (Entry K)) :
    visibleOf s k (l.filter (fun n => decide (n.1.userKey = k))) = visibleOf s k l := by
  rw [visibleOf, visibleOf, filter_filter]
  refine filter_congr fun n _ => ?_
  rw [Bool.eq_iff_iff, Bool.and_eq_true, decide_eq_true_eq, decide_eq_true_eq]
  exact ⟨And.left, fun h => ⟨h, h.1⟩⟩

end Visible

section Output

variable {cfg : Config K} {helper : MergeHelper K} (hsnap : LiveSnapshots cfg.snapshots)
  (htotal : MergeHelper.Total helper) (hhelper : cfg.mergeHelper = some helper)
  {input : List (Entry K)} (hsorted : input.Pairwise (fun a b => a.1.rank ≤ b.1.rank))
  (hseq : ∀ e ∈ input, Proper cfg.snapshots e.1.sequence) (hplain : ∀ e ∈ input, Plain e)

include htotal hhelper hsorted hseq hplain

theorem plain_input : Input cfg input := by
  refine ⟨hsorted, hseq, fun e he h => ?_, fun e _ _ => ⟨helper, hhelper, htotal⟩⟩
  rcases hplain e he with h' | h' | h' <;> rw [h] at h' <;> exact nomatch h'

include hsnap

/-- The output can be read by a `DBIter`. -/
theorem output_readable {maxSkip : Nat}
    (hends : ∀ k, input.countP (fun e => decide (e.1 = ⟨k, 0, .deletion⟩)) ≤ maxSkip) :
    (output cfg input).1.Pairwise (fun a b => a.1.rank ≤ b.1.rank) ∧
    (∀ k, (output cfg input).1.countP (fun e => decide (e.1 = ⟨k, 0, .deletion⟩)) ≤ maxSkip) ∧
    ∀ o ∈ (output cfg input).1, Plain o := by
  have hinput := plain_input htotal hhelper hsorted hseq hplain
  obtain ⟨-, hfilter⟩ := filter_output hsnap hinput
  have hentries := keyEntries_filter hinput
  have hplaink : ∀ k, ∀ e ∈ input.filter (fun n => decide (n.1.userKey = k)), Plain e :=
    fun k e he => hplain e (mem_of_mem_filter he)
  have hmem : ∀ k, ∀ o ∈ (output cfg input).1.filter (fun n => decide (n.1.userKey = k)),
      o.1.userKey = k ∧ Plain o := by
    intro k o ho
    refine ⟨of_decide_eq_true (mem_filter.mp ho).2, ?_⟩
    rw [hfilter] at ho
    exact (keyOut_source _ hsnap htotal hhelper _ (hentries k) (hplaink k) o ho).1
  refine ⟨?_, fun k => Nat.le_trans ?_ (hends k), fun o ho => ?_⟩
  · refine pairwise_of_keys (fun a b h => (rank_lt_of_userKey_lt h).le)
      (output_ascending hsnap hinput) fun k => ?_
    have hkeys := hmem k
    rw [hfilter] at hkeys ⊢
    refine (keyOut_packed _ hsnap htotal hhelper _ (hentries k) (hplaink k)).imp_of_mem
      fun ha hb hle => ?_
    exact (rank_le_iff _ _).mpr (.inr ⟨(hkeys _ ha).1.trans (hkeys _ hb).1.symm, hle⟩)
  · have hone : ∀ l : List (Entry K), l.countP (fun e => decide (e.1 = ⟨k, 0, .deletion⟩))
        = (l.filter (fun n => decide (n.1.userKey = k))).countP
          (fun e => decide (e.1 = ⟨k, 0, .deletion⟩)) := by
      intro l
      rw [countP_filter]
      refine countP_congr fun e _ => ?_
      rw [Bool.and_eq_true, decide_eq_true_eq, decide_eq_true_eq]
      exact ⟨fun h => ⟨h, by rw [h]⟩, And.left⟩
    rw [hone (output cfg input).1, hone input, hfilter]
    exact keyOut_zeros _ hsnap htotal hhelper k _ (hentries k) (hplaink k)
  · exact (hmem o.1.userKey o (mem_filter.mpr ⟨ho, decide_eq_true rfl⟩)).2

end Output

/-- The group of the condition is what `MergeUntil` finds. -/
theorem group_base {b : Entry K} {ms rest : List (Entry K)}
    (h : Group cfg helper e (ms ++ b :: rest) outs) (hms : ∀ m ∈ ms, m.1.type = .merge)
    (hb : b.1.type = .value) (hstripe : stripe cfg b.1.sequence = stripe cfg e.1.sequence) :
    ∃ v, outs = [({ e.1 with type := .value }, v)] ∧
      helper.fullMergeV2 e.1.userKey (some b.2) (mergeOperands (groupOperands cfg e ms))
        = some v := by
  have hnot : b.1.type ≠ .merge := by
    rw [hb]
    exact nofun
  have hmem : b ∈ ms ++ b :: rest := mem_append_right ms (.head _)
  -- the operands are those before the first other entry
  have hfirst : ∀ {ms : List (Entry K)} {b : Entry K} {r : List (Entry K)},
      (∀ m ∈ ms, m.1.type = .merge) → b.1.type ≠ .merge →
      (ms ++ b :: r).takeWhile (fun n => decide (n.1.type = .merge)) = ms ∧
      (ms ++ b :: r).dropWhile (fun n => decide (n.1.type = .merge)) = b :: r := by
    intro ms b r hms hb
    have hneg : ¬ decide (b.1.type = .merge) = true := by
      rw [decide_eq_true_eq]
      exact hb
    have hpos : ∀ m ∈ ms, decide (m.1.type = .merge) = true := fun m hm => decide_eq_true (hms m hm)
    have htake : (b :: r).takeWhile (fun n => decide (n.1.type = .merge)) = [] :=
      takeWhile_cons_of_neg hneg
    have hdrop : (b :: r).dropWhile (fun n => decide (n.1.type = .merge)) = b :: r :=
      dropWhile_cons_of_neg hneg
    rw [takeWhile_append_of_pos hpos, dropWhile_append_of_pos hpos, htake, hdrop, append_nil]
    exact ⟨rfl, rfl⟩
  cases h with
  | base ms' b' r' v hes hms' hb' htype' hv =>
    obtain ⟨htake, hdrop⟩ := hfirst (r := rest) hms hnot
    rw [hes] at htake hdrop
    obtain ⟨htake', hdrop'⟩ := hfirst (r := r') (fun m hm => (hms' m hm).1) htype'
    obtain rfl := htake'.symm.trans htake
    obtain ⟨rfl, -⟩ := List.cons.inj (hdrop'.symm.trans hdrop)
    rw [baseValue, if_pos hb] at hv
    exact ⟨v, rfl, hv⟩
  | root v _ hall hv => exact absurd (hall b hmem).1 hnot
  | operands ms' r' outs hes hms' hr houts =>
  rw [hes] at hmem
  rcases mem_append.mp hmem with hmem | hmem
  · exact absurd (hms' b hmem).1 hnot
  · exact absurd hstripe (hr b hmem)

theorem live_stripe (q : Nat) : Live cfg (stripe cfg q) :=
  CutPoints.ceil_mem cfg.snapshots maxSequenceNumber q

/-- The reader at the end of a stripe sees what a covered base was used for. -/
theorem respected_of_reads {k : K} {more : Bool} (hsnap : LiveSnapshots cfg.snapshots)
    (htomb : ∀ t ∈ cfg.tombstones, t.seq ≤ maxSequenceNumber) (hop : Consistent helper)
    (hhelper : cfg.mergeHelper = some helper) {newer ms rest : List (Entry K)} {b : Entry K}
    (hsplit : g = newer ++ e :: (ms ++ b :: rest))
    (hg : KeyEntries cfg k (newer ++ e :: (ms ++ b :: rest)))
    (hnewer : ∀ n ∈ newer, stripe cfg n.1.sequence ≠ stripe cfg e.1.sequence)
    (htype : e.1.type = .merge) (hdel : cfg.shouldDelete e.1 = false)
    (hms : ∀ m ∈ ms, m.1.type = .merge ∧ stripe cfg m.1.sequence = stripe cfg e.1.sequence)
    (hvalue : b.1.type = .value) (hb : stripe cfg b.1.sequence = stripe cfg e.1.sequence)
    (hbdel : cfg.shouldDelete b.1 = true) (h : readFrom (covered (keptTombstones cfg) (stripe cfg
      e.1.sequence)) helper k [] (keyOut cfg more 0 (visibleOf (stripe cfg e.1.sequence) k g)) =
      readFrom (covered cfg.tombstones (stripe cfg e.1.sequence)) helper k [] (visibleOf (stripe cfg
      e.1.sequence) k g)) :
    helper.fullMergeV2 e.1.userKey (some b.2) (mergeOperands (groupOperands cfg e ms))
      = helper.fullMergeV2 e.1.userKey none (mergeOperands (groupOperands cfg e ms)) := by
  have hes : KeyEntries cfg k (e :: (ms ++ b :: rest)) := hg.suffix
  have hq := (hes.sequence e (.head _)).1
  have hkey := hes.key e (.head _)
  have hs : Live cfg (stripe cfg e.1.sequence) := live_stripe e.1.sequence
  have hle : e.1.sequence ≤ stripe cfg e.1.sequence := CutPoints.le_ceil hq
  have hvisible : visibleOf (stripe cfg e.1.sequence) k g = e :: (ms ++ b :: rest) := by
    have hnone : visibleOf (stripe cfg e.1.sequence) k newer = [] := by
      refine filter_eq_nil_iff.mpr fun n hn => ?_
      have hmem : n ∈ newer ++ e :: (ms ++ b :: rest) := mem_append_left _ hn
      have hmono := stripe_mono hsnap (hg.sequence n hmem).1
        ((pairwise_append.mp hg.sorted).2.2 n hn e (.head _))
      rw [decide_eq_true_eq, sequence_le_iff hsnap (hg.sequence n hmem).1 hs]
      exact fun hsee => hnewer n hn (Nat.le_antisymm hsee.2 hmono)
    have hall := visibleOf_eq_self hes hle
    rw [hsplit]
    exact (filter_append _ _).trans (by rw [← visibleOf, hnone, nil_append, ← visibleOf, hall])
  have hcov : covered cfg.tombstones (stripe cfg e.1.sequence) e.1 = false := by
    by_contra hcov
    obtain ⟨t, ht, hstart, hfin, hseq, hts⟩ := covered_iff.mp (Bool.not_eq_false _ ▸ hcov)
    rw [sequence_le_iff hsnap (htomb t ht) hs] at hts
    have hmono := stripe_mono hsnap (htomb t ht) hseq.le
    rw [shouldDelete_iff.mpr ⟨t, ht, hstart, hfin, hseq, Nat.le_antisymm hts hmono⟩] at hdel
    cases hdel
  have hecov := not_covered_kept hcov
  have hzero : (0 : Nat) ≠ stripe cfg e.1.sequence :=
    Nat.ne_of_lt (stripe_pos (hes.sequence e (.head _)))
  obtain ⟨outs, hout, hgroup⟩ := mergeOut_group more hsnap hop.total hes htype hdel
  obtain ⟨v, rfl, hv⟩ := group_base hgroup (fun m hm => (hms m hm).1) hvalue hb
  rw [hvisible, keyOut_merge hzero htype hhelper hout, if_neg (cons_ne_nil _ _),
    map_singleton, singleton_append, readFrom_delivered hecov,
    readFrom_base hsnap htomb hs ⟨hes, hle, htype, hcov, hms⟩ hb
      (by rw [hvalue]; exact fun h => by cases h),
    hbdel, if_pos rfl] at h
  rw [hv, hkey]
  exact h

/-- **MERGES UNDER TOMBSTONES**: a `DBIter` reads the same from the output and the kept
    tombstones as from the input, at the tip and at every live snapshot, exactly when no full
    merge of the compaction depends on a value that a tombstone covers. -/
theorem reads_preserved_iff {cfg : Config K} {helper : MergeHelper K}
    (hhelper : cfg.mergeHelper = some helper) (hop : Consistent helper)
    (hsnap : LiveSnapshots cfg.snapshots)
    (htomb : ∀ t ∈ cfg.tombstones, t.seq ≤ maxSequenceNumber) {input : List (Entry K)}
    (hsorted : input.Pairwise (fun a b => a.1.rank ≤ b.1.rank))
    (hseq : ∀ e ∈ input, Proper cfg.snapshots e.1.sequence) (hplain : ∀ e ∈ input, Plain e)
    {maxSkip : Nat}
    (hends : ∀ k, input.countP (fun e => decide (e.1 = ⟨k, 0, .deletion⟩)) ≤ maxSkip) :
    (output cfg input).2 = .ok ∧
    ((∀ k s, Live cfg s →
      read ⟨s, maxSkip, keptTombstones cfg, some helper⟩ (output cfg input).1 k
        = read ⟨s, maxSkip, cfg.tombstones, some helper⟩ input k) ↔
      BaseRespected cfg helper input) := by
  have hinput := plain_input hop.total hhelper hsorted hseq hplain
  obtain ⟨hok, hfilter⟩ := filter_output hsnap hinput
  obtain ⟨hsorted', hends', hplain'⟩ :=
    output_readable hsnap hop.total hhelper hsorted hseq hplain hends
  refine ⟨hok, ?_⟩
  -- both reads, in terms of the entries of the key
  have hreads : ∀ k s, Live cfg s →
      (read ⟨s, maxSkip, keptTombstones cfg, some helper⟩ (output cfg input).1 k
        = read ⟨s, maxSkip, cfg.tombstones, some helper⟩ input k ↔
      readFrom (covered (keptTombstones cfg) s) helper k []
          (keyOut cfg (input.any (fun n => decide (k < n.1.userKey))) 0
            (visibleOf s k (input.filter (fun n => decide (n.1.userKey = k)))))
        = readFrom (covered cfg.tombstones s) helper k []
          (visibleOf s k (input.filter (fun n => decide (n.1.userKey = k))))) := by
    intro k s hs
    rw [read_mk hsorted' hends' hplain', read_mk hsorted hends hplain, Option.some.injEq,
      ← visible_keyOut _ hsnap hop.total hhelper hs _ (keyEntries_filter hinput k)
        (fun e he => hplain e (mem_of_mem_filter he)), ← hfilter, visibleOf_filter,
      visibleOf_filter]
  constructor
  · intro h k newer e ms b rest hg hnewer htype hdel hms hbvalue hb hbdel
    exact respected_of_reads hsnap htomb hop hhelper hg (hg ▸ keyEntries_filter hinput k) hnewer
      htype hdel hms hbvalue hb hbdel
      ((hreads k _ (live_stripe e.1.sequence)).mp (h k _ (live_stripe e.1.sequence)))
  intro hresp k s hs
  rw [hreads k s hs]
  have hg := keyEntries_filter hinput k
  obtain ⟨front, hsplit, hfront⟩ := split_visible hg s
  have hsee : ∀ n ∈ visibleOf s k (input.filter (fun n => decide (n.1.userKey = k))),
      n ∈ input ∧ n.1.sequence ≤ s := fun n hn =>
    ⟨mem_of_mem_filter (visibleOf_mem hn).1, (visibleOf_mem hn).2.2⟩
  refine readFrom_keyOut hsnap htomb hs hop hhelper _ (KeyEntries.suffix (hsplit ▸ hg))
    (fun e he => hplain e (hsee e he).1) (fun e he => (hsee e he).2) ?_ []
  refine Respected.suffix (hsplit ▸ hresp k) fun n hn m hm heq => ?_
  have hnmem : n ∈ input.filter (fun n => decide (n.1.userKey = k)) :=
    hsplit ▸ mem_append_left _ hn
  -- the reader sees whole stripes
  have hmle := (sequence_le_iff hsnap (hseq m (hsee m hm).1).1 hs).mp (hsee m hm).2
  rw [← heq, ← sequence_le_iff hsnap (hg.sequence n hnmem).1 hs] at hmle
  exact absurd hmle (Nat.not_le_of_lt (hfront n hn))

/-- An operator that appends. -/
def appendHelper {K : Type} : MergeHelper K where
  fullMergeV2 _ base ops := some (base.getD [] ++ ops.flatten)
  partialMergeMulti _ ops := some ops.flatten

theorem appendHelper_consistent {K : Type} : Consistent (@appendHelper K) where
  total _ _ _ := rfl
  stepwise k base xs ys v _ _ hv := by
    cases hv
    show some (base.getD [] ++ (xs ++ ys).flatten) = some (base.getD [] ++ xs.flatten ++ ys.flatten)
    rw [flatten_append, append_assoc]
  combined k xs v _ hv base older newer := by
    cases hv
    show some (base.getD [] ++ (older ++ xs ++ newer).flatten)
      = some (base.getD [] ++ (older ++ xs.flatten :: newer).flatten)
    rw [flatten_append, flatten_append, flatten_append, flatten_cons, append_assoc]

/-- A compaction to level 1 with nothing below. -/
def exampleCompaction : Compaction Nat where
  bottommostLevel := false
  outputLevel := 1
  style := .level
  deeper := []
  largestUserKey := 9

/-- An operand above a value; `ts` may hold a tombstone between them. -/
def mergeExample (ts : List (Tombstone Nat)) : Config Nat where
  snapshots := []
  compaction := some exampleCompaction
  tombstones := ts
  mergeHelper := some appendHelper

def mergeInput : List (Entry Nat) := [(⟨1, 3, .merge⟩, [98]), (⟨1, 1, .value⟩, [97])]

/-- The value 97 was deleted by the tombstone, and is back after the compaction. -/
theorem covered_base_comes_back :
    read ⟨maxSequenceNumber, 8, [⟨0, 5, 2⟩], some appendHelper⟩ mergeInput 1 = some (some [98]) ∧
    read ⟨maxSequenceNumber, 8, keptTombstones (mergeExample [⟨0, 5, 2⟩]), some appendHelper⟩
      (output (mergeExample [⟨0, 5, 2⟩]) mergeInput).1 1 = some (some [97, 98]) := by
  decide

/-- With a snapshot between the tombstone and the operand the value is dropped in its own
    stripe, and the operand stays alone. -/
theorem reads_preserved_behind_snapshot :
    read ⟨maxSequenceNumber, 8, keptTombstones { mergeExample [⟨0, 5, 2⟩] with snapshots := [2] },
        some appendHelper⟩
        (output { mergeExample [⟨0, 5, 2⟩] with snapshots := [2] } mergeInput).1 1
      = read ⟨maxSequenceNumber, 8, [⟨0, 5, 2⟩], some appendHelper⟩ mergeInput 1 := by
  refine (@reads_preserved_iff Nat _ { mergeExample [⟨0, 5, 2⟩] with snapshots := [2] } appendHelper
    rfl appendHelper_consistent ⟨by decide, by decide⟩ (by decide) mergeInput (by decide)
    (by decide) (by decide) 8 (fun k => by simp [mergeInput])).2.mpr ?_ 1 maxSequenceNumber
    (.inr rfl)
  intro k newer e ms b rest hg _ htype _ _ hbvalue hb
  -- operand and value are in different stripes
  have hmem : ∀ n ∈ newer ++ e :: (ms ++ b :: rest), n ∈ mergeInput := fun n hn =>
    mem_of_mem_filter (hg ▸ hn)
  have he : e = (⟨1, 3, .merge⟩, [98]) := by
    rcases mem_pair.mp (hmem e (mem_append_right _ (.head _))) with h | h
    · exact h
    · rw [h] at htype
      cases htype
  have hbase : b = (⟨1, 1, .value⟩, [97]) := by
    rcases mem_pair.mp (hmem b (mem_append_right _ (.tail e (mem_append_right _ (.head _)))))
      with h | h
    · rw [h] at hbvalue
      cases hbvalue
    · exact h
  rw [he, hbase] at hb
  exact absurd hb (by decide)

end CompactionMerge
