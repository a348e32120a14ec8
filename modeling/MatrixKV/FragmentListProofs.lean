import MatrixKV.RangeFragmentsProofs

/-! # The fragmented tombstone list — any input, also for compaction

    `FragmentedRangeTombstoneList` sorts its tombstones when they are not, sweeps, and
    for a compaction keeps of each fragment one sequence number per snapshot stripe.

    * `fragments_disjoint` — forward tombstones give fragments that follow each other.
    * `keepForSnapshots_find` — what is dropped no snapshot can see.
    * **`fragmentList_spec`** — order and meaning for every list of forward tombstones. -/

namespace FragmentList

open List DbFormat TableGet RangeFragments

variable {K : Type} [LinearOrder K]

/-! ## The list -/

/-- The order of the tombstones' internal keys. -/
def KeyOrder (a b : Tombstone K) : Prop := a.start < b.start ∨ a.start = b.start ∧ b.seq ≤ a.seq

instance : DecidableRel (KeyOrder (K := K)) := fun _ _ => inferInstanceAs (Decidable (_ ∨ _))

instance : Std.Total (KeyOrder (K := K)) where
  total a b := by
    rcases lt_trichotomy a.start b.start with hlt | heq | hgt
    · exact .inl (.inl hlt)
    · rcases Nat.le_total b.seq a.seq with hle | hle
      · exact .inl (.inr ⟨heq, hle⟩)
      · exact .inr (.inr ⟨heq.symm, hle⟩)
    · exact .inr (.inl hgt)

instance : IsTrans (Tombstone K) KeyOrder where
  trans a b c := by
    rintro (hab | ⟨hab, hseq⟩) (hbc | ⟨hbc, hseq'⟩)
    · exact .inl (hab.trans hbc)
    · exact .inl (hbc ▸ hab)
    · exact .inl (hab ▸ hbc)
    · exact .inr ⟨hab.trans hbc, hseq'.trans hseq⟩

/-- The sequence numbers a compaction keeps of a fragment: from the newest on, the first
    that the next snapshot sees. -/
def keepForSnapshots (snapshots : List Nat) : Nat → List Nat → List Nat
  | _, [] => []
  | nextSnapshot, seq :: seqs =>
    if seq ≤ nextSnapshot then
      -- the element before `lower_bound`
      match (snapshots.takeWhile (· < seq)).getLast? with
      | none => [seq]
      | some snapshot => seq :: keepForSnapshots snapshots snapshot seqs
    else keepForSnapshots snapshots nextSnapshot seqs

/-- What `tombstone_seqs_` gets of a fragment. -/
def flushedSeqs (forCompaction : Bool) (snapshots seqs : List Nat) : List Nat :=
  if forCompaction then keepForSnapshots snapshots maxSequenceNumber seqs else seqs

/-- The constructor of `FragmentedRangeTombstoneList`. -/
def fragmentedRangeTombstoneList (ts : List (Tombstone K)) (forCompaction : Bool)
    (snapshots : List Nat) : List (Fragment K) :=
  (fragmentTombstones (if ts.IsChain KeyOrder then ts else ts.insertionSort KeyOrder)).map
    (fun f => { f with seqs := flushedSeqs forCompaction snapshots f.seqs })

/-! ## The order of the fragments -/

/-- The fragments of a flush follow each other from the start key on. -/
theorem flush_disjoint {next : K} (ends : List (EndKey K)) (cur : K) (hcur : cur < next)
    (hle : ∀ e ∈ ends, cur ≤ e.1) (hends : Ascending ends) :
    (flushCurrentTombstones next cur ends).1.Pairwise (fun f g => f.fin ≤ g.start) ∧
      ∀ f ∈ (flushCurrentTombstones next cur ends).1, cur ≤ f.start ∧ f.start < f.fin := by
  fun_induction flushCurrentTombstones next cur ends with
  | case1 cur => exact ⟨.nil, forall_mem_nil _⟩
  | case2 it rest ih => exact ih hcur (fun e he => hle e (.tail it he)) (pairwise_cons.mp hends).2
  | case3 cur it rest =>
    refine ⟨pairwise_singleton _ _, fun f hf => ?_⟩
    rw [mem_singleton.mp hf]
    exact ⟨le_rfl, hcur⟩
  | case4 cur it rest hskip hnext r ih =>
    obtain ⟨hit, hrest⟩ := pairwise_cons.mp hends
    have hcurit := lt_of_le_of_ne (hle it (.head _)) hskip
    obtain ⟨hpairs, hall⟩ := ih (lt_of_not_ge hnext) hit hrest
    refine ⟨pairwise_cons.mpr ⟨fun f hf => (hall f hf).1, hpairs⟩, fun f hf => ?_⟩
    rcases mem_cons.mp hf with rfl | hf
    · exact ⟨le_rfl, hcurit⟩
    · exact ⟨hcurit.le.trans (hall f hf).1, (hall f hf).2⟩

/-- **DISJOINT FRAGMENTS**: forward tombstones leave fragments in order, none empty. -/
theorem fragments_disjoint {ts : List (Tombstone K)}
    (hsorted : ts.Pairwise (fun a b => a.start ≤ b.start))
    (hforward : ∀ t ∈ ts, t.start < t.fin) :
    (fragmentTombstones ts).Pairwise (fun f g => f.fin ≤ g.start) ∧
    ∀ f ∈ fragmentTombstones ts, f.start < f.fin := by
  obtain ⟨rs, heq, hof, hrs, -⟩ := exists_runs hsorted
  have hrun : ∀ r ∈ rs, r.out.Pairwise (fun f g => f.fin ≤ g.start) ∧
      ∀ f ∈ r.out, r.start ≤ f.start ∧ f.start < f.fin := by
    intro r hr
    obtain ⟨t, ht, hstart⟩ := (hof r hr).start_mem
    have hmem := (hof r hr).mem ht (.inl hstart)
    refine flush_disjoint r.ends r.start ?_ ?_ (hof r hr).ascending
    · exact (hof r hr).lt_next r.start (.inl ⟨_, hmem, hstart ▸ hforward t ht⟩) fun _ _ h => h
    intro e he
    obtain ⟨t', ht', hwork, rfl⟩ := ((hof r hr).mem_ends e).mp he
    rcases hwork with h | h
    · exact h ▸ (hforward t' ht').le
    · exact h.2
  rw [heq]
  refine ⟨pairwise_flatMap.mpr ⟨fun r hr => (hrun r hr).1, ?_⟩, fun f hf => ?_⟩
  · refine hrs.imp_of_mem fun {r r'} hr hr' hlt f hf g hg => ?_
    exact ((hof r hr).fin_le (hof r' hr') hlt f hf).trans ((hrun r' hr').2 g hg).1
  · obtain ⟨r, hr, hf⟩ := mem_flatMap.mp hf
    exact ((hrun r hr).2 f hf).2

/-! ## What a compaction drops -/

/-- The snapshot before a later sequence number is not below any other one before it. -/
theorem le_of_getLast_takeWhile {snapshots : List Nat} (hsorted : snapshots.Pairwise (· ≤ ·))
    {s seq : Nat} (hs : s ∈ snapshots) (hlt : s < seq) :
    ∃ snapshot, (snapshots.takeWhile (· < seq)).getLast? = some snapshot ∧ s ≤ snapshot := by
  have hmem : s ∈ snapshots.takeWhile (· < seq) := by
    induction snapshots with
    | nil => exact nomatch hs
    | cons x xs ih =>
    obtain ⟨hx, hxs⟩ := pairwise_cons.mp hsorted
    have hxlt : x < seq := by
      rcases mem_cons.mp hs with rfl | hs
      · exact hlt
      · exact (hx s hs).trans_lt hlt
    rw [takeWhile_cons_of_pos (by rw [decide_eq_true_eq]; exact hxlt)]
    rcases mem_cons.mp hs with rfl | hs
    · exact .head _
    · exact .tail _ (ih hxs hs)
  have hpairs := hsorted.sublist (takeWhile_sublist (· < seq))
  obtain ⟨front, last, hl⟩ := eq_nil_or_concat _ |>.resolve_left (ne_nil_of_mem hmem)
  rw [hl, concat_eq_append] at hmem hpairs ⊢
  refine ⟨last, getLast?_concat, ?_⟩
  rcases mem_append.mp hmem with hmem | hmem
  · exact (pairwise_append.mp hpairs).2.2 s hmem last (mem_singleton.mpr rfl)
  · exact (mem_singleton.mp hmem).le

/-- What a snapshot sees first is kept: until then every kept number lies above it. -/
theorem keepForSnapshots_find {snapshots : List Nat} (hsorted : snapshots.Pairwise (· ≤ ·))
    {s : Nat} (seqs : List Nat) (nextSnapshot) (hle : s ≤ nextSnapshot)
    (hs : s ∈ snapshots ∨ nextSnapshot ≤ s) :
    (keepForSnapshots snapshots nextSnapshot seqs).find? (fun q => decide (q ≤ s)) = seqs.find?
      (fun q => decide (q ≤ s)) := by
  induction seqs generalizing nextSnapshot with
  | nil => exact rfl
  | cons q seqs ih =>
  rw [keepForSnapshots]
  by_cases hq : q ≤ s
  · have hfound : ∀ l : List Nat, (q :: l).find? (fun q => decide (q ≤ s)) = some q :=
      fun l => find?_cons_of_pos (decide_eq_true hq)
    rw [if_pos (hq.trans hle), hfound]
    cases (snapshots.takeWhile (· < q)).getLast? with
    | none => exact hfound _
    | some snapshot => exact hfound _
  have hskip : ∀ l : List Nat, (q :: l).find? (fun q => decide (q ≤ s))
      = l.find? (fun q => decide (q ≤ s)) :=
    fun l => find?_cons_of_neg (fun h => hq (of_decide_eq_true h))
  rw [hskip]
  by_cases hvisible : q ≤ nextSnapshot
  · -- a number above the snapshot is kept, and the next snapshot is not below it
    have hmem := hs.resolve_right (fun h => hq (hvisible.trans h))
    obtain ⟨snapshot, hlast, hsle⟩ := le_of_getLast_takeWhile hsorted hmem (lt_of_not_ge hq)
    rw [if_pos hvisible, hlast]
    exact (hskip _).trans (ih snapshot hsle (.inl hmem))
  · rw [if_neg hvisible]
    exact ih nextSnapshot hle hs

/-- A reader asks a fragment for one number only. -/
theorem maxCovering_map (fs : List (Fragment K)) (g : List Nat → List Nat) (k : K) (upper : Nat)
    (h : ∀ seqs, (g seqs).find? (fun s => decide (s ≤ upper))
      = seqs.find? (fun s => decide (s ≤ upper))) :
    maxCovering (fs.map (fun f => { f with seqs := g f.seqs })) k upper = maxCovering fs k
      upper := by
  have hpart : Partitioned k (fs.map (fun f => { f with seqs := g f.seqs })) ↔ Partitioned k fs :=
    pairwise_map
  have hfind : (fs.map (fun f => { f with seqs := g f.seqs })).find? (fun f => decide (k < f.fin))
      = (fs.find? (fun f => decide (k < f.fin))).map (fun f => { f with seqs := g f.seqs }) :=
    find?_map ..
  rw [maxCovering, maxCovering, upperBound, upperBound, hfind]
  by_cases hfs : Partitioned k fs
  · rw [if_pos hfs, if_pos (hpart.mpr hfs)]
    cases fs.find? (fun f => decide (k < f.fin)) with
    | none => rfl
    | some f => simp only [Option.map_some, h]
  · rw [if_neg hfs, if_neg (fun h => hfs (hpart.mp h))]

/-- **THE FRAGMENTS KEEP THE MEANING**: for forward tombstones in any order they are sorted
    and disjoint, and tell the newest tombstone over a key at every sequence number, for a
    compaction at every snapshot and at the maximum. -/
theorem fragmentList_spec (ts : List (Tombstone K)) (hforward : ∀ t ∈ ts, t.start < t.fin)
    (forCompaction : Bool) (snapshots : List Nat) (hsnapshots : snapshots.Pairwise (· ≤ ·))
    (hmax : ∀ s ∈ snapshots, s ≤ maxSequenceNumber) :
    let fs := fragmentedRangeTombstoneList ts forCompaction snapshots
    fs.Pairwise (fun f g => f.fin ≤ g.start) ∧ (∀ f ∈ fs, f.start < f.fin) ∧
    ∀ k s, (forCompaction = true → s ∈ snapshots ∨ s = maxSequenceNumber) →
      maxCovering fs k s = some (maxCoveringTombstoneSeqnum ts k s) := by
  rw [fragmentedRangeTombstoneList]
  obtain ⟨us, hus, hperm, hsorted⟩ : ∃ us,
      (if ts.IsChain KeyOrder then ts else ts.insertionSort KeyOrder) = us ∧ us.Perm ts ∧
        us.Pairwise KeyOrder := by
    by_cases hchain : ts.IsChain KeyOrder
    · exact ⟨ts, if_pos hchain, List.Perm.refl _, isChain_iff_pairwise.mp hchain⟩
    · exact ⟨_, if_neg hchain, perm_insertionSort _ _, pairwise_insertionSort _ _⟩
  have hstarts : us.Pairwise (fun a b => a.start ≤ b.start) :=
    hsorted.imp (fun h => h.elim le_of_lt (fun h => le_of_eq h.1))
  have husForward : ∀ t ∈ us, t.start < t.fin := fun t ht => hforward t (hperm.mem_iff.mp ht)
  obtain ⟨hpairs, hall⟩ := fragments_disjoint hstarts husForward
  rw [hus]
  refine ⟨pairwise_map.mpr hpairs, ?_, fun k s hs => ?_⟩
  · intro f hf
    obtain ⟨f', hf', rfl⟩ := mem_map.mp hf
    exact hall f' hf'
  have hseen : ∀ seqs, (flushedSeqs forCompaction snapshots seqs).find? (fun q => decide (q ≤ s))
      = seqs.find? (fun q => decide (q ≤ s)) := by
    intro seqs
    cases forCompaction with
    | false => rfl
    | true =>
    refine keepForSnapshots_find hsnapshots seqs maxSequenceNumber ?_
      ((hs rfl).imp_right (fun h => h.symm.le))
    exact (hs rfl).elim (hmax s) le_of_eq
  rw [maxCovering_map _ _ k s hseen, maxCovering_eq hstarts
    (fun t ht => le_of_lt (husForward t ht))]
  refine congrArg some (eq_of_forall_lt_iff fun q => ?_)
  rw [maxCoveringTombstoneSeqnum, maxCoveringTombstoneSeqnum, lt_foldl_max_iff, lt_foldl_max_iff]
  simp only [mem_map, mem_filter, hperm.mem_iff]

/-- Two overlapping tombstones in the wrong order, compacted with the snapshot 5. -/
theorem fragmentList_overlapping :
    let ts : List (Tombstone Nat) := [⟨3, 8, 7⟩, ⟨1, 5, 4⟩]
    let fs := fragmentedRangeTombstoneList ts true [5]
    fs.Pairwise (fun f g => f.fin ≤ g.start) ∧ (∃ f ∈ fs, f.start < f.fin) ∧
    maxCovering fs 4 5 = some (maxCoveringTombstoneSeqnum ts 4 5) := by
  obtain ⟨hpairs, hall, hmax⟩ := fragmentList_spec [(⟨3, 8, 7⟩ : Tombstone Nat), ⟨1, 5, 4⟩]
    (by decide) true [5] (by decide) (by decide)
  exact ⟨hpairs, ⟨_, .head _, hall _ (.head _)⟩, hmax 4 5 (fun _ => by decide)⟩

end FragmentList
