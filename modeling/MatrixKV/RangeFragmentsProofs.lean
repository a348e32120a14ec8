import MatrixKV.TableGetProofs

/-! # Fragmented range tombstones

    `FragmentedRangeTombstoneList` cuts the range tombstones of a memtable into
    fragments that do not overlap, in one sweep over their start keys; a reader then
    finds the fragment of a key by binary search over the end keys.  Nothing in the
    sweep asks whether a tombstone ends after it starts.

    * `flushCurrentTombstones`, `fragmentLoop` — the sweep.
    * `Run` — what the sweep emits between one start key and the next.
    * `flush_find` — what a reader finds in a run.
    * **`maxCovering_spec`** — which keys a tombstone covers.
    * **`searchable_iff`** — when the fragments are in the order the search needs. -/

namespace RangeFragments

open List DbFormat TableGet

variable {K : Type} [LinearOrder K]

/-! ## The sweep -/

/-- An end key of the working set with its sequence number. -/
abbrev EndKey (K : Type) := K × Nat

/-- `RangeTombstoneStack` with the sequence numbers it points to. -/
structure Fragment (K : Type) where
  start : K
  fin : K
  seqs : List Nat
  deriving DecidableEq, Repr

/-- The order of `cur_end_keys`: end keys ascending, newest first. -/
def EndKey.before (a b : EndKey K) : Prop := a.1 < b.1 ∨ a.1 = b.1 ∧ b.2 < a.2

instance (a b : EndKey K) : Decidable (EndKey.before a b) :=
  inferInstanceAs (Decidable (_ ∨ _))

/-- `cur_end_keys.emplace` -/
def emplace (e : EndKey K) : List (EndKey K) → List (EndKey K)
  | [] => [e]
  | d :: ds =>
    if e = d then d :: ds
    else if EndKey.before e d then e :: d :: ds
    else d :: emplace e ds

def seqnumsToFlush (ends : List (EndKey K)) : List Nat :=
  (ends.map Prod.snd).insertionSort (· ≥ ·)

/-- `flush_current_tombstones`: the fragments and the end keys that are kept. -/
def flushCurrentTombstones (next : K) : K → List (EndKey K) → List (Fragment K) × List (EndKey K)
  | _, [] => ([], [])
  | cur, it :: rest =>
    if cur = it.1 then flushCurrentTombstones next cur rest
    else if next ≤ it.1 then ([⟨cur, next, seqnumsToFlush (it :: rest)⟩], it :: rest)
    else
      let r := flushCurrentTombstones next it.1 rest
      (⟨cur, it.1, seqnumsToFlush (it :: rest)⟩ :: r.1, r.2)

/-- The loop of `FragmentTombstones`, for reads. -/
def fragmentLoop (cur : K) (ends : List (EndKey K)) : List (Tombstone K) → List (Fragment K)
  | [] =>
    match ends.getLast? with
    | none => []
    | some last => (flushCurrentTombstones last.1 cur ends).1
  | t :: ts =>
    if ends ≠ [] ∧ cur ≠ t.start then
      let r := flushCurrentTombstones t.start cur ends
      r.1 ++ fragmentLoop t.start (emplace (t.fin, t.seq) r.2) ts
    else fragmentLoop t.start (emplace (t.fin, t.seq) ends) ts

def fragmentTombstones : List (Tombstone K) → List (Fragment K)
  | [] => []
  | t :: ts => fragmentLoop t.start [] (t :: ts)

/-! ## The search -/

/-- The fragments that end after the key come last. -/
def Partitioned (k : K) (fs : List (Fragment K)) : Prop :=
  fs.Pairwise (fun f g => k < f.fin → k < g.fin)

instance (k : K) (fs : List (Fragment K)) : Decidable (Partitioned k fs) :=
  inferInstanceAs (Decidable (fs.Pairwise _))

/-- `std::upper_bound` by end key: the first fragment that ends after the key.  Its
    behaviour is undefined when the fragments are not partitioned. -/
def upperBound (k : K) (fs : List (Fragment K)) : Option (Option (Fragment K)) :=
  if Partitioned k fs then some (fs.find? (fun f => decide (k < f.fin))) else none

/-- `MaxCoveringTombstoneSeqnum`, none when it is undefined. -/
def maxCovering (fs : List (Fragment K)) (k : K) (upper : Nat) : Option Nat :=
  match upperBound k fs with
  | none => none
  | some none => some 0
  | some (some f) =>
    match f.seqs.find? (fun s => decide (s ≤ upper)) with
    | none => some 0
    | some s => some (if f.start ≤ k then s else 0)

/-! ## The working set -/

/-- The end keys in the order of the set. -/
def Ascending (ends : List (EndKey K)) : Prop := ends.Pairwise (fun a b => a.1 ≤ b.1)

variable {ends : List (EndKey K)}

theorem mem_emplace {e d : EndKey K} : d ∈ emplace e ends ↔ d = e ∨ d ∈ ends := by
  induction ends with
  | nil => simp [emplace]
  | cons x xs ih =>
  rw [emplace]
  split
  · rename_i h
    rw [h]
    simp
  split
  · simp
  · simp only [mem_cons, ih]
    tauto

theorem ascending_emplace {e : EndKey K} (h : Ascending ends) : Ascending (emplace e ends) := by
  induction ends with
  | nil => exact pairwise_singleton _ _
  | cons x xs ih =>
  obtain ⟨hx, hxs⟩ := pairwise_cons.mp h
  rw [emplace]
  split
  · exact h
  split
  · rename_i hbefore
    have hle : e.1 ≤ x.1 := by
      rcases hbefore with hlt | ⟨heq, -⟩
      · exact hlt.le
      · exact heq.le
    refine pairwise_cons.mpr ⟨fun d hd => ?_, h⟩
    rcases mem_cons.mp hd with rfl | hd
    · exact hle
    · exact hle.trans (hx d hd)
  · rename_i hne hbefore
    refine pairwise_cons.mpr ⟨fun d hd => ?_, ih hxs⟩
    rcases mem_emplace.mp hd with rfl | hd
    · exact le_of_not_gt fun hlt => hbefore (.inl hlt)
    · exact hx d hd

omit [LinearOrder K] in
theorem mem_seqnumsToFlush {s : Nat} : s ∈ seqnumsToFlush ends ↔ ∃ e ∈ ends, e.2 = s := by
  rw [seqnumsToFlush, mem_insertionSort, mem_map]

omit [LinearOrder K] in
theorem seqnumsToFlush_sorted (ends : List (EndKey K)) : (seqnumsToFlush ends).Pairwise (· ≥ ·) :=
  pairwise_insertionSort _ _

/-! ## One flush -/

section Flush

variable {next cur : K} {it : EndKey K} {rest ends : List (EndKey K)}

/-- A flush keeps the end keys from the next start key on. -/
theorem flush_kept (hends : Ascending ends) (cur : K) (hcur : cur < next) :
    (flushCurrentTombstones next cur ends).2 = ends.filter (fun e => decide (next ≤ e.1)) := by
  fun_induction flushCurrentTombstones next cur ends with
  | case1 cur => rfl
  | case2 it rest ih =>
    rw [ih (pairwise_cons.mp hends).2 hcur,
      filter_cons_of_neg (by rw [decide_eq_true_eq]; exact not_le_of_gt hcur)]
  | case3 cur it rest _ hnext =>
    refine (filter_eq_self.mpr fun e he => decide_eq_true ?_).symm
    rcases mem_cons.mp he with rfl | he
    · exact hnext
    · exact hnext.trans ((pairwise_cons.mp hends).1 e he)
  | case4 cur it rest _ hnext r ih =>
    rw [ih (pairwise_cons.mp hends).2 (lt_of_not_ge hnext),
      filter_cons_of_neg (by rw [decide_eq_true_eq]; exact hnext)]

/-- A fragment ends at an end key or at the next start key. -/
theorem flush_fin (ends : List (EndKey K)) (cur : K) :
    ∀ f ∈ (flushCurrentTombstones next cur ends).1,
      f.fin ≤ next ∧ (f.fin = next ∨ ∃ e ∈ ends, e.1 = f.fin) ∧ ∃ e ∈ ends, f.fin ≤ e.1 := by
  have hcons : ∀ {f : Fragment K} {rest} (it : EndKey K), (f.fin ≤ next ∧
      (f.fin = next ∨ ∃ e ∈ rest, e.1 = f.fin) ∧ ∃ e ∈ rest, f.fin ≤ e.1) → f.fin ≤ next ∧
      (f.fin = next ∨ ∃ e ∈ it :: rest, e.1 = f.fin) ∧ ∃ e ∈ it :: rest, f.fin ≤ e.1 := by
    rintro f rest it ⟨hle, hfin, e, he, hfe⟩
    exact ⟨hle, hfin.imp_right fun ⟨d, hd, heq⟩ => ⟨d, .tail it hd, heq⟩, e, .tail it he, hfe⟩
  fun_induction flushCurrentTombstones next cur ends with
  | case1 cur => exact nofun
  | case2 it rest ih => exact fun f hf => hcons it (ih f hf)
  | case3 cur it rest _ hnext =>
    intro f hf
    rw [mem_singleton.mp hf]
    exact ⟨le_rfl, .inl rfl, it, .head _, hnext⟩
  | case4 cur it rest _ hnext r ih =>
    intro f hf
    rcases mem_cons.mp hf with rfl | hf
    · exact ⟨(lt_of_not_ge hnext).le, .inr ⟨it, .head _, rfl⟩, it, .head _, le_refl _⟩
    · exact hcons it (ih f hf)

/-- Where no end key lies below the start key, fragments end after it. -/
theorem flush_fin_gt (ends : List (EndKey K)) (cur : K) (hcur : cur < next)
    (hle : ∀ e ∈ ends, cur ≤ e.1) (hends : Ascending ends) :
    ∀ f ∈ (flushCurrentTombstones next cur ends).1, cur < f.fin := by
  fun_induction flushCurrentTombstones next cur ends with
  | case1 cur => exact nofun
  | case2 it rest ih => exact ih hcur (fun e he => hle e (.tail it he)) (pairwise_cons.mp hends).2
  | case3 cur it rest =>
    intro f hf
    rw [mem_singleton.mp hf]
    exact hcur
  | case4 cur it rest hskip hnext r ih =>
    obtain ⟨hit, hrest⟩ := pairwise_cons.mp hends
    have hcurit := lt_of_le_of_ne (hle it (.head _)) hskip
    intro f hf
    rcases mem_cons.mp hf with rfl | hf
    · exact hcurit
    · exact hcurit.trans (ih (lt_of_not_ge hnext) hit hrest f hf)

/-- The fragments of a flush end one after the other. -/
theorem flush_sorted (ends : List (EndKey K)) (cur : K) (hends : Ascending ends) :
    (flushCurrentTombstones next cur ends).1.Pairwise (fun f g => f.fin < g.fin) := by
  fun_induction flushCurrentTombstones next cur ends with
  | case1 cur => exact .nil
  | case2 it rest ih => exact ih (pairwise_cons.mp hends).2
  | case3 cur it rest => exact pairwise_singleton _ _
  | case4 cur it rest hskip hnext r ih =>
    obtain ⟨hit, hrest⟩ := pairwise_cons.mp hends
    exact pairwise_cons.mpr ⟨flush_fin_gt rest it.1 (lt_of_not_ge hnext) hit hrest, ih hrest⟩

/-- A flush reaches beyond a key when some end key does, unless it is the start key itself
    and nothing ends below it. -/
theorem flush_reaches {k : K} (hk : k < next) (ends : List (EndKey K)) (cur : K)
    (hends : Ascending ends)
    (h : ∃ e ∈ ends, k < e.1 ∧ (e.1 ≠ cur ∨ ∃ d ∈ ends, d.1 < cur)) :
    ∃ f ∈ (flushCurrentTombstones next cur ends).1, k < f.fin := by
  fun_induction flushCurrentTombstones next cur ends with
  | case1 cur =>
    obtain ⟨e, he, -⟩ := h
    exact nomatch he
  | case2 it rest ih =>
    obtain ⟨e, he, hke, hor⟩ := h
    obtain ⟨hit, hrest⟩ := pairwise_cons.mp hends
    have hlow : ∀ d ∈ it :: rest, ¬ d.1 < it.1 := by
      intro d hd hlt
      rcases mem_cons.mp hd with rfl | hd
      · exact lt_irrefl _ hlt
      · exact absurd (hit d hd) (not_le_of_gt hlt)
    have hne : e.1 ≠ it.1 := hor.resolve_right fun ⟨d, hd, hlt⟩ => hlow d hd hlt
    rcases mem_cons.mp he with rfl | he
    · exact absurd rfl hne
    · exact ih hrest ⟨e, he, hke, .inl hne⟩
  | case3 cur it rest => exact ⟨_, mem_singleton.mpr rfl, hk⟩
  | case4 cur it rest _ _ r ih =>
    obtain ⟨e, he, hke, -⟩ := h
    by_cases hkit : k < it.1
    · exact ⟨_, .head _, hkit⟩
    rcases mem_cons.mp he with rfl | he
    · exact absurd hke hkit
    have hne : e.1 ≠ it.1 := fun heq => hkit (heq ▸ hke)
    obtain ⟨f, hf, hkf⟩ := ih (pairwise_cons.mp hends).2 ⟨e, he, hke, .inl hne⟩
    exact ⟨f, .tail _ hf, hkf⟩

/-- **WHAT A READER FINDS IN A FLUSH**: from the start key or the least end key on, a fragment
    with the sequence numbers of the end keys after the key. -/
theorem flush_find {k : K} (hk : k < next) (ends : List (EndKey K)) (cur : K)
    (hends : Ascending ends) (hlow : cur ≤ k ∨ ∃ e ∈ ends, e.1 ≤ k) (hhigh : ∃ e ∈ ends, k < e.1) :
    ∃ f, (flushCurrentTombstones next cur ends).1.find? (fun f => decide (k < f.fin)) = some f ∧
      f.start ≤ k ∧ f.seqs.Pairwise (· ≥ ·) ∧
      ∀ s, s ∈ f.seqs ↔ ∃ e ∈ ends, k < e.1 ∧ e.2 = s := by
  -- below the first end key every tombstone of the set is there
  have hfirst : ∀ {cur it rest}, Ascending (it :: rest) → (cur ≤ k ∨ ∃ e ∈ it :: rest, e.1 ≤ k) →
      k < it.1 → cur ≤ k ∧ ∀ s, s ∈ seqnumsToFlush (it :: rest) ↔
        ∃ e ∈ it :: rest, k < e.1 ∧ e.2 = s := by
    intro cur it rest hends hlow hkit
    have hall : ∀ e ∈ it :: rest, k < e.1 := by
      intro e he
      rcases mem_cons.mp he with rfl | he
      · exact hkit
      · exact hkit.trans_le ((pairwise_cons.mp hends).1 e he)
    refine ⟨hlow.resolve_right fun ⟨e, he, hle⟩ => absurd hle (not_le_of_gt (hall e he)),
      fun s => ?_⟩
    rw [mem_seqnumsToFlush]
    exact ⟨fun ⟨e, he, hs⟩ => ⟨e, he, hall e he, hs⟩, fun ⟨e, he, _, hs⟩ => ⟨e, he, hs⟩⟩
  -- behind it the first tombstone is not
  have hdrop : ∀ {it : EndKey K} {rest}, ¬ k < it.1 → ∀ {P : EndKey K → Prop},
      (∃ e ∈ it :: rest, k < e.1 ∧ P e) ↔ ∃ e ∈ rest, k < e.1 ∧ P e := by
    intro it rest hkit P
    constructor
    · rintro ⟨e, he, hke, hP⟩
      rcases mem_cons.mp he with rfl | he
      · exact absurd hke hkit
      · exact ⟨e, he, hke, hP⟩
    · rintro ⟨e, he, hke, hP⟩
      exact ⟨e, .tail it he, hke, hP⟩
  have hrestHigh : ∀ {it : EndKey K} {rest}, ¬ k < it.1 → (∃ e ∈ it :: rest, k < e.1) →
      ∃ e ∈ rest, k < e.1 := by
    rintro it rest hkit ⟨e, he, hke⟩
    rcases mem_cons.mp he with rfl | he
    · exact absurd hke hkit
    · exact ⟨e, he, hke⟩
  fun_induction flushCurrentTombstones next cur ends with
  | case1 cur =>
    obtain ⟨e, he, -⟩ := hhigh
    exact nomatch he
  | case2 it rest ih =>
    have hkit : ¬ k < it.1 := fun hkit => absurd (hfirst hends hlow hkit).1 (not_le_of_gt hkit)
    obtain ⟨f, hfind, hstart, hdesc, hseqs⟩ := ih (pairwise_cons.mp hends).2
      (.inl (le_of_not_gt hkit)) (hrestHigh hkit hhigh)
    exact ⟨f, hfind, hstart, hdesc, fun s => (hseqs s).trans (hdrop hkit).symm⟩
  | case3 cur it rest _ hnext =>
    obtain ⟨hstart, hseqs⟩ := hfirst hends hlow (hk.trans_le hnext)
    exact ⟨_, find?_cons_of_pos (decide_eq_true hk), hstart, seqnumsToFlush_sorted _, hseqs⟩
  | case4 cur it rest _ _ r ih =>
    by_cases hkit : k < it.1
    · obtain ⟨hstart, hseqs⟩ := hfirst hends hlow hkit
      exact ⟨_, find?_cons_of_pos (decide_eq_true hkit), hstart, seqnumsToFlush_sorted _, hseqs⟩
    obtain ⟨f, hfind, hstart, hdesc, hseqs⟩ := ih (pairwise_cons.mp hends).2
      (.inl (le_of_not_gt hkit)) (hrestHigh hkit hhigh)
    refine ⟨f, ?_, hstart, hdesc, fun s => (hseqs s).trans (hdrop hkit).symm⟩
    rw [find?_cons_of_neg (by rw [decide_eq_true_eq]; exact hkit)]
    exact hfind

/-- Before them a reader finds nothing that has started. -/
theorem flush_find_below {k : K} (ends : List (EndKey K)) (cur : K) (hcur : k < cur)
    (hall : ∀ e ∈ ends, k < e.1) :
    ∀ f ∈ (flushCurrentTombstones next cur ends).1, k < f.start := by
  fun_induction flushCurrentTombstones next cur ends with
  | case1 cur => exact nofun
  | case2 it rest ih => exact ih hcur fun e he => hall e (.tail it he)
  | case3 cur it rest =>
    intro f hf
    rw [mem_singleton.mp hf]
    exact hcur
  | case4 cur it rest _ _ r ih =>
    intro f hf
    rcases mem_cons.mp hf with rfl | hf
    · exact hcur
    · exact ih (hall it (.head _)) (fun e he => hall e (.tail it he)) f hf

/-- An end key below the start key gives a fragment that ends there or before. -/
theorem flush_fin_le {k : K} (hends : Ascending ends) (hcur : k < cur) (h : ∃ e ∈ ends, e.1 ≤ k) :
    ∃ f ∈ (flushCurrentTombstones next cur ends).1, f.fin ≤ k := by
  obtain ⟨e, he, hek⟩ := h
  cases ends with
  | nil => exact nomatch he
  | cons it rest =>
  have hit : it.1 ≤ k := by
    rcases mem_cons.mp he with rfl | he
    · exact hek
    · exact ((pairwise_cons.mp hends).1 e he).trans hek
  rw [flushCurrentTombstones, if_neg (ne_of_gt (hit.trans_lt hcur))]
  split
  · exact ⟨_, mem_singleton.mpr rfl, ‹next ≤ it.1›.trans hit⟩
  · exact ⟨_, .head _, hit⟩

end Flush

/-! ## The runs of the sweep -/

/-- What one flush works on. -/
structure Run (K : Type) where
  start : K
  ends : List (EndKey K)
  next : K

/-- The fragments of a run. -/
def Run.out (r : Run K) : List (Fragment K) := (flushCurrentTombstones r.next r.start r.ends).1

/-- The runs of the loop. -/
def runs (cur : K) (ends : List (EndKey K)) : List (Tombstone K) → List (Run K)
  | [] =>
    match ends.getLast? with
    | none => []
    | some last => [⟨cur, ends, last.1⟩]
  | t :: ts =>
    if ends ≠ [] ∧ cur ≠ t.start then
      ⟨cur, ends, t.start⟩ ::
        runs t.start (emplace (t.fin, t.seq) (flushCurrentTombstones t.start cur ends).2) ts
    else runs t.start (emplace (t.fin, t.seq) ends) ts

/-- The loop emits its runs one after the other. -/
theorem fragmentLoop_eq (ts : List (Tombstone K)) (cur) (ends) :
    fragmentLoop cur ends ts = (runs cur ends ts).flatMap Run.out := by
  induction ts generalizing cur ends with
  | nil =>
    rw [fragmentLoop, runs]
    cases ends.getLast? with
    | none => rfl
    | some last => exact (append_nil _).symm
  | cons t ts ih =>
  rw [fragmentLoop, runs]
  by_cases h : ends ≠ [] ∧ cur ≠ t.start
  · rw [if_pos h, if_pos h, flatMap_cons, ← ih]
    rfl
  · rw [if_neg h, if_neg h, ih]

/-- The tombstone is in the working set of the sweep at the start key `s`. -/
def InWork (s : K) (t : Tombstone K) : Prop := t.start = s ∨ t.start < s ∧ s ≤ t.fin

instance (s : K) (t : Tombstone K) : Decidable (InWork s t) :=
  inferInstanceAs (Decidable (_ ∨ _))

variable {t : Tombstone K}

theorem InWork.start_le {s : K} (h : InWork s t) : t.start ≤ s := by
  rcases h with h | ⟨h, -⟩
  · exact h.le
  · exact h.le

/-- Of the working set only what starts there can end before. -/
theorem InWork.start_eq {s : K} (h : InWork s t) (hfin : t.fin < s) : t.start = s :=
  h.resolve_right fun hlate => absurd hlate.2 (not_le_of_gt hfin)

/-- A run of the sweep over the tombstones `ts`. -/
structure RunOf (ts : List (Tombstone K)) (r : Run K) : Prop where
  start_mem : ∃ t ∈ ts, t.start = r.start
  ascending : Ascending r.ends
  mem_ends : ∀ e, e ∈ r.ends ↔ ∃ t ∈ ts, InWork r.start t ∧ (t.fin, t.seq) = e
  next_le : ∀ t ∈ ts, r.start < t.start → r.next ≤ t.start
  lt_next : ∀ k, ((∃ e ∈ r.ends, k < e.1) ∨ ∃ t ∈ ts, r.start < t.start) →
    (∀ t ∈ ts, r.start < t.start → k < t.start) → k < r.next

/-- The loop between two tombstones: `done` are behind it. -/
structure Sweep (done : List (Tombstone K)) (cur : K) (ends : List (EndKey K))
    (ts : List (Tombstone K)) : Prop where
  done_le : ∀ t ∈ done, t.start ≤ cur
  le_todo : ∀ t ∈ ts, cur ≤ t.start
  sorted : ts.Pairwise (fun a b => a.start ≤ b.start)
  ascending : Ascending ends
  mem_ends : ∀ e, e ∈ ends ↔ ∃ t ∈ done, InWork cur t ∧ (t.fin, t.seq) = e
  cur_mem : ends ≠ [] → ∃ t ∈ done, t.start = cur
  empty : ends = [] → done = []

section Step

variable {done ts : List (Tombstone K)} {cur : K} {ends : List (EndKey K)} {t : Tombstone K}

/-- The loop takes in a tombstone, with the working set brought to its start key. -/
theorem Sweep.emplace {kept : List (EndKey K)} (h : Sweep done cur ends (t :: ts))
    (hkept : Ascending kept)
    (hmem : ∀ e, e ∈ kept ↔ ∃ t' ∈ done, InWork t.start t' ∧ (t'.fin, t'.seq) = e) :
    Sweep (done ++ [t]) t.start (emplace (t.fin, t.seq) kept) ts := by
  obtain ⟨hle, hsorted⟩ := pairwise_cons.mp h.sorted
  have hself : t ∈ done ++ [t] := mem_append_right _ (mem_singleton.mpr rfl)
  have hne : RangeFragments.emplace (t.fin, t.seq) kept ≠ [] :=
    ne_nil_of_mem (mem_emplace.mpr (.inl rfl))
  refine ⟨fun t' ht' => ?_, hle, hsorted, ascending_emplace hkept, fun e => ?_,
    fun _ => ⟨t, hself, rfl⟩, fun hnil => absurd hnil hne⟩
  · rcases mem_append.mp ht' with ht' | ht'
    · exact (h.done_le t' ht').trans (h.le_todo t (.head _))
    · exact (congrArg Tombstone.start (mem_singleton.mp ht')).le
  · rw [mem_emplace, hmem]
    constructor
    · rintro (rfl | ⟨t', ht', hwork⟩)
      · exact ⟨t, hself, .inl rfl, rfl⟩
      · exact ⟨t', mem_append_left _ ht', hwork⟩
    rintro ⟨t', ht', hwork, heq⟩
    rcases mem_append.mp ht' with ht' | ht'
    · exact .inr ⟨t', ht', hwork, heq⟩
    · rw [mem_singleton.mp ht'] at heq
      exact .inl heq.symm

/-- A tombstone that starts at the current start key, or the first one. -/
theorem Sweep.add (h : Sweep done cur ends (t :: ts)) (hcur : ends = [] ∨ cur = t.start) :
    Sweep (done ++ [t]) t.start (RangeFragments.emplace (t.fin, t.seq) ends) ts := by
  refine h.emplace h.ascending fun e => ?_
  rcases hcur with hnil | hcur
  · rw [hnil, h.empty hnil]
    exact ⟨nofun, fun ⟨_, ht, _⟩ => (nomatch ht)⟩
  · rw [← hcur]
    exact h.mem_ends e

/-- Another start key: what is in work is flushed up to it. -/
theorem Sweep.flush (h : Sweep done cur ends (t :: ts)) (hne : ends ≠ []) (hcur : cur ≠ t.start) :
    RunOf (done ++ t :: ts) ⟨cur, ends, t.start⟩ ∧
    Sweep (done ++ [t]) t.start
      (RangeFragments.emplace (t.fin, t.seq) (flushCurrentTombstones t.start cur ends).2) ts := by
  have hlt := lt_of_le_of_ne (h.le_todo t (.head _)) hcur
  have htodo : ∀ t' ∈ t :: ts, t.start ≤ t'.start := by
    intro t' ht'
    rcases mem_cons.mp ht' with rfl | ht'
    · exact le_rfl
    · exact (pairwise_cons.mp h.sorted).1 t' ht'
  obtain ⟨t₀, ht₀, hstart⟩ := h.cur_mem hne
  refine ⟨⟨⟨t₀, mem_append_left _ ht₀, hstart⟩, h.ascending, fun e => ?_, ?_, ?_⟩, ?_⟩
  · -- what comes later does not start in time
    rw [h.mem_ends]
    constructor
    · rintro ⟨t', ht', hwork⟩
      exact ⟨t', mem_append_left _ ht', hwork⟩
    · rintro ⟨t', ht', hwork, heq⟩
      rcases mem_append.mp ht' with ht' | ht'
      · exact ⟨t', ht', hwork, heq⟩
      · exact absurd (hlt.trans_le (htodo t' ht')) (not_lt_of_ge hwork.start_le)
  · intro t' ht' hlate
    rcases mem_append.mp ht' with ht' | ht'
    · exact absurd (h.done_le t' ht') (not_le_of_gt hlate)
    · exact htodo t' ht'
  · intro k _ hk
    exact hk t (mem_append_right _ (.head _)) hlt
  · rw [flush_kept h.ascending cur hlt]
    refine h.emplace (h.ascending.filter _) fun e => ?_
    rw [mem_filter, decide_eq_true_eq, h.mem_ends]
    constructor
    · rintro ⟨⟨t', ht', -, rfl⟩, hle⟩
      exact ⟨t', ht', .inr ⟨(h.done_le t' ht').trans_lt hlt, hle⟩, rfl⟩
    rintro ⟨t', ht', hwork, rfl⟩
    have hle := h.done_le t' ht'
    have hfin : t.start ≤ t'.fin :=
      (hwork.resolve_left fun heq => absurd hlt (not_lt_of_ge (heq ▸ hle))).2
    refine ⟨⟨t', ht', ?_, rfl⟩, hfin⟩
    rcases eq_or_lt_of_le hle with heq | hlt'
    · exact .inl heq
    · exact .inr ⟨hlt', hlt.le.trans hfin⟩

/-- The last run of the loop. -/
theorem Sweep.last (h : Sweep done cur ends []) {last : EndKey K}
    (hlast : ends.getLast? = some last) : RunOf done ⟨cur, ends, last.1⟩ := by
  have hne : ends ≠ [] := by
    rintro rfl
    exact nomatch hlast
  refine ⟨h.cur_mem hne, h.ascending, h.mem_ends, fun t ht hlt => ?_, fun k hk _ => ?_⟩
  · exact absurd (h.done_le t ht) (not_le_of_gt hlt)
  obtain ⟨e, he, hke⟩ := hk.resolve_right fun ⟨t, ht, hlt⟩ =>
    absurd (h.done_le t ht) (not_le_of_gt hlt)
  obtain ⟨front, rfl⟩ := getLast?_eq_some_iff.mp hlast
  rcases mem_append.mp he with hfront | hself
  · exact lt_of_lt_of_le hke
      ((pairwise_append.mp h.ascending).2.2 e hfront last (mem_singleton.mpr rfl))
  · rw [mem_singleton.mp hself] at hke
    exact hke

end Step

/-- **THE RUNS OF THE SWEEP**, one for each start key, in order. -/
theorem runs_spec (ts : List (Tombstone K)) (done) (cur) (ends) (h : Sweep done cur ends ts) :
    (∀ r ∈ runs cur ends ts, RunOf (done ++ ts) r ∧ cur ≤ r.start) ∧ (runs cur ends ts).Pairwise
      (fun r r' => r.start < r'.start) ∧ (∀ t ∈ ts, ∃ r ∈ runs cur ends ts, r.start = t.start) ∧
      (ends ≠ [] → ∃ r ∈ runs cur ends ts, r.start = cur) := by
  induction ts generalizing done cur ends with
  | nil =>
    rw [runs, append_nil]
    cases hlast : ends.getLast? with
    | none =>
      refine ⟨forall_mem_nil _, .nil, forall_mem_nil _, fun hne => ?_⟩
      exact absurd (getLast?_eq_none_iff.mp hlast) hne
    | some last =>
    refine ⟨fun r hr => ?_, pairwise_singleton _ _, forall_mem_nil _,
      fun _ => ⟨_, mem_singleton.mpr rfl, rfl⟩⟩
    rw [mem_singleton.mp hr]
    exact ⟨h.last hlast, le_rfl⟩
  | cons t ts ih =>
  have happend : done ++ t :: ts = done ++ [t] ++ ts := append_cons done t ts
  have hne : ∀ kept, emplace (t.fin, t.seq) kept ≠ [] := fun kept =>
    ne_nil_of_mem (mem_emplace.mpr (.inl rfl))
  have hcur := h.le_todo t (.head _)
  rw [runs]
  by_cases hflush : ends ≠ [] ∧ cur ≠ t.start
  · obtain ⟨hrun, hsweep⟩ := h.flush hflush.1 hflush.2
    obtain ⟨hof, hsorted, hall, hself⟩ := ih _ _ _ hsweep
    have hlt := lt_of_le_of_ne hcur hflush.2
    rw [if_pos hflush]
    refine ⟨fun r hr => ?_, pairwise_cons.mpr ⟨fun r hr => ?_, hsorted⟩, fun t' ht' => ?_,
      fun _ => ⟨_, .head _, rfl⟩⟩
    · rcases mem_cons.mp hr with rfl | hr
      · exact ⟨hrun, le_rfl⟩
      · rw [happend]
        exact ⟨(hof r hr).1, hcur.trans (hof r hr).2⟩
    · exact hlt.trans_le (hof r hr).2
    · rcases mem_cons.mp ht' with rfl | ht'
      · obtain ⟨r, hr, heq⟩ := hself (hne _)
        exact ⟨r, .tail _ hr, heq⟩
      · obtain ⟨r, hr, heq⟩ := hall t' ht'
        exact ⟨r, .tail _ hr, heq⟩
  · have hsame : ends = [] ∨ cur = t.start := by
      rcases not_and_or.mp hflush with hnil | heq
      · exact .inl (not_not.mp hnil)
      · exact .inr (not_not.mp heq)
    obtain ⟨hof, hsorted, hall, hself⟩ := ih _ _ _ (h.add hsame)
    rw [if_neg hflush]
    refine ⟨fun r hr => ?_, hsorted, fun t' ht' => ?_, fun hends => ?_⟩
    · rw [happend]
      exact ⟨(hof r hr).1, hcur.trans (hof r hr).2⟩
    · rcases mem_cons.mp ht' with rfl | ht'
      · exact hself (hne _)
      · exact hall t' ht'
    · rw [hsame.resolve_left hends]
      exact hself (hne _)

/-- The fragments of a sorted list of tombstones are those of runs, one for each start key. -/
theorem exists_runs {ts : List (Tombstone K)}
    (hsorted : ts.Pairwise (fun a b => a.start ≤ b.start)) :
    ∃ rs : List (Run K), fragmentTombstones ts = rs.flatMap Run.out ∧
      (∀ r ∈ rs, RunOf ts r) ∧ rs.Pairwise (fun r r' => r.start < r'.start) ∧
      ∀ t ∈ ts, ∃ r ∈ rs, r.start = t.start := by
  cases ts with
  | nil => exact ⟨[], rfl, forall_mem_nil _, .nil, forall_mem_nil _⟩
  | cons t ts =>
  have hle := (pairwise_cons.mp hsorted).1
  have hstart : Sweep [] t.start [] (t :: ts) := by
    refine ⟨forall_mem_nil _, fun t' ht' => ?_, hsorted, .nil, fun e => ?_,
      fun h => absurd rfl h, fun _ => rfl⟩
    · rcases mem_cons.mp ht' with rfl | ht'
      · exact le_rfl
      · exact hle t' ht'
    · exact ⟨nofun, fun ⟨_, ht, _⟩ => (nomatch ht)⟩
  obtain ⟨hof, hpairs, hall, -⟩ := runs_spec (t :: ts) [] t.start [] hstart
  exact ⟨_, fragmentLoop_eq (t :: ts) t.start [], fun r hr => (hof r hr).1, hpairs, hall⟩

/-! ## The order of the fragments -/

/-- No reversed tombstone ends below what was swept before it started.  An empty tombstone
    leaves nothing behind, unless it shares its start key with a reversed one. -/
def Searchable (ts : List (Tombstone K)) : Prop :=
  ∀ r ∈ ts, r.fin < r.start → ∀ t ∈ ts, t.start < r.start → r.fin < t.fin →
    t.fin = t.start ∧ ∀ t' ∈ ts, t'.start = t.start → t.start ≤ t'.fin

instance (ts : List (Tombstone K)) : Decidable (Searchable ts) :=
  inferInstanceAs (Decidable (∀ r ∈ ts, _))

section Order

variable {ts : List (Tombstone K)} {r r' : Run K} {k : K}

/-- Fewer tombstones are no harder to search. -/
theorem Searchable.of_subset {us : List (Tombstone K)} (h : Searchable us)
    (hsub : ∀ t ∈ ts, t ∈ us) : Searchable ts := by
  intro r hr hrev t ht hstart hfin
  obtain ⟨hempty, hnone⟩ := h r (hsub r hr) hrev t (hsub t ht) hstart hfin
  exact ⟨hempty, fun t' ht' => hnone t' (hsub t' ht')⟩

/-- The end of a tombstone in work. -/
theorem RunOf.mem (h : RunOf ts r) (ht : t ∈ ts) (hwork : InWork r.start t) :
    (t.fin, t.seq) ∈ r.ends :=
  (h.mem_ends _).mpr ⟨t, ht, hwork, rfl⟩

/-- A tombstone whose end is found below the start key is reversed. -/
theorem RunOf.reversed (h : RunOf ts r) (hk : k < r.start) (hlow : ∃ e ∈ r.ends, e.1 ≤ k) :
    ∃ t ∈ ts, t.start = r.start ∧ t.fin ≤ k := by
  obtain ⟨e, he, hek⟩ := hlow
  obtain ⟨t, ht, hwork, rfl⟩ := (h.mem_ends e).mp he
  exact ⟨t, ht, hwork.start_eq (hek.trans_lt hk), hek⟩

/-- A run ends before the later start keys. -/
theorem RunOf.fin_le (h : RunOf ts r) (h' : RunOf ts r') (hlt : r.start < r'.start) :
    ∀ f ∈ r.out, f.fin ≤ r'.start := by
  intro f hf
  obtain ⟨t, ht, heq⟩ := h'.start_mem
  exact le_trans (flush_fin r.ends r.start f hf).1 (heq ▸ h.next_le t ht (heq ▸ hlt))

/-- In a searchable list no later run ends below an earlier one. -/
theorem Searchable.runs (hsearch : Searchable ts) (h : RunOf ts r) (h' : RunOf ts r')
    (hlt : r.start < r'.start) : ∀ f ∈ r.out, ∀ g ∈ r'.out, k < f.fin → k < g.fin := by
  intro f hf g hg hkf
  by_contra hkg
  have hgk := le_of_not_gt hkg
  -- such a fragment ends at the end of a reversed tombstone
  have hkstart : k < r'.start := hkf.trans_le (h.fin_le h' hlt f hf)
  have hlow : ∃ e ∈ r'.ends, e.1 ≤ k := by
    obtain ⟨-, hfin, d, hd, -⟩ := flush_fin r'.ends r'.start g hg
    rcases hfin with hfin | ⟨e, he, heq⟩
    · by_contra hno
      have hkd : k < d.1 := lt_of_not_ge fun hle => hno ⟨d, hd, hle⟩
      have hknext := h'.lt_next k (.inl ⟨d, hd, hkd⟩) fun t _ hlate => hkstart.trans hlate
      exact absurd hgk (not_le_of_gt (hfin ▸ hknext))
    · exact ⟨e, he, heq ▸ hgk⟩
  obtain ⟨t', ht', hstart', hfin'⟩ := h'.reversed hkstart hlow
  -- and the earlier fragment at that of a tombstone that is empty
  obtain ⟨-, -, e, he, hfe⟩ := flush_fin r.ends r.start f hf
  obtain ⟨t, ht, hwork, rfl⟩ := (h.mem_ends e).mp he
  have hrev : t'.fin < t'.start := by
    rw [hstart']
    exact hfin'.trans_lt hkstart
  obtain ⟨hempty, hnone⟩ := hsearch t' ht' hrev t ht
    (by rw [hstart']; exact hwork.start_le.trans_lt hlt)
    (hfin'.trans_lt (hkf.trans_le hfe))
  have hstart : t.start = r.start :=
    hwork.resolve_right fun hlate => absurd hlate.2 (not_le_of_gt (hempty ▸ hlate.1))
  have hlow' : ∀ e ∈ r.ends, r.start ≤ e.1 := by
    intro e he
    by_contra hlt'
    obtain ⟨t₁, ht₁, hwork₁, rfl⟩ := (h.mem_ends e).mp he
    have hlt₁ := lt_of_not_ge hlt'
    have hle := hnone t₁ ht₁ ((hwork₁.start_eq hlt₁).trans hstart.symm)
    exact absurd hlt₁ (not_lt_of_ge (hstart ▸ hle))
  obtain ⟨t₂, ht₂, hstart₂⟩ := h'.start_mem
  have hnext : r.start < r.next :=
    h.lt_next r.start (.inr ⟨t₂, ht₂, hstart₂ ▸ hlt⟩) fun _ _ hlate => hlate
  have hgt := flush_fin_gt r.ends r.start hnext hlow' h.ascending f hf
  exact absurd hgt (not_lt_of_ge (hfe.trans (hempty.trans hstart).le))

/-- The run of the last start key that is not after a key. -/
theorem exists_run_at {rs : List (Run K)} (hall : ∀ t ∈ ts, ∃ r ∈ rs, r.start = t.start)
    (ht : t ∈ ts) (htk : t.start ≤ k) :
    ∃ r ∈ rs, r.start ≤ k ∧ t.start ≤ r.start ∧ ∀ t' ∈ ts, r.start < t'.start → k < t'.start := by
  have hne : ((ts.map Tombstone.start).toFinset.filter (fun s => s ≤ k)).Nonempty :=
    ⟨t.start, Finset.mem_filter.mpr
      ⟨mem_toFinset.mpr (mem_map_of_mem ht), htk⟩⟩
  obtain ⟨s, hs, hmax⟩ := Finset.exists_max_image _ id hne
  obtain ⟨hmem, hsk⟩ := Finset.mem_filter.mp hs
  obtain ⟨t₁, ht₁, rfl⟩ := mem_map.mp (mem_toFinset.mp hmem)
  obtain ⟨r, hr, heq⟩ := hall t₁ ht₁
  have hle : ∀ t' ∈ ts, t'.start ≤ k → t'.start ≤ r.start := fun t' ht' hk =>
    heq ▸ hmax t'.start (Finset.mem_filter.mpr
      ⟨mem_toFinset.mpr (mem_map_of_mem ht'), hk⟩)
  refine ⟨r, hr, heq ▸ hsk, hle t ht htk, fun t' ht' hlt => ?_⟩
  exact lt_of_not_ge fun hk => absurd (hle t' ht' hk) (not_le_of_gt hlt)

/-- A tombstone that ends after a key is in work in the run at the key. -/
theorem inWork_at (hstart : t.start ≤ r.start) (hr : r.start ≤ k) (hkt : k < t.fin) :
    InWork r.start t := by
  rcases eq_or_lt_of_le hstart with heq | hlt
  · exact .inl heq
  · exact .inr ⟨hlt, (hr.trans_lt hkt).le⟩

/-- A tombstone that ends after a key reaches beyond it in a run, one that starts before `s`
    when key and tombstone do. -/
theorem exists_reaching {rs : List (Run K)} (hof : ∀ r ∈ rs, RunOf ts r)
    (hall : ∀ t ∈ ts, ∃ r ∈ rs, r.start = t.start) {s : K} (hks : k < s) (ht : t ∈ ts)
    (hts : t.start < s) (hkt : k < t.fin)
    (hnot : ¬ (t.fin = t.start ∧ ∀ t' ∈ ts, t'.start = t.start → t.start ≤ t'.fin)) :
    ∃ r ∈ rs, r.start < s ∧ ∃ f ∈ r.out, k < f.fin := by
  by_cases htk : t.start ≤ k
  · obtain ⟨r, hr, hrk, htr, hlate⟩ := exists_run_at hall ht htk
    have hmem := (hof r hr).mem ht (inWork_at htr hrk hkt)
    refine ⟨r, hr, hrk.trans_lt hks, ?_⟩
    refine flush_reaches ((hof r hr).lt_next k (.inl ⟨_, hmem, hkt⟩) hlate) r.ends r.start
      (hof r hr).ascending ⟨_, hmem, hkt, .inl ?_⟩
    exact ne_of_gt (hrk.trans_lt hkt)
  obtain ⟨r, hr, heq⟩ := hall t ht
  have hkr : k < r.start := heq ▸ lt_of_not_ge htk
  have hmem := (hof r hr).mem ht (.inl heq.symm)
  refine ⟨r, hr, heq ▸ hts, ?_⟩
  refine flush_reaches ((hof r hr).lt_next k (.inl ⟨_, hmem, hkt⟩) fun _ _ hlate =>
    hkr.trans hlate) r.ends r.start (hof r hr).ascending ⟨_, hmem, hkt, ?_⟩
  by_cases hempty : t.fin = t.start
  · -- the start key itself, behind a reversed tombstone
    obtain ⟨t', hnot'⟩ := not_forall.mp (not_and.mp hnot hempty)
    obtain ⟨ht', hnot'⟩ := Classical.not_imp.mp hnot'
    obtain ⟨heq', hlt'⟩ := Classical.not_imp.mp hnot'
    refine .inr ⟨_, (hof r hr).mem ht' (.inl (heq'.trans heq.symm)), ?_⟩
    rw [heq]
    exact lt_of_not_ge hlt'
  · exact .inl (heq ▸ hempty)

/-- Two members of an ordered list in their order. -/
theorem rel_of_lt {rs : List (Run K)} {R : Run K → Run K → Prop}
    (hsorted : rs.Pairwise (fun a b => a.start < b.start)) (hR : rs.Pairwise R) (hr : r ∈ rs)
    (hr' : r' ∈ rs) (hlt : r.start < r'.start) : R r r' := by
  induction rs with
  | nil => exact nomatch hr
  | cons a as ih =>
  obtain ⟨ha, has⟩ := pairwise_cons.mp hsorted
  obtain ⟨hRa, hRas⟩ := pairwise_cons.mp hR
  rcases mem_cons.mp hr with rfl | hmem
  · rcases mem_cons.mp hr' with rfl | hmem'
    · exact absurd hlt (lt_irrefl _)
    · exact hRa r' hmem'
  · rcases mem_cons.mp hr' with rfl | hmem'
    · exact absurd (ha r hmem) (not_lt_of_gt hlt)
    · exact ih has hRas hmem hmem'

/-- The fragments of one run are in order. -/
theorem RunOf.partitioned (h : RunOf ts r) : Partitioned k r.out :=
  (flush_sorted r.ends r.start h.ascending).imp fun hlt hk => hk.trans hlt

/-- **THE ORDER THE SEARCH NEEDS** is there for every key exactly when no reversed tombstone
    ends below what was swept before it. -/
theorem searchable_iff (hsorted : ts.Pairwise (fun a b => a.start ≤ b.start)) :
    (∀ k, Partitioned k (fragmentTombstones ts)) ↔ Searchable ts := by
  obtain ⟨rs, heq, hof, hrs, hall⟩ := exists_runs hsorted
  constructor
  · intro hpart t' ht' hrev t ht hstart hfin
    by_contra hnot
    obtain ⟨r, hr, hlt, f, hf, hkf⟩ := exists_reaching hof hall hrev ht hstart hfin hnot
    obtain ⟨r', hr', hstart'⟩ := hall t' ht'
    -- the run of the reversed tombstone has a fragment that ends at its end
    obtain ⟨g, hg, hgk⟩ := @flush_fin_le _ _ r'.next r'.start r'.ends t'.fin (hof r' hr').ascending
      (hstart' ▸ hrev) ⟨_, (hof r' hr').mem ht' (.inl hstart'.symm), le_rfl⟩
    have hpart := hpart t'.fin
    rw [heq, Partitioned, pairwise_flatMap] at hpart
    have hrel := rel_of_lt hrs hpart.2 hr hr' (hstart' ▸ hlt) f hf g hg hkf
    exact absurd hrel (not_lt_of_ge hgk)
  · intro hsearch k
    rw [heq, Partitioned, pairwise_flatMap]
    refine ⟨fun r hr => (hof r hr).partitioned, hrs.imp_of_mem fun hr hr' hlt => ?_⟩
    exact hsearch.runs (hof _ hr) (hof _ hr') hlt

end Order

/-! ## What covers a key -/

/-- As the fragments have it, the tombstone covers the key: the key is in its range, or a
    reversed tombstone has the key between its end and its start and the tombstone, in work
    at that start, ends after the key. -/
def Covers (ts : List (Tombstone K)) (t : Tombstone K) (k : K) : Prop :=
  t.start ≤ k ∧ k < t.fin ∨
    ∃ r ∈ ts, r.fin ≤ k ∧ k < r.start ∧ InWork r.start t ∧ k < t.fin

instance (ts : List (Tombstone K)) (t : Tombstone K) (k : K) : Decidable (Covers ts t k) :=
  inferInstanceAs (Decidable (_ ∨ ∃ r ∈ ts, _))

section Cover

variable {ts : List (Tombstone K)} {rs : List (Run K)} {r : Run K} {k : K}

theorem Covers.of_subset {us : List (Tombstone K)} (h : Covers ts t k) (hsub : ∀ t ∈ ts, t ∈ us) :
    Covers us t k :=
  h.imp_right fun ⟨r, hr, hrest⟩ => ⟨r, hsub r hr, hrest⟩

/-- The run has a fragment that covers the key. -/
structure Run.Covering (r : Run K) (k : K) : Prop where
  low : r.start ≤ k ∨ ∃ e ∈ r.ends, e.1 ≤ k
  high : ∃ e ∈ r.ends, k < e.1
  lt_next : k < r.next

/-- A tombstone that covers a key does so in a run. -/
theorem Covers.run (hof : ∀ r ∈ rs, RunOf ts r) (hall : ∀ t ∈ ts, ∃ r ∈ rs, r.start = t.start)
    (ht : t ∈ ts) (h : Covers ts t k) : ∃ r ∈ rs, Run.Covering r k ∧ (t.fin, t.seq) ∈ r.ends := by
  rcases h with ⟨hstart, hkt⟩ | ⟨t', ht', hlow, hhigh, hwork, hkt⟩
  · obtain ⟨r, hr, hrk, htr, hlate⟩ := exists_run_at hall ht hstart
    have hmem := (hof r hr).mem ht (inWork_at htr hrk hkt)
    exact ⟨r, hr, ⟨.inl hrk, ⟨_, hmem, hkt⟩, (hof r hr).lt_next k (.inl ⟨_, hmem, hkt⟩) hlate⟩,
      hmem⟩
  obtain ⟨r, hr, heq⟩ := hall t' ht'
  have hkr : k < r.start := heq ▸ hhigh
  have hmem := (hof r hr).mem ht (heq ▸ hwork)
  have hmem' := (hof r hr).mem ht' (.inl heq.symm)
  exact ⟨r, hr, ⟨.inr ⟨_, hmem', hlow⟩, ⟨_, hmem, hkt⟩,
    (hof r hr).lt_next k (.inl ⟨_, hmem, hkt⟩) fun _ _ hlate => hkr.trans hlate⟩, hmem⟩

/-- The tombstones of a covering run that end after the key cover it. -/
theorem Run.Covering.covers (h : RunOf ts r) (hcov : Run.Covering r k) {e : EndKey K}
    (he : e ∈ r.ends) (hke : k < e.1) : ∃ t ∈ ts, Covers ts t k ∧ t.seq = e.2 := by
  obtain ⟨t, ht, hwork, rfl⟩ := (h.mem_ends e).mp he
  refine ⟨t, ht, ?_, rfl⟩
  by_cases hrk : r.start ≤ k
  · exact .inl ⟨hwork.start_le.trans hrk, hke⟩
  have hlt := lt_of_not_ge hrk
  obtain ⟨t', ht', hstart, hfin⟩ := h.reversed hlt (hcov.low.resolve_left hrk)
  exact .inr ⟨t', ht', hfin, hstart ▸ hlt, hstart ▸ hwork, hke⟩

/-- **THE SEARCH** finds the fragment of the covering run. -/
theorem find_covering (hof : ∀ r ∈ rs, RunOf ts r)
    (hrs : rs.Pairwise (fun r r' => r.start < r'.start))
    (hpart : Partitioned k (rs.flatMap Run.out)) (hr : r ∈ rs) (hcov : Run.Covering r k) :
    ∃ f, (rs.flatMap Run.out).find? (fun f => decide (k < f.fin)) = some f ∧ f.start ≤ k ∧
      f.seqs.Pairwise (· ≥ ·) ∧ ∀ s, s ∈ f.seqs ↔ ∃ e ∈ r.ends, k < e.1 ∧ e.2 = s := by
  obtain ⟨f, hfind, hspec⟩ :=
    flush_find hcov.lt_next r.ends r.start (hof r hr).ascending hcov.low hcov.high
  refine ⟨f, ?_, hspec⟩
  obtain ⟨front, back, rfl⟩ := append_of_mem hr
  rw [find?_flatMap, findSome?_append, findSome?_cons]
  have hnone : front.findSome? (fun r => r.out.find? (fun f => decide (k < f.fin))) = none := by
    refine findSome?_eq_none_iff.mpr fun r₀ hr₀ => find?_eq_none.mpr fun g hg hkg => ?_
    have hkg := of_decide_eq_true hkg
    have hlt := (pairwise_append.mp hrs).2.2 r₀ hr₀ r (.head _)
    by_cases hrk : r.start ≤ k
    · have hle := (hof r₀ (mem_append_left _ hr₀)).fin_le (hof r hr) hlt g hg
      exact absurd (hle.trans hrk) (not_le_of_gt hkg)
    -- a fragment of the run ends before the key, so none before it ends after it
    obtain ⟨f', hf', hfk⟩ := @flush_fin_le _ _ r.next r.start r.ends k (hof r hr).ascending
      (lt_of_not_ge hrk) (hcov.low.resolve_left hrk)
    rw [Partitioned, pairwise_flatMap] at hpart
    have hrel := (pairwise_append.mp hpart.2).2.2 r₀ hr₀ r (.head _) g hg f' hf' hkg
    exact absurd hrel (not_lt_of_ge hfk)
  have hfind' : r.out.find? (fun f => decide (k < f.fin)) = some f := hfind
  rw [hnone, hfind']
  rfl

/-- Without a covering run it finds nothing that has started. -/
theorem find_not_covering (hno : ∀ r ∈ rs, ¬ Run.Covering r k)
    {f : Fragment K} (h : (rs.flatMap Run.out).find? (fun f => decide (k < f.fin)) = some f) :
    ¬ f.start ≤ k := by
  intro hstart
  have hkf : k < f.fin := by
    have hkf := find?_some h
    exact of_decide_eq_true hkf
  obtain ⟨r, hr, hf⟩ := mem_flatMap.mp (mem_of_find?_eq_some h)
  obtain ⟨hnext, -, e, he, hfe⟩ := flush_fin r.ends r.start f hf
  refine hno r hr ⟨?_, ⟨e, he, hkf.trans_le hfe⟩, hkf.trans_le hnext⟩
  by_contra hlow
  obtain ⟨hrk, hends⟩ := not_or.mp hlow
  refine absurd hstart (not_le_of_gt (flush_find_below r.ends r.start (lt_of_not_ge hrk)
    (fun e he => lt_of_not_ge fun hle => hends ⟨e, he, hle⟩) f hf))

/-- The first number of a descending list that is not above the bound. -/
theorem lt_find_iff {l : List Nat} (hl : l.Pairwise (· ≥ ·)) (upper q : Nat) :
    q < (l.find? (fun s => decide (s ≤ upper))).getD 0 ↔ ∃ s ∈ l, s ≤ upper ∧ q < s := by
  induction l with
  | nil => simp
  | cons s l ih =>
  obtain ⟨hs, hl⟩ := pairwise_cons.mp hl
  by_cases hup : s ≤ upper
  · rw [find?_cons_of_pos (by rw [decide_eq_true_eq]; exact hup), Option.getD_some]
    constructor
    · intro hq
      exact ⟨s, .head _, hup, hq⟩
    · rintro ⟨s', hs', -, hq⟩
      rcases mem_cons.mp hs' with rfl | hs'
      · exact hq
      · exact hq.trans_le (hs s' hs')
  · rw [find?_cons_of_neg (by rw [decide_eq_true_eq]; exact hup), ih hl]
    constructor
    · rintro ⟨s', hs', hrest⟩
      exact ⟨s', .tail s hs', hrest⟩
    · rintro ⟨s', hs', hup', hq⟩
      rcases mem_cons.mp hs' with rfl | hs'
      · exact absurd hup' hup
      · exact ⟨s', hs', hup', hq⟩

/-- **WHAT A READER IS TOLD** of a key: the newest tombstone that covers it. -/
theorem maxCovering_spec (hsorted : ts.Pairwise (fun a b => a.start ≤ b.start))
    (hpart : Partitioned k (fragmentTombstones ts)) (upper : Nat) :
    ∃ c, maxCovering (fragmentTombstones ts) k upper = some c ∧
      ∀ q, q < c ↔ ∃ t ∈ ts, Covers ts t k ∧ t.seq ≤ upper ∧ q < t.seq := by
  obtain ⟨rs, heq, hof, hrs, hall⟩ := exists_runs hsorted
  rw [maxCovering, upperBound, if_pos hpart]
  rw [heq] at hpart ⊢
  by_cases hcov : ∃ r ∈ rs, Run.Covering r k
  · obtain ⟨r, hr, hcov⟩ := hcov
    obtain ⟨f, hfind, hstart, hdesc, hseqs⟩ := find_covering hof hrs hpart hr hcov
    refine ⟨(f.seqs.find? (fun s => decide (s ≤ upper))).getD 0, ?_, fun q => ?_⟩
    · simp only [hfind]
      cases f.seqs.find? (fun s => decide (s ≤ upper)) with
      | none => rfl
      | some s => simp only [if_pos hstart, Option.getD_some]
    rw [lt_find_iff hdesc]
    constructor
    · rintro ⟨s, hs, hup, hq⟩
      obtain ⟨e, he, hke, rfl⟩ := (hseqs s).mp hs
      obtain ⟨t, ht, hcovers, hseq⟩ := hcov.covers (hof r hr) he hke
      exact ⟨t, ht, hcovers, hseq ▸ hup, hseq ▸ hq⟩
    rintro ⟨t, ht, hcovers, hup, hq⟩
    -- the run in which it covers the key leads to the same fragment
    obtain ⟨r', hr', hcov', hmem⟩ := hcovers.run hof hall ht
    obtain ⟨f', hfind', -, -, hseqs'⟩ := find_covering hof hrs hpart hr' hcov'
    have hf : f' = f := Option.some.inj (hfind'.symm.trans hfind)
    have hkt : k < t.fin := by
      rcases hcovers with ⟨-, h⟩ | ⟨_, _, _, _, _, h⟩
      · exact h
      · exact h
    exact ⟨t.seq, hf ▸ (hseqs' t.seq).mpr ⟨_, hmem, hkt, rfl⟩, hup, hq⟩
  · have hno : ∀ r ∈ rs, ¬ Run.Covering r k := fun r hr hc => hcov ⟨r, hr, hc⟩
    refine ⟨0, ?_, fun q => ⟨fun hq => absurd hq (Nat.not_lt_zero q), ?_⟩⟩
    · cases hfind : (rs.flatMap Run.out).find? (fun f => decide (k < f.fin)) with
      | none => rfl
      | some f =>
      simp only [if_neg (find_not_covering hno hfind)]
      cases f.seqs.find? (fun s => decide (s ≤ upper)) with
      | none => rfl
      | some s => rfl
    · rintro ⟨t, ht, hcovers, -⟩
      obtain ⟨r, hr, hc, -⟩ := hcovers.run hof hall ht
      exact absurd hc (hno r hr)

omit [LinearOrder K] in
theorem lt_foldl_max_iff (l : List Nat) : ∀ a q, q < l.foldl max a ↔ q < a ∨ ∃ s ∈ l, q < s := by
  induction l with
  | nil => intro a q; simp
  | cons s l ih =>
    intro a q
    rw [foldl_cons, ih, lt_max_iff, exists_mem_cons_iff, or_assoc]

/-- **FORWARD TOMBSTONES**: where each ends after it starts, or there, the fragments tell
    exactly the newest tombstone with the key in its range. -/
theorem maxCovering_eq (hsorted : ts.Pairwise (fun a b => a.start ≤ b.start))
    (hforward : ∀ t ∈ ts, t.start ≤ t.fin) (k : K) (upper : Nat) :
    maxCovering (fragmentTombstones ts) k upper = some (maxCoveringTombstoneSeqnum ts k upper) := by
  have hsearch : Searchable ts := fun r hr hrev => absurd (hforward r hr) (not_le_of_gt hrev)
  obtain ⟨c, hc, hspec⟩ := maxCovering_spec hsorted ((searchable_iff hsorted).mpr hsearch k) upper
  rw [hc, Option.some.injEq]
  refine eq_of_forall_lt_iff fun q => ?_
  rw [hspec, maxCoveringTombstoneSeqnum, lt_foldl_max_iff]
  constructor
  · rintro ⟨t, ht, ⟨hstart, hfin⟩ | ⟨r, hr, hlow, hhigh, -⟩, hup, hq⟩
    · refine .inr ⟨t.seq, mem_map_of_mem (mem_filter.mpr ⟨ht, ?_⟩), hq⟩
      exact decide_eq_true ⟨hstart, hfin, hup⟩
    · exact absurd (hforward r hr) (not_le_of_gt (hlow.trans_lt hhigh))
  rintro (hq | ⟨s, hs, hq⟩)
  · exact absurd hq (Nat.not_lt_zero q)
  · obtain ⟨t, ht, rfl⟩ := mem_map.mp hs
    obtain ⟨ht, hcond⟩ := mem_filter.mp ht
    obtain ⟨hstart, hfin, hup⟩ := of_decide_eq_true hcond
    exact ⟨t, ht, .inl ⟨hstart, hfin⟩, hup, hq⟩

end Cover

end RangeFragments
