import MatrixKV.GetImplProofs
import MatrixKV.RangeFragmentsProofs

/-! # `DeleteRange` with a begin key that is not before its end key

    The write path puts the pair into the memtable as it is.  Whether that deletes
    anything is up to the fragmenter.

    * `parts` — what a reader puts the value of a key together from, below the covering
      tombstone that the fragments tell.
    * `covers_cons_iff` — what one more empty or reversed tombstone covers.
    * **`deleteRange_unchanged_iff`** — when no reader notices. -/

namespace DeleteRange

open List DbFormat TableGet GetImpl RangeFragments

variable {K : Type} [LinearOrder K]

/-! ## The memtable -/

/-- The order of the range-deletion table: by start key, newest first. -/
def Before (a b : Tombstone K) : Prop := a.start < b.start ∨ a.start = b.start ∧ b.seq < a.seq

instance (a b : Tombstone K) : Decidable (Before a b) := inferInstanceAs (Decidable (_ ∨ _))

/-- The point entries and the range tombstones of a memtable, in their tables' orders. -/
structure Tables (K : Type) [LinearOrder K] where
  entries : List (InternalKey K × Bytes)
  rangeDels : List (Tombstone K)
  entries_sorted : entries.Pairwise (fun a b => a.1.rank < b.1.rank)
  rangeDels_sorted : rangeDels.Pairwise (fun a b => a.start ≤ b.start)

/-- The place of a tombstone in the range-deletion table. -/
def insertTombstone (t : Tombstone K) : List (Tombstone K) → List (Tombstone K)
  | [] => [t]
  | d :: ds => if Before t d then t :: d :: ds else d :: insertTombstone t ds

theorem mem_insertTombstone {t d : Tombstone K} {ts : List (Tombstone K)} :
    d ∈ insertTombstone t ts ↔ d ∈ t :: ts := by
  induction ts with
  | nil => exact Iff.rfl
  | cons x xs ih =>
  rw [insertTombstone]
  split
  · exact Iff.rfl
  · rw [mem_cons, ih, mem_cons, mem_cons, mem_cons, or_left_comm]

theorem sorted_insertTombstone {t : Tombstone K} {ts : List (Tombstone K)}
    (h : ts.Pairwise (fun a b => a.start ≤ b.start)) :
    (insertTombstone t ts).Pairwise (fun a b => a.start ≤ b.start) := by
  fun_induction insertTombstone t ts with
  | case1 => exact pairwise_singleton _ _
  | case2 x xs hbefore =>
    have hle : t.start ≤ x.start := hbefore.elim le_of_lt fun h => h.1.le
    have hx := (pairwise_cons.mp h).1
    exact pairwise_cons.mpr ⟨forall_mem_cons.mpr ⟨hle, fun d hd => hle.trans (hx d hd)⟩, h⟩
  | case3 x xs hbefore ih =>
  obtain ⟨hx, hxs⟩ := pairwise_cons.mp h
  refine pairwise_cons.mpr ⟨fun d hd => ?_, ih hxs⟩
  rcases mem_cons.mp (mem_insertTombstone.mp hd) with rfl | hd
  · exact le_of_not_gt fun hlt => hbefore (.inl hlt)
  · exact hx d hd

/-- `MemTable::Add` of a range deletion. -/
def Tables.add (mem : Tables K) (t : Tombstone K) : Tables K :=
  { mem with
    rangeDels := insertTombstone t mem.rangeDels
    rangeDels_sorted := sorted_insertTombstone mem.rangeDels_sorted }

/-- `MemTableInserter::DeleteRangeCF`: no look at the two keys. -/
def deleteRangeCF (supported : Bool) (mem : Tables K) (beginKey endKey : K) (seq : Nat) :
    Except Status (Tables K) :=
  if supported then .ok (mem.add ⟨beginKey, endKey, seq⟩) else .error .notSupported

/-! ## Readers -/

/-- What a reader puts the value of a key together from, newest first: the operands down to
    the first entry that is no operand, and that one if it is a value. -/
def parts (covering : Nat) : List (InternalKey K × Bytes) → List (InternalKey K × Bytes)
  | [] => []
  | e :: es =>
    match coveredType covering e.1 with
    | .merge => e :: parts covering es
    | .value | .blobIndex => [e]
    | .deletion | .singleDeletion | .rangeDeletion => []

/-- The entries of a key. -/
def Tables.entriesOf (mem : Tables K) (k : K) : List (InternalKey K × Bytes) :=
  mem.entries.filter (fun e => decide (e.1.userKey = k))

/-- A read of the memtable at the tip, none when the search of the fragments is undefined. -/
def visible (mem : Tables K) (k : K) : Option (List (InternalKey K × Bytes)) :=
  (maxCovering (fragmentTombstones mem.rangeDels) k maxSequenceNumber).map
    (fun covering => parts covering (mem.entriesOf k))

section Parts

variable {c : Nat} {e : InternalKey K × Bytes} {es : List (InternalKey K × Bytes)}

section

omit [LinearOrder K]

theorem coveredType_zero (key : InternalKey K) : coveredType 0 key = key.type :=
  if_neg fun h => Nat.not_lt_zero _ h.2

/-- The covering tombstone hides a part or does nothing. -/
theorem coveredType_cases (c : Nat) (key : InternalKey K) :
    coveredType c key = .rangeDeletion ∧
        (key.type = .value ∨ key.type = .merge ∨ key.type = .blobIndex) ∧ key.sequence < c ∨
      coveredType c key = key.type ∧
        (key.type = .value ∨ key.type = .merge ∨ key.type = .blobIndex → c ≤ key.sequence) := by
  by_cases h : (key.type = .value ∨ key.type = .merge ∨ key.type = .blobIndex) ∧ c > key.sequence
  · exact .inl ⟨if_pos h, h⟩
  · exact .inr ⟨if_neg h, fun ht => Nat.le_of_not_lt fun hlt => h ⟨ht, hlt⟩⟩

theorem parts_subset : ∀ x ∈ parts c es, x ∈ es := by
  induction es with
  | nil => exact fun x hx => hx
  | cons e es ih =>
  intro x hx
  rw [parts] at hx
  split at hx
  · rcases mem_cons.mp hx with rfl | hx
    · exact .head _
    · exact .tail e (ih x hx)
  · rw [mem_singleton.mp hx]
    exact .head _
  · rw [mem_singleton.mp hx]
    exact .head _
  all_goals exact nomatch hx

/-- **THE PARTS BELOW A TOMBSTONE** are the parts that are not older. -/
theorem parts_eq_filter (hsorted : es.Pairwise (fun a b => b.1.sequence ≤ a.1.sequence)) :
    parts c es = (parts 0 es).filter (fun x => decide (c ≤ x.1.sequence)) := by
  induction es with
  | nil => rfl
  | cons e es ih =>
  obtain ⟨he, hes⟩ := pairwise_cons.mp hsorted
  have ih := ih hes
  rcases coveredType_cases c e.1 with ⟨htype, -, hlt⟩ | ⟨htype, hle⟩
  · -- covered, and so is all that is older
    have hnil : parts c (e :: es) = [] := by rw [parts, htype]
    rw [hnil, eq_comm, filter_eq_nil_iff]
    intro x hx
    have hxe : x.1.sequence ≤ e.1.sequence := by
      rcases mem_cons.mp (parts_subset x hx) with rfl | hx
      · exact le_rfl
      · exact he x hx
    rw [decide_eq_true_eq]
    omega
  have hkeep : c ≤ e.1.sequence → ∀ xs : List (InternalKey K × Bytes),
      (e :: xs).filter (fun x => decide (c ≤ x.1.sequence))
        = e :: xs.filter (fun x => decide (c ≤ x.1.sequence)) :=
    fun h xs => filter_cons_of_pos (by rw [decide_eq_true_eq]; exact h)
  rw [parts, parts, htype, coveredType_zero]
  cases ht : e.1.type with
  | merge =>
    show e :: parts c es = List.filter _ (e :: parts 0 es)
    rw [hkeep (hle (.inr (.inl ht))), ih]
  | value => exact (hkeep (hle (.inl ht)) []).symm
  | blobIndex => exact (hkeep (hle (.inr (.inr ht))) []).symm
  | deletion => rfl
  | singleDeletion => rfl
  | rangeDeletion => rfl

/-- Two tombstones leave the same parts when no part lies between them. -/
theorem parts_eq_iff {c' : Nat} (hsorted : es.Pairwise (fun a b => b.1.sequence ≤ a.1.sequence)) :
    parts c es = parts c' es ↔ ∀ x ∈ parts 0 es, (x.1.sequence < c ↔ x.1.sequence < c') := by
  rw [parts_eq_filter hsorted, @parts_eq_filter _ c' es hsorted]
  constructor
  · intro h x hx
    have hmem := congrArg (fun l => x ∈ l) h
    simp only [mem_filter, hx, true_and, decide_eq_true_eq, eq_iff_iff] at hmem
    omega
  intro h
  refine filter_congr fun x hx => ?_
  have hx := h x hx
  rw [decide_eq_decide]
  omega

end

omit [LinearOrder K] in
/-- Where the parts agree, so does what the tombstones make of the first entry. -/
theorem coveredType_eq_of_parts {c' : Nat} (h : parts c (e :: es) = parts c' (e :: es)) :
    coveredType c e.1 = coveredType c' e.1 := by
  have hne : ∀ {c : Nat}, e.1.type = .value ∨ e.1.type = .merge ∨ e.1.type = .blobIndex →
      coveredType c e.1 = e.1.type → parts c (e :: es) ≠ [] := by
    intro c htypes hc
    rw [parts, hc]
    rcases htypes with ht | ht | ht <;> rw [ht] <;> exact cons_ne_nil _ _
  have hnil : ∀ {c : Nat}, coveredType c e.1 = .rangeDeletion → parts c (e :: es) = [] := by
    intro c hc
    rw [parts, hc]
  rcases coveredType_cases c e.1 with ⟨hc, htypes, -⟩ | ⟨hc, -⟩ <;>
    rcases coveredType_cases c' e.1 with ⟨hc', htypes', -⟩ | ⟨hc', -⟩
  · rw [hc, hc']
  · exact absurd (h.symm.trans (hnil hc)) (hne htypes hc')
  · exact absurd (h.trans (hnil hc')) (hne htypes' hc)
  · rw [hc, hc']

/-- The search goes on behind an operand only. -/
theorem merge_of_memSaveValue {op : Option (MergeOperator K)} {k : K} {sv sv' : Saver}
    (h : memSaveValue op k c sv e = (sv', true)) : coveredType c e.1 = .merge := by
  unfold memSaveValue at h
  split at h
  · cases ht : coveredType c e.1 with
    | merge => rfl
    | _ =>
      rw [ht] at h
      exact absurd (congrArg Prod.snd h) Bool.false_ne_true
  · exact absurd (congrArg Prod.snd h) Bool.false_ne_true

/-- **THE PARTS ARE ALL** that the search of a memtable looks at. -/
theorem memSaveEntries_congr (op : Option (MergeOperator K)) (k : K) {c' : Nat}
    (es : List (InternalKey K × Bytes)) (h : parts c es = parts c' es) :
    ∀ sv, memSaveEntries op k c sv es = memSaveEntries op k c' sv es := by
  induction es with
  | nil => exact fun _ => rfl
  | cons e es ih =>
  intro sv
  have htype := coveredType_eq_of_parts h
  have hvalue : memSaveValue op k c' sv e = memSaveValue op k c sv e := by
    simp only [memSaveValue, htype]
  rw [memSaveEntries, memSaveEntries, hvalue]
  cases hsv : memSaveValue op k c sv e with
  | mk sv' more =>
  cases more with
  | false => rfl
  | true =>
    have hmerge := merge_of_memSaveValue hsv
    rw [parts, parts, ← htype, hmerge] at h
    exact ih (cons.inj h).2 sv'

end Parts

/-! ## What one more tombstone covers -/

section Covers

variable {ts : List (Tombstone K)} {t r : Tombstone K} {k : K}

/-- **ONE MORE EMPTY OR REVERSED TOMBSTONE** lends the keys between its end and its start what
    is in work at its start. -/
theorem covers_cons_iff :
    Covers (r :: ts) t k ↔ Covers ts t k ∨
      r.fin ≤ k ∧ k < r.start ∧ InWork r.start t ∧ k < t.fin := by
  constructor
  · rintro (h | ⟨r', hr', hrest⟩)
    · exact .inl (.inl h)
    · rcases mem_cons.mp hr' with rfl | hr'
      · exact .inr hrest
      · exact .inl (.inr ⟨r', hr', hrest⟩)
  · rintro (h | h)
    · exact h.of_subset fun t ht => .tail r ht
    · exact .inr ⟨r, .head _, h⟩

/-- It covers a key itself only through another reversed tombstone at its start. -/
theorem covers_self_iff (hr : r.fin ≤ r.start) :
    Covers (r :: ts) r k ↔ (∃ r' ∈ ts, r'.start = r.start ∧ r'.fin ≤ k) ∧ k < r.fin := by
  constructor
  · rintro (⟨hstart, hfin⟩ | ⟨r', hr', hlow, hhigh, hwork, hfin⟩)
    · exact absurd (hstart.trans_lt hfin) (not_lt_of_ge hr)
    · have hstart : r.start = r'.start :=
        hwork.resolve_right fun hlate => absurd (hlate.1.trans_le hlate.2) (not_lt_of_ge hr)
      rcases mem_cons.mp hr' with rfl | hr'
      · exact absurd hlow (not_le_of_gt hfin)
      · exact ⟨⟨r', hr', hstart.symm, hlow⟩, hfin⟩
  · rintro ⟨⟨r', hr', hstart, hlow⟩, hfin⟩
    refine .inr ⟨r', .tail r hr', hlow, ?_, .inl hstart.symm, hfin⟩
    rw [hstart]
    exact hfin.trans_le hr

/-- What it adds, above a number below which nothing covered the key. -/
theorem exists_covers_cons_iff (hr : r.fin ≤ r.start) {q : Nat} (hq : q < r.seq)
    (hbefore : ∀ t ∈ ts, Covers ts t k → t.seq ≤ q) :
    (∃ t ∈ r :: ts, Covers (r :: ts) t k ∧ q < t.seq) ↔
      ((∃ r' ∈ ts, r'.start = r.start ∧ r'.fin ≤ k) ∧ k < r.fin) ∨
      (r.fin ≤ k ∧ k < r.start ∧ ∃ t ∈ ts, InWork r.start t ∧ k < t.fin ∧ q < t.seq) := by
  rw [exists_mem_cons_iff, covers_self_iff hr]
  refine or_congr ⟨fun h => h.1, fun h => ⟨h, hq⟩⟩ ⟨?_, ?_⟩
  · rintro ⟨t, ht, hcov, hlt⟩
    rcases covers_cons_iff.mp hcov with hold | ⟨hlow, hhigh, hwork, hfin⟩
    · exact absurd (hbefore t ht hold) (Nat.not_le_of_lt hlt)
    · exact ⟨hlow, hhigh, t, ht, hwork, hfin, hlt⟩
  · rintro ⟨hlow, hhigh, t, ht, hwork, hfin, hlt⟩
    exact ⟨t, ht, covers_cons_iff.mpr (.inr ⟨hlow, hhigh, hwork, hfin⟩), hlt⟩

end Covers

/-! ## The write -/

/-- Readers get what they got, and the search of the fragments is defined. -/
def Unchanged (mem mem' : Tables K) : Prop :=
  ∀ k, ∃ v, visible mem k = some v ∧ visible mem' k = some v

/-- What makes up the value of a key is not older than what covers it. -/
def Shown (mem : Tables K) (k : K) (x : InternalKey K × Bytes) : Prop :=
  x ∈ parts 0 (mem.entriesOf k) ∧
    ∀ t ∈ mem.rangeDels, Covers mem.rangeDels t k → t.seq ≤ x.1.sequence

/-- The tombstone `r` adds nothing that covers the part: no key of another reversed tombstone
    at its start and before its own end, and no key between its end and its start with a newer
    tombstone in work at its start. -/
def Spared (mem : Tables K) (r : Tombstone K) (k : K) (x : InternalKey K × Bytes) : Prop :=
  ¬ ((∃ r' ∈ mem.rangeDels, r'.start = r.start ∧ r'.fin ≤ k) ∧ k < r.fin) ∧
    (r.fin ≤ k → k < r.start → ∀ t ∈ mem.rangeDels, InWork r.start t → k < t.fin →
      t.seq ≤ x.1.sequence)

section Write

variable {mem : Tables K}

theorem entriesOf_sorted (mem : Tables K) (k : K) :
    (mem.entriesOf k).Pairwise (fun a b => b.1.sequence ≤ a.1.sequence) := by
  have hkey : ∀ e ∈ mem.entriesOf k, e.1.userKey = k :=
    fun e he => of_decide_eq_true (mem_filter.mp he).2
  refine (mem.entries_sorted.filter _).imp_of_mem fun {a b} ha hb hlt => ?_
  rcases (rank_lt_iff a.1 b.1).mp hlt with huser | ⟨-, hpacked⟩
  · rw [hkey a ha, hkey b hb] at huser
    exact absurd huser (lt_irrefl k)
  refine Nat.le_of_not_lt fun hseq => ?_
  have hlt' := packed_lt_of_sequence_lt hseq
  omega

/-- A search that is defined tells the newest tombstone that covers the key. -/
theorem visible_eq (h : Partitioned k (fragmentTombstones mem.rangeDels))
    (hseq : ∀ t ∈ mem.rangeDels, t.seq ≤ maxSequenceNumber) :
    ∃ c, visible mem k = some (parts c (mem.entriesOf k)) ∧
      ∀ q, q < c ↔ ∃ t ∈ mem.rangeDels, Covers mem.rangeDels t k ∧ q < t.seq := by
  obtain ⟨c, hc, hspec⟩ := maxCovering_spec mem.rangeDels_sorted h maxSequenceNumber
  refine ⟨c, by rw [visible, hc]; rfl, fun q => (hspec q).trans ?_⟩
  exact ⟨fun ⟨t, ht, hcov, _, hq⟩ => ⟨t, ht, hcov, hq⟩,
    fun ⟨t, ht, hcov, hq⟩ => ⟨t, ht, hcov, hseq t ht, hq⟩⟩

theorem partitioned_of_visible {v : List (InternalKey K × Bytes)} (h : visible mem k = some v) :
    Partitioned k (fragmentTombstones mem.rangeDels) := by
  by_contra hno
  rw [visible, maxCovering, upperBound, if_neg hno] at h
  cases h

/-- The fragments of the written table are searchable when the tombstones are. -/
theorem add_searchable (mem : Tables K) (r : Tombstone K) :
    (∀ k, Partitioned k (fragmentTombstones (mem.add r).rangeDels)) ↔
      Searchable (r :: mem.rangeDels) :=
  (searchable_iff (mem.add r).rangeDels_sorted).trans
    ⟨fun h => h.of_subset fun _ => mem_insertTombstone.mpr,
      fun h => h.of_subset fun _ => mem_insertTombstone.mp⟩

/-- A read of the written table. -/
theorem visible_add {k : K} {r : Tombstone K}
    (h : Partitioned k (fragmentTombstones (mem.add r).rangeDels))
    (hr : r.seq ≤ maxSequenceNumber) (hseq : ∀ t ∈ mem.rangeDels, t.seq ≤ maxSequenceNumber) :
    ∃ c, visible (mem.add r) k = some (parts c (mem.entriesOf k)) ∧
      ∀ q, q < c ↔ ∃ t ∈ r :: mem.rangeDels, Covers (r :: mem.rangeDels) t k ∧ q < t.seq := by
  have hmem : ∀ t, t ∈ (mem.add r).rangeDels ↔ t ∈ r :: mem.rangeDels := fun _ =>
    mem_insertTombstone
  obtain ⟨c, hc, hspec⟩ := visible_eq h fun t ht => by
    rcases mem_cons.mp ((hmem t).mp ht) with rfl | ht
    · exact hr
    · exact hseq t ht
  refine ⟨c, hc, fun q => (hspec q).trans ⟨?_, ?_⟩⟩
  · rintro ⟨t, ht, hcov, hq⟩
    exact ⟨t, (hmem t).mp ht, hcov.of_subset fun u => (hmem u).mp, hq⟩
  · rintro ⟨t, ht, hcov, hq⟩
    exact ⟨t, (hmem t).mpr ht, hcov.of_subset fun u => (hmem u).mpr, hq⟩

/-- **ONE KEY**: both reads agree when the parts that were shown are spared. -/
theorem visible_add_iff {k : K} {r : Tombstone K} (hr : r.fin ≤ r.start)
    (hseq : r.seq ≤ maxSequenceNumber) (hdels : ∀ t ∈ mem.rangeDels, t.seq ≤ maxSequenceNumber)
    (hentries : ∀ e ∈ mem.entries, e.1.sequence < r.seq)
    (hpart : Partitioned k (fragmentTombstones mem.rangeDels))
    (hpart' : Partitioned k (fragmentTombstones (mem.add r).rangeDels)) :
    (∃ v, visible mem k = some v ∧ visible (mem.add r) k = some v) ↔
      ∀ x, Shown mem k x → Spared mem r k x := by
  obtain ⟨c, hc, hspec⟩ := visible_eq hpart hdels
  obtain ⟨c', hc', hspec'⟩ := visible_add hpart' hseq hdels
  have hmono : ∀ q, q < c → q < c' := by
    intro q hq
    obtain ⟨t, ht, hcov, hlt⟩ := (hspec q).mp hq
    exact (hspec' q).mpr ⟨t, .tail r ht, covers_cons_iff.mpr (.inl hcov), hlt⟩
  have hshown : ∀ x, Shown mem k x ↔ x ∈ parts 0 (mem.entriesOf k) ∧ ¬ x.1.sequence < c := by
    intro x
    refine and_congr_right fun _ => ?_
    rw [hspec]
    push Not
    exact Iff.rfl
  have hspared : ∀ x, Shown mem k x → (Spared mem r k x ↔ ¬ x.1.sequence < c') := by
    intro x hx
    have hlt := hentries x (mem_of_mem_filter (parts_subset x hx.1))
    rw [hspec', exists_covers_cons_iff hr hlt hx.2, not_or]
    refine and_congr_right fun _ => ⟨?_, ?_⟩
    · rintro h ⟨hlow, hhigh, t, ht, hwork, hfin, hq⟩
      exact absurd (h hlow hhigh t ht hwork hfin) (Nat.not_le_of_lt hq)
    · intro h hlow hhigh t ht hwork hfin
      exact Nat.le_of_not_lt fun hq => h ⟨hlow, hhigh, t, ht, hwork, hfin, hq⟩
  have hsame : (∃ v, visible mem k = some v ∧ visible (mem.add r) k = some v) ↔
      parts c (mem.entriesOf k) = parts c' (mem.entriesOf k) := by
    rw [hc, hc']
    exact ⟨fun ⟨v, hv, hv'⟩ => Option.some.inj (hv.trans hv'.symm), fun h => ⟨_, rfl, by rw [h]⟩⟩
  rw [hsame, parts_eq_iff (entriesOf_sorted mem k)]
  constructor
  · intro h x hx
    exact (hspared x hx).mpr (mt (h x hx.1).mpr ((hshown x).mp hx).2)
  intro h x hx
  refine ⟨hmono _, fun hlt' => ?_⟩
  by_contra hlt
  have hx' := (hshown x).mpr ⟨hx, hlt⟩
  exact (hspared x hx').mp (h x hx') hlt'

/-- **WHEN AN EMPTY OR REVERSED `DeleteRange` IS HARMLESS**: it is rejected, or the fragments
    stay searchable and the parts that readers are shown are spared. -/
theorem deleteRange_unchanged_iff (mem : Tables K) (supported : Bool) {beginKey endKey : K}
    (hkeys : endKey ≤ beginKey) {seq : Nat} (hseq : seq ≤ maxSequenceNumber)
    (hdels : ∀ t ∈ mem.rangeDels, t.seq ≤ maxSequenceNumber)
    (hentries : ∀ e ∈ mem.entries, e.1.sequence < seq) :
    (∀ mem', deleteRangeCF supported mem beginKey endKey seq = .ok mem' → Unchanged mem mem') ↔
      (supported = true → Searchable (⟨beginKey, endKey, seq⟩ :: mem.rangeDels) ∧
        ∀ k x, Shown mem k x → Spared mem ⟨beginKey, endKey, seq⟩ k x) := by
  cases supported with
  | false => exact ⟨nofun, nofun⟩
  | true =>
  constructor
  · intro h _
    have hall := h _ rfl
    have hpart := fun k => partitioned_of_visible (hall k).choose_spec.1
    have hpart' := fun k => partitioned_of_visible (hall k).choose_spec.2
    exact ⟨(add_searchable mem _).mp hpart', fun k =>
      (visible_add_iff hkeys hseq hdels hentries (hpart k) (hpart' k)).mp (hall k)⟩
  intro h mem' hmem k
  obtain ⟨hsearch, hshown⟩ := h rfl
  obtain rfl : mem.add ⟨beginKey, endKey, seq⟩ = mem' := Except.ok.inj hmem
  have hold := hsearch.of_subset fun t ht => .tail _ ht
  exact (visible_add_iff hkeys hseq hdels hentries
    ((searchable_iff mem.rangeDels_sorted).mpr hold k)
    ((add_searchable mem _).mpr hsearch k)).mpr (hshown k)

end Write

/-- A live key below an old range tombstone. -/
def liveBelow : Tables Nat where
  entries := [(⟨4, 1, .value⟩, [7])]
  rangeDels := [⟨6, 9, 5⟩]
  entries_sorted := pairwise_singleton _ _
  rangeDels_sorted := pairwise_singleton _ _

/-- The reversed range from 6 to 3 lends the old tombstone to the keys between, and the value
    of key 4 is gone. -/
theorem reversed_range_deletes :
    ∃ mem', deleteRangeCF true liveBelow 6 3 8 = .ok mem' ∧
      visible liveBelow 4 = some [(⟨4, 1, .value⟩, [7])] ∧ visible mem' 4 = some [] :=
  ⟨_, rfl, by decide, by decide⟩

/-- From 5 to 3 it is harmless. -/
theorem deleteRange_unchanged_iff_liveBelow :
    ∃ mem', deleteRangeCF true liveBelow 5 3 8 = .ok mem' ∧ Unchanged liveBelow mem' :=
  ⟨_, rfl, (deleteRange_unchanged_iff liveBelow true (by decide) (by decide) (by decide)
    (by decide)).mpr (fun _ => ⟨by decide, fun k x _ => ⟨fun h => by simp [liveBelow] at h,
      fun _ _ t ht hwork => by simp_all [liveBelow, InWork]⟩⟩) _ rfl⟩

end DeleteRange
