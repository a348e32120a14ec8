import MatrixKV.CompactionKeyProofs

/-! # What readers see of a compaction of values and deletions

    A reader at a sequence number sees, of each user key, the newest entry that is not
    above the number.  A compaction drops and renumbers entries; none of it shows at
    the tip or at a live snapshot.

    * `keyOut_valueAt` — one key, stripe by stripe, on top of what lies in the deeper
      levels.
    * **`compaction_preserves_valueAt`** — the whole compaction. -/

namespace CompactionVisible

open List DbFormat TableGet CompactionIterator CompactionKey

variable {K : Type} [LinearOrder K]

/-! ## Readers -/

/-- The entry may be seen by a reader of `k` at `s`. -/
def Sees (k : K) (s : Nat) (e : Entry K) : Prop := e.1.userKey = k ∧ e.1.sequence ≤ s

instance (k : K) (s : Nat) (e : Entry K) : Decidable (Sees k s e) :=
  inferInstanceAs (Decidable (_ ∧ _))

/-- Of two entries the one with the larger sequence number; the first one of equals. -/
def newer (e : Entry K) : Option (Entry K) → Entry K
  | none => e
  | some d => if d.1.sequence ≤ e.1.sequence then e else d

/-- The newest entry a reader sees. -/
def newest (k : K) (s : Nat) : List (Entry K) → Option (Entry K)
  | [] => none
  | e :: es => if Sees k s e then some (newer e (newest k s es)) else newest k s es

/-- The value a reader gets. -/
def valueAt (k : K) (s : Nat) (es : List (Entry K)) : Option Bytes :=
  match newest k s es with
  | none => none
  | some e => if e.1.type = .value then some e.2 else none

section Newest

variable {k : K} {s : Nat} {e : Entry K} {es xs ds : List (Entry K)}

theorem newest_cons_of_sees (h : Sees k s e) :
    newest k s (e :: es) = some (newer e (newest k s es)) := if_pos h

theorem newest_cons_of_not_sees (h : ¬ Sees k s e) : newest k s (e :: es) = newest k s es :=
  if_neg h

/-- Entries that are not seen are not there. -/
theorem newest_append_of_not_sees (h : ∀ x ∈ xs, ¬ Sees k s x) :
    newest k s (xs ++ ds) = newest k s ds := by
  induction xs with
  | nil => rfl
  | cons x xs ih =>
    rw [cons_append, newest_cons_of_not_sees (h x (.head _))]
    exact ih fun y hy => h y (.tail x hy)

theorem newest_eq_none (h : ∀ x ∈ xs, ¬ Sees k s x) : newest k s xs = none := by
  rw [← append_nil xs]
  exact newest_append_of_not_sees h

/-- Entries of other keys do not matter. -/
theorem newest_filter_append (k : K) (s : Nat) (es ds : List (Entry K)) :
    newest k s (es.filter (fun n => decide (n.1.userKey = k)) ++ ds) = newest k s (es ++ ds) := by
  induction es with
  | nil => rfl
  | cons e es ih =>
  rw [cons_append]
  by_cases hk : e.1.userKey = k
  · rw [filter_cons_of_pos (by rw [decide_eq_true_eq]; exact hk), cons_append, newest, newest, ih]
  · rw [filter_cons_of_neg (by rw [decide_eq_true_eq]; exact hk), ih,
      newest_cons_of_not_sees fun h => hk h.1]

theorem valueAt_congr (h : newest k s xs = newest k s ds) : valueAt k s xs = valueAt k s ds := by
  rw [valueAt, h, valueAt]

theorem valueAt_filter_append (k : K) (s : Nat) (es ds : List (Entry K)) :
    valueAt k s (es.filter (fun n => decide (n.1.userKey = k)) ++ ds) = valueAt k s (es ++ ds) :=
  valueAt_congr (newest_filter_append k s es ds)

omit [LinearOrder K] in
theorem newer_newer {x : Entry K} (h : x.1.sequence ≤ e.1.sequence) (d : Option (Entry K)) :
    newer e (some (newer x d)) = newer e d := by
  cases d with
  | none => exact if_pos h
  | some d =>
  by_cases hd : d.1.sequence ≤ x.1.sequence
  · have hx : newer x (some d) = x := if_pos hd
    rw [hx, newer, if_pos h, newer, if_pos (hd.trans h)]
  · have hx : newer x (some d) = d := if_neg hd
    rw [hx]

/-- **THE NEWEST ENTRY** hides the older ones behind it. -/
theorem newest_cons_append (he : Sees k s e)
    (h : ∀ x ∈ xs, Sees k s x → x.1.sequence ≤ e.1.sequence) :
    newest k s (e :: (xs ++ ds)) = newest k s (e :: ds) := by
  rw [newest_cons_of_sees he, newest_cons_of_sees he, Option.some.injEq]
  induction xs with
  | nil => rfl
  | cons x xs ih =>
  have ih := ih fun y hy => h y (.tail x hy)
  rw [cons_append]
  by_cases hx : Sees k s x
  · rw [newest_cons_of_sees hx, newer_newer (h x (.head _) hx)]
    exact ih
  · rw [newest_cons_of_not_sees hx]
    exact ih

end Newest

/-! ## One key -/

section Key

variable {cfg : Config K} {k : K} {more : Bool} (hsnap : LiveSnapshots cfg.snapshots)
include hsnap

/-- What is output comes from an entry of the key. -/
theorem keyOut_mem : ∀ es, KeyEntries cfg k es → (∀ e ∈ es, e.1.type ≠ .merge) →
    ∀ o ∈ keyOut cfg more 0 es, ∃ e ∈ es, o = prepareOutput cfg e := by
  refine plain_induction hsnap more nofun fun e used r hes hused hr htypes hfirst ih o ho => ?_
  have hrest : o ∈ keyOut cfg more 0 r → ∃ e' ∈ e :: (used ++ r), o = prepareOutput cfg e' := by
    intro ho
    obtain ⟨e', he', heq⟩ := ih o ho
    exact ⟨e', .tail e (mem_append_right used he'), heq⟩
  cases hfirst with
  | dropped hout => exact hrest (hout ▸ ho)
  | covered hout => exact hrest (hout ▸ ho)
  | kept hout =>
  rw [hout] at ho
  rcases mem_cons.mp ho with rfl | ho
  · exact ⟨e, .head _, rfl⟩
  · exact hrest ho

/-- **ONE KEY**: on top of the deeper levels, a reader gets from the output of the
    iterator what it gets from the entries. -/
theorem keyOut_valueAt (htomb : ∀ key, cfg.shouldDelete key = false)
    {ds : List (Entry K)} (hgone : gone cfg k = true → ∀ d ∈ ds, d.1.userKey ≠ k) {s : Nat}
    (hs : Live cfg s) : ∀ es, KeyEntries cfg k es → (∀ e ∈ es, e.1.type ≠ .merge) →
      valueAt k s (keyOut cfg more 0 es ++ ds) = valueAt k s (es ++ ds) := by
  refine plain_induction hsnap more rfl fun e used r hes hused hr htypes hfirst ih => ?_
  have hkey := hes.key e (.head _)
  have hq := (hes.sequence e (.head _)).1
  by_cases hsee : Sees k s e
  · -- the reader finds `e`, or something newer in the deeper levels
    have holder := fun n hn => (hes.older n hn).2.1
    have hnone : gone cfg e.1.userKey = true → newest k s ds = none := fun h =>
      newest_eq_none fun d hd hsee => hgone (hkey ▸ h) d hd hsee.1
    rw [cons_append, valueAt_congr (newest_cons_append hsee fun n hn _ => holder n hn)]
    cases hfirst with
    | dropped hout hdel hg hnil =>
      rw [hout, hnil, valueAt, valueAt, newest_cons_of_sees hsee, keyOut, nil_append, hnone hg]
      show none = if e.1.type = .value then some e.2 else none
      rw [hdel, if_neg (by decide)]
    | covered hout hdel => cases (htomb e.1).symm.trans hdel
    | kept hout =>
    rw [hout]
    rcases prepareOutput_cases cfg e with hsame | ⟨hzero, hzeroed⟩
    · rw [hsame, cons_append]
      refine valueAt_congr (newest_cons_append hsee fun o ho _ => ?_)
      obtain ⟨n, hn, rfl⟩ := keyOut_mem hsnap r hes.tail.suffix htypes o ho
      exact (prepareOutput_sequence_le cfg n).trans (holder n (mem_append_right used hn))
    -- the renumbered entry is seen by everyone
    have hsee0 : Sees k s (({ e.1 with sequence := 0 }, e.2) : Entry K) :=
      ⟨hkey, Nat.zero_le s⟩
    rw [eq_nil_of_earliest hsnap hq hzeroed.le hr, hzero, keyOut, cons_append, nil_append,
      valueAt, newest_cons_of_sees hsee0, valueAt, newest_cons_of_sees hsee, hnone hzeroed.gone]
    rfl
  · -- nothing of the stripe of `e` is seen
    have hlt : s < stripe cfg e.1.sequence := Nat.lt_of_not_le fun h =>
      hsee ⟨hkey, (sequence_le_iff hsnap hq hs).mpr h⟩
    have hunseen : ∀ n ∈ e :: used, ¬ Sees k s n := by
      intro n hn h
      rcases mem_cons.mp hn with rfl | hn
      · exact hsee h
      have hle := (sequence_le_iff hsnap
        (hes.tail.sequence n (mem_append_left r hn)).1 hs).mp h.2
      rw [hused n hn] at hle
      omega
    have hright : valueAt k s (e :: (used ++ r) ++ ds) = valueAt k s (r ++ ds) := by
      rw [← cons_append, append_assoc]
      exact valueAt_congr (newest_append_of_not_sees hunseen)
    rw [hright, ← ih]
    cases hfirst with
    | dropped hout => rw [hout]
    | covered hout => rw [hout]
    | kept hout =>
    rw [hout]
    rcases prepareOutput_cases cfg e with hsame | ⟨-, hzeroed⟩
    · rw [hsame, cons_append]
      exact valueAt_congr (newest_cons_of_not_sees hsee)
    · exact absurd ⟨hkey, hzeroed.le.trans (earliest_le hsnap hs)⟩ hsee

/-- What is output of a key gets older and older. -/
theorem keyOut_sorted : ∀ es, KeyEntries cfg k es → (∀ e ∈ es, e.1.type ≠ .merge) →
    (keyOut cfg more 0 es).Pairwise (fun a b => b.1.sequence < a.1.sequence) := by
  refine plain_induction hsnap more .nil
    fun e used r hes hused hr htypes hfirst ih => ?_
  cases hfirst with
  | dropped hout => exact hout ▸ ih
  | covered hout => exact hout ▸ ih
  | kept hout =>
  rw [hout]
  refine pairwise_cons.mpr ⟨fun o ho => ?_, ih⟩
  rcases prepareOutput_cases cfg e with hsame | ⟨-, hzeroed⟩
  · obtain ⟨n, hn, rfl⟩ := keyOut_mem hsnap r hes.tail.suffix htypes o ho
    have hlt := lt_of_stripe_lt hsnap (hes.tail.suffix.sequence n hn).1 (hr n hn)
    rw [hsame]
    exact (prepareOutput_sequence_le cfg n).trans_lt hlt
  · rw [eq_nil_of_earliest hsnap (hes.sequence e (.head _)).1 hzeroed.le hr] at ho
    exact nomatch ho

end Key

/-! ## The compaction -/

/-- A file holds only keys of its range. -/
theorem userKey_ne_of_not_holds {levels : List (Level K)} {k : K}
    (h : ∀ l ∈ levels, ∀ f ∈ l.files, ¬ LevelFile.Holds f k) :
    ∀ d ∈ levels.flatMap Level.entries, d.1.userKey ≠ k := by
  intro d hd heq
  obtain ⟨l, hl, hd⟩ := mem_flatMap.mp hd
  obtain ⟨f, hf, hd⟩ := mem_flatMap.mp hd
  exact h l hl f hf (heq ▸ f.inRange d hd)

variable {cfg : Config K}

/-- Nothing of the key lies below the output level. -/
theorem gone_deeper {c : Compaction K} (hc : cfg.compaction = some c) {k : K}
    (hbottom : c.bottommostLevel = true → ∀ l ∈ c.deeper, ∀ f ∈ l.files, ¬ LevelFile.Holds f k)
    (hgone : gone cfg k = true) : ∀ d ∈ c.deeper.flatMap Level.entries, d.1.userKey ≠ k := by
  simp only [gone, hc, Bool.or_eq_true, Bool.and_eq_true] at hgone
  rcases hgone with hb | ⟨-, hnot⟩
  · exact userKey_ne_of_not_holds (hbottom hb)
  refine userKey_ne_of_not_holds fun l hl f hf => ?_
  have hfile := all_eq_true.mp (all_eq_true.mp hnot l hl) f hf
  rw [Bool.not_eq_true', decide_eq_false_iff_not] at hfile
  exact hfile

variable {input : List (Entry K)}

/-- Values and deletions are what the iterator expects. -/
theorem input_of_types (hsorted : input.Pairwise (fun a b => a.1.rank ≤ b.1.rank))
    (hseq : ∀ e ∈ input, Proper cfg.snapshots e.1.sequence)
    (htypes : ∀ e ∈ input, e.1.type = .value ∨ e.1.type = .deletion) :
    Input cfg input ∧ ∀ e ∈ input, e.1.type ≠ .merge := by
  have hnot : ∀ {t : ValueType}, t ≠ .value → t ≠ .deletion → ∀ e ∈ input, e.1.type ≠ t := by
    intro t hv hd e he heq
    rcases htypes e he with h | h
    · exact hv (heq.symm.trans h)
    · exact hd (heq.symm.trans h)
  have hmerge := hnot (t := .merge) nofun nofun
  exact ⟨⟨hsorted, hseq, hnot nofun nofun,
    fun e he h => absurd h (hmerge e he)⟩, hmerge⟩

section

variable (hsnap : LiveSnapshots cfg.snapshots) (hinput : Input cfg input)
  (hmerge : ∀ e ∈ input, e.1.type ≠ .merge)
include hsnap hinput hmerge

/-- Without merges the output is strictly sorted. -/
theorem output_sorted : (output cfg input).1.Pairwise (fun a b => a.1.rank < b.1.rank) := by
  refine pairwise_of_keys (fun a b h => rank_lt_of_userKey_lt h)
    (output_ascending hsnap hinput) fun k => ?_
  have hkey : ∀ o ∈ (output cfg input).1.filter (fun o => decide (o.1.userKey = k)),
      o.1.userKey = k := fun o ho => of_decide_eq_true (mem_filter.mp ho).2
  rw [(filter_output hsnap hinput).2] at hkey ⊢
  refine (keyOut_sorted hsnap _ (keyEntries_filter hinput k) fun n hn =>
    hmerge n (mem_of_mem_filter hn)).imp_of_mem fun ha hb hlt => ?_
  exact (rank_lt_iff _ _).mpr (.inr
    ⟨(hkey _ ha).trans (hkey _ hb).symm, packed_lt_of_sequence_lt hlt⟩)

/-- What is output comes from an entry of the input. -/
theorem output_mem :
    ∀ o ∈ (output cfg input).1, ∃ e ∈ input, o = prepareOutput cfg e := by
  intro o ho
  have hout : o ∈ (output cfg input).1.filter (fun n => decide (n.1.userKey = o.1.userKey)) :=
    mem_filter.mpr ⟨ho, decide_eq_true rfl⟩
  rw [(filter_output hsnap hinput).2] at hout
  obtain ⟨e, he, heq⟩ := keyOut_mem hsnap _ (keyEntries_filter hinput _)
    (fun n hn => hmerge n (mem_of_mem_filter hn)) o hout
  exact ⟨e, mem_of_mem_filter he, heq⟩

end

/-- **WHAT EVERY READER SEES** stays: from the output of a compaction of values and deletions,
    on top of the levels below, a reader at the tip or at a live snapshot gets the value it
    got from the input, and the output is strictly sorted. -/
theorem compaction_preserves_valueAt {cfg : Config K} {c : Compaction K}
    (hc : cfg.compaction = some c) (hsnap : Snapshots cfg.snapshots) (htomb : cfg.tombstones = [])
    {input : List (Entry K)} (hsorted : input.Pairwise (fun a b => a.1.rank ≤ b.1.rank))
    (hseq : ∀ e ∈ input, e.1.sequence ≤ maxSequenceNumber)
    (htypes : ∀ e ∈ input, e.1.type = .value ∨ e.1.type = .deletion)
    (hbottom : c.bottommostLevel = true →
      ∀ e ∈ input, ∀ l ∈ c.deeper, ∀ f ∈ l.files, ¬ LevelFile.Holds f e.1.userKey) :
    (output cfg input).2 = .ok ∧
    (∀ k s, Live cfg s →
      valueAt k s ((output cfg input).1 ++ c.deeper.flatMap Level.entries)
        = valueAt k s (input ++ c.deeper.flatMap Level.entries)) ∧
    (output cfg input).1.Pairwise (fun a b => a.1.rank < b.1.rank) := by
  obtain ⟨hinput, hmerge⟩ := input_of_types hsorted (fun e he => hsnap.proper (hseq e he)) htypes
  have hdel : ∀ key, cfg.shouldDelete key = false := by
    intro key
    rw [Config.shouldDelete, htomb]
    rfl
  obtain ⟨hok, hfilter⟩ := filter_output hsnap.live hinput
  refine ⟨hok, fun k s hs => ?_, ?_⟩
  · have hkey := keyEntries_filter hinput k
    rw [← valueAt_filter_append k s (output cfg input).1, hfilter,
      ← valueAt_filter_append k s input]
    cases hes : input.filter (fun n => decide (n.1.userKey = k)) with
    | nil => rfl
    | cons e es =>
    rw [hes] at hkey
    have hmem : ∀ n ∈ e :: es, n ∈ input := fun n hn => mem_of_mem_filter (hes ▸ hn)
    have hdeeper := gone_deeper hc (k := k) fun hb l hl f hf => by
      rw [← hkey.key e mem_cons_self]
      exact hbottom hb e (hmem e (.head _)) l hl f hf
    exact keyOut_valueAt hsnap.live hdel hdeeper hs (e :: es) hkey fun n hn =>
      hmerge n (hmem n hn)
  · exact output_sorted hsnap.live hinput hmerge

/-- A bottommost compaction with the live snapshot 5. -/
def bottommostExample : Compaction Nat where
  bottommostLevel := true
  outputLevel := 2
  style := .level
  deeper := []
  largestUserKey := 9

def exampleInput : List (Entry Nat) :=
  [(⟨1, 8, .deletion⟩, []), (⟨1, 4, .value⟩, [7]), (⟨1, 3, .deletion⟩, []), (⟨2, 2, .deletion⟩, [])]

/-- The snapshot still reads the value below the deletion. -/
theorem compaction_preserves_valueAt_bottommost :
    valueAt 1 5 ((output { snapshots := [5], compaction := some bottommostExample }
      exampleInput).1 ++ []) = some [7] :=
  (compaction_preserves_valueAt (c := bottommostExample) rfl
    ⟨pairwise_singleton _ _, by decide, by decide⟩ rfl (by decide) (by decide) (by decide)
    nofun).2.1 1 5 (.inl (.head _))

end CompactionVisible
