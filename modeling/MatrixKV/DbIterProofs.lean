import MatrixKV.CompactionKeyProofs

/-! # DBIter — a forward read of one user key

    `DBIter::Seek` positions the internal iterator before what the reader may see of
    the key and leaves the rest to `FindNextUserEntryInternal`, which goes over the
    entries, skips hidden ones, reseeks when it has skipped too many in a row, and
    hands merge operands to `MergeValuesNewToOld`.

    * `find` is the loop of `FindNextUserEntryInternal` with its reseeks; `read` is
      what the iterator shows for a user key after `Seek`.
    * `readFrom` is what a reader makes of the visible entries of one key.
    * `find_eq_scan` — the reseeks only save steps.
    * **`read_eq`** — the iterator returns, with what `readFrom` says. -/

namespace DbIter

open List DbFormat TableGet CompactionIterator CompactionKey

variable {K : Type} [LinearOrder K]

/-! ## The iterator -/

/-- What a `DBIter` is made with.  There is no read callback, no bound and no limit on
    the keys it may skip. -/
structure Reader (K : Type) where
  sequence : Nat
  maxSkip : Nat
  /-- what was added to `range_del_agg_` -/
  tombstones : List (Tombstone K)
  mergeOperator : Option (MergeHelper K)

/-- A newer tombstone that is visible at `s` covers the key. -/
def covered (tombstones : List (Tombstone K)) (s : Nat) (key : InternalKey K) : Bool :=
  tombstones.any (fun t =>
    decide (t.start ≤ key.userKey ∧ key.userKey < t.fin ∧ key.sequence < t.seq ∧ t.seq ≤ s))

/-- `ReadRangeDelAggregator::ShouldDelete` -/
def Reader.shouldDelete (it : Reader K) (key : InternalKey K) : Bool :=
  covered it.tombstones it.sequence key

/-- The state the iterator is left in: not valid, at an entry, or with a status. -/
inductive Answer (K : Type)
  | invalid
  | entry (key : K) (value : Bytes)
  | fail (status : Status)
  deriving DecidableEq, Repr

/-- `TimedFullMerge` at the end of a merge.  The operands are given newest first. -/
def timedFullMerge (op : MergeHelper K) (k : K) (base : Option Bytes) (acc : List Bytes) :
    Answer K :=
  match op.fullMergeV2 k base acc.reverse with
  | none => .fail .corruption
  | some v => .entry k v

/-- The loop of `MergeValuesNewToOld`. -/
def mergeValues (it : Reader K) (op : MergeHelper K) (k : K) :
    List Bytes → List (Entry K) → Answer K
  | acc, [] => timedFullMerge op k none acc
  | acc, e :: es =>
    if e.1.userKey ≠ k then timedFullMerge op k none acc
    else if e.1.type = .deletion ∨ e.1.type = .singleDeletion ∨ it.shouldDelete e.1 = true then
      timedFullMerge op k none acc
    else
      match e.1.type with
      | .value => timedFullMerge op k (some e.2) acc
      | .merge => mergeValues it op k (acc ++ [e.2]) es
      | .blobIndex => .fail .notSupported
      | _ => mergeValues it op k acc es

/-- `MergeValuesNewToOld` from the operand `e` on. -/
def mergeValuesNewToOld (it : Reader K) (e : Entry K) (es : List (Entry K)) : Answer K :=
  match it.mergeOperator with
  | none => .fail .invalidArgument
  | some op => mergeValues it op e.1.userKey [e.2] es

/-- What the loop of `FindNextUserEntryInternal` does with an entry. -/
inductive Turn (K : Type)
  /-- it is skipped, and counted -/
  | skip
  /-- it hides the older entries of its key -/
  | hide
  /-- it is the first one of its key and too new -/
  | pass
  /-- a type that does not occur -/
  | ignore
  | done (a : Answer K)

/-- One turn of the loop, with `saved_key_` and `skipping`. -/
def turn (it : Reader K) (savedKey : K) (skipping : Bool) (e : Entry K) (es : List (Entry K)) :
    Turn K :=
  if e.1.sequence ≤ it.sequence then
    if skipping = true ∧ e.1.userKey ≤ savedKey then .skip
    else
      match e.1.type with
      | .deletion | .singleDeletion => .hide
      | .value => if it.shouldDelete e.1 then .hide else .done (.entry e.1.userKey e.2)
      | .blobIndex => if it.shouldDelete e.1 then .hide else .done (.fail .notSupported)
      | .merge => if it.shouldDelete e.1 then .hide else .done (mergeValuesNewToOld it e es)
      | .rangeDeletion => .ignore
  else if e.1.userKey = savedKey ∨ skipping = true ∧ e.1.userKey ≤ savedKey then .skip
  else .pass

/-- `InternalIterator::Seek` in a sorted list. -/
def seek (all : List (Entry K)) (target : InternalKey K) : List (Entry K) :=
  all.dropWhile (fun e => decide (e.1.rank < target.rank))

structure Position (K : Type) where
  /-- what `iter_` has in front of it -/
  rest : List (Entry K)
  savedKey : K
  skipping : Bool
  numSkipped : Nat

/-- Where a reseek goes: behind the entries of the key, or to those the reader sees. -/
def Position.target (p : Position K) (it : Reader K) : InternalKey K :=
  if p.skipping then ⟨p.savedKey, 0, .deletion⟩ else ⟨p.savedKey, it.sequence, valueTypeForSeek⟩

/-- The end of a turn: `Next`, or a reseek when too many entries in a row were skipped. -/
def Position.next (p : Position K) (it : Reader K) (all : List (Entry K)) (e : Entry K)
    (es : List (Entry K)) : Turn K → Position K
  | .skip =>
    if p.numSkipped + 1 > it.maxSkip then
      { p with rest := seek all (p.target it), numSkipped := 0 }
    else { p with rest := es, numSkipped := p.numSkipped + 1 }
  | .hide => ⟨es, e.1.userKey, true, 0⟩
  | .pass => ⟨es, e.1.userKey, false, 0⟩
  | .ignore => { p with rest := es, numSkipped := 0 }
  | .done _ => p

/-- The loop of `FindNextUserEntryInternal`; none when the fuel is used up. -/
def find (it : Reader K) (all : List (Entry K)) : Nat → Position K → Option (Answer K)
  | 0, _ => none
  | fuel + 1, p =>
    match p.rest with
    | [] => some .invalid
    | e :: es =>
      match turn it p.savedKey p.skipping e es with
      | .done a => some a
      | t => find it all fuel (p.next it all e es t)

/-- The value shown for the key. -/
def Answer.valueOf (k : K) : Answer K → Option Bytes
  | .entry key v => if key = k then some v else none
  | _ => none

/-- `DBIter::Seek` to the key, and the value there. -/
def read (it : Reader K) (all : List (Entry K)) (k : K) : Option (Option Bytes) :=
  (find it all ((all.length + 1) * (all.length + 1))
    ⟨seek all ⟨k, it.sequence, valueTypeForSeek⟩, k, false, 0⟩).map (Answer.valueOf k)

/-! ## The loop without reseeks -/

/-- The loop when `max_skip_` is never reached. -/
def scan (it : Reader K) : K → Bool → List (Entry K) → Answer K
  | _, _, [] => .invalid
  | savedKey, skipping, e :: es =>
    match turn it savedKey skipping e es with
    | .done a => a
    | .skip => scan it savedKey skipping es
    | .hide => scan it e.1.userKey true es
    | .pass => scan it e.1.userKey false es
    | .ignore => scan it savedKey skipping es

variable {target : InternalKey K}

section Scan

variable {it : Reader K} {all es rest : List (Entry K)} {e : Entry K} {saved : K} {skipping : Bool}

theorem scan_skip (h : turn it saved skipping e es = .skip) :
    scan it saved skipping (e :: es) = scan it saved skipping es := by
  simp only [scan, h]

/-- Entries up to the saved key are skipped while skipping. -/
theorem turn_of_skipping (hle : e.1.userKey ≤ saved) (es : List (Entry K)) :
    turn it saved true e es = .skip := by
  rw [turn]
  split
  · rw [if_pos ⟨rfl, hle⟩]
  · rw [if_pos (.inr ⟨rfl, hle⟩)]

theorem scan_skipping (h : ∀ n ∈ es, n.1.userKey ≤ saved) (rest : List (Entry K)) :
    scan it saved true (es ++ rest) = scan it saved true rest := by
  induction es with
  | nil => rfl
  | cons n ns ih =>
    rw [cons_append, scan_skip (turn_of_skipping (h n (.head _)) _)]
    exact ih fun m hm => h m (.tail n hm)

/-- Entries of the saved key that are too new are skipped. -/
theorem scan_too_new (h : ∀ n ∈ es, n.1.userKey = saved ∧ it.sequence < n.1.sequence)
    (rest : List (Entry K)) : scan it saved false (es ++ rest) = scan it saved false rest := by
  induction es with
  | nil => rfl
  | cons n ns ih =>
  obtain ⟨hkey, hlt⟩ := h n (.head _)
  have hturn : turn it saved false n (ns ++ rest) = .skip := by
    rw [turn, if_neg (by omega), if_pos (.inl hkey)]
  rw [cons_append, scan_skip hturn]
  exact ih fun m hm => h m (.tail n hm)

/-- Why an entry is skipped. -/
theorem turn_skip_cases (h : turn it saved skipping e es = .skip) :
    skipping = true ∧ e.1.userKey ≤ saved ∨
      skipping = false ∧ e.1.userKey = saved ∧ it.sequence < e.1.sequence := by
  rw [turn] at h
  split at h
  · split at h
    · rename_i hskip
      exact .inl hskip
    · split at h
      all_goals try split at h
      all_goals exact nomatch h
  rename_i hnew
  split at h
  · rename_i hskip
    cases skipping with
    | true =>
      refine .inl ⟨rfl, ?_⟩
      rcases hskip with hkey | hle
      · exact hkey.le
      · exact hle.2
    | false =>
    refine .inr ⟨rfl, ?_, by omega⟩
    rcases hskip with hkey | hle
    · exact hkey
    · exact nomatch hle.1
  · exact nomatch h

theorem seek_cons_of_lt (h : e.1.rank < target.rank) (es : List (Entry K)) :
    seek (e :: es) target = seek es target :=
  dropWhile_cons_of_pos (by rw [decide_eq_true_eq]; exact h)

theorem seek_cons_of_not_lt (h : ¬ e.1.rank < target.rank) (es : List (Entry K)) :
    seek (e :: es) target = e :: es :=
  dropWhile_cons_of_neg (by rw [decide_eq_true_eq]; exact h)

theorem seek_of_lt (h : ∀ n ∈ es, n.1.rank < target.rank) (rest : List (Entry K)) :
    seek (es ++ rest) target = seek rest target := by
  induction es with
  | nil => rfl
  | cons n ns ih =>
    rw [cons_append, seek_cons_of_lt (h n (.head _))]
    exact ih fun m hm => h m (.tail n hm)

theorem seek_append (es : List (Entry K)) (h : ∀ n ∈ rest, ¬ n.1.rank < target.rank) :
    seek (es ++ rest) target = seek es target ++ rest := by
  induction es with
  | nil =>
    cases rest with
    | nil => rfl
    | cons n ns => exact seek_cons_of_not_lt (h n (.head _)) ns
  | cons n ns ih =>
  rw [cons_append]
  by_cases hlt : n.1.rank < target.rank
  · rw [seek_cons_of_lt hlt, seek_cons_of_lt hlt, ih]
  · rw [seek_cons_of_not_lt hlt, seek_cons_of_not_lt hlt, cons_append]

/-- What a seek passes stands before its target. -/
theorem seek_passes (es : List (Entry K)) (target : InternalKey K) :
    ∃ passed, es = passed ++ seek es target ∧ ∀ n ∈ passed, n.1.rank < target.rank := by
  refine ⟨es.takeWhile (fun e => decide (e.1.rank < target.rank)),
    (takeWhile_append_dropWhile).symm, fun n hn => ?_⟩
  have hlt := mem_takeWhile_imp hn
  exact of_decide_eq_true hlt

/-- The target of a reseek while skipping stands behind all other entries of the key. -/
theorem rank_le_target {key : InternalKey K} (h : key.userKey ≤ saved) :
    key.rank ≤ (⟨saved, 0, .deletion⟩ : InternalKey K).rank := by
  rw [rank_le_iff]
  rcases lt_or_eq_of_le h with hlt | heq
  · exact .inl hlt
  refine .inr ⟨heq, ?_⟩
  show 0 * 256 + 0 ≤ key.packed
  exact Nat.zero_le _

/-- Deletions numbered 0 are passed without a reseek, if there are not too many. -/
theorem find_pass {ds tail : List (Entry K)} (hds : ∀ d ∈ ds, d.1.userKey ≤ saved) (m fuel : Nat)
    (hle : m + ds.length ≤ it.maxSkip) :
    find it all (fuel + ds.length) ⟨ds ++ tail, saved, true, m⟩ = find it all fuel
      ⟨tail, saved, true, m + ds.length⟩ := by
  induction ds generalizing m fuel with
  | nil => rfl
  | cons d ds ih =>
  rw [length_cons] at hle
  have hturn : turn it saved true d (ds ++ tail) = .skip :=
    turn_of_skipping (hds d (.head _)) (ds ++ tail)
  rw [length_cons, ← Nat.add_assoc, cons_append]
  simp only [find, hturn, Position.next]
  rw [if_neg (by omega), ih (fun n hn => hds n (.tail d hn)) (m + 1) fuel
    (by omega), Nat.add_assoc m 1, Nat.add_comm 1]

/-- **RESEEKS** while skipping go to entries that would be skipped, or behind them. -/
theorem scan_seek_skipping (es : List (Entry K)) :
    scan it saved true (seek es ⟨saved, 0, .deletion⟩) = scan it saved true es := by
  obtain ⟨passed, hes, hpassed⟩ := seek_passes es ⟨saved, 0, .deletion⟩
  generalize seek es ⟨saved, 0, .deletion⟩ = rest at hes
  rw [hes, scan_skipping]
  exact fun n hn => userKey_le_of_rank_le (hpassed n hn).le

/-- A reseek to the entries that the reader sees. -/
theorem scan_seek_visible (hsorted : (e :: es).Pairwise (fun a b => a.1.rank ≤ b.1.rank))
    (hkey : e.1.userKey = saved) :
    scan it saved false (seek es ⟨saved, it.sequence, valueTypeForSeek⟩)
      = scan it saved false es := by
  obtain ⟨passed, hes, hpassed⟩ := seek_passes es ⟨saved, it.sequence, valueTypeForSeek⟩
  generalize seek es ⟨saved, it.sequence, valueTypeForSeek⟩ = rest at hes
  rw [hes, scan_too_new]
  intro n hn
  have hle := userKey_le_of_rank_le
    ((pairwise_cons.mp hsorted).1 n (hes ▸ mem_append_left rest hn))
  have hnot : ¬ (⟨saved, it.sequence⟩ : LookupKey K).internalKey.rank ≤ n.1.rank :=
    not_le_of_gt (hpassed n hn)
  rw [internalKey_rank_le_iff] at hnot
  rw [hkey] at hle
  have heq : n.1.userKey = saved :=
    le_antisymm (le_of_not_gt fun hlt => hnot (.inl hlt)) hle
  exact ⟨heq, Nat.lt_of_not_le fun hseq => hnot (.inr ⟨heq.symm, hseq⟩)⟩

theorem seek_not_lt (hsorted : es.Pairwise (fun a b => a.1.rank ≤ b.1.rank))
    (target : InternalKey K) : ∀ n ∈ seek es target, ¬ n.1.rank < target.rank := by
  induction es with
  | nil => intro n hn; exact nomatch hn
  | cons e es ih =>
  obtain ⟨he, hes⟩ := pairwise_cons.mp hsorted
  by_cases hlt : e.1.rank < target.rank
  · rw [seek_cons_of_lt hlt]
    exact ih hes
  rw [seek_cons_of_not_lt hlt]
  intro n hn
  rcases mem_cons.mp hn with rfl | hn
  · exact hlt
  · exact fun hn' => hlt ((he n hn).trans_lt hn')

/-- A deletion numbered 0 is where the reseek goes.  It is passed with those before it. -/
theorem find_of_zero {before : List (Entry K)} (fuel : Nat)
    (hsorted : all.Pairwise (fun a b => a.1.rank ≤ b.1.rank))
    (hends : ∀ k, all.countP (fun e => decide (e.1 = ⟨k, 0, .deletion⟩)) ≤ it.maxSkip)
    (hall : all = before ++ e :: es)
    (he : e.1.rank = (⟨saved, 0, .deletion⟩ : InternalKey K).rank) (hfuel : all.length ≤ fuel) :
    ∃ d ≤ all.length, find it all fuel ⟨seek all ⟨saved, 0, .deletion⟩, saved, true, 0⟩
      = find it all (fuel - d) ⟨es, saved, true, d⟩ := by
  have hsplit := hsorted
  rw [hall] at hsplit
  obtain ⟨hbefore, hrest, hcross⟩ := pairwise_append.mp hsplit
  obtain ⟨passed, hpassed, -⟩ := seek_passes before ⟨saved, 0, .deletion⟩
  have hmem : ∀ d ∈ seek before ⟨saved, 0, .deletion⟩, d ∈ before :=
    fun d hd => (dropWhile_suffix _).subset hd
  have hnot := seek_not_lt hbefore ⟨saved, 0, .deletion⟩
  have hseek : seek all ⟨saved, 0, .deletion⟩ = (seek before ⟨saved, 0, .deletion⟩ ++ [e])
      ++ es := by
    rw [hall, seek_append, append_assoc]
    · rfl
    intro n hn
    rw [← he, not_lt]
    rcases mem_cons.mp hn with rfl | hn
    · exact le_rfl
    · exact (pairwise_cons.mp hrest).1 n hn
  generalize seek before ⟨saved, 0, .deletion⟩ = zeros at hpassed hmem hnot hseek
  have hsame : ∀ d ∈ zeros ++ [e], d.1 = ⟨saved, 0, .deletion⟩ := by
    intro d hd
    refine rank_injective ?_
    rcases mem_append.mp hd with hd | hd
    · exact le_antisymm (he ▸ hcross d (hmem d hd) e (.head _)) (le_of_not_gt (hnot d hd))
    · rw [mem_singleton.mp hd, he]
  have hsplit : all = passed ++ ((zeros ++ [e]) ++ es) := by
    rw [hall, hpassed, append_assoc, append_assoc]
    rfl
  have hcount : (zeros ++ [e]).length ≤ it.maxSkip := by
    have hsaved := hends saved
    have hzeros := countP_eq_length.mpr fun d hd =>
      (decide_eq_true (hsame d hd) : decide (d.1 = ⟨saved, 0, .deletion⟩) = true)
    rw [hsplit, countP_append, countP_append, hzeros] at hsaved
    omega
  have hlen : (zeros ++ [e]).length ≤ all.length := by
    rw [hsplit]
    simp only [length_append]
    omega
  refine ⟨(zeros ++ [e]).length, hlen, ?_⟩
  rw [hseek]
  have hpass : find it all (fuel - (zeros ++ [e]).length + (zeros ++ [e]).length)
      ⟨(zeros ++ [e]) ++ es, saved, true, 0⟩ = _ :=
    find_pass (fun d hd => (congrArg InternalKey.userKey (hsame d hd)).le) 0 _ (by omega)
  rw [Nat.sub_add_cancel (by omega), Nat.zero_add] at hpass
  exact hpass

/-- **THE LOOP ENDS**, with the answer of the loop without reseeks.  Deletions numbered 0
    stand where a reseek goes, so there must not be more than `max_skip_` of a key. -/
theorem find_eq_scan (hsorted : all.Pairwise (fun a b => a.1.rank ≤ b.1.rank))
    (hends : ∀ k, all.countP (fun e => decide (e.1 = ⟨k, 0, .deletion⟩)) ≤ it.maxSkip) :
    ∀ (n : Nat) (p : Position K) (fuel : Nat), p.rest.length ≤ n → p.rest <:+ all →
      p.rest.length * (all.length + 1) + 1 ≤ fuel →
      find it all fuel p = some (scan it p.savedKey p.skipping p.rest) := by
  intro n
  induction n with
  | zero =>
    rintro ⟨rest, saved, skipping, num⟩ fuel hlen _ hfuel
    obtain rfl : rest = [] := eq_nil_of_length_eq_zero (Nat.le_zero.mp hlen)
    obtain ⟨fuel, rfl⟩ := Nat.exists_eq_succ_of_ne_zero (by omega : fuel ≠ 0)
    rfl
  | succ n ih =>
  rintro ⟨rest, saved, skipping, num⟩ fuel hlen hsuffix hfuel
  obtain ⟨fuel, rfl⟩ := Nat.exists_eq_succ_of_ne_zero (by omega : fuel ≠ 0)
  cases rest with
  | nil => rfl
  | cons e es =>
  simp only [length_cons] at hlen hfuel
  rw [Nat.succ_mul] at hfuel
  have hes : es <:+ all := (suffix_cons e es).trans hsuffix
  have ih : ∀ (p : Position K), p.rest <:+ es → ∀ fuel,
      es.length * (all.length + 1) + 1 ≤ fuel →
      find it all fuel p = some (scan it p.savedKey p.skipping p.rest) := by
    intro p h fuel hf
    have hle := h.length_le
    refine ih p fuel (by omega) (h.trans hes) (Nat.le_trans ?_ hf)
    exact Nat.succ_le_succ (Nat.mul_le_mul_right _ hle)
  cases hturn : turn it saved skipping e es with
  | done a => simp only [find, scan, hturn]
  | hide =>
    simp only [find, scan, hturn, Position.next]
    exact ih ⟨es, _, _, _⟩ (suffix_refl es) fuel (by omega)
  | pass =>
    simp only [find, scan, hturn, Position.next]
    exact ih ⟨es, _, _, _⟩ (suffix_refl es) fuel (by omega)
  | ignore =>
    simp only [find, scan, hturn, Position.next]
    exact ih ⟨es, _, _, _⟩ (suffix_refl es) fuel (by omega)
  | skip =>
  simp only [find, scan, hturn, Position.next]
  split_ifs with hnum
  · obtain ⟨before, hall⟩ := hsuffix
    have hsplit := hsorted
    rw [← hall] at hsplit
    obtain ⟨-, hrest, hcross⟩ := pairwise_append.mp hsplit
    have hbefore : ∀ n ∈ before, n.1.rank ≤ e.1.rank :=
      fun n hn => hcross n hn e (.head _)
    -- a target behind `e` is looked for behind `e`
    have hseek : ∀ target : InternalKey K, e.1.rank < target.rank →
        seek all target = seek es target := by
      intro target hlt
      rw [← hall, seek_of_lt fun n hn => (hbefore n hn).trans_lt hlt, seek_cons_of_lt hlt]
    rcases turn_skip_cases hturn with ⟨rfl, hle⟩ | ⟨rfl, hkey, hnew⟩
    · show find it all fuel ⟨seek all ⟨saved, 0, .deletion⟩, saved, true, 0⟩ = _
      rcases lt_or_eq_of_le (rank_le_target hle) with hlt | heq
      · rw [hseek _ hlt, ih ⟨seek es _, _, _, _⟩ (dropWhile_suffix _) fuel (by omega),
          scan_seek_skipping]
      obtain ⟨d, hd, hzero⟩ :=
        find_of_zero fuel hsorted hends hall.symm heq (by omega)
      rw [hzero]
      exact ih ⟨es, _, _, _⟩ (suffix_refl es) _ (by omega)
    show find it all fuel
      ⟨seek all ⟨saved, it.sequence, valueTypeForSeek⟩, saved, false, 0⟩ = _
    have hlt : e.1.rank
        < (⟨saved, it.sequence, valueTypeForSeek⟩ : InternalKey K).rank := by
      refine lt_of_not_ge fun (hge : (⟨saved, it.sequence⟩ : LookupKey K).internalKey.rank
        ≤ e.1.rank) => ?_
      rcases (internalKey_rank_le_iff _ _).mp hge with hlt | ⟨-, hseq⟩
      · exact absurd hkey.symm (ne_of_lt hlt)
      · exact absurd hseq (Nat.not_le_of_lt hnew)
    rw [hseek _ hlt, ih ⟨seek es _, _, _, _⟩ (dropWhile_suffix _) fuel (by omega),
      scan_seek_visible hrest hkey]
  · exact ih ⟨es, _, _, _⟩ (suffix_refl es) fuel (by omega)

end Scan

/-! ## One key -/

/-- The base under the collected operands, newest first. -/
def mergedValue (op : MergeHelper K) (k : K) (base : Option Bytes) (acc : List Bytes) :
    Option Bytes :=
  if acc = [] then base else op.fullMergeV2 k base acc.reverse

/-- What a reader makes of the entries of a key that it sees, with the operands `acc` above
    them. -/
def readFrom (covered : InternalKey K → Bool) (op : MergeHelper K) (k : K) :
    List Bytes → List (Entry K) → Option Bytes
  | acc, [] => mergedValue op k none acc
  | acc, e :: es =>
    if covered e.1 then mergedValue op k none acc
    else if e.1.type = .value then mergedValue op k (some e.2) acc
    else if e.1.type = .merge then readFrom covered op k (acc ++ [e.2]) es
    else mergedValue op k none acc

/-- The entries of the key that the reader sees. -/
def visibleOf (s : Nat) (k : K) (all : List (Entry K)) : List (Entry K) :=
  all.filter (fun e => decide (e.1.userKey = k ∧ e.1.sequence ≤ s))

/-- The types of entries that a column family without single deletions has. -/
def Plain (e : Entry K) : Prop := e.1.type = .value ∨ e.1.type = .deletion ∨ e.1.type = .merge

instance (e : Entry K) : Decidable (Plain e) := inferInstanceAs (Decidable (_ ∨ _))

section Read

variable {it : Reader K} {op : MergeHelper K} {k : K}

theorem timedFullMerge_valueOf (base : Option Bytes) (acc : List Bytes) :
    (timedFullMerge op k base acc).valueOf k = op.fullMergeV2 k base acc.reverse := by
  rw [timedFullMerge]
  cases op.fullMergeV2 k base acc.reverse with
  | none => rfl
  | some v => exact if_pos rfl

theorem timedFullMerge_valueOf_ne {key : K} (h : key ≠ k) (base : Option Bytes) (acc : List Bytes) :
    (timedFullMerge op key base acc).valueOf k = none := by
  rw [timedFullMerge]
  split
  · rfl
  · exact if_neg h

theorem mergeValues_valueOf_ne {key : K} (h : key ≠ k) (rest : List (Entry K)) :
    ∀ acc, (mergeValues it op key acc rest).valueOf k = none := by
  induction rest with
  | nil => exact timedFullMerge_valueOf_ne h none
  | cons e es ih =>
  intro acc
  rw [mergeValues]
  split
  · exact timedFullMerge_valueOf_ne h none acc
  split
  · exact timedFullMerge_valueOf_ne h none acc
  split
  · exact timedFullMerge_valueOf_ne h (some e.2) acc
  · exact ih (acc ++ [e.2])
  · rfl
  · exact ih acc

/-- The iterator shows only the key of an entry it stopped at. -/
theorem turn_done_valueOf_ne {e : Entry K} (h : e.1.userKey ≠ k) {saved : K} {skipping : Bool}
    {es : List (Entry K)} {a : Answer K} (hturn : turn it saved skipping e es = .done a) :
    a.valueOf k = none := by
  rw [turn] at hturn
  split at hturn
  · split at hturn
    · exact nomatch hturn
    · split at hturn
      · exact nomatch hturn
      · exact nomatch hturn
      · split at hturn
        · exact nomatch hturn
        · cases hturn
          exact if_neg h
      · split at hturn
        · exact nomatch hturn
        · cases hturn
          rfl
      · split at hturn
        · exact nomatch hturn
        · cases hturn
          rw [mergeValuesNewToOld]
          split
          · rfl
          · exact mergeValues_valueOf_ne h es _
      · exact nomatch hturn
  · split at hturn <;> exact nomatch hturn

theorem valueOf_scan_of_ne (rest : List (Entry K)) (h : ∀ n ∈ rest, n.1.userKey ≠ k) :
    ∀ saved skipping, (scan it saved skipping rest).valueOf k = none := by
  induction rest with
  | nil => intro saved skipping; rfl
  | cons e es ih =>
  intro saved skipping
  have ih := ih fun n hn => h n (.tail e hn)
  cases hturn : turn it saved skipping e es with
  | done a =>
    simp only [scan, hturn]
    exact turn_done_valueOf_ne (h e (.head _)) hturn
  | skip | hide | pass | ignore =>
    simp only [scan, hturn]
    exact ih _ _

/-- The operands of a key are read as `readFrom` reads them. -/
theorem mergeValues_valueOf {rest : List (Entry K)} (hrest : ∀ n ∈ rest, n.1.userKey ≠ k)
    (es : List (Entry K)) (hes : ∀ n ∈ es, n.1.userKey = k ∧ Plain n) :
    ∀ acc, acc ≠ [] → (mergeValues it op k acc (es ++ rest)).valueOf k
      = readFrom it.shouldDelete op k acc es := by
  have hfull : ∀ base acc, acc ≠ [] →
      (timedFullMerge op k base acc).valueOf k = mergedValue op k base acc := by
    intro base acc hacc
    rw [timedFullMerge_valueOf, mergedValue, if_neg hacc]
  induction es with
  | nil =>
    intro acc hacc
    cases rest with
    | nil => exact hfull none acc hacc
    | cons n ns =>
      rw [nil_append, mergeValues, if_pos (hrest n (.head _))]
      exact hfull none acc hacc
  | cons e es ih =>
  intro acc hacc
  obtain ⟨hkey, hplain⟩ := hes e (.head _)
  have ih := ih fun n hn => hes n (.tail e hn)
  rw [cons_append, mergeValues, if_neg (fun h => h hkey), readFrom]
  by_cases hcov : it.shouldDelete e.1 = true
  · rw [if_pos (.inr (.inr hcov)), if_pos hcov]
    exact hfull none acc hacc
  rw [if_neg hcov]
  rcases hplain with htype | htype | htype
  · simp only [htype, hcov]
    exact hfull (some e.2) acc hacc
  · rw [if_pos (.inl htype), htype]
    exact hfull none acc hacc
  · simp only [htype, hcov]
    exact ih _ (by simp)

/-- The first entry of the key that the reader sees decides. -/
theorem scan_valueOf (hop : it.mergeOperator = some op) {rest : List (Entry K)}
    (hrest : ∀ n ∈ rest, n.1.userKey ≠ k) {es : List (Entry K)}
    (hes : ∀ n ∈ es, (n.1.userKey = k ∧ Plain n) ∧ n.1.sequence ≤ it.sequence) :
    (scan it k false (es ++ rest)).valueOf k = readFrom it.shouldDelete op k [] es := by
  cases es with
  | nil => exact valueOf_scan_of_ne rest hrest k false
  | cons e es =>
  obtain ⟨⟨hkey, hplain⟩, hseq⟩ := hes e (.head _)
  have hes' := fun n hn => (hes n (.tail e hn)).1
  -- a hidden key shows nothing
  have hhide : turn it k false e (es ++ rest) = .hide →
      (scan it k false (e :: (es ++ rest))).valueOf k = none := by
    intro hturn
    simp only [scan, hturn]
    rw [hkey, scan_skipping fun n hn => le_of_eq (hes' n hn).1]
    exact valueOf_scan_of_ne rest hrest k true
  have hdone : ∀ a, turn it k false e (es ++ rest) = .done a →
      scan it k false (e :: (es ++ rest)) = a := by
    intro a hturn
    simp only [scan, hturn]
  rw [cons_append, readFrom]
  split
  · rename_i hcov
    refine hhide ?_
    rcases hplain with htype | htype | htype <;> simp [turn, hseq, htype, hcov]
  rename_i hcov
  rcases hplain with htype | htype | htype
  · rw [hdone (.entry e.1.userKey e.2) (by simp [turn, hseq, htype, hcov]), if_pos htype]
    exact if_pos hkey
  · rw [hhide (by simp [turn, hseq, htype]), htype]
    rfl
  · rw [hdone (mergeValuesNewToOld it e (es ++ rest)) (by simp [turn, hseq, htype, hcov]),
      mergeValuesNewToOld, hop, htype]
    rw [hkey]
    exact mergeValues_valueOf hrest es hes' [e.2] (by simp)

/-- A seek finds what the reader sees of the key, and later keys. -/
theorem seek_eq_visible {all : List (Entry K)}
    (hsorted : all.Pairwise (fun a b => a.1.rank ≤ b.1.rank)) (s : Nat) (k : K) :
    ∃ later, seek all ⟨k, s, valueTypeForSeek⟩ = visibleOf s k all ++ later ∧
      ∀ n ∈ later, n.1.userKey ≠ k := by
  have hbefore : ∀ key : InternalKey K, ¬ key.rank <
      (⟨k, s, valueTypeForSeek⟩ : InternalKey K).rank ↔
      k < key.userKey ∨ k = key.userKey ∧ key.sequence ≤ s := fun key =>
    Iff.trans not_lt (internalKey_rank_le_iff ⟨k, s⟩ key)
  induction all with
  | nil => exact ⟨[], rfl, forall_mem_nil _⟩
  | cons e es ih =>
  obtain ⟨he, hes⟩ := pairwise_cons.mp hsorted
  by_cases hlt : e.1.rank < (⟨k, s, valueTypeForSeek⟩ : InternalKey K).rank
  · obtain ⟨later, hseek, hlater⟩ := ih hes
    refine ⟨later, ?_, hlater⟩
    have hnot : ¬ (e.1.userKey = k ∧ e.1.sequence ≤ s) := fun h =>
      (hbefore e.1).mpr (.inr ⟨h.1.symm, h.2⟩) hlt
    rw [seek_cons_of_lt hlt, hseek, visibleOf, visibleOf,
      filter_cons_of_neg (by rw [decide_eq_true_eq]; exact hnot)]
  have hall : ∀ n ∈ e :: es, k < n.1.userKey ∨ k = n.1.userKey ∧ n.1.sequence ≤ s := by
    intro n hn
    rw [← hbefore]
    rcases mem_cons.mp hn with rfl | hn
    · exact hlt
    · exact fun h => hlt ((he n hn).trans_lt h)
  have hle : ∀ n ∈ e :: es, k ≤ n.1.userKey := by
    intro n hn
    rcases hall n hn with h | h
    · exact h.le
    · exact h.1.le
  have hvisible : visibleOf s k (e :: es)
      = (e :: es).filter (fun n => decide (n.1.userKey = k)) := by
    refine filter_congr fun n hn => decide_eq_decide.mpr ⟨And.left, fun h => ⟨h, ?_⟩⟩
    rcases hall n hn with hlt | heq
    · exact absurd h (ne_of_gt hlt)
    · exact heq.2
  refine ⟨(e :: es).filter (fun n => decide (n.1.userKey ≠ k)), ?_, ?_⟩
  · rw [seek_cons_of_not_lt hlt, hvisible]
    exact split_key (e :: es) hsorted hle
  · intro n hn
    exact of_decide_eq_true (mem_filter.mp hn).2

/-- **WHAT IS READ**: the iterator returns, and shows for the key what its visible entries
    come to. -/
theorem read_eq (hop : it.mergeOperator = some op) {all : List (Entry K)}
    (hsorted : all.Pairwise (fun a b => a.1.rank ≤ b.1.rank))
    (hends : ∀ k, all.countP (fun e => decide (e.1 = ⟨k, 0, .deletion⟩)) ≤ it.maxSkip)
    (hplain : ∀ e ∈ all, Plain e) (k : K) :
    read it all k = some (readFrom it.shouldDelete op k [] (visibleOf it.sequence k all)) := by
  obtain ⟨later, hseek, hlater⟩ := seek_eq_visible hsorted it.sequence k
  have hsuffix : seek all ⟨k, it.sequence, valueTypeForSeek⟩ <:+ all := dropWhile_suffix _
  have hlen := hsuffix.length_le
  have hfind := find_eq_scan hsorted hends _ ⟨seek all ⟨k, it.sequence, valueTypeForSeek⟩,
      k, false, 0⟩
    ((all.length + 1) * (all.length + 1)) le_rfl hsuffix ?_
  · rw [read, hfind, Option.map_some]
    simp only
    rw [hseek, scan_valueOf hop hlater]
    intro n hn
    obtain ⟨hmem, hcond⟩ := mem_filter.mp hn
    obtain ⟨hkey, hseq⟩ := of_decide_eq_true hcond
    exact ⟨⟨hkey, hplain n hmem⟩, hseq⟩
  · calc (seek all ⟨k, it.sequence, valueTypeForSeek⟩).length * (all.length + 1) + 1
        ≤ all.length * (all.length + 1) + (all.length + 1) :=
          Nat.add_le_add (Nat.mul_le_mul_right _ hlen) (by omega)
      _ = (all.length + 1) * (all.length + 1) := (Nat.succ_mul _ _).symm

theorem read_mk {s maxSkip : Nat} {ts : List (Tombstone K)} {all : List (Entry K)}
    (hsorted : all.Pairwise (fun a b => a.1.rank ≤ b.1.rank))
    (hends : ∀ k, all.countP (fun e => decide (e.1 = ⟨k, 0, .deletion⟩)) ≤ maxSkip)
    (hplain : ∀ e ∈ all, Plain e) (op : MergeHelper K) (k : K) :
    read ⟨s, maxSkip, ts, some op⟩ all k
      = some (readFrom (covered ts s) op k [] (visibleOf s k all)) :=
  read_eq rfl hsorted hends hplain k

end Read

end DbIter
