import MatrixKV.DbFormatProofs

/-! # Shortened index keys — util/comparator.cc, db/dbformat.cc

    `FindShortestSeparator` and `FindShortSuccessor` of the bytewise, the reverse
    bytewise and the internal-key comparator.

    * `diffIndex_spec` splits two strings behind their common first part; everything else
      is about what follows it.
    * `Separates` — a separator lies in between, a successor not before its key.
    * `separators_between` — it holds for the two user comparators and for internal keys
      over either of them. -/

namespace Separator

open List DbFormat

/-- `std::string`, by its unsigned bytes. -/
abbrev Bytes := List (Fin 256)

/-- `Slice::compare`: lexicographic by unsigned bytes, a string after its first part. -/
def sliceCompare (a b : Bytes) : Ordering := if a < b then .lt else if b < a then .gt else .eq

/-- A comparator with its two ways to shorten a key. -/
structure Comparator (κ : Type) where
  compare : κ → κ → Ordering
  findShortestSeparator : κ → κ → κ
  findShortSuccessor : κ → κ

/-- The loop that finds the length of the common first part. -/
def diffIndex : Bytes → Bytes → Nat
  | a :: start, b :: limit => if a = b then diffIndex start limit + 1 else 0
  | _, _ => 0

/-- The loop that increments the first byte below `0xff` and cuts behind it. -/
def incrementFirst : Bytes → Bytes
  | [] => []
  | byte :: rest => if byte < 0xff then [byte + 1] else byte :: incrementFirst rest

/-- `BytewiseComparatorImpl`. -/
def bytewise : Comparator Bytes where
  compare := sliceCompare
  findShortestSeparator start limit :=
    let diff := diffIndex start limit
    match start[diff]?, limit[diff]? with
    | some startByte, some limitByte =>
      if startByte ≥ limitByte then start
      else if diff < limit.length - 1 ∨ startByte.val + 1 < limitByte.val then
        start.take diff ++ [startByte + 1]
      else start.take (diff + 1) ++ incrementFirst (start.drop (diff + 1))
    | _, _ => start
  findShortSuccessor := incrementFirst

/-- `ReverseBytewiseComparatorImpl`. -/
def reverseBytewise : Comparator Bytes where
  compare a b := (sliceCompare a b).swap
  findShortestSeparator start limit :=
    let diff := diffIndex start limit
    match start[diff]?, limit[diff]? with
    | some startByte, some limitByte =>
      if startByte > limitByte ∧ diff < start.length - 1 then start.take (diff + 1) else start
    | _, _ => start
  findShortSuccessor key := key

/-- The earliest internal key of a user key that got shorter and larger. -/
def shortened (user : Comparator Bytes) (key : InternalKey Bytes) (tmp : Bytes) :
    InternalKey Bytes :=
  if tmp.length ≤ key.userKey.length ∧ user.compare key.userKey tmp = .lt then
    ⟨tmp, maxSequenceNumber, valueTypeForSeek⟩
  else key

/-- `InternalKeyComparator` over a user comparator. -/
def internal (user : Comparator Bytes) : Comparator (InternalKey Bytes) where
  compare a b :=
    match user.compare a.userKey b.userKey with
    | .eq => if a.packed > b.packed then .lt else if a.packed < b.packed then .gt else .eq
    | r => r
  findShortestSeparator start limit :=
    shortened user start (user.findShortestSeparator start.userKey limit.userKey)
  findShortSuccessor key := shortened user key (user.findShortSuccessor key.userKey)

/-- **A SHORTENED KEY STAYS IN PLACE**: a separator is not before its start and before its
    limit, a successor not before its key. -/
structure Separates {κ : Type} (c : Comparator κ) : Prop where
  separator : ∀ start limit, c.compare start limit = .lt →
    c.compare start (c.findShortestSeparator start limit) ≠ .gt ∧
      c.compare (c.findShortestSeparator start limit) limit = .lt
  successor : ∀ key, c.compare key (c.findShortSuccessor key) ≠ .gt

/-! ## Byte strings -/

theorem diffIndex_spec (start limit : Bytes) : ∃ common s l, start = common ++ s ∧
    limit = common ++ l ∧ diffIndex start limit = common.length := by
  fun_induction diffIndex start limit with
  | case1 start a limit ih =>
    obtain ⟨common, s, l, rfl, rfl, hdiff⟩ := ih
    exact ⟨a :: common, s, l, rfl, rfl, congrArg (· + 1) hdiff⟩
  | case2 a start b limit _ => exact ⟨[], a :: start, b :: limit, rfl, rfl, rfl⟩
  | case3 start limit _ => exact ⟨[], start, limit, rfl, rfl, rfl⟩

theorem val_add_one (byte : Fin 256) (h : byte.val < 255) : (byte + 1).val = byte.val + 1 :=
  Fin.val_add_one_of_lt (Fin.lt_def.mpr h)

theorem incrementFirst_not_lt (key : Bytes) : ¬ incrementFirst key < key := by
  fun_induction incrementFirst key with
  | case1 => exact lt_irrefl _
  | case2 byte rest h =>
    have hval := val_add_one byte h
    simp only [cons_lt_cons_iff, Fin.lt_def, Fin.ext_iff]
    omega
  | case3 byte rest _ ih => simpa [cons_lt_cons_iff] using ih

@[simp] theorem append_lt_append_iff (common a b : Bytes) : common ++ a < common ++ b ↔ a < b := by
  induction common with
  | nil => rfl
  | cons c common ih => simp [ih]

section Cut

variable (common s : Bytes) (byte : Fin 256)

@[simp] theorem take_common_add_one :
    (common ++ byte :: s).take (common.length + 1) = common ++ [byte] := by
  simp [take_append, take_of_length_le]

@[simp] theorem drop_common_add_one : (common ++ byte :: s).drop (common.length + 1) = s := by
  simp [drop_append]

end Cut

theorem bytewise_separator {start limit : Bytes} (h : start < limit) :
    ¬ bytewise.findShortestSeparator start limit < start ∧
      bytewise.findShortestSeparator start limit < limit := by
  obtain ⟨common, s, l, rfl, rfl, hdiff⟩ := diffIndex_spec start limit
  simp only [bytewise, hdiff, getElem?_append_right le_rfl, Nat.sub_self]
  split
  · rename_i startByte limitByte hs hl
    obtain ⟨s, rfl⟩ := head?_eq_some_iff.mp (head?_eq_getElem?.trans hs)
    obtain ⟨l, rfl⟩ := head?_eq_some_iff.mp (head?_eq_getElem?.trans hl)
    split_ifs with hge hfits
    · exact ⟨lt_irrefl _, h⟩
    · -- the incremented byte is below the other one, or equal with more bytes behind that
      have hlt := Fin.lt_def.mp (not_le.mp hge)
      have hval := val_add_one startByte (by omega)
      rw [take_left, append_lt_append_iff, append_lt_append_iff, cons_lt_cons_iff,
        cons_lt_cons_iff, Fin.lt_def, Fin.lt_def, Fin.ext_iff, Fin.ext_iff, hval]
      refine ⟨by omega, ?_⟩
      rcases Nat.lt_or_eq_of_le hlt with hless | heq
      · exact .inl hless
      refine .inr ⟨heq, ?_⟩
      cases l with
      | nil =>
        simp only [length_append, length_singleton] at hfits
        omega
      | cons b l => exact nil_lt_cons b l
    · -- the byte stays below the other one, whatever comes behind it
      simp only [take_common_add_one, drop_common_add_one, append_assoc, singleton_append,
        append_lt_append_iff, cons_lt_cons_iff]
      refine ⟨?_, .inl (not_le.mp hge)⟩
      rintro (hlt | ⟨-, hlt⟩)
      · exact lt_irrefl _ hlt
      · exact incrementFirst_not_lt s hlt
  · exact ⟨lt_irrefl _, h⟩

/-- In reverse order the cut string comes after the whole one. -/
theorem reverse_separator {start limit : Bytes} (h : limit < start) :
    ¬ start < reverseBytewise.findShortestSeparator start limit ∧
      limit < reverseBytewise.findShortestSeparator start limit := by
  obtain ⟨common, s, l, rfl, rfl, hdiff⟩ := diffIndex_spec start limit
  simp only [reverseBytewise, hdiff, getElem?_append_right le_rfl, Nat.sub_self]
  split
  · rename_i startByte limitByte hs hl
    obtain ⟨s, rfl⟩ := head?_eq_some_iff.mp (head?_eq_getElem?.trans hs)
    obtain ⟨l, rfl⟩ := head?_eq_some_iff.mp (head?_eq_getElem?.trans hl)
    split_ifs with hgt
    · simp only [take_common_add_one, append_lt_append_iff, cons_lt_cons_iff]
      exact ⟨by simp, .inl hgt.1⟩
    · exact ⟨lt_irrefl _, h⟩
  · exact ⟨lt_irrefl _, h⟩

/-! ## The comparators -/

/-- What an internal comparator needs of the user comparator. -/
structure Lawful (c : Comparator Bytes) : Prop extends Separates c where
  eq_iff : ∀ a b, c.compare a b = .eq ↔ a = b
  same : ∀ key, c.findShortestSeparator key key = key

theorem diffIndex_self (key : Bytes) : diffIndex key key = key.length := by
  induction key with
  | nil => rfl
  | cons byte key ih => simp [diffIndex, ih]

theorem compares (a b : Bytes) : (sliceCompare a b).Compares a b := by
  rw [sliceCompare]
  split_ifs with hab hba
  · exact hab
  · exact hba
  · exact le_antisymm (not_lt.mp hba) (not_lt.mp hab)

theorem lawful_bytewise : Lawful bytewise where
  separator start limit h := by
    obtain ⟨hstart, hlimit⟩ := bytewise_separator ((compares ..).eq_lt.mp h)
    exact ⟨mt (compares ..).eq_gt.mp hstart, (compares ..).eq_lt.mpr hlimit⟩
  successor key := mt (compares ..).eq_gt.mp (incrementFirst_not_lt key)
  eq_iff a b := (compares a b).eq_eq
  same key := by simp [bytewise, diffIndex_self]

theorem lawful_reverseBytewise : Lawful reverseBytewise where
  separator start limit h := by
    obtain ⟨hstart, hlimit⟩ := reverse_separator ((compares ..).eq_gt.mp (Ordering.swap_inj.mp h))
    exact ⟨fun hgt => hstart ((compares ..).eq_lt.mp (Ordering.swap_inj.mp hgt)),
      congrArg Ordering.swap ((compares ..).eq_gt.mpr hlimit)⟩
  successor key hgt := lt_irrefl key ((compares ..).eq_lt.mp (Ordering.swap_inj.mp hgt))
  eq_iff a b := Ordering.swap_eq_iff_eq_swap.trans (compares a b).eq_eq
  same key := by simp [reverseBytewise, diffIndex_self]

/-- A shortened key is the key itself or one of a later user key. -/
theorem shortened_cases (c : Comparator Bytes) (key : InternalKey Bytes) (tmp : Bytes) :
    shortened c key tmp = key ∨
    c.compare key.userKey tmp = .lt ∧ (shortened c key tmp).userKey = tmp := by
  rw [shortened]
  split
  · exact .inr ⟨‹_ ∧ _›.2, rfl⟩
  · exact .inl rfl

/-- Over the bytewise order this is the comparison of internal keys used elsewhere. -/
theorem internal_bytewise_compare (a b : InternalKey Bytes) :
    (internal bytewise).compare a b = icmp a b := by
  rw [icmp, ← (compares a.userKey b.userKey).inj (cmp_compares ..)]
  rfl

section Internal

variable {c : Comparator Bytes} (h : Lawful c)
include h

theorem compare_shortened (key : InternalKey Bytes) (tmp : Bytes) :
    (internal c).compare key (shortened c key tmp) ≠ .gt := by
  rcases shortened_cases c key tmp with hkey | ⟨hlt, huser⟩
  · simp [hkey, internal, (h.eq_iff key.userKey key.userKey).mpr rfl]
  · simp [internal, huser, hlt]

theorem Lawful.internal : Separates (internal c) where
  successor key := compare_shortened h key _
  separator start limit hlt := by
    refine ⟨compare_shortened h start _, ?_⟩
    rcases shortened_cases c start (c.findShortestSeparator start.userKey limit.userKey) with
      hkey | ⟨hless, huser⟩
    · exact (congrArg (fun key => (Separator.internal c).compare key limit = .lt) hkey).mpr hlt
    · -- the user keys differ, or nothing was shortened
      have hbefore : c.compare start.userKey limit.userKey = .lt := by
        cases hcmp : c.compare start.userKey limit.userKey with
        | lt => rfl
        | eq =>
          rw [← (h.eq_iff ..).mp hcmp, h.same, (h.eq_iff ..).mpr rfl] at hless
          exact nomatch hless
        | gt => simp [Separator.internal, hcmp] at hlt
      have hlimit := (h.separator _ _ hbefore).2
      rw [← huser] at hlimit
      simp only [Separator.internal] at hlimit ⊢
      rw [hlimit]

end Internal

/-- **SHORTENED KEYS** stay between their keys, for byte strings in either order and for
    internal keys over either user comparator. -/
theorem separators_between : Separates bytewise ∧ Separates reverseBytewise ∧
    Separates (internal bytewise) ∧ Separates (internal reverseBytewise) :=
  ⟨lawful_bytewise.toSeparates, lawful_reverseBytewise.toSeparates, lawful_bytewise.internal,
    lawful_reverseBytewise.internal⟩

end Separator
