import MatrixKV.SstableMetaProofs
import MatrixKV.WhileLoopProofs

/-! # Seeking in an NVM table

    A table of level 0 is read through an iterator over a range of its keys.  `Seek` halves
    the range, rounding up, until one index is left; a probe that hits the target ends the
    halving at once.  From that index it goes on key by key.

    * The halving keeps only that everything before `left` is below the target
      (`search_returns`); that is all the scan behind it needs.
    * `seekIndex_spec` — both loops end, on the first key that is not below the target or
      behind the range. -/

namespace NvmIterator

open DbFormat SstableMeta WhileLoop

variable {K : Type} [LinearOrder K]

/-! ## The two loops of `Seek` -/

section Loops

-- the keys of the range, by index; `none` is a read outside the table
variable (keyAt : Nat → Option (InternalKey K)) (target : InternalKey K)

/-- A round of `while (left < right)`. -/
def searchStep : Nat × Nat → (Nat × Nat) ⊕ Option Nat
  | (left, right) =>
    if left < right then
      let mid := (left + right + 1) / 2
      match (keyAt mid).map (icmp · target) with
      | none => .inr none
      | some .lt => .inl (mid, right)
      | some .gt => .inl (left, mid - 1)
      | some .eq => .inl (mid, mid)
    else .inr (some left)

/-- A round of the linear search; the iterator is `Valid` before index `keysNum`. -/
def scanStep (keysNum : Nat) (current : Nat) : Nat ⊕ Option Nat :=
  match (keyAt current).map (icmp · target) with
  | none => .inr none
  | some .lt => if current + 1 < keysNum then .inl (current + 1) else .inr (some (current + 1))
  | some _ => .inr (some current)

/-- The index `Seek` leaves in `current_`, in at most `fuel` rounds of each loop. -/
def seekIndex (keysNum fuel : Nat) : Option Nat :=
  (run (searchStep keyAt target) fuel (0, keysNum - 1)).join.bind fun left =>
    (run (scanStep keyAt target keysNum) fuel left).join

end Loops

/-- `Seek` adds `left + right + 1` in an `int`, so `keysNum` is to be at most 2^30. -/
structure NVMLevel0ReadIterator (K : Type) where
  file : FileEntry K
  firstKeyIndex : Nat
  keysNum : Nat
  current : Int := -1

def NVMLevel0ReadIterator.valid (it : NVMLevel0ReadIterator K) : Bool :=
  it.current ≥ 0 && it.current < it.keysNum

/-- `keys_meta[first_key_index_ + i].key`. -/
def NVMLevel0ReadIterator.keyAt (it : NVMLevel0ReadIterator K) (i : Nat) :
    Option (InternalKey K) :=
  (it.file.keysMeta[it.firstKeyIndex + i]?).map KeysMetadata.key

def NVMLevel0ReadIterator.seek (it : NVMLevel0ReadIterator K) (target : InternalKey K)
    (fuel : Nat) : Option (NVMLevel0ReadIterator K) :=
  (seekIndex it.keyAt target it.keysNum fuel).map fun i => { it with current := i }

/-- The iterator of a column compaction has its keys in `vKey_`. -/
structure ColumnCompactionItemIterator (K : Type) where
  vKey : List (InternalKey K)
  current : Int := -1

def ColumnCompactionItemIterator.seek (it : ColumnCompactionItemIterator K)
    (target : InternalKey K) (fuel : Nat) : Option (ColumnCompactionItemIterator K) :=
  (seekIndex (fun i => it.vKey[i]?) target it.vKey.length fuel).map fun i =>
    { it with current := i }

/-! ## A range of sorted keys -/

theorem icmp_eq {a b : InternalKey K} (h : icmp a b = .eq) : a.rank = b.rank := by
  have hge : b.rank ≤ a.rank := (icmp_ge_iff a b).mp (by rw [h]; decide)
  refine le_antisymm (not_lt.mp fun hlt => ?_) hge
  rcases (rank_lt_iff b a).mp hlt with hlt | ⟨heq, hlt⟩
  · rw [icmp, hlt.cmp_eq_gt] at h
    cases h
  rw [icmp, heq, cmp_self_eq_eq] at h
  simp only [gt_iff_lt, if_neg (lt_asymm hlt), if_pos hlt] at h
  cases h

/-- `n` keys, strictly sorted. -/
structure SortedRange (keyAt : Nat → Option (InternalKey K)) (n : Nat) : Prop where
  present : ∀ i < n, ∃ k, keyAt i = some k
  lt : ∀ i j a b, i < j → j < n → keyAt i = some a → keyAt j = some b → a.rank < b.rank

/-- Everything before index `i` is below the target. -/
def Below (keyAt : Nat → Option (InternalKey K)) (target : InternalKey K) (i : Nat) : Prop :=
  ∀ j k, j < i → keyAt j = some k → k.rank < target.rank

section Spec

variable {keyAt : Nat → Option (InternalKey K)} {n : Nat} {target : InternalKey K}

section

variable (h : SortedRange keyAt n)
include h

/-- A key that is not above the target has only keys below the target before it. -/
theorem SortedRange.below {i : Nat} (hi : i < n) {k : InternalKey K}
    (hk : keyAt i = some k) (hle : k.rank ≤ target.rank) : Below keyAt target i :=
  fun j a hj ha => (h.lt j i a k hj hi ha hk).trans_le hle

/-- The halving ends inside the range with everything before its index below the target. -/
theorem search_returns :
    ∀ (d left right : Nat), right - left ≤ d → left ≤ right → right < n →
      Below keyAt target left →
      ∃ i < n, Returns (searchStep keyAt target) (left, right) (some i) ∧
        Below keyAt target i := by
  -- each round shortens the distance of the two bounds
  intro d
  induction d with
  | zero =>
    intro left right hd hle hright hbelow
    exact ⟨left, by omega, .exit (if_neg (by omega)), hbelow⟩
  | succ d ih =>
  intro left right hd hle hright hbelow
  by_cases hlt : left < right
  · obtain ⟨k, hk⟩ := h.present ((left + right + 1) / 2) (by omega)
    have hstep : searchStep keyAt target (left, right) =
        match icmp k target with
        | .lt => .inl ((left + right + 1) / 2, right)
        | .gt => .inl (left, (left + right + 1) / 2 - 1)
        | .eq => .inl ((left + right + 1) / 2, (left + right + 1) / 2) := by
      simp only [searchStep, if_pos hlt, hk, Option.map_some]
      cases icmp k target <;> rfl
    cases hc : icmp k target with
    | lt =>
      rw [hc] at hstep
      have hmid := h.below (by omega) hk ((icmp_lt_iff k target).mp hc).le
      obtain ⟨i, hi, hret, hb⟩ := ih _ right (by omega) (by omega) hright hmid
      exact ⟨i, hi, hret.round hstep, hb⟩
    | gt =>
      rw [hc] at hstep
      obtain ⟨i, hi, hret, hb⟩ := ih left ((left + right + 1) / 2 - 1) (by omega) (by omega)
        (by omega) hbelow
      exact ⟨i, hi, hret.round hstep, hb⟩
    | eq =>
    rw [hc] at hstep
    have hmid := h.below (by omega) hk (icmp_eq hc).le
    exact ⟨_, by omega, .round hstep (.exit (if_neg (lt_irrefl _))), hmid⟩
  · exact ⟨left, by omega, .exit (if_neg hlt), hbelow⟩

/-- The scan goes on to the first key that is not below the target, or behind the range. -/
theorem scan_returns :
    ∀ (d i : Nat), n - i ≤ d → i < n → Below keyAt target i →
      ∃ j ≤ n, Returns (scanStep keyAt target n) i (some j) ∧ Below keyAt target j ∧
        ∀ k, j < n → keyAt j = some k → target.rank ≤ k.rank := by
  intro d
  induction d with
  | zero => intro i hd hi; omega
  | succ d ih =>
  intro i hd hi hbelow
  obtain ⟨k, hk⟩ := h.present i hi
  cases hc : icmp k target with
  | lt =>
    have hstep : scanStep keyAt target n i =
        if i + 1 < n then .inl (i + 1) else .inr (some (i + 1)) := by
      simp only [scanStep, hk, Option.map_some, hc]
    have hnext : Below keyAt target (i + 1) := by
      intro j a hj ha
      rcases Nat.lt_succ_iff_lt_or_eq.mp hj with hj | rfl
      · exact hbelow j a hj ha
      · rw [hk, Option.some.injEq] at ha
        exact ha ▸ (icmp_lt_iff k target).mp hc
    by_cases hn : i + 1 < n
    · obtain ⟨j, hj, hret, hspec⟩ := ih (i + 1) (by omega) hn hnext
      exact ⟨j, hj, hret.round (hstep.trans (if_pos hn)), hspec⟩
    · exact ⟨i + 1, hi, .exit (hstep.trans (if_neg hn)), hnext, fun _ hlt => absurd hlt hn⟩
  | _ =>
  refine ⟨i, hi.le, .exit (by simp only [scanStep, hk, Option.map_some, hc]), hbelow, ?_⟩
  intro a _ ha
  rw [hk, Option.some.injEq] at ha
  exact ha ▸ (icmp_ge_iff k target).mp (by rw [hc]; nofun)

/-- `Seek` ends, and from some number of rounds on always with the same index. -/
theorem seekIndex_spec (target : InternalKey K) (hpos : 0 < n) :
    ∃ j ≤ n, (∃ rounds, ∀ fuel ≥ rounds, seekIndex keyAt target n fuel = some j) ∧
      Below keyAt target j ∧ ∀ k, j < n → keyAt j = some k → target.rank ≤ k.rank := by
  obtain ⟨i, hi, ⟨search, hsearch⟩, hbelow⟩ := search_returns h (n - 1) 0 (n - 1)
    (by omega) (by omega) (by omega)
    (show Below keyAt target 0 from fun j _ hj => absurd hj (Nat.not_lt_zero j))
  obtain ⟨j, hj, ⟨scan, hscan⟩, hspec⟩ := scan_returns h (n - i) i le_rfl hi hbelow
  refine ⟨j, hj, ⟨max search scan, fun fuel hfuel => ?_⟩, hspec⟩
  rw [seekIndex, run_mono ((le_max_left _ _).trans hfuel) hsearch]
  show (run (scanStep keyAt target n) fuel i).join = some j
  rw [run_mono ((le_max_right _ _).trans hfuel) hscan]
  rfl

end

end Spec

/-! ## The iterators -/

/-- What `Seek` leaves at index `j`: the first key of the range that is not below the target,
    or an invalid iterator when there is none. -/
def AtLowerBound (keyAt : Nat → Option (InternalKey K)) (n : Nat) (target : InternalKey K)
    (j : Nat) : Prop :=
  (j < n ∧ ∃ k, keyAt j = some k ∧ target.rank ≤ k.rank ∧ Below keyAt target j) ∨
    (j = n ∧ Below keyAt target n)

theorem seekIndex_atLowerBound {keyAt : Nat → Option (InternalKey K)} {n : Nat}
    (h : SortedRange keyAt n) (hpos : 0 < n) (target : InternalKey K) :
    ∃ j, AtLowerBound keyAt n target j ∧
      ∃ rounds, ∀ fuel ≥ rounds, seekIndex keyAt target n fuel = some j := by
  obtain ⟨j, hj, hret, hbelow, hat⟩ := seekIndex_spec h target hpos
  refine ⟨j, ?_, hret⟩
  rcases Nat.lt_or_eq_of_le hj with hlt | rfl
  · obtain ⟨k, hk⟩ := h.present j hlt
    exact .inl ⟨hlt, k, hk, hat k hlt hk, hbelow⟩
  · exact .inr ⟨rfl, hbelow⟩

theorem sortedRange_of_sortedKeys {keys : List (InternalKey K)} (hs : SortedKeys keys)
    (first n : Nat) (hrange : first + n ≤ keys.length) :
    SortedRange (fun i => keys[first + i]?) n where
  present i hi := ⟨_, List.getElem?_eq_getElem (by omega)⟩
  lt i j a b hij hj ha hb := by
    obtain ⟨hi, rfl⟩ := List.getElem?_eq_some_iff.mp ha
    obtain ⟨hj, rfl⟩ := List.getElem?_eq_some_iff.mp hb
    exact List.pairwise_iff_getElem.mp hs _ _ hi hj (by omega)

/-- **SEEK IS LOWER BOUND**: over a strictly sorted table, `Seek` of a non-empty range ends
    on its first key that is not below the target, and the iterator is invalid exactly when
    there is none. -/
theorem nvmLevel0ReadIterator_seek (it : NVMLevel0ReadIterator K) (target : InternalKey K)
    (hs : SortedKeys (it.file.keysMeta.map KeysMetadata.key)) (hpos : 0 < it.keysNum)
    (hrange : it.firstKeyIndex + it.keysNum ≤ it.file.keysMeta.length) :
    ∃ it' j, (∃ rounds, ∀ fuel ≥ rounds, it.seek target fuel = some it') ∧
      it' = { it with current := (j : Nat) } ∧ AtLowerBound it.keyAt it.keysNum target j ∧
      (it'.valid = true ↔ j < it.keysNum) := by
  have hrange' := sortedRange_of_sortedKeys hs it.firstKeyIndex it.keysNum
    (by rw [List.length_map]; exact hrange)
  have hkeys : it.keyAt = fun i =>
      (it.file.keysMeta.map KeysMetadata.key)[it.firstKeyIndex + i]? := by
    ext1 i
    rw [List.getElem?_map]
    rfl
  rw [← hkeys] at hrange'
  obtain ⟨j, hj, rounds, hret⟩ := seekIndex_atLowerBound hrange' hpos target
  refine ⟨{ it with current := j }, j, ⟨rounds, fun fuel hfuel => ?_⟩, rfl, hj, ?_⟩
  · rw [NVMLevel0ReadIterator.seek, hret fuel hfuel]
    rfl
  · simp [NVMLevel0ReadIterator.valid]

/-- The second and third key of a table, and a target between them. -/
theorem nvmLevel0ReadIterator_seek_between :
    ∃ (it it' : NVMLevel0ReadIterator Nat) (fuel : Nat),
      it.seek ⟨5, 9, .value⟩ fuel = some it' ∧ it'.valid = true ∧ it'.current = 1 := by
  obtain ⟨it', j, ⟨rounds, hret⟩, heq, hj, hvalid⟩ := nvmLevel0ReadIterator_seek (K := Nat)
    ⟨⟨1, 0, [⟨⟨1, 5, .value⟩, -1, 0, 9⟩, ⟨⟨3, 4, .value⟩, -1, 9, 9⟩, ⟨⟨7, 4, .value⟩, -1, 18, 9⟩],
      0⟩, 1, 2, -1⟩ ⟨5, 9, .value⟩ (by decide) (by decide) (by decide)
  rcases hj with ⟨hlt, k, hk, hle, -⟩ | ⟨-, hbelow⟩
  · refine ⟨_, it', rounds, hret rounds le_rfl, hvalid.mpr hlt, heq ▸ ?_⟩
    match j, hlt, hk with
    | 0, _, rfl => exact absurd hle (by decide)
    | 1, _, _ => rfl
  · exact absurd (hbelow 1 _ (by decide) rfl) (by decide)

/-- The iterator of a column compaction seeks alike. -/
theorem columnCompactionItemIterator_seek (it : ColumnCompactionItemIterator K)
    (target : InternalKey K) (hs : SortedKeys it.vKey) (hpos : it.vKey ≠ []) :
    ∃ j, AtLowerBound (fun i => it.vKey[i]?) it.vKey.length target j ∧
      ∃ rounds, ∀ fuel ≥ rounds, it.seek target fuel = some { it with current := j } := by
  have hrange := sortedRange_of_sortedKeys hs 0 it.vKey.length (by omega)
  simp only [Nat.zero_add] at hrange
  obtain ⟨j, hj, rounds, hret⟩ :=
    seekIndex_atLowerBound hrange (List.length_pos_iff.mpr hpos) target
  refine ⟨j, hj, rounds, fun fuel hfuel => ?_⟩
  rw [ColumnCompactionItemIterator.seek, hret fuel hfuel]
  rfl

end NvmIterator
