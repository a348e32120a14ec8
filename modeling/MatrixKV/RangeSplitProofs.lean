import Mathlib

/-! # Cutting a keyed list at boundaries

    A strictly increasing list of boundaries cuts the keys into half-open
    ranges, the first open to the left and the last to the right.  The library
    says that such ranges share out every list (`filter_splitRanges_perm`), that
    cutting a sorted list at a key is filtering it, and how to get strictly
    increasing boundaries from an unordered supply of keys (`sortUniq`). -/

namespace RangeSplit

open List

variable {α K : Type} [LinearOrder K]

/-! ## Ranges -/

/-- `[start, stop)`; `none` is the open side. -/
def inRange (r : Option K × Option K) (k : K) : Bool :=
  (r.1.all (fun a => decide (a ≤ k))) && (r.2.all (fun b => decide (k < b)))

/-- The ranges from `start` on that the boundaries cut out. -/
def splitRanges (start : Option K) : List K → List (Option K × Option K)
  | [] => [(start, none)]
  | b :: bs => (start, some b) :: splitRanges (some b) bs

@[simp] theorem inRange_iff (r : Option K × Option K) (k : K) :
    inRange r k = true ↔ (∀ a ∈ r.1, a ≤ k) ∧ (∀ b ∈ r.2, k < b) := by
  rcases r with ⟨_ | a, _ | b⟩ <;> simp [inRange]

/-- The keys at or above `start` are those below `b` and those at or above `b`. -/
theorem filter_range_perm (key : α → K) (start : Option K) {b : K}
    (hb : ∀ a ∈ start, a ≤ b) (l : List α) :
    (l.filter (fun x => inRange (start, some b) (key x)) ++
      l.filter (fun x => inRange (some b, none) (key x))).Perm
      (l.filter (fun x => inRange (start, none) (key x))) := by
  induction l with
  | nil => exact List.Perm.nil
  | cons x l ih =>
  by_cases hx : key x < b
  · have hnot : inRange (some b, none) (key x) = false := by
      rw [Bool.eq_false_iff, Ne, inRange_iff]
      exact fun h => absurd (h.1 b rfl) (not_le.mpr hx)
    have hsame : inRange (start, some b) (key x) = inRange (start, none) (key x) := by
      rw [Bool.eq_iff_iff, inRange_iff, inRange_iff]
      simp [hx]
    simp only [filter_cons, hnot, hsame]
    by_cases hs : inRange (start, none) (key x)
    · simpa [hs] using ih
    · simpa [hs] using ih
  · have hnot : inRange (start, some b) (key x) = false := by
      rw [Bool.eq_false_iff, Ne, inRange_iff]
      exact fun h => hx (h.2 b rfl)
    have hle : b ≤ key x := not_lt.mp hx
    have hyes : inRange (some b, none) (key x) = true := by simp [hle]
    have hstart : inRange (start, none) (key x) = true := by
      rw [inRange_iff]
      exact ⟨fun a ha => (hb a ha).trans hle, by simp⟩
    simp only [filter_cons, hnot, hyes, hstart, if_true, Bool.false_eq_true, if_false]
    exact perm_middle.trans (ih.cons x)

/-- **PARTITION**: the ranges share out the keys at or above `start`. -/
theorem filter_splitRanges_perm (key : α → K) (l : List α) (bs : List K) (start : Option K)
    (hbs : bs.Pairwise (· < ·)) (hstart : ∀ a ∈ start, ∀ b ∈ bs, a ≤ b) :
    ((splitRanges start bs).flatMap (fun r => l.filter (fun x => inRange r (key x)))).Perm
      (l.filter (fun x => inRange (start, none) (key x))) := by
  induction bs generalizing start with
  | nil =>
    simp [splitRanges]
  | cons b bs ih =>
  obtain ⟨hb, hbs⟩ := pairwise_cons.mp hbs
  have hrest := ih (some b) hbs (by
    rintro a ha b' hb'
    obtain rfl : b = a := by simpa using ha
    exact (hb b' hb').le)
  rw [splitRanges, flatMap_cons]
  exact (hrest.append_left _).trans
    (filter_range_perm key start (fun a ha => hstart a ha b (.head _)) l)

/-! ## Cutting a sorted list -/

section Cut

variable {p : α → Bool} {l : List α}

theorem takeWhile_eq_filter (h : l.Pairwise (fun a b => p b = true → p a = true)) :
    l.takeWhile p = l.filter p := by
  induction l with
  | nil => rfl
  | cons a l ih =>
  obtain ⟨ha, hl⟩ := pairwise_cons.mp h
  by_cases hp : p a = true
  · rw [takeWhile_cons_of_pos hp, filter_cons_of_pos hp, ih hl]
  rw [takeWhile_cons_of_neg hp, filter_cons_of_neg hp, eq_comm, filter_eq_nil_iff]
  exact fun b hb hpb => hp (ha b hb hpb)

theorem dropWhile_eq_filter (h : l.Pairwise (fun a b => p b = true → p a = true)) :
    l.dropWhile p = l.filter (fun a => !p a) := by
  induction l with
  | nil => rfl
  | cons a l ih =>
  obtain ⟨ha, hl⟩ := pairwise_cons.mp h
  by_cases hp : p a = true
  · rw [dropWhile_cons_of_pos hp, filter_cons_of_neg (by simpa using hp), ih hl]
  rw [dropWhile_cons_of_neg hp, eq_comm, filter_eq_self]
  intro b hb
  rcases mem_cons.mp hb with rfl | hb
  · simpa using hp
  · simpa using fun hpb => hp (ha b hb hpb)

end Cut

/-! ## Boundaries from a supply of keys -/

/-- Of each group of equal neighbours, one. -/
def uniq : List K → List K
  | [] => []
  | [a] => [a]
  | a :: b :: l => if a = b then uniq (b :: l) else a :: uniq (b :: l)

theorem mem_of_mem_uniq {k : K} : ∀ {l : List K}, k ∈ uniq l → k ∈ l := by
  intro l
  fun_induction uniq l with
  | case1 => exact id
  | case2 a => exact id
  | case3 b l ih => exact fun h => .tail _ (ih h)
  | case4 a b l hab ih =>
    intro h
    rcases mem_cons.mp h with rfl | h
    · exact .head _
    · exact .tail _ (ih h)

/-- A sorted list without equal neighbours is strictly increasing. -/
theorem uniq_strict {l : List K} (h : l.Pairwise (· ≤ ·)) : (uniq l).Pairwise (· < ·) := by
  fun_induction uniq l with
  | case1 => exact .nil
  | case2 a => exact pairwise_singleton _ a
  | case3 b l ih => exact ih (pairwise_cons.mp h).2
  | case4 a b l hab ih =>
    obtain ⟨ha, hl⟩ := pairwise_cons.mp h
    refine pairwise_cons.mpr ⟨?_, ih hl⟩
    intro c hc
    have hlt : a < b := lt_of_le_of_ne (ha b (.head _)) hab
    rcases mem_cons.mp (mem_of_mem_uniq hc) with rfl | hc
    · exact hlt
    · exact hlt.trans_le ((pairwise_cons.mp hl).1 c hc)

def sortUniq (l : List K) : List K := uniq (l.insertionSort (· ≤ ·))

theorem sortUniq_strict (l : List K) : (sortUniq l).Pairwise (· < ·) :=
  uniq_strict (pairwise_insertionSort _ l)

end RangeSplit
