import Mathlib

/-! # Bisection — three-way search of an index interval

    `bisect` halves an interval `[left, right]` of indices until a probe
    answers `eq` or the interval is empty.  The probe says where the element at
    an index lies relative to the target.  Nothing here knows what is searched.

    The interval ends are integers: an exhausted interval ends with
    `right = left - 1`, which is `-1` when everything lies above the target.

    * `bisect_hit` — a hit is an index of the interval with answer `eq`.
    * `bisect_miss` — after a miss the interval has closed up at one place:
      everything before it is below the target, everything after it above.
    * `lt_countP_iff` — in a list that a predicate cuts in two, the count is the
      place of the cut. -/

namespace Bisect

/-- Three-way bisection with the final interval.  `fuel` bounds the halvings. -/
def bisect (probe : Nat → Ordering) : Nat → Int → Int → Option Nat × Int × Int
  | 0, left, right => (none, left, right)
  | fuel + 1, left, right =>
    if left ≤ right then
      let mid := (left + right) / 2
      match probe mid.toNat with
      | .gt => bisect probe fuel left (mid - 1)
      | .lt => bisect probe fuel (mid + 1) right
      | .eq => (some mid.toNat, left, right)
    else (none, left, right)

/-- The answers do not go down between `lo` and `hi`: below, then at, then above
    the target. -/
structure Ordered (probe : Nat → Ordering) (lo hi : Int) : Prop where
  lt_of_lt : ∀ i j : Nat, lo ≤ i → i ≤ j → (j : Int) ≤ hi →
    probe j = .lt → probe i = .lt
  gt_of_gt : ∀ i j : Nat, lo ≤ i → i ≤ j → (j : Int) ≤ hi →
    probe i = .gt → probe j = .gt

variable {probe : Nat → Ordering}

/-- Ordered answers stay ordered on a smaller interval. -/
theorem Ordered.mono {lo hi lo' hi' : Int} (h : Ordered probe lo hi) (hlo : lo ≤ lo')
    (hhi : hi' ≤ hi) : Ordered probe lo' hi' := by
  constructor
  · intro i j hi1 hij hj
    exact h.lt_of_lt i j (by omega) hij (by omega)
  · intro i j hi1 hij hj
    exact h.gt_of_gt i j (by omega) hij (by omega)

/-- A hit lies in the interval and the probe answers `eq` there. -/
theorem bisect_hit (probe : Nat → Ordering) (fuel : Nat) (left right : Int) (m : Nat)
    (h0 : 0 ≤ left) (h : (bisect probe fuel left right).1 = some m) :
    left ≤ m ∧ (m : Int) ≤ right ∧ probe m = .eq := by
  fun_induction bisect probe fuel left right with
  | case1 left right => exact nomatch h
  | case2 fuel left right hle mid hp ih =>
    obtain ⟨h1, h2, h3⟩ := ih h0 h
    exact ⟨h1, by omega, h3⟩
  | case3 fuel left right hle mid hp ih =>
    obtain ⟨h1, h2, h3⟩ := ih (by omega) h
    exact ⟨by omega, h2, h3⟩
  | case4 fuel left right hle mid hp =>
    rw [Option.some.injEq] at h
    subst h
    exact ⟨by omega, by omega, hp⟩
  | case5 fuel left right hle => exact nomatch h

theorem closed_up {left right : Int} (hl : right = left - 1) :
    ∃ l : Int, (left, right) = (l, l - 1) ∧ left ≤ l ∧ l ≤ right + 1 ∧
      (∀ i : Nat, left ≤ i → (i : Int) < l → probe i = .lt) ∧
      (∀ i : Nat, l ≤ i → (i : Int) ≤ right → probe i = .gt) := by
  refine ⟨left, by rw [hl], Int.le_refl _, by omega, ?_, ?_⟩
  · intro i h1 h2
    omega
  · intro i h1 h2
    omega

/-- **THE MISS**: with enough fuel and ordered answers a miss closes the
    interval up between the elements below and the elements above the target. -/
theorem bisect_miss (probe : Nat → Ordering) (fuel : Nat) (left right : Int) (h0 : 0 ≤ left)
    (hlr : left ≤ right + 1) (hf : right - left + 1 ≤ fuel) (hord : Ordered probe left right)
    (hnone : (bisect probe fuel left right).1 = none) :
    ∃ l : Int, (bisect probe fuel left right).2 = (l, l - 1) ∧ left ≤ l ∧ l ≤ right + 1 ∧
      (∀ i : Nat, left ≤ i → (i : Int) < l → probe i = .lt) ∧
      (∀ i : Nat, l ≤ i → (i : Int) ≤ right → probe i = .gt) := by
  fun_induction bisect probe fuel left right with
  | case1 left right => exact closed_up (by omega)
  | case2 fuel left right hle mid hp ih =>
    obtain ⟨l, heq, h1, h2, hlt, hgt⟩ := ih h0 (by omega) (by push_cast at hf; omega)
      (hord.mono (Int.le_refl _) (by omega)) hnone
    refine ⟨l, heq, h1, by omega, hlt, ?_⟩
    intro i hi1 hi2
    by_cases hi : (i : Int) ≤ mid - 1
    · exact hgt i hi1 hi
    · exact hord.gt_of_gt _ i (by omega) (by omega) hi2 hp
  | case3 fuel left right hle mid hp ih =>
    obtain ⟨l, heq, h1, h2, hlt, hgt⟩ := ih (by omega) (by omega) (by push_cast at hf; omega)
      (hord.mono (by omega) (Int.le_refl _)) hnone
    refine ⟨l, heq, by omega, h2, ?_, hgt⟩
    intro i hi1 hi2
    by_cases hi : mid + 1 ≤ (i : Int)
    · exact hlt i hi hi2
    · exact hord.lt_of_lt i _ hi1 (by omega) (by omega) hp
  | case4 fuel left right hle mid hp => exact nomatch hnone
  | case5 fuel left right hle => exact closed_up (by omega)

/-- With enough fuel an `eq` in the interval is never missed. -/
theorem bisect_complete (fuel : Nat) {left right : Int} (h0 : 0 ≤ left)
    (hf : right - left + 1 ≤ fuel) (hord : Ordered probe left right) {i : Nat} (h1 : left ≤ i)
    (h2 : (i : Int) ≤ right) (hi : probe i = .eq) :
    ∃ m, (bisect probe fuel left right).1 = some m := by
  cases hres : (bisect probe fuel left right).1 with
  | some m => exact ⟨m, rfl⟩
  | none =>
  obtain ⟨l, -, -, -, hlt, hgt⟩ :=
    bisect_miss probe fuel left right h0 (by omega) hf hord hres
  by_cases hil : (i : Int) < l
  · rw [hlt i h1 hil] at hi
    exact nomatch hi
  · rw [hgt i (by omega) h2] at hi
    exact nomatch hi

/-- Where a predicate holds of an initial part of a list, it holds at an index
    exactly when the index is below the count. -/
theorem lt_countP_iff {α : Type} {p : α → Bool} {l : List α}
    (hpair : l.Pairwise (fun a b => p b = true → p a = true)) {i : Nat} {x : α}
    (hx : l[i]? = some x) : (i < l.countP p ↔ p x = true) := by
  induction l generalizing i x with
  | nil => simp at hx
  | cons a l ih =>
  obtain ⟨ha, hl⟩ := List.pairwise_cons.mp hpair
  by_cases hpa : p a = true
  · rw [List.countP_cons_of_pos hpa]
    cases i with
    | zero =>
      rw [List.getElem?_cons_zero, Option.some.injEq] at hx
      rw [← hx]
      exact iff_of_true (Nat.succ_pos _) hpa
    | succ i => exact Nat.succ_lt_succ_iff.trans (ih hl hx)
  -- nothing of the list satisfies the predicate
  have hnone : ∀ b ∈ a :: l, ¬ p b = true := by
    intro b hb
    rcases List.mem_cons.mp hb with rfl | hb
    · exact hpa
    · exact fun hpb => hpa (ha b hb hpb)
  rw [List.countP_eq_zero.mpr hnone]
  exact iff_of_false (Nat.not_lt_zero _) (hnone x (List.mem_of_getElem? hx))

end Bisect
