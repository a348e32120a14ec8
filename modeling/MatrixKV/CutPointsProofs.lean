import Mathlib

/-! # Cut points — a sorted list divides the numbers into stripes

    The stripe of `q` is named by its upper end: the first cut point that is not below
    `q`, or `top` above all of them.

    * `le_iff_ceil_le` — a cut point is above `q` exactly when it is above the stripe
      of `q`: of the numbers of one stripe, all are below a cut point or none is.
    * `ceil_eq_iff_floor_lt` — two numbers are in one stripe when no cut point lies
      between them. -/

namespace CutPoints

/-- The upper end of the stripe of `q`. -/
def ceil (cuts : List Nat) (top q : Nat) : Nat := (cuts.find? (fun c => decide (q ≤ c))).getD top

/-- The last cut point below `q`, or `d` when there is none. -/
def floorFrom (q : Nat) : Nat → List Nat → Nat
  | d, [] => d
  | d, c :: cs => if c < q then floorFrom q c cs else d

/-- The last cut point below `q`, or 0. -/
def floor (cuts : List Nat) (q : Nat) : Nat := floorFrom q 0 cuts

variable {cuts : List Nat} {top q q' s : Nat}

theorem ceil_cons_of_le {c : Nat} (h : q ≤ c) : ceil (c :: cuts) top q = c := by
  rw [ceil, List.find?_cons_of_pos (by rw [decide_eq_true_eq]; exact h), Option.getD_some]

theorem ceil_cons_of_lt {c : Nat} (h : c < q) : ceil (c :: cuts) top q = ceil cuts top q := by
  rw [ceil, List.find?_cons_of_neg (by rw [decide_eq_true_eq]; omega), ceil]

/-- The next cut is not below. -/
theorem le_ceil (hq : q ≤ top) : q ≤ ceil cuts top q := by
  induction cuts with
  | nil => exact hq
  | cons c cs ih =>
  by_cases h : q ≤ c
  · rw [ceil_cons_of_le h]
    exact h
  · rw [ceil_cons_of_lt (by omega)]
    exact ih

/-- The upper end of a stripe is a cut point or the top. -/
theorem ceil_mem (cuts : List Nat) (top q : Nat) : ceil cuts top q ∈ cuts ∨ ceil cuts top q
    = top := by
  induction cuts with
  | nil => exact .inr rfl
  | cons c cs ih =>
  by_cases h : q ≤ c
  · rw [ceil_cons_of_le h]
    exact .inl (.head _)
  · rw [ceil_cons_of_lt (by omega)]
    exact ih.imp_left (.tail c)

/-- It is not above the top, -/
theorem ceil_le_top (hcuts : ∀ c ∈ cuts, c ≤ top) (q : Nat) : ceil cuts top q ≤ top := by
  rcases ceil_mem cuts top q with h | h
  · exact hcuts _ h
  · exact Nat.le_of_eq h

section

variable (hsorted : cuts.Pairwise (· ≤ ·))
include hsorted

/-- nor above any cut that is not below the point. -/
theorem ceil_le_of_mem (hs : s ∈ cuts) (h : q ≤ s) :
    ceil cuts top q ≤ s := by
  induction cuts with
  | nil => exact nomatch hs
  | cons c cs ih =>
  obtain ⟨hc, hcs⟩ := List.pairwise_cons.mp hsorted
  by_cases hq : q ≤ c
  · rw [ceil_cons_of_le hq]
    rcases List.mem_cons.mp hs with rfl | hs
    · exact Nat.le_refl _
    · exact hc s hs
  · rw [ceil_cons_of_lt (by omega)]
    rcases List.mem_cons.mp hs with rfl | hs
    · exact absurd h hq
    · exact ih hcs hs

/-- **STRIPES**: a cut point, or the top, does not tell numbers of one stripe apart. -/
theorem le_iff_ceil_le (hcuts : ∀ c ∈ cuts, c ≤ top)
    (hq : q ≤ top) (hs : s ∈ cuts ∨ s = top) : q ≤ s ↔ ceil cuts top q ≤ s := by
  constructor
  · intro h
    rcases hs with hs | rfl
    · exact ceil_le_of_mem hsorted hs h
    · exact ceil_le_top hcuts q
  · exact Nat.le_trans (le_ceil hq)

/-- A higher point has no lower cut. -/
theorem ceil_mono (hcuts : ∀ c ∈ cuts, c ≤ top)
    (hq' : q' ≤ top) (h : q ≤ q') : ceil cuts top q ≤ ceil cuts top q' := by
  refine (le_iff_ceil_le hsorted hcuts (Nat.le_trans h hq') ?_).mp (Nat.le_trans h (le_ceil hq'))
  exact ceil_mem cuts top q'

/-- Points with different cuts are in the order of the cuts. -/
theorem lt_of_ceil_lt (hcuts : ∀ c ∈ cuts, c ≤ top)
    (hq : q ≤ top) (h : ceil cuts top q < ceil cuts top q') : q < q' := by
  rcases Nat.lt_or_ge q q' with hlt | hge
  · exact hlt
  · have hmono := ceil_mono (q := q') hsorted hcuts hq hge
    omega

end

/-- What the scan returns is where it began or a cut below the point. -/
theorem floorFrom_mem (q : Nat) (cuts : List Nat) (d) :
    floorFrom q d cuts = d ∨ floorFrom q d cuts ∈ cuts ∧ floorFrom q d cuts < q := by
  fun_induction floorFrom q d cuts with
  | case1 d => exact .inl rfl
  | case2 d c cs h ih =>
    refine .inr ?_
    rcases ih with hc | ⟨hmem, hlt⟩
    · rw [hc]
      exact ⟨.head _, h⟩
    · exact ⟨.tail c hmem, hlt⟩
  | case3 d c cs h => exact .inl rfl

/-- And no cut below the point is higher. -/
theorem le_floorFrom (q : Nat) (cuts : List Nat) (d) (hsorted : (d :: cuts).Pairwise (· ≤ ·)) :
    d ≤ floorFrom q d cuts ∧ ∀ c ∈ cuts, c < q → c ≤ floorFrom q d cuts := by
  fun_induction floorFrom q d cuts with
  | case1 d => exact ⟨Nat.le_refl d, nofun⟩
  | case2 d c cs h ih =>
    obtain ⟨hd, hcs⟩ := List.pairwise_cons.mp hsorted
    obtain ⟨hle, hall⟩ := ih hcs
    exact ⟨Nat.le_trans (hd c (.head _)) hle, List.forall_mem_cons.mpr ⟨fun _ => hle, hall⟩⟩
  | case3 d c cs h =>
    -- the list is sorted, so no later cut point is below either
    have hc := (List.pairwise_cons.mp hsorted.of_cons).1
    refine ⟨Nat.le_refl d, List.forall_mem_cons.mpr ⟨fun hlt => absurd hlt h, ?_⟩⟩
    exact fun x hx hxq => absurd (Nat.lt_of_le_of_lt (hc x hx) hxq) h

/-- The cut before a point, or 0. -/
theorem floor_mem (cuts : List Nat) (q : Nat) :
    floor cuts q = 0 ∨ floor cuts q ∈ cuts ∧ floor cuts q < q :=
  floorFrom_mem q cuts 0

section

variable (hsorted : cuts.Pairwise (· ≤ ·))
include hsorted

/-- No cut between it and the point. -/
theorem le_floor (hs : s ∈ cuts) (h : s < q) : s ≤ floor cuts q :=
  (le_floorFrom q cuts 0 (List.pairwise_cons.mpr ⟨fun _ _ => Nat.zero_le _, hsorted⟩)).2 s hs h

/-- **ONE STRIPE**: nothing is cut between the two numbers. -/
theorem ceil_eq_iff_floor_lt (hpos : 0 ∈ cuts → 0 < q')
    (hcuts : ∀ c ∈ cuts, c ≤ top) (hq : q ≤ top) (h : q' ≤ q) :
    ceil cuts top q' = ceil cuts top q ↔ floor cuts q = 0 ∨ floor cuts q < q' := by
  have hle : q ≤ ceil cuts top q := le_ceil hq
  have hle' : q' ≤ ceil cuts top q' := le_ceil (Nat.le_trans h hq)
  constructor
  · intro heq
    rcases floor_mem cuts q with hzero | ⟨hmem, hlt⟩
    · exact .inl hzero
    refine .inr (Nat.lt_of_not_le fun hq' => ?_)
    have hceil : ceil cuts top q' ≤ floor cuts q := ceil_le_of_mem hsorted hmem hq'
    omega
  intro hfloor
  refine Nat.le_antisymm (ceil_mono hsorted hcuts hq h) ?_
  refine (le_iff_ceil_le hsorted hcuts hq (ceil_mem cuts top q')).mp ?_
  refine Nat.le_of_not_lt fun hlt => ?_
  rcases ceil_mem cuts top q' with hmem | htop
  · have hbelow := le_floor hsorted hmem hlt
    have hceil : 0 < ceil cuts top q' := by
      refine Nat.pos_of_ne_zero fun hzero => ?_
      have hq' := hpos (hzero ▸ hmem)
      omega
    omega
  · omega

/-- Points under the same next cut have the same cut before them. -/
theorem floor_eq_of_ceil_eq (hpos : 0 ∈ cuts → 0 < q')
    (hcuts : ∀ c ∈ cuts, c ≤ top) (hq : q ≤ top) (h : q' ≤ q)
    (heq : ceil cuts top q' = ceil cuts top q) : floor cuts q' = floor cuts q := by
  have hfloor := (ceil_eq_iff_floor_lt hsorted hpos hcuts hq h).mp heq
  refine Nat.le_antisymm ?_ ?_
  · rcases floor_mem cuts q' with hzero | ⟨hmem, hlt⟩
    · omega
    · exact le_floor hsorted hmem (Nat.lt_of_lt_of_le hlt h)
  rcases floor_mem cuts q with hzero | ⟨hmem, -⟩
  · omega
  · rcases hfloor with hzero | hlt
    · rw [hzero]
      exact Nat.zero_le _
    · exact le_floor hsorted hmem hlt

end

end CutPoints
