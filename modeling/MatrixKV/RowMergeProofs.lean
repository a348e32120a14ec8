import Mathlib

/-! # Row merging — repeatedly taking a smallest head

    A k-way merge walks a list of sorted rows: at every step it looks at the
    heads, takes a smallest one and drops it from its row.  Nothing here knows
    what the rows hold.

    * `mergeRows` is the executable merge; it scans the heads from left to
      right and a later head wins only when it is strictly smaller.
    * `MergeTrace` is the relation every such walk satisfies, whatever its tie
      rule: the list of visited elements, each tagged with its row.
    * A trace visits each row in order and completely (`trace_row`), its
      elements are a permutation of all elements (`trace_perm`), and over
      sorted rows it is sorted (`trace_sorted`).
    * `mergeRows_leftmost`: among equal keys the executable merge takes the rows
      from left to right. -/

namespace RowMerge

open List

variable {α K : Type} [LinearOrder K]

/-- Scan the heads of the rows from row `i` on, keeping the smallest one seen.
    A later head replaces the best one only when it is strictly smaller. -/
def minHeadFrom (key : α → K) :
    List (List α) → Nat → Option (Nat × α) → Option (Nat × α)
  | [], _, best => best
  | [] :: rows, i, best => minHeadFrom key rows (i + 1) best
  | (a :: _) :: rows, i, none => minHeadFrom key rows (i + 1) (some (i, a))
  | (a :: _) :: rows, i, some (j, b) =>
    if key a < key b then minHeadFrom key rows (i + 1) (some (i, a))
    else minHeadFrom key rows (i + 1) (some (j, b))

/-- The row with a smallest head, and that head. -/
def minHead (key : α → K) (rows : List (List α)) : Option (Nat × α) :=
  minHeadFrom key rows 0 none

/-- Drop the head of row `i`. -/
def advance (rows : List (List α)) (i : Nat) : List (List α) :=
  rows.modify i List.tail

/-- The merge, bounded by `n` steps. -/
def mergeRows (key : α → K) : Nat → List (List α) → List (Nat × α)
  | 0, _ => []
  | n + 1, rows =>
    match minHead key rows with
    | none => []
    | some (i, a) => (i, a) :: mergeRows key n (advance rows i)

/-- The walks of a k-way merge: every step takes some smallest head. -/
inductive MergeTrace (key : α → K) : List (List α) → List (Nat × α) → Prop
  | done {rows : List (List α)} (h : ∀ r ∈ rows, r = []) : MergeTrace key rows []
  | step {rows : List (List α)} {i : Nat} {a : α} {tl : List α}
      {out : List (Nat × α)} (hrow : rows[i]? = some (a :: tl))
      (hmin : ∀ r ∈ rows, ∀ b ∈ r.head?, key a ≤ key b)
      (rest : MergeTrace key (rows.set i tl) out) :
      MergeTrace key rows ((i, a) :: out)

/-! ## The scan finds a smallest head -/

/-- Row `m` is the first one with the smallest head `a`. -/
def Leftmost (key : α → K) (rows : List (List α)) (m : Nat) (a : α) : Prop :=
  ∀ m' r, rows[m']? = some r → ∀ c ∈ r.head?, key a ≤ key c ∧ (m' < m → key a < key c)

theorem Leftmost.cons {key : α → K} {r : List α} {rows : List (List α)} {m : Nat} {a : α}
    (h : Leftmost key rows m a) (hr : ∀ c ∈ r.head?, key a < key c) :
    Leftmost key (r :: rows) (m + 1) a := by
  intro m' r' hr' c hc
  cases m' with
  | zero =>
    cases hr'
    exact ⟨(hr c hc).le, fun _ => hr c hc⟩
  | succ m' =>
    obtain ⟨hle, hlt⟩ := h m' r' hr' c hc
    exact ⟨hle, fun hm => hlt (by omega)⟩

/-- The scan keeps the best head it was given, or finds the first smallest one of the rows,
    which is then strictly smaller. -/
theorem minHeadFrom_spec (key : α → K) :
    ∀ (rows : List (List α)) (i : Nat) (best : Option (Nat × α)),
      (minHeadFrom key rows i best = none ∧ best = none ∧ ∀ r ∈ rows, r = []) ∨
      ∃ j a, minHeadFrom key rows i best = some (j, a) ∧
        ((best = some (j, a) ∧ Leftmost key rows 0 a) ∨
          ∃ m tl, j = i + m ∧ rows[m]? = some (a :: tl) ∧ (∀ p ∈ best, key a < key p.2) ∧
            Leftmost key rows m a) := by
  intro rows
  induction rows with
  | nil =>
    intro i best
    cases best with
    | none => exact .inl ⟨rfl, rfl, nofun⟩
    | some p => exact .inr ⟨p.1, p.2, rfl, .inl ⟨rfl, nofun⟩⟩
  | cons r rows ih =>
  intro i best
  cases r with
  | nil =>
    rcases ih (i + 1) best with ⟨heq, hbest, hall⟩ |
      ⟨j, a, heq, hkeep | ⟨m, tl, hj, hrow, hlt, hleft⟩⟩
    · exact .inl ⟨heq, hbest, forall_mem_cons.mpr ⟨rfl, hall⟩⟩
    · refine .inr ⟨j, a, heq, .inl ⟨hkeep.1, fun m r hr c hc => ?_⟩⟩
      cases m with
      | zero =>
        cases hr
        exact nomatch hc
      | succ m => exact ⟨(hkeep.2 m r hr c hc).1, nofun⟩
    · exact .inr ⟨j, a, heq, .inr ⟨m + 1, tl, by omega, hrow, hlt, hleft.cons nofun⟩⟩
  | cons x xs =>
  -- the head `x` is met with a best head that is not above it, perhaps `x` itself
  have hgo : ∀ best', minHeadFrom key ((x :: xs) :: rows) i best
        = minHeadFrom key rows (i + 1) (some best') → key best'.2 ≤ key x →
      (best' = (i, x) ∧ (∀ p ∈ best, key x < key p.2) ∨ best = some best') →
      ∃ j a, minHeadFrom key ((x :: xs) :: rows) i best = some (j, a) ∧
        ((best = some (j, a) ∧ Leftmost key ((x :: xs) :: rows) 0 a) ∨
          ∃ m tl, j = i + m ∧ ((x :: xs) :: rows)[m]? = some (a :: tl) ∧
            (∀ p ∈ best, key a < key p.2) ∧ Leftmost key ((x :: xs) :: rows) m a) := by
    intro best' hstep hle hbest
    rcases ih (i + 1) (some best') with ⟨-, h, -⟩ |
      ⟨j, a, heq, ⟨hkeep, hmin⟩ | ⟨m, tl, hj, hrow, hlt, hleft⟩⟩
    · exact nomatch h
    · cases hkeep
      have hfirst : Leftmost key ((x :: xs) :: rows) 0 a := by
        intro m r hr c hc
        cases m with
        | zero =>
          cases hr
          cases hc
          exact ⟨hle, nofun⟩
        | succ m => exact ⟨(hmin m r hr c hc).1, nofun⟩
      refine ⟨j, a, hstep.trans heq, ?_⟩
      rcases hbest with ⟨hself, hsmaller⟩ | hbest
      · cases hself
        exact .inr ⟨0, xs, rfl, rfl, hsmaller, hfirst⟩
      · exact .inl ⟨hbest, hfirst⟩
    · have hlt := hlt best' rfl
      refine ⟨j, a, hstep.trans heq, .inr ⟨m + 1, tl, by omega, hrow, ?_, hleft.cons ?_⟩⟩
      · intro p hp
        rcases hbest with ⟨rfl, hsmaller⟩ | hbest
        · exact hlt.trans (hsmaller p hp)
        · cases hbest.symm.trans hp
          exact hlt
      · intro c hc
        cases hc
        exact hlt.trans_le hle
  cases best with
  | none => exact .inr (hgo (i, x) rfl le_rfl (.inl ⟨rfl, nofun⟩))
  | some b =>
  by_cases hlt : key x < key b.2
  · refine .inr (hgo (i, x) (if_pos hlt) le_rfl (.inl ⟨rfl, fun p hp => ?_⟩))
    cases hp
    exact hlt
  · exact .inr (hgo b (if_neg hlt) (not_lt.mp hlt) (.inr rfl))

/-- **THE SCAN**: either every row is empty or `minHead` names the first row whose head no
    other head is below. -/
theorem minHead_spec (key : α → K) (rows : List (List α)) :
    (minHead key rows = none ∧ ∀ r ∈ rows, r = []) ∨
    ∃ i a tl, minHead key rows = some (i, a) ∧ rows[i]? = some (a :: tl) ∧
      Leftmost key rows i a := by
  rcases minHeadFrom_spec key rows 0 none with ⟨heq, -, hall⟩ |
    ⟨j, a, heq, ⟨hkeep, -⟩ | ⟨m, tl, hj, hrow, -, hleft⟩⟩
  · exact .inl ⟨heq, hall⟩
  · exact nomatch hkeep
  · obtain rfl : j = m := by omega
    exact .inr ⟨j, a, tl, heq, hrow, hleft⟩

theorem Leftmost.le {key : α → K} {rows : List (List α)} {m : Nat} {a : α}
    (h : Leftmost key rows m a) : ∀ r ∈ rows, ∀ c ∈ r.head?, key a ≤ key c := by
  intro r hr c hc
  obtain ⟨m', hm'⟩ := mem_iff_getElem?.mp hr
  exact (h m' r hm' c hc).1

/-! ## The executable merge is a trace -/

variable {rows : List (List α)}

/-- Advancing a row whose head is known replaces it by its tail. -/
theorem advance_eq_set {i : Nat} {a : α} {tl : List α} (h : rows[i]? = some (a :: tl)) :
    advance rows i = rows.set i tl := by
  obtain ⟨hi, hget⟩ := List.getElem?_eq_some_iff.mp h
  rw [advance, modify_eq_set_get _ hi]
  simp [hget]

/-- Taking a head off a row leaves the other elements. -/
theorem flatten_set_perm :
    ∀ {rows : List (List α)} {i : Nat} {a : α} {tl : List α},
      rows[i]? = some (a :: tl) → rows.flatten.Perm (a :: (rows.set i tl).flatten) := by
  intro rows
  induction rows with
  | nil => intro i a tl h; simp at h
  | cons r rows ih =>
  intro i a tl h
  cases i with
  | zero =>
    simp only [getElem?_cons_zero, Option.some.injEq] at h
    subst h
    simp
  | succ i =>
  have hp := ih (i := i) (by simpa using h)
  simp only [set_cons_succ, flatten_cons]
  exact (List.Perm.append_left r hp).trans perm_middle

theorem flatten_set_length_le {i n : Nat} {a : α} {tl : List α} (h : rows[i]? = some (a :: tl))
    (hn : rows.flatten.length ≤ n + 1) : (rows.set i tl).flatten.length ≤ n := by
  have hlen := (flatten_set_perm h).length_eq
  rw [length_cons] at hlen
  omega

/-- With enough steps the executable merge is a trace of its rows. -/
theorem mergeRows_trace (key : α → K) (n : Nat) (rows : List (List α))
    (hn : rows.flatten.length ≤ n) : MergeTrace key rows (mergeRows key n rows) := by
  induction n generalizing rows with
  | zero =>
    refine MergeTrace.done ?_
    have hnil : rows.flatten = [] := length_eq_zero_iff.mp (Nat.le_zero.mp hn)
    exact flatten_eq_nil_iff.mp hnil
  | succ n ih =>
  rcases minHead_spec key rows with ⟨heq, hall⟩ | ⟨i, a, tl, heq, hrow, hleft⟩
  · rw [mergeRows, heq]
    exact MergeTrace.done hall
  rw [mergeRows, heq]
  show MergeTrace key rows ((i, a) :: mergeRows key n (advance rows i))
  rw [advance_eq_set hrow]
  exact MergeTrace.step hrow hleft.le (ih _ (flatten_set_length_le hrow hn))

/-! ## What every trace has -/

variable {out : List (Nat × α)} {key : α → K}

/-- A trace visits each row completely and in order. -/
theorem trace_row (h : MergeTrace key rows out) (i : Nat) :
    (out.filter (fun p => p.1 = i)).map Prod.snd = rows[i]?.getD [] := by
  induction h with
  | done hall =>
    cases hr : (_ : List (List α))[i]? with
    | none => rfl
    | some r => exact (hall r (mem_of_getElem? hr)).symm
  | @step rows j a tl out hrow hmin _ ih =>
  have hj : j < rows.length := (List.getElem?_eq_some_iff.mp hrow).1
  by_cases hij : j = i
  · subst hij
    rw [filter_cons_of_pos (by simp), map_cons, ih, hrow]
    simp [hj]
  · rw [filter_cons_of_neg (by simpa using hij), ih, getElem?_set_ne hij]

/-- A trace visits every element once. -/
theorem trace_perm (h : MergeTrace key rows out) : (out.map Prod.snd).Perm rows.flatten := by
  induction h with
  | @done rows hall =>
    have hnil : rows.flatten = [] := flatten_eq_nil_iff.mpr hall
    rw [hnil]
    exact List.Perm.nil
  | @step rows i a tl out hrow _ _ ih =>
    exact (ih.cons a).trans (flatten_set_perm hrow).symm

/-- The head of a sorted row is below the rest of the row. -/
private theorem head_le_of_sorted {r : List α} (hs : r.Pairwise (fun a b => key a ≤ key b)) {c : α}
    (hc : c ∈ r) :
    ∃ b ∈ r.head?, key b ≤ key c := by
  cases r with
  | nil => exact nomatch hc
  | cons b tl =>
  refine ⟨b, rfl, ?_⟩
  rcases mem_cons.mp hc with rfl | hc
  · exact le_rfl
  · exact (pairwise_cons.mp hs).1 c hc

private theorem sorted_set {i : Nat} {a : α} {tl : List α} (hrow : rows[i]? = some (a :: tl))
    (hs : ∀ r ∈ rows, r.Pairwise (fun a b => key a ≤ key b)) :
    ∀ r ∈ rows.set i tl, r.Pairwise (fun a b => key a ≤ key b) := by
  intro r hr
  rcases mem_or_eq_of_mem_set hr with hr | rfl
  · exact hs r hr
  · exact (pairwise_cons.mp (hs _ (mem_of_getElem? hrow))).2

/-- **SORTED OUTPUT**: over sorted rows a trace is sorted. -/
theorem trace_sorted (h : MergeTrace key rows out)
    (hs : ∀ r ∈ rows, r.Pairwise (fun a b => key a ≤ key b)) :
    out.Pairwise (fun p q => key p.2 ≤ key q.2) := by
  induction h with
  | done _ => exact .nil
  | @step rows i a tl out hrow hmin hrest ih =>
  refine pairwise_cons.mpr ⟨fun q hq => ?_, ih (sorted_set hrow hs)⟩
  -- the element `q` still lies in some row, above that row's head
  have hmem : q.2 ∈ (rows.set i tl).flatten :=
    (trace_perm hrest).mem_iff.mp (mem_map_of_mem hq)
  have hmem' : q.2 ∈ rows.flatten :=
    (flatten_set_perm hrow).mem_iff.mpr (.tail _ hmem)
  obtain ⟨r, hr, hqr⟩ := mem_flatten.mp hmem'
  obtain ⟨b, hb, hbq⟩ := head_le_of_sorted (hs r hr) hqr
  exact le_trans (hmin r hr b hb) hbq

/-- An element of a trace comes from the row it is tagged with. -/
theorem mem_row_of_mem_trace (h : MergeTrace key rows out) {q : Nat × α} (hq : q ∈ out) :
    q.2 ∈ rows[q.1]?.getD [] := by
  rw [← trace_row h q.1]
  exact mem_map_of_mem (mem_filter.mpr ⟨hq, decide_eq_true rfl⟩)

/-! ## Ties go to the left row -/

/-- **LEFT ROWS FIRST**: over sorted rows the merge goes by key, and by row where
    the keys are equal. -/
theorem mergeRows_leftmost (key : α → K) (n : Nat) (rows : List (List α))
    (hn : rows.flatten.length ≤ n) (hs : ∀ r ∈ rows, r.Pairwise (fun a b => key a ≤ key b)) :
    (mergeRows key n rows).Pairwise (fun p q => key p.2 < key q.2 ∨ key p.2 = key q.2 ∧ p.1 ≤ q.1)
      := by
  induction n generalizing rows with
  | zero =>
    exact .nil
  | succ n ih =>
  rcases minHead_spec key rows with ⟨heq, -⟩ | ⟨i, a, tl, heq, hrow, hfirst⟩
  · rw [mergeRows, heq]
    exact .nil
  rw [mergeRows, heq]
  show ((i, a) :: mergeRows key n (advance rows i)).Pairwise _
  rw [advance_eq_set hrow]
  have hlen := flatten_set_length_le hrow hn
  refine pairwise_cons.mpr ⟨fun q hq => ?_, ih _ hlen (sorted_set hrow hs)⟩
  -- `q` lies in the row of its tag, above the head of that row
  have hmem := mem_row_of_mem_trace (mergeRows_trace key n _ hlen) hq
  obtain ⟨r, hr, hqr⟩ : ∃ r, rows[q.1]? = some r ∧ q.2 ∈ r := by
    by_cases hqi : i = q.1
    · have hlt : q.1 < rows.length := hqi ▸ (List.getElem?_eq_some_iff.mp hrow).1
      rw [← hqi, getElem?_set_self (hqi ▸ hlt), Option.getD_some] at hmem
      exact ⟨a :: tl, hqi ▸ hrow, .tail a hmem⟩
    rw [getElem?_set_ne hqi] at hmem
    cases hr : rows[q.1]? with
    | none => rw [hr] at hmem; exact nomatch hmem
    | some r => rw [hr] at hmem; exact ⟨r, rfl, hmem⟩
  obtain ⟨b, hb, hbq⟩ := head_le_of_sorted (hs r (mem_of_getElem? hr)) hqr
  obtain ⟨hle, hlt⟩ := hfirst q.1 r hr b hb
  by_cases hleft : q.1 < i
  · -- a row in front of `i`: its head is larger
    exact .inl ((hlt hleft).trans_le hbq)
  rcases lt_or_eq_of_le (hle.trans hbq) with h | h
  · exact .inl h
  · exact .inr ⟨h, by omega⟩

end RowMerge
