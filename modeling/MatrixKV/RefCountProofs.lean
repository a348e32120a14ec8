import Mathlib

/-! # Reference counts

    Holders are lists of items; an item is counted once for every occurrence in a
    holder.  `Counts` says that the counters are right.  A new holder takes its
    references with `retain`; a holder that goes away gives them back one by one
    with `dropAll`, which collects the items left without a reference.

    * `Counts.dropAll` — what is collected is exactly what no other holder has. -/

namespace RefCount

open List

variable {I : Type} [DecidableEq I]

/-- The counters agree with the holders. -/
def Counts (refs : I → Nat) (holders : List (List I)) : Prop :=
  ∀ i, refs i = holders.flatten.count i

/-- A reference to each item of the list. -/
def retain (refs : I → Nat) (l : List I) : I → Nat :=
  l.foldl (fun r i => Function.update r i (r i + 1)) refs

/-- One reference is given back; an item without references is collected. -/
def dropOne (st : (I → Nat) × List I) (i : I) : (I → Nat) × List I :=
  (Function.update st.1 i (st.1 i - 1),
    if st.1 i - 1 = 0 then st.2 ++ [i] else st.2)

def dropAll (refs : I → Nat) (l : List I) : (I → Nat) × List I := l.foldl dropOne (refs, [])

theorem retain_apply (l : List I) (refs : I → Nat) (i : I) :
    retain refs l i = refs i + l.count i := by
  induction l generalizing refs i with
  | nil => rfl
  | cons j l ih =>
  show retain (Function.update refs j (refs j + 1)) l i = _
  rw [ih, count_cons]
  by_cases hij : i = j
  · subst hij
    rw [Function.update_self, if_pos (beq_self_eq_true i)]
    omega
  · rw [Function.update_of_ne hij, if_neg (fun h => hij (eq_of_beq h).symm), Nat.add_zero]

/-- The counters after a list of references is given back. -/
theorem foldl_dropOne_fst (l : List I) (st : (I → Nat) × List I) (i : I) :
    (l.foldl dropOne st).1 i = st.1 i - l.count i := by
  induction l generalizing st i with
  | nil => rfl
  | cons j l ih =>
  rw [foldl_cons, ih, count_cons]
  show Function.update st.1 j (st.1 j - 1) i - l.count i = _
  by_cases hij : i = j
  · subst hij
    rw [Function.update_self, if_pos (beq_self_eq_true i)]
    omega
  · rw [Function.update_of_ne hij, if_neg (fun h => hij (eq_of_beq h).symm), Nat.add_zero]

/-- An item is collected when its last reference is among those given back. -/
theorem mem_foldl_dropOne (l : List I) :
    ∀ (st : (I → Nat) × List I), (∀ i, l.count i ≤ st.1 i) → ∀ i,
      i ∈ (l.foldl dropOne st).2 ↔ i ∈ st.2 ∨ (i ∈ l ∧ st.1 i = l.count i) := by
  induction l with
  | nil => intro st _ i; simp
  | cons j l ih =>
  intro st hle i
  have hj : l.count j + 1 ≤ st.1 j := by
    have := hle j
    rwa [count_cons_self] at this
  have hrest : ∀ k, l.count k ≤ (dropOne st j).1 k := by
    intro k
    show _ ≤ Function.update st.1 j (st.1 j - 1) k
    by_cases hkj : k = j
    · subst hkj
      rw [Function.update_self]
      omega
    · rw [Function.update_of_ne hkj]
      exact Nat.le_trans count_le_count_cons (hle k)
  rw [foldl_cons, ih _ hrest]
  -- what the first drop itself collects
  have hfirst : i ∈ (dropOne st j).2 ↔ i ∈ st.2 ∨ (i = j ∧ st.1 j - 1 = 0) := by
    show i ∈ (if st.1 j - 1 = 0 then st.2 ++ [j] else st.2) ↔ _
    split_ifs with h0
    · rw [mem_append, mem_singleton]
      exact or_congr_right ⟨fun h => ⟨h, h0⟩, And.left⟩
    · exact ⟨.inl, fun h => h.resolve_right (fun hz => h0 hz.2)⟩
  rw [hfirst, or_assoc]
  refine or_congr_right ?_
  show _ ∨ (i ∈ l ∧ Function.update st.1 j (st.1 j - 1) i = l.count i) ↔ _
  by_cases hij : i = j
  · subst hij
    rw [Function.update_self, count_cons_self]
    have hpos := @count_pos_iff _ _ _ i l
    constructor
    · rintro (⟨-, h0⟩ | ⟨-, h1⟩)
      · exact ⟨.head _, by omega⟩
      · exact ⟨.head _, by omega⟩
    · rintro ⟨-, h1⟩
      by_cases h0 : st.1 i - 1 = 0
      · exact .inl ⟨rfl, h0⟩
      · exact .inr ⟨hpos.mp (by omega), by omega⟩
  · rw [Function.update_of_ne hij, count_cons_of_ne (Ne.symm hij), mem_cons]
    constructor
    · rintro (⟨h, -⟩ | ⟨hi, hc⟩)
      · exact absurd h hij
      · exact ⟨.inr hi, hc⟩
    · rintro ⟨hi, hc⟩
      exact .inr ⟨hi.resolve_left hij, hc⟩

section Counts

variable {refs : I → Nat} {l : List I} {hs : List (List I)}

theorem Counts.retain (h : Counts refs hs) (l : List I) : Counts (RefCount.retain refs l)
    (l :: hs) := by
  intro i
  rw [retain_apply, h i, flatten_cons, count_append, Nat.add_comm]

/-- The order of the holders does not matter. -/
theorem Counts.perm (h : Counts refs hs) {hs' : List (List I)} (hperm : hs.Perm hs') :
    Counts refs hs' :=
  fun i => (h i).trans (hperm.flatten.count_eq i)

/-- **THE LAST REFERENCE**: when a holder goes away the counters stay right, and
    what is collected is what no other holder has. -/
theorem Counts.dropAll (h : Counts refs (l :: hs)) :
    Counts (RefCount.dropAll refs l).1 hs ∧
    ∀ i, i ∈ (RefCount.dropAll refs l).2 ↔ i ∈ l ∧ ∀ k ∈ hs, i ∉ k := by
  have hcount : ∀ i, refs i = l.count i + hs.flatten.count i := by
    intro i
    rw [h i, flatten_cons, count_append]
  refine ⟨?_, ?_⟩
  · intro i
    rw [RefCount.dropAll, foldl_dropOne_fst]
    show refs i - l.count i = _
    rw [hcount i, Nat.add_sub_cancel_left]
  intro i
  have hle : ∀ j, l.count j ≤ refs j := by
    intro j
    rw [hcount j]
    exact Nat.le_add_right _ _
  rw [RefCount.dropAll, mem_foldl_dropOne l (refs, []) hle]
  have hzero : refs i = l.count i ↔ ∀ k ∈ hs, i ∉ k := by
    rw [hcount i, Nat.add_eq_left, count_eq_zero, mem_flatten]
    exact ⟨fun hn k hk hi => hn ⟨k, hk, hi⟩, fun hn ⟨k, hk, hi⟩ => hn k hk hi⟩
  rw [hzero]
  exact ⟨fun hm => hm.resolve_left not_mem_nil, .inr⟩

end Counts

end RefCount
