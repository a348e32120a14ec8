import MatrixKV.EventRunProofs

/-! # A heap with lazy deletion — PreparedHeap

    An element that is erased away from the top goes to a second heap and is dropped
    when it comes to the top of the first.

    * `live` — what is in the heap and not erased; `Tidy` — the top of the heap is below
      everything erased; `WF` — besides, only what is in the heap is erased.
    * `mem_live_pop`, `mem_live_push`, `mem_live_erase` — on `live` the operations are
      those of a set.
    * `heap_is_set_with_min` — so it is over every run, also one that erases what was
      popped before. -/

namespace PreparedHeap

open List EventRun

/-- `PreparedHeap`: the two priority queues, as sorted lists with the smallest first. -/
structure Heap where
  heap : List Nat := []
  erased : List Nat := []
  deriving DecidableEq, Repr

/-- The two loops of `pop`: erased elements are dropped from the top. -/
def clean : List Nat → List Nat → Heap
  | heap, [] => ⟨heap, []⟩
  | [], _ :: _ => ⟨[], []⟩
  | x :: xs, e :: es =>
    if e ≤ x then
      if x = e then clean xs es else clean (x :: xs) es
    else ⟨x :: xs, e :: es⟩

def Heap.pop (h : Heap) : Heap := clean h.heap.tail h.erased

def Heap.push (h : Heap) (v : Nat) : Heap := { h with heap := h.heap.orderedInsert (· ≤ ·) v }

def Heap.erase (h : Heap) (seq : Nat) : Heap :=
  match h.heap with
  | [] => h
  | top :: _ =>
    if seq < top then h
    else if top = seq then h.pop
    else { h with erased := h.erased.orderedInsert (· ≤ ·) seq }

/-! ## What is in the heap -/

/-- What the heap stands for: pushed and not erased. -/
def Heap.live (h : Heap) : List Nat := h.heap.filter (fun x => x ∉ h.erased)

theorem mem_live {h : Heap} {x : Nat} : x ∈ h.live ↔ x ∈ h.heap ∧ x ∉ h.erased := by
  rw [Heap.live, mem_filter, decide_eq_true_iff]

/-- Both queues in order, the erased numbers among the pushed ones, and never on top. -/
structure WF (h : Heap) : Prop where
  heap : h.heap.Pairwise (· < ·)
  erased : h.erased.Pairwise (· < ·)
  subset : ∀ e ∈ h.erased, e ∈ h.heap
  top : ∀ t ∈ h.heap.head?, t ∉ h.erased

theorem wf_empty : WF {} :=
  ⟨.nil, .nil, nofun, nofun⟩

/-- What every operation leaves behind, whether or not the erased elements are in the heap. -/
structure Tidy (h : Heap) : Prop where
  heap : h.heap.Pairwise (· < ·)
  erased : h.erased.Pairwise (· < ·)
  top : ∀ t ∈ h.heap.head?, ∀ e ∈ h.erased, t < e
  drained : h.heap = [] → h.erased = []

/-- Cleaning only pops from the front of both queues. -/
theorem clean_suffix (heap erased : List Nat) :
    (clean heap erased).heap <:+ heap ∧ (clean heap erased).erased <:+ erased := by
  fun_induction clean heap erased with
  | case1 heap => exact ⟨suffix_rfl, suffix_rfl⟩
  | case2 e es => exact ⟨suffix_rfl, nil_suffix⟩
  | case3 xs e es _ ih => exact ⟨ih.1.trans (suffix_cons ..), ih.2.trans (suffix_cons ..)⟩
  | case4 x xs e es _ _ ih => exact ⟨ih.1, ih.2.trans (suffix_cons ..)⟩
  | case5 x xs e es _ => exact ⟨suffix_rfl, suffix_rfl⟩

/-- Cleaning loses no live number, and leaves a tidy heap. -/
theorem clean_spec (heap erased : List Nat) (hheap : heap.Pairwise (· < ·))
    (herased : erased.Pairwise (· < ·)) : Tidy (clean heap erased) ∧
      ∀ x, x ∈ (clean heap erased).live ↔ x ∈ heap ∧ x ∉ erased := by
  fun_induction clean heap erased with
  | case1 heap => exact ⟨⟨hheap, .nil, nofun, fun _ => rfl⟩, fun x => mem_live⟩
  | case2 e es => exact ⟨⟨.nil, .nil, nofun, fun _ => rfl⟩, fun x =>
      ⟨nofun, fun hx => nomatch hx.1⟩⟩
  | case3 xs e es _ ih =>
    -- the top is erased
    obtain ⟨hx, hxs⟩ := pairwise_cons.mp hheap
    obtain ⟨htidy, hlive⟩ := ih hxs (pairwise_cons.mp herased).2
    refine ⟨htidy, fun y => (hlive y).trans ?_⟩
    rw [mem_cons, mem_cons, not_or]
    constructor
    · rintro ⟨hy, hyes⟩
      exact ⟨.inr hy, (Nat.ne_of_lt (hx y hy)).symm, hyes⟩
    · rintro ⟨hy, hne, hyes⟩
      exact ⟨hy.resolve_left hne, hyes⟩
  | case4 x xs e es hle hne ih =>
    -- the erased element is not in the heap
    have hlt : e < x := Nat.lt_of_le_of_ne hle (Ne.symm hne)
    obtain ⟨htidy, hlive⟩ := ih hheap (pairwise_cons.mp herased).2
    refine ⟨htidy, fun y => (hlive y).trans ⟨fun ⟨hy, hyes⟩ => ⟨hy, ?_⟩, fun ⟨hy, hyes⟩ =>
      ⟨hy, ?_⟩⟩⟩
    · rintro (_ | ⟨_, hmem⟩)
      · rcases mem_cons.mp hy with rfl | hy
        · exact hne rfl
        · exact Nat.not_lt_of_lt hlt ((pairwise_cons.mp hheap).1 e hy)
      · exact hyes hmem
    · exact fun hmem => hyes (.tail _ hmem)
  | case5 x xs e es hle =>
    refine ⟨⟨hheap, herased, ?_, nofun⟩, fun y => mem_live⟩
    rintro _ ⟨⟩ d hd
    rcases mem_cons.mp hd with rfl | hd
    · exact Nat.lt_of_not_le hle
    · exact (Nat.lt_of_not_le hle).trans ((pairwise_cons.mp herased).1 d hd)

/-- A new element keeps a strictly ascending list so. -/
theorem pairwise_orderedInsert {l : List Nat} {v : Nat} (hl : l.Pairwise (· < ·)) (hv : v ∉ l) :
    (l.orderedInsert (· ≤ ·) v).Pairwise (· < ·) := by
  have hsorted : (l.orderedInsert (· ≤ ·) v).Pairwise (· ≤ ·) :=
    .orderedInsert v _ (hl.imp Nat.le_of_lt)
  have hnodup : (l.orderedInsert (· ≤ ·) v).Nodup :=
    (perm_orderedInsert _ v l).nodup_iff.mpr (nodup_cons.mpr ⟨hv, hl.imp Nat.ne_of_lt⟩)
  exact (hsorted.and hnodup).imp (fun hab => Nat.lt_of_le_of_ne hab.1 hab.2)

section Operations

variable {h : Heap}

/-- The strict invariant implies the one that survives misuse. -/
theorem WF.tidy (hwf : WF h) : Tidy h where
  heap := hwf.heap
  erased := hwf.erased
  top := by
    intro t ht e he
    have hsorted := hwf.heap
    have hmem := hwf.subset e he
    obtain ⟨ts, hts⟩ := head?_eq_some_iff.mp ht
    rw [hts] at hsorted hmem
    rcases mem_cons.mp hmem with rfl | hmem
    · exact absurd he (hwf.top e ht)
    · exact (pairwise_cons.mp hsorted).1 e hmem
  drained := fun hnil => eq_nil_iff_forall_not_mem.mpr fun e he => by
    simpa [hnil] using hwf.subset e he

/-- And conversely when only pushed numbers were erased. -/
theorem Tidy.wf (ht : Tidy h) (hsubset : ∀ e ∈ h.erased, e ∈ h.heap) : WF h :=
  ⟨ht.heap, ht.erased, hsubset, fun t htop hmem => Nat.lt_irrefl t (ht.top t htop t hmem)⟩

/-- The three cases of `erase` on a heap with a top. -/
theorem erase_cons {seq top : Nat} {ts : List Nat} (hheap : h.heap = top :: ts) :
    h.erase seq = if seq < top then h else if top = seq then h.pop
      else { h with erased := h.erased.orderedInsert (· ≤ ·) seq } := by
  rw [Heap.erase, hheap]

/-! The operations on a tidy heap. -/

/-- The top is the smallest live element. -/
theorem Tidy.top_live (htidy : Tidy h) {t : Nat} {ts : List Nat} (ht : h.heap = t :: ts) :
    t ∈ h.live ∧ ∀ x ∈ h.live, t ≤ x := by
  have htop : t ∉ h.erased := fun hmem =>
    Nat.lt_irrefl t (htidy.top t (by rw [ht]; rfl) t hmem)
  refine ⟨mem_live.mpr ⟨ht ▸ .head _, htop⟩, ?_⟩
  intro x hx
  have hmem := (mem_live.mp hx).1
  have hsorted := htidy.heap
  rw [ht] at hmem hsorted
  rcases mem_cons.mp hmem with rfl | hmem
  · exact le_rfl
  · exact ((pairwise_cons.mp hsorted).1 x hmem).le

/-- Popping removes the top from the set. -/
theorem Tidy.pop (htidy : Tidy h) {t : Nat} {ts : List Nat} (ht : h.heap = t :: ts) :
    Tidy h.pop ∧ ∀ x, x ∈ h.pop.live ↔ x ∈ h.live ∧ x ≠ t := by
  have hsorted := htidy.heap
  rw [ht] at hsorted
  obtain ⟨hless, hts⟩ := pairwise_cons.mp hsorted
  obtain ⟨htidy', hlive⟩ := clean_spec ts h.erased hts htidy.erased
  rw [Heap.pop, ht]
  refine ⟨htidy', fun x => (hlive x).trans ?_⟩
  rw [mem_live, ht, mem_cons]
  constructor
  · rintro ⟨hx, hne⟩
    exact ⟨⟨.inr hx, hne⟩, (Nat.ne_of_lt (hless x hx)).symm⟩
  · rintro ⟨⟨hx, hne⟩, hxt⟩
    exact ⟨hx.resolve_left hxt, hne⟩

/-- Pushing a number that is in neither queue adds it to the set. -/
theorem Tidy.push (htidy : Tidy h) {v : Nat} (hheap : v ∉ h.heap) (herased : v ∉ h.erased) :
    Tidy (h.push v) ∧ ∀ x, x ∈ (h.push v).live ↔ x ∈ h.live ∨ x = v := by
  have hmem : ∀ x, x ∈ (h.push v).heap ↔ x = v ∨ x ∈ h.heap := fun x => mem_orderedInsert _
  refine ⟨⟨pairwise_orderedInsert htidy.heap hheap, htidy.erased, ?_, ?_⟩, ?_⟩
  · intro t ht e he
    cases hcases : h.heap with
    | nil => exact nomatch htidy.drained hcases ▸ he
    | cons x xs =>
    have hxe := htidy.top x (by rw [hcases]; rfl) e he
    change t ∈ (h.heap.orderedInsert _ v).head? at ht
    rw [hcases, List.orderedInsert] at ht
    split at ht
    · obtain rfl := Option.some.inj ht
      exact Nat.lt_of_le_of_lt ‹v ≤ x› hxe
    · obtain rfl := Option.some.inj ht
      exact hxe
  · exact fun hnil => nomatch hnil ▸ (hmem v).mpr (.inl rfl)
  · intro x
    rw [mem_live, mem_live, hmem]
    constructor
    · rintro ⟨rfl | hx, hne⟩
      · exact .inr rfl
      · exact .inl ⟨hx, hne⟩
    · rintro (⟨hx, hne⟩ | rfl)
      · exact ⟨.inr hx, hne⟩
      · exact ⟨.inl rfl, herased⟩

/-- `erase` takes its element out of the live ones, wherever the element is. -/
theorem Tidy.erase (htidy : Tidy h) {seq : Nat} (hnew : seq ∉ h.erased) :
    Tidy (h.erase seq) ∧ ∀ x, x ∈ (h.erase seq).live ↔ x ∈ h.live ∧ x ≠ seq := by
  cases hheap : h.heap with
  | nil =>
    have hlive : ∀ x, x ∉ h.live := fun x hx => nomatch hheap ▸ (mem_live.mp hx).1
    rw [Heap.erase, hheap]
    exact ⟨htidy, fun x => ⟨fun hx => absurd hx (hlive x), And.left⟩⟩
  | cons top ts =>
  rw [erase_cons hheap]
  split_ifs with hlt htop
  · refine ⟨htidy, fun x => ⟨fun hx => ⟨hx, ?_⟩, And.left⟩⟩
    exact (hlt.trans_le ((htidy.top_live hheap).2 x hx)).ne'
  · exact htop ▸ htidy.pop hheap
  have hmem : ∀ x, x ∈ h.erased.orderedInsert (· ≤ ·) seq ↔ x = seq ∨ x ∈ h.erased :=
    fun x => mem_orderedInsert _
  refine ⟨⟨htidy.heap, pairwise_orderedInsert htidy.erased hnew, ?_, ?_⟩, ?_⟩
  · intro t ht e he
    rcases (hmem e).mp he with rfl | he
    · rw [hheap] at ht
      obtain rfl := Option.some.inj ht
      exact Nat.lt_of_le_of_ne (Nat.not_lt.mp hlt) htop
    · exact htidy.top t ht e he
  · exact fun hnil => nomatch hheap.symm.trans hnil
  · intro x
    rw [mem_live, mem_live]
    show x ∈ h.heap ∧ x ∉ h.erased.orderedInsert _ seq ↔ _
    rw [hmem, not_or]
    exact ⟨fun ⟨hx, hne, her⟩ => ⟨⟨hx, her⟩, hne⟩, fun ⟨⟨hx, her⟩, hne⟩ => ⟨hx, hne, her⟩⟩

/-! The same where only what is in the heap is erased. -/

/-- The top is the smallest live number. -/
theorem WF.top_live (hwf : WF h) {t : Nat} {ts : List Nat} (ht : h.heap = t :: ts) :
    t ∈ h.live ∧ ∀ x ∈ h.live, t ≤ x :=
  hwf.tidy.top_live ht

/-- Popping removes the top and keeps the strict invariant. -/
theorem mem_live_pop (hwf : WF h) {t : Nat} {ts : List Nat} (ht : h.heap = t :: ts) :
    WF h.pop ∧ ∀ x, x ∈ h.pop.live ↔ x ∈ h.live ∧ x ≠ t := by
  obtain ⟨htidy, hlive⟩ := hwf.tidy.pop ht
  refine ⟨htidy.wf ?_, hlive⟩
  obtain ⟨⟨dropped, hheap⟩, herased⟩ := clean_suffix h.heap.tail h.erased
  intro e he
  have hmem := hwf.subset e (herased.subset he)
  have hsorted := hwf.heap
  have hsplit : h.heap = (t :: dropped) ++ h.pop.heap := by
    rw [cons_append, Heap.pop, hheap, ht, tail_cons]
  rw [hsplit] at hmem hsorted
  -- what was dropped is below the new top, what is still erased above it
  refine (mem_append.mp hmem).resolve_left fun hdropped => ?_
  cases hpop : h.pop.heap with
  | nil => exact nomatch htidy.drained hpop ▸ he
  | cons x xs =>
    have hxe := htidy.top x (by rw [hpop]; rfl) e he
    exact Nat.not_lt_of_lt hxe ((pairwise_append.mp hsorted).2.2 e hdropped x (hpop ▸ .head _))

/-- A new element is larger than all that are there. -/
theorem mem_live_push (hwf : WF h) {v : Nat} (hv : ∀ x ∈ h.heap, x < v) :
    WF (h.push v) ∧ ∀ x, x ∈ (h.push v).live ↔ x ∈ h.live ∨ x = v := by
  have hheap : v ∉ h.heap := fun hmem => Nat.lt_irrefl v (hv v hmem)
  obtain ⟨htidy, hlive⟩ := hwf.tidy.push hheap (fun hmem => hheap (hwf.subset v hmem))
  exact ⟨htidy.wf fun e he => (mem_orderedInsert _).mpr (.inr (hwf.subset e he)), hlive⟩

/-- Erasing a live number removes it and keeps the strict invariant. -/
theorem mem_live_erase (hwf : WF h) {seq : Nat} (hseq : seq ∈ h.live) :
    WF (h.erase seq) ∧ ∀ x, x ∈ (h.erase seq).live ↔ x ∈ h.live ∧ x ≠ seq := by
  obtain ⟨htidy, hlive⟩ := hwf.tidy.erase (mem_live.mp hseq).2
  refine ⟨?_, hlive⟩
  cases hheap : h.heap with
  | nil =>
    rw [Heap.erase, hheap]
    exact hwf
  | cons top ts =>
  rw [erase_cons hheap] at htidy ⊢
  split_ifs at htidy ⊢
  · exact hwf
  · exact (mem_live_pop hwf hheap).1
  · refine htidy.wf fun e he => ?_
    rcases (mem_orderedInsert _).mp he with rfl | he
    · exact (mem_live.mp hseq).1
    · exact hwf.subset e he

/-- What was popped before is not erased again. -/
theorem erase_of_lt (hwf : WF h) {seq : Nat} (hseq : ∀ x ∈ h.live, seq < x) : h.erase seq = h := by
  cases hheap : h.heap with
  | nil => rw [Heap.erase, hheap]
  | cons top ts =>
    rw [erase_cons hheap]
    exact if_pos (hseq top (hwf.top_live hheap).1)

/-- The loop that moves everything up to `max` out of the heap. -/
def popUpTo (max : Nat) : Nat → Heap → List Nat → Heap × List Nat
  | 0, h, out => (h, out)
  | fuel + 1, h, out =>
    match h.heap with
    | [] => (h, out)
    | top :: _ => if top ≤ max then popUpTo max fuel h.pop (out.insert top) else (h, out)

theorem not_mem_live (hheap : h.heap = []) (x : Nat) : x ∉ h.live :=
  fun hx => nomatch hheap ▸ (mem_live.mp hx).1

/-- The loop stops where nothing up to `max` is live. -/
theorem popUpTo_stop {max : Nat} (hmax : ∀ x ∈ h.live, max < x) (out : List Nat) :
    (∀ x, x ∈ h.live ↔ x ∈ h.live ∧ max < x) ∧ ∀ x, x ∈ out ↔ x ∈ out ∨ (x ∈ h.live ∧ x ≤ max) := by
  refine ⟨fun x => ⟨fun hx => ⟨hx, hmax x hx⟩, And.left⟩, fun x => ⟨.inl, ?_⟩⟩
  exact fun hx => hx.resolve_right fun hx => absurd hx.2 (Nat.not_le_of_lt (hmax x hx.1))

/-- The loop takes out the live numbers up to `max`, and only these. -/
theorem popUpTo_spec (max fuel : Nat) {h : Heap} {out : List Nat} (hwf : WF h)
    (hlen : h.heap.length ≤ fuel) : WF (popUpTo max fuel h out).1 ∧
      (∀ x, x ∈ (popUpTo max fuel h out).1.live ↔ x ∈ h.live ∧ max < x) ∧
      ∀ x, x ∈ (popUpTo max fuel h out).2 ↔ x ∈ out ∨ (x ∈ h.live ∧ x ≤ max) := by
  fun_induction popUpTo max fuel h out with
  | case1 h out =>
    have hnil := length_eq_zero_iff.mp (Nat.le_zero.mp hlen)
    exact ⟨hwf, popUpTo_stop (fun x hx => absurd hx (not_mem_live hnil x)) out⟩
  | case2 fuel h out hnil =>
    exact ⟨hwf, popUpTo_stop (fun x hx => absurd hx (not_mem_live hnil x)) out⟩
  | case3 fuel h out top ts hheap hle ih =>
    obtain ⟨htop, hmin⟩ := hwf.top_live hheap
    obtain ⟨hwf', hlive⟩ := mem_live_pop hwf hheap
    have hlen' : h.pop.heap.length ≤ fuel := by
      rw [hheap] at hlen
      have hclean := (clean_suffix ts h.erased).1.length_le
      rw [Heap.pop, hheap]
      exact hclean.trans (Nat.le_of_succ_le_succ hlen)
    obtain ⟨hwf'', hlive', hout⟩ := ih hwf' hlen'
    refine ⟨hwf'', fun x => (hlive' x).trans ?_, fun x => (hout x).trans ?_⟩
    · rw [hlive]
      constructor
      · exact fun ⟨⟨hx, _⟩, hmax⟩ => ⟨hx, hmax⟩
      · exact fun ⟨hx, hmax⟩ => ⟨⟨hx, (Nat.ne_of_lt (hle.trans_lt hmax)).symm⟩, hmax⟩
    rw [hlive, mem_insert_iff]
    constructor
    · rintro ((rfl | hx) | ⟨⟨hx, -⟩, hmax⟩)
      · exact .inr ⟨htop, hle⟩
      · exact .inl hx
      · exact .inr ⟨hx, hmax⟩
    rintro (hx | ⟨hx, hmax⟩)
    · exact .inl (.inr hx)
    · by_cases hxt : x = top
      · exact .inl (.inl hxt)
      · exact .inr ⟨⟨hx, hxt⟩, hmax⟩
  | case4 fuel h out top ts hheap hle =>
    have hmin := (hwf.top_live hheap).2
    exact ⟨hwf, popUpTo_stop (fun x hx => (Nat.lt_of_not_le hle).trans_le (hmin x hx)) out⟩

/-! ## The heap never gets new elements but by `push` -/

theorem pop_subset : ∀ x ∈ h.pop.heap, x ∈ h.heap :=
  fun _ hx => mem_of_mem_tail ((clean_suffix h.heap.tail h.erased).1.subset hx)

/-- `erase` ignores the number, pops it, or notes it. -/
theorem erase_cases (h : Heap) (seq : Nat) : h.erase seq = h ∨ h.erase seq = h.pop ∨
    h.erase seq = { h with erased := h.erased.orderedInsert (· ≤ ·) seq } := by
  rw [Heap.erase]
  split
  · exact .inl rfl
  split_ifs
  · exact .inl rfl
  · exact .inr (.inl rfl)
  · exact .inr (.inr rfl)

/-- Erasing adds nothing to the heap. -/
theorem erase_subset (seq : Nat) : ∀ x ∈ (h.erase seq).heap, x ∈ h.heap := by
  rcases erase_cases h seq with heq | heq | heq <;> rw [heq]
  · exact fun _ hx => hx
  · exact pop_subset
  · exact fun _ hx => hx

/-- Nor does the second heap but by `erase`. -/
theorem erased_erase (seq : Nat) : ∀ x ∈ (h.erase seq).erased, x = seq ∨ x ∈ h.erased := by
  rcases erase_cases h seq with heq | heq | heq <;> rw [heq]
  · exact fun _ hx => .inr hx
  · exact fun x hx => .inr ((clean_suffix ..).2.subset hx)
  · exact fun x hx => (mem_orderedInsert _).mp hx

/-- Nor does popping. -/
theorem popUpTo_subset (max fuel : Nat) (h : Heap) (out : List Nat) :
    ∀ x ∈ (popUpTo max fuel h out).1.heap, x ∈ h.heap := by
  fun_induction popUpTo max fuel h out with
  | case1 h out => exact fun x hx => hx
  | case2 fuel h out _ => exact fun x hx => hx
  | case3 fuel h out top ts _ _ ih => exact fun x hx => pop_subset x (ih x hx)
  | case4 fuel h out top ts _ _ => exact fun x hx => hx

end Operations

/-! ## Runs

    Values are pushed once and erased once, popped before or not. -/

/-- The calls of the class. -/
inductive Op
  | push (v : Nat)
  | erase (seq : Nat)
  | pop
  deriving DecidableEq, Repr

/-- The heap and the values the calls named so far. -/
structure Run where
  heap : Heap := {}
  pushed : Finset Nat := ∅
  erased : Finset Nat := ∅
  popped : Finset Nat := ∅

/-- One call, on the heap and on the sets of numbers pushed, erased and popped. -/
def step (s : Run) : Op → Run
  | .push v => { s with heap := s.heap.push v, pushed := insert v s.pushed }
  | .erase seq => { s with heap := s.heap.erase seq, erased := insert seq s.erased }
  | .pop =>
    match s.heap.heap with
    | [] => s
    | top :: _ => { s with heap := s.heap.pop, popped := insert top s.popped }

/-- The callers' side: distinct values, each erased once, no `pop` of an empty heap. -/
def Allowed (s : Run) : Op → Prop
  | .push v => v ∉ s.pushed
  | .erase seq => seq ∈ s.pushed ∧ seq ∉ s.erased
  | .pop => s.heap.heap ≠ []

/-- Pushed and neither erased nor popped. -/
def Run.Contains (s : Run) (x : Nat) : Prop := x ∈ s.pushed ∧ x ∉ s.erased ∧ x ∉ s.popped

/-- The heap agrees with the sets of a run. -/
structure Inv (s : Run) : Prop where
  tidy : Tidy s.heap
  live : ∀ x, x ∈ s.heap.live ↔ s.Contains x
  heap : ∀ x ∈ s.heap.heap, x ∈ s.pushed
  erased : ∀ x ∈ s.heap.erased, x ∈ s.erased
  pushed : ∀ x, x ∈ s.erased ∨ x ∈ s.popped → x ∈ s.pushed

/-- Pushing a new number keeps the invariant. -/
theorem inv_push {s : Run} (hs : Inv s) {v : Nat} (hv : v ∉ s.pushed) : Inv (step s (.push v)) := by
  have herased : v ∉ s.erased := fun hmem => hv (hs.pushed v (.inl hmem))
  have hpopped : v ∉ s.popped := fun hmem => hv (hs.pushed v (.inr hmem))
  obtain ⟨htidy, hlive⟩ := hs.tidy.push (fun hmem => hv (hs.heap v hmem))
    (fun hmem => herased (hs.erased v hmem))
  refine ⟨htidy, fun x => (hlive x).trans ?_, ?_, hs.erased, ?_⟩
  · simp only [hs.live, Run.Contains, step, Finset.mem_insert]
    constructor
    · rintro (⟨hx, hne⟩ | rfl)
      · exact ⟨.inr hx, hne⟩
      · exact ⟨.inl rfl, herased, hpopped⟩
    · rintro ⟨rfl | hx, hne⟩
      · exact .inr rfl
      · exact .inl ⟨hx, hne⟩
  · exact fun x hx => Finset.mem_insert.mpr (((mem_orderedInsert _).mp hx).imp_right (hs.heap x))
  · exact fun x hx => Finset.mem_insert_of_mem (hs.pushed x hx)

/-- So does the first `erase` of a pushed number, -/
theorem inv_erase {s : Run} (hs : Inv s) {seq : Nat} (hpushed : seq ∈ s.pushed)
    (hseq : seq ∉ s.erased) : Inv (step s (.erase seq)) := by
  obtain ⟨htidy, hlive⟩ := hs.tidy.erase (fun hmem => hseq (hs.erased seq hmem))
  refine ⟨htidy, fun x => (hlive x).trans ?_, ?_, ?_, ?_⟩
  · simp only [hs.live, Run.Contains, step, Finset.mem_insert, not_or]
    exact ⟨fun ⟨⟨hx, her, hpop⟩, hne⟩ => ⟨hx, ⟨hne, her⟩, hpop⟩,
      fun ⟨hx, ⟨hne, her⟩, hpop⟩ => ⟨⟨hx, her, hpop⟩, hne⟩⟩
  · exact fun x hx => hs.heap x (erase_subset seq x hx)
  · exact fun x hx => Finset.mem_insert.mpr ((erased_erase seq x hx).imp_right (hs.erased x))
  rintro x (hx | hx)
  · rcases Finset.mem_insert.mp hx with rfl | hx
    · exact hpushed
    · exact hs.pushed x (.inl hx)
  · exact hs.pushed x (.inr hx)

/-- and so does popping the top. -/
theorem inv_pop {s : Run} (hs : Inv s) {top : Nat} {ts : List Nat}
    (hheap : s.heap.heap = top :: ts) : Inv (step s .pop) := by
  obtain ⟨htidy, hlive⟩ := hs.tidy.pop hheap
  have hstep : step s .pop = { s with heap := s.heap.pop, popped := insert top s.popped } := by
    rw [step, hheap]
  rw [hstep]
  refine ⟨htidy, fun x => (hlive x).trans ?_, ?_, ?_, ?_⟩
  · simp only [hs.live, Run.Contains, Finset.mem_insert, not_or]
    exact ⟨fun ⟨⟨hx, her, hpop⟩, hne⟩ => ⟨hx, her, hne, hpop⟩,
      fun ⟨hx, her, hne, hpop⟩ => ⟨⟨hx, her, hpop⟩, hne⟩⟩
  · exact fun x hx => hs.heap x (pop_subset x hx)
  · exact fun x hx => hs.erased x ((clean_suffix ..).2.subset hx)
  rintro x (hx | hx)
  · exact hs.pushed x (.inl hx)
  · rcases Finset.mem_insert.mp hx with rfl | hx
    · exact hs.heap x (hheap ▸ .head _)
    · exact hs.pushed x (.inr hx)

theorem inv_step (s : Run) (op : Op) (hs : Inv s) (hop : Allowed s op) : Inv (step s op) := by
  cases op with
  | push v => exact inv_push hs hop
  | erase seq => exact inv_erase hs hop.1 hop.2
  | pop =>
    obtain ⟨top, ts, hheap⟩ := exists_cons_of_ne_nil hop
    exact inv_pop hs hheap

theorem inv_start : Inv {} where
  tidy := wf_empty.tidy
  live _ := ⟨nofun, fun hx => absurd hx.1 (Finset.notMem_empty _)⟩
  heap := nofun
  erased := nofun
  pushed _ hx := hx.elim id id

/-- **A SET WITH MINIMUM**: after every run `empty` and `top` are those of the values pushed
    and neither erased nor popped, and nothing erased is left in an empty heap. -/
theorem heap_is_set_with_min (ops : List Op)
    (hops : Never step (fun s op => ¬ Allowed s op) {} ops) :
    let s := run step {} ops
    (s.heap.heap = [] ↔ ∀ x, ¬ s.Contains x) ∧
      (∀ t ∈ s.heap.heap.head?, s.Contains t ∧ ∀ x, s.Contains x → t ≤ x) ∧
      (s.heap.heap = [] → s.heap.erased = []) := by
  have hinv : Inv (run step {} ops) := run_allowed inv_step ops {} inv_start hops
  simp only [← hinv.live]
  refine ⟨⟨fun hnil x hx => ?_, fun hnone => ?_⟩, ?_, hinv.tidy.drained⟩
  · exact nomatch hnil ▸ (mem_live.mp hx).1
  · cases hheap : (run step {} ops).heap.heap with
    | nil => rfl
    | cons t ts => exact absurd (hinv.tidy.top_live hheap).1 (hnone t)
  · intro t ht
    obtain ⟨ts, hheap⟩ := head?_eq_some_iff.mp ht
    exact hinv.tidy.top_live hheap

/-- `5` is popped before it is erased, with a smaller value on top by then. -/
theorem popped_before_erased :
    let ops := [.push 5, .pop, .push 3, .erase 5, .push 7, .pop]
    Never step (fun s op => ¬ Allowed s op) {} ops ∧
      ∀ t ∈ (run step {} ops).heap.heap.head?, (run step {} ops).Contains t := by
  have hops : Never step (fun s op => ¬ Allowed s op) {}
      [.push 5, .pop, .push 3, .erase 5, .push 7, .pop] := by
    simp [Never, Allowed, step, Heap.push, Heap.pop, Heap.erase, clean]
  exact ⟨hops, fun t ht => ((heap_is_set_with_min _ hops).2.1 t ht).1⟩

end PreparedHeap
