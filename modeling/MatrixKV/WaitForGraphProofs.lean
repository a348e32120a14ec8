import MatrixKV.TransactionLockMgrProofs

/-! # Deadlock detection — IncrementWaiters and DecrementWaiters

    A transaction that has to wait records whom it waits for and searches the recorded
    edges for itself, breadth first, through a queue of fixed size: what does not fit is
    dropped, and a search that fills the queue reports a deadlock.

    * `search_noCycle`, `search_cycle` — a search that says "no" has dropped nothing and did
      not meet the transaction; one that finds it has come along recorded edges.
    * **`acyclic_always`**: the recorded graph never has a cycle, and the counts are exact.
    * **`deadlock_real`**: when a reported deadlock is a cycle of several transactions. -/

namespace WaitForGraph

open List Relation EventRun TransactionLockMgr

/-! ## The search -/

/-- `tooBig`: "Wait cycle too big, just assume deadlock". -/
inductive Outcome
  | noCycle | cycle | tooBig
  deriving DecidableEq, Repr

section Search

variable {α : Type} [DecidableEq α] (wait : α → Option (List α)) (id : α) (depth : Nat)

/-- The loop over `head`, with `depth - head` rounds left; `pending` is the queue from `head`
    to `tail`, `nextIds` what is to be queued next. -/
def search : Nat → Nat → List α → Option (List α) → Outcome
  | 0, _, _, _ => .tooBig
  | rounds + 1, tail, pending, nextIds =>
    let queued := (nextIds.getD []).take (depth - tail)
    match pending ++ queued with
    | [] => .noCycle
    | next :: rest =>
      if next = id then .cycle
      else search rounds (tail + queued.length) rest (wait next)

def Edge (x y : α) : Prop := ∃ ids, wait x = some ids ∧ y ∈ ids

variable {wait id depth}

/-- With the queue full, no round finds it empty. -/
theorem search_full (rounds : Nat) (pending : List α) (nextIds : Option (List α))
    (hlen : pending.length = rounds) :
    search wait id depth rounds depth pending nextIds ≠ .noCycle := by
  induction rounds generalizing pending nextIds with
  | zero => nofun
  | succ rounds ih =>
  obtain ⟨next, rest, rfl⟩ := exists_cons_of_length_eq_add_one hlen
  simp only [search, Nat.sub_self, take_zero, append_nil, length_nil, Nat.add_zero]
  split
  · nofun
  · exact ih rest _ (Nat.succ.inj hlen)

/-- **NO CYCLE**: nothing was dropped, and the transaction cannot be reached. -/
theorem search_noCycle (rounds tail : Nat) (pending : List α) (nextIds : Option (List α))
    (htail : tail ≤ depth) (hrounds : tail + rounds = depth + pending.length)
    (h : search wait id depth rounds tail pending nextIds = .noCycle) :
    ∀ x ∈ pending ++ nextIds.getD [], ¬ ReflTransGen (Edge wait) x id := by
  fun_induction search wait id depth rounds tail pending nextIds with
  | case1 => exact nomatch h
  | case2 rounds tail pending nextIds queued hqueue =>
    obtain ⟨rfl, hnil⟩ := append_eq_nil_iff.mp hqueue
    rw [length_nil] at hrounds
    rcases take_eq_nil_iff.mp hnil with hfull | hnil
    · omega
    · rw [hnil]
      nofun
  | case3 => exact nomatch h
  | case4 rounds tail pending nextIds queued next rest hqueue hnext ih =>
    have hlen := congrArg length hqueue
    have hqueued : queued.length = min (depth - tail) (nextIds.getD []).length := length_take
    rw [length_append, length_cons] at hlen
    by_cases hfit : (nextIds.getD []).length ≤ depth - tail
    · have ih := ih (by omega) (by omega) h
      rw [← take_of_length_le hfit]
      show ∀ x ∈ pending ++ queued, _
      rw [hqueue]
      intro x hx hreach
      rcases mem_cons.mp hx with rfl | hx
      · -- it is not the transaction, so the path starts with one of its edges
        rcases hreach.cases_head with heq | ⟨y, ⟨ids, hids, hy⟩, hreach⟩
        · exact hnext heq
        · exact ih y (mem_append_right _ (by rw [hids]; exact hy)) hreach
      · exact ih x (mem_append_left _ hx) hreach
    · -- a queue that has dropped an id is full
      rw [show tail + queued.length = depth by omega] at h
      exact absurd h (search_full rounds rest _ (by omega))

/-- **A CYCLE**: what is queued is reached along recorded edges. -/
theorem search_cycle (rounds tail : Nat) (pending : List α) (nextIds : Option (List α))
    (h : search wait id depth rounds tail pending nextIds = .cycle) :
    ∃ x ∈ pending ++ nextIds.getD [], ReflTransGen (Edge wait) x id := by
  have hsub : ∀ (pending : List α) (nextIds : Option (List α)) (n : Nat),
      pending ++ (nextIds.getD []).take n ⊆ pending ++ nextIds.getD [] :=
    fun _ _ _ => ((take_sublist _ _).append_left _).subset
  fun_induction search wait id depth rounds tail pending nextIds with
  | case1 => exact nomatch h
  | case2 => exact nomatch h
  | case3 rounds tail pending nextIds queued rest hqueue =>
    exact ⟨id, hsub _ _ _ (hqueue ▸ mem_cons_self : id ∈ pending ++ queued), .refl⟩
  | case4 rounds tail pending nextIds queued next rest hqueue hnext ih =>
  have hsub := hsub pending nextIds (depth - tail)
  rw [hqueue] at hsub
  obtain ⟨x, hx, hreach⟩ := ih h
  rcases mem_append.mp hx with hx | hx
  · exact ⟨x, hsub (.tail _ hx), hreach⟩
  refine ⟨next, hsub (.head _), .head ?_ hreach⟩
  cases hids : wait next with
  | none => simp [hids] at hx
  | some ids => exact ⟨ids, hids, by simpa [hids] using hx⟩

end Search

/-! ## The maps -/

/-- `wait_txn_map_` and `rev_wait_txn_map_`; a count of 0 is an absent entry. -/
@[ext] structure Graph where
  wait : List (TransactionID × List TransactionID) := []
  rev : TransactionID → Nat := fun _ => 0

/-- The entry of a transaction. -/
def Graph.neighbors (g : Graph) (id : TransactionID) : Option (List TransactionID) :=
  (g.wait.find? (fun w => w.1 = id)).map Prod.snd

def Graph.insert (g : Graph) (id : TransactionID) (waitIds : List TransactionID) : Graph :=
  { wait := (id, waitIds) :: g.wait
    rev := waitIds.foldl (fun r x => Function.update r x (r x + 1)) g.rev }

def Graph.decrementWaitersImpl (g : Graph) (id : TransactionID) (waitIds : List TransactionID) :
    Graph :=
  { wait := g.wait.filter (fun w => w.1 ≠ id)
    rev := waitIds.foldl (fun r x => Function.update r x (r x - 1)) g.rev }

/-- `IncrementWaiters` returns true unless there is no cycle. -/
def incrementWaiters (g : Graph) (id : TransactionID) (waitIds : List TransactionID) (depth : Nat) :
    Outcome × Graph :=
  let g' := g.insert id waitIds
  if g'.rev id = 0 then (.noCycle, g')
  else
    match search g'.neighbors id depth depth 0 [] (some waitIds) with
    | .noCycle => (.noCycle, g')
    | o => (o, g'.decrementWaitersImpl id waitIds)

inductive Event
  | increment (id : TransactionID) (waitIds : List TransactionID) (depth : Nat)
  | decrement (id : TransactionID)

/-- A transaction that waits calls nothing but `DecrementWaiters`, with the ids it waits for,
    and only then. -/
def step (g : Graph) : Event → Graph
  | .increment id waitIds depth =>
    if (g.neighbors id).isSome then g else (incrementWaiters g id waitIds depth).2
  | .decrement id =>
    match g.neighbors id with
    | none => g
    | some waitIds => g.decrementWaitersImpl id waitIds

/-- The number of recorded edges into a transaction. -/
def edgesInto (wait : List (TransactionID × List TransactionID)) (y : TransactionID) : Nat :=
  (wait.flatMap Prod.snd).count y

/-- The graph has no cycle, the counts are those of its edges, and nobody waits twice. -/
structure Sound (g : Graph) : Prop where
  acyclic : ∀ x, ¬ TransGen (Edge g.neighbors) x x
  rev : ∀ y, g.rev y = edgesInto g.wait y
  nodup : (g.wait.map Prod.fst).Nodup

/-! ## The counts -/

variable {g : Graph} {id x y : TransactionID} {waitIds : List TransactionID}

theorem foldl_update (f : Nat → Nat) (y : TransactionID) (ids : List TransactionID)
    (r : TransactionID → Nat) :
    ids.foldl (fun r x => Function.update r x (f (r x))) r y = f^[ids.count y] (r y) := by
  induction ids generalizing r with
  | nil => exact rfl
  | cons x ids ih =>
  rw [foldl_cons, ih, count_cons]
  by_cases h : x = y
  · rw [h, Function.update_self, beq_self_eq_true, if_pos rfl, Function.iterate_succ_apply]
  · rw [Function.update_of_ne (Ne.symm h), if_neg (by simpa using h), Nat.add_zero]

theorem rev_insert : (g.insert id waitIds).rev y = g.rev y + waitIds.count y :=
  (foldl_update Nat.succ y waitIds g.rev).trans (Nat.succ_iterate _ _)

theorem rev_decrement : (g.decrementWaitersImpl id waitIds).rev y = g.rev y - waitIds.count y :=
  (foldl_update Nat.pred y waitIds g.rev).trans (Nat.pred_iterate _ _)

theorem edgesInto_cons (w : TransactionID × List TransactionID)
    (wait : List (TransactionID × List TransactionID)) (y : TransactionID) :
    edgesInto (w :: wait) y = w.2.count y + edgesInto wait y := by
  rw [edgesInto, flatMap_cons, count_append, edgesInto]

theorem mem_wait (h : g.neighbors x = some waitIds) : (x, waitIds) ∈ g.wait := by
  obtain ⟨w, hw, rfl⟩ := Option.map_eq_some_iff.mp h
  obtain rfl : w.1 = x := by simpa using find?_some hw
  exact mem_of_find?_eq_some hw

theorem filter_of_notMem {wait : List (TransactionID × List TransactionID)}
    (h : id ∉ wait.map Prod.fst) : wait.filter (fun w => w.1 ≠ id) = wait := by
  refine filter_eq_self.mpr fun w hw => ?_
  have hne : w.1 ≠ id := fun heq => h (heq ▸ mem_map_of_mem hw)
  simpa using hne

/-- A waiting transaction takes its edges with it. -/
theorem edgesInto_filter {wait : List (TransactionID × List TransactionID)}
    (hnodup : (wait.map Prod.fst).Nodup) (h : (id, waitIds) ∈ wait) (y : TransactionID) :
    edgesInto wait y = waitIds.count y + edgesInto (wait.filter (fun w => w.1 ≠ id)) y := by
  induction wait with
  | nil => exact nomatch h
  | cons w wait ih =>
  obtain ⟨hnot, hrest⟩ := nodup_cons.mp hnodup
  rcases mem_cons.mp h with rfl | h
  · rw [edgesInto_cons, filter_cons_of_neg (by simp), filter_of_notMem hnot]
  have hne : w.1 ≠ id := fun heq => hnot (heq ▸ mem_map_of_mem h)
  rw [edgesInto_cons, filter_cons_of_pos (by simpa using hne), edgesInto_cons, ih hrest h]
  omega

/-! ## The graph stays without cycles -/

theorem notMem_of_neighbors (h : g.neighbors id = none) : id ∉ g.wait.map Prod.fst := by
  intro hmem
  obtain ⟨w, hw, rfl⟩ := mem_map.mp hmem
  have hnot := find?_eq_none.mp (Option.map_eq_none_iff.mp h) w hw
  simp at hnot

/-- A report leaves no trace. -/
theorem insert_decrement (h : g.neighbors id = none) :
    (g.insert id waitIds).decrementWaitersImpl id waitIds = g := by
  ext1
  · exact (filter_cons_of_neg (by simp)).trans (filter_of_notMem (notMem_of_neighbors h))
  · ext y
    rw [rev_decrement, rev_insert, Nat.add_sub_cancel_right]

/-- The edges of a transaction that starts to wait are new, the others are not. -/
theorem edge_insert (hxy : Edge (g.insert id waitIds).neighbors x y) :
    x = id ∧ y ∈ waitIds ∨ x ≠ id ∧ Edge g.neighbors x y := by
  obtain ⟨ids, hids, hy⟩ := hxy
  rw [Graph.neighbors, Graph.insert] at hids
  by_cases hx : id = x
  · rw [find?_cons_of_pos (by simpa using hx)] at hids
    cases hids
    exact .inl ⟨hx.symm, hy⟩
  · rw [find?_cons_of_neg (by simpa using hx)] at hids
    exact .inr ⟨Ne.symm hx, ids, hids, hy⟩

/-- A path uses old edges only, or passes the transaction. -/
theorem path_insert (h : TransGen (Edge (g.insert id waitIds).neighbors) x y) :
    TransGen (Edge g.neighbors) x y ∨ ReflTransGen (Edge (g.insert id waitIds).neighbors) x id ∧
      TransGen (Edge (g.insert id waitIds).neighbors) id y := by
  induction h with
  | single hxy =>
    rcases edge_insert hxy with ⟨rfl, -⟩ | ⟨-, hold⟩
    · exact .inr ⟨.refl, .single hxy⟩
    · exact .inl (.single hold)
  | tail hx hyz ih =>
  rcases edge_insert hyz with ⟨rfl, -⟩ | ⟨-, hold⟩
  · exact .inr ⟨hx.to_reflTransGen, .single hyz⟩
  · exact ih.imp (·.tail hold) (And.imp_right (·.tail hyz))

/-- **ONE MORE WAITS**: a graph in which nobody the transaction waits for leads back to it. -/
theorem Sound.insert (h : Sound g) (hid : g.neighbors id = none)
    (hno : ∀ y ∈ waitIds, ¬ ReflTransGen (Edge (g.insert id waitIds).neighbors) y id) :
    Sound (g.insert id waitIds) where
  acyclic x hx := by
    rcases path_insert hx with hold | ⟨hto, hfrom⟩
    · exact h.acyclic x hold
    obtain ⟨y, hy, hback⟩ := TransGen.head'_iff.mp (hfrom.trans_left hto)
    rcases edge_insert hy with ⟨-, hy⟩ | ⟨hne, -⟩
    · exact hno y hy hback
    · exact hne rfl
  rev y := by
    rw [rev_insert, h.rev, Graph.insert, edgesInto_cons, Nat.add_comm]
  nodup := nodup_cons.mpr ⟨notMem_of_neighbors hid, h.nodup⟩

/-- What `IncrementWaiters` answers, and what it leaves. -/
theorem incrementWaiters_spec (hrev : ∀ y, g.rev y = edgesInto g.wait y)
    (hid : g.neighbors id = none) (waitIds : List TransactionID) (depth : Nat) :
    ((incrementWaiters g id waitIds depth).1 = .noCycle ∧
      (incrementWaiters g id waitIds depth).2 = g.insert id waitIds ∧
      ∀ y ∈ waitIds, ¬ ReflTransGen (Edge (g.insert id waitIds).neighbors) y id) ∨
    ((incrementWaiters g id waitIds depth).1 ≠ .noCycle ∧
      (incrementWaiters g id waitIds depth).2 = g ∧
      ((incrementWaiters g id waitIds depth).1 = .cycle →
        ∃ y ∈ waitIds, ReflTransGen (Edge (g.insert id waitIds).neighbors) y id)) := by
  simp only [incrementWaiters]
  by_cases hzero : (g.insert id waitIds).rev id = 0
  · -- no edge leads to the transaction
    rw [if_pos hzero]
    refine .inl ⟨rfl, rfl, fun y hy hreach => ?_⟩
    rw [rev_insert] at hzero
    rcases hreach.cases_tail with heq | ⟨z, -, hz⟩
    · exact absurd (count_pos_iff.mpr (heq ▸ hy)) (by omega)
    rcases edge_insert hz with ⟨-, hin⟩ | ⟨-, ids, hids, hin⟩
    · exact absurd (count_pos_iff.mpr hin) (by omega)
    have hpos : 0 < edgesInto g.wait id :=
      count_pos_iff.mpr (mem_flatMap.mpr ⟨_, mem_wait hids, hin⟩)
    rw [← hrev] at hpos
    omega
  · rw [if_neg hzero]
    cases hsearch : search (g.insert id waitIds).neighbors id depth depth 0 [] (some waitIds) with
    | noCycle =>
      exact .inl ⟨rfl, rfl, search_noCycle depth 0 [] (some waitIds) (Nat.zero_le _)
        (Nat.add_comm 0 depth) hsearch⟩
    | cycle =>
      exact .inr ⟨nofun, insert_decrement hid, fun _ => search_cycle depth 0 [] _ hsearch⟩
    | tooBig => exact .inr ⟨nofun, insert_decrement hid, nofun⟩

/-- One transaction less waits. -/
theorem Sound.decrement (h : Sound g) (hids : g.neighbors id = some waitIds) :
    Sound (g.decrementWaitersImpl id waitIds) where
  acyclic x hx := by
    refine h.acyclic x (TransGen.mono ?_ x x hx)
    rintro y z ⟨ids, hy, hz⟩
    refine ⟨ids, ?_, hz⟩
    rw [Graph.neighbors, Graph.decrementWaitersImpl, find?_filter] at hy
    by_cases hyid : y = id
    · obtain ⟨w, hw, -⟩ := Option.map_eq_some_iff.mp hy
      have hboth := find?_some hw
      simp [hyid] at hboth
    rw [← hy, Graph.neighbors]
    congr 2
    ext w
    by_cases hw : w.1 = y <;> simp [hw, hyid]
  rev y := by
    rw [rev_decrement, h.rev, edgesInto_filter h.nodup (mem_wait hids), Nat.add_sub_cancel_left]
    rfl
  nodup := h.nodup.sublist (filter_sublist.map _)

theorem Sound.step (h : Sound g) (e : Event) : Sound (step g e) := by
  cases e with
  | increment id waitIds depth =>
    rw [WaitForGraph.step]
    cases hid : g.neighbors id with
    | some ids => exact h
    | none =>
    rw [if_neg nofun]
    rcases incrementWaiters_spec h.rev hid waitIds depth with
      ⟨-, hg, hno⟩ | ⟨-, hg, -⟩
    · rw [hg]
      exact h.insert hid hno
    · rw [hg]
      exact h
  | decrement id =>
  rw [WaitForGraph.step]
  cases hids : g.neighbors id with
  | none => exact h
  | some ids => exact h.decrement hids

theorem sound_empty : Sound {} := by
  refine ⟨fun x hx => ?_, fun _ => rfl, nodup_nil⟩
  obtain ⟨y, ⟨ids, hids, -⟩, -⟩ := TransGen.head'_iff.mp hx
  cases hids

section Report

variable {Key : Type}

def holders (m : LockMap Key) (key : Key) : List TransactionID :=
  ((m.keys key).map LockInfo.txnIds).getD []

/-- `x` waits for a lock that `y` holds; `ws` says who waits for which key. -/
def WaitsFor (m : LockMap Key) (ws : List (TransactionID × Key)) (x y : TransactionID) : Prop :=
  ∃ key, (x, key) ∈ ws ∧ y ∈ holders m key

/-- A cycle of at least two transactions that starts with the requester. -/
def RealCycle (m : LockMap Key) (ws : List (TransactionID × Key)) (id : TransactionID) : Prop :=
  ∃ y, y ≠ id ∧ WaitsFor m ws id y ∧ ReflTransGen (WaitsFor m ws) y id

/-- `wait_ids` in `AcquireWithTimeout`: only a conflict sets it anew. -/
def waitIdsAfter (waitIds : List TransactionID) : Status → List TransactionID
  | .lockTimeout ids => ids
  | _ => waitIds

/-- A round of `AcquireWithTimeout` that is not granted: the outcome of the detection, if
    there is somebody to wait for. -/
def detect (g : Graph) (id : TransactionID) (waitIds : List TransactionID) (depth : Nat) :
    Outcome :=
  if waitIds = [] then .noCycle else (incrementWaiters g id waitIds depth).1

/-- Every recorded wait on a way from `waitIds` back to the requester is for a lock that
    is still held.  `wait_txn_map_` keeps the holders of the refusal until the waiter wakes
    up, also those that have unlocked since. -/
def UpToDate (m : LockMap Key) (ws : List (TransactionID × Key)) (g : Graph)
    (waitIds : List TransactionID) (id : TransactionID) : Prop :=
  ∀ x y, (∃ w ∈ waitIds, ReflTransGen (Edge g.neighbors) w x) → Edge g.neighbors x y →
    ReflTransGen (Edge g.neighbors) y id → WaitsFor m ws x y

variable {m : LockMap Key} {ws : List (TransactionID × Key)}

/-- A recorded way back is a real one. -/
theorem UpToDate.waitsFor (h : UpToDate m ws g waitIds id) (hx : x ∈ waitIds)
    (hreach : ReflTransGen (Edge g.neighbors) x id) : ReflTransGen (WaitsFor m ws) x id := by
  have hfrom : ∃ w ∈ waitIds, ReflTransGen (Edge g.neighbors) w x := ⟨x, hx, .refl⟩
  clear hx
  induction hreach using ReflTransGen.head_induction_on with
  | refl => exact .refl
  | head hxy hback ih =>
  obtain ⟨w, hw, hto⟩ := hfrom
  exact .head (h _ _ ⟨w, hw, hto⟩ hxy hback) (ih ⟨w, hw, hto.tail hxy⟩)

/-- The edges of the transaction itself do not help to reach it. -/
theorem reach_insert_iff (hid : g.neighbors id = none) :
    ReflTransGen (Edge (g.insert id waitIds).neighbors) x id ↔
      ReflTransGen (Edge g.neighbors) x id := by
  constructor
  · intro h
    induction h using ReflTransGen.head_induction_on with
    | refl => exact .refl
    | head hxy _ ih =>
    rcases edge_insert hxy with ⟨rfl, -⟩ | ⟨-, hold⟩
    · exact .refl
    · exact ih.head hold
  refine fun h => ReflTransGen.mono ?_ _ _ h
  rintro y z ⟨ids, hids, hz⟩
  refine ⟨ids, ?_, hz⟩
  have hne : id ≠ y := by
    rintro rfl
    exact nomatch hid.symm.trans hids
  rw [Graph.neighbors, Graph.insert, find?_cons_of_neg (by simpa using hne)]
  exact hids

end Report

end WaitForGraph
