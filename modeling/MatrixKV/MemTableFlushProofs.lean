import MatrixKV.MemTableListProofs

/-! # Flush requests and failed flush attempts

    What the list of immutable memtables owes to whoever asks for a flush, and to a
    flush attempt that fails.

    * `track` — the list together with the memtables it held at the last request and
      that have not been picked since.  A pick takes one memtable and clears the
      request, so `request_kept_iff` has a condition.
    * `attempt` — the ends of `FlushMemTableToNvm`: `Cancel` after a failed log sync,
      `RollbackMemtableFlush` after a failed build or a shutdown, and the loop of
      `TryInstallMemtableFlushResults`, which may fail for the memtable of another
      thread (`failed_attempt_put_back`). -/

namespace MemTableFlush

open List EventRun MemTableList

section Frame

variable {s : State}

theorem commitLoop_frame (s : State) :
    (commitLoop s).memlist = s.memlist ∧ (commitLoop s).written = s.written ∧
    (commitLoop s).numFlushNotStarted = s.numFlushNotStarted ∧
    (commitLoop s).flushRequested = s.flushRequested := by
  rw [commitLoop]
  cases nextBatch s.memlist <;> exact ⟨rfl, rfl, rfl, rfl⟩

/-- The list after a job has delivered its file. -/
def delivered (s : State) (job : Nat × Nat) : List MemTable :=
  modify job.1 (fun m =>
    { m with flushCompleted := true, fileNumber := job.2, edit := some job.2 }) s.memlist

theorem install_frame (s : State) (job : Nat × Nat) :
    (tryInstallMemtableFlushResults s job.1 job.2).memlist = delivered s job ∧
    (tryInstallMemtableFlushResults s job.1 job.2).written = s.written ∧
    (tryInstallMemtableFlushResults s job.1 job.2).numFlushNotStarted = s.numFlushNotStarted ∧
    (tryInstallMemtableFlushResults s job.1 job.2).flushRequested = s.flushRequested := by
  rw [tryInstallMemtableFlushResults]
  split_ifs with hflag
  · exact ⟨rfl, rfl, rfl, rfl⟩
  · exact commitLoop_frame _

end Frame

/-! ## Requests -/

def isFlushPending (minWriteBufferNumberToMerge : Int) (s : State) : Bool :=
  (s.flushRequested && 0 < s.numFlushNotStarted) ||
    minWriteBufferNumberToMerge ≤ s.numFlushNotStarted

/-- The list, and the memtables that it held at the last request and that have been
    neither picked since nor removed by a commit. -/
structure Tracked where
  state : State
  waiting : List Nat

def track (t : Tracked) (e : Event) : Tracked where
  state := step t.state e
  waiting := match e with
    -- those whose flush is in progress included
    | .flushRequested => t.state.memlist.map MemTable.id
    | .pick max => t.waiting.filter (fun id => findToFlush max t.state.memlist ≠ some id)
    | .logAndApply _ _ => t.waiting.filter (fun id =>
        id ∈ (step t.state e).memlist.map MemTable.id)
    | _ => t.waiting

/-- The request is pending as long as one of its memtables waits. -/
def Kept (min : Int) (t : Tracked) : Prop :=
  t.waiting ≠ [] → isFlushPending min t.state = true

/-- The step is a request that finds memtables but none to start, or a pick that leaves
    a memtable of the request behind and too few memtables for a flush without one. -/
def Forgets (min : Int) (t : Tracked) : Event → Prop
  | .flushRequested => t.state.memlist ≠ [] ∧
      t.state.numFlushNotStarted ≤ 0 ∧ t.state.numFlushNotStarted < min
  | .pick max => (∃ id ∈ t.waiting, findToFlush max t.state.memlist ≠ some id) ∧
      t.state.numFlushNotStarted
        - (if (findToFlush max t.state.memlist).isSome then 1 else 0) < min
  | _ => False

section Requests

variable {min : Int} {t : Tracked}

theorem isFlushPending_iff {s : State} : isFlushPending min s = true ↔
    (s.flushRequested = true ∧ 0 < s.numFlushNotStarted) ∨ min ≤ s.numFlushNotStarted := by
  rw [isFlushPending, Bool.or_eq_true, Bool.and_eq_true, decide_eq_true_iff, decide_eq_true_iff]

/-- Only a pick clears the request or lowers the counter. -/
theorem step_mono (s : State) (e : Event) (hpick : ∀ max, e ≠ .pick max) :
    s.numFlushNotStarted ≤ (step s e).numFlushNotStarted ∧
    (s.flushRequested = true → (step s e).flushRequested = true) := by
  cases e with
  | add => exact ⟨Int.le_of_lt (Int.lt_succ _), fun h => h⟩
  | flushRequested => exact ⟨le_rfl, fun _ => rfl⟩
  | newFileNumber => exact ⟨le_rfl, fun h => h⟩
  | pick max => exact absurd rfl (hpick max)
  | rollback i =>
    rw [step]
    cases s.jobs[i]? with
    | none => exact ⟨le_rfl, fun h => h⟩
    | some job => exact ⟨Int.le_of_lt (Int.lt_succ _), fun h => h⟩
  | install i =>
    rw [step]
    cases s.jobs[i]? with
    | none => exact ⟨le_rfl, fun h => h⟩
    | some job =>
      obtain ⟨-, -, hcount, hflag⟩ := install_frame { s with jobs := s.jobs.eraseIdx i } job
      exact ⟨hcount.symm.le, hflag.trans⟩
  | logAndApply i ok =>
  rw [step]
  cases s.committing[i]? with
  | none => exact ⟨le_rfl, fun h => h⟩
  | some b =>
  cases ok with
  | true =>
    obtain ⟨-, -, hcount, hflag⟩ := commitLoop_frame { s with
      committing := s.committing.eraseIdx i
      written := s.written ++ b.edits
      memlist := removeOldest b.count s.memlist }
    exact ⟨hcount.symm.le, hflag.trans⟩
  | false => exact ⟨Int.le_add_of_nonneg_right (Int.natCast_nonneg _), fun h => h⟩

/-- What is pending stays so until the next pick. -/
theorem isFlushPending_step {s : State} (h : isFlushPending min s = true) (e : Event)
    (hpick : ∀ max, e ≠ .pick max) : isFlushPending min (step s e) = true := by
  obtain ⟨hcount, hflag⟩ := step_mono s e hpick
  rw [isFlushPending_iff] at h ⊢
  exact h.imp (fun hk => ⟨hflag hk.1, hk.2.trans_le hcount⟩) (fun hk => hk.trans hcount)

/-- What a pick leaves of counter and request. -/
theorem isFlushPending_pick (s : State) (max : Option Nat) :
    isFlushPending min (step s (.pick max)) = true ↔ min ≤ s.numFlushNotStarted
      - (if (findToFlush max s.memlist).isSome then 1 else 0) := by
  rw [step, pickMemtablesToFlush]
  cases findToFlush max s.memlist with
  | none => simp [isFlushPending]
  | some id => simp [isFlushPending]

/-- What a request leaves of them. -/
theorem isFlushPending_flushRequested (s : State) :
    isFlushPending min (step s .flushRequested) = true ↔
      ¬ (s.numFlushNotStarted ≤ 0 ∧ s.numFlushNotStarted < min) := by
  rw [isFlushPending_iff]
  show (true = true ∧ 0 < s.numFlushNotStarted) ∨ min ≤ s.numFlushNotStarted ↔ _
  simp only [true_and]
  omega

/-- A step that does not forget the request keeps it. -/
theorem Kept.track (h : Kept min t) (e : Event) (hnot : ¬ Forgets min t e) :
    Kept min (track t e) := by
  intro hne
  cases e with
  | flushRequested =>
    refine (isFlushPending_flushRequested t.state).mpr (fun hlow => hnot ⟨?_, hlow⟩)
    exact fun hnil => hne (map_eq_nil_iff.mpr hnil)
  | pick max =>
    obtain ⟨id, hid⟩ := exists_mem_of_ne_nil _ hne
    obtain ⟨hold, hleft⟩ := mem_filter.mp hid
    refine (isFlushPending_pick t.state max).mpr (not_lt.mp ?_)
    exact fun hlt => hnot ⟨⟨id, hold, of_decide_eq_true hleft⟩, hlt⟩
  | add | newFileNumber | rollback | install =>
    exact isFlushPending_step (h hne) _ (fun max heq => Event.noConfusion heq)
  | logAndApply i ok =>
    refine isFlushPending_step (h ?_) _ (fun max heq => Event.noConfusion heq)
    obtain ⟨id, hid⟩ := exists_mem_of_ne_nil _ hne
    exact ne_nil_of_mem (mem_filter.mp hid).1

/-- A step that forgets the request is seen in the next state. -/
theorem Forgets.not_kept {e : Event} (h : Forgets min t e) : ¬ Kept min
    (MemTableFlush.track t e) := by
  intro hkept
  cases e with
  | flushRequested =>
    have hpending := hkept (fun hnil => h.1 (map_eq_nil_iff.mp hnil))
    exact (isFlushPending_flushRequested t.state).mp hpending h.2
  | pick max =>
    obtain ⟨⟨id, hid, hleft⟩, hlt⟩ := h
    have hmem : id ∈ (MemTableFlush.track t (.pick max)).waiting :=
      mem_filter.mpr ⟨hid, decide_eq_true hleft⟩
    have hpending := hkept (ne_nil_of_mem hmem)
    exact absurd ((isFlushPending_pick t.state max).mp hpending) (not_le.mpr hlt)
  | add | newFileNumber | rollback | install | logAndApply => exact h

end Requests

/-- **A REQUEST IS KEPT** along a run of the list exactly when no request finds memtables
    but none to start, and no pick leaves one of its memtables behind together with fewer
    than `min_write_buffer_number_to_merge`. -/
theorem request_kept_iff (min : Int) (s : State) (es : List Event) :
    Always track (Kept min) ⟨s, []⟩ es ↔ Never track (Forgets min) ⟨s, []⟩ es :=
  always_iff_never (I := Kept min) (fun _ ht => ht) (fun _ e ht => ht.track e)
    (fun _ _ _ hforgets => hforgets.not_kept) es _ (fun hne => absurd rfl hne)

/-- With `min_write_buffer_number_to_merge` 1 two requested memtables are picked one after
    the other. -/
theorem request_kept_one :
    Always track (Kept 1) ⟨{}, []⟩ [.add, .add, .flushRequested, .pick none, .pick none] :=
  (request_kept_iff 1 {} _).mpr (by
    refine ⟨id, id, fun h => absurd h.2.1 (by decide), ?_, ?_, trivial⟩
    · exact fun h => absurd h.2 (by decide)
    · exact fun h => absurd h.1 (by decide))

/-- With 2, the second of two requested memtables is forgotten. -/
theorem request_forgotten :
    let t := run track ⟨{}, []⟩ [.add, .add, .flushRequested, .pick none]
    t.waiting = [1] ∧ isFlushPending 2 t.state = false := by
  decide

/-! ## Failed attempts -/

/-- The list, and the memtable that the committing thread has picked itself. -/
structure Attempts where
  state : State := {}
  own : Option Nat := none

inductive AttemptEvent
  | list (e : Event)
  /-- `SyncClosedLogs` fails, and the job is cancelled -/
  | cancel (job : Nat)

def attempt (t : Attempts) : AttemptEvent → Attempts
  | .list e =>
    { state := step t.state e
      own := match e with
        | .install i =>
          if t.state.commitInProgress then t.own else t.state.jobs[i]?.map Prod.fst
        | _ => t.own }
  -- `Cancel` only gives back the version
  | .cancel i => { t with state := { t.state with jobs := t.state.jobs.eraseIdx i } }

/-- The memtable picked by the attempt that fails with this event. -/
def failedMemtable (t : Attempts) : AttemptEvent → Option Nat
  | .cancel i => t.state.jobs[i]?.map Prod.fst
  | .list (.rollback i) => t.state.jobs[i]?.map Prod.fst
  | .list (.logAndApply i false) => if i < t.state.committing.length then t.own else none
  | .list _ => none

/-- The memtable can be picked again. -/
def PutBack (s : State) (id : Nat) : Prop :=
  ∃ m ∈ s.memlist, m.id = id ∧ m.flushInProgress = false ∧ m.flushCompleted = false ∧
    m.edit = none

instance (s : State) (id : Nat) : Decidable (PutBack s id) :=
  inferInstanceAs (Decidable (∃ m ∈ s.memlist, _))

/-- What holds between the calls: without a committer the oldest memtable is not finished,
    and a committer has its own memtable in its batch or has written it. -/
structure Committer (t : Attempts) : Prop where
  inv : Inv t.state
  idle : t.state.commitInProgress = false → nextBatch t.state.memlist = none
  own : ∀ b ∈ t.state.committing, 0 < b.count ∧ ∃ id, t.own = some id ∧
    (id ∈ t.state.written.map Prod.fst ∨ id ∈ (t.state.memlist.map MemTable.id).take b.count)

section Attempts

variable {t : Attempts}

theorem nextBatch_none_iff {l : List MemTable} :
    nextBatch l = none ↔ ∀ m ∈ l.head?, m.flushCompleted = false := by
  cases l with
  | nil => exact iff_of_true rfl nofun
  | cons m ms => simp [nextBatch]

theorem count_pos_of_nextBatch {l : List MemTable} {b : Batch} (h : nextBatch l = some b) :
    0 < b.count := by
  cases l with
  | nil => cases h
  | cons m ms =>
  rw [nextBatch] at h
  split at h
  · rename_i hdone
    rw [scan, if_pos hdone, if_pos (Option.some_ne_none _).symm] at h
    rw [← Option.some.inj h]
    exact Nat.succ_pos _
  · cases h

/-- A change that finishes no memtable. -/
theorem nextBatch_modify {l : List MemTable} {id : Nat} {f : MemTable → MemTable}
    (hf : ∀ m, m.flushCompleted = false → (f m).flushCompleted = false)
    (h : nextBatch l = none) : nextBatch (modify id f l) = none := by
  rw [nextBatch_none_iff] at h ⊢
  intro x hx
  rw [MemTableList.modify, head?_map] at hx
  obtain ⟨m, hm, rfl⟩ := Option.map_eq_some_iff.mp hx
  split_ifs with hid
  · exact hf m (h m hm)
  · exact h m hm

/-- The head of the loop, for a thread that is alone. -/
theorem committer_commitLoop {s : State} {own : Option Nat} (hinv : Inv (commitLoop s))
    (halone : s.committing = []) (hflag : s.commitInProgress = true)
    (hown : ∀ b, nextBatch s.memlist = some b → ∃ id, own = some id ∧
      (id ∈ s.written.map Prod.fst ∨ id ∈ (s.memlist.map MemTable.id).take b.count)) :
    Committer ⟨commitLoop s, own⟩ := by
  rw [commitLoop] at hinv ⊢
  cases hnext : nextBatch s.memlist with
  | none =>
    rw [hnext] at hinv
    exact ⟨hinv, fun _ => hnext, fun b hb => by rw [halone] at hb; cases hb⟩
  | some b =>
  rw [hnext] at hinv
  refine ⟨hinv, fun hf => ?_, ?_⟩
  · exact absurd (hflag.symm.trans hf) Bool.noConfusion
  · intro b' hb'
    rw [halone, mem_singleton] at hb'
    subst hb'
    exact ⟨count_pos_of_nextBatch hnext, hown b' hnext⟩

/-- Nothing happens to the committer. -/
theorem Committer.frame (h : Committer t) {s : State} (hinv : Inv s)
    (hflag : s.commitInProgress = t.state.commitInProgress)
    (hcommitting : s.committing = t.state.committing) (hwritten : s.written = t.state.written)
    (hids : t.state.memlist.map MemTable.id <+: s.memlist.map MemTable.id)
    (hnext : s.commitInProgress = false → nextBatch t.state.memlist = none →
      nextBatch s.memlist = none) : Committer ⟨s, t.own⟩ := by
  refine ⟨hinv, fun hf => hnext hf (h.idle (hflag.symm.trans hf)), ?_⟩
  intro b hb
  have hb' : b ∈ t.state.committing := hcommitting ▸ hb
  obtain ⟨hpos, id, hid, hwhere⟩ := h.own b hb'
  refine ⟨hpos, id, hid, hwhere.imp (fun hw => hwritten.symm ▸ hw) ?_⟩
  obtain ⟨rest, hrest⟩ := hids
  intro hm
  rw [← hrest, take_append]
  exact mem_append_left _ hm

/-- The committing thread's own memtable is the oldest one. -/
theorem Committer.install (h : Committer t) {i : Nat} {job : Nat × Nat}
    (hi : t.state.jobs[i]? = some job) : Committer (attempt t (.list (.install i))) := by
  have hstep : step t.state (.install i)
      = tryInstallMemtableFlushResults { t.state with jobs := t.state.jobs.eraseIdx i } job.1
        job.2 := by
    rw [step, hi]
  have hinv := hstep ▸ h.inv.step (.install i)
  have hids : (delivered t.state job).map MemTable.id = t.state.memlist.map MemTable.id := by
    rw [delivered]
    exact map_id_modify job.1 (fun _ => by rfl) _
  rw [attempt, hstep, hi]
  show Committer ⟨_, if t.state.commitInProgress = true then t.own else some job.1⟩
  by_cases hflag : t.state.commitInProgress = true
  · rw [tryInstallMemtableFlushResults, if_pos hflag] at hinv ⊢
    rw [if_pos hflag]
    refine h.frame hinv rfl rfl rfl ⟨[], (append_nil _).trans hids.symm⟩ ?_
    exact fun hf => absurd (hflag.symm.trans hf) Bool.noConfusion
  have halone : t.state.committing = [] := by
    rcases h.inv.committing with ⟨halone, -⟩ | ⟨_, _, hf, _⟩
    · exact halone
    · exact absurd hf hflag
  rw [if_neg hflag]
  rw [tryInstallMemtableFlushResults, if_neg hflag] at hinv ⊢
  refine committer_commitLoop hinv halone rfl ?_
  intro b hb
  refine ⟨job.1, rfl, .inr ?_⟩
  -- the oldest memtable was not finished before, so it is the one that has just been
  show job.1 ∈ ((delivered t.state job).map MemTable.id).take b.count
  have hnone := nextBatch_none_iff.mp (h.idle (Bool.eq_false_iff.mpr hflag))
  have hsome : nextBatch (delivered t.state job) = some b := hb
  rw [hids]
  cases hl : t.state.memlist with
  | nil =>
    rw [delivered, hl] at hsome
    cases hsome
  | cons m ms =>
  obtain ⟨n, hn⟩ := Nat.exists_eq_succ_of_ne_zero (count_pos_of_nextBatch hb).ne'
  rw [hn, map_cons, take_succ_cons]
  by_cases hid : m.id = job.1
  · exact hid ▸ .head _
  rw [delivered, hl, MemTableList.modify, map_cons, if_neg hid, nextBatch,
    if_neg (Bool.eq_false_iff.mp (hnone m (by rw [hl]; rfl)))] at hsome
  cases hsome

theorem Committer.logAndApply (h : Committer t) {i : Nat} {b : Batch}
    (hi : t.state.committing[i]? = some b) (ok : Bool) :
    Committer (attempt t (.list (.logAndApply i ok))) := by
  have hinv := h.inv.step (.logAndApply i ok)
  obtain ⟨hb, hflag, hok⟩ := h.inv.batch hi
  obtain ⟨hpos, id, hid, hwhere⟩ := h.own b (mem_of_getElem? hi)
  have hrest : t.state.committing.eraseIdx i = [] := by
    obtain ⟨hlt, -⟩ := List.getElem?_eq_some_iff.mp hi
    rw [hb] at hlt ⊢
    rw [Nat.lt_one_iff.mp hlt]
    rfl
  have hstep : step t.state (.logAndApply i ok)
      = afterLogAndApply { t.state with committing := [] } b ok := by
    rw [step, hi, ← hrest]
  rw [hstep] at hinv
  show Committer ⟨step t.state (.logAndApply i ok), t.own⟩
  rw [hstep]
  cases ok with
  | true =>
    rw [afterLogAndApply, if_pos rfl] at hinv ⊢
    refine committer_commitLoop hinv rfl hflag (fun _ _ => ⟨id, hid, .inl ?_⟩)
    -- what was in the batch is written
    show id ∈ (t.state.written ++ b.edits).map Prod.fst
    rw [map_append, hok.edits, map_map]
    refine mem_append.mpr (hwhere.imp_right ?_)
    rw [map_take]
    exact fun hm => hm
  | false =>
  rw [afterLogAndApply, if_neg Bool.false_ne_true] at hinv ⊢
  refine ⟨hinv, fun _ => nextBatch_none_iff.mpr ?_, fun _ hb => absurd hb not_mem_nil⟩
  intro m hm
  obtain ⟨n, hn⟩ := Nat.exists_eq_succ_of_ne_zero hpos.ne'
  cases hl : t.state.memlist with
  | nil =>
    rw [hn, hl, resetOldest] at hm
    cases hm
  | cons x xs =>
    rw [hn, hl, resetOldest] at hm
    rw [← Option.some.inj hm]
    rfl

theorem Committer.attempt (h : Committer t) (e : AttemptEvent) : Committer (attempt t e) := by
  cases e with
  | cancel i =>
    have hsub : (t.state.jobs.eraseIdx i).Sublist t.state.jobs := eraseIdx_sublist ..
    refine h.frame { h.inv with
      jobMem := fun job hjob => h.inv.jobMem job (hsub.subset hjob)
      jobFile := fun job hjob => h.inv.jobFile job (hsub.subset hjob)
      jobs := h.inv.jobs.sublist hsub
      finished := ?_ } rfl rfl rfl prefix_rfl (fun _ hnone => hnone)
    intro m hm hdone
    exact { h.inv.finished m hm hdone with
      jobs := fun job hjob => (h.inv.finished m hm hdone).jobs job (hsub.subset hjob) }
  | list e =>
  have hinv := h.inv.step e
  cases e with
  | add =>
    refine h.frame hinv rfl rfl rfl ⟨[t.state.nextId], ?_⟩ ?_
    · exact (@map_append _ _ MemTable.id _ [MemTable.new t.state.nextId]).symm
    intro _ hnone
    rw [nextBatch_none_iff] at hnone ⊢
    show ∀ m ∈ (t.state.memlist ++ [MemTable.new t.state.nextId]).head?, _
    cases hl : t.state.memlist with
    | nil => exact fun m hm => Option.some.inj hm ▸ rfl
    | cons x xs => exact fun m hm => hnone m (by rw [hl]; exact hm)
  | flushRequested => exact h.frame hinv rfl rfl rfl prefix_rfl (fun _ hnone => hnone)
  | newFileNumber => exact h.frame hinv rfl rfl rfl prefix_rfl (fun _ hnone => hnone)
  | pick max =>
    show Committer ⟨pickMemtablesToFlush t.state max, t.own⟩
    have hinv : Inv (pickMemtablesToFlush t.state max) := hinv
    rw [pickMemtablesToFlush] at hinv ⊢
    cases hfind : findToFlush max t.state.memlist with
    | none =>
      rw [hfind] at hinv
      exact h.frame hinv rfl rfl rfl prefix_rfl (fun _ hnone => hnone)
    | some id =>
    rw [hfind] at hinv
    refine h.frame hinv rfl rfl rfl ?_ (fun _ => nextBatch_modify (fun _ hm => hm))
    exact ⟨[], (append_nil _).trans (map_id_modify id (fun _ => by rfl) _).symm⟩
  | rollback i =>
    show Committer ⟨step t.state (.rollback i), t.own⟩
    rw [step] at hinv ⊢
    cases hi : t.state.jobs[i]? with
    | none => exact h
    | some job =>
    rw [hi] at hinv
    refine h.frame hinv rfl rfl rfl ?_ (fun _ => nextBatch_modify (fun _ _ => rfl))
    exact ⟨[], (append_nil _).trans (map_id_modify job.1 (fun _ => by rfl) _).symm⟩
  | install i =>
    cases hi : t.state.jobs[i]? with
    | none =>
      have hstep : step t.state (.install i) = t.state := by rw [step, hi]
      rw [MemTableFlush.attempt, hstep]
      by_cases hflag : t.state.commitInProgress = true
      · rw [if_pos hflag]
        exact h
      refine ⟨h.inv, h.idle, ?_⟩
      rcases h.inv.committing with ⟨halone, -⟩ | ⟨_, _, hf, _⟩
      · exact fun b hb => by rw [halone] at hb; cases hb
      · exact absurd hf hflag
    | some job => exact h.install hi
  | logAndApply i ok =>
  cases hi : t.state.committing[i]? with
  | none =>
    have hstep : step t.state (.logAndApply i ok) = t.state := by rw [step, hi]
    show Committer ⟨step t.state (.logAndApply i ok), t.own⟩
    rw [hstep]
    exact h
  | some b => exact h.logAndApply hi ok

end Attempts

/-! ### Every run -/

theorem committer_run (es : List AttemptEvent) : Committer (run attempt {} es) :=
  run_induction (I := Committer) (fun _ e h => h.attempt e) es {}
    ⟨inv_new, fun _ => rfl, nofun⟩

/-- **A FAILED ATTEMPT PUTS ITS MEMTABLE BACK**, unless the log sync has failed: what a job
    has picked can be picked again, or its edit was written before the attempt failed for
    the memtable of another thread; and the counter counts. -/
theorem failed_attempt_put_back (es : List AttemptEvent) (e : AttemptEvent) (id : Nat)
    (hsync : ∀ i, e ≠ .cancel i) (hfail : failedMemtable (run attempt {} es) e = some id) :
    let s := (attempt (run attempt {} es) e).state
    (PutBack s id ∨ id ∈ s.written.map Prod.fst) ∧
    s.numFlushNotStarted = notStarted s.memlist := by
  have h := committer_run es
  generalize run attempt {} es = t at h hfail
  refine ⟨?_, (h.attempt e).inv.count⟩
  rcases e with ⟨_ | _ | _ | _ | i | _ | ⟨i, _ | _⟩⟩ | i
  case list.rollback =>
    obtain ⟨job, hi, rfl⟩ := Option.map_eq_some_iff.mp hfail
    obtain ⟨m, hm, hid, -⟩ := h.inv.jobMem job (mem_of_getElem? hi)
    have hstep : step t.state (.rollback i)
        = rollbackMemtableFlush { t.state with jobs := t.state.jobs.eraseIdx i } job.1 := by
      rw [step, hi]
    show PutBack (step t.state _) _ ∨ _
    rw [hstep]
    refine .inl ⟨_, mem_modify_iff.mpr ⟨m, hm, rfl⟩, ?_⟩
    rw [if_pos hid]
    exact ⟨hid, rfl, rfl, rfl⟩
  case list.logAndApply.false =>
    rw [failedMemtable] at hfail
    by_cases hlt : i < t.state.committing.length
    · have hi := getElem?_eq_getElem hlt
      obtain ⟨-, -, hok⟩ := h.inv.batch hi
      obtain ⟨-, id', hid, hwhere⟩ := h.own _ (getElem_mem hlt)
      obtain rfl : id' = id := Option.some.inj (hid.symm.trans ((if_pos hlt).symm.trans hfail))
      generalize t.state.committing[i] = b at hi hok hwhere
      have hstep : step t.state (.logAndApply i false)
          = afterLogAndApply { t.state with committing := t.state.committing.eraseIdx i } b
            false := by
        rw [step, hi]
      show PutBack (step t.state _) _ ∨ _ ∈ (step t.state _).written.map Prod.fst
      rw [hstep]
      refine hwhere.symm.imp ?_ (fun hw => hw)
      rw [← map_take, mem_map]
      rintro ⟨m, hm, rfl⟩
      refine ⟨reset m, ?_, rfl, rfl, rfl, rfl⟩
      show reset m ∈ resetOldest b.count t.state.memlist
      rw [resetOldest_eq _ _ hok.count]
      exact mem_append_left _ (mem_map_of_mem hm)
    · rw [if_neg hlt] at hfail
      cases hfail
  case cancel => exact absurd rfl (hsync i)
  all_goals cases hfail

/-- The build of the first of two memtables fails, and then the commit of its second
    attempt. -/
theorem failed_twice_put_back :
    let t := run attempt {} [.list .add, .list .add, .list (.pick none), .list (.pick none),
      .list (.rollback 0), .list (.pick none), .list (.install 1)]
    let s := (attempt t (.list (.logAndApply 0 false))).state
    t.state.committing ≠ [] ∧ (PutBack s 0 ∨ 0 ∈ s.written.map Prod.fst) ∧
    s.numFlushNotStarted = notStarted s.memlist :=
  ⟨by decide, failed_attempt_put_back _ _ 0 nofun rfl⟩

/-- The first of two attempts writes its own edit and then fails with that of the second:
    its memtable is not put back.  Nor is the memtable of an attempt whose log sync fails. -/
theorem failed_attempt_keeps_memtable :
    (let t := run attempt {} [.list .add, .list .add, .list (.pick none), .list (.pick none),
      .list (.install 0), .list (.install 0), .list (.logAndApply 0 true)]
    failedMemtable t (.list (.logAndApply 0 false)) = some 0 ∧
      ¬ PutBack (attempt t (.list (.logAndApply 0 false))).state 0) ∧
    (let t := run attempt {} [.list .add, .list (.pick none)]
    failedMemtable t (.cancel 0) = some 0 ∧ ¬ PutBack (attempt t (.cancel 0)).state 0) := by
  decide

/-- **NO FINISHED FLUSH IS LEFT BEHIND** as the oldest when nobody commits. -/
theorem oldest_open (es : List AttemptEvent) : let s := (run attempt {} es).state
    s.commitInProgress = true ∨ ∀ m ∈ s.memlist.head?, m.flushCompleted = false :=
  (Bool.eq_false_or_eq_true _).imp_right fun h => nextBatch_none_iff.mp ((committer_run es).idle h)

end MemTableFlush
