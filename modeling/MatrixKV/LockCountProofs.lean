import MatrixKV.TransactionLockMgrProofs

/-! # The lock counter

    With a limit on the locked keys of a column family `lock_cnt` goes up where a key
    enters the lock map.  It goes down where a holder leaves, also when the key stays
    with the other holders of a shared lock.

    * `acquireLocked_count`, `unLockKey_count` — what the two operations do to the counter
      and to the set of locked keys.
    * **`lockCnt_always_iff`**: in which runs the counter is the number of locked keys. -/

namespace LockCount

open EventRun TransactionLockMgr

variable {Cf Key : Type} [DecidableEq Cf] [DecidableEq Key]

/-- `ks` are the locked keys and the counter says how many. -/
structure Counted (m : LockMap Key) (ks : Finset Key) : Prop where
  mem : ∀ k, k ∈ ks ↔ (m.keys k).isSome = true
  card : m.lockCnt = ks.card

section Operations

variable (expiration : TransactionID → Nat) {maxNumLocks : Int} (m : LockMap Key)
  (states : States) (now : Nat) (key : Key) (txnId : TransactionID) (exclusive : Bool)

variable {m key} in
/-- A locked key stays so, whatever becomes of its record. -/
theorem isSome_update {info : LockInfo} (hinfo : m.keys key = some info) (info' : LockInfo)
    (k : Key) :
    (Function.update m.keys key (some info') k).isSome = (m.keys k).isSome := by
  by_cases hk : k = key
  · rw [hk, Function.update_self, hinfo]
    rfl
  · rw [Function.update_of_ne hk]

/-- A request locks a further key, and counts it, or leaves the locked keys as they are. -/
theorem acquireLocked_count (hmax : 0 < maxNumLocks) :
    let m' := (acquireLocked expiration maxNumLocks m states now key txnId exclusive).2.1
    (m'.lockCnt = m.lockCnt ∧ ∀ k, (m'.keys k).isSome = (m.keys k).isSome) ∨
    (m.keys key = none ∧ m.lockCnt < maxNumLocks ∧ m'.lockCnt = m.lockCnt + 1 ∧
      ∃ info, m'.keys = Function.update m.keys key (some info)) := by
  intro m'
  cases hinfo : m.keys key with
  | none =>
    by_cases hfull : maxNumLocks > 0 ∧ m.lockCnt ≥ maxNumLocks
    · have hm : m' = m := by simp only [m', acquireLocked, hinfo, if_pos hfull]
      exact .inl ⟨by rw [hm], by rw [hm]; exact fun _ => rfl⟩
    refine .inr ⟨rfl, by omega, ?_, ?_⟩
    · simp only [m', acquireLocked, hinfo, if_neg hfull, if_pos (ne_of_gt hmax)]
    · simp only [m', acquireLocked, hinfo, if_neg hfull]
      exact ⟨_, rfl⟩
  | some info =>
  refine .inl ?_
  simp only [m', acquireLocked, hinfo]
  by_cases hconflict : (info.exclusive || exclusive) = true
  · rw [if_pos hconflict]
    by_cases hids : info.txnIds = [txnId]
    · rw [if_pos hids]
      exact ⟨rfl, isSome_update hinfo _⟩
    rw [if_neg hids]
    rcases isLockExpired expiration txnId info now states with ⟨_ | _, states'⟩
    · exact ⟨rfl, fun _ => rfl⟩
    · exact ⟨rfl, isSome_update hinfo _⟩
  · rw [if_neg hconflict]
    exact ⟨rfl, isSome_update hinfo _⟩

/-- The limit is met by a key that is not locked when the counter has reached it. -/
theorem acquireLocked_lockLimit_iff (hmax : 0 < maxNumLocks) :
    (acquireLocked expiration maxNumLocks m states now key txnId exclusive).1 = .lockLimit ↔
      maxNumLocks ≤ m.lockCnt ∧ m.keys key = none := by
  cases hinfo : m.keys key with
  | none =>
    by_cases hfull : maxNumLocks > 0 ∧ m.lockCnt ≥ maxNumLocks
    · simp only [acquireLocked, hinfo, if_pos hfull, true_iff]
      exact ⟨hfull.2, trivial⟩
    · simp only [acquireLocked, hinfo, if_neg hfull, and_true, false_iff, reduceCtorEq]
      omega
  | some info =>
  refine iff_of_false (fun h => ?_) (fun h => by cases h.2)
  have hnone := @acquireLocked_blocks expiration maxNumLocks Key _ m states now key txnId exclusive
  rw [h] at hnone
  cases hinfo.symm.trans hnone

/-- An unlock by one of several holders counts down and leaves the key. -/
theorem unLockKey_count (hmax : 0 < maxNumLocks) {info : LockInfo}
    (hinfo : m.keys key = some info) (hin : txnId ∈ info.txnIds) :
    let m' := unLockKey maxNumLocks m txnId key
    m'.lockCnt = m.lockCnt - 1 ∧
      if info.txnIds.length = 1 then m'.keys = Function.update m.keys key none
      else ∀ k, (m'.keys k).isSome = (m.keys k).isSome := by
  intro m'
  refine ⟨by simp only [m', unLockKey, hinfo, if_pos hin, if_pos hmax], ?_⟩
  by_cases hlen : info.txnIds.length = 1
  · simp only [m', unLockKey, hinfo, if_pos hin, if_pos hlen]
  · simp only [m', unLockKey, hinfo, if_pos hin, if_neg hlen]
    exact isSome_update hinfo _

end Operations

/-! ## Runs -/

/-- The counter of each column family is the number of its locked keys, and a request is
    refused for the limit exactly when so many keys are locked and this one is not. -/
def CountOK (expiration : TransactionID → Nat) (maxNumLocks : Int) (s : Run Cf Key) : Prop :=
  ∀ c, ∃ ks : Finset Key, Counted (s.maps c) ks ∧
    ∀ key txnId exclusive,
      (acquireLocked expiration maxNumLocks (s.maps c) s.states s.now key txnId exclusive).1
          = .lockLimit ↔ (ks.card : Int) = maxNumLocks ∧ key ∉ ks

/-- One of several holders of a key unlocks it. -/
def LeavesShared (s : Run Cf Key) (e : Event Cf Key) : Prop :=
  ∃ txnId l info, e = .unLock txnId l ∧ s.lock l = some info ∧ txnId ∈ info.txnIds ∧
    info.txnIds.length ≠ 1

/-- What a run keeps: the counters, within the limit. -/
def Within (maxNumLocks : Int) (s : Run Cf Key) : Prop :=
  ∀ c, ∃ ks : Finset Key, Counted (s.maps c) ks ∧ (s.maps c).lockCnt ≤ maxNumLocks

section Steps

variable {expiration : TransactionID → Nat} {maxNumLocks : Int} {s : Run Cf Key}

omit [DecidableEq Key] in
theorem Counted.of_isSome {m m' : LockMap Key} {ks : Finset Key} (h : Counted m ks)
    (hcnt : m'.lockCnt = m.lockCnt) (hkeys : ∀ k, (m'.keys k).isSome = (m.keys k).isSome) :
    Counted m' ks :=
  ⟨fun k => by rw [h.mem, hkeys], hcnt.trans h.card⟩

omit [DecidableEq Cf] in
theorem Within.countOK (hmax : 0 < maxNumLocks) (h : Within maxNumLocks s) :
    CountOK expiration maxNumLocks s := by
  intro c
  obtain ⟨ks, hks, hle⟩ := h c
  refine ⟨ks, hks, fun key txnId exclusive => ?_⟩
  rw [acquireLocked_lockLimit_iff _ _ _ _ _ _ _ hmax, hks.mem, ← hks.card,
    Bool.not_eq_true, Option.isSome_eq_false_iff, Option.isNone_iff_eq_none]
  exact and_congr_left fun _ => ⟨le_antisymm hle, fun heq => heq.ge⟩

omit [DecidableEq Key] in
/-- An operation on one column family that keeps its counter keeps all. -/
theorem Within.update (h : Within maxNumLocks s) (c : Cf) {m' : LockMap Key}
    (hm : ∃ ks : Finset Key, Counted m' ks ∧ m'.lockCnt ≤ maxNumLocks) {s' : Run Cf Key}
    (hs' : s'.maps = Function.update s.maps c m') : Within maxNumLocks s' := by
  intro d
  by_cases hd : d = c
  · rw [hs', hd, Function.update_self]
    exact hm
  · rw [hs', Function.update_of_ne hd]
    exact h d

theorem Within.next (hmax : 0 < maxNumLocks) (h : Within maxNumLocks s) (e : Event Cf Key)
    (hgood : ¬ LeavesShared s e) : Within maxNumLocks (step expiration maxNumLocks s e) := by
  cases e with
  | acquire txnId l exclusive =>
    refine h.update l.1 ?_ rfl
    obtain ⟨ks, hks, hle⟩ := h l.1
    rcases acquireLocked_count expiration (s.maps l.1) s.states s.now l.2 txnId exclusive hmax with
      ⟨hcnt, hkeys⟩ | ⟨hnone, hlt, hcnt, info, hkeys⟩
    · exact ⟨ks, hks.of_isSome hcnt hkeys, hcnt ▸ hle⟩
    · have hnot : l.2 ∉ ks := by
        rw [hks.mem, hnone]
        nofun
      refine ⟨insert l.2 ks, ⟨fun k => ?_, ?_⟩, by omega⟩
      · rw [hkeys, Finset.mem_insert]
        by_cases hk : k = l.2
        · rw [hk, Function.update_self]
          exact iff_of_true (.inl rfl) rfl
        · rw [Function.update_of_ne hk, ← hks.mem, or_iff_right hk]
      · rw [hcnt, hks.card, Finset.card_insert_of_notMem hnot, Int.natCast_succ]
  | unLock txnId l =>
    refine h.update l.1 ?_ rfl
    obtain ⟨ks, hks, hle⟩ := h l.1
    cases hinfo : (s.maps l.1).keys l.2 with
    | none => exact ⟨ks, by simpa only [unLockKey, hinfo] using ⟨hks, hle⟩⟩
    | some info =>
    by_cases hin : txnId ∈ info.txnIds
    · have hlen : info.txnIds.length = 1 :=
        not_not.mp fun hlen => hgood ⟨txnId, l, info, rfl, hinfo, hin, hlen⟩
      obtain ⟨hcnt, hkeys⟩ := unLockKey_count _ l.2 txnId hmax hinfo hin
      rw [if_pos hlen] at hkeys
      have hmem : l.2 ∈ ks := by
        rw [hks.mem, hinfo]
        rfl
      refine ⟨ks.erase l.2, ⟨fun k => ?_, ?_⟩, by omega⟩
      · rw [hkeys, Finset.mem_erase]
        by_cases hk : k = l.2
        · rw [hk, Function.update_self]
          exact iff_of_false (fun h => h.1 rfl) nofun
        · rw [Function.update_of_ne hk, ← hks.mem, and_iff_right hk]
      · rw [hcnt, hks.card, Finset.card_erase_of_mem hmem]
        have := Finset.card_pos.mpr ⟨_, hmem⟩
        omega
    · exact ⟨ks, by simpa only [unLockKey, hinfo, if_neg hin] using ⟨hks, hle⟩⟩
  | advance micros => exact h
  | setState txnId state => exact h

/-- A holder that leaves a shared lock is counted as a key. -/
theorem Within.leavesShared (hmax : 0 < maxNumLocks) (h : Within maxNumLocks s) {e : Event Cf Key}
    (hbad : LeavesShared s e) :
    ¬ CountOK expiration maxNumLocks (step expiration maxNumLocks s e) := by
  obtain ⟨txnId, l, info, rfl, hlock, hin, hlen⟩ := hbad
  intro hok
  obtain ⟨ks, hks, -⟩ := h l.1
  obtain ⟨ks', hks', -⟩ := hok l.1
  replace hks' : Counted (unLockKey maxNumLocks (s.maps l.1) txnId l.2) ks' := by
    simpa only [step, Function.update_self] using hks'
  obtain ⟨hcnt, hkeys⟩ := unLockKey_count _ l.2 txnId hmax hlock hin
  rw [if_neg hlen] at hkeys
  have heq : ks' = ks := by
    ext k
    rw [hks'.mem, hks.mem, hkeys]
  have hcard := hks'.card
  rw [hcnt, hks.card, heq] at hcard
  omega

end Steps

/-- **THE COUNTER COUNTS KEYS** throughout a run exactly if no holder leaves a key to others. -/
theorem lockCnt_always_iff (expiration : TransactionID → Nat) (maxNumLocks : Int)
    (hmax : 0 < maxNumLocks) (es : List (Event Cf Key)) :
    Always (step expiration maxNumLocks) (CountOK expiration maxNumLocks) {} es ↔
      Never (step expiration maxNumLocks) LeavesShared {} es := by
  have hstart : Within maxNumLocks ({} : Run Cf Key) := fun _ =>
    ⟨∅, ⟨fun k => iff_of_false (Finset.notMem_empty k) nofun, rfl⟩, hmax.le⟩
  refine always_iff_never (I := Within maxNumLocks) ?_ ?_ ?_ es _ hstart
  · exact fun _ h => h.countOK hmax
  · exact fun _ e h hgood => h.next hmax e hgood
  · exact fun _ _ h hbad => h.leavesShared hmax hbad

/-- One transaction locks two keys and unlocks one of them. -/
theorem lockCnt_always_twoKeys :
    Always (step (fun _ => 0) 2) (CountOK (fun _ => 0) 2) ({} : Run Unit Nat)
      [.acquire 1 ((), 3) true, .acquire 1 ((), 4) false, .unLock 1 ((), 3)] := by
  refine (lockCnt_always_iff (fun _ => 0) 2 (by decide) _).mpr ⟨?_, ?_, ?_, trivial⟩
  · rintro ⟨_, _, _, heq, -⟩
    exact nomatch heq
  · rintro ⟨_, _, _, heq, -⟩
    exact nomatch heq
  · rintro ⟨_, _, info, heq, hlock, -, hlen⟩
    cases heq
    cases hlock
    exact hlen rfl

/-- Two readers of a key; when the first leaves, the key is locked and the counter is 0. -/
theorem lockCnt_twoReaders :
    ∃ s : Run Unit Nat, s = run (step (fun _ => 0) 2) {}
        [.acquire 1 ((), 3) false, .acquire 2 ((), 3) false, .unLock 1 ((), 3)] ∧
      (s.maps ()).lockCnt = 0 ∧ s.lock ((), 3) = some ⟨false, [2], 0⟩ :=
  ⟨_, rfl, by decide, by decide⟩

end LockCount
