import MatrixKV.EventRunProofs

/-! # Locks of pessimistic transactions — TransactionLockMgr

    A lock has one expiration time for all its holders.  A request that meets a lock
    whose time has passed asks every other holder whether it can be robbed; a holder
    without expiration time is not registered and is taken for gone.

    * `acquireLocked` and `unLockKey` are the two operations under the mutex of a
      stripe; `acquireLocked_cases` says once what a request can do.
    * `Run` remembers what was granted and not unlocked; `Safe` — whoever was granted
      a lock has it, or has expired and knows that its locks were stolen.
    * **`safe_always_iff`**: which requests make a run unsafe. -/

namespace TransactionLockMgr

open List EventRun

/-! ## The lock table -/

abbrev TransactionID := Nat

structure LockInfo where
  exclusive : Bool
  txnIds : List TransactionID
  /-- `0` for no expiration -/
  expirationTime : Nat
  deriving DecidableEq, Repr

inductive TransactionState
  | started | awaitingPrepare | prepared | awaitingCommit | commited | awaitingRollback
  | rolledback | locksStolen
  deriving DecidableEq, Repr

/-- The locks of a column family; `lock_cnt` is kept if there is a limit. -/
structure LockMap (Key : Type) where
  keys : Key → Option LockInfo := fun _ => none
  lockCnt : Int := 0

inductive Status
  | ok
  /-- the lock is held; by whom -/
  | lockTimeout (waitIds : List TransactionID)
  | lockLimit
  deriving DecidableEq, Repr

/-- The states of the transactions. -/
abbrev States := TransactionID → TransactionState

section Operations

variable (expiration : TransactionID → Nat) (maxNumLocks : Int)

/-- `TryStealingExpiredTransactionLocks`: only transactions with an expiration time are
    registered. -/
def tryStealing (states : States) (id : TransactionID) : Bool × States :=
  if expiration id = 0 then (true, states)
  else if states id = .started then (true, Function.update states id .locksStolen)
  else (false, states)

/-- The loop over the holders. -/
def stealAll (txnId : TransactionID) : List TransactionID → States → Bool × States
  | [], states => (true, states)
  | id :: ids, states =>
    if txnId = id then stealAll txnId ids states
    else
      match tryStealing expiration states id with
      | (false, states') => (false, states')
      | (true, states') => stealAll txnId ids states'

def isLockExpired (txnId : TransactionID) (info : LockInfo) (now : Nat) (states : States) :
    Bool × States :=
  let expired := decide (info.expirationTime > 0 ∧ info.expirationTime ≤ now)
  if !expired && decide (info.expirationTime > 0) then (false, states)
  else
    let stolen := stealAll expiration txnId info.txnIds states
    (expired && stolen.1, stolen.2)

variable {Key : Type} [DecidableEq Key]

/-- `AcquireLocked`, one attempt of `TryLock`. -/
def acquireLocked (m : LockMap Key) (states : States) (now : Nat) (key : Key)
    (txnId : TransactionID) (exclusive : Bool) : Status × LockMap Key × States :=
  let taken : LockInfo :=
    { exclusive := exclusive, txnIds := [txnId], expirationTime := expiration txnId }
  match m.keys key with
  | some info =>
    if info.exclusive || exclusive then
      if info.txnIds = [txnId] then
        (.ok, { m with keys := Function.update m.keys key (some
          { info with exclusive := exclusive, expirationTime := expiration txnId }) }, states)
      else
        match isLockExpired expiration txnId info now states with
        | (true, states') =>
          (.ok, { m with keys := Function.update m.keys key (some taken) }, states')
        | (false, states') => (.lockTimeout info.txnIds, m, states')
    else
      (.ok, { m with keys := Function.update m.keys key (some
        { info with
          txnIds := info.txnIds ++ [txnId]
          expirationTime := max info.expirationTime (expiration txnId) }) }, states)
  | none =>
    if maxNumLocks > 0 ∧ m.lockCnt ≥ maxNumLocks then (.lockLimit, m, states)
    else
      (.ok,
        { keys := Function.update m.keys key (some taken)
          lockCnt := if maxNumLocks ≠ 0 then m.lockCnt + 1 else m.lockCnt }, states)

/-- The last holder takes the place of the one that leaves. -/
def swapRemove (ids : List TransactionID) (id : TransactionID) : List TransactionID :=
  match ids.getLast? with
  | none => []
  | some last => (ids.set (ids.idxOf id) last).dropLast

def unLockKey (m : LockMap Key) (txnId : TransactionID) (key : Key) : LockMap Key :=
  match m.keys key with
  | none => m
  | some info =>
    if txnId ∈ info.txnIds then
      { keys := Function.update m.keys key
          (if info.txnIds.length = 1 then none
           else some { info with txnIds := swapRemove info.txnIds txnId })
        lockCnt := if maxNumLocks > 0 then m.lockCnt - 1 else m.lockCnt }
    else m

end Operations

/-! ## Runs -/

/-- The lock tables of the column families, the transactions, the clock, and what was
    granted to whom, in which mode, and is not unlocked. -/
structure Run (Cf Key : Type) where
  maps : Cf → LockMap Key := fun _ => {}
  states : States := fun _ => .started
  now : Nat := 0
  granted : List (TransactionID × (Cf × Key) × Bool) := []

inductive Event (Cf Key : Type)
  | acquire (txnId : TransactionID) (l : Cf × Key) (exclusive : Bool)
  | unLock (txnId : TransactionID) (l : Cf × Key)
  | advance (micros : Nat)
  /-- a transaction is prepared, committed or rolled back -/
  | setState (txnId : TransactionID) (state : TransactionState)

section Machine

variable (expiration : TransactionID → Nat) (maxNumLocks : Int) {Cf Key : Type} [DecidableEq Cf]
  [DecidableEq Key]

def step (s : Run Cf Key) : Event Cf Key → Run Cf Key
  | .acquire txnId l exclusive =>
    let res := acquireLocked expiration maxNumLocks (s.maps l.1) s.states s.now l.2 txnId exclusive
    { s with
      maps := Function.update s.maps l.1 res.2.1
      states := res.2.2
      granted := if res.1 = .ok then (txnId, l, exclusive) :: s.granted else s.granted }
  | .unLock txnId l =>
    { s with
      maps := Function.update s.maps l.1 (unLockKey maxNumLocks (s.maps l.1) txnId l.2)
      granted := s.granted.filter (fun g => ¬ (g.1 = txnId ∧ g.2.1 = l)) }
  | .advance micros => { s with now := s.now + micros }
  | .setState txnId state => { s with states := Function.update s.states txnId state }

def Run.lock (s : Run Cf Key) (l : Cf × Key) : Option LockInfo := (s.maps l.1).keys l.2

/-- A transaction that was granted a key asks for it again only to upgrade; a
    transaction whose locks were stolen stays so, and only stealing does that. -/
def Allowed (s : Run Cf Key) : Event Cf Key → Prop
  | .acquire txnId l exclusive => ∀ m, (txnId, l, m) ∈ s.granted → m = false ∧ exclusive = true
  | .setState txnId state => s.states txnId ≠ .locksStolen ∧ state ≠ .locksStolen
  | _ => True

/-- The transaction has the lock, in at least the mode. -/
def Holds (s : Run Cf Key) (txnId : TransactionID) (l : Cf × Key) (exclusive : Bool) : Prop :=
  ∃ info, s.lock l = some info ∧ txnId ∈ info.txnIds ∧ (exclusive = true → info.exclusive = true)

/-- The transaction has expired and is marked. -/
def Gone (s : Run Cf Key) (txnId : TransactionID) : Prop :=
  0 < expiration txnId ∧ expiration txnId ≤ s.now ∧ s.states txnId = .locksStolen

/-- No live lock was taken away, and an exclusive holder is alone. -/
structure Safe (s : Run Cf Key) : Prop where
  live : ∀ id l m, (id, l, m) ∈ s.granted → Holds s id l m ∨ Gone expiration s id
  alone : ∀ l info id, s.lock l = some info → info.exclusive = true → id ∈ info.txnIds →
    ∀ id' m, (id', l, m) ∈ s.granted → id' ≠ id → Gone expiration s id'

/-- A request meets a lock whose time has passed, whose other holders all let
    themselves be robbed, and one of them has no expiration time. -/
def TakesLive (s : Run Cf Key) (e : Event Cf Key) : Prop :=
  ∃ txnId l exclusive info, e = .acquire txnId l exclusive ∧ s.lock l = some info ∧
    (info.exclusive = true ∨ exclusive = true) ∧ info.txnIds ≠ [txnId] ∧
    0 < info.expirationTime ∧ info.expirationTime ≤ s.now ∧
    (∀ id ∈ info.txnIds, id ≠ txnId → expiration id = 0 ∨ s.states id = .started) ∧
    ∃ id ∈ info.txnIds, id ≠ txnId ∧ expiration id = 0

end Machine

/-! ## The holder that leaves -/

theorem swapRemove_perm {ids : List TransactionID} {id : TransactionID} (h : id ∈ ids) :
    (swapRemove ids id).Perm (ids.erase id) := by
  obtain ⟨before, behind, rfl, hnot⟩ := eq_append_cons_of_mem h
  have hidx : (before ++ id :: behind).idxOf id = before.length := by
    rw [idxOf_append_of_notMem hnot, idxOf_cons_self, Nat.add_zero]
  have herase : (before ++ id :: behind).erase id = before ++ behind := by
    rw [erase_append_right _ hnot, erase_cons_head]
  rw [herase, swapRemove, hidx]
  rcases eq_nil_or_concat behind with rfl | ⟨behind', last, rfl⟩
  · simp
  rw [concat_eq_append]
  have hlast : (before ++ id :: (behind' ++ [last])).getLast? = some last := by
    rw [← cons_append, ← append_assoc, getLast?_concat]
  rw [hlast]
  show ((before ++ id :: (behind' ++ [last])).set before.length last).dropLast.Perm _
  rw [set_append_right _ _ (Nat.le_refl _), Nat.sub_self, set_cons_zero,
    ← cons_append, ← append_assoc, dropLast_concat]
  refine List.Perm.append_left before ?_
  exact @perm_append_comm _ [last] behind'

/-- What an unlock leaves of a lock. -/
def unLocked (txnId : TransactionID) : Option LockInfo → Option LockInfo
  | none => none
  | some info =>
    if txnId ∈ info.txnIds then
      if info.txnIds.length = 1 then none
      else some { info with txnIds := swapRemove info.txnIds txnId }
    else some info

theorem keys_unLockKey {Key : Type} [DecidableEq Key] (maxNumLocks : Int) (m : LockMap Key)
    (txnId : TransactionID) (key : Key) :
    (unLockKey maxNumLocks m txnId key).keys
      = Function.update m.keys key (unLocked txnId (m.keys key)) := by
  cases hinfo : m.keys key with
  | none =>
    simp only [unLockKey, hinfo, unLocked]
    rw [← hinfo, Function.update_eq_self]
  | some info =>
  simp only [unLockKey, hinfo, unLocked]
  by_cases hin : txnId ∈ info.txnIds
  · rw [if_pos hin, if_pos hin]
  · rw [if_neg hin, if_neg hin, ← hinfo, Function.update_eq_self]

/-- The others keep the lock as it is; it goes with its last holder. -/
theorem unLocked_spec {info : LockInfo} (hnodup : info.txnIds.Nodup) (txnId : TransactionID) :
    (unLocked txnId (some info) = none ∧ ∀ id ∈ info.txnIds, id = txnId) ∨
    ∃ ids, unLocked txnId (some info) = some { info with txnIds := ids } ∧ ids.Nodup ∧
      ∀ id, id ∈ ids ↔ id ∈ info.txnIds ∧ id ≠ txnId := by
  simp only [unLocked]
  by_cases hin : txnId ∈ info.txnIds
  · rw [if_pos hin]
    by_cases hlen : info.txnIds.length = 1
    · rw [if_pos hlen]
      obtain ⟨a, ha⟩ := length_eq_one_iff.mp hlen
      refine .inl ⟨rfl, ?_⟩
      intro id hid
      rw [ha, mem_singleton] at hid hin
      exact hid.trans hin.symm
    · rw [if_neg hlen]
      have hperm := swapRemove_perm hin
      refine .inr ⟨_, rfl, hperm.nodup_iff.mpr (hnodup.erase _), ?_⟩
      intro id
      rw [hperm.mem_iff, hnodup.mem_erase_iff, and_comm]
  · rw [if_neg hin]
    refine .inr ⟨info.txnIds, rfl, hnodup, ?_⟩
    intro id
    exact ⟨fun hid => ⟨hid, fun heq => hin (heq ▸ hid)⟩, And.left⟩

/-! ## Stealing -/

section Steal

variable {expiration : TransactionID → Nat} {txnId id : TransactionID} {states states' : States}

theorem tryStealing_true (h : tryStealing expiration states id = (true, states')) :
    (expiration id = 0 ∧ states' = states) ∨ (0 < expiration id ∧ states id = .started ∧
      states' = Function.update states id .locksStolen) := by
  rw [tryStealing] at h
  split_ifs at h with hzero hstate
  · exact .inl ⟨hzero, (Prod.mk.inj h).2.symm⟩
  · exact .inr ⟨Nat.pos_of_ne_zero hzero, hstate, (Prod.mk.inj h).2.symm⟩
  · exact nomatch h

theorem tryStealing_false (h : tryStealing expiration states id = (false, states')) :
    expiration id ≠ 0 ∧ states id ≠ .started ∧ states' = states := by
  rw [tryStealing] at h
  split_ifs at h with hzero hstate
  · exact nomatch h
  · exact nomatch h
  · exact ⟨hzero, hstate, (Prod.mk.inj h).2.symm⟩

/-- What the loop leaves of the states. -/
theorem stealAll_states (ids : List TransactionID) (states : States) (o : TransactionID) :
    (stealAll expiration txnId ids states).2 o = states o ∨
      (o ∈ ids ∧ 0 < expiration o ∧ (stealAll expiration txnId ids states).2 o = .locksStolen) := by
  fun_induction stealAll expiration txnId ids states with
  | case1 states => exact .inl rfl
  | case2 ids states ih => exact ih.imp_right (fun h => ⟨.tail _ h.1, h.2⟩)
  | case3 id ids states _ states' htry => exact .inl (congrFun (tryStealing_false htry).2.2 o)
  | case4 id ids states _ states' htry ih =>
  rcases ih with hsame | h
  · rcases tryStealing_true htry with ⟨-, rfl⟩ | ⟨hpos, -, rfl⟩
    · exact .inl hsame
    by_cases ho : o = id
    · subst ho
      rw [Function.update_self] at hsame
      exact .inr ⟨.head _, hpos, hsame⟩
    · rw [Function.update_of_ne ho] at hsame
      exact .inl hsame
  · exact .inr ⟨.tail _ h.1, h.2⟩

/-- The loop succeeds exactly if every other holder can be robbed or is not
    registered, and then marks all of them that are. -/
theorem stealAll_iff (ids : List TransactionID) (states : States) (hnodup : ids.Nodup) :
    ((stealAll expiration txnId ids states).1 = true ↔
      ∀ id ∈ ids, id ≠ txnId → expiration id = 0 ∨ states id = .started) ∧
    ((stealAll expiration txnId ids states).1 = true →
      ∀ id ∈ ids, id ≠ txnId → 0 < expiration id →
        (stealAll expiration txnId ids states).2 id = .locksStolen) := by
  fun_induction stealAll expiration txnId ids states with
  | case1 states => exact ⟨iff_of_true rfl nofun, nofun⟩
  | case2 ids states ih =>
    obtain ⟨hiff, hmark⟩ := ih hnodup.of_cons
    simp only [forall_mem_cons]
    exact ⟨hiff.trans ⟨fun h => ⟨fun hne => absurd rfl hne, h⟩, And.right⟩,
      fun hok => ⟨fun hne => absurd rfl hne, hmark hok⟩⟩
  | case3 id ids states hself states' htry =>
    obtain ⟨hzero, hstate, -⟩ := tryStealing_false htry
    refine ⟨iff_of_false nofun fun h => ?_, nofun⟩
    exact (h id (.head _) fun h => hself h.symm).elim hzero hstate
  | case4 id ids states hself states' htry ih =>
  obtain ⟨hnot, hrest⟩ := nodup_cons.mp hnodup
  obtain ⟨hiff, hmark⟩ := ih hrest
  simp only [forall_mem_cons]
  rcases tryStealing_true htry with ⟨hzero, rfl⟩ | ⟨-, hstate, rfl⟩
  · exact ⟨hiff.trans ⟨fun h => ⟨fun _ => .inl hzero, h⟩, And.right⟩,
      fun hok => ⟨fun _ hpos => absurd hzero (Nat.ne_of_gt hpos), hmark hok⟩⟩
  -- the mark on `id` does not matter to the others
  have hother : (∀ o ∈ ids, o ≠ txnId → expiration o = 0 ∨
      Function.update states id .locksStolen o = .started) ↔
      ∀ o ∈ ids, o ≠ txnId → expiration o = 0 ∨ states o = .started := by
    refine forall₂_congr fun o ho => ?_
    rw [Function.update_of_ne (fun h : o = id => hnot (h ▸ ho))]
  refine ⟨(hiff.trans hother).trans ⟨fun h => ⟨fun _ => .inr hstate, h⟩, And.right⟩, ?_⟩
  refine fun hok => ⟨fun _ _ => ?_, hmark hok⟩
  rcases @stealAll_states expiration txnId ids
    (Function.update states id .locksStolen) id with hsame | h
  · rw [hsame, Function.update_self]
  · exact h.2.2

end Steal

/-! ## Requests -/

section Request

variable {expiration : TransactionID → Nat} {maxNumLocks : Int} {Key : Type} [DecidableEq Key]
  {m : LockMap Key} {states : States} {now : Nat} {key : Key} {txnId : TransactionID}
  {exclusive : Bool}

/-- What a request can do. -/
inductive Acquired (expiration : TransactionID → Nat) (m : LockMap Key) (states : States)
    (now : Nat) (key : Key) (txnId : TransactionID) (exclusive : Bool)
    (res : Status × LockMap Key × States) : Prop
  /-- too many locks -/
  | limit (hnone : m.keys key = none) (hstatus : res.1 ≠ .ok) (hmap : res.2.1 = m)
      (hstates : res.2.2 = states)
  | fresh (hnone : m.keys key = none) (hstatus : res.1 = .ok)
      (hkeys : res.2.1.keys = Function.update m.keys key
        (some ⟨exclusive, [txnId], expiration txnId⟩))
      (hstates : res.2.2 = states)
  /-- the only holder asks again -/
  | own (info : LockInfo) (hinfo : m.keys key = some info) (hids : info.txnIds = [txnId])
      (hstatus : res.1 = .ok)
      (hkeys : res.2.1.keys = Function.update m.keys key
        (some ⟨exclusive, [txnId], expiration txnId⟩))
      (hstates : res.2.2 = states)
  | shared (info : LockInfo) (hinfo : m.keys key = some info) (hinfoShared : info.exclusive = false)
      (hshared : exclusive = false) (hstatus : res.1 = .ok)
      (hkeys : res.2.1.keys = Function.update m.keys key (some
        ⟨false, info.txnIds ++ [txnId], max info.expirationTime (expiration txnId)⟩))
      (hstates : res.2.2 = states)
  | stolen (info : LockInfo) (hinfo : m.keys key = some info)
      (hconflict : info.exclusive = true ∨ exclusive = true) (hids : info.txnIds ≠ [txnId])
      (hpos : 0 < info.expirationTime) (htime : info.expirationTime ≤ now)
      (hsteal : (stealAll expiration txnId info.txnIds states).1 = true) (hstatus : res.1 = .ok)
      (hkeys : res.2.1.keys = Function.update m.keys key
        (some ⟨exclusive, [txnId], expiration txnId⟩))
      (hstates : res.2.2 = (stealAll expiration txnId info.txnIds states).2)
  /-- the lock stays with its holders, of which some may be marked -/
  | refused (info : LockInfo) (hinfo : m.keys key = some info)
      (hheld : ¬ (0 < info.expirationTime ∧ info.expirationTime ≤ now ∧
        (stealAll expiration txnId info.txnIds states).1 = true))
      (hstatus : res.1 ≠ .ok) (hmap : res.2.1 = m)
      (hstates : res.2.2 = states ∨ (info.expirationTime ≤ now ∧
        res.2.2 = (stealAll expiration txnId info.txnIds states).2))

theorem isLockExpired_cases (info : LockInfo) :
    ((isLockExpired expiration txnId info now states).1 = true ∧ 0 < info.expirationTime ∧
      info.expirationTime ≤ now ∧ (stealAll expiration txnId info.txnIds states).1 = true ∧
      (isLockExpired expiration txnId info now states).2
        = (stealAll expiration txnId info.txnIds states).2) ∨
    ((isLockExpired expiration txnId info now states).1 = false ∧
      ¬ (0 < info.expirationTime ∧ info.expirationTime ≤ now ∧
        (stealAll expiration txnId info.txnIds states).1 = true) ∧
      ((isLockExpired expiration txnId info now states).2 = states ∨
        (info.expirationTime ≤ now ∧ (isLockExpired expiration txnId info now states).2
          = (stealAll expiration txnId info.txnIds states).2))) := by
  simp only [isLockExpired]
  by_cases hpos : info.expirationTime > 0
  · by_cases htime : info.expirationTime ≤ now
    · cases hsteal : (stealAll expiration txnId info.txnIds states).1 with
      | true => exact .inl (by simp [hpos, htime])
      | false => exact .inr (by simp [hpos, htime])
    · exact .inr (by simp [hpos, htime])
  · have hzero : info.expirationTime = 0 := by omega
    exact .inr (by simp [hzero])

/-- What is in the way of a request that is not granted. -/
def Status.Blocks (m : LockMap Key) (key : Key) : Status → Prop
  | .ok => True
  | .lockTimeout waitIds => ∃ info, m.keys key = some info ∧ info.txnIds = waitIds
  | .lockLimit => m.keys key = none

theorem acquireLocked_blocks :
    (acquireLocked expiration maxNumLocks m states now key txnId exclusive).1.Blocks m key := by
  cases hinfo : m.keys key with
  | none =>
    simp only [acquireLocked, hinfo]
    split
    · exact hinfo
    · trivial
  | some info =>
  simp only [acquireLocked, hinfo]
  split
  · split
    · trivial
    · rcases isLockExpired expiration txnId info now states with ⟨_ | _, states'⟩
      · exact ⟨info, hinfo, rfl⟩
      · trivial
  · trivial

/-- **ONE REQUEST** -/
theorem acquireLocked_cases :
    Acquired expiration m states now key txnId exclusive
      (acquireLocked expiration maxNumLocks m states now key txnId exclusive) := by
  cases hinfo : m.keys key with
  | none =>
    by_cases hlimit : maxNumLocks > 0 ∧ m.lockCnt ≥ maxNumLocks
    · refine .limit hinfo ?_ ?_ ?_
      all_goals simp [acquireLocked, hinfo, hlimit]
    refine .fresh hinfo ?_ ?_ ?_
    all_goals simp only [acquireLocked, hinfo, if_neg hlimit]
  | some info =>
  by_cases hconflict : info.exclusive = true ∨ exclusive = true
  · have hc : (info.exclusive || exclusive) = true := by simpa using hconflict
    by_cases hids : info.txnIds = [txnId]
    · refine .own info hinfo hids ?_ ?_ ?_
      all_goals
        simp only [acquireLocked, hinfo, if_pos hc, if_pos hids]
      rw [hids]
    rcases @isLockExpired_cases expiration states now txnId info with
      ⟨hexp, hpos, htime, hsteal, hst⟩ | ⟨hexp, hheld, hst⟩
    · have hpair : isLockExpired expiration txnId info now states
          = (true, (stealAll expiration txnId info.txnIds states).2) := Prod.ext hexp hst
      refine .stolen info hinfo hconflict hids hpos htime hsteal ?_ ?_ ?_
      all_goals simp only [acquireLocked, hinfo, if_pos hc, if_neg hids, hpair]
    · have hpair : isLockExpired expiration txnId info now states
          = (false, (isLockExpired expiration txnId info now states).2) :=
        Prod.ext hexp rfl
      refine .refused info hinfo hheld ?_ ?_ ?_
      all_goals
        simp only [acquireLocked, hinfo, if_pos hc, if_neg hids]
        rw [hpair]
      · simp
      · exact hst
  · rw [not_or, Bool.not_eq_true, Bool.not_eq_true] at hconflict
    have hc : ¬ (info.exclusive || exclusive) = true := by simp [hconflict.1, hconflict.2]
    refine .shared info hinfo hconflict.1 hconflict.2 ?_ ?_ ?_
    all_goals
      simp only [acquireLocked, hinfo, if_neg hc]
    rw [hconflict.1]

end Request

/-! ## What a run keeps -/

section Invariant

variable {expiration : TransactionID → Nat} {maxNumLocks : Int} {Cf Key : Type} [DecidableEq Cf]
  [DecidableEq Key] {s : Run Cf Key}

/-- A lock with its holders: an exclusive one is alone, nobody expires later than the
    lock, and everybody was granted it. -/
structure LockOK (expiration : TransactionID → Nat)
    (granted : List (TransactionID × (Cf × Key) × Bool)) (l : Cf × Key) (info : LockInfo) :
    Prop where
  nodup : info.txnIds.Nodup
  single : info.exclusive = true → ∀ id ∈ info.txnIds, ∀ id' ∈ info.txnIds, id = id'
  time : ∀ id ∈ info.txnIds, expiration id ≤ info.expirationTime
  granted : ∀ id ∈ info.txnIds, ∃ m, (id, l, m) ∈ granted

structure Inv (expiration : TransactionID → Nat) (s : Run Cf Key) : Prop where
  locks : ∀ l info, s.lock l = some info → LockOK expiration s.granted l info
  live : ∀ id l m, (id, l, m) ∈ s.granted → Holds s id l m ∨ Gone expiration s id

section

omit [DecidableEq Cf] [DecidableEq Key]

theorem Inv.safe (h : Inv expiration s) : Safe expiration s := by
  refine ⟨h.live, ?_⟩
  intro l info id hlock hex hid id' m hgranted hne
  refine (h.live id' l m hgranted).resolve_left ?_
  rintro ⟨info', hlock', hid', -⟩
  obtain rfl : info = info' := Option.some.inj (hlock.symm.trans hlock')
  exact hne ((h.locks l info hlock).single hex id' hid' id hid)

theorem inv_new : Inv expiration ({} : Run Cf Key) :=
  ⟨nofun, nofun⟩

end

/-- One lock changes, the others stay. -/
theorem lock_update {m' : LockMap Key} {l : Cf × Key} {v : Option LockInfo}
    (hkeys : m'.keys = Function.update (s.maps l.1).keys l.2 v) {s' : Run Cf Key}
    (hmaps : s'.maps = Function.update s.maps l.1 m') (l' : Cf × Key) :
    s'.lock l' = if l' = l then v else s.lock l' := by
  rw [Run.lock, hmaps]
  by_cases hcf : l'.1 = l.1
  · rw [hcf, Function.update_self, hkeys]
    by_cases hkey : l'.2 = l.2
    · rw [if_pos (Prod.ext hcf hkey), hkey, Function.update_self]
    · rw [if_neg (fun h => hkey (by rw [h])), Function.update_of_ne hkey, Run.lock, hcf]
  · rw [if_neg (fun h => hcf (by rw [h])), Function.update_of_ne hcf, Run.lock]

omit [DecidableEq Key] in
theorem lock_same {l : Cf × Key} {s' : Run Cf Key}
    (hmaps : s'.maps = Function.update s.maps l.1 (s.maps l.1)) (l' : Cf × Key) :
    s'.lock l' = s.lock l' := by
  rw [Run.lock, hmaps, Function.update_eq_self, Run.lock]

omit [DecidableEq Cf] [DecidableEq Key] in
/-- Whoever is gone stays gone while marks are only added and the clock goes on. -/
theorem Gone.mono {s' : Run Cf Key} {id : TransactionID} (h : Gone expiration s id)
    (hnow : s.now ≤ s'.now) (hstates : s.states id = .locksStolen → s'.states id = .locksStolen) :
    Gone expiration s' id :=
  ⟨h.1, Nat.le_trans h.2.1 hnow, hstates h.2.2⟩

/-- A lock is given to a transaction alone, or shared with one more. -/
theorem Inv.grant (h : Inv expiration s) {txnId : TransactionID} {l : Cf × Key}
    {exclusive : Bool} {new : LockInfo} {s' : Run Cf Key}
    (hlock : ∀ l', s'.lock l' = if l' = l then some new else s.lock l')
    (hgranted : s'.granted = (txnId, l, exclusive) :: s.granted)
    (hnow : s'.now = s.now)
    (hstates : ∀ o, s.states o = .locksStolen → s'.states o = .locksStolen)
    (hnew : LockOK expiration ((txnId, l, exclusive) :: s.granted) l new)
    (hself : ∀ m, (txnId, l, m) ∈ (txnId, l, exclusive) :: s.granted →
      txnId ∈ new.txnIds ∧ (m = true → new.exclusive = true))
    (hothers : ∀ id m info, id ≠ txnId → s.lock l = some info → id ∈ info.txnIds →
      (m = true → info.exclusive = true) →
      (id ∈ new.txnIds ∧ (m = true → new.exclusive = true)) ∨ Gone expiration s' id) :
    Inv expiration s' := by
  constructor
  · intro l' info hinfo
    rw [hlock l'] at hinfo
    rw [hgranted]
    split_ifs at hinfo with hl
    · rw [Option.some.injEq] at hinfo
      rw [hl, ← hinfo]
      exact hnew
    have hok := h.locks l' info hinfo
    exact ⟨hok.nodup, hok.single, hok.time, fun id hid =>
      (hok.granted id hid).imp (fun m hm => .tail _ hm)⟩
  intro id l' m hmem
  rw [hgranted] at hmem
  by_cases hl : l' = l
  · subst hl
    have hnewlock : s'.lock l' = some new := by rw [hlock l', if_pos rfl]
    by_cases hid : id = txnId
    · subst hid
      exact .inl ⟨new, hnewlock, hself m hmem⟩
    have hold : (id, l', m) ∈ s.granted :=
      (mem_cons.mp hmem).resolve_left (fun heq => hid (by rw [Prod.mk.injEq] at heq; exact heq.1))
    rcases h.live id l' m hold with ⟨info, hinfo, hin, hmode⟩ | hgone
    · exact (hothers id m info hid hinfo hin hmode).imp_left (fun hh => ⟨new, hnewlock, hh⟩)
    · exact .inr (hgone.mono (Nat.le_of_eq hnow.symm) (hstates id))
  · have hold : (id, l', m) ∈ s.granted :=
      (mem_cons.mp hmem).resolve_left (fun heq => hl (by
        rw [Prod.mk.injEq, Prod.mk.injEq] at heq
        exact heq.2.1))
    rcases h.live id l' m hold with ⟨info, hinfo, hh⟩ | hgone
    · exact .inl ⟨info, by rw [hlock l', if_neg hl]; exact hinfo, hh⟩
    · exact .inr (hgone.mono (Nat.le_of_eq hnow.symm) (hstates id))

omit [DecidableEq Cf] [DecidableEq Key] in
/-- A change of the states and the clock only. -/
theorem Inv.keep (h : Inv expiration s) {s' : Run Cf Key} (hlock : ∀ l', s'.lock l' = s.lock l')
    (hgranted : s'.granted = s.granted) (hnow : s.now ≤ s'.now)
    (hstates : ∀ o, s.states o = .locksStolen → s'.states o = .locksStolen) :
    Inv expiration s' := by
  constructor
  · intro l info hinfo
    rw [hlock l] at hinfo
    rw [hgranted]
    exact h.locks l info hinfo
  intro id l m hmem
  rw [hgranted] at hmem
  rcases h.live id l m hmem with ⟨info, hinfo, hh⟩ | hgone
  · exact .inl ⟨info, by rw [hlock l]; exact hinfo, hh⟩
  · exact .inr (hgone.mono hnow (hstates id))

/-- Marks stay through the loop of a theft. -/
theorem stealAll_keeps_marks {txnId : TransactionID} {ids : List TransactionID} {states : States}
    {o : TransactionID} (h : states o = .locksStolen) :
    (stealAll expiration txnId ids states).2 o = .locksStolen := by
  rcases @stealAll_states expiration txnId ids states o with hsame | hmark
  · rw [hsame, h]
  · exact hmark.2.2

theorem Inv.acquire (h : Inv expiration s) (txnId : TransactionID) (l : Cf × Key)
    (exclusive : Bool) (hallowed : Allowed s (.acquire txnId l exclusive))
    (hlive : ¬ TakesLive expiration s (.acquire txnId l exclusive)) :
    Inv expiration (step expiration maxNumLocks s (.acquire txnId l exclusive)) := by
  have hself : ∀ new : LockInfo, txnId ∈ new.txnIds → new.exclusive = exclusive →
      ∀ m, (txnId, l, m) ∈ (txnId, l, exclusive) :: s.granted →
        txnId ∈ new.txnIds ∧ (m = true → new.exclusive = true) := by
    intro new hin hmode m hmem
    refine ⟨hin, ?_⟩
    intro hm
    rcases mem_cons.mp hmem with heq | hold
    · rw [Prod.mk.injEq, Prod.mk.injEq] at heq
      rw [hmode, ← heq.2.2, hm]
    have hfalse := (hallowed m hold).1
    rw [hm] at hfalse
    cases hfalse
  have htaken : LockOK expiration ((txnId, l, exclusive) :: s.granted) l
      ⟨exclusive, [txnId], expiration txnId⟩ := by
    refine ⟨pairwise_singleton _ _, ?_, ?_, ?_⟩
    · intro _ id hid id' hid'
      exact (mem_singleton.mp hid).trans (mem_singleton.mp hid').symm
    · intro id hid
      exact Nat.le_of_eq (congrArg expiration (mem_singleton.mp hid))
    · intro id hid
      rw [mem_singleton.mp hid]
      exact ⟨exclusive, .head _⟩
  cases @acquireLocked_cases expiration maxNumLocks Key _ (s.maps l.1) s.states s.now l.2 txnId
    exclusive with
  | limit hnone hstatus hmap hstates =>
    exact h.keep (lock_same (by rw [step, hmap])) (by rw [step, if_neg hstatus]) (Nat.le_refl _)
      (fun o ho => by rw [step, hstates]; exact ho)
  | fresh hnone hstatus hkeys hstates =>
    refine h.grant (lock_update hkeys rfl) (by rw [step, if_pos hstatus]) rfl
      (fun o ho => by rw [step, hstates]; exact ho) htaken
      (hself _ (mem_singleton_self _) rfl) ?_
    intro id m info hne hlock
    rw [Run.lock, hnone] at hlock
    cases hlock
  | own info hinfo hids hstatus hkeys hstates =>
    refine h.grant (lock_update hkeys rfl) (by rw [step, if_pos hstatus]) rfl
      (fun o ho => by rw [step, hstates]; exact ho) htaken
      (hself _ (mem_singleton_self _) rfl) ?_
    intro id m info' hne hlock hin _
    rw [Run.lock, hinfo, Option.some.injEq] at hlock
    rw [← hlock, hids, mem_singleton] at hin
    exact absurd hin hne
  | shared info hinfo hinfoShared hshared hstatus hkeys hstates =>
    have hok := h.locks l info hinfo
    have hfresh : txnId ∉ info.txnIds := by
      intro hin
      obtain ⟨m, hm⟩ := hok.granted txnId hin
      rw [(hallowed m hm).2] at hshared
      cases hshared
    refine h.grant (lock_update hkeys rfl) (by rw [step, if_pos hstatus]) rfl
      (fun o ho => by rw [step, hstates]; exact ho) ?_
      (hself _ (mem_append_right _ (mem_singleton_self _)) hshared.symm) ?_
    · refine ⟨?_, fun h => absurd h Bool.false_ne_true, ?_, ?_⟩
      · exact nodup_append.mpr ⟨hok.nodup, pairwise_singleton _ _, by
          intro a ha b hb heq
          rw [mem_singleton.mp hb] at heq
          exact hfresh (heq ▸ ha)⟩
      · intro id hid
        rcases mem_append.mp hid with hid | hid
        · exact Nat.le_trans (hok.time id hid) (Nat.le_max_left ..)
        · rw [mem_singleton.mp hid]
          exact Nat.le_max_right ..
      · intro id hid
        rcases mem_append.mp hid with hid | hid
        · exact (hok.granted id hid).imp (fun m hm => .tail _ hm)
        · rw [mem_singleton.mp hid]
          exact ⟨exclusive, .head _⟩
    · intro id m info' _ hlock hin hmode
      rw [Run.lock, hinfo, Option.some.injEq] at hlock
      rw [← hlock] at hin hmode
      refine .inl ⟨mem_append_left _ hin, ?_⟩
      intro hm
      rw [hinfoShared] at hmode
      exact hmode hm
  | stolen info hinfo hconflict hids hpos htime hsteal hstatus hkeys hstates =>
    have hok := h.locks l info hinfo
    obtain ⟨hiff, hmark⟩ := @stealAll_iff expiration txnId info.txnIds s.states hok.nodup
    refine h.grant (lock_update hkeys rfl) (by rw [step, if_pos hstatus]) rfl
      (fun o ho => by rw [step, hstates]; exact stealAll_keeps_marks ho) htaken
      (hself _ (mem_singleton_self _) rfl) ?_
    intro id m info' hne hlock hin _
    rw [Run.lock, hinfo, Option.some.injEq] at hlock
    rw [← hlock] at hin
    -- nobody without expiration time was robbed
    have hexp : 0 < expiration id := by
      refine Nat.pos_of_ne_zero ?_
      intro hzero
      exact hlive ⟨txnId, l, exclusive, info, rfl, hinfo, hconflict, hids, hpos, htime,
        hiff.mp hsteal, id, hin, hne, hzero⟩
    refine .inr ⟨hexp, Nat.le_trans (hok.time id hin) htime, ?_⟩
    rw [step, hstates]
    exact hmark hsteal id hin hne hexp
  | refused info hinfo hheld hstatus hmap hstates =>
    refine h.keep (lock_same (by rw [step, hmap])) (by rw [step, if_neg hstatus]) (Nat.le_refl _)
      ?_
    intro o ho
    rw [step]
    rcases hstates with hsame | ⟨-, hst⟩
    · rw [hsame]
      exact ho
    · rw [hst]
      exact stealAll_keeps_marks ho

theorem Inv.unLock (h : Inv expiration s) (txnId : TransactionID) (l : Cf × Key) :
    Inv expiration (step expiration maxNumLocks s (.unLock txnId l)) := by
  have hlock := @lock_update Cf Key _ _ s _ l _ (keys_unLockKey maxNumLocks (s.maps l.1) txnId l.2)
    (step expiration maxNumLocks s (.unLock txnId l)) rfl
  have hmem : ∀ g, g ∈ (step expiration maxNumLocks s (.unLock txnId l)).granted ↔
      g ∈ s.granted ∧ ¬ (g.1 = txnId ∧ g.2.1 = l) := by
    intro g
    rw [step, mem_filter, decide_eq_true_eq]
  constructor
  · intro l' info' hinfo'
    rw [hlock l'] at hinfo'
    split_ifs at hinfo' with hl
    · cases hinfo : (s.maps l.1).keys l.2 with
      | none =>
        rw [hinfo] at hinfo'
        exact nomatch hinfo'
      | some info =>
      have hok := h.locks l info hinfo
      rw [hinfo] at hinfo'
      rcases unLocked_spec hok.nodup txnId with ⟨hnone, -⟩ | ⟨ids, hsome, hnodup, hids⟩
      · rw [hnone] at hinfo'
        exact nomatch hinfo'
      rw [hsome, Option.some.injEq] at hinfo'
      subst hinfo' hl
      refine ⟨hnodup, ?_, fun id hid => hok.time id ((hids id).mp hid).1, ?_⟩
      · intro hex id hid id' hid'
        exact hok.single hex id ((hids id).mp hid).1 id' ((hids id').mp hid').1
      · intro id hid
        obtain ⟨hin, hne⟩ := (hids id).mp hid
        obtain ⟨m, hm⟩ := hok.granted id hin
        exact ⟨m, (hmem _).mpr ⟨hm, fun heq => hne heq.1⟩⟩
    · have hok := h.locks l' info' hinfo'
      refine ⟨hok.nodup, hok.single, hok.time, ?_⟩
      intro id hid
      obtain ⟨m, hm⟩ := hok.granted id hid
      exact ⟨m, (hmem _).mpr ⟨hm, fun heq => hl heq.2⟩⟩
  · intro id l' m hg
    obtain ⟨hg, hother⟩ := (hmem _).mp hg
    rcases h.live id l' m hg with ⟨info, hinfo, hin, hmode⟩ | hgone
    · refine .inl ?_
      by_cases hl : l' = l
      · subst hl
        have hne : id ≠ txnId := fun heq => hother ⟨heq, rfl⟩
        rcases unLocked_spec (h.locks l' info hinfo).nodup txnId with
          ⟨-, hall⟩ | ⟨ids, hsome, -, hids⟩
        · exact absurd (hall id hin) hne
        · refine ⟨{ info with txnIds := ids }, ?_, (hids id).mpr ⟨hin, hne⟩, hmode⟩
          have hkeys : (s.maps l'.1).keys l'.2 = some info := hinfo
          rw [hlock l', if_pos rfl, hkeys, hsome]
      · exact ⟨info, by rw [hlock l', if_neg hl]; exact hinfo, hin, hmode⟩
    · exact .inr (hgone.mono (Nat.le_refl _) (fun ho => ho))

/-- **STEP**: every allowed event that does not rob a live holder keeps the locks. -/
theorem Inv.step (h : Inv expiration s) (e : Event Cf Key) (hallowed : Allowed s e)
    (hlive : ¬ TakesLive expiration s e) : Inv expiration (step expiration maxNumLocks s e) := by
  cases e with
  | acquire txnId l exclusive => exact h.acquire txnId l exclusive hallowed hlive
  | unLock txnId l => exact h.unLock txnId l
  | advance micros => exact h.keep (fun _ => rfl) rfl (Nat.le_add_right ..) (fun _ ho => ho)
  | setState txnId state =>
  refine h.keep (fun _ => rfl) rfl (Nat.le_refl _) ?_
  intro o ho
  have hne : o ≠ txnId := by
    intro heq
    rw [heq] at ho
    exact hallowed.1 ho
  show Function.update s.states txnId state o = .locksStolen
  rw [Function.update_of_ne hne]
  exact ho

/-- The holder that is robbed is neither expired nor among the holders. -/
theorem Inv.not_safe (h : Inv expiration s) (e : Event Cf Key)
    (hlive : TakesLive expiration s e) :
    ¬ Safe expiration (TransactionLockMgr.step expiration maxNumLocks s e) := by
  obtain ⟨txnId, l, exclusive, info, rfl, hlock, hconflict, hids, hpos, htime, hrob, id, hid,
    hne, hzero⟩ := hlive
  have hok := h.locks l info hlock
  have hsteal := (@stealAll_iff expiration txnId info.txnIds s.states hok.nodup).1.mpr hrob
  obtain ⟨m, hm⟩ := hok.granted id hid
  have hinfo : (s.maps l.1).keys l.2 = some info := hlock
  intro hsafe
  cases @acquireLocked_cases expiration maxNumLocks Key _ (s.maps l.1) s.states s.now l.2 txnId
    exclusive with
  | limit hnone => rw [hinfo] at hnone; exact nomatch hnone
  | fresh hnone => rw [hinfo] at hnone; exact nomatch hnone
  | own info' hinfo' hids' =>
    rw [hinfo, Option.some.injEq] at hinfo'
    exact hids (hinfo' ▸ hids')
  | shared info' hinfo' hinfoShared hshared =>
    rw [hinfo, Option.some.injEq] at hinfo'
    rw [← hinfo'] at hinfoShared
    rcases hconflict with hc | hc
    · rw [hinfoShared] at hc
      exact nomatch hc
    · rw [hshared] at hc
      exact nomatch hc
  | refused info' hinfo' hheld =>
    rw [hinfo, Option.some.injEq] at hinfo'
    rw [← hinfo'] at hheld
    exact hheld ⟨hpos, htime, hsteal⟩
  | stolen info' hinfo' _ _ _ _ _ hstatus hkeys hstates =>
    have hmem : (id, l, m) ∈
        (TransactionLockMgr.step expiration maxNumLocks s
          (.acquire txnId l exclusive)).granted := by
      rw [TransactionLockMgr.step, if_pos hstatus]
      exact .tail _ hm
    rcases hsafe.live id l m hmem with ⟨new, hnew, hin, -⟩ | hgone
    · rw [lock_update hkeys rfl l, if_pos rfl, Option.some.injEq] at hnew
      rw [← hnew, mem_singleton] at hin
      exact hne hin
    · exact Nat.ne_of_gt hgone.1 hzero

end Invariant

/-- **A LIVE LOCK IS NEVER TAKEN AWAY** in a run exactly if no request of it meets a
    lock whose time has passed, that has another holder without expiration time, and
    whose other holders with one can all be robbed. -/
theorem safe_always_iff {Cf Key : Type} [DecidableEq Cf] [DecidableEq Key]
    (expiration : TransactionID → Nat) (maxNumLocks : Int) (es : List (Event Cf Key))
    (hes : Never (step expiration maxNumLocks) (fun s e => ¬ Allowed s e) {} es) :
    Always (step expiration maxNumLocks) (Safe expiration) {} es ↔
      Never (step expiration maxNumLocks) (TakesLive expiration) {} es :=
  always_iff_never_of_allowed (I := Inv expiration) (A := Allowed) (fun _ h => h.safe)
    (fun _ e h ha hl => h.step e ha hl) (fun _ e h _ hl => h.not_safe e hl) es _ inv_new hes

/-! ## Two shared holders and a request -/

/-- Transaction 2 expires at 10, the others never. -/
def secondExpires : TransactionID → Nat := fun id => if id = 2 then 10 else 0

def aloneRun : List (Event Unit Nat) :=
  [.acquire 2 ((), 7) false, .advance 10, .acquire 3 ((), 7) true]

def sharedRun : List (Event Unit Nat) :=
  [.acquire 1 ((), 7) false, .acquire 2 ((), 7) false, .advance 10, .acquire 3 ((), 7) true]

/-- A transaction that was granted nothing may ask for everything. -/
theorem allowed_of_ids {s : Run Unit Nat} {id : TransactionID} {l : Unit × Nat} {exclusive : Bool}
    (h : id ∉ s.granted.map Prod.fst) : Allowed s (.acquire id l exclusive) :=
  fun _ hm => absurd (mem_map_of_mem (f := Prod.fst) hm) h

/-- Transaction 2 is alone, and its lock is stolen when its time has come. -/
theorem safe_always_iff_alone : Always (step secondExpires 0) (Safe secondExpires) {} aloneRun := by
  refine (safe_always_iff secondExpires 0 aloneRun ⟨not_not.mpr (allowed_of_ids (by decide)),
    not_not.mpr trivial, not_not.mpr (allowed_of_ids (by decide)), trivial⟩).mpr
    ⟨?_, ?_, ?_, trivial⟩
  · rintro ⟨txnId, l, exclusive, info, -, hlock, -⟩
    exact nomatch hlock
  · rintro ⟨txnId, l, exclusive, info, he, -⟩
    exact nomatch he
  · rintro ⟨txnId, l, exclusive, info, he, hlock, -, -, -, -, -, id, hid, -, hzero⟩
    obtain ⟨rfl, rfl, rfl⟩ := Event.acquire.inj he
    have hinfo : info = ⟨false, [2], 10⟩ := (Option.some.inj hlock).symm
    rw [hinfo, mem_singleton] at hid
    rw [hid] at hzero
    exact absurd hzero (by decide)

/-- Transaction 1 never expires, but shares its lock with transaction 2: at time 10
    transaction 3 takes it from both. -/
theorem acquire_takes_live_lock :
    Never (step secondExpires 0) (fun s e => ¬ Allowed s e) {} sharedRun ∧
    ¬ Always (step secondExpires 0) (Safe secondExpires) {} sharedRun := by
  refine ⟨⟨not_not.mpr (allowed_of_ids (by decide)), not_not.mpr (allowed_of_ids (by decide)),
    not_not.mpr trivial, not_not.mpr (allowed_of_ids (by decide)), trivial⟩, ?_⟩
  intro h
  rcases h.2.2.2.2.live 1 ((), 7) false (by decide) with ⟨info, hlock, hin, -⟩ | hgone
  · have hinfo : info = ⟨true, [3], 0⟩ := (Option.some.inj hlock).symm
    rw [hinfo] at hin
    exact absurd hin (by decide)
  · exact absurd hgone.1 (by decide)

end TransactionLockMgr
