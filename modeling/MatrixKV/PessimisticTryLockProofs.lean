import MatrixKV.TransactionLockMgrProofs
import MatrixKV.TransactionSavePointProofs

/-! # A failed lock attempt — PessimisticTransaction::TryLock

    The lock is taken before the snapshot is validated.  When the validation fails, the
    lock is given back if the key was not tracked before; the branch that would turn an
    upgraded lock back into a shared one stands under the same condition, which an
    upgrade never meets.

    * `unLockKey_acquireLocked` — giving a new lock back restores the table.
    * **`tryLock_unchanged_iff`**: which failed attempts change nothing. -/

namespace PessimisticTryLock

open List DbFormat TransactionLockMgr TransactionSavePoint

variable {Key : Type} [DecidableEq Key]

/-- What the caller gets; `busy` is a failed validation. -/
inductive TryLockStatus
  | ok | timedOut | deadlock | lockLimit | busy
  deriving DecidableEq, Repr

/-- A call and what it meets: the snapshot after `SetSnapshotIfNeeded`, whether the key is
    unchanged since then, the latest sequence number, and whether a wait would be a
    deadlock. -/
structure Request (Key : Type) where
  key : Key
  readOnly : Bool
  exclusive : Bool
  skipValidate : Bool
  snapshot : Option Nat
  unchanged : Bool
  latest : Nat
  deadlock : Bool

section Model

variable (expiration : TransactionID → Nat) (maxNumLocks : Int) (states : States) (now : Nat)
  (txnId : TransactionID)

/-- `PessimisticTransactionDB::TryLock`, without the waiting. -/
def lockKey (deadlock : Bool) (m : LockMap Key) (key : Key) (exclusive : Bool) :
    TryLockStatus × LockMap Key :=
  let res := acquireLocked expiration maxNumLocks m states now key txnId exclusive
  (match res.1 with
    | .ok => .ok
    | .lockTimeout _ => if deadlock then .deadlock else .timedOut
    | .lockLimit => .lockLimit, res.2.1)

def tryLock (req : Request Key) (m : LockMap Key) (t : Txn Key) :
    TryLockStatus × LockMap Key × Txn Key :=
  let info := t.tracked.lookup req.key
  let previouslyLocked := info.isSome
  let lockUpgrade := info.any (fun i => !i.exclusive && req.exclusive)
  let trackedAtSeq := (info.map KeyInfo.seq).getD maxSequenceNumber
  let lock := lockKey expiration maxNumLocks states now txnId req.deadlock
  let res := if !previouslyLocked || lockUpgrade then lock m req.key req.exclusive else (.ok, m)
  let track := fun seq => t.trackKey req.key seq req.readOnly req.exclusive
  match if req.skipValidate then none else req.snapshot with
  | none =>
    let seq := if trackedAtSeq = maxSequenceNumber then req.latest else trackedAtSeq
    (res.1, res.2, if res.1 = .ok then track seq else t)
  | some snapSeq =>
    if res.1 = .ok then
      match validateSnapshot snapSeq req.unchanged trackedAtSeq with
      | (true, seq) => (.ok, res.2, track seq)
      | (false, seq) =>
        if !previouslyLocked then
          if lockUpgrade then
            let back := lock res.2 req.key false
            (back.1, back.2, if back.1 = .ok then track seq else t)
          else (.busy, unLockKey maxNumLocks res.2 txnId req.key, t)
        else (.busy, res.2, t)
    else (res.1, res.2, t)

end Model

/-! ## Tables without expiration -/

/-- A lock has holders, an exclusive one a single holder, and none expires. -/
structure TableOK (m : LockMap Key) : Prop where
  held : ∀ key info, m.keys key = some info → info.txnIds ≠ []
  alone : ∀ key info, m.keys key = some info → info.exclusive = true → info.txnIds.length = 1
  forever : ∀ key info, m.keys key = some info → info.expirationTime = 0

/-- The transaction holds the locks of its tracked keys, in their mode, and no other. -/
structure Agrees (txnId : TransactionID) (m : LockMap Key) (t : Txn Key) : Prop where
  tracked : ∀ key i, t.tracked.lookup key = some i → ∃ info, m.keys key = some info ∧
    txnId ∈ info.txnIds ∧ info.exclusive = i.exclusive
  locked : ∀ key info, m.keys key = some info → txnId ∈ info.txnIds →
    (t.tracked.lookup key).isSome = true

variable {maxNumLocks : Int} {states : States} {now : Nat} {txnId : TransactionID}
  {m : LockMap Key} {t : Txn Key}

theorem swapRemove_concat {ids : List TransactionID} (h : txnId ∉ ids) :
    swapRemove (ids ++ [txnId]) txnId = ids := by
  rw [swapRemove, getLast?_concat, idxOf_append_of_notMem h]
  simp

/-- **GIVING BACK**: a transaction without a lock on the key that was granted one and unlocks
    it leaves the table as it was. -/
theorem unLockKey_acquireLocked (maxNumLocks : Int) (hm : TableOK m) (key : Key) (exclusive : Bool)
    (hnew : ∀ info, m.keys key = some info → txnId ∉ info.txnIds)
    {res : TransactionLockMgr.Status × LockMap Key × States}
    (hres : Acquired (fun _ => 0) m states now key txnId exclusive res) :
    if res.1 = .ok then (unLockKey maxNumLocks res.2.1 txnId key).keys = m.keys
    else res.2.1 = m := by
  -- what is left of the key's record is the record before
  have hback : ∀ rec, res.2.1.keys = Function.update m.keys key rec →
      unLocked txnId rec = m.keys key →
      (unLockKey maxNumLocks res.2.1 txnId key).keys = m.keys := by
    intro rec hkeys hrec
    rw [keys_unLockKey, hkeys, Function.update_self, hrec, Function.update_idem,
      Function.update_eq_self]
  cases hres with
  | limit hnone hstatus hmap => rw [if_neg hstatus, hmap]
  | refused info hinfo hheld hstatus hmap => rw [if_neg hstatus, hmap]
  | fresh hnone hstatus hkeys =>
    rw [if_pos hstatus]
    exact hback _ hkeys (by rw [hnone]; simp [unLocked])
  | own info hinfo hids => exact absurd (hids ▸ .head _) (hnew info hinfo)
  | stolen info hinfo hconflict hids hpos => exact absurd (hm.forever key info hinfo) (by omega)
  | shared info hinfo hinfoShared hshared hstatus hkeys =>
  rw [if_pos hstatus]
  refine hback _ hkeys ?_
  have hlen : (info.txnIds ++ [txnId]).length ≠ 1 := by
    rw [length_append, length_singleton]
    have := length_pos_iff.mpr (hm.held key info hinfo)
    omega
  simp only [unLocked, mem_append, mem_singleton, or_true, if_true, if_neg hlen,
    swapRemove_concat (hnew info hinfo), hm.forever key info hinfo, Nat.max_self]
  rw [hinfo, ← hinfoShared, ← hm.forever key info hinfo]

/-- The lock manager says OK where it grants the lock. -/
theorem lockKey_ok_iff {expiration : TransactionID → Nat} {deadlock : Bool} {key : Key}
    {exclusive : Bool} :
    (lockKey expiration maxNumLocks states now txnId deadlock m key exclusive).1 = .ok ↔
      (acquireLocked expiration maxNumLocks m states now key txnId exclusive).1 = .ok := by
  rw [lockKey]
  cases (acquireLocked expiration maxNumLocks m states now key txnId exclusive).1 with
  | ok => exact iff_of_true rfl rfl
  | lockTimeout ids => cases deadlock <;> exact iff_of_false nofun nofun
  | lockLimit => exact iff_of_false nofun nofun

/-- What a failed attempt leaves, with the lock manager's answer `res` to it. -/
theorem tryLock_failed {expiration : TransactionID → Nat} {req : Request Key}
    {res : TryLockStatus × LockMap Key}
    (hres : res = if (t.tracked.lookup req.key).all (fun i => !i.exclusive && req.exclusive)
      then lockKey expiration maxNumLocks states now txnId req.deadlock m req.key req.exclusive
      else (.ok, m))
    (hfail : (tryLock expiration maxNumLocks states now txnId req m t).1 ≠ .ok) :
    (tryLock expiration maxNumLocks states now txnId req m t).2 =
      (if res.1 = .ok ∧ t.tracked.lookup req.key = none
        then unLockKey maxNumLocks res.2 txnId req.key else res.2, t) := by
  have hasks : (!(t.tracked.lookup req.key).isSome ||
      (t.tracked.lookup req.key).any (fun i => !i.exclusive && req.exclusive))
      = (t.tracked.lookup req.key).all (fun i => !i.exclusive && req.exclusive) := by
    cases t.tracked.lookup req.key <;> rfl
  simp only [tryLock, hasks, ← hres] at hfail ⊢
  generalize (if req.skipValidate then none else req.snapshot) = snapshot at hfail ⊢
  cases snapshot with
  | none =>
    simp only at hfail ⊢
    rw [if_neg hfail, if_neg (fun h => hfail h.1)]
  | some snapSeq =>
  by_cases hok : res.1 = .ok
  · simp only [if_pos hok] at hfail ⊢
    generalize validateSnapshot snapSeq req.unchanged
      ((t.tracked.lookup req.key).map KeyInfo.seq |>.getD maxSequenceNumber) = v at hfail ⊢
    obtain ⟨_ | _, seq⟩ := v
    · cases hinfo : t.tracked.lookup req.key with
      | none => simp [hok]
      | some i => simp
    · exact absurd rfl hfail
  · simp only [if_neg hok]
    rw [if_neg (fun h => hok h.1)]

/-- The only holder of a key tracks it as shared and asks for it exclusively. -/
def UpgradesAlone (txnId : TransactionID) (m : LockMap Key) (t : Txn Key) (req : Request Key) :
    Prop :=
  req.exclusive = true ∧ (∃ i, t.tracked.lookup req.key = some i ∧ i.exclusive = false) ∧
    ∃ info, m.keys req.key = some info ∧ info.txnIds = [txnId]

/-- **A FAILED ATTEMPT CHANGES NOTHING**, the upgrade of an only holder apart: in a table
    without expiring transactions, after a call that is not answered with OK, holders, modes
    and tracked keys are as before exactly if the call was not such an upgrade. -/
theorem tryLock_unchanged_iff (maxNumLocks : Int) (states : States) (now : Nat)
    (txnId : TransactionID) (req : Request Key) (m : LockMap Key) (t : Txn Key)
    (hm : TableOK m) (hagree : Agrees txnId m t)
    (hfail : (tryLock (fun _ => 0) maxNumLocks states now txnId req m t).1 ≠ .ok) :
    ((tryLock (fun _ => 0) maxNumLocks states now txnId req m t).2.1.keys = m.keys ∧
      (tryLock (fun _ => 0) maxNumLocks states now txnId req m t).2.2 = t) ↔
      ¬ UpgradesAlone txnId m t req := by
  have hleft := tryLock_failed rfl hfail
  have hacquired := @acquireLocked_cases (fun _ => 0) maxNumLocks Key _ m states now req.key txnId
    req.exclusive
  rw [hleft, and_iff_left rfl]
  cases hinfo : t.tracked.lookup req.key with
  | none =>
    -- a new lock is given back
    refine iff_of_true ?_ fun h => ?_
    · have hnew : ∀ info, m.keys req.key = some info → txnId ∉ info.txnIds := by
        intro info hlock hin
        have htracked := hagree.locked req.key info hlock hin
        rw [hinfo] at htracked
        cases htracked
      have hback := unLockKey_acquireLocked maxNumLocks hm req.key req.exclusive hnew
        hacquired
      by_cases hok : (acquireLocked (fun _ => 0) maxNumLocks m states now req.key txnId
          req.exclusive).1 = .ok
      · rw [if_pos hok] at hback
        rw [if_pos ⟨lockKey_ok_iff.mpr hok, rfl⟩]
        exact hback
      · rw [if_neg hok] at hback
        rw [if_neg (fun h => hok (lockKey_ok_iff.mp h.1))]
        exact congrArg LockMap.keys hback
    · obtain ⟨-, ⟨i, hi, -⟩, -⟩ := h
      rw [hinfo] at hi
      cases hi
  | some i =>
  obtain ⟨info, hlock, hin, hmode⟩ := hagree.tracked req.key i hinfo
  rw [if_neg (fun h => by cases h.2)]
  by_cases hup : (!i.exclusive && req.exclusive) = true
  · obtain ⟨hshared, hexcl⟩ : i.exclusive = false ∧ req.exclusive = true := by simpa using hup
    rw [Option.all_some, if_pos hup]
    by_cases hids : info.txnIds = [txnId]
    · -- the upgrade stays
      refine iff_of_false (fun hkeys => ?_)
        (not_not.mpr ⟨hexcl, ⟨i, hinfo, hshared⟩, info, hlock, hids⟩)
      have hkey := congrFun hkeys req.key
      simp only [lockKey, acquireLocked, hlock, hexcl, hids, Bool.or_true, if_true,
        Function.update_self, Option.some.injEq] at hkey
      have hmode' := congrArg LockInfo.exclusive hkey
      rw [hmode, hshared] at hmode'
      cases hmode'
    -- the other holders keep their locks
    refine iff_of_true ?_ fun h => ?_
    · cases hacquired with
      | limit hnone | fresh hnone => cases hlock.symm.trans hnone
      | own info' hlock' hids' =>
        rw [hlock, Option.some.injEq] at hlock'
        exact absurd (hlock' ▸ hids') hids
      | shared _ _ _ hshared => cases hexcl.symm.trans hshared
      | stolen info' hlock' _ _ hpos => exact absurd (hm.forever _ _ hlock') (by omega)
      | refused _ _ _ _ hmap => exact congrArg LockMap.keys hmap
    · obtain ⟨-, -, info', hlock', hids'⟩ := h
      rw [hlock, Option.some.injEq] at hlock'
      exact hids (hlock' ▸ hids')
  · rw [Option.all_some, if_neg hup]
    refine iff_of_true rfl fun h => hup ?_
    obtain ⟨hexcl, ⟨i', hi', hshared⟩, -⟩ := h
    rw [hinfo, Option.some.injEq] at hi'
    rw [hi', hshared, hexcl]
    rfl

/-- A new lock on a key that was written since snapshot 5. -/
theorem tryLock_unchanged_conflict :
    ∃ req : Request Nat,
      (tryLock (fun _ => 0) 0 (fun _ => .started) 0 1 req {} {}).1 = .busy ∧
      (tryLock (fun _ => 0) 0 (fun _ => .started) 0 1 req {} {}).2.1.keys = fun _ => none := by
  refine ⟨⟨3, false, true, false, some 5, false, 9, false⟩, by decide, ?_⟩
  refine ((tryLock_unchanged_iff 0 (fun _ => .started) 0 1 _ {} {} ⟨nofun, nofun, nofun⟩
    ⟨nofun, nofun⟩ (by decide)).mpr ?_).1
  rintro ⟨-, -, _, hnone, -⟩
  exact nomatch hnone

/-- A key is tracked as shared at sequence 7 and was written since snapshot 5: the upgrade
    fails and leaves the lock exclusive. -/
theorem tryLock_failedUpgrade :
    ∃ (m : LockMap Unit) (t : Txn Unit) (req : Request Unit), TableOK m ∧ Agrees 1 m t ∧
      m.keys () = some ⟨false, [1], 0⟩ ∧
      (tryLock (fun _ => 0) 0 (fun _ => .started) 0 1 req m t).1 = .busy ∧
      (tryLock (fun _ => 0) 0 (fun _ => .started) 0 1 req m t).2.1.keys ()
        = some ⟨true, [1], 0⟩ := by
  refine ⟨{ keys := fun _ => some ⟨false, [1], 0⟩ },
    { tracked := (∅ : KeyMap Unit).insert () ⟨7, 0, 1, false⟩ },
    ⟨(), false, true, false, some 5, false, 9, false⟩, ⟨?_, ?_, ?_⟩, ⟨?_, fun _ _ _ _ => rfl⟩, rfl,
    by decide, by decide⟩
  · rintro _ _ ⟨⟩
    nofun
  · rintro _ _ ⟨⟩
    nofun
  · rintro _ _ ⟨⟩
    rfl
  · rintro _ _ ⟨⟩
    exact ⟨_, rfl, .head _, rfl⟩

end PessimisticTryLock
