import MatrixKV.DbFormatProofs
import MatrixKV.EventRunProofs

/-! # Savepoints of a pessimistic transaction — the tracked keys

    A transaction counts its reads and writes of every key twice: in total, and in
    the map `new_keys_` of its latest savepoint.  A rollback subtracts the second
    from the first and unlocks the keys that are left with nothing.

    * `Between` — between two states of a savepoint: the totals are those at its
      start, what the savepoints above hold, and what popped ones have taken with
      them.
    * **`rollback_restores_iff`**: when a rollback restores the keys of its savepoint. -/

namespace TransactionSavePoint

open List DbFormat EventRun

variable {Key : Type} [DecidableEq Key]

/-! ## The maps -/

structure KeyInfo where
  seq : Nat
  numWrites : Nat := 0
  numReads : Nat := 0
  exclusive : Bool := false
  deriving DecidableEq, Repr

/-- `TransactionKeyMap`, with column family and key as one key. -/
abbrev KeyMap (Key : Type) := AList (fun _ : Key => KeyInfo)

def KeyInfo.track (info : KeyInfo) (readOnly exclusive : Bool) : KeyInfo :=
  if readOnly then
    { info with
      numReads := (info.numReads + 1) % 2 ^ 32
      exclusive := info.exclusive || exclusive }
  else
    { info with
      numWrites := (info.numWrites + 1) % 2 ^ 32
      exclusive := info.exclusive || exclusive }

/-- The entry of a key at its next tracking: the smaller sequence is the stronger. -/
def atSeq (m : KeyMap Key) (key : Key) (seq : Nat) : KeyInfo :=
  match m.lookup key with
  | none => { seq := seq }
  | some info => if seq < info.seq then { info with seq := seq } else info

def trackKey (m : KeyMap Key) (key : Key) (seq : Nat) (readOnly exclusive : Bool) : KeyMap Key :=
  m.insert key ((atSeq m key seq).track readOnly exclusive)

/-! ## The transaction -/

structure Txn (Key : Type) where
  tracked : KeyMap Key := ∅
  /-- `new_keys_` of the savepoints, the latest first -/
  savePoints : List (KeyMap Key) := []
  /-- the keys of which the transaction holds the lock -/
  locked : Finset Key := ∅

def Txn.trackKey (t : Txn Key) (key : Key) (seq : Nat) (readOnly exclusive : Bool) : Txn Key :=
  { t with
    tracked := TransactionSavePoint.trackKey t.tracked key seq readOnly exclusive
    savePoints :=
      match t.savePoints with
      | [] => []
      | newKeys :: rest =>
        TransactionSavePoint.trackKey newKeys key seq readOnly exclusive :: rest }

/-- What a request is answered: whether the lock manager grants the lock; the
    snapshot to validate against, if any, and whether the key is unchanged since
    then; the latest sequence number. -/
structure Answers where
  granted : Bool
  snapshot : Option Nat := none
  unchanged : Bool := true
  latest : Nat := 0

/-- `ValidateSnapshot`: the status and the new `tracked_at_seq`. -/
def validateSnapshot (snapSeq : Nat) (unchanged : Bool) (trackedAtSeq : Nat) : Bool × Nat :=
  if trackedAtSeq ≤ snapSeq then (true, trackedAtSeq) else (unchanged, snapSeq)

def Txn.tryLock (t : Txn Key) (key : Key) (readOnly exclusive : Bool) (ans : Answers) :
    Bool × Txn Key :=
  let info := t.tracked.lookup key
  let previouslyLocked := info.isSome
  let lockUpgrade := info.any (fun i => !i.exclusive && exclusive)
  let trackedAtSeq := (info.map KeyInfo.seq).getD maxSequenceNumber
  let asks := !previouslyLocked || lockUpgrade
  let ok := !asks || ans.granted
  let t' := if asks && ans.granted then { t with locked := insert key t.locked } else t
  match ans.snapshot with
  | none =>
    let seq := if trackedAtSeq = maxSequenceNumber then ans.latest else trackedAtSeq
    (ok, if ok then t'.trackKey key seq readOnly exclusive else t')
  | some snapSeq =>
    if ok then
      match validateSnapshot snapSeq ans.unchanged trackedAtSeq with
      | (true, seq) => (true, t'.trackKey key seq readOnly exclusive)
      | (false, _) =>
        -- an upgraded lock is not given back: it was locked before
        (false,
          if previouslyLocked then t' else { t' with locked := t'.locked.erase key })
    else (false, t')

def Txn.setSavePoint (t : Txn Key) : Txn Key := { t with savePoints := ∅ :: t.savePoints }

def Txn.popSavePoint (t : Txn Key) : Txn Key :=
  match t.savePoints with
  | [] => t
  | _ :: rest => { t with savePoints := rest }

/-- A key is collected if all its reads and writes were done since the savepoint. -/
def collectKey (tracked result : KeyMap Key) (e : Sigma (fun _ : Key => KeyInfo)) : KeyMap Key :=
  match tracked.lookup e.1 with
  -- the source would read past the end of the map
  | none => result
  | some total =>
    if total.numReads = e.2.numReads ∧ total.numWrites = e.2.numWrites then
      trackKey result e.1 e.2.seq (decide (e.2.numWrites = 0)) e.2.exclusive
    else result

/-- `GetTrackedKeysSinceSavePoint` -/
def trackedKeysSince (tracked newKeys : KeyMap Key) : KeyMap Key :=
  newKeys.entries.foldl (collectKey tracked) ∅

/-- `UnLock` of a map of keys. -/
def unLock (locked : Finset Key) (keys : KeyMap Key) : Finset Key :=
  keys.keys.foldl Finset.erase locked

/-- What a rollback does with one key of the savepoint. -/
def subtract (total since : KeyInfo) : KeyInfo :=
  { total with
    numReads :=
      if since.numReads > 0 then (total.numReads + (2 ^ 32 - since.numReads)) % 2 ^ 32
      else total.numReads
    numWrites :=
      if since.numWrites > 0 then (total.numWrites + (2 ^ 32 - since.numWrites)) % 2 ^ 32
      else total.numWrites }

def releaseKey (tracked : KeyMap Key) (e : Sigma (fun _ : Key => KeyInfo)) : KeyMap Key :=
  match tracked.lookup e.1 with
  -- the source would write past the end of the map
  | none => tracked
  | some total =>
    if (subtract total e.2).numReads = 0 ∧ (subtract total e.2).numWrites = 0 then
      tracked.erase e.1
    else tracked.insert e.1 (subtract total e.2)

def Txn.rollbackToSavePoint (t : Txn Key) : Txn Key :=
  match t.savePoints with
  | [] => t
  | newKeys :: rest =>
    { tracked := newKeys.entries.foldl releaseKey t.tracked
      savePoints := rest
      locked := unLock t.locked (trackedKeysSince t.tracked newKeys) }

/-! ## Runs -/

inductive Op (Key : Type)
  | getForUpdate (key : Key) (exclusive : Bool) (ans : Answers)
  | put (key : Key) (ans : Answers)
  | delete (key : Key) (ans : Answers)
  | merge (key : Key) (ans : Answers)
  | setSavePoint
  | popSavePoint
  | rollbackToSavePoint

def Txn.step (t : Txn Key) : Op Key → Txn Key
  | .getForUpdate key exclusive ans => (t.tryLock key true exclusive ans).2
  | .put key ans => (t.tryLock key false true ans).2
  | .delete key ans => (t.tryLock key false true ans).2
  | .merge key ans => (t.tryLock key false true ans).2
  | .setSavePoint => t.setSavePoint
  | .popSavePoint => t.popSavePoint
  | .rollbackToSavePoint => t.rollbackToSavePoint

/-- The transaction after some operations. -/
def after (ops : List (Op Key)) : Txn Key := run Txn.step {} ops

/-- What an operation does to the number of open savepoints; `none` if there is none
    to pop or to roll back. -/
def Op.depth (d : Nat) : Op Key → Option Nat
  | .setSavePoint => some (d + 1)
  | .popSavePoint => if d = 0 then none else some (d - 1)
  | .rollbackToSavePoint => if d = 0 then none else some (d - 1)
  | _ => some d

def depth : Nat → List (Op Key) → Option Nat
  | d, [] => some d
  | d, op :: ops => (op.depth d).bind (fun d' => depth d' ops)

/-- Every savepoint set by the operations is also popped or rolled back by them, and
    no other is. -/
def Balanced (ops : List (Op Key)) : Prop := depth 0 ops = some 0

/-- The tracked keys with their counts, and the locked keys. -/
def Txn.Same (t t' : Txn Key) : Prop :=
  (∀ key, (t.tracked.lookup key).map (fun i => (i.numReads, i.numWrites))
    = (t'.tracked.lookup key).map (fun i => (i.numReads, i.numWrites))) ∧
  t.locked = t'.locked

/-- A savepoint is popped under which a key was tracked. -/
def Loses (t : Txn Key) (op : Op Key) : Prop :=
  op = .popSavePoint ∧ ∃ newKeys rest, t.savePoints = newKeys :: rest ∧ newKeys ≠ ∅

/-- The key an operation asks for. -/
def Op.key? : Op Key → Option Key
  | .getForUpdate key _ _ => some key
  | .put key _ => some key
  | .delete key _ => some key
  | .merge key _ => some key
  | _ => none

def requests (ops : List (Op Key)) (key : Key) : Nat :=
  ops.countP (fun op => op.key? = some key)

/-! ## Loops over a map -/

section Fold

variable {γ : Type} {f : AList (fun _ : Key => γ) → Sigma (fun _ : Key => KeyInfo) →
    AList (fun _ : Key => γ)} {g : Key → Option γ → KeyInfo → Option γ}

/-- A loop whose body only touches the key it is at. -/
theorem lookup_foldl (hself : ∀ m e, (f m e).lookup e.1 = g e.1 (m.lookup e.1) e.2)
    (hother : ∀ m e k, k ≠ e.1 → (f m e).lookup k = m.lookup k) (k : Key)
    (l : List (Sigma (fun _ : Key => KeyInfo))) (m : AList (fun _ : Key => γ))
    (hnodup : l.NodupKeys) :
    (l.foldl f m).lookup k = (l.dlookup k).elim (m.lookup k) (fun i => g k (m.lookup k) i) := by
  induction l generalizing m with
  | nil => rfl
  | cons e l ih =>
  obtain ⟨hfresh, hrest⟩ := nodupKeys_cons.mp hnodup
  rw [foldl_cons, ih _ hrest]
  by_cases hk : k = e.1
  · subst hk
    rw [dlookup_eq_none.mpr hfresh, dlookup_cons_eq]
    exact hself m e
  · rw [dlookup_cons_ne _ _ hk, hother m e k hk]

end Fold

/-! ## Counts -/

/-- The reads or the writes. -/
def KeyInfo.num (info : KeyInfo) (readOnly : Bool) : Nat :=
  if readOnly then info.numReads else info.numWrites

def count (m : KeyMap Key) (key : Key) (readOnly : Bool) : Nat :=
  ((m.lookup key).map (KeyInfo.num · readOnly)).getD 0

theorem count_empty (key : Key) (readOnly : Bool) : count ∅ key readOnly = 0 := by
  rw [count, AList.lookup_empty]
  rfl

variable {m : KeyMap Key}

theorem count_of_lookup {key : Key} {info : KeyInfo} (h : m.lookup key = some info)
    (readOnly : Bool) : count m key readOnly = info.num readOnly := by
  rw [count, h]
  rfl

theorem num_eq_iff {a b : KeyInfo} :
    (a.numReads = b.numReads ∧ a.numWrites = b.numWrites) ↔ ∀ r, a.num r = b.num r := by
  rw [Bool.forall_bool, and_comm]
  rfl

theorem num_track (info : KeyInfo) (readOnly exclusive r : Bool) :
    (info.track readOnly exclusive).num r
      = if r = readOnly then (info.num r + 1) % 2 ^ 32 else info.num r := by
  cases readOnly <;> cases r <;> rfl

/-- The entry that is counted up has the counts of the map. -/
theorem num_atSeq (m : KeyMap Key) (key : Key) (seq : Nat) (r : Bool) :
    (atSeq m key seq).num r = count m key r := by
  rw [atSeq, count]
  cases m.lookup key with
  | none => cases r <;> rfl
  | some info =>
  by_cases h : seq < info.seq
  · simp only [if_pos h]
    rfl
  · simp only [if_neg h]
    rfl

theorem count_trackKey (m : KeyMap Key) (key : Key) (seq : Nat) (readOnly exclusive : Bool)
    (k : Key) (r : Bool) :
    count (trackKey m key seq readOnly exclusive) k r
      = if k = key ∧ r = readOnly then (count m k r + 1) % 2 ^ 32 else count m k r := by
  by_cases hk : k = key
  · subst hk
    rw [trackKey, count_of_lookup (AList.lookup_insert _), num_track, num_atSeq]
    simp only [true_and]
  · rw [if_neg (fun h => hk h.1), count, trackKey, AList.lookup_insert_ne hk, count]

/-- Every entry counts something. -/
def Counted (m : KeyMap Key) : Prop :=
  ∀ key info, m.lookup key = some info → ∃ r, 0 < info.num r

theorem Counted.mem_iff (h : Counted m) (key : Key) : key ∈ m ↔ ∃ r, 0 < count m key r := by
  rw [← AList.lookup_isSome, Option.isSome_iff_exists]
  constructor
  · rintro ⟨info, hinfo⟩
    obtain ⟨r, hr⟩ := h key info hinfo
    exact ⟨r, by rwa [count_of_lookup hinfo]⟩
  rintro ⟨r, hr⟩
  cases hlook : m.lookup key with
  | none =>
    rw [count, hlook] at hr
    exact absurd hr (Nat.lt_irrefl 0)
  | some info => exact ⟨info, rfl⟩

theorem counted_empty : Counted (∅ : KeyMap Key) := by
  intro key info h
  rw [AList.lookup_empty] at h
  exact nomatch h

theorem Counted.trackKey (h : Counted m) {key : Key} {seq : Nat} {readOnly exclusive : Bool}
    (hwrap : count m key readOnly + 1 < 2 ^ 32) :
    Counted (trackKey m key seq readOnly exclusive) := by
  intro k info hinfo
  by_cases hk : k = key
  · subst hk
    refine ⟨readOnly, ?_⟩
    rw [← count_of_lookup hinfo, count_trackKey, if_pos ⟨rfl, rfl⟩, Nat.mod_eq_of_lt hwrap]
    exact Nat.succ_pos _
  · rw [TransactionSavePoint.trackKey, AList.lookup_insert_ne hk] at hinfo
    exact h k info hinfo

/-- The counts say all of a map that a rollback has to restore. -/
theorem Counted.map_eq_iff {m' : KeyMap Key} (h : Counted m) (h' : Counted m') (key : Key) :
    (m.lookup key).map (fun i => (i.numReads, i.numWrites))
        = (m'.lookup key).map (fun i => (i.numReads, i.numWrites)) ↔
      ∀ r, count m key r = count m' key r := by
  constructor
  · intro heq r
    have hnum : ∀ m : KeyMap Key, count m key r
        = ((m.lookup key).map (fun i => (i.numReads, i.numWrites))).elim 0
          (fun c => if r then c.1 else c.2) := by
      intro m
      rw [count]
      cases m.lookup key <;> rfl
    rw [hnum, hnum, heq]
  intro heq
  have hmem : key ∈ m ↔ key ∈ m' := by
    rw [h.mem_iff, h'.mem_iff]
    exact exists_congr (fun r => by rw [heq r])
  rw [← AList.lookup_isSome, ← AList.lookup_isSome] at hmem
  cases hm : m.lookup key with
  | none =>
    cases hm' : m'.lookup key with
    | none => rfl
    | some info' =>
      rw [hm, hm'] at hmem
      exact absurd (hmem.mpr rfl) (by simp)
  | some info =>
  cases hm' : m'.lookup key with
  | none =>
    rw [hm, hm'] at hmem
    exact absurd (hmem.mp rfl) (by simp)
  | some info' =>
    simp only [count_of_lookup hm, count_of_lookup hm', ← num_eq_iff] at heq
    simp only [Option.map_some, heq]

/-! ## A rollback -/

section Rollback

variable {tracked newKeys : KeyMap Key}

theorem num_subtract {total since : KeyInfo} {r : Bool} (hle : since.num r ≤ total.num r)
    (hlt : total.num r < 2 ^ 32) : (subtract total since).num r = total.num r - since.num r := by
  have hone : ∀ a b : Nat, b ≤ a → a < 2 ^ 32 →
      (if b > 0 then (a + (2 ^ 32 - b)) % 2 ^ 32 else a) = a - b := by
    intro a b hba ha
    split_ifs with hb
    · omega
    · omega
  cases r with
  | false => exact hone total.numWrites since.numWrites hle hlt
  | true => exact hone total.numReads since.numReads hle hlt

theorem subtract_eq_zero_iff {total since : KeyInfo} :
    ((subtract total since).numReads = 0 ∧ (subtract total since).numWrites = 0) ↔
      ∀ r, (subtract total since).num r = 0 := by
  constructor
  · rintro ⟨hreads, hwrites⟩ r
    cases r with
    | false => exact hwrites
    | true => exact hreads
  · intro h
    exact ⟨h true, h false⟩

/-- What the loop leaves of a key. -/
def released (total : Option KeyInfo) (since : KeyInfo) : Option KeyInfo :=
  total.bind (fun i =>
    if (subtract i since).numReads = 0 ∧ (subtract i since).numWrites = 0 then none
    else some (subtract i since))

theorem lookup_releaseKey_self (m : KeyMap Key) (e : Sigma (fun _ : Key => KeyInfo)) :
    (releaseKey m e).lookup e.1 = released (m.lookup e.1) e.2 := by
  rw [releaseKey, released]
  cases hm : m.lookup e.1 with
  | none => exact hm
  | some total =>
  show AList.lookup e.1 (if _ then _ else _) = if _ then _ else _
  split
  · exact AList.lookup_erase _ _
  · exact AList.lookup_insert _

theorem lookup_releaseKey_ne (m : KeyMap Key) (e : Sigma (fun _ : Key => KeyInfo)) (k : Key)
    (hk : k ≠ e.1) : (releaseKey m e).lookup k = m.lookup k := by
  rw [releaseKey]
  cases m.lookup e.1 with
  | none => rfl
  | some total =>
  show AList.lookup k (if _ then _ else _) = _
  split
  · exact AList.lookup_erase_ne hk
  · exact AList.lookup_insert_ne hk

theorem lookup_rollback (tracked newKeys : KeyMap Key) (key : Key) :
    (newKeys.entries.foldl releaseKey tracked).lookup key
      = (newKeys.lookup key).elim (tracked.lookup key) (fun i => released (tracked.lookup key) i) :=
  @lookup_foldl Key _ KeyInfo releaseKey (fun _ => released) lookup_releaseKey_self
    lookup_releaseKey_ne key newKeys.entries tracked newKeys.nodupKeys

theorem Counted.rollback (h : Counted tracked) :
    Counted (newKeys.entries.foldl releaseKey tracked) := by
  intro key info hinfo
  rw [lookup_rollback] at hinfo
  cases hnew : newKeys.lookup key with
  | none =>
    rw [hnew] at hinfo
    exact h key info hinfo
  | some since =>
  rw [hnew] at hinfo
  have hrel : released (tracked.lookup key) since = some info := hinfo
  obtain ⟨total, -, htotal⟩ := Option.bind_eq_some_iff.mp hrel
  split at htotal
  · exact nomatch htotal
  rename_i hzero
  rw [Option.some.injEq] at htotal
  subst htotal
  by_contra hnone
  refine hzero (subtract_eq_zero_iff.mpr ?_)
  intro r
  by_contra hne
  exact hnone ⟨r, Nat.pos_of_ne_zero hne⟩

theorem mem_unLock_iff (locked : Finset Key) (keys : KeyMap Key) (key : Key) :
    key ∈ unLock locked keys ↔ key ∈ locked ∧ key ∉ keys := by
  have hloop : ∀ (l : List Key) (locked : Finset Key),
      key ∈ l.foldl Finset.erase locked ↔ key ∈ locked ∧ key ∉ l := by
    intro l
    induction l with
    | nil => simp
    | cons k l ih =>
    intro locked
    rw [foldl_cons, ih, Finset.mem_erase, mem_cons, not_or]
    tauto
  rw [unLock, hloop, AList.mem_keys]

theorem mem_collectKey_iff (tracked m : KeyMap Key) (e : Sigma (fun _ : Key => KeyInfo))
    (key : Key) :
    key ∈ collectKey tracked m e ↔ key ∈ m ∨
      (key = e.1 ∧ ∃ total, tracked.lookup e.1 = some total ∧ ∀ r, total.num r = e.2.num r) := by
  rw [collectKey]
  cases tracked.lookup e.1 with
  | none => simp
  | some total =>
  show key ∈ (if _ then _ else _) ↔ _
  split_ifs with h
  · rw [trackKey, AList.mem_insert, or_comm]
    refine or_congr_right ⟨fun hk => ⟨hk, total, rfl, num_eq_iff.mp h⟩, And.left⟩
  refine ⟨.inl, ?_⟩
  rintro (hm | ⟨-, total', htotal, hnum⟩)
  · exact hm
  · rw [Option.some.injEq] at htotal
    subst htotal
    exact absurd (num_eq_iff.mpr hnum) h

/-- The keys that are only touched since the savepoint. -/
theorem mem_trackedKeysSince_iff (tracked newKeys : KeyMap Key) (key : Key) :
    key ∈ trackedKeysSince tracked newKeys ↔ ∃ total since, tracked.lookup key = some total ∧
      newKeys.lookup key = some since ∧ ∀ r, total.num r = since.num r := by
  have hloop : ∀ (l : List (Sigma (fun _ : Key => KeyInfo))) (m : KeyMap Key),
      key ∈ l.foldl (collectKey tracked) m ↔ key ∈ m ∨ ∃ e ∈ l, key = e.1 ∧
        ∃ total, tracked.lookup e.1 = some total ∧ ∀ r, total.num r = e.2.num r := by
    intro l
    induction l with
    | nil => simp
    | cons e l ih =>
    intro m
    rw [foldl_cons, ih, mem_collectKey_iff, or_assoc]
    simp only [mem_cons, exists_eq_or_imp]
  rw [trackedKeysSince, hloop]
  constructor
  · rintro (h | ⟨e, he, rfl, total, htotal, hnum⟩)
    · exact absurd h (AList.notMem_empty key)
    · exact ⟨total, e.2, htotal, AList.mem_lookup_iff.mpr he, hnum⟩
  · rintro ⟨total, since, htotal, hsince, hnum⟩
    exact .inr ⟨⟨key, since⟩, AList.mem_lookup_iff.mp hsince, rfl, total, htotal, hnum⟩

variable (hle : ∀ key r, count newKeys key r ≤ count tracked key r)
  (hwrap : ∀ key r, count tracked key r < 2 ^ 32)
include hle hwrap

/-- The counts of the savepoint are taken off. -/
theorem count_rollback (key : Key) (r : Bool) :
    count (newKeys.entries.foldl releaseKey tracked) key r
      = count tracked key r - count newKeys key r := by
  rw [count, lookup_rollback]
  cases hnew : newKeys.lookup key with
  | none =>
    have h0 : count newKeys key r = 0 := by rw [count, hnew]; rfl
    rw [h0]
    rfl
  | some since =>
  show ((released (tracked.lookup key) since).map (KeyInfo.num · r)).getD 0 = _
  cases htot : tracked.lookup key with
  | none =>
    have h0 : count tracked key r = 0 := by rw [count, htot]; rfl
    rw [h0, Nat.zero_sub]
    rfl
  | some total =>
  have hsub := hle key r
  have hlt := hwrap key r
  rw [count_of_lookup hnew, count_of_lookup htot] at hsub ⊢
  rw [count_of_lookup htot] at hlt
  have hnum := num_subtract hsub hlt
  rw [released, Option.bind_some]
  split_ifs with hzero
  · rw [← hnum]
    exact (subtract_eq_zero_iff.mp hzero r).symm
  · exact hnum

end Rollback

/-! ## What every operation keeps -/

/-- The locks are those of the tracked keys, every entry counts something, and the
    savepoints have counted no more than there is; a key was asked for at most
    `n key` times. -/
structure Good (n : Key → Nat) (t : Txn Key) : Prop where
  locked : ∀ key, key ∈ t.locked ↔ key ∈ t.tracked
  tracked : Counted t.tracked
  newKeys : ∀ m ∈ t.savePoints, Counted m
  sum_le : ∀ key r, (t.savePoints.map (count · key r)).sum ≤ count t.tracked key r
  bound : ∀ key r, count t.tracked key r ≤ n key

theorem good_new : Good (fun _ : Key => 0) {} where
  locked := fun key => iff_of_false (Finset.notMem_empty key) (AList.notMem_empty key)
  tracked := counted_empty
  newKeys := nofun
  sum_le := fun _ _ => Nat.zero_le _
  bound := fun key r => by rw [count_empty]

section Steps

variable {n n' : Key → Nat} {t : Txn Key}

theorem Good.mono (h : Good n t) (hle : ∀ key, n key ≤ n' key) : Good n' t :=
  ⟨h.locked, h.tracked, h.newKeys, h.sum_le, fun key r => (h.bound key r).trans (hle key)⟩

/-- **ONE REQUEST**: nothing happens, or the key is locked and tracked. -/
theorem Good.tryLock_cases (h : Good n t) (key : Key) (readOnly exclusive : Bool)
    (ans : Answers) :
    (t.tryLock key readOnly exclusive ans).2 = t ∨
    ∃ seq, (t.tryLock key readOnly exclusive ans).2
      = { t.trackKey key seq readOnly exclusive with locked := insert key t.locked } := by
  obtain ⟨granted, snapshot, unchanged, latest⟩ := ans
  cases hinfo : t.tracked.lookup key with
  | none =>
    have hfree : key ∉ t.locked := by
      rw [h.locked]
      exact AList.lookup_eq_none.mp hinfo
    cases granted with
    | false =>
      refine .inl ?_
      cases snapshot <;> simp [Txn.tryLock, hinfo]
    | true =>
    cases snapshot with
    | none => exact .inr ⟨latest, by simp [Txn.tryLock, hinfo, Txn.trackKey]⟩
    | some snapSeq =>
    cases hval : validateSnapshot snapSeq unchanged maxSequenceNumber with
    | mk ok seq =>
    cases ok with
    | true => exact .inr ⟨seq, by simp [Txn.tryLock, hinfo, hval, Txn.trackKey]⟩
    | false =>
    -- the new lock is given back
    refine .inl ?_
    simp [Txn.tryLock, hinfo, hval, Finset.erase_insert hfree]
  | some info =>
  have hheld : insert key t.locked = t.locked := by
    refine Finset.insert_eq_of_mem ((h.locked key).mpr ?_)
    rw [← AList.lookup_isSome, hinfo]
    rfl
  have hsame : ∀ c : Bool, (if c = true then { t with locked := insert key t.locked } else t)
      = t := by
    intro c
    rw [hheld]
    cases c <;> rfl
  rw [hheld]
  simp only [Txn.tryLock, hinfo, hsame]
  cases snapshot with
  | none =>
    simp only
    split
    · exact .inr ⟨_, rfl⟩
    · exact .inl rfl
  | some snapSeq =>
  simp only
  split
  · cases validateSnapshot snapSeq unchanged _ with
    | mk ok seq =>
    cases ok with
    | true => exact .inr ⟨seq, rfl⟩
    | false => exact .inl rfl
  · exact .inl rfl

/-- The counts of one more request. -/
theorem count_trackKey_lt {key : Key} (seq : Nat) {readOnly : Bool} (exclusive : Bool)
    (hwrap : count m key readOnly + 1 < 2 ^ 32) (k : Key) (r : Bool) :
    count (trackKey m key seq readOnly exclusive) k r
      = count m k r + if k = key ∧ r = readOnly then 1 else 0 := by
  rw [count_trackKey]
  by_cases h : k = key ∧ r = readOnly
  · rw [if_pos h, if_pos h, h.1, h.2, Nat.mod_eq_of_lt hwrap]
  · rw [if_neg h, if_neg h, Nat.add_zero]

section

variable (h : Good n t)
include h

theorem Good.count_le_of_mem (hm : m ∈ t.savePoints) (key : Key) (r : Bool) :
    count m key r ≤ count t.tracked key r :=
  (single_le_sum (fun _ _ => Nat.zero_le _) _
    (mem_map_of_mem (f := (count · key r)) hm)).trans (h.sum_le key r)

theorem Good.track (key : Key) (seq : Nat) (readOnly exclusive : Bool)
    (hwrap : n key + 1 < 2 ^ 32) :
    Good (fun k => n k + if k = key then 1 else 0)
      { t.trackKey key seq readOnly exclusive with locked := insert key t.locked } := by
  have htop : count t.tracked key readOnly + 1 < 2 ^ 32 :=
    (Nat.succ_le_succ (h.bound key readOnly)).trans_lt hwrap
  have hcount := @count_trackKey_lt Key _ t.tracked key seq readOnly exclusive htop
  obtain ⟨tracked, savePoints, locked⟩ := t
  constructor
  · intro k
    show k ∈ insert key locked ↔ k ∈ trackKey tracked key seq readOnly exclusive
    rw [Finset.mem_insert, trackKey, AList.mem_insert]
    exact or_congr_right (h.locked k)
  · exact h.tracked.trackKey htop
  · cases savePoints with
    | nil => exact nofun
    | cons m rest =>
    have hm := h.count_le_of_mem (.head _) key readOnly
    refine forall_mem_cons.mpr ⟨?_, fun m' hm' => h.newKeys m' (.tail _ hm')⟩
    exact (h.newKeys m (.head _)).trackKey (by omega)
  · intro k r
    show _ ≤ count (trackKey tracked key seq readOnly exclusive) k r
    rw [hcount]
    have hsum := h.sum_le k r
    cases savePoints with
    | nil => exact Nat.zero_le _
    | cons m rest =>
    have hm := h.count_le_of_mem (.head _) key readOnly
    have hcount' := @count_trackKey_lt Key _ m key seq readOnly exclusive (by omega) k r
    simp only [Txn.trackKey, map_cons, sum_cons, hcount'] at hsum ⊢
    omega
  · intro k r
    show count (trackKey tracked key seq readOnly exclusive) k r ≤ _
    rw [hcount]
    have hbound : count tracked k r ≤ n k := h.bound k r
    by_cases hk : k = key
    · simp only [hk, true_and, if_true]
      rw [hk] at hbound
      split <;> omega
    · simp only [hk, false_and, if_false]
      omega

theorem Good.setSavePoint : Good n t.setSavePoint := by
  refine ⟨h.locked, h.tracked, forall_mem_cons.mpr ⟨counted_empty, h.newKeys⟩, ?_, h.bound⟩
  intro key r
  show ((∅ :: t.savePoints).map (count · key r)).sum ≤ _
  rw [map_cons, sum_cons, count_empty, Nat.zero_add]
  exact h.sum_le key r

theorem Good.popSavePoint : Good n t.popSavePoint := by
  obtain ⟨tracked, savePoints, locked⟩ := t
  cases savePoints with
  | nil => exact h
  | cons m rest =>
  refine ⟨h.locked, h.tracked, (forall_mem_cons.mp h.newKeys).2, ?_, h.bound⟩
  intro key r
  have hsum := h.sum_le key r
  simp only [map_cons, sum_cons] at hsum
  show (rest.map (count · key r)).sum ≤ count tracked key r
  omega

/-- The counts after a rollback. -/
theorem Good.count_rollback (hwrap : ∀ key, n key < 2 ^ 32)
    {rest : List (KeyMap Key)} (hsp : t.savePoints = m :: rest) (key : Key) (r : Bool) :
    count t.rollbackToSavePoint.tracked key r = count t.tracked key r - count m key r := by
  rw [Txn.rollbackToSavePoint, hsp]
  refine TransactionSavePoint.count_rollback ?_ ?_ key r
  · intro key r
    exact h.count_le_of_mem (by rw [hsp]; exact .head _) key r
  · intro key r
    exact (h.bound key r).trans_lt (hwrap key)

theorem Good.rollbackToSavePoint (hwrap : ∀ key, n key < 2 ^ 32) :
    Good n t.rollbackToSavePoint := by
  cases hsp : t.savePoints with
  | nil =>
    rw [Txn.rollbackToSavePoint, hsp]
    exact h
  | cons m rest =>
  have hcount := h.count_rollback hwrap hsp
  have hm : Counted m := h.newKeys m (by rw [hsp]; exact .head _)
  have htracked : Counted t.rollbackToSavePoint.tracked := by
    rw [Txn.rollbackToSavePoint, hsp]
    exact h.tracked.rollback
  have hlocked : t.rollbackToSavePoint.locked
      = unLock t.locked (trackedKeysSince t.tracked m) := by
    rw [Txn.rollbackToSavePoint, hsp]
  have hrest : t.rollbackToSavePoint.savePoints = rest := by
    rw [Txn.rollbackToSavePoint, hsp]
  constructor
  · intro key
    rw [hlocked, mem_unLock_iff, h.locked, mem_trackedKeysSince_iff, htracked.mem_iff]
    simp only [hcount]
    constructor
    · rintro ⟨hmem, hnot⟩
      obtain ⟨total, htotal⟩ := Option.isSome_iff_exists.mp (AList.lookup_isSome.mpr hmem)
      by_contra hnone
      -- nothing is left: all counts are those of the savepoint
      have hall : ∀ r, total.num r = count m key r := by
        intro r
        have hle := h.count_le_of_mem (by rw [hsp]; exact .head _) key r
        have hzero : ¬ 0 < count t.tracked key r - count m key r := fun hr => hnone ⟨r, hr⟩
        rw [count_of_lookup htotal] at hle hzero
        omega
      have hin : key ∈ m := by
        rw [hm.mem_iff]
        obtain ⟨r, hr⟩ := h.tracked key total htotal
        exact ⟨r, by rw [← hall r]; exact hr⟩
      obtain ⟨since, hsince⟩ := Option.isSome_iff_exists.mp (AList.lookup_isSome.mpr hin)
      refine hnot ⟨total, since, htotal, hsince, ?_⟩
      intro r
      rw [hall r, count_of_lookup hsince]
    · rintro ⟨r, hr⟩
      refine ⟨(h.tracked.mem_iff key).mpr ⟨r, by omega⟩, ?_⟩
      rintro ⟨total, since, htotal, hsince, hnum⟩
      rw [count_of_lookup htotal, count_of_lookup hsince, hnum r, Nat.sub_self] at hr
      exact Nat.lt_irrefl 0 hr
  · exact htracked
  · rw [hrest]
    intro m' hm'
    exact h.newKeys m' (by rw [hsp]; exact .tail _ hm')
  · intro key r
    have hsum := h.sum_le key r
    rw [hsp, map_cons, sum_cons] at hsum
    rw [hrest, hcount]
    omega
  · intro key r
    have hbound := h.bound key r
    rw [hcount]
    omega

end

/-- The requests for a key after one more operation. -/
def asked (n : Key → Nat) (op : Op Key) (key : Key) : Nat :=
  n key + if op.key? = some key then 1 else 0

theorem Good.tryLock (h : Good n t) (key : Key) (readOnly exclusive : Bool) (ans : Answers)
    (hwrap : n key + 1 < 2 ^ 32) :
    Good (fun k => n k + if some key = some k then 1 else 0)
      (t.tryLock key readOnly exclusive ans).2 := by
  rcases h.tryLock_cases key readOnly exclusive ans with hsame | ⟨seq, htrack⟩
  · rw [hsame]
    exact h.mono (fun k => Nat.le_add_right _ _)
  rw [htrack]
  refine (h.track key seq readOnly exclusive hwrap).mono ?_
  intro k
  by_cases hk : k = key
  · rw [hk]
    simp
  · simp [hk]

theorem lt_of_asked {op : Op Key} (hwrap : ∀ key, asked n op key < 2 ^ 32) :
    (∀ key, n key < 2 ^ 32) ∧ ∀ key, op.key? = some key → n key + 1 < 2 ^ 32 := by
  refine ⟨fun key => (Nat.le_add_right _ _).trans_lt (hwrap key), ?_⟩
  intro key hkey
  have h := hwrap key
  rwa [asked, if_pos hkey] at h

/-- **STEP**: every operation keeps the account, as long as no counter wraps around. -/
theorem Good.step (h : Good n t) (op : Op Key) (hwrap : ∀ key, asked n op key < 2 ^ 32) :
    Good (asked n op) (t.step op) := by
  obtain ⟨hn, hlt⟩ := lt_of_asked hwrap
  cases op with
  | getForUpdate key exclusive ans => exact h.tryLock key true exclusive ans (hlt key rfl)
  | put key ans => exact h.tryLock key false true ans (hlt key rfl)
  | delete key ans => exact h.tryLock key false true ans (hlt key rfl)
  | merge key ans => exact h.tryLock key false true ans (hlt key rfl)
  | setSavePoint => exact h.setSavePoint
  | popSavePoint => exact h.popSavePoint
  | rollbackToSavePoint => exact h.rollbackToSavePoint hn

end Steps

/-! ## Inside a savepoint -/

/-- The savepoint of `base` is open, with `d` more above it; `lost` are the counts of
    popped savepoints. -/
structure Between (base : Txn Key) (d : Nat) (lost : Key → Bool → Nat) (t : Txn Key) : Prop where
  stack : ∃ above, t.savePoints = above ++ base.savePoints ∧ above.length = d + 1 ∧
    ∀ key r, count t.tracked key r
      = count base.tracked key r + (above.map (count · key r)).sum + lost key r

theorem between_setSavePoint (base : Txn Key) :
    Between base 0 (fun _ _ => 0) base.setSavePoint := by
  refine ⟨[∅], rfl, rfl, ?_⟩
  intro key r
  show count base.tracked key r = count base.tracked key r + (count ∅ key r + 0) + 0
  rw [count_empty]
  rfl

section Inside

variable {base t : Txn Key} {d : Nat} {lost : Key → Bool → Nat} {n : Key → Nat}

/-- A tracked key is counted on both sides. -/
theorem Between.track (hb : Between base d lost t) (h : Good n t) (key : Key) (seq : Nat)
    (readOnly exclusive : Bool) (hwrap : n key + 1 < 2 ^ 32) :
    Between base d lost
      { t.trackKey key seq readOnly exclusive with locked := insert key t.locked } := by
  obtain ⟨above, hstack, hlen, hcount⟩ := hb.stack
  have htop : count t.tracked key readOnly + 1 < 2 ^ 32 :=
    (Nat.succ_le_succ (h.bound key readOnly)).trans_lt hwrap
  cases above with
  | nil => exact nomatch hlen
  | cons m above =>
  have hm := h.count_le_of_mem (by rw [hstack]; exact .head _) key readOnly
  refine ⟨trackKey m key seq readOnly exclusive :: above, ?_, hlen, ?_⟩
  · simp only [Txn.trackKey, hstack, cons_append]
  intro k r
  show count (trackKey t.tracked key seq readOnly exclusive) k r = _
  have hk := hcount k r
  rw [map_cons, sum_cons] at hk ⊢
  rw [count_trackKey_lt _ _ htop, count_trackKey_lt _ _ (by omega), hk]
  omega

theorem Between.tryLock (hb : Between base d lost t) (h : Good n t) (key : Key)
    (readOnly exclusive : Bool) (ans : Answers) (hwrap : n key + 1 < 2 ^ 32) :
    Between base d lost (t.tryLock key readOnly exclusive ans).2 := by
  rcases h.tryLock_cases key readOnly exclusive ans with hsame | ⟨seq, htrack⟩
  · rw [hsame]
    exact hb
  · rw [htrack]
    exact hb.track h key seq readOnly exclusive hwrap

theorem Between.setSavePoint (hb : Between base d lost t) :
    Between base (d + 1) lost t.setSavePoint := by
  obtain ⟨above, hstack, hlen, hcount⟩ := hb.stack
  refine ⟨∅ :: above, ?_, by rw [length_cons, hlen], ?_⟩
  · show ∅ :: t.savePoints = _
    rw [hstack]
    rfl
  · intro key r
    rw [map_cons, sum_cons, count_empty, Nat.zero_add]
    exact hcount key r

/-- What a popped savepoint has counted is lost. -/
theorem Between.popSavePoint (hb : Between base (d + 1) lost t) :
    ∃ m rest, t.savePoints = m :: rest ∧
      Between base d (fun key r => lost key r + count m key r) t.popSavePoint := by
  obtain ⟨above, hstack, hlen, hcount⟩ := hb.stack
  cases above with
  | nil => exact nomatch hlen
  | cons m above =>
  refine ⟨m, _, hstack, above, ?_, Nat.succ.inj hlen, ?_⟩
  · rw [Txn.popSavePoint, hstack]
    rfl
  intro key r
  have hpop : t.popSavePoint.tracked = t.tracked := by
    rw [Txn.popSavePoint, hstack]
    rfl
  rw [hpop, hcount key r, map_cons, sum_cons]
  omega

/-- What is rolled back is not. -/
theorem Between.rollbackToSavePoint (hb : Between base (d + 1) lost t) (h : Good n t)
    (hwrap : ∀ key, n key < 2 ^ 32) : Between base d lost t.rollbackToSavePoint := by
  obtain ⟨above, hstack, hlen, hcount⟩ := hb.stack
  cases above with
  | nil => exact nomatch hlen
  | cons m above =>
  refine ⟨above, ?_, Nat.succ.inj hlen, ?_⟩
  · rw [Txn.rollbackToSavePoint, hstack]
    rfl
  · intro key r
    rw [h.count_rollback hwrap hstack, hcount key r, map_cons, sum_cons]
    omega

/-- **ONE OPERATION** inside a savepoint loses counts exactly if it pops a savepoint
    that has some. -/
theorem Between.step (hb : Between base d lost t) (h : Good n t) (op : Op Key) {d' : Nat}
    (hd : op.depth d = some d') (hwrap : ∀ key, asked n op key < 2 ^ 32) :
    ∃ lost', lost ≤ lost' ∧ Between base d' lost' (t.step op) ∧ (lost' = lost ↔ ¬ Loses t op) := by
  obtain ⟨hn, hlt⟩ := lt_of_asked hwrap
  have hkeeps : op ≠ .popSavePoint → Between base d' lost (t.step op) →
      ∃ lost', lost ≤ lost' ∧ Between base d' lost' (t.step op) ∧ (lost' = lost ↔ ¬ Loses t op) :=
    fun hne hstep => ⟨lost, le_rfl, hstep, iff_of_true rfl (fun hl => hne hl.1)⟩
  cases op with
  | getForUpdate key exclusive ans =>
    obtain rfl : d = d' := Option.some.inj hd
    exact hkeeps nofun (hb.tryLock h key true exclusive ans (hlt key rfl))
  | put key ans =>
    obtain rfl : d = d' := Option.some.inj hd
    exact hkeeps nofun (hb.tryLock h key false true ans (hlt key rfl))
  | delete key ans =>
    obtain rfl : d = d' := Option.some.inj hd
    exact hkeeps nofun (hb.tryLock h key false true ans (hlt key rfl))
  | merge key ans =>
    obtain rfl : d = d' := Option.some.inj hd
    exact hkeeps nofun (hb.tryLock h key false true ans (hlt key rfl))
  | setSavePoint =>
    obtain rfl : d + 1 = d' := Option.some.inj hd
    exact hkeeps nofun hb.setSavePoint
  | popSavePoint =>
    cases d with
    | zero => exact nomatch hd
    | succ d =>
    obtain rfl : d = d' := Option.some.inj hd
    obtain ⟨m, rest, hsp, hpop⟩ := hb.popSavePoint
    have hm : Counted m := h.newKeys m (by rw [hsp]; exact .head _)
    refine ⟨_, fun key r => Nat.le_add_right _ _, hpop, ?_⟩
    constructor
    · rintro hsame ⟨-, m', rest', hsp', hne⟩
      obtain ⟨rfl, -⟩ := List.cons.inj (hsp.symm.trans hsp')
      refine hne (AList.ext (eq_nil_iff_forall_not_mem.mpr ?_))
      intro e he
      obtain ⟨r, hr⟩ := hm e.1 e.2 (AList.mem_lookup_iff.mpr he)
      have hzero := congrFun (congrFun hsame e.1) r
      rw [count_of_lookup (AList.mem_lookup_iff.mpr he)] at hzero
      omega
    · intro hnot
      have hempty : m = ∅ := by
        by_contra hne
        exact hnot ⟨rfl, m, rest, hsp, hne⟩
      funext key r
      rw [hempty, count_empty, Nat.add_zero]
  | rollbackToSavePoint =>
  cases d with
  | zero => exact nomatch hd
  | succ d =>
    obtain rfl : d = d' := Option.some.inj hd
    exact hkeeps nofun (hb.rollbackToSavePoint h hn)

theorem asked_add_requests (op : Op Key) (ops : List (Op Key)) (key : Key) :
    asked n op key + requests ops key = n key + requests (op :: ops) key := by
  rw [asked, requests, requests, countP_cons]
  simp only [decide_eq_true_eq]
  omega

theorem run_good (ops : List (Op Key)) (n : Key → Nat) (t : Txn Key) (h : Good n t)
    (hwrap : ∀ key, n key + requests ops key < 2 ^ 32) :
    Good (fun key => n key + requests ops key) (run Txn.step t ops) := by
  induction ops generalizing n t with
  | nil => exact h
  | cons op ops ih =>
  have hsum := fun key => asked_add_requests (n := n) op ops key
  have hop := h.step op (fun key => by have h1 := hsum key; have h2 := hwrap key; omega)
  have hrest := ih (asked n op) (t.step op) hop (fun key => by rw [hsum key]; exact hwrap key)
  simp only [hsum] at hrest
  exact hrest

/-- **RUN**: operations that end where they started have lost counts exactly if one of
    them has. -/
theorem Between.run (ops : List (Op Key)) (n : Key → Nat) (t : Txn Key) (d : Nat)
    (lost : Key → Bool → Nat) (hb : Between base d lost t) (h : Good n t)
    (hd : depth d ops = some 0) (hwrap : ∀ key, n key + requests ops key < 2 ^ 32) :
    ∃ lost', lost ≤ lost' ∧ Between base 0 lost' (run Txn.step t ops) ∧
      (lost' = lost ↔ Never Txn.step Loses t ops) := by
  induction ops generalizing n t d lost with
  | nil =>
    obtain rfl : d = 0 := Option.some.inj hd
    exact ⟨lost, le_rfl, hb, iff_of_true rfl trivial⟩
  | cons op ops ih =>
  obtain ⟨d', hop, hrest⟩ := Option.bind_eq_some_iff.mp hd
  have hsum := fun key => asked_add_requests (n := n) op ops key
  have hwrap' : ∀ key, asked n op key < 2 ^ 32 := fun key => by
    have h1 := hsum key
    have h2 := hwrap key
    omega
  obtain ⟨lost₁, hle₁, hb₁, hiff₁⟩ := hb.step h op hop hwrap'
  obtain ⟨lost₂, hle₂, hb₂, hiff₂⟩ := ih (asked n op) (t.step op) d' lost₁ hb₁
    (h.step op hwrap') hrest (fun key => by rw [hsum key]; exact hwrap key)
  refine ⟨lost₂, hle₁.trans hle₂, hb₂, ?_⟩
  constructor
  · intro hsame
    have h1 : lost₁ = lost := le_antisymm (hsame ▸ hle₂) hle₁
    exact ⟨hiff₁.mp h1, hiff₂.mp (hsame.trans h1.symm)⟩
  · rintro ⟨hfirst, hlater⟩
    rw [hiff₂.mpr hlater, hiff₁.mpr hfirst]

end Inside

/-! ## Savepoints nest -/

/-- Two states of a sound account have the same keys if they have the same counts. -/
theorem Good.same_iff {n n' : Key → Nat} {t t' : Txn Key} (h : Good n t) (h' : Good n' t') :
    t.Same t' ↔ ∀ key r, count t.tracked key r = count t'.tracked key r := by
  constructor
  · intro hs key
    exact (h.tracked.map_eq_iff h'.tracked key).mp (hs.1 key)
  intro heq
  refine ⟨fun key => (h.tracked.map_eq_iff h'.tracked key).mpr (heq key), ?_⟩
  ext key
  rw [h.locked, h'.locked, h.tracked.mem_iff, h'.tracked.mem_iff]
  exact exists_congr (fun r => by rw [heq key r])

/-- The rollback to the savepoint itself leaves what was lost. -/
theorem Between.rollback_same_iff {base t : Txn Key} {lost : Key → Bool → Nat} {n n' : Key → Nat}
    (hb : Between base 0 lost t) (h : Good n t) (hwrap : ∀ key, n key < 2 ^ 32)
    (hbase : Good n' base) : t.rollbackToSavePoint.Same base ↔ lost = fun _ _ => 0 := by
  obtain ⟨above, hstack, hlen, hcount⟩ := hb.stack
  obtain ⟨m, rfl⟩ := length_eq_one_iff.mp hlen
  have hleft : ∀ key r, count t.rollbackToSavePoint.tracked key r
      = count base.tracked key r + lost key r := by
    intro key r
    rw [h.count_rollback hwrap hstack, hcount key r, map_cons, map_nil, sum_singleton]
    omega
  rw [(h.rollbackToSavePoint hwrap).same_iff hbase]
  constructor
  · intro hsame
    funext key r
    have h1 := hsame key r
    rw [hleft key r] at h1
    omega
  · intro hzero key r
    rw [hleft key r, hzero, Nat.add_zero]

theorem popSavePoint_same (t : Txn Key) : t.popSavePoint.Same t := by
  rw [Txn.popSavePoint]
  cases t.savePoints <;> exact ⟨fun _ => rfl, rfl⟩

/-- **SAVEPOINTS NEST** unless a popped one takes counts with it: while no counter wraps
    around, a rollback restores the tracked keys, their counts and the locks of its savepoint
    exactly if no savepoint under which a key was tracked has been popped since then. A pop itself
    changes none of these. -/
theorem rollback_restores_iff (before mid : List (Op Key)) (hmid : Balanced mid)
    (hwrap : ∀ key, requests (before ++ mid) key < 2 ^ 32) :
    ((after (before ++ .setSavePoint :: mid ++ [.rollbackToSavePoint])).Same (after before) ↔
      Never Txn.step Loses (after before).setSavePoint mid) ∧
    (after (before ++ .setSavePoint :: mid ++ [.popSavePoint])).Same
      (after (before ++ .setSavePoint :: mid)) := by
  have hreq : ∀ key, requests before key + requests mid key < 2 ^ 32 := by
    intro key
    have h := hwrap key
    rwa [requests, countP_append] at h
  have hbase : Good (requests before) (after before) := by
    have h := run_good before (fun _ => 0) {} good_new (fun key => by have h := hreq key; omega)
    simp only [Nat.zero_add] at h
    exact h
  have hinside := run_good mid _ _ hbase.setSavePoint hreq
  obtain ⟨lost, -, hb, hiff⟩ := Between.run mid _ _ 0 _ (between_setSavePoint (after before))
    hbase.setSavePoint hmid hreq
  have hrun : after (before ++ .setSavePoint :: mid)
      = run Txn.step (after before).setSavePoint mid := run_append _ _ _
  rw [after, run_append, ← after, hrun]
  refine ⟨?_, ?_⟩
  · rw [← hiff]
    exact hb.rollback_same_iff hinside hreq hbase
  · rw [after, run_append, ← after, hrun]
    exact popSavePoint_same _

/-- **NO LOCK LEAKS**: whatever is granted, refused, popped and rolled back, the locks
    are those of the tracked keys, none counted more often than it was asked for. -/
theorem locked_iff_tracked (ops : List (Op Key)) (hwrap : ∀ key, requests ops key < 2 ^ 32)
    (key : Key) : (key ∈ (after ops).locked ↔ key ∈ (after ops).tracked) ∧
      ∀ r, count (after ops).tracked key r ≤ requests ops key := by
  have h := run_good ops (fun _ => 0) {} good_new (by simpa only [Nat.zero_add] using hwrap)
  simp only [Nat.zero_add] at h
  exact ⟨h.locked key, h.bound key⟩

/-! ## Nested savepoints over one key -/

def granted : Answers := { granted := true }

def refused : Answers := { granted := false }

/-- A key of a savepoint is rolled back and one is refused: only the first stays. -/
theorem locked_iff_tracked_rolledBack :
    1 ∈ (after [.put 1 granted, .setSavePoint, .put 2 granted, .put 3 refused,
        .rollbackToSavePoint]).tracked ∧
      2 ∉ (after [.put 1 granted, .setSavePoint, .put 2 granted, .put 3 refused,
        .rollbackToSavePoint]).locked := by
  have h := locked_iff_tracked [.put 1 granted, .setSavePoint, .put 2 granted, .put 3 refused,
    .rollbackToSavePoint] (fun _ => countP_le_length.trans_lt (by decide))
  exact ⟨(h 1).1.mp (by decide), fun hlocked => absurd ((h 2).1.mp hlocked) (by decide)⟩

/-- A savepoint set and rolled back inside one that is rolled back. -/
theorem rollback_restores_iff_nested :
    (after ([.put 1 granted] ++ .setSavePoint ::
        [.put 1 granted, .setSavePoint, .getForUpdate 2 true granted, .rollbackToSavePoint] ++
        [.rollbackToSavePoint])).Same (after [.put 1 granted]) := by
  refine (rollback_restores_iff [.put 1 granted]
    [.put 1 granted, .setSavePoint, .getForUpdate 2 true granted, .rollbackToSavePoint] rfl
    ?_).1.mpr ⟨fun h => (nomatch h.1), fun h => (nomatch h.1), fun h => (nomatch h.1),
      fun h => (nomatch h.1), trivial⟩
  intro key
  exact countP_le_length.trans_lt (by decide)

/-- The inner savepoint is popped, and the rollback of the outer one leaves key 1
    tracked and locked. -/
theorem rollback_keeps_popped_key :
    Balanced [.setSavePoint, .put 1 granted, .popSavePoint] ∧
    (after ([] ++ .setSavePoint :: [.setSavePoint, .put 1 granted, .popSavePoint] ++
      [.rollbackToSavePoint])).locked = {1} ∧
    ¬ (after ([] ++ .setSavePoint :: [.setSavePoint, .put 1 granted, .popSavePoint] ++
      [.rollbackToSavePoint])).Same (after []) := by
  refine ⟨rfl, by decide, ?_⟩
  intro h
  exact absurd h.2 (by decide)

end TransactionSavePoint
