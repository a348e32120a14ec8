import MatrixKV.DbFormatProofs

/-! # Reads through sorted tables — GetContext and Version::Get

    The read of a key visits the tables from newest to oldest and feeds the
    versions of the key it may see to a `GetContext`, which collects merge operands
    until a value or a deletion settles the read.

    * `resolve` says what a history of versions amounts to, apart from any table.
    * **`versionLoop_eq_resolve`**: without range tombstones the read resolves the visible
      histories of the tables, one after the other. -/

namespace TableGet

open List DbFormat

variable {K : Type} [LinearOrder K]

abbrev Bytes := List UInt8

/-- The two operations of a merge operator that reads use.  Operands of a full
    merge are given oldest first, operands of `ShouldMerge` newest first. -/
structure MergeOperator (K : Type) where
  fullMergeV2 : K → Option Bytes → List Bytes → Option Bytes
  shouldMerge : List Bytes → Bool

/-- The range tombstone `[start, fin)`. -/
structure Tombstone (K : Type) where
  start : K
  fin : K
  seq : Nat
  deriving DecidableEq, Repr

/-- A table as reads see it.  `status` is the outcome of opening and reading it. -/
structure SortedTable (K : Type) where
  entries : List (InternalKey K × Bytes)
  tombstones : List (Tombstone K) := []
  status : Status := .ok

/-- The read options the modelled reads look at.  `persistedOnly` stands for
    `kPersistedTier` while there is unpersisted data. -/
structure ReadOptions where
  snapshot : Option Nat := none
  ignoreRangeDeletions : Bool := false
  persistedOnly : Bool := false

/-- What is known of a key on the way down: the out parameters of the reads. -/
structure ReadState where
  status : Status := .ok
  value : Bytes := []
  /-- newest first -/
  operands : List Bytes := []
  /-- `max_covering_tombstone_seq` -/
  covering : Nat := 0
  deriving DecidableEq, Repr

/-- What a caller sees: the value counts when the status is OK. -/
def ReadState.result (s : ReadState) : Except Status Bytes :=
  if s.status = .ok then .ok s.value else .error s.status

/-! ## GetContext -/

inductive GetState
  | notFound
  | found
  | deleted
  | corrupt
  | merge
  | blobIndex
  deriving DecidableEq, Repr

structure GetContext where
  state : GetState
  value : Bytes := []
  operands : List Bytes
  covering : Nat
  deriving DecidableEq, Repr

/-- `MergeHelper::TimedFullMerge`. -/
def timedFullMerge (op : Option (MergeOperator K)) (k : K) (base : Option Bytes)
    (operands : List Bytes) : Except Status Bytes :=
  match op, operands with
  -- the source asserts an operator
  | none, _ => .error .corruption
  | some _, [] => .ok (base.getD [])
  | some m, operands =>
    match m.fullMergeV2 k base operands.reverse with
    | none => .error .corruption
    | some v => .ok v

/-- The end of a read that has found the base of its operands. -/
def GetContext.finish (op : Option (MergeOperator K)) (k : K) (base : Option Bytes)
    (ctx : GetContext) : GetContext :=
  match timedFullMerge op k base ctx.operands with
  | .ok v => { ctx with state := .found, value := v }
  | .error _ => { ctx with state := .corrupt }

/-- Values and operands below a covering tombstone count as deleted. -/
def coveredType (covering : Nat) (key : InternalKey K) : ValueType :=
  if (key.type = .value ∨ key.type = .merge ∨ key.type = .blobIndex) ∧ covering > key.sequence then
    .rangeDeletion
  else key.type

/-- `merge_operator_ != nullptr && merge_operator_->ShouldMerge(..)`. -/
def wantsMerge (op : Option (MergeOperator K)) (operands : List Bytes) : Bool :=
  match op with
  | none => false
  | some m => m.shouldMerge operands

/-- `GetContext::SaveValue`: the context after an entry, and whether to go on.
    Plain reads pass no `is_blob_index`. -/
def saveValue (op : Option (MergeOperator K)) (k : K) (ctx : GetContext)
    (e : InternalKey K × Bytes) : GetContext × Bool :=
  if e.1.userKey = k then
    match coveredType ctx.covering e.1 with
    | .blobIndex => ({ ctx with state := .blobIndex }, false)
    | .value =>
      (match ctx.state with
        | .notFound => { ctx with state := .found, value := e.2 }
        | .merge => ctx.finish op k (some e.2)
        | _ => ctx, false)
    | .merge =>
      let ctx := { ctx with state := .merge, operands := ctx.operands ++ [e.2] }
      if wantsMerge op ctx.operands then (ctx.finish op k none, false) else (ctx, true)
    | .deletion | .singleDeletion | .rangeDeletion =>
      (match ctx.state with
        | .notFound => { ctx with state := .deleted }
        | .merge => ctx.finish op k none
        | _ => ctx, false)
  else (ctx, false)

/-- The entries of a table are offered until one ends the search in it. -/
def saveEntries (op : Option (MergeOperator K)) (k : K) :
    GetContext → List (InternalKey K × Bytes) → GetContext
  | ctx, [] => ctx
  | ctx, e :: es =>
    match saveValue op k ctx e with
    | (ctx', true) => saveEntries op k ctx' es
    | (ctx', false) => ctx'

/-! ## Tables and versions -/

/-- `MaxCoveringTombstoneSeqnum` of the tombstones at or below `upper`. -/
def maxCoveringTombstoneSeqnum (ts : List (Tombstone K)) (k : K) (upper : Nat) : Nat :=
  ((ts.filter fun t => t.start ≤ k ∧ k < t.fin ∧ t.seq ≤ upper).map (·.seq)).foldl max 0

/-- The entries from a key on. -/
def seekEntries (entries : List (InternalKey K × Bytes)) (ikey : InternalKey K) :
    List (InternalKey K × Bytes) :=
  entries.dropWhile fun e => icmp e.1 ikey = .lt

/-- `TableCache::Get`. -/
def tableGet (op : Option (MergeOperator K)) (opts : ReadOptions) (lkey : LookupKey K)
    (t : SortedTable K) (ctx : GetContext) : Except Status GetContext :=
  if t.status ≠ .ok then .error t.status
  else
    let covering :=
      if opts.ignoreRangeDeletions then ctx.covering
      else max ctx.covering (maxCoveringTombstoneSeqnum t.tombstones lkey.userKey
        (opts.snapshot.getD maxSequenceNumber))
    .ok (saveEntries op lkey.userKey { ctx with covering := covering }
      (seekEntries t.entries lkey.internalKey))

/-- The result of a read whose context has settled. -/
def GetContext.settled (ctx : GetContext) : Option (Except Status Bytes) :=
  match ctx.state with
  | .notFound => none
  | .merge => none
  | .found => some (.ok ctx.value)
  | .deleted => some (.error .notFound)
  | .corrupt => some (.error .corruption)
  | .blobIndex => some (.error .notSupported)

/-- The end of `Version::Get`, when no table has settled the read. -/
def GetContext.atBottom (op : Option (MergeOperator K)) (k : K) (ctx : GetContext) :
    Except Status Bytes :=
  if ctx.state = .merge then
    if op.isNone then .error .invalidArgument else timedFullMerge op k none ctx.operands
  else .error .notFound

/-- The loop of `Version::Get` over the files the picker gives. -/
def versionLoop (op : Option (MergeOperator K)) (opts : ReadOptions) (lkey : LookupKey K) :
    List (SortedTable K) → GetContext → Except Status Bytes
  | [], ctx => ctx.atBottom op lkey.userKey
  | t :: ts, ctx =>
    -- everything below a covering tombstone is covered
    if ctx.covering > 0 then ctx.atBottom op lkey.userKey
    else
      match tableGet op opts lkey t ctx with
      | .error s => .error s
      | .ok ctx' =>
        match ctx'.settled with
        | some r => r
        | none => versionLoop op opts lkey ts ctx'

/-- The context `Version::Get` starts with. -/
def ReadState.context (s : ReadState) : GetContext :=
  { state := if s.status = .ok then .notFound else .merge
    operands := s.operands
    covering := s.covering }

/-- `Version::Get`. -/
def versionGet (op : Option (MergeOperator K)) (opts : ReadOptions) (lkey : LookupKey K)
    (files : List (SortedTable K)) (s : ReadState) : Except Status Bytes :=
  versionLoop op opts lkey files s.context

/-! ## The entries a read may see -/

/-- The versions of the key at or below the sequence number. -/
def visible (lkey : LookupKey K) (entries : List (InternalKey K × Bytes)) :
    List (InternalKey K × Bytes) :=
  entries.filter fun e => e.1.userKey = lkey.userKey ∧ e.1.sequence ≤ lkey.sequence

section Visible

variable (op : Option (MergeOperator K)) (lkey : LookupKey K)

theorem visible_append (es es' : List (InternalKey K × Bytes)) :
    visible lkey (es ++ es') = visible lkey es ++ visible lkey es' := filter_append ..

theorem visible_cons_of_pos {e : InternalKey K × Bytes} (es : List (InternalKey K × Bytes))
    (h : e.1.userKey = lkey.userKey ∧ e.1.sequence ≤ lkey.sequence) :
    visible lkey (e :: es) = e :: visible lkey es :=
  filter_cons_of_pos (decide_eq_true h)

/-- A key of another user ends the search in a table. -/
theorem saveValue_of_ne {k : K} (ctx : GetContext) {e : InternalKey K × Bytes}
    (h : e.1.userKey ≠ k) : saveValue op k ctx e = (ctx, false) := by
  rw [saveValue, if_neg h]

/-- Behind the lookup key only the visible versions are read. -/
theorem saveEntries_eq_visible (es : List (InternalKey K × Bytes)) (ctx : GetContext)
    (hsorted : es.Pairwise (fun a b => a.1.rank < b.1.rank))
    (hall : ∀ e ∈ es, lkey.internalKey.rank ≤ e.1.rank) :
    saveEntries op lkey.userKey ctx es = saveEntries op lkey.userKey ctx (visible lkey es) := by
  induction es generalizing ctx with
  | nil => rfl
  | cons e es ih =>
  obtain ⟨hhead, htail⟩ := pairwise_cons.mp hsorted
  have hall' : ∀ e' ∈ es, lkey.internalKey.rank ≤ e'.1.rank :=
    fun e' h => hall e' (.tail e h)
  rcases (internalKey_rank_le_iff lkey e.1).mp (hall e (.head _)) with
    hlt | ⟨heq, hseq⟩
  · -- a larger user key: nothing of the list is visible
    have hnone : visible lkey (e :: es) = [] := by
      refine filter_eq_nil_iff.mpr ?_
      intro e' he' hvis
      have hkey := (of_decide_eq_true hvis).1
      rcases mem_cons.mp he' with rfl | he'
      · exact absurd hkey (ne_of_gt hlt)
      · have hle := userKey_le_of_rank_le (hhead e' he').le
        exact absurd hkey (ne_of_gt (hlt.trans_le hle))
    rw [hnone, saveEntries.eq_2, saveValue_of_ne op ctx (ne_of_gt hlt), saveEntries]
  · rw [visible_cons_of_pos lkey es ⟨heq.symm, hseq⟩, saveEntries, saveEntries]
    cases hsave : saveValue op lkey.userKey ctx e with
    | mk ctx' goOn =>
    cases goOn with
    | true => exact ih ctx' htail hall'
    | false => rfl

/-- **A TABLE OFFERS** its visible versions and nothing else. -/
theorem saveEntries_seek (es : List (InternalKey K × Bytes)) (ctx : GetContext)
    (hsorted : es.Pairwise (fun a b => a.1.rank < b.1.rank)) :
    saveEntries op lkey.userKey ctx (seekEntries es lkey.internalKey) = saveEntries op lkey.userKey
      ctx (visible lkey es) := by
  induction es generalizing ctx with
  | nil => rfl
  | cons e es ih =>
  obtain ⟨hhead, htail⟩ := pairwise_cons.mp hsorted
  by_cases hlt : icmp e.1 lkey.internalKey = .lt
  · have hrank := (icmp_lt_iff _ _).mp hlt
    have hinvis : ¬ (e.1.userKey = lkey.userKey ∧ e.1.sequence ≤ lkey.sequence) := by
      rintro ⟨hkey, hseq⟩
      exact absurd ((internalKey_rank_le_iff lkey e.1).mpr (.inr ⟨hkey.symm, hseq⟩))
        (not_le.mpr hrank)
    have hvis : visible lkey (e :: es) = visible lkey es :=
      filter_cons_of_neg (by rw [decide_eq_true_iff]; exact hinvis)
    have hseek : seekEntries (e :: es) lkey.internalKey = seekEntries es lkey.internalKey :=
      dropWhile_cons_of_pos
        (p := fun x : InternalKey K × Bytes => decide (icmp x.1 lkey.internalKey = .lt))
        (decide_eq_true hlt)
    rw [hvis, hseek]
    exact ih ctx htail
  · have hle : lkey.internalKey.rank ≤ e.1.rank := (icmp_ge_iff _ _).mp hlt
    have hseek : seekEntries (e :: es) lkey.internalKey = e :: es :=
      dropWhile_cons_of_neg
        (p := fun x : InternalKey K × Bytes => decide (icmp x.1 lkey.internalKey = .lt))
        (by rw [decide_eq_true_iff]; exact hlt)
    rw [hseek]
    refine saveEntries_eq_visible op lkey (e :: es) ctx hsorted ?_
    intro e' he'
    rcases mem_cons.mp he' with rfl | he'
    · exact hle
    · exact hle.trans (hhead e' he').le

end Visible

/-! ## What a history amounts to -/

/-- A full merge as a read reports it. -/
def mergeResult (op : Option (MergeOperator K)) (k : K) (base : Option Bytes)
    (operands : List Bytes) : Except Status Bytes :=
  match timedFullMerge op k base operands with
  | .ok v => .ok v
  | .error _ => .error .corruption

/-- The outcome of a history of versions, newest first, below the operands that
    have been collected; `rest` is the outcome of what lies below the history. -/
def resolve (op : Option (MergeOperator K)) (k : K) (rest : List Bytes → Except Status Bytes) :
    List (ValueType × Bytes) → List Bytes → Except Status Bytes
  | [], operands => rest operands
  | (.value, v) :: _, operands =>
    if operands = [] then .ok v else mergeResult op k (some v) operands
  | (.merge, v) :: older, operands =>
    if wantsMerge op (operands ++ [v]) then mergeResult op k none (operands ++ [v])
    else resolve op k rest older (operands ++ [v])
  | (.blobIndex, _) :: _, _ => .error .notSupported
  | (.deletion, _) :: _, operands | (.singleDeletion, _) :: _, operands
  | (.rangeDeletion, _) :: _, operands =>
    if operands = [] then .error .notFound else mergeResult op k none operands

/-- The context of a read that has only met operands. -/
def openContext (operands : List Bytes) : GetContext :=
  { state := if operands = [] then .notFound else .merge, operands := operands, covering := 0 }

def entryOp (e : InternalKey K × Bytes) : ValueType × Bytes := (e.1.type, e.2)

section Resolve

variable (op : Option (MergeOperator K)) (k : K)

omit [LinearOrder K] in
theorem settled_finish (base : Option Bytes) (ctx : GetContext) :
    (ctx.finish op k base).settled = some (mergeResult op k base ctx.operands) := by
  rw [GetContext.finish, mergeResult]
  cases timedFullMerge op k base ctx.operands with
  | ok v => rfl
  | error s => rfl

/-- **ONE VERSION** settles the read with the outcome of every history that starts
    with it, or adds an operand. -/
theorem saveValue_open (operands : List Bytes) (e : InternalKey K × Bytes)
    (hkey : e.1.userKey = k) :
    (∃ ctx r, saveValue op k (openContext operands) e = (ctx, false) ∧ ctx.settled = some r ∧
      ∀ rest older, resolve op k rest (entryOp e :: older) operands = r) ∨
    (∃ operands', saveValue op k (openContext operands) e = (openContext operands', true) ∧
      ∀ rest older, resolve op k rest (entryOp e :: older) operands
        = resolve op k rest older operands') := by
  have hcov : coveredType (openContext operands).covering e.1 = e.1.type := by
    rw [coveredType, if_neg]
    rintro ⟨-, h⟩
    exact absurd h (Nat.not_lt_zero _)
  -- a base below no operand is the outcome, below operands it is merged
  have hbase : ∀ (base : Option Bytes) (plain : GetContext) (out : Except Status Bytes),
      plain.settled = some out →
      (match (openContext operands).state with
        | .notFound => plain
        | .merge => (openContext operands).finish op k base
        | _ => openContext operands).settled
      = some (if operands = [] then out else mergeResult op k base operands) := by
    intro base plain out hplain
    by_cases hops : operands = []
    · simp only [openContext, if_pos hops]
      exact hplain
    · simp only [openContext, if_neg hops]
      exact settled_finish op k base _
  obtain ⟨⟨u, q, type⟩, v⟩ := e
  simp only at hkey hcov
  rw [saveValue, if_pos hkey, hcov]
  cases type with
  | value => exact .inl ⟨_, _, rfl, hbase (some v) _ _ rfl, fun _ _ => rfl⟩
  | deletion => exact .inl ⟨_, _, rfl, hbase none _ _ rfl, fun _ _ => rfl⟩
  | singleDeletion => exact .inl ⟨_, _, rfl, hbase none _ _ rfl, fun _ _ => rfl⟩
  | rangeDeletion => exact .inl ⟨_, _, rfl, hbase none _ _ rfl, fun _ _ => rfl⟩
  | blobIndex => exact .inl ⟨_, _, rfl, rfl, fun _ _ => rfl⟩
  | merge =>
  have hopen : ({ openContext operands with state := .merge, operands := operands ++ [v] } :
      GetContext) = openContext (operands ++ [v]) := by
    simp [openContext]
  show (∃ ctx r, (if wantsMerge op (operands ++ [v]) = true then _ else _) = _ ∧ _) ∨
    ∃ operands', (if wantsMerge op (operands ++ [v]) = true then _ else _) = _ ∧ _
  split_ifs with hwants
  · refine .inl ⟨_, _, rfl, settled_finish op k none _, ?_⟩
    intro rest older
    rw [entryOp, resolve, if_pos hwants]
    rfl
  · refine .inr ⟨operands ++ [v], congrArg (·, true) hopen, ?_⟩
    intro rest older
    rw [entryOp, resolve, if_neg hwants]

/-- The versions of one table do so together. -/
theorem saveEntries_open (es : List (InternalKey K × Bytes)) (operands : List Bytes)
    (hkeys : ∀ e ∈ es, e.1.userKey = k) :
    (∃ ctx r, saveEntries op k (openContext operands) es = ctx ∧ ctx.settled = some r ∧
      ∀ rest older, resolve op k rest (es.map entryOp ++ older) operands = r) ∨
    (∃ operands', saveEntries op k (openContext operands) es = openContext operands' ∧
      ∀ rest older, resolve op k rest (es.map entryOp ++ older) operands
        = resolve op k rest older operands') := by
  induction es generalizing operands with
  | nil =>
    exact .inr ⟨operands, rfl, fun _ _ => rfl⟩
  | cons e es ih =>
  have hes : ∀ e' ∈ es, e'.1.userKey = k := fun e' h => hkeys e' (.tail e h)
  rcases saveValue_open op k operands e (hkeys e (.head _)) with
    ⟨ctx, r, hsave, hset, hres⟩ | ⟨operands', hsave, hres⟩
  · refine .inl ⟨ctx, r, ?_, hset, fun rest older => hres rest _⟩
    rw [saveEntries, hsave]
  · rw [saveEntries, hsave]
    rcases ih operands' hes with ⟨ctx, r, hloop, hset, hres'⟩ | ⟨operands'', hloop, hres'⟩
    · exact .inl ⟨ctx, r, hloop, hset, fun rest older => (hres rest _).trans (hres' rest older)⟩
    · exact .inr ⟨operands'', hloop, fun rest older => (hres rest _).trans (hres' rest older)⟩

end Resolve

/-- A readable table in key order without range tombstones. -/
structure PlainTable (t : SortedTable K) : Prop where
  status : t.status = .ok
  tombstones : t.tombstones = []
  sorted : t.entries.Pairwise (fun a b => a.1.rank < b.1.rank)

/-- The visible history of a key in tables, newest first. -/
def history (lkey : LookupKey K) (ts : List (SortedTable K)) : List (ValueType × Bytes) :=
  ts.flatMap fun t => (visible lkey t.entries).map entryOp

section

variable (op : Option (MergeOperator K)) (opts : ReadOptions) (lkey : LookupKey K)

/-- **READS ARE HISTORIES**: over plain tables the loop gives the outcome of their
    visible history on top of the outcome of the remaining files. -/
theorem versionLoop_eq_resolve (files : List (SortedTable K)) (ts : List (SortedTable K))
    (operands : List Bytes) (hts : ∀ t ∈ ts, PlainTable t) :
    versionLoop op opts lkey (ts ++ files) (openContext operands) = resolve op lkey.userKey
      (fun ops => versionLoop op opts lkey files (openContext ops)) (history lkey ts) operands := by
  induction ts generalizing operands with
  | nil => rfl
  | cons t ts ih =>
  obtain ⟨hstatus, htomb, hsorted⟩ := hts t (.head _)
  have hts' : ∀ t' ∈ ts, PlainTable t' := fun t' h => hts t' (.tail t h)
  have hget : tableGet op opts lkey t (openContext operands)
      = .ok (saveEntries op lkey.userKey (openContext operands) (visible lkey t.entries)) := by
    rw [tableGet, if_neg (not_not.mpr hstatus), htomb, ← saveEntries_seek op lkey _ _ hsorted]
    cases opts.ignoreRangeDeletions <;> rfl
  have hcov : ¬ (openContext operands).covering > 0 := Nat.not_lt_zero _
  have hkeys : ∀ e ∈ visible lkey t.entries, e.1.userKey = lkey.userKey :=
    fun e he => (of_decide_eq_true (mem_filter.mp he).2).1
  rw [cons_append, versionLoop, if_neg hcov, hget, history, flatMap_cons]
  rcases saveEntries_open op lkey.userKey (visible lkey t.entries) operands hkeys with
    ⟨ctx, r, hloop, hset, hres⟩ | ⟨operands', hloop, hres⟩
  · simp only [hloop, hset]
    exact (hres _ _).symm
  · have hopen : (openContext operands').settled = none := by
      by_cases h : operands' = [] <;> simp [openContext, GetContext.settled, h]
    simp only [hloop, hopen]
    rw [hres]
    exact ih operands' hts'

/-- Below a covering tombstone no file is read. -/
theorem versionLoop_of_covered {ctx : GetContext} (h : 0 < ctx.covering) :
    ∀ ts, versionLoop op opts lkey ts ctx = ctx.atBottom op lkey.userKey
  | [] => rfl
  | t :: ts => by rw [versionLoop, if_pos h]

end

end TableGet
