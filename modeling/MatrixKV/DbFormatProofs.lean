import Mathlib

/-! # Keys and file metadata — the vocabulary of db/dbformat.h

    User keys are an arbitrary linear order `K`, the column family's user
    comparator.  An internal key is a user key with a sequence number and a
    value type; the two are packed into one number, and internal keys are
    ordered by user key first and then by *descending* packed number, so that
    of one user key the newest version comes first.

    * `icmp` is `InternalKeyComparator::Compare`, branch by branch; `rank` is
      the linear order it computes (`icmp_lt_iff`, `icmp_ge_iff`).
    * `sstableKeyCompare` is the coarser comparison of file bounds from
      db/compaction.cc: user keys only, except that the range-tombstone
      sentinel of a bound sorts before the key itself. -/

namespace DbFormat

variable {K : Type} [LinearOrder K]

/-- The value types a record of an NVM table or of a level file can carry. -/
inductive ValueType
  | deletion
  | value
  | merge
  | singleDeletion
  | rangeDeletion
  | blobIndex
  deriving DecidableEq, Repr

/-- The status codes the modelled functions return. -/
inductive Status
  | ok
  | notFound
  | corruption
  | invalidArgument
  | ioError
  | notSupported
  | mergeInProgress
  deriving DecidableEq, Repr

/-- `CompactionStyle` of a column family. -/
inductive CompactionStyle
  | level
  | universal
  | fifo
  | none
  deriving DecidableEq, Repr

/-- The code stored in the low byte of the packed number. -/
def ValueType.code : ValueType → Nat
  | deletion => 0x0
  | value => 0x1
  | merge => 0x2
  | singleDeletion => 0x7
  | rangeDeletion => 0xF
  | blobIndex => 0x11

/-- `kMaxSequenceNumber`: 56 bits, the low byte is left for the type. -/
def maxSequenceNumber : Nat := 2 ^ 56 - 1

/-- `kValueTypeForSeek`, the largest type code. -/
def valueTypeForSeek : ValueType := .blobIndex

/-- `PackSequenceAndType`: `(seq << 8) | t`. -/
def packSequenceAndType (seq : Nat) (t : ValueType) : Nat := seq * 256 + t.code

structure InternalKey (K : Type) where
  userKey : K
  sequence : Nat
  type : ValueType
  deriving DecidableEq, Repr

def InternalKey.packed (k : InternalKey K) : Nat :=
  packSequenceAndType k.sequence k.type

/-- `LookupKey`: the user key and the sequence number a read may see. -/
structure LookupKey (K : Type) where
  userKey : K
  sequence : Nat
  deriving DecidableEq, Repr

/-- `LookupKey::internal_key`: it stands before every version the read may see. -/
def LookupKey.internalKey (k : LookupKey K) : InternalKey K :=
  ⟨k.userKey, k.sequence, valueTypeForSeek⟩

/-- `InternalKeyComparator::Compare`: user key ascending, packed number
    descending. -/
def icmp (a b : InternalKey K) : Ordering :=
  match cmp a.userKey b.userKey with
  | .eq =>
    if a.packed > b.packed then .lt
    else if a.packed < b.packed then .gt
    else .eq
  | r => r

/-- The linear order behind `icmp`. -/
def InternalKey.rank (k : InternalKey K) : K ×ₗ Natᵒᵈ :=
  toLex (k.userKey, OrderDual.toDual k.packed)

/-- `kRangeTombstoneSentinel`. -/
def rangeTombstoneSentinel : Nat := packSequenceAndType maxSequenceNumber .rangeDeletion

/-- `sstableKeyCompare`: file bounds compare by user key, and a bound that is a
    range-tombstone sentinel lies just before its user key. -/
def sstableKeyCompare (a b : InternalKey K) : Ordering :=
  match cmp a.userKey b.userKey with
  | .eq =>
    if a.packed = rangeTombstoneSentinel then
      if b.packed ≠ rangeTombstoneSentinel then .lt else .eq
    else if b.packed = rangeTombstoneSentinel then .gt
    else .eq
  | r => r

/-- The fields of `FileMetaData` that the NVM level-0 code reads or writes. -/
structure FileMetaData (K : Type) where
  number : Nat
  fileSize : Nat
  smallest : InternalKey K
  largest : InternalKey K
  smallestSeqno : Nat
  largestSeqno : Nat
  isNvmLevel0 : Bool := false
  firstKeyIndex : Nat := 0
  nvmSstableIndex : Nat := 0
  keysNum : Nat := 0
  keyPointFilenum : Nat := 0
  rawFileSize : Nat := 0
  nvmMetaSize : Nat := 0
  deriving DecidableEq, Repr

/-- Literals of one-byte keys need it. -/
instance neZero_byte : NeZero 256 := ⟨by decide⟩

/-! ## The packed number -/

theorem code_lt (t : ValueType) : t.code < 256 := by
  cases t <;> decide

theorem code_le_seek (t : ValueType) : t.code ≤ valueTypeForSeek.code := by
  cases t <;> decide

theorem code_injective : Function.Injective ValueType.code := by
  intro a b h
  cases a <;> cases b <;> first | rfl | exact absurd h (by decide)

/-- The packed number determines the sequence number and the type. -/
theorem packed_inj {s s' : Nat} {t t' : ValueType}
    (h : packSequenceAndType s t = packSequenceAndType s' t') : s = s' ∧ t = t' := by
  have ht := code_lt t
  have ht' := code_lt t'
  simp only [packSequenceAndType] at h
  have hs : s = s' := by omega
  exact ⟨hs, code_injective (by omega)⟩

variable {a b : InternalKey K}

omit [LinearOrder K] in
/-- A larger sequence number gives a larger packed number, whatever the types. -/
theorem packed_lt_of_sequence_lt (h : a.sequence < b.sequence) : a.packed < b.packed := by
  have ha := code_lt a.type
  simp only [InternalKey.packed, packSequenceAndType]
  omega

/-! ## The internal key order -/

theorem rank_lt_iff (a b : InternalKey K) :
    a.rank < b.rank ↔ a.userKey < b.userKey ∨ a.userKey = b.userKey ∧ b.packed < a.packed := by
  simp only [InternalKey.rank, Prod.Lex.toLex_lt_toLex, OrderDual.toDual_lt_toDual]

theorem rank_le_iff (a b : InternalKey K) :
    a.rank ≤ b.rank ↔ a.userKey < b.userKey ∨ a.userKey = b.userKey ∧ b.packed ≤ a.packed := by
  simp only [InternalKey.rank, Prod.Lex.toLex_le_toLex, OrderDual.toDual_le_toDual]

/-- Internal order refines user order. -/
theorem userKey_le_of_rank_le (h : a.rank ≤ b.rank) : a.userKey ≤ b.userKey := by
  rcases (rank_le_iff a b).mp h with h | h
  · exact h.le
  · exact h.1.le

theorem rank_lt_of_userKey_lt (h : a.userKey < b.userKey) :
    a.rank < b.rank := (rank_lt_iff a b).mpr (.inl h)

theorem rank_injective : Function.Injective (InternalKey.rank (K := K)) := by
  intro a b h
  have hle := (rank_le_iff a b).mp h.le
  have hge := (rank_le_iff b a).mp h.symm.le
  have hu : a.userKey = b.userKey :=
    le_antisymm (userKey_le_of_rank_le h.le) (userKey_le_of_rank_le h.symm.le)
  have hp : a.packed = b.packed := by
    rcases hle with hle | hle
    · exact absurd hu (ne_of_lt hle)
    rcases hge with hge | hge
    · exact absurd hu.symm (ne_of_lt hge)
    · exact le_antisymm hge.2 hle.2
  obtain ⟨hs, ht⟩ := packed_inj hp
  cases a
  cases b
  simp_all

/-- A lookup key stands at or before exactly the versions it may see. -/
theorem internalKey_rank_le_iff (lkey : LookupKey K) (a : InternalKey K) :
    lkey.internalKey.rank ≤ a.rank ↔
      lkey.userKey < a.userKey ∨ lkey.userKey = a.userKey ∧ a.sequence ≤ lkey.sequence := by
  have hcode := code_le_seek a.type
  have hlt := code_lt valueTypeForSeek
  rw [rank_le_iff]
  simp only [LookupKey.internalKey, InternalKey.packed, packSequenceAndType]
  refine or_congr Iff.rfl (and_congr_right fun _ => ?_)
  omega

/-- The comparator decides the order `rank`. -/
theorem icmp_lt_iff (a b : InternalKey K) : icmp a b = .lt ↔ a.rank < b.rank := by
  rw [rank_lt_iff]
  rcases lt_trichotomy a.userKey b.userKey with h | h | h
  · simp [icmp, h.cmp_eq_lt, h]
  · simp only [icmp, h, lt_irrefl, true_and, false_or]
    by_cases h1 : b.packed < a.packed
    · simp [h1]
    · by_cases h2 : a.packed < b.packed <;> simp [h1, h2]
  · simp [icmp, h.cmp_eq_gt, ne_of_gt h, not_lt_of_gt h]

/-- `Compare(a, b) >= 0`, the test of the cross-row pointers. -/
theorem icmp_ge_iff (a b : InternalKey K) : icmp a b ≠ .lt ↔ b.rank ≤ a.rank := by
  rw [Ne, icmp_lt_iff, not_lt]

/-- Tables list their keys in internal order. -/
def SortedKeys (keys : List (InternalKey K)) : Prop :=
  keys.Pairwise (fun a b => a.rank < b.rank)

instance (keys : List (InternalKey K)) : Decidable (SortedKeys keys) :=
  inferInstanceAs (Decidable (List.Pairwise _ _))

/-! ## File bounds -/

theorem sstableKeyCompare_le_userKey (h : sstableKeyCompare a b ≠ .gt) : a.userKey ≤ b.userKey := by
  by_contra hlt
  exact h (by simp [sstableKeyCompare, (not_le.mp hlt).cmp_eq_gt])

end DbFormat
