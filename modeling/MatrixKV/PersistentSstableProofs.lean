import MatrixKV.FixedCodingProofs

/-! # The NVM slots — utilities/nvm_mod/persistent_sstable.h and bitmap.cc

    The persistent memory is cut into equal slots, one table each, and a bitmap
    says which slots are in use.  A slot is found by a scan from the front;
    giving it back flips its bit.

    * `allocSstable_spec` — allocation takes the first free slot, marks it and
      touches nothing else; it fails exactly when every slot is in use.
    * `slot_disjoint` — the byte ranges of different slots do not meet. -/

namespace PersistentSstable

open FixedCoding

/-- The pool.  `num_` is the length of the bitmap. -/
structure Pool where
  raw : Memory
  bitmap : List Bool
  eachSize : Nat
  useNum : Nat

def Pool.num (p : Pool) : Nat := p.bitmap.length

/-- `GetIndexPtr`: the address of a slot. -/
def Pool.getIndexPtr (p : Pool) (index : Nat) : Nat := index * p.eachSize

/-- `AllocSstable`: the first slot whose bit is 0, with its bit set. -/
def Pool.allocSstable (p : Pool) : Option Nat × Pool :=
  match p.bitmap.findIdx? (fun b => b = false) with
  | none => (none, p)
  | some index =>
    (some index,
      { p with bitmap := p.bitmap.set index true, useNum := (p.useNum + 1) % 2 ^ 64 })

/-- `DeleteSstable`: `clr` flips the bit. -/
def Pool.deleteSstable (p : Pool) (index : Nat) : Pool :=
  { p with
    bitmap := p.bitmap.modify index (! ·)
    useNum := (p.useNum + (2 ^ 64 - 1)) % 2 ^ 64 }

/-- `RecoverAddSstable`: an index that is out of range or in use only prints an
    error. -/
def Pool.recoverAddSstable (p : Pool) (index : Nat) : Pool :=
  match p.bitmap[index]? with
  | none => p
  | some true => p
  | some false =>
    { p with bitmap := p.bitmap.set index true, useNum := (p.useNum + 1) % 2 ^ 64 }

/-- Copy bytes to the start of a slot. -/
def Pool.store (p : Pool) (index : Nat) (bs : List UInt8) : Pool :=
  { p with raw := writeBytes p.raw (p.getIndexPtr index) bs }

/-! ## Allocation -/

/-- Slot `index` is marked as used. -/
def Pool.Used (p : Pool) (index : Nat) : Prop := p.bitmap[index]? = some true

instance (p : Pool) (index : Nat) : Decidable (p.Used index) :=
  inferInstanceAs (Decidable (_ = _))

theorem not_used_of_free {p : Pool} {index : Nat} (h : p.bitmap[index]? = some false) :
    ¬ p.Used index := by
  rw [Pool.Used, h]
  exact nofun

/-- **ALLOCATION**: either every slot is in use and nothing happens, or the
    first free slot is marked and counted. -/
theorem allocSstable_spec (p : Pool) :
    (p.allocSstable = (none, p) ∧ ∀ i < p.num, p.Used i) ∨
    ∃ index, p.bitmap[index]? = some false ∧ (∀ i < index, p.Used i) ∧
      p.allocSstable = (some index,
        { p with bitmap := p.bitmap.set index true, useNum := (p.useNum + 1) % 2 ^ 64 }) := by
  rw [Pool.allocSstable]
  cases h : p.bitmap.findIdx? (fun b => b = false) with
  | none =>
    refine .inl ⟨rfl, ?_⟩
    intro i hi
    have hall := List.findIdx?_eq_none_iff.mp h p.bitmap[i] (List.getElem_mem hi)
    rw [Pool.Used, List.getElem?_eq_getElem hi]
    simpa using hall
  | some index =>
  obtain ⟨hlt, hbit, hbefore⟩ := List.findIdx?_eq_some_iff_getElem.mp h
  refine .inr ⟨index, ?_, ?_, rfl⟩
  · rw [List.getElem?_eq_getElem hlt]
    simpa using hbit
  · intro i hi
    have hi' := hbefore i hi
    rw [Pool.Used, List.getElem?_eq_getElem (by omega)]
    simpa using hi'

/-- Setting a bit marks that slot and no other. -/
theorem used_set_iff (p : Pool) {index : Nat} (h : p.bitmap[index]? = some false) (i n : Nat) :
    Pool.Used { p with bitmap := p.bitmap.set index true, useNum := n } i ↔
      i = index ∨ p.Used i := by
  have hlt := (List.getElem?_eq_some_iff.mp h).1
  simp only [Pool.Used, List.getElem?_set]
  by_cases hi : index = i
  · subst hi
    simp [hlt]
  · simp [hi, Ne.symm hi]

/-- Giving a used slot back clears its bit and no other. -/
theorem used_deleteSstable_iff (p : Pool) {index : Nat} (h : p.Used index) (i : Nat) :
    (p.deleteSstable index).Used i ↔ i ≠ index ∧ p.Used i := by
  simp only [Pool.Used, Pool.deleteSstable, List.getElem?_modify] at h ⊢
  by_cases hi : index = i
  · subst hi
    simp [h]
  · cases hb : p.bitmap[i]? <;> simp [hi, Ne.symm hi]

/-! ## Slots in memory -/

/-- Bytes of one slot lie outside every other slot. -/
theorem slot_disjoint (p : Pool) {i j pos len pos' len' : Nat} (hij : i ≠ j)
    (hpos : pos + len ≤ p.eachSize) (hpos' : pos' + len' ≤ p.eachSize) :
    p.getIndexPtr i + pos + len ≤ p.getIndexPtr j + pos' ∨
    p.getIndexPtr j + pos' + len' ≤ p.getIndexPtr i + pos := by
  simp only [Pool.getIndexPtr]
  rcases Nat.lt_or_gt_of_ne hij with h | h
  · left
    have hmul : i * p.eachSize + p.eachSize ≤ j * p.eachSize := by
      have := Nat.mul_le_mul_right p.eachSize (Nat.succ_le_of_lt h)
      rwa [Nat.succ_mul] at this
    omega
  · right
    have hmul : j * p.eachSize + p.eachSize ≤ i * p.eachSize := by
      have := Nat.mul_le_mul_right p.eachSize (Nat.succ_le_of_lt h)
      rwa [Nat.succ_mul] at this
    omega

/-- A store into one slot leaves the bytes of the others. -/
theorem readBytes_store_ne (p : Pool) {i j pos len : Nat} {bs : List UInt8} (hij : i ≠ j)
    (hbs : bs.length ≤ p.eachSize) (hlen : pos + len ≤ p.eachSize) :
    readBytes (p.store i bs).raw (p.getIndexPtr j + pos) len
      = readBytes p.raw (p.getIndexPtr j + pos) len := by
  have h := slot_disjoint p hij (show 0 + bs.length ≤ p.eachSize by omega) hlen
  refine readBytes_writeBytes_disjoint p.raw ?_
  omega

end PersistentSstable
