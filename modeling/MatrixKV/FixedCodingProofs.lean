import Mathlib

/-! # Fixed-width numbers and byte memory

    Numbers are stored least significant byte first in a fixed number of bytes,
    and records are byte strings placed in a memory, a function from addresses
    to bytes.

    * `decodeFixed_encodeFixed` — a number that fits comes back.
    * `readBytes_writeBytes` — what was written is read back, and
      `readBytes_writeBytes_disjoint` — a read elsewhere does not see it.
    * `readBytes_append` — a read is the concatenation of its parts, so a
      record can be decoded field by field. -/

namespace FixedCoding

open List

/-- A byte memory. -/
def Memory : Type := Nat → UInt8

/-! ## Numbers -/

/-- The `w` low bytes of `n`, least significant first. -/
def encodeFixed : Nat → Nat → List UInt8
  | 0, _ => []
  | w + 1, n => UInt8.ofNat (n % 256) :: encodeFixed w (n / 256)

def decodeFixed : List UInt8 → Nat
  | [] => 0
  | b :: bs => b.toNat + 256 * decodeFixed bs

@[simp] theorem length_encodeFixed (w n : Nat) : (encodeFixed w n).length = w := by
  induction w generalizing n with
  | zero => rfl
  | succ w ih => rw [encodeFixed, length_cons, ih]

/-- A number that fits into its bytes is decoded again. -/
theorem decodeFixed_encodeFixed {w : Nat} {n : Nat} (h : n < 256 ^ w) :
    decodeFixed (encodeFixed w n) = n := by
  induction w generalizing n with
  | zero =>
    rw [pow_zero] at h
    simp only [encodeFixed, decodeFixed]
    omega
  | succ w ih =>
  have hdiv : n / 256 < 256 ^ w := by
    rw [pow_succ] at h
    omega
  have hbyte : (UInt8.ofNat (n % 256)).toNat = n % 256 := by
    rw [UInt8.toNat_ofNat']
    omega
  rw [encodeFixed, decodeFixed, ih hdiv, hbyte]
  omega

/-! ## Memory -/

def readBytes (m : Memory) (pos len : Nat) : List UInt8 :=
  (List.range len).map (fun i => m (pos + i))

def writeBytes (m : Memory) (pos : Nat) (bs : List UInt8) : Memory :=
  fun a => if pos ≤ a then (bs[a - pos]?).getD (m a) else m a

@[simp] theorem length_readBytes (m : Memory) (pos len : Nat) :
    (readBytes m pos len).length = len := by
  simp [readBytes]

theorem readBytes_add (m : Memory) (pos k l : Nat) :
    readBytes m pos (k + l) = readBytes m pos k ++ readBytes m (pos + k) l := by
  simp only [readBytes, range_add, map_append, map_map, append_cancel_left_eq]
  refine map_congr_left ?_
  intro i _
  simp [Nat.add_assoc]

variable {pos : Nat}

/-- A read of two adjoining byte strings gives the strings themselves. -/
theorem readBytes_append {m : Memory} {bs cs : List UInt8}
    (h : readBytes m pos (bs ++ cs).length = bs ++ cs) :
    readBytes m pos bs.length = bs ∧ readBytes m (pos + bs.length) cs.length = cs := by
  rw [length_append, readBytes_add] at h
  exact append_inj h (by simp)

theorem readBytes_congr {m m' : Memory} {len : Nat} (h : ∀ a, pos ≤ a → a < pos + len →
    m a = m' a) :
    readBytes m pos len = readBytes m' pos len := by
  refine map_congr_left ?_
  intro i hi
  have := mem_range.mp hi
  exact h (pos + i) (by omega) (by omega)

/-- What was written is read back. -/
theorem readBytes_writeBytes (m : Memory) (pos : Nat) (bs : List UInt8) :
    readBytes (writeBytes m pos bs) pos bs.length = bs := by
  refine ext_getElem (by simp) ?_
  intro i h1 h2
  simp [readBytes, writeBytes, h2]

/-- Outside the written bytes nothing changes. -/
theorem writeBytes_of_outside {m : Memory} {a : Nat} {bs : List UInt8}
    (h : a < pos ∨ pos + bs.length ≤ a) : writeBytes m pos bs a = m a := by
  rw [writeBytes]
  split_ifs with hle
  · rw [getElem?_eq_none (by omega), Option.getD_none]
  · rfl

/-- A read that does not meet the written bytes does not see them. -/
theorem readBytes_writeBytes_disjoint (m : Memory) {pos' len : Nat} {bs : List UInt8}
    (h : pos' + len ≤ pos ∨ pos + bs.length ≤ pos') :
    readBytes (writeBytes m pos bs) pos' len = readBytes m pos' len := by
  refine readBytes_congr ?_
  intro a h1 h2
  exact writeBytes_of_outside (by omega)

end FixedCoding
