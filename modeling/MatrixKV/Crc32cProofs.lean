import Mathlib

/-! # The checksum of log records — util/crc32c.h

    `extend` continues a checksum byte by byte with the table of the reflected
    polynomial; the tables for several bytes at once and the processor's instruction
    compute the same.  Stored checksums are masked.

    * `unmask_mask` — masking loses nothing. -/

namespace Crc32c

/-- The reflected polynomial of CRC-32C. -/
def polynomial : UInt32 := 0x82f63b78

def bitStep (l : UInt32) : UInt32 :=
  if l &&& 1 = 1 then (l >>> 1) ^^^ polynomial else l >>> 1

/-- An entry of `table0_`. -/
def table0 (c : UInt32) : UInt32 :=
  bitStep (bitStep (bitStep (bitStep (bitStep (bitStep (bitStep (bitStep c)))))))

/-- `STEP1` of `ExtendImpl`. -/
def step1 (l : UInt32) (byte : UInt8) : UInt32 :=
  table0 ((l &&& 0xff) ^^^ byte.toUInt32) ^^^ (l >>> 8)

def extend (crc : UInt32) (data : List UInt8) : UInt32 :=
  data.foldl step1 (crc ^^^ 0xffffffff) ^^^ 0xffffffff

def value (data : List UInt8) : UInt32 := extend 0 data

def maskDelta : UInt32 := 0xa282ead8

/-- `Mask`: rotate right by 15 bits and add a constant. -/
def mask (crc : UInt32) : UInt32 := ((crc >>> 15) ||| (crc <<< 17)) + maskDelta

def unmask (maskedCrc : UInt32) : UInt32 :=
  let rot := maskedCrc - maskDelta
  (rot >>> 17) ||| (rot <<< 15)

/-- A checksum is continued. -/
theorem extend_append (crc : UInt32) (xs ys : List UInt8) :
    extend crc (xs ++ ys) = extend (extend crc xs) ys := by
  rw [extend, extend, extend, List.foldl_append, UInt32.xor_assoc, UInt32.xor_self, UInt32.xor_zero]

theorem value_append (xs ys : List UInt8) : value (xs ++ ys) = extend (value xs) ys :=
  extend_append 0 xs ys

/-- Rotating right by 15 and then by 17 bits is rotating once around. -/
theorem rotate_back (x : BitVec 32) :
    (x >>> 15 ||| x <<< 17) >>> 17 ||| (x >>> 15 ||| x <<< 17) <<< 15 = x := by
  refine BitVec.eq_of_getLsbD_eq ?_
  intro i hi
  simp only [BitVec.getLsbD_or, BitVec.getLsbD_ushiftRight, BitVec.getLsbD_shiftLeft]
  by_cases h : i < 15
  · -- the low bits come back from above
    have h17 : 17 + i < 32 := by omega
    have h32 : x.getLsbD (15 + (17 + i)) = false := BitVec.getLsbD_of_ge x _ (by omega)
    simp [h, h17, h32]
  have h15 : 15 + (i - 15) = i := by omega
  have h17 : i - 15 < 17 := by omega
  have h32 : x.getLsbD (15 + (17 + i)) = false := BitVec.getLsbD_of_ge x _ (by omega)
  have hout : ¬ 17 + i < 32 := by omega
  simp [h, hi, h15, h17, h32, hout]

theorem unmask_mask (crc : UInt32) : unmask (mask crc) = crc := by
  rw [unmask, mask, UInt32.add_sub_cancel]
  refine UInt32.toBitVec_inj.mp ?_
  exact rotate_back crc.toBitVec

end Crc32c
