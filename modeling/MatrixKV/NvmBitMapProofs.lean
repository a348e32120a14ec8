import MatrixKV.EventRunProofs

/-! # The bit array of the slots — utilities/nvm_mod/bitmap.cc

    Eight bits to a byte, the bit of `x` at position `x & 7` of byte `x >> 3`.
    `set` is an or, `clr` an exclusive or.

    * `bit` is the bit the array holds for an index; `get_eq`, `bit_set` and
      `bit_clr` say what the operations do to it.
    * `Represents` relates the array to the list of its first bits; the bits
      behind them, up to the end of the last byte, are clear.
    * `agrees_iff_never_faulty` — in which runs the array is the set of its indices. -/

namespace NvmBitMap

open List EventRun

/-- The array; `gsize` is its number of bytes. -/
structure BitMap where
  bytes : List (BitVec 8)

/-- `gsize`, the number of bytes. -/
def BitMap.gsize (b : BitMap) : Nat := b.bytes.length

/-- The constructor: `n` bits, all clear. -/
def BitMap.new (n : Nat) : BitMap := ⟨List.replicate ((n >>> 3) + 1) 0⟩

/-- The byte an access touches.  The bound check of the source lets `cur = gsize`
    through; `cur_lt_gsize` rules it out for the indices in use. -/
def BitMap.byte (b : BitMap) (cur : Nat) : BitVec 8 := (b.bytes[cur]?).getD 0

/-- `get`: -1 from the second byte behind the array on, else the bit. -/
def BitMap.get (b : BitMap) (x : Nat) : Int :=
  let cur := x >>> 3
  let remainder := x &&& 7
  if cur > b.gsize then -1 else ((b.byte cur >>> remainder) &&& 1#8).toNat

/-- `set`: with `|`, so setting twice is setting once. -/
def BitMap.set (b : BitMap) (x : Nat) : BitMap :=
  let cur := x >>> 3
  let remainder := x &&& 7
  if cur > b.gsize then b else ⟨b.bytes.set cur (b.byte cur ||| (1#8 <<< remainder))⟩

/-- `clr`: with `^`, so it sets a bit that was clear. -/
def BitMap.clr (b : BitMap) (x : Nat) : BitMap :=
  let cur := x >>> 3
  let remainder := x &&& 7
  if cur > b.gsize then b else ⟨b.bytes.set cur (b.byte cur ^^^ (1#8 <<< remainder))⟩

/-! ## Single bits -/

/-- The bit of index `x`. -/
def BitMap.bit (b : BitMap) (x : Nat) : Bool := (b.byte (x >>> 3)).getLsbD (x &&& 7)

/-- The byte of an index, -/
theorem shiftRight_three (x : Nat) : x >>> 3 = x / 8 := Nat.shiftRight_eq_div_pow x 3

/-- and the bit in the byte. -/
theorem land_seven (x : Nat) : x &&& 7 = x % 8 := Nat.and_two_pow_sub_one_eq_mod x 3

variable {b : BitMap} {x : Nat}

/-- An index up to the constructor's `n` stays inside the array. -/
theorem cur_lt_gsize {n : Nat} (hsize : b.gsize = n / 8 + 1) (hx : x ≤ n) : x >>> 3 < b.gsize := by
  rw [shiftRight_three, hsize]
  omega

/-- Byte and bit determine the index. -/
theorem index_eq {y : Nat} (hcur : x >>> 3 = y >>> 3) (hrem : x &&& 7 = y &&& 7) : x = y := by
  rw [shiftRight_three, shiftRight_three] at hcur
  rw [land_seven, land_seven] at hrem
  omega

theorem getLsbD_one_shiftLeft {r i : Nat} (hr : r < 8) :
    (1#8 <<< r).getLsbD i = decide (i = r) := by
  rw [← BitVec.twoPow_eq, BitVec.getLsbD_twoPow, decide_eq_true hr, Bool.true_and]
  exact decide_eq_decide.mpr eq_comm

theorem and_one_toNat (v : BitVec 8) : (v &&& 1#8).toNat = (v.getLsbD 0).toNat := by
  rw [BitVec.and_one_eq_setWidth_ofBool_getLsbD, BitVec.toNat_setWidth, BitVec.toNat_ofBool]
  cases v.getLsbD 0 <;> rfl

/-- Where `get` does not refuse, it is the bit. -/
theorem get_eq (h : x >>> 3 ≤ b.gsize) : b.get x = ((b.bit x).toNat : Int) := by
  show (if x >>> 3 > b.gsize then (-1 : Int)
    else ((b.byte (x >>> 3) >>> (x &&& 7)) &&& 1#8).toNat) = _
  rw [if_neg (Nat.not_lt.mpr h), and_one_toNat, BitVec.getLsbD_ushiftRight, Nat.add_zero]
  rfl

theorem land_seven_lt (x : Nat) : x &&& 7 < 8 := by
  rw [land_seven]
  exact Nat.mod_lt x (by decide)

theorem land_seven_eq_iff {y : Nat} (hy : y >>> 3 = x >>> 3) : y &&& 7 = x &&& 7 ↔ y = x :=
  ⟨index_eq hy, fun heq => by rw [heq]⟩

/-- `set` and `clr` write one byte. -/
def BitMap.put (b : BitMap) (x : Nat) (v : BitVec 8) : BitMap :=
  if x >>> 3 > b.gsize then b else ⟨b.bytes.set (x >>> 3) v⟩

theorem set_eq_put : b.set x = b.put x (b.byte (x >>> 3) ||| (1#8 <<< (x &&& 7))) := rfl

theorem clr_eq_put : b.clr x = b.put x (b.byte (x >>> 3) ^^^ (1#8 <<< (x &&& 7))) := rfl

/-- Behind the last byte a write changes no bit of the map. -/
theorem put_of_le (h : b.gsize ≤ x >>> 3) (v : BitVec 8) : b.put x v = b := by
  rw [BitMap.put]
  split
  · rfl
  · rw [set_eq_of_length_le h]

theorem gsize_put (v : BitVec 8) : (b.put x v).gsize = b.gsize := by
  rw [BitMap.put]
  split
  · rfl
  · exact length_set ..

/-- Replacing the byte of `x` changes only bits of that byte. -/
theorem bit_put (h : x >>> 3 < b.gsize) (v : BitVec 8) (y : Nat) :
    (b.put x v).bit y = if y >>> 3 = x >>> 3 then v.getLsbD (y &&& 7) else b.bit y := by
  rw [BitMap.put, if_neg (Nat.not_lt.mpr h.le)]
  simp only [BitMap.bit, BitMap.byte, getElem?_set]
  split
  · rename_i hy
    rw [if_pos hy.symm, if_pos (show x >>> 3 < b.bytes.length from h)]
    rfl
  · rename_i hy
    rw [if_neg (Ne.symm hy)]

/-- What `set` does to each bit. -/
theorem bit_set (h : x >>> 3 < b.gsize) (y : Nat) :
    (b.set x).bit y = (decide (y = x) || b.bit y) := by
  rw [set_eq_put, bit_put h]
  by_cases hy : y >>> 3 = x >>> 3
  · rw [if_pos hy, BitVec.getLsbD_or, getLsbD_one_shiftLeft (land_seven_lt x), Bool.or_comm,
      decide_eq_decide.mpr (land_seven_eq_iff hy), BitMap.bit, hy]
  · rw [if_neg hy, decide_eq_false (fun heq => hy (by rw [heq])), Bool.false_or]

/-- What `clr` does to each bit: it flips the one named. -/
theorem bit_clr (h : x >>> 3 < b.gsize) (y : Nat) :
    (b.clr x).bit y = if y = x then !b.bit y else b.bit y := by
  rw [clr_eq_put, bit_put h]
  by_cases hy : y >>> 3 = x >>> 3
  · rw [if_pos hy, BitVec.getLsbD_xor, getLsbD_one_shiftLeft (land_seven_lt x),
      decide_eq_decide.mpr (land_seven_eq_iff hy), BitMap.bit, hy]
    split_ifs with heq
    · rw [decide_eq_true heq, Bool.xor_true]
    · rw [decide_eq_false heq, Bool.xor_false]
  · rw [if_neg hy, if_neg (fun heq => hy (by rw [heq]))]

@[simp] theorem gsize_set (b : BitMap) (x : Nat) : (b.set x).gsize = b.gsize := gsize_put ..

@[simp] theorem gsize_clr (b : BitMap) (x : Nat) : (b.clr x).gsize = b.gsize := gsize_put ..

/-! ## The list of bits -/

/-- The array is made for as many bits as the list has, holds them, and has no
    other bit set. -/
structure Represents (b : BitMap) (l : List Bool) : Prop where
  size : b.gsize = l.length / 8 + 1
  bits : ∀ i, b.bit i = (l[i]?).getD false

/-- The first `n` bits. -/
def BitMap.bits (b : BitMap) (n : Nat) : List Bool := (List.range n).map b.bit

/-- The list is determined by the array and its length. -/
theorem Represents.eq_bits {l : List Bool} (h : Represents b l) : l = b.bits l.length := by
  refine ext_getElem (by rw [BitMap.bits, length_map, length_range]) ?_
  intro i hi _
  have hbits := h.bits i
  rw [getElem?_eq_getElem hi] at hbits
  simp only [BitMap.bits, getElem_map, getElem_range]
  exact hbits.symm

/-- All bits of zero bytes are clear. -/
theorem bit_replicate (m x : Nat) : (⟨List.replicate m 0⟩ : BitMap).bit x = false := by
  have hbyte : (⟨List.replicate m 0⟩ : BitMap).byte (x >>> 3) = 0#8 := by
    simp only [BitMap.byte, getElem?_replicate]
    split <;> rfl
  rw [BitMap.bit, hbyte, BitVec.getLsbD_zero]

/-- A new map represents no set bit. -/
theorem represents_new (n : Nat) : Represents (BitMap.new n) (List.replicate n false) where
  size := by
    rw [length_replicate, ← shiftRight_three]
    exact length_replicate
  bits := by
    intro i
    rw [BitMap.new, bit_replicate, getElem?_replicate]
    split <;> rfl

section Represents

variable {b : BitMap} {l : List Bool} (h : Represents b l)
include h

theorem Represents.cur_lt {i : Nat} (hi : i < l.length) : i >>> 3 < b.gsize :=
  cur_lt_gsize h.size hi.le

/-- `get` reads the list. -/
theorem Represents.get {i : Nat} (hi : i < l.length) : b.get i = ((l[i]?).getD false).toNat := by
  rw [get_eq (h.cur_lt hi).le, h.bits]

/-- `set` writes the list. -/
theorem Represents.set {i : Nat} (hi : i < l.length) : Represents (b.set i) (l.set i true) where
  size := by rw [gsize_set, h.size, length_set]
  bits := by
    intro j
    rw [bit_set (h.cur_lt hi), h.bits, getElem?_set]
    by_cases hj : i = j
    · rw [if_pos hj, if_pos hi, decide_eq_true hj.symm]
      rfl
    · rw [if_neg hj, decide_eq_false (Ne.symm hj), Bool.false_or]

/-- `clr` flips an element of the list. -/
theorem Represents.clr {i : Nat} (hi : i < l.length) : Represents (b.clr i) (l.modify i (! ·)) where
  size := by rw [gsize_clr, h.size, length_modify]
  bits := by
    intro j
    rw [bit_clr (h.cur_lt hi), h.bits, getElem?_modify]
    by_cases hj : j = i
    · subst hj
      rw [if_pos rfl, getElem?_eq_getElem hi]
      simp
    · simp only [if_neg hj, if_neg (Ne.symm hj)]
      simp

end Represents

/-! ## The set of indices

    `set`, `clr` and `reset` beside the set they stand for.  The bound check refuses
    `cur > gsize` only, so byte `gsize` is read and written, and `clr` of an index
    that is not in the set puts it in. -/

/-- What `set` and `clr` return. -/
def BitMap.status (b : BitMap) (x : Nat) : Int := if x >>> 3 > b.gsize then 0 else 1

def BitMap.reset (b : BitMap) : BitMap := ⟨List.replicate b.gsize 0⟩

/-- The calls of the class. -/
inductive Op
  | get (x : Nat)
  | set (x : Nat)
  | clr (x : Nat)
  | reset
  deriving DecidableEq, Repr

/-- The array, the indices set since the last `reset` and not cleared since, and
    whether every access behind the array was refused so far. -/
structure Run where
  map : BitMap
  members : Finset Nat := ∅
  guarded : Bool := true

/-- The access reports a failure and leaves the array alone. -/
def BitMap.refuses (b : BitMap) : Op → Bool
  | .get x => b.get x == -1
  | .set x => b.status x == 0 && (b.set x).bytes == b.bytes
  | .clr x => b.status x == 0 && (b.clr x).bytes == b.bytes
  | .reset => false

/-- The byte an operation asks for. -/
def Op.cur : Op → Nat
  | .get x | .set x | .clr x => x >>> 3
  | .reset => 0

/-- One call, on the map, on the set it is meant to be and on the guard. -/
def step (s : Run) (op : Op) : Run :=
  let guarded := s.guarded && (op.cur < s.map.gsize || s.map.refuses op)
  match op with
  | .get _ => { s with guarded }
  | .set x => { map := s.map.set x, members := insert x s.members, guarded }
  | .clr x => { map := s.map.clr x, members := s.members.erase x, guarded }
  | .reset => { map := s.map.reset, members := ∅, guarded }

def Run.start (n : Nat) : Run := { map := BitMap.new n }

/-- The array is the set of its indices, and nothing behind it was let through. -/
structure Agrees (n : Nat) (s : Run) : Prop where
  get : ∀ x ≤ n, s.map.get x = 1 ↔ x ∈ s.members
  guarded : s.guarded = true

/-- An access of byte `gsize`, or a `clr` of an index that is not in the set. -/
def Faulty (n : Nat) (s : Run) (op : Op) : Prop :=
  op.cur = s.map.gsize ∨ ∃ x ≤ n, op = .clr x ∧ x ∉ s.members

/-- The bits are the members, and no call has gone to the byte behind the last. -/
structure Inv (n : Nat) (s : Run) : Prop where
  size : s.map.gsize = n / 8 + 1
  bits : ∀ x ≤ n, s.map.bit x = true ↔ x ∈ s.members
  guarded : s.guarded = true

section Step

variable {n : Nat} {s : Run} {op : Op}

/-- The answer 1 is a set bit. -/
theorem get_eq_one (h : x >>> 3 ≤ b.gsize) : b.get x = 1 ↔ b.bit x = true := by
  rw [get_eq h]
  cases b.bit x <;> decide

/-- A write is refused exactly behind the byte after the last. -/
theorem put_refused_iff (v : BitVec 8) :
    (b.status x == 0 && (b.put x v).bytes == b.bytes) = true ↔ b.gsize < x >>> 3 := by
  rw [Bool.and_eq_true, beq_iff_eq, beq_iff_eq, BitMap.status]
  exact ⟨fun h => by_contra fun hle => by simp [hle] at h,
    fun h => ⟨if_pos h, congrArg _ (put_of_le h.le v)⟩⟩

/-- Beyond byte `gsize` every access is refused; byte `gsize` itself is let through. -/
theorem refuses_iff : b.refuses op = true ↔ b.gsize < op.cur := by
  cases op with
  | get x =>
    by_cases h : b.gsize < x >>> 3
    · exact iff_of_true (beq_iff_eq.mpr (if_pos h)) h
    · refine iff_of_false ?_ h
      rw [BitMap.refuses, get_eq (Nat.not_lt.mp h)]
      cases b.bit x <;> decide
  | set x => exact put_refused_iff _
  | clr x => exact put_refused_iff _
  | reset => exact iff_of_false nofun (Nat.not_lt_zero _)

/-- A run stays guarded until a call goes to the byte behind the last. -/
theorem guarded_step :
    (step s op).guarded = true ↔ s.guarded = true ∧ op.cur ≠ s.map.gsize := by
  have hstep : (step s op).guarded = (s.guarded && (op.cur < s.map.gsize || s.map.refuses op)) := by
    cases op <;> rfl
  rw [hstep, Bool.and_eq_true, Bool.or_eq_true, decide_eq_true_iff, refuses_iff, lt_or_lt_iff_ne]

theorem gsize_step : (step s op).map.gsize = s.map.gsize := by
  cases op with
  | get x => rfl
  | set x => exact gsize_set ..
  | clr x => exact gsize_clr ..
  | reset => exact length_replicate

theorem inv_start (n : Nat) : Inv n (Run.start n) where
  size := by
    rw [← shiftRight_three]
    exact length_replicate
  bits x _ := iff_of_false (ne_true_of_eq_false (bit_replicate _ x)) (Finset.notMem_empty x)
  guarded := rfl

variable (h : Inv n s)
include h

theorem Inv.cur_lt (hx : x ≤ n) : x >>> 3 < s.map.gsize := cur_lt_gsize h.size hx

/-- The invariant is more than the agreement. -/
theorem Inv.agrees : Agrees n s where
  get x hx := (get_eq_one (h.cur_lt hx).le).trans (h.bits x hx)
  guarded := h.guarded

/-- Every call that is not faulty keeps it. -/
theorem Inv.step (hgood : ¬ Faulty n s op) : Inv n (step s op) where
  size := gsize_step.trans h.size
  guarded := guarded_step.mpr ⟨h.guarded, fun hcur => hgood (.inl hcur)⟩
  bits := by
    intro y hy
    -- an index outside the array is none of the first `n`
    have hne : ∀ {x}, s.map.gsize ≤ x >>> 3 → y ≠ x :=
      fun hx heq => Nat.not_le_of_lt (h.cur_lt hy) (heq ▸ hx)
    cases op with
    | get x => exact h.bits y hy
    | set x =>
      refine Iff.trans ?_ Finset.mem_insert.symm
      rcases Nat.lt_or_ge (x >>> 3) s.map.gsize with hx | hx
      · exact (Bool.eq_iff_iff.mp (bit_set hx y)).trans (by simp [h.bits y hy])
      · exact (congrArg (·.bit y = true) (put_of_le hx _)).to_iff.trans
          ((h.bits y hy).trans (or_iff_right (hne hx)).symm)
    | clr x =>
      refine Iff.trans ?_ Finset.mem_erase.symm
      rcases Nat.lt_or_ge (x >>> 3) s.map.gsize with hx | hx
      · refine (Bool.eq_iff_iff.mp (bit_clr hx y)).trans ?_
        by_cases heq : y = x
        · subst heq
          have hmem : y ∈ s.members := not_not.mp fun hne => hgood (.inr ⟨y, hy, rfl, hne⟩)
          simp [(h.bits y hy).mpr hmem]
        · simp [heq, h.bits y hy]
      · exact (congrArg (·.bit y = true) (put_of_le hx _)).to_iff.trans
          ((h.bits y hy).trans (and_iff_right (hne hx)).symm)
    | reset => exact iff_of_false (ne_true_of_eq_false (bit_replicate _ y)) (Finset.notMem_empty y)

/-- After a faulty access the two differ, or something was let through. -/
theorem Inv.not_agrees (hbad : Faulty n s op) : ¬ Agrees n (NvmBitMap.step s op) := by
  rintro ⟨hget, hguarded⟩
  rcases hbad with hcur | ⟨x, hx, rfl, hmem⟩
  · exact (guarded_step.mp hguarded).2 hcur
  have hcur : x >>> 3 ≤ (s.map.clr x).gsize := by
    rw [gsize_clr]
    exact (h.cur_lt hx).le
  have hclear : s.map.bit x = false := Bool.eq_false_iff.mpr (mt (h.bits x hx).mp hmem)
  have hset : (s.map.clr x).bit x = true := by
    rw [bit_clr (h.cur_lt hx), if_pos rfl, hclear]
    rfl
  exact Finset.notMem_erase x s.members ((hget x hx).mp ((get_eq_one hcur).mpr hset))

end Step

/-- **THE ARRAY IS A SET**: on every run the first `n` indices read as the set does and
    every access behind the array is refused, exactly if no step is faulty. -/
theorem agrees_iff_never_faulty (n : Nat) (ops : List Op) :
    Always step (Agrees n) (Run.start n) ops ↔ Never step (Faulty n) (Run.start n) ops :=
  always_iff_never (fun _ h => h.agrees) (fun _ _ h => h.step) (fun _ _ h => h.not_agrees) ops
    (Run.start n) (inv_start n)

/-- Clearing an index that was never set puts it in; byte `gsize` is read. -/
theorem clr_sets_absent_index :
    ((BitMap.new 0).clr 0).get 0 = 1 ∧ 8 >>> 3 = (BitMap.new 0).gsize ∧
      (BitMap.new 0).get 8 ≠ -1 ∧ (BitMap.new 0).status 8 = 1 := by
  decide

end NvmBitMap
