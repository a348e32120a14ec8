import MatrixKV.ByteReaderProofs

/-! # Numbers in base 128

    A number is written in groups of seven bits, least significant first; every
    byte but the last has its high bit set.  The reader collects the groups into a
    word of `w` bits and gives up after a fixed number of bytes.

    * `reads_decode` — what was written is read back, if it fits into the word and
      into the bytes. -/

namespace Varint

open ByteReader

/-- The groups of `v`, at most `n + 1` of them. -/
def encode : Nat → Nat → List UInt8
  | 0, v => [UInt8.ofNat v]
  | n + 1, v =>
    if v < 128 then [UInt8.ofNat v]
    else UInt8.ofNat (v % 128 + 128) :: encode n (v / 128)

/-- Groups from bit `shift` on are added to `result`, `n` of them at most. -/
def decodeFrom (w : Nat) : Nat → Nat → Nat → Reader Unit Nat
  | 0, _, _ => Reader.fail ()
  | n + 1, shift, result => fun input =>
    match input with
    | [] => .error ()
    | b :: rest =>
      if 128 ≤ b.toNat then
        decodeFrom w n (shift + 7) (result ||| (b.toNat % 128) <<< shift % 2 ^ w) rest
      else .ok (result ||| b.toNat <<< shift % 2 ^ w, rest)

/-- A word of `w` bits from at most `n` bytes. -/
def decode (w n : Nat) : Reader Unit Nat := decodeFrom w n 0 0

/-- Bits above `shift` are added. -/
theorem or_shiftLeft {result shift : Nat} (g : Nat) (h : result < 2 ^ shift) :
    result ||| g <<< shift = result + g * 2 ^ shift := by
  rw [Nat.shiftLeft_eq, Nat.or_comm, Nat.mul_comm, ← Nat.two_pow_add_eq_or_of_lt h, Nat.add_comm]

theorem decodeFrom_encode (w : Nat) (rest : List UInt8) :
    ∀ (n shift result v : Nat), result < 2 ^ shift → v * 2 ^ shift < 2 ^ w → v < 128 ^ (n + 1) →
      decodeFrom w (n + 1) shift result (encode n v ++ rest)
        = .ok (result + v * 2 ^ shift, rest) := by
  have hlast : ∀ (n shift result v : Nat), result < 2 ^ shift → v * 2 ^ shift < 2 ^ w → v < 128 →
      decodeFrom w (n + 1) shift result (UInt8.ofNat v :: rest)
        = .ok (result + v * 2 ^ shift, rest) := by
    intro n shift result v hresult hfit hv
    have hbyte : (UInt8.ofNat v).toNat = v := by
      rw [UInt8.toNat_ofNat']
      omega
    have hmod : v <<< shift % 2 ^ w = v <<< shift := by
      rw [Nat.shiftLeft_eq]
      exact Nat.mod_eq_of_lt hfit
    simp only [decodeFrom]
    rw [hbyte, if_neg (by omega), hmod, or_shiftLeft v hresult]
  intro n
  induction n with
  | zero =>
    intro shift result v hresult hfit hv
    exact hlast 0 shift result v hresult hfit (by omega)
  | succ n ih =>
  intro shift result v hresult hfit hv
  rw [encode]
  split_ifs with hsmall
  · exact hlast (n + 1) shift result v hresult hfit hsmall
  have hbyte : (UInt8.ofNat (v % 128 + 128)).toNat = v % 128 + 128 := by
    rw [UInt8.toNat_ofNat']
    omega
  have hgroup : (v % 128 + 128) % 128 = v % 128 := by omega
  have hlow : v % 128 * 2 ^ shift ≤ v * 2 ^ shift :=
    Nat.mul_le_mul_right _ (Nat.mod_le v 128)
  have hmod : (v % 128) <<< shift % 2 ^ w = (v % 128) <<< shift := by
    rw [Nat.shiftLeft_eq]
    exact Nat.mod_eq_of_lt (hlow.trans_lt hfit)
  have hpow : 2 ^ (shift + 7) = 128 * 2 ^ shift := by
    rw [pow_add]
    ring
  -- the value is its low group and the rest, shifted by one group more
  have hsplit : v % 128 * 2 ^ shift + v / 128 * 2 ^ (shift + 7) = v * 2 ^ shift := by
    calc v % 128 * 2 ^ shift + v / 128 * 2 ^ (shift + 7)
        = (128 * (v / 128) + v % 128) * 2 ^ shift := by rw [hpow]; ring
      _ = v * 2 ^ shift := by rw [Nat.div_add_mod]
  have hresult' : result + v % 128 * 2 ^ shift < 2 ^ (shift + 7) := by
    have hgroupLt : v % 128 + 1 ≤ 128 := Nat.mod_lt v (by decide)
    have hmul := Nat.mul_le_mul_right (2 ^ shift) hgroupLt
    rw [Nat.add_mul, Nat.one_mul] at hmul
    omega
  show decodeFrom w (n + 2) shift result
    (UInt8.ofNat (v % 128 + 128) :: (encode n (v / 128) ++ rest)) = _
  rw [decodeFrom]
  simp only [hbyte]
  rw [if_pos (by omega), hgroup, hmod, or_shiftLeft _ hresult,
    ih (shift + 7) _ (v / 128) hresult' (by omega) (by rw [pow_succ] at hv; omega),
    Nat.add_assoc, hsplit]

/-- **ROUND TRIP** of a number that fits. -/
theorem reads_decode {w n v : Nat} (hw : v < 2 ^ w) (hn : v < 128 ^ (n + 1)) :
    Reads (decode w (n + 1)) (encode n v) v := by
  intro rest
  have h := decodeFrom_encode w rest n 0 0 v (by decide) (by rw [pow_zero, mul_one]; exact hw) hn
  rw [pow_zero, mul_one, Nat.zero_add] at h
  exact h

theorem consumes_decodeFrom (w : Nat) :
    ∀ n shift result, Consumes (decodeFrom w n shift result) := by
  intro n
  induction n with
  | zero => exact nofun
  | succ n ih =>
  intro shift result input a rest h
  cases input with
  | nil => exact nomatch h
  | cons b bs =>
  simp only [decodeFrom] at h
  rw [List.length_cons]
  split at h
  · exact (ih _ _ bs a rest h).trans (Nat.lt_succ_self _)
  · cases h
    exact Nat.lt_succ_self _

theorem consumes_decode (w n : Nat) : Consumes (decode w n) := consumes_decodeFrom w n 0 0

end Varint
