import MatrixKV.SstableMetaProofs
import MatrixKV.PersistentSstableProofs

/-! # Building an NVM table — L0TableBuilderWithBuffer

    The builder collects records in a buffer of one slot's size and writes the
    buffer, followed by the key metadata, to the slot in one go.

    * `add` is silent about a record that does not fit: it is dropped.  After
      any sequence of adds the builder holds exactly the records of `fitting`,
      laid out one behind the other (`addAll_eq`).
    * `finish` fixes the cross-row pointers, encodes the metadata and stores
      both, unless the metadata does not fit any more.
    * Records and metadata decode to what was written
      (`decodeRecord_of_stored`, `decodeMetas_of_stored`). -/

namespace L0TableBuilder

open List DbFormat SstableMeta FixedCoding PersistentSstable

/-- User keys are byte strings; `K` is their ordered view. -/
class UserKeyCodec (K : Type) where
  bytes : K → List UInt8
  ofBytes : List UInt8 → K
  ofBytes_bytes : ∀ k, ofBytes (bytes k) = k

/-- One-byte user keys. -/
instance byteKeyCodec : UserKeyCodec (Fin 256) where
  bytes k := [UInt8.ofNat k.val]
  ofBytes bs := ⟨(bs.headD 0).toNat, UInt8.toNat_lt _⟩
  ofBytes_bytes k := by
    refine Fin.ext ?_
    have hk := k.isLt
    simp only [headD_cons, UInt8.toNat_ofNat']
    omega

variable {K : Type} [UserKeyCodec K]

/-! ## Internal keys as bytes -/

/-- The type of a code; codes that are not written are read as values. -/
def typeOfCode (c : Nat) : ValueType :=
  if c = 0x0 then .deletion
  else if c = 0x2 then .merge
  else if c = 0x7 then .singleDeletion
  else if c = 0xF then .rangeDeletion
  else if c = 0x11 then .blobIndex
  else .value

theorem typeOfCode_code (t : ValueType) : typeOfCode t.code = t := by
  cases t <;> rfl

/-- `InternalKey::Encode`: the user key and the packed number. -/
def encodeKey (k : InternalKey K) : List UInt8 :=
  UserKeyCodec.bytes k.userKey ++ encodeFixed 8 k.packed

/-- `InternalKey::DecodeFrom`, with the fields taken apart. -/
def decodeKey (bs : List UInt8) : InternalKey K :=
  let n := bs.length - 8
  let packed := decodeFixed (bs.drop n)
  ⟨UserKeyCodec.ofBytes (bs.take n), packed / 256, typeOfCode (packed % 256)⟩

theorem decodeKey_encodeKey {k : InternalKey K} (h : k.sequence ≤ maxSequenceNumber) :
    decodeKey (encodeKey k) = k := by
  have hcode := code_lt k.type
  have hlt : k.packed < 256 ^ 8 := by
    simp only [InternalKey.packed, packSequenceAndType, maxSequenceNumber] at h ⊢
    omega
  have hlen : (encodeKey k).length - 8 = (UserKeyCodec.bytes k.userKey).length := by
    simp [encodeKey]
  have hdiv : k.packed / 256 = k.sequence := by
    simp only [InternalKey.packed, packSequenceAndType]
    omega
  have hmod : k.packed % 256 = k.type.code := by
    simp only [InternalKey.packed, packSequenceAndType]
    omega
  have htake : (encodeKey k).take ((encodeKey k).length - 8) = UserKeyCodec.bytes k.userKey := by
    rw [hlen, encodeKey, take_left]
  have hdrop : (encodeKey k).drop ((encodeKey k).length - 8) = encodeFixed 8 k.packed := by
    rw [hlen, encodeKey, drop_left]
  simp only [decodeKey, htake, hdrop, decodeFixed_encodeFixed hlt, UserKeyCodec.ofBytes_bytes,
    hdiv, hmod, typeOfCode_code]

/-! ## Records -/

/-- A key/value pair as the flush hands it over. -/
abbrev Pair (K : Type) := InternalKey K × List UInt8

/-- The stored form of a pair: both sizes in 64 bits, each in front of its bytes. -/
def record (p : Pair K) : List UInt8 :=
  encodeFixed 8 (encodeKey p.1).length ++ (encodeKey p.1 ++
    (encodeFixed 8 p.2.length ++ p.2))

def recordSize (p : Pair K) : Nat := (encodeKey p.1).length + p.2.length + 8 + 8

theorem length_record (p : Pair K) : (record p).length = recordSize p := by
  simp only [record, recordSize, length_append, length_encodeFixed]
  omega

/-- Decode the record at an address: key bytes, then value bytes. -/
def decodeRecord (m : Memory) (addr : Nat) : Pair K :=
  let keySize := decodeFixed (readBytes m addr 8)
  let valueSize := decodeFixed (readBytes m (addr + 8 + keySize) 8)
  (decodeKey (readBytes m (addr + 8) keySize), readBytes m (addr + 8 + keySize + 8) valueSize)

/-- The bytes at an address. -/
def Stored (m : Memory) (addr : Nat) (bs : List UInt8) : Prop :=
  readBytes m addr bs.length = bs

theorem Stored.append {m : Memory} {addr : Nat} {bs cs : List UInt8}
    (h : Stored m addr (bs ++ cs)) : Stored m addr bs ∧ Stored m (addr + bs.length) cs :=
  readBytes_append h

theorem Stored.fixed {m : Memory} {addr w n : Nat} (h : Stored m addr (encodeFixed w n))
    (hn : n < 256 ^ w) : decodeFixed (readBytes m addr w) = n := by
  rw [Stored, length_encodeFixed] at h
  rw [h, decodeFixed_encodeFixed hn]

/-- A stored record decodes to its pair. -/
theorem decodeRecord_of_stored {m : Memory} {addr : Nat} {p : Pair K}
    (h : Stored m addr (record p)) (hseq : p.1.sequence ≤ maxSequenceNumber)
    (hsize : recordSize p < 2 ^ 64) : decodeRecord m addr = p := by
  obtain ⟨h1, h⟩ := h.append
  obtain ⟨h2, h⟩ := h.append
  obtain ⟨h3, h4⟩ := h.append
  simp only [length_encodeFixed] at h2 h3 h4
  simp only [recordSize] at hsize
  have hk : decodeFixed (readBytes m addr 8) = (encodeKey p.1).length :=
    h1.fixed (by omega)
  have hv : decodeFixed (readBytes m (addr + 8 + (encodeKey p.1).length) 8) = p.2.length :=
    h3.fixed (by omega)
  rw [decodeRecord]
  simp only [hk, hv]
  rw [show readBytes m (addr + 8) (encodeKey p.1).length = encodeKey p.1 from h2,
    show readBytes m (addr + 8 + (encodeKey p.1).length + 8) p.2.length = p.2 from h4,
    decodeKey_encodeKey hseq]

/-! ## The builder -/

/-- The builder's buffer holds the bytes `[0, offset_)`. -/
structure Builder (K : Type) where
  maxSize : Nat
  keys : List (KeysMetadata K) := []
  buf : List UInt8 := []

def Builder.offset (b : Builder K) : Nat := b.buf.length

/-- `Add`: a record that does not fit is dropped. -/
def Builder.add (b : Builder K) (p : Pair K) : Builder K :=
  if b.offset + recordSize p > b.maxSize then b
  else
    { b with
      buf := b.buf ++ record p
      keys := b.keys ++ [{ key := p.1, offset := b.offset, size := recordSize p }] }

theorem add_of_gt {b : Builder K} {p : Pair K} (h : b.offset + recordSize p > b.maxSize) :
    b.add p = b := if_pos h

theorem add_of_le {b : Builder K} {p : Pair K} (h : ¬ b.offset + recordSize p > b.maxSize) :
    b.add p =
      { b with
        buf := b.buf ++ record p
        keys := b.keys ++ [{ key := p.1, offset := b.offset, size := recordSize p }] } :=
  if_neg h

def Builder.addAll (b : Builder K) (ps : List (Pair K)) : Builder K := ps.foldl Builder.add b

/-- The pairs that a builder at `offset` keeps. -/
def fitting (maxSize : Nat) : Nat → List (Pair K) → List (Pair K)
  | _, [] => []
  | offset, p :: ps =>
    if offset + recordSize p > maxSize then fitting maxSize offset ps
    else p :: fitting maxSize (offset + recordSize p) ps

/-- The key metadata of pairs laid out from `offset` on. -/
def layout : Nat → List (Pair K) → List (KeysMetadata K)
  | _, [] => []
  | offset, p :: ps =>
    { key := p.1, offset := offset, size := recordSize p } :: layout (offset + recordSize p) ps

def totalSize (ps : List (Pair K)) : Nat := (ps.map recordSize).sum

/-- **THE BUFFER**: a builder holds the fitting pairs, one behind the other. -/
theorem addAll_eq (ps : List (Pair K)) :
    ∀ b : Builder K, b.addAll ps =
      { b with
        buf := b.buf ++ (fitting b.maxSize b.offset ps).flatMap record
        keys := b.keys ++ layout b.offset (fitting b.maxSize b.offset ps) } := by
  induction ps with
  | nil =>
    intro b
    simp [Builder.addAll, fitting, layout]
  | cons p ps ih =>
  intro b
  show (b.add p).addAll ps = _
  rw [ih]
  by_cases h : b.offset + recordSize p > b.maxSize
  · rw [add_of_gt h]
    simp only [fitting, if_pos h]
  have hoff : (b.add p).offset = b.offset + recordSize p := by
    rw [add_of_le h, Builder.offset, length_append, length_record, Builder.offset]
  rw [hoff, add_of_le h]
  simp only [fitting, if_neg h, layout, append_assoc, flatMap_cons, singleton_append]

section

variable (maxSize : Nat) (ps : List (Pair K))

theorem fitting_sublist (offset) : (fitting maxSize offset ps).Sublist ps := by
  induction ps generalizing offset with
  | nil => exact .refl _
  | cons p ps ih =>
  rw [fitting]
  split_ifs with h
  · exact (ih offset).cons p
  · exact (ih _).cons_cons p

theorem totalSize_fitting_le (offset) (h : offset ≤ maxSize) :
    offset + totalSize (fitting maxSize offset ps) ≤ maxSize := by
  induction ps generalizing offset with
  | nil => simpa [fitting, totalSize] using h
  | cons p ps ih =>
  rw [fitting]
  split_ifs with hp
  · exact ih offset h
  have := ih (offset + recordSize p) (by omega)
  simp only [totalSize, map_cons, sum_cons] at this ⊢
  omega

/-- Nothing is dropped exactly when everything fits. -/
theorem fitting_eq_self_iff :
    ∀ offset, offset ≤ maxSize →
      (fitting maxSize offset ps = ps ↔ offset + totalSize ps ≤ maxSize) := by
  intro offset h
  constructor
  · intro heq
    have := totalSize_fitting_le maxSize ps offset h
    rwa [heq] at this
  induction ps generalizing offset with
  | nil => intro _; rfl
  | cons p ps ih =>
  intro htotal
  simp only [totalSize, map_cons, sum_cons] at htotal
  rw [fitting, if_neg (by omega), ih (offset + recordSize p) (by omega)
    (by simp only [totalSize]; omega)]

end

section

variable (ps : List (Pair K))

theorem length_flatMap_record : (ps.flatMap record).length = totalSize ps := by
  induction ps with
  | nil => rfl
  | cons p ps ih =>
    simp only [flatMap_cons, length_append, length_record, ih, totalSize, map_cons, sum_cons]

theorem layout_map_key (offset) : (layout offset ps).map KeysMetadata.key = ps.map Prod.fst := by
  induction ps generalizing offset with
  | nil => rfl
  | cons p ps ih =>
    rw [layout, map_cons, map_cons, ih]

theorem layout_next : ∀ offset, ∀ m ∈ layout offset ps, m.next = -1 := by
  induction ps with
  | nil => intro offset m hm; exact nomatch hm
  | cons p ps ih =>
  intro offset m hm
  rcases mem_cons.mp hm with rfl | hm
  · rfl
  · exact ih _ m hm

/-- The metadata of laid out pairs stays inside their total size. -/
theorem layout_bounds :
    ∀ offset, ∀ m ∈ layout offset ps,
      m.offset + m.size ≤ offset + totalSize ps ∧ (encodeKey m.key).length ≤ m.size := by
  induction ps with
  | nil => intro offset m hm; exact nomatch hm
  | cons p ps ih =>
  intro offset m hm
  simp only [totalSize, map_cons, sum_cons]
  rcases mem_cons.mp hm with rfl | hm
  · simp only [recordSize]
    omega
  have h := ih _ m hm
  simp only [totalSize] at h
  omega

/-- Each record lies at the offset its metadata says. -/
theorem stored_layout {mem : Memory} {base : Nat} :
    ∀ offset, Stored mem (base + offset) (ps.flatMap record) →
      ∀ (i : Nat) (m : KeysMetadata K) (p : Pair K), (layout offset ps)[i]? = some m →
        ps[i]? = some p → Stored mem (base + m.offset) (record p) := by
  induction ps with
  | nil => intro offset _ i m p _ hp; simp at hp
  | cons q ps ih =>
  intro offset h i m p hm hp
  rw [flatMap_cons] at h
  obtain ⟨h1, h2⟩ := h.append
  cases i with
  | zero =>
    simp only [layout, getElem?_cons_zero, Option.some.injEq] at hm hp
    subst hm hp
    exact h1
  | succ i =>
    rw [length_record, Nat.add_assoc] at h2
    exact ih (offset + recordSize q) h2 i m p hm hp

end

/-! ## Key metadata -/

/-- An `int32_t` in 32 bits, and back. -/
def encodeNext (n : Int) : Nat := (n % 2 ^ 32).toNat

def decodeNext (n : Nat) : Int := if n < 2 ^ 31 then n else (n : Int) - 2 ^ 32

theorem decodeNext_encodeNext {n : Int} (h1 : -1 ≤ n) (h2 : n < 2 ^ 31) :
    encodeNext n < 256 ^ 4 ∧ decodeNext (encodeNext n) = n := by
  rcases lt_or_ge n 0 with h | h
  · have hn : n = -1 := by omega
    subst hn
    exact ⟨by decide, by decide⟩
  have henc : encodeNext n = n.toNat := by
    rw [encodeNext, Int.emod_eq_of_lt h (by omega)]
  rw [henc, decodeNext, if_pos (by omega)]
  omega

/-- One key's metadata as `Finish` writes it. -/
def encodeMeta (m : KeysMetadata K) : List UInt8 :=
  encodeFixed 8 (encodeKey m.key).length ++ (encodeKey m.key ++
    (encodeFixed 4 (encodeNext m.next) ++ (encodeFixed 8 m.offset ++ encodeFixed 8 m.size)))

def encodeMetas (ms : List (KeysMetadata K)) : List UInt8 := ms.flatMap encodeMeta

/-- The loop of `RecoverFromStorageInfo` over a table's key metadata. -/
def decodeMetas (mem : Memory) : Nat → Nat → List (KeysMetadata K)
  | 0, _ => []
  | n + 1, pos =>
    let keySize := decodeFixed (readBytes mem pos 8)
    { key := decodeKey (readBytes mem (pos + 8) keySize)
      next := decodeNext (decodeFixed (readBytes mem (pos + 8 + keySize) 4))
      offset := decodeFixed (readBytes mem (pos + 8 + keySize + 4) 8)
      size := decodeFixed (readBytes mem (pos + 8 + keySize + 4 + 8) 8) } ::
    decodeMetas mem n (pos + 8 + keySize + 4 + 8 + 8)

/-- Metadata whose fields fit their widths. -/
structure MetaFits (m : KeysMetadata K) : Prop where
  sequence : m.key.sequence ≤ maxSequenceNumber
  keySize : (encodeKey m.key).length < 2 ^ 64
  nextLow : -1 ≤ m.next
  nextHigh : m.next < 2 ^ 31
  offset : m.offset < 2 ^ 64
  size : m.size < 2 ^ 64

theorem length_encodeMeta (m : KeysMetadata K) :
    (encodeMeta m).length = 8 + (encodeKey m.key).length + 4 + 8 + 8 := by
  simp only [encodeMeta, length_append, length_encodeFixed]
  omega

/-- Stored metadata decodes to what was written. -/
theorem decodeMetas_of_stored {mem : Memory} (ms : List (KeysMetadata K)) (pos)
    (h : Stored mem pos (encodeMetas ms)) (hfits : ∀ m ∈ ms, MetaFits m) :
    decodeMetas mem ms.length pos = ms := by
  induction ms generalizing pos with
  | nil => rfl
  | cons m ms ih =>
  have hm := hfits m (.head _)
  rw [encodeMetas, flatMap_cons] at h
  obtain ⟨hhead, htail⟩ := h.append
  obtain ⟨h1, hhead⟩ := hhead.append
  obtain ⟨h2, hhead⟩ := hhead.append
  obtain ⟨h3, hhead⟩ := hhead.append
  obtain ⟨h4, h5⟩ := hhead.append
  simp only [length_encodeFixed] at h2 h3 h4 h5
  have hk := h1.fixed (show (encodeKey m.key).length < 256 ^ 8 by have := hm.keySize; omega)
  obtain ⟨hn1, hn2⟩ := decodeNext_encodeNext hm.nextLow hm.nextHigh
  have ho := h4.fixed (show m.offset < 256 ^ 8 by have := hm.offset; omega)
  have hs := h5.fixed (show m.size < 256 ^ 8 by have := hm.size; omega)
  rw [length_encodeMeta] at htail
  have hrest := ih _ htail (fun x hx => hfits x (.tail m hx))
  have hkey : readBytes mem (pos + 8) (encodeKey m.key).length = encodeKey m.key := h2
  have hend : pos + 8 + (encodeKey m.key).length + 4 + 8 + 8
      = pos + (8 + (encodeKey m.key).length + 4 + 8 + 8) := by omega
  rw [length_cons, decodeMetas]
  simp only [hk, hkey, h3.fixed hn1, hn2, ho, hs, hend, hrest, decodeKey_encodeKey hm.sequence]

/-! ## Finish -/

variable [LinearOrder K]

/-- The table as `Finish` leaves it: the collected keys with their pointers. -/
def Builder.finishFile (b : Builder K) (dir : SstableMetadata K) (file : FileEntry K) :
    FileEntry K :=
  dir.updateKeyNext { file with keysMeta := b.keys }

/-- `Finish`: set up the table, and unless the metadata does not fit (`none`)
    store the buffer and the metadata and return the metadata's size. -/
def Builder.finish (b : Builder K) (dir : SstableMetadata K) (pool : Pool)
    (file : FileEntry K) : SstableMetadata K × Pool × Option Nat :=
  let f := b.finishFile dir file
  let metadatas := encodeMetas f.keysMeta
  if b.offset + metadatas.length > b.maxSize then (dir.setFile f, pool, none)
  else
    (dir.setFile f, pool.store f.sstableIndex (b.buf ++ metadatas), some metadatas.length)

end L0TableBuilder
