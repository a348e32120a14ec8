import MatrixKV.NvmRecoverProofs
import MatrixKV.NvmBitMapProofs

/-! # Who owns a slot — persistent_sstable.h, AddL0TableRoom and DeleteL0file

    Three things say which slots are taken: the entries of the directory, the bits
    of the bitmap and the counter `use_num_`.

    * `Owns` is the invariant that ties them together on the list of bits;
      allocation, deletion and recovery keep it.
    * `SlotArray` is the pool over the bytes of `bitmap.cc`.  On it each operation
      does what it does on the list of bits (`view_step`, `view_recover`).
    * `slots_owned` carries the invariant over whole runs of the byte version. -/

namespace SlotOwnership

open List DbFormat SstableMeta FixedCoding PersistentSstable L0TableBuilder NvmFlush NvmRecover
  NvmBitMap

variable {K : Type}

/-! ## The invariant -/

/-- Each used slot belongs to one entry of the directory. -/
structure Owns (cf : NvmCf K) : Prop where
  numbers : (cf.dir.files.map FileEntry.filenum).Nodup
  slots : (cf.dir.files.map FileEntry.sstableIndex).Nodup
  used : ∀ i, cf.pool.Used i ↔ ∃ e ∈ cf.dir.files, e.sstableIndex = i
  useNum : cf.pool.useNum = cf.dir.files.length % 2 ^ 64

variable {cf : NvmCf K}

/-- Slots of entries are in range. -/
theorem Owns.slot_lt (h : Owns cf) {e : FileEntry K} (he : e ∈ cf.dir.files) :
    e.sstableIndex < cf.pool.num :=
  (List.getElem?_eq_some_iff.mp ((h.used _).mpr ⟨e, he, rfl⟩)).1

/-- A module just opened on a pool file owns nothing. -/
theorem owns_reopen (pool : Pool) : Owns (reopen (K := K) pool) where
  numbers := nodup_nil
  slots := nodup_nil
  used := fun i => iff_of_false (used_reopen pool i) (fun ⟨_, he, _⟩ => nomatch he)
  useNum := rfl

/-- A new entry in a free slot, under a new number. -/
theorem Owns.cons {cf' : NvmCf K} (h : Owns cf) {e : FileEntry K}
    (hfiles : cf'.dir.files = e :: cf.dir.files)
    (hfree : cf.pool.bitmap[e.sstableIndex]? = some false)
    (hused : ∀ i, cf'.pool.Used i ↔ i = e.sstableIndex ∨ cf.pool.Used i)
    (hcount : cf'.pool.useNum = (cf.pool.useNum + 1) % 2 ^ 64)
    (hnumber : ∀ o ∈ cf.dir.files, o.filenum ≠ e.filenum) : Owns cf' := by
  obtain ⟨hnumbers, hslots⟩ := nodup_cons_entry h.numbers h.slots
    (fun o ho => (h.used _).mpr ⟨o, ho, rfl⟩) hfree hnumber
  refine ⟨hfiles ▸ hnumbers, hfiles ▸ hslots, ?_, ?_⟩
  · intro i
    rw [hused, h.used, hfiles, exists_mem_cons_iff, eq_comm]
  · rw [hcount, h.useNum, hfiles, length_cons, Nat.mod_add_mod]

/-- A new table gets a slot of its own. -/
theorem Owns.addL0TableRoom (h : Owns cf) {filenum : Nat}
    (hnew : ∀ e ∈ cf.dir.files, e.filenum ≠ filenum) :
    Owns (NvmFlush.addL0TableRoom cf filenum).1 := by
  rcases addL0TableRoom_spec cf filenum with ⟨hroom, -⟩ | ⟨index, hfree, hroom⟩
  · rw [hroom]
    exact h
  rw [hroom]
  exact h.cons (e := { filenum := filenum, sstableIndex := index }) rfl hfree
    (fun i => used_set_iff cf.pool hfree i _) rfl hnew

/-- A deleted table gives its slot back. -/
theorem Owns.deleteL0file (h : Owns cf) (filenumber : Nat) :
    Owns (NvmFlush.deleteL0file cf filenumber) := by
  rw [NvmFlush.deleteL0file]
  cases hfind : cf.dir.findFile filenumber with
  | none => exact h
  | some e =>
  have he : e ∈ cf.dir.files := mem_of_find?_eq_some hfind
  have henum : e.filenum = filenumber := by simpa using find?_some hfind
  have hmem := mem_deteleFile_iff h.numbers filenumber
  have hsub : (cf.dir.deteleFile filenumber).files.Sublist cf.dir.files := eraseP_sublist
  have hlen : (cf.dir.deteleFile filenumber).files.length = cf.dir.files.length - 1 :=
    length_eraseP_of_mem he (by simpa using henum)
  have hpos : 0 < cf.dir.files.length := length_pos_of_mem he
  exact {
    numbers := h.numbers.sublist (hsub.map _)
    slots := h.slots.sublist (hsub.map _)
    used := by
      intro i
      show (cf.pool.deleteSstable e.sstableIndex).Used i ↔ _
      rw [used_deleteSstable_iff cf.pool ((h.used _).mpr ⟨e, he, rfl⟩), h.used]
      constructor
      · rintro ⟨hne, o, ho, rfl⟩
        refine ⟨o, (hmem o).mpr ⟨ho, ?_⟩, rfl⟩
        intro heq
        exact hne (by rw [inj_on_of_nodup_map h.numbers ho he (heq.trans henum.symm)])
      rintro ⟨o, ho, rfl⟩
      obtain ⟨ho, hne⟩ := (hmem o).mp ho
      refine ⟨?_, o, ho, rfl⟩
      intro heq
      exact hne (inj_on_of_nodup_map h.slots ho he heq ▸ henum)
    useNum := by
      show (cf.pool.useNum + (2 ^ 64 - 1)) % 2 ^ 64 = _
      rw [h.useNum, hlen]
      omega }

/-! ## Recovery -/

section Recovery

variable [UserKeyCodec K]

/-- Recovering a file adds its entry and hands its slot to the pool. -/
theorem files_recoverFile {f : FileMetaData K} (hnew : ∀ e ∈ cf.dir.files, e.filenum ≠ f.number) :
    (recoverFile f cf).dir.files = recoveredEntry cf.pool f :: cf.dir.files ∧
    (recoverFile f cf).pool = cf.pool.recoverAddSstable f.nvmSstableIndex := by
  have hfind : cf.dir.findFile f.number = none := by
    rw [SstableMetadata.findFile, find?_eq_none]
    intro e he
    simpa using hnew e he
  rw [recoverFile, hfind]
  refine ⟨?_, rfl⟩
  show replaceFile (recoveredEntry cf.pool f)
    ({ filenum := f.number, sstableIndex := f.nvmSstableIndex } :: cf.dir.files) = _
  rw [replaceFile, if_pos (show f.number = (recoveredEntry cf.pool f).filenum from rfl)]

/-- What recovery leaves of the numbers and slots of the listed files. -/
structure Recovered (pool : Pool) (l0 : List (FileMetaData K)) (cf : NvmCf K) : Prop where
  owns : Owns cf
  numbers : cf.dir.files.map FileEntry.filenum = l0.map FileMetaData.number
  slots : cf.dir.files.map FileEntry.sstableIndex = l0.map FileMetaData.nvmSstableIndex
  num : cf.pool.num = pool.num

/-- One more file with a number and a slot of its own. -/
theorem Recovered.recoverFile {pool : Pool} {f : FileMetaData K} {l0 : List (FileMetaData K)}
    (h : Recovered pool l0 cf) (hnumber : f.number ∉ l0.map FileMetaData.number)
    (hslot : f.nvmSstableIndex ∉ l0.map FileMetaData.nvmSstableIndex)
    (hlt : f.nvmSstableIndex < pool.num) :
    Recovered pool (f :: l0) (NvmRecover.recoverFile f cf) := by
  have hnew : ∀ e ∈ cf.dir.files, e.filenum ≠ f.number := by
    intro e he heq
    rw [← h.numbers, ← heq] at hnumber
    exact hnumber (mem_map_of_mem he)
  have hfree : ¬ cf.pool.Used f.nvmSstableIndex := by
    rw [h.owns.used]
    rintro ⟨e, he, heq⟩
    rw [← h.slots, ← heq] at hslot
    exact hslot (mem_map_of_mem he)
  have hlt' : f.nvmSstableIndex < cf.pool.num := by rw [h.num]; exact hlt
  have hbit : cf.pool.bitmap[f.nvmSstableIndex]? = some false := by
    rw [Pool.Used, getElem?_eq_getElem hlt'] at hfree
    rw [getElem?_eq_getElem hlt']
    simpa using hfree
  obtain ⟨hfiles, hpool⟩ := files_recoverFile hnew
  have hadd : cf.pool.recoverAddSstable f.nvmSstableIndex = { cf.pool with
      bitmap := cf.pool.bitmap.set f.nvmSstableIndex true
      useNum := (cf.pool.useNum + 1) % 2 ^ 64 } := by
    simp only [Pool.recoverAddSstable, hbit]
  refine ⟨h.owns.cons hfiles hbit ?_ ?_ hnew, ?_, ?_, ?_⟩
  · intro i
    rw [hpool, hadd]
    exact used_set_iff cf.pool hbit i _
  · rw [hpool, hadd]
  · rw [hfiles, map_cons, map_cons, h.numbers]
    rfl
  · rw [hfiles, map_cons, map_cons, h.slots]
    rfl
  · rw [hpool, hadd, ← h.num]
    exact length_set ..

/-- All files of a version, from the last to the first. -/
theorem recovered_foldr (pool : Pool) (l0 : List (FileMetaData K))
    (hnumbers : (l0.map FileMetaData.number).Nodup)
    (hslots : (l0.map FileMetaData.nvmSstableIndex).Nodup)
    (hlt : ∀ f ∈ l0, f.nvmSstableIndex < pool.num) :
    Recovered pool l0 (l0.foldr recoverFile (reopen pool)) := by
  induction l0 with
  | nil =>
    exact ⟨owns_reopen pool, rfl, rfl, length_replicate⟩
  | cons f l0 ih =>
  obtain ⟨hnumber, hnumbers⟩ := nodup_cons.mp hnumbers
  obtain ⟨hslot, hslots⟩ := nodup_cons.mp hslots
  have hrest := ih hnumbers hslots (fun g hg => hlt g (.tail f hg))
  exact hrest.recoverFile hnumber hslot (hlt f (.head _))

/-- Recovery gives a module that owns its slots, with numbers from the version. -/
theorem owns_recover (pool : Pool) (openByCreat : Bool) {l0 : List (FileMetaData K)}
    (hnumbers : (l0.map FileMetaData.number).Nodup)
    (hslots : (l0.map FileMetaData.nvmSstableIndex).Nodup)
    (hlt : ∀ f ∈ l0, f.nvmSstableIndex < pool.num) :
    Owns (recoverFromStorageInfo (reopen pool) openByCreat l0) ∧
    ((recoverFromStorageInfo (reopen pool) openByCreat l0).dir.files.map FileEntry.filenum).Sublist
      (l0.map FileMetaData.number) := by
  rw [recoverFromStorageInfo]
  split
  · exact ⟨owns_reopen pool, nil_sublist _⟩
  split
  · exact ⟨owns_reopen pool, nil_sublist _⟩
  have h := recovered_foldr pool l0 hnumbers hslots hlt
  exact ⟨h.owns, h.numbers ▸ .refl _⟩

end Recovery

/-! ## Runs -/

/-- Flushes ask for room, purges delete. -/
inductive Event
  | add (filenum : Nat)
  | delete (filenum : Nat)
  deriving DecidableEq, Repr

def step (cf : NvmCf K) : Event → NvmCf K
  | .add filenum => (addL0TableRoom cf filenum).1
  | .delete filenum => deleteL0file cf filenum

/-- The file numbers a run asks room for. -/
def added : List Event → List Nat
  | [] => []
  | .add filenum :: es => filenum :: added es
  | .delete _ :: es => added es

/-- The numbers known to the module and those still to come differ. -/
def Fresh (cf : NvmCf K) (es : List Event) : Prop :=
  (cf.dir.files.map FileEntry.filenum ++ added es).Nodup

theorem files_addL0TableRoom (cf : NvmCf K) (filenum : Nat) :
    (((addL0TableRoom cf filenum).1.dir.files).map FileEntry.filenum).Sublist
      (filenum :: cf.dir.files.map FileEntry.filenum) := by
  rcases addL0TableRoom_spec cf filenum with ⟨hroom, -⟩ | ⟨index, -, hroom⟩
  · rw [hroom]
    exact sublist_cons_self _ _
  · rw [hroom]
    exact .refl _

theorem files_deleteL0file (cf : NvmCf K) (filenumber : Nat) :
    (deleteL0file cf filenumber).dir.files.Sublist cf.dir.files := by
  rw [deleteL0file]
  split
  · exact .refl _
  · exact eraseP_sublist

/-- One event keeps the ownership, and the numbers of the events to come stay fresh. -/
theorem Owns.step (h : Owns cf) {e : Event} {es : List Event} (hfresh : Fresh cf (e :: es)) :
    Owns (SlotOwnership.step cf e) ∧ Fresh (SlotOwnership.step cf e) es := by
  cases e with
  | add filenum =>
    have hcons := nodup_middle.mp hfresh
    obtain ⟨hnot, -⟩ := nodup_cons.mp hcons
    refine ⟨h.addL0TableRoom ?_, ?_⟩
    · intro e he heq
      exact hnot (mem_append_left _ (heq ▸ mem_map_of_mem he))
    · exact hcons.sublist ((files_addL0TableRoom cf filenum).append (.refl (added es)))
  | delete filenum =>
  refine ⟨h.deleteL0file filenum, ?_⟩
  exact List.Nodup.sublist
    (((files_deleteL0file cf filenum).map FileEntry.filenum).append (.refl _)) hfresh

/-- A run keeps the ownership. -/
theorem owns_run (es : List Event) (cf : NvmCf K) (h : Owns cf) (hfresh : Fresh cf es) :
    Owns (EventRun.run SlotOwnership.step cf es) := by
  induction es generalizing cf with
  | nil => exact h
  | cons e es ih =>
  obtain ⟨h', hfresh'⟩ := h.step hfresh
  exact ih _ h' hfresh'

/-! ## The pool over the bytes of the bitmap -/

/-- `PersistentSstable` with its `BitMap`. -/
structure SlotArray where
  raw : Memory
  bitmap : BitMap
  eachSize : Nat
  num : Nat
  useNum : Nat

/-- The constructor on the bytes of the pool file. -/
def SlotArray.new (raw : Memory) (eachSize number : Nat) : SlotArray :=
  { raw := raw, bitmap := BitMap.new number, eachSize := eachSize, num := number, useNum := 0 }

/-- `AllocSstable` over the byte array. -/
def SlotArray.allocSstable (p : SlotArray) : Option Nat × SlotArray :=
  match (List.range p.num).find? (fun i => p.bitmap.get i = 0) with
  | none => (none, p)
  | some index =>
    (some index,
      { p with bitmap := p.bitmap.set index, useNum := (p.useNum + 1) % 2 ^ 64 })

/-- `DeleteSstable` over the byte array. -/
def SlotArray.deleteSstable (p : SlotArray) (index : Nat) : SlotArray :=
  { p with bitmap := p.bitmap.clr index, useNum := (p.useNum + (2 ^ 64 - 1)) % 2 ^ 64 }

/-- `RecoverAddSstable` over the byte array. -/
def SlotArray.recoverAddSstable (p : SlotArray) (index : Nat) : SlotArray :=
  if index ≥ p.num then p
  else if p.bitmap.get index ≠ 0 then p
  else { p with bitmap := p.bitmap.set index, useNum := (p.useNum + 1) % 2 ^ 64 }

/-- The pool as a list of bits. -/
def SlotArray.view (p : SlotArray) : Pool :=
  { raw := p.raw, bitmap := p.bitmap.bits p.num, eachSize := p.eachSize, useNum := p.useNum }

/-- The bitmap is as large as the constructor made it, and its spare bits are
    clear. -/
def SlotArray.OK (p : SlotArray) : Prop := Represents p.bitmap (p.bitmap.bits p.num)

theorem length_bits (p : SlotArray) : (p.bitmap.bits p.num).length = p.num := by
  simp only [BitMap.bits, length_map, length_range]

theorem num_view (p : SlotArray) : p.view.num = p.num := length_bits p

/-- A new pool, seen as a list of bits. -/
theorem ok_new (raw : Memory) (eachSize number : Nat) :
    (SlotArray.new raw eachSize number).OK ∧
    (SlotArray.new raw eachSize number).view
      = { raw := raw, bitmap := List.replicate number false
          eachSize := eachSize, useNum := 0 } := by
  have h := represents_new number
  have hbits : (BitMap.new number).bits number = List.replicate number false := by
    have := h.eq_bits
    rw [length_replicate] at this
    exact this.symm
  refine ⟨?_, ?_⟩
  · show Represents (BitMap.new number) ((BitMap.new number).bits number)
    rw [hbits]
    exact h
  · show (⟨raw, (BitMap.new number).bits number, eachSize, 0⟩ : Pool) = _
    rw [hbits]

/-- A pool whose bitmap represents `l` is sound, and `l` is its view. -/
theorem ok_of_represents {p : SlotArray} {l : List Bool} (h : Represents p.bitmap l)
    (hlen : l.length = p.num) : p.OK ∧ p.view.bitmap = l := by
  have hl := h.eq_bits
  rw [hlen] at hl
  refine ⟨?_, hl.symm⟩
  rw [SlotArray.OK, ← hl]
  exact h

section Simulation

variable {p : SlotArray} (h : p.OK)
include h

/-- The test of a slot, seen in the list of bits. -/
theorem get_view {i : Nat} (hi : i < p.num) :
    p.bitmap.get i = 0 ↔ p.view.bitmap[i]? = some false := by
  have hi' : i < (p.bitmap.bits p.num).length := by rw [length_bits]; exact hi
  rw [Represents.get h hi']
  show _ ↔ (p.bitmap.bits p.num)[i]? = some false
  rw [getElem?_eq_getElem hi']
  cases (p.bitmap.bits p.num)[i] <;> decide

theorem view_set {index : Nat} (hlt : index < p.num) (useNum : Nat) :
    ({ p with bitmap := p.bitmap.set index, useNum := useNum } : SlotArray).OK ∧
    ({ p with bitmap := p.bitmap.set index, useNum := useNum } : SlotArray).view
      = { p.view with bitmap := p.view.bitmap.set index true, useNum := useNum } := by
  have hrep := Represents.set h (i := index) (by rw [length_bits]; exact hlt)
  obtain ⟨hok, hview⟩ := ok_of_represents
    (p := { p with bitmap := p.bitmap.set index, useNum := useNum }) hrep
    (by rw [length_set, length_bits])
  exact ⟨hok, congrArg (fun l => (⟨p.raw, l, p.eachSize, useNum⟩ : Pool)) hview⟩

/-- Deleting commutes with the view. -/
theorem view_deleteSstable {index : Nat} (hlt : index < p.num) :
    (p.deleteSstable index).OK ∧ (p.deleteSstable index).view = p.view.deleteSstable index := by
  have hrep := Represents.clr h (i := index) (by rw [length_bits]; exact hlt)
  obtain ⟨hok, hview⟩ := ok_of_represents (p := p.deleteSstable index) hrep
    (by rw [length_modify, length_bits]; rfl)
  exact ⟨hok, congrArg (fun l => (⟨p.raw, l, p.eachSize, _⟩ : Pool)) hview⟩

/-- So does taking up a slot, -/
theorem view_recoverAddSstable (index : Nat) :
    (p.recoverAddSstable index).OK ∧
    (p.recoverAddSstable index).view = p.view.recoverAddSstable index := by
  rw [SlotArray.recoverAddSstable, Pool.recoverAddSstable]
  by_cases hlt : index < p.num
  · rw [if_neg (Nat.not_le.mpr hlt)]
    have hlt' : index < p.view.bitmap.length := by
      rw [← num_view] at hlt
      exact hlt
    have hget := get_view h hlt
    rw [getElem?_eq_getElem hlt'] at hget ⊢
    cases hbit : p.view.bitmap[index] with
    | true =>
      rw [hbit] at hget
      rw [if_pos (fun h0 => by cases hget.mp h0)]
      exact ⟨h, rfl⟩
    | false =>
    rw [hbit] at hget
    rw [if_neg (not_not.mpr (hget.mpr rfl))]
    exact view_set h hlt _
  · rw [if_pos (Nat.not_lt.mp hlt), getElem?_eq_none]
    · exact ⟨h, rfl⟩
    · have := num_view p
      rw [Pool.num] at this
      omega

/-- The scan of the bytes finds the slot the scan of the list finds. -/
theorem find?_view :
    (List.range p.num).find? (fun i => p.bitmap.get i = 0)
      = p.view.bitmap.findIdx? (fun b => b = false) := by
  have hlen : p.view.bitmap.length = p.num := num_view p
  cases hfind : p.view.bitmap.findIdx? (fun b => b = false) with
  | none =>
    rw [find?_range_eq_none]
    intro i hi
    have hi' : i < p.view.bitmap.length := by rw [hlen]; exact hi
    have hall := findIdx?_eq_none_iff.mp hfind _ (getElem_mem hi')
    rw [Bool.not_eq_true', decide_eq_false_iff_not, get_view h hi, getElem?_eq_getElem hi']
    simpa using hall
  | some index =>
  obtain ⟨hlt, hbit, hbefore⟩ := findIdx?_eq_some_iff_getElem.mp hfind
  have hlt' : index < p.num := by rw [← hlen]; exact hlt
  rw [find?_range_eq_some]
  refine ⟨?_, mem_range.mpr hlt', ?_⟩
  · rw [decide_eq_true_iff, get_view h hlt', getElem?_eq_getElem hlt]
    simpa using hbit
  intro j hj
  have hj' : j < p.view.bitmap.length := hj.trans hlt
  have hne := hbefore j hj
  rw [Bool.not_eq_true', decide_eq_false_iff_not, get_view h (hj.trans hlt'),
    getElem?_eq_getElem hj']
  simpa using hne

/-- and so does the search for a free one. -/
theorem view_allocSstable :
    p.allocSstable.2.OK ∧ (p.allocSstable.1, p.allocSstable.2.view) = p.view.allocSstable := by
  rw [SlotArray.allocSstable, Pool.allocSstable, find?_view h]
  cases hfind : p.view.bitmap.findIdx? (fun b => b = false) with
  | none => exact ⟨h, rfl⟩
  | some index =>
  obtain ⟨hlt, -, -⟩ := findIdx?_eq_some_iff_getElem.mp hfind
  have hlt' : index < p.num := by
    rw [← num_view]
    exact hlt
  obtain ⟨hok, hview⟩ := view_set h hlt' ((p.useNum + 1) % 2 ^ 64)
  exact ⟨hok, congrArg (Prod.mk (some index)) hview⟩

end Simulation

/-! ## The module over the byte pool -/

/-- The module over the byte array. -/
structure SlotCf (K : Type) where
  dir : SstableMetadata K
  slots : SlotArray

def SlotCf.view (s : SlotCf K) : NvmCf K := { dir := s.dir, pool := s.slots.view }

def SlotCf.addL0TableRoom (s : SlotCf K) (filenum : Nat) : SlotCf K × Option (FileEntry K) :=
  match s.slots.allocSstable with
  | (none, _) => (s, none)
  | (some index, slots) =>
    ({ dir := s.dir.addFile filenum index, slots := slots },
      some { filenum := filenum, sstableIndex := index })

def SlotCf.deleteL0file (s : SlotCf K) (filenumber : Nat) : SlotCf K :=
  match s.dir.findFile filenumber with
  | none => s
  | some e =>
    { dir := s.dir.deteleFile filenumber, slots := s.slots.deleteSstable e.sstableIndex }

def SlotCf.step (s : SlotCf K) : Event → SlotCf K
  | .add filenum => (s.addL0TableRoom filenum).1
  | .delete filenum => s.deleteL0file filenum

variable {s : SlotCf K}

/-- `AddL0TableRoom` commutes with the view. -/
theorem view_addL0TableRoom (h : s.slots.OK) (filenum : Nat) :
    (s.addL0TableRoom filenum).1.slots.OK ∧
    (s.addL0TableRoom filenum).1.view = (NvmFlush.addL0TableRoom s.view filenum).1 := by
  obtain ⟨hok, halloc⟩ := view_allocSstable h
  have hpool : s.view.pool.allocSstable = (s.slots.allocSstable.1, s.slots.allocSstable.2.view) :=
    halloc.symm
  rw [SlotCf.addL0TableRoom, NvmFlush.addL0TableRoom, hpool]
  generalize s.slots.allocSstable = r at hok
  obtain ⟨found, slots⟩ := r
  cases found with
  | none => exact ⟨h, rfl⟩
  | some index => exact ⟨hok, rfl⟩

/-- So does `DeleteL0file` for owned slots. -/
theorem view_deleteL0file (h : s.slots.OK) (howns : Owns s.view) (filenumber : Nat) :
    (s.deleteL0file filenumber).slots.OK ∧
    (s.deleteL0file filenumber).view = NvmFlush.deleteL0file s.view filenumber := by
  rw [SlotCf.deleteL0file, NvmFlush.deleteL0file]
  show _ ∧ _ = match s.dir.findFile filenumber with
    | none => s.view
    | some e => _
  cases hfind : s.dir.findFile filenumber with
  | none => exact ⟨h, rfl⟩
  | some e =>
  -- the slot of an entry is in range, so `clr` stays inside the bitmap
  have hlt : e.sstableIndex < s.slots.num := by
    rw [← num_view]
    exact howns.slot_lt (mem_of_find?_eq_some hfind)
  obtain ⟨hok, hview⟩ := view_deleteSstable h hlt
  exact ⟨hok, congrArg (NvmCf.mk _) hview⟩

/-- **ONE STEP** on the bytes is a step on the list of bits. -/
theorem view_step (h : s.slots.OK) (howns : Owns s.view) (e : Event) :
    (s.step e).slots.OK ∧ (s.step e).view = SlotOwnership.step s.view e := by
  cases e with
  | add filenum => exact view_addL0TableRoom h filenum
  | delete filenum => exact view_deleteL0file h howns filenum

/-- So do whole runs. -/
theorem view_run (es : List Event) (s : SlotCf K) (h : s.slots.OK) (howns : Owns s.view)
    (hfresh : Fresh s.view es) :
    (EventRun.run SlotCf.step s es).slots.OK ∧ (EventRun.run SlotCf.step s es).view = EventRun.run
      SlotOwnership.step s.view es := by
  induction es generalizing s with
  | nil => exact ⟨h, rfl⟩
  | cons e es ih =>
  obtain ⟨hok, hview⟩ := view_step h howns e
  obtain ⟨howns', hfresh'⟩ := howns.step hfresh
  rw [← hview] at howns' hfresh'
  obtain ⟨hok', hview'⟩ := ih (s.step e) hok howns' hfresh'
  refine ⟨hok', hview'.trans ?_⟩
  rw [hview]
  rfl

section Recovery

variable [UserKeyCodec K]

/-- The constructor on a pool file. -/
def SlotCf.new (raw : Memory) (eachSize number : Nat) : SlotCf K :=
  { dir := {}, slots := SlotArray.new raw eachSize number }

def SlotCf.recoverFile (f : FileMetaData K) (s : SlotCf K) : SlotCf K :=
  match s.dir.findFile f.number with
  | some _ => s
  | none =>
    { dir := (s.dir.addFile f.number f.nvmSstableIndex).setFile (recoveredEntry s.slots.view f)
      slots := s.slots.recoverAddSstable f.nvmSstableIndex }

def SlotCf.recoverFromStorageInfo (s : SlotCf K) (openByCreat : Bool)
    (l0 : List (FileMetaData K)) : SlotCf K :=
  if l0 = [] then s
  else if openByCreat then s
  else l0.foldr SlotCf.recoverFile s

theorem view_recoverFile (h : s.slots.OK) (f : FileMetaData K) :
    (SlotCf.recoverFile f s).slots.OK ∧
    (SlotCf.recoverFile f s).view = NvmRecover.recoverFile f s.view := by
  rw [SlotCf.recoverFile, NvmRecover.recoverFile]
  show _ ∧ _ = match s.dir.findFile f.number with
    | some _ => s.view
    | none => _
  cases s.dir.findFile f.number with
  | some e => exact ⟨h, rfl⟩
  | none =>
    obtain ⟨hok, hview⟩ := view_recoverAddSstable h f.nvmSstableIndex
    exact ⟨hok, congrArg (NvmCf.mk _) hview⟩

/-- And recovery. -/
theorem view_recover (h : s.slots.OK) (openByCreat : Bool) (l0 : List (FileMetaData K)) :
    (s.recoverFromStorageInfo openByCreat l0).slots.OK ∧
    (s.recoverFromStorageInfo openByCreat l0).view
      = NvmRecover.recoverFromStorageInfo s.view openByCreat l0 := by
  have hfold : ∀ fs : List (FileMetaData K), (fs.foldr SlotCf.recoverFile s).slots.OK ∧
      (fs.foldr SlotCf.recoverFile s).view = fs.foldr NvmRecover.recoverFile s.view := by
    intro fs
    induction fs with
    | nil => exact ⟨h, rfl⟩
    | cons f fs ih =>
    obtain ⟨hok, hview⟩ := view_recoverFile ih.1 f
    refine ⟨hok, ?_⟩
    rw [foldr_cons, foldr_cons, hview, ih.2]
  rw [SlotCf.recoverFromStorageInfo, NvmRecover.recoverFromStorageInfo]
  by_cases hnil : l0 = []
  · rw [if_pos hnil, if_pos hnil]
    exact ⟨h, rfl⟩
  rw [if_neg hnil, if_neg hnil]
  by_cases hcreat : openByCreat = true
  · rw [if_pos hcreat, if_pos hcreat]
    exact ⟨h, rfl⟩
  · rw [if_neg hcreat, if_neg hcreat]
    exact hfold l0

omit [UserKeyCodec K] in
/-- A new byte pool is seen as a module just opened. -/
theorem view_new (raw : Memory) (eachSize number : Nat) :
    (SlotCf.new (K := K) raw eachSize number).slots.OK ∧
    (SlotCf.new (K := K) raw eachSize number).view
      = reopen { raw := raw, bitmap := List.replicate number false
                 eachSize := eachSize, useNum := 0 } := by
  obtain ⟨hok, hview⟩ := ok_new raw eachSize number
  refine ⟨hok, ?_⟩
  have hnum : (⟨raw, List.replicate number false, eachSize, 0⟩ : Pool).num = number :=
    length_replicate
  rw [reopen, hnum]
  exact congrArg (NvmCf.mk _) hview

end Recovery

/-! ## Ownership -/

theorem num_step (s : SlotCf K) (e : Event) : (s.step e).slots.num = s.slots.num := by
  cases e with
  | add filenum =>
    simp only [SlotCf.step, SlotCf.addL0TableRoom, SlotArray.allocSstable]
    cases (List.range s.slots.num).find? (fun i => s.slots.bitmap.get i = 0) <;> rfl
  | delete filenum =>
    simp only [SlotCf.step, SlotCf.deleteL0file]
    cases s.dir.findFile filenum <;> rfl

theorem num_recoverAddSstable (p : SlotArray) (index : Nat) :
    (p.recoverAddSstable index).num = p.num := by
  rw [SlotArray.recoverAddSstable]
  split
  · rfl
  · split <;> rfl

theorem num_recover [UserKeyCodec K] (s : SlotCf K) (openByCreat : Bool)
    (l0 : List (FileMetaData K)) :
    (s.recoverFromStorageInfo openByCreat l0).slots.num = s.slots.num := by
  have hfold : ∀ fs : List (FileMetaData K),
      (fs.foldr SlotCf.recoverFile s).slots.num = s.slots.num := by
    intro fs
    induction fs with
    | nil => rfl
    | cons f fs ih =>
    rw [foldr_cons, SlotCf.recoverFile]
    cases (fs.foldr SlotCf.recoverFile s).dir.findFile f.number with
    | some e => exact ih
    | none => exact (num_recoverAddSstable _ _).trans ih
  rw [SlotCf.recoverFromStorageInfo]
  split
  · rfl
  split
  · rfl
  · exact hfold l0

/-- The entries own their slots: one slot each, in range, the set bits of the
    bitmap are exactly theirs and `use_num_` counts them; an allocation gives a
    slot that no entry has, and fails exactly when they have them all. -/
structure Ownership (s : SlotCf K) : Prop where
  slots : (s.dir.files.map FileEntry.sstableIndex).Nodup
  range : ∀ e ∈ s.dir.files, e.sstableIndex < s.slots.num
  bits : ∀ i, s.slots.bitmap.bit i = true ↔ ∃ e ∈ s.dir.files, e.sstableIndex = i
  get : ∀ i < s.slots.num, s.slots.bitmap.get i = 1 ↔ ∃ e ∈ s.dir.files, e.sstableIndex = i
  useNum : s.slots.useNum = s.dir.files.length
  alloc : ∀ index, s.slots.allocSstable.1 = some index →
    index < s.slots.num ∧ ∀ e ∈ s.dir.files, e.sstableIndex ≠ index
  full : s.slots.allocSstable.1 = none ↔
    ∀ i < s.slots.num, ∃ e ∈ s.dir.files, e.sstableIndex = i

/-- The invariant on the list of bits gives ownership on the bytes. -/
theorem Owns.ownership (howns : Owns s.view) (h : s.slots.OK) (hint : s.slots.num < 2 ^ 31) :
    Ownership s := by
  have hrange : ∀ e ∈ s.dir.files, e.sstableIndex < s.slots.num := by
    intro e he
    rw [← num_view]
    exact howns.slot_lt he
  have hbits : ∀ i, s.slots.bitmap.bit i = true ↔ ∃ e ∈ s.dir.files, e.sstableIndex = i := by
    intro i
    have hused := howns.used i
    rw [Represents.bits h i]
    rw [show s.view.pool.Used i = ((s.slots.bitmap.bits s.slots.num)[i]? = some true) from rfl]
      at hused
    rw [← show (∃ e ∈ s.view.dir.files, e.sstableIndex = i)
      = (∃ e ∈ s.dir.files, e.sstableIndex = i) from rfl, ← hused]
    cases (s.slots.bitmap.bits s.slots.num)[i]? with
    | none => exact iff_of_false (by decide) (by decide)
    | some b => simp
  -- pairwise different slots below `num_` are at most `num_` many
  have hcount : s.dir.files.length ≤ s.slots.num := by
    have hsub : (s.dir.files.map FileEntry.sstableIndex) ⊆ List.range s.slots.num := by
      intro i hi
      obtain ⟨e, he, rfl⟩ := mem_map.mp hi
      exact mem_range.mpr (hrange e he)
    have hle := (subperm_of_subset howns.slots hsub).length_le
    rw [length_range, length_map] at hle
    exact hle
  obtain ⟨-, halloc⟩ := view_allocSstable h
  have hfound : s.slots.allocSstable.1 = s.slots.view.allocSstable.1 := by rw [← halloc]
  have hspec := allocSstable_spec s.slots.view
  exact {
    slots := howns.slots
    range := hrange
    bits := hbits
    get := by
      intro i hi
      have hcur : i >>> 3 < s.slots.bitmap.gsize :=
        Represents.cur_lt h (by rw [length_bits]; exact hi)
      rw [← hbits, get_eq hcur.le]
      cases s.slots.bitmap.bit i <;> decide
    useNum := by
      have hmod : s.slots.useNum = s.dir.files.length % 2 ^ 64 := howns.useNum
      rw [hmod]
      exact Nat.mod_eq_of_lt (by omega)
    alloc := by
      intro index hindex
      rw [hfound] at hindex
      rcases hspec with ⟨hnone, -⟩ | ⟨i, hfree, -, hsome⟩
      · rw [hnone] at hindex
        exact nomatch hindex
      rw [hsome] at hindex
      rw [← Option.some.inj hindex]
      refine ⟨?_, ?_⟩
      · rw [← num_view]
        exact (List.getElem?_eq_some_iff.mp hfree).1
      · intro e he heq
        exact not_used_of_free (p := s.view.pool) hfree ((howns.used i).mpr ⟨e, he, heq⟩)
    full := by
      rw [hfound]
      rcases hspec with ⟨hnone, hall⟩ | ⟨i, hfree, -, hsome⟩
      · rw [hnone]
        refine iff_of_true rfl ?_
        intro i hi
        exact (howns.used i).mp (hall i (by rw [num_view]; exact hi))
      rw [hsome]
      refine iff_of_false nofun ?_
      intro hall
      have hi : i < s.slots.num := by
        rw [← num_view]
        exact (List.getElem?_eq_some_iff.mp hfree).1
      exact not_used_of_free (p := s.view.pool) hfree ((howns.used i).mpr (hall i hi)) }

/-- **SLOT OWNERSHIP** after the recovery of any version and any run of
    `AddL0TableRoom` and `DeleteL0file`.  Slot numbers are `int`s in the source,
    and so is the size the bitmap is made for. -/
theorem slots_owned [UserKeyCodec K] (raw : Memory) (eachSize number : Nat)
    (hint : number < 2 ^ 31) (openByCreat : Bool) (l0 : List (FileMetaData K)) (es : List Event)
    (hnumbers : (l0.map FileMetaData.number ++ added es).Nodup)
    (hslots : (l0.map FileMetaData.nvmSstableIndex).Nodup)
    (hrange : ∀ f ∈ l0, f.nvmSstableIndex < number) :
    Ownership (EventRun.run SlotCf.step
      ((SlotCf.new raw eachSize number).recoverFromStorageInfo openByCreat l0) es) := by
  obtain ⟨hnew, hview⟩ := view_new (K := K) raw eachSize number
  obtain ⟨hok, hrecovered⟩ := view_recover hnew openByCreat l0
  obtain ⟨hnodup, -, -⟩ := nodup_append.mp hnumbers
  obtain ⟨howns, hknown⟩ := owns_recover
    ⟨raw, List.replicate number false, eachSize, 0⟩ openByCreat hnodup hslots
    (fun f hf => (hrange f hf).trans_eq length_replicate.symm)
  rw [← hview, ← hrecovered] at howns hknown
  have hnum := num_recover (SlotCf.new raw eachSize number) openByCreat l0
  generalize (SlotCf.new raw eachSize number).recoverFromStorageInfo openByCreat l0 = s at *
  have hfresh : Fresh s.view es :=
    hnumbers.sublist (hknown.append (.refl (added es)))
  obtain ⟨hok', hrun⟩ := view_run es s hok howns hfresh
  refine Owns.ownership ?_ hok' ?_
  · rw [hrun]
    exact owns_run es s.view howns hfresh
  have hkeep : (EventRun.run SlotCf.step s es).slots.num = number :=
    EventRun.run_induction (I := fun t : SlotCf K => t.slots.num = number)
      (fun t e ht => (num_step t e).trans ht) es s hnum
  rw [hkeep]
  exact hint

/-- Two slots, one of them recovered; the second table fills the pool, and a
    deletion makes room. -/
theorem slots_owned_twoSlots :
    Ownership (EventRun.run SlotCf.step
      ((SlotCf.new (K := Fin 256) (fun _ => 0) 100 2).recoverFromStorageInfo false
        [{ number := 5, fileSize := 1, smallest := ⟨1, 1, .value⟩, largest := ⟨1, 1, .value⟩
           smallestSeqno := 1, largestSeqno := 1, isNvmLevel0 := true, firstKeyIndex := 0
           nvmSstableIndex := 1, keysNum := 0, keyPointFilenum := 0, rawFileSize := 0
           nvmMetaSize := 0 }])
      [.add 6, .add 7, .delete 5, .add 8]) :=
  slots_owned _ 100 2 (by decide) false _ _ (by decide) (by decide) (by decide)

end SlotOwnership
