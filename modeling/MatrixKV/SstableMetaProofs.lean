import MatrixKV.DbFormatProofs

/-! # The NVM table directory — utilities/nvm_mod/sstable_meta.{h,cc}

    `SstableMetadata` lists the tables kept in NVM, newest first.  Each
    `FileEntry` holds the metadata of its keys in key order; the keys of a newer
    table point into the next older one (`next`), so that a search can carry the
    position it reached in one row over to the next row.

    * `updateKeyNext` computes the cross-row pointers of a freshly built table.
    * `updateCompactionState` chooses the rows a column compaction works on:
      whatever it starts from, they are the oldest tables of level 0
      (`updateCompactionState_suffix`). -/

namespace SstableMeta

open List DbFormat

variable {K : Type}

structure KeysMetadata (K : Type) where
  key : InternalKey K
  /-- index of the key in the next older table, `-1` when there is none -/
  next : Int := -1
  offset : Nat
  size : Nat
  deriving DecidableEq, Repr

def KeysMetadata.userKey (m : KeysMetadata K) : K := m.key.userKey

structure FileEntry (K : Type) where
  filenum : Nat
  sstableIndex : Nat
  keysMeta : List (KeysMetadata K) := []
  keyPointFilenum : Nat := 0
  deriving DecidableEq, Repr

/-- The array `keys_meta` and its length `keys_num` are always set together. -/
def FileEntry.keysNum (f : FileEntry K) : Nat := f.keysMeta.length

structure SstableMetadata (K : Type) where
  compactionFiles : List Nat := []
  /-- newest first -/
  files : List (FileEntry K) := []
  deriving DecidableEq, Repr

/-! ## The directory -/

/-- `AddFile`: a new table goes to the front. -/
def SstableMetadata.addFile (s : SstableMetadata K) (filenumber index : Nat) :
    SstableMetadata K :=
  { s with files := { filenum := filenumber, sstableIndex := index } :: s.files }

def SstableMetadata.findFile (s : SstableMetadata K) (filenumber : Nat) :
    Option (FileEntry K) :=
  s.files.find? (fun f => f.filenum = filenumber)

/-- `DeteleFile`: the first entry of that number is erased. -/
def SstableMetadata.deteleFile (s : SstableMetadata K) (filenumber : Nat) :
    SstableMetadata K :=
  { s with files := s.files.eraseP (fun f => f.filenum = filenumber) }

/-- Where numbers are unique, `DeteleFile` erases the entry of its number. -/
theorem mem_deteleFile_iff {s : SstableMetadata K} (h : (s.files.map FileEntry.filenum).Nodup)
    (filenumber : Nat) (o : FileEntry K) :
    o ∈ (s.deteleFile filenumber).files ↔ o ∈ s.files ∧ o.filenum ≠ filenumber := by
  constructor
  · intro ho
    refine ⟨mem_of_mem_eraseP ho, ?_⟩
    intro hnum
    obtain ⟨a, l₁, l₂, -, ha, hfiles, herase⟩ := exists_of_eraseP
      (p := fun f => f.filenum = filenumber) (mem_of_mem_eraseP ho) (by simpa using hnum)
    -- the erased entry is the only one with its number
    have hamem : a ∈ s.files := by
      rw [hfiles]
      exact mem_append_right _ (.head _)
    have hoa : o = a := by
      refine inj_on_of_nodup_map h (mem_of_mem_eraseP ho) hamem ?_
      rw [hnum]
      exact (of_decide_eq_true ha).symm
    have hnodup := List.Nodup.of_map _ h
    rw [hfiles] at hnodup
    have hnot := (nodup_middle.mp hnodup)
    rw [nodup_cons] at hnot
    refine hnot.1 ?_
    rw [← herase, ← hoa]
    exact ho
  · rintro ⟨ho, hne⟩
    exact (mem_eraseP_of_neg (by simpa using hne)).mpr ho

/-- Where numbers are unique, `FindFile` finds the entry of a number. -/
theorem findFile_of_nodup {s : SstableMetadata K} (h : (s.files.map FileEntry.filenum).Nodup)
    {e : FileEntry K} (he : e ∈ s.files) : s.findFile e.filenum = some e := by
  cases hf : s.findFile e.filenum with
  | none => exact absurd (decide_eq_true rfl) (find?_eq_none.mp hf e he)
  | some o =>
    have hnum : o.filenum = e.filenum := by simpa using find?_some hf
    rw [inj_on_of_nodup_map h (mem_of_find?_eq_some hf) he hnum]

def SstableMetadata.deleteCompactionFile (s : SstableMetadata K) (filenumber : Nat) :
    SstableMetadata K :=
  { s with compactionFiles := s.compactionFiles.erase filenumber }

/-- Replace the entry of `file`'s number. -/
def replaceFile (file : FileEntry K) : List (FileEntry K) → List (FileEntry K)
  | [] => []
  | e :: es => if e.filenum = file.filenum then file :: es else e :: replaceFile file es

/-- Write a table through its `FileEntry` pointer. -/
def SstableMetadata.setFile (s : SstableMetadata K) (file : FileEntry K) : SstableMetadata K :=
  { s with files := replaceFile file s.files }

/-- The two-pointer walk of `GetL0Files`: the listed files are looked up in
    order, and the walk gives up at the first one that is not found. -/
def matchL0Files : List (FileMetaData K) → List (FileEntry K) → List (FileEntry K)
  | [], _ => []
  | f :: fs, files =>
    match files.dropWhile (fun e => e.filenum ≠ f.number) with
    | [] => []
    | e :: es => e :: matchL0Files fs es

def SstableMetadata.getL0Files (s : SstableMetadata K) (l0 : List (FileMetaData K)) :
    List (FileEntry K) :=
  matchL0Files l0 s.files

/-! ## The rows of a column compaction -/

/-- The comparison from the back of `UpdateCompactionState`, on reversed lists.
    A level 0 that is too short counts as different. -/
def consistentFromBack : List Nat → List Nat → Bool
  | [], _ => true
  | _ :: _, [] => false
  | c :: cs, l :: ls => if c = l then consistentFromBack cs ls else false

/-- `UpdateCompactionState`: keep the rows chosen earlier while they are still
    the oldest tables, otherwise take all of level 0.  (The size sums of the
    source feed log lines only.) -/
def SstableMetadata.updateCompactionState (s : SstableMetadata K)
    (l0 : List (FileMetaData K)) : SstableMetadata K :=
  if s.compactionFiles ≠ [] ∧
      consistentFromBack s.compactionFiles.reverse (l0.map FileMetaData.number).reverse then s
  else { s with compactionFiles := l0.map FileMetaData.number }

theorem consistentFromBack_sound :
    ∀ {cs ls : List Nat}, consistentFromBack cs ls = true → cs <+: ls := by
  intro cs
  induction cs with
  | nil => intro ls _; exact nil_prefix
  | cons c cs ih =>
  intro ls h
  cases ls with
  | nil => exact nomatch h
  | cons l ls =>
  rw [consistentFromBack] at h
  split at h
  · rename_i hcl
    rw [hcl, cons_prefix_cons]
    exact ⟨rfl, ih h⟩
  · exact nomatch h

theorem consistentFromBack_complete :
    ∀ {cs ls : List Nat}, cs <+: ls → consistentFromBack cs ls = true := by
  intro cs
  induction cs with
  | nil => intro ls _; rfl
  | cons c cs ih =>
  intro ls h
  cases ls with
  | nil => exact absurd (prefix_nil.mp h) (cons_ne_nil c cs)
  | cons l ls =>
  obtain ⟨hcl, hrest⟩ := cons_prefix_cons.mp h
  rw [consistentFromBack, if_pos hcl]
  exact ih hrest

@[simp] theorem updateCompactionState_files (s : SstableMetadata K)
    (l0 : List (FileMetaData K)) : (s.updateCompactionState l0).files = s.files := by
  unfold SstableMetadata.updateCompactionState
  split <;> rfl

/-- **THE ROWS**: a column compaction always works on the oldest tables of
    level 0, and on at least one of them. -/
theorem updateCompactionState_suffix (s : SstableMetadata K)
    {l0 : List (FileMetaData K)} (hne : l0 ≠ []) :
    ∃ newer rows, l0 = newer ++ rows ∧ rows ≠ [] ∧
      (s.updateCompactionState l0).compactionFiles = rows.map FileMetaData.number := by
  unfold SstableMetadata.updateCompactionState
  split
  · rename_i h
    obtain ⟨hcf, hcons⟩ := h
    have hsuf : s.compactionFiles <:+ l0.map FileMetaData.number :=
      reverse_prefix.mp (consistentFromBack_sound hcons)
    obtain ⟨pre, hpre⟩ := hsuf
    obtain ⟨newer, rows, hl0, -, hrows⟩ := map_eq_append_iff.mp hpre.symm
    refine ⟨newer, rows, hl0, ?_, hrows.symm⟩
    intro hnil
    rw [hnil] at hrows
    exact hcf hrows.symm
  · exact ⟨[], l0, rfl, hne, rfl⟩

/-! ## Cross-row pointers -/

variable [LinearOrder K]

/-- The `old_index++` branch of `UpdateKeyNext`: skip the old keys below `key`. -/
def skipOlder (key : InternalKey K) :
    List (KeysMetadata K) → Nat → List (KeysMetadata K) × Nat
  | [], i => ([], i)
  | o :: os, i => if icmp o.key key ≠ .lt then (o :: os, i) else skipOlder key os (i + 1)

/-- The loop of `UpdateKeyNext`: each new key points at the first old key that
    is not below it; once the old keys are used up `next` stays as it is. -/
def linkKeys : List (KeysMetadata K) → List (KeysMetadata K) → Nat → List (KeysMetadata K)
  | [], _, _ => []
  | n :: ns, old, i =>
    match skipOlder n.key old i with
    | ([], _) => n :: ns
    | (o :: os, j) => { n with next := j } :: linkKeys ns (o :: os) j

/-- The entry behind the one numbered `filenum`. -/
def nextFile (filenum : Nat) : List (FileEntry K) → Option (FileEntry K)
  | [] => none
  | e :: es => if e.filenum = filenum then es.head? else nextFile filenum es

/-- `UpdateKeyNext(file)`, returning the table with its pointers set.  The indices are
    `int32_t` in the source, so both tables are to have at most 2^31 - 1 keys. -/
def SstableMetadata.updateKeyNext (s : SstableMetadata K) (file : FileEntry K) :
    FileEntry K :=
  if file.keysNum = 0 then file
  else
    match nextFile file.filenum s.files with
    | none => file
    | some nf =>
      { file with
        keysMeta := linkKeys file.keysMeta nf.keysMeta 0
        keyPointFilenum := nf.filenum }

theorem skipOlder_spec (key : InternalKey K) (old : List (KeysMetadata K)) (i : Nat) :
    ∃ skipped, old = skipped ++ (skipOlder key old i).1 ∧ (skipOlder key old i).2 = i +
      skipped.length ∧ (∀ o ∈ skipped, o.key.rank < key.rank) ∧ ∀ o ∈ (skipOlder key old i).1.head?,
      key.rank ≤ o.key.rank := by
  induction old generalizing i with
  | nil =>
    refine ⟨[], rfl, rfl, ?_, ?_⟩
    · intro o ho
      exact nomatch ho
    · intro o ho
      exact nomatch ho
  | cons o os ih =>
  rw [skipOlder]
  split_ifs with h
  · refine ⟨[], rfl, rfl, ?_, ?_⟩
    · intro x hx
      exact nomatch hx
    · intro x hx
      have hxo : o = x := Option.some.inj hx
      exact hxo ▸ (icmp_ge_iff _ _).mp h
  obtain ⟨skipped, heq, hidx, hlt, hhead⟩ := ih (i + 1)
  refine ⟨o :: skipped, by rw [cons_append, ← heq], ?_, ?_, hhead⟩
  · rw [hidx, length_cons]
    omega
  · intro x hx
    rcases mem_cons.mp hx with rfl | hx
    · exact (icmp_lt_iff _ _).mp (not_not.mp h)
    · exact hlt x hx

/-- The promise of the pointers of `e` about the table `o`: the key a pointer
    names is not below the pointing key, and everything before it is. -/
def LinkOK (e o : FileEntry K) : Prop :=
  ∀ m ∈ e.keysMeta, m.next = -1 ∨
    ∃ j : Nat, m.next = j ∧ j < o.keysNum ∧
      (∀ i x, i < j → o.keysMeta[i]? = some x → x.key.rank < m.key.rank) ∧
      ∀ x, o.keysMeta[j]? = some x → m.key.rank ≤ x.key.rank

/-- The pointer of `m` is the least index of a key that is not below it, or there is none. -/
def LowerBound (old : List (KeysMetadata K)) (m : KeysMetadata K) : Prop :=
  (m.next = -1 ∧ ∀ x ∈ old, x.key.rank < m.key.rank) ∨
    ∃ j : Nat, m.next = j ∧ j < old.length ∧
      (∀ i x, i < j → old[i]? = some x → x.key.rank < m.key.rank) ∧
      ∀ x, old[j]? = some x → m.key.rank ≤ x.key.rank

/-- The loop links sorted keys without pointers exactly, when everything it has skipped is
    below them. -/
theorem linkKeys_lowerBound (old : List (KeysMetadata K)) :
    ∀ (new : List (KeysMetadata K)) (i : Nat),
      new.Pairwise (fun a b => a.key.rank ≤ b.key.rank) → (∀ m ∈ new, m.next = -1) →
      (∀ idx x, idx < i → old[idx]? = some x → ∀ n ∈ new, x.key.rank < n.key.rank) →
      ∀ m ∈ linkKeys new (old.drop i) i, LowerBound old m := by
  intro new
  induction new with
  | nil => exact fun _ _ _ _ => nofun
  | cons n ns ih =>
  intro i hsorted hnext hbelow m hm
  obtain ⟨hn, hns⟩ := pairwise_cons.mp hsorted
  obtain ⟨skipped, hsplit, hidx, hskip, hhead⟩ := skipOlder_spec n.key (old.drop i) i
  rw [linkKeys] at hm
  cases hsk : skipOlder n.key (old.drop i) i with
  | mk rest j =>
  rw [hsk] at hm hsplit hidx hhead
  simp only at hsplit hidx hhead hm
  -- everything before `j` is below the new key
  have hlt : ∀ idx x, idx < j → old[idx]? = some x → x.key.rank < n.key.rank := by
    intro idx x hx hget
    by_cases hi : idx < i
    · exact hbelow idx x hi hget n (.head _)
    refine hskip x ?_
    have hget' : (old.drop i)[idx - i]? = some x := by
      rw [getElem?_drop, Nat.add_sub_cancel' (by omega)]
      exact hget
    rw [hsplit, getElem?_append_left (by omega)] at hget'
    exact mem_of_getElem? hget'
  cases rest with
  | nil =>
    refine .inl ⟨hnext m hm, fun x hx => ?_⟩
    have hlen : old.length ≤ j := by
      have hlen := congrArg List.length hsplit
      rw [append_nil, length_drop] at hlen
      omega
    obtain ⟨idx, hidx, rfl⟩ := mem_iff_getElem.mp hx
    have hxn := hlt idx _ (by omega) (getElem?_eq_getElem hidx)
    rcases mem_cons.mp hm with rfl | hm
    · exact hxn
    · exact hxn.trans_le (hn m hm)
  | cons o os =>
  have hdrop : old.drop j = o :: os := by
    rw [hidx, ← drop_drop, hsplit, drop_left]
  have hj : old[j]? = some o := by
    rw [← head?_drop, hdrop]
    rfl
  rcases mem_cons.mp hm with rfl | hm
  · refine .inr ⟨j, rfl, (List.getElem?_eq_some_iff.mp hj).1, hlt, ?_⟩
    intro x hx
    rw [hj, Option.some.injEq] at hx
    exact hx ▸ hhead o rfl
  · rw [← hdrop] at hm
    refine ih j hns (fun x hx => hnext x (.tail n hx)) ?_ m hm
    exact fun idx x hx hget y hy => (hlt idx x hx hget).trans_le (hn y hy)

/-- What a record of a key says besides its pointer. -/
def KeysMetadata.core (m : KeysMetadata K) : InternalKey K × Nat × Nat :=
  (m.key, m.offset, m.size)

theorem linkKeys_core (new : List (KeysMetadata K)) :
    ∀ (old : List (KeysMetadata K)) (i : Nat),
      (linkKeys new old i).map KeysMetadata.core = new.map KeysMetadata.core := by
  induction new with
  | nil => intro old i; rfl
  | cons n ns ih =>
  intro old i
  rw [linkKeys]
  cases skipOlder n.key old i with
  | mk rest j =>
  cases rest with
  | nil => rfl
  | cons o os =>
    simp only [map_cons, ih]
    rfl

/-- **THE POINTERS**: `UpdateKeyNext` changes pointers only, and what it sets for
    a sorted table without pointers is sound for the table behind it. -/
theorem updateKeyNext_spec (s : SstableMetadata K) (f : FileEntry K) :
    (s.updateKeyNext f).filenum = f.filenum ∧
    (s.updateKeyNext f).sstableIndex = f.sstableIndex ∧
    (s.updateKeyNext f).keysMeta.map KeysMetadata.core = f.keysMeta.map KeysMetadata.core := by
  rw [SstableMetadata.updateKeyNext]
  split_ifs with h
  · exact ⟨rfl, rfl, rfl⟩
  cases nextFile f.filenum s.files with
  | none => exact ⟨rfl, rfl, rfl⟩
  | some nf => exact ⟨rfl, rfl, linkKeys_core _ _ _⟩

/-- The pointers of a sorted table without pointers, linked to the table behind it. -/
theorem linkKeys_sorted {new : List (KeysMetadata K)} (old : List (KeysMetadata K))
    (hsorted : new.Pairwise (fun a b => a.key.rank ≤ b.key.rank))
    (hnext : ∀ m ∈ new, m.next = -1) : ∀ m ∈ linkKeys new old 0, LowerBound old m :=
  linkKeys_lowerBound old new 0 hsorted hnext fun idx _ hidx => absurd hidx (Nat.not_lt_zero idx)

theorem updateKeyNext_link (s : SstableMetadata K) {f : FileEntry K}
    (hsorted : SortedKeys (f.keysMeta.map KeysMetadata.key))
    (hnext : ∀ m ∈ f.keysMeta, m.next = -1) :
    s.updateKeyNext f = f ∨ ∃ nf, nextFile f.filenum s.files = some nf ∧
      (s.updateKeyNext f).keyPointFilenum = nf.filenum ∧ LinkOK (s.updateKeyNext f) nf := by
  rw [SstableMetadata.updateKeyNext]
  split_ifs with h
  · exact .inl rfl
  cases hnf : nextFile f.filenum s.files with
  | none => exact .inl rfl
  | some nf =>
  have hle := (pairwise_map.mp hsorted).imp fun hlt => hlt.le
  exact .inr ⟨nf, rfl, rfl, fun m hm =>
    (linkKeys_sorted nf.keysMeta hle hnext m hm).imp_left And.left⟩

/-- Least indices of growing keys grow. -/
theorem LowerBound.mono {old : List (KeysMetadata K)} {a b : KeysMetadata K}
    (ha : LowerBound old a) (hb : LowerBound old b) (hab : a.key.rank ≤ b.key.rank)
    (hanext : 0 ≤ a.next) (hbnext : 0 ≤ b.next) : a.next ≤ b.next := by
  rcases ha with ⟨hnone, -⟩ | ⟨i, hi, -, hbefore, -⟩
  · omega
  rcases hb with ⟨hnone, -⟩ | ⟨j, hj, hlt, -, hat⟩
  · omega
  rw [hi, hj, Int.ofNat_le]
  by_contra hij
  have hget := getElem?_eq_getElem hlt
  exact absurd (hbefore j _ (by omega) hget) (not_lt.mpr (hab.trans (hat _ hget)))

/-- **EVERY POINTER IS A LOWER BOUND**: a new table, sorted and without pointers, gets for
    each key the least index of a key of the next older table that is not below it, or -1; the
    pointers grow, and the older table is named. A table without keys stays as it is. -/
theorem updateKeyNext_lowerBounds (s : SstableMetadata K) (f nf : FileEntry K)
    (hnf : nextFile f.filenum s.files = some nf)
    (hsorted : f.keysMeta.Pairwise (fun a b => a.key.rank ≤ b.key.rank))
    (hnext : ∀ m ∈ f.keysMeta, m.next = -1) :
    (s.updateKeyNext f).keysMeta.map KeysMetadata.core = f.keysMeta.map KeysMetadata.core ∧
    (∀ m ∈ (s.updateKeyNext f).keysMeta, LowerBound nf.keysMeta m) ∧
    (s.updateKeyNext f).keysMeta.Pairwise
      (fun a b => 0 ≤ a.next → 0 ≤ b.next → a.next ≤ b.next) ∧
    (f.keysMeta ≠ [] → (s.updateKeyNext f).keyPointFilenum = nf.filenum) ∧
    (f.keysMeta = [] → s.updateKeyNext f = f) := by
  have hcore := (updateKeyNext_spec s f).2.2
  refine ⟨hcore, ?_⟩
  have hranks : (s.updateKeyNext f).keysMeta.Pairwise (fun a b => a.key.rank ≤ b.key.rank) := by
    have hmap : (f.keysMeta.map KeysMetadata.core).Pairwise (fun a b => a.1.rank ≤ b.1.rank) :=
      pairwise_map.mpr hsorted
    rw [← hcore] at hmap
    exact (pairwise_map (f := KeysMetadata.core)).mp hmap
  rw [SstableMetadata.updateKeyNext] at hranks ⊢
  by_cases hnum : f.keysNum = 0
  · -- `UpdateKeyNext` returns at once
    have hnil : f.keysMeta = [] := eq_nil_of_length_eq_zero hnum
    rw [if_pos hnum, hnil]
    exact ⟨forall_mem_nil _, Pairwise.nil, fun hne => absurd rfl hne, fun _ => rfl⟩
  rw [if_neg hnum, hnf] at hranks ⊢
  have hlower := linkKeys_sorted nf.keysMeta hsorted hnext
  exact ⟨hlower, hranks.imp_of_mem fun ha hb hab => (hlower _ ha).mono (hlower _ hb) hab,
    fun _ => rfl, fun hnil => absurd (congrArg length hnil) hnum⟩

/-- Two keys over a table with three, the second of them above all. -/
theorem updateKeyNext_lowerBounds_twoKeys :
    LowerBound (K := Nat) [⟨⟨1, 1, .value⟩, -1, 0, 9⟩, ⟨⟨4, 1, .value⟩, -1, 9, 9⟩]
        ⟨⟨3, 5, .value⟩, 1, 0, 9⟩ ∧
      LowerBound (K := Nat) [⟨⟨1, 1, .value⟩, -1, 0, 9⟩, ⟨⟨4, 1, .value⟩, -1, 9, 9⟩]
        ⟨⟨8, 6, .value⟩, -1, 9, 9⟩ := by
  have h := (updateKeyNext_lowerBounds (K := Nat)
    { files := [⟨2, 1, [], 0⟩,
      ⟨1, 0, [⟨⟨1, 1, .value⟩, -1, 0, 9⟩, ⟨⟨4, 1, .value⟩, -1, 9, 9⟩], 0⟩] }
    ⟨2, 1, [⟨⟨3, 5, .value⟩, -1, 0, 9⟩, ⟨⟨8, 6, .value⟩, -1, 9, 9⟩], 0⟩ _ rfl
    (by decide) (by decide)).2.1
  exact ⟨h _ (.head _), h _ (.tail _ (.head _))⟩

/-- A table without keys does not name the older one. -/
theorem updateKeyNext_empty : ∃ (s : SstableMetadata Nat) (f nf : FileEntry Nat),
    nextFile f.filenum s.files = some nf ∧ nf.keysMeta ≠ [] ∧
      (s.updateKeyNext f).keyPointFilenum ≠ nf.filenum :=
  ⟨{ files := [⟨2, 1, [], 0⟩, ⟨1, 0, [⟨⟨1, 1, .value⟩, -1, 0, 9⟩], 0⟩] }, ⟨2, 1, [], 0⟩, _, rfl,
    cons_ne_nil _ _, by decide⟩

end SstableMeta
