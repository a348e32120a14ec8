import MatrixKV.ColumnInstallProofs
import MatrixKV.EventRunProofs

/-! # The rows of column compactions over runs — UpdateCompactionState

    `compaction_files` outlives the compactions: level 0 grows in front while the
    set keeps its rows, and a finished compaction takes the tables it emptied out
    of both.

    * `updateByIndex` is `UpdateCompactionState` with the indices of the source:
      `none` says that `L0files` is read below index 0.
    * `Inv.step` — whatever happens, the set only has numbers of level 0, in the
      order of level 0.
    * `updateByIndex_oldest` — in every state of a run the update stays in range,
      and leaves the oldest tables of level 0. -/

namespace CompactionSet

open List DbFormat SstableMeta Overlap ColumnPick ColumnEntries ColumnRows ColumnInstall
  VersionBuilder EventRun

variable {K : Type}

/-! ## The update by index -/

/-- A vector at an `int` index; `none` out of range. -/
def atIndex (l : List Nat) (i : Int) : Option Nat := if i < 0 then none else l[i.toNat]?

/-- The loop of the check.  `comfile` is one below the first argument, which
    counts down. -/
def consistencyLoop (compactionFiles l0 : List Nat) : Nat → Int → Option Bool
  | 0, _ => some true
  | comfile + 1, l0file =>
    match atIndex compactionFiles comfile, atIndex l0 l0file with
    | some c, some l =>
      if c = l then consistencyLoop compactionFiles l0 comfile (l0file - 1) else some false
    | _, _ => none

def updateByIndex (s : SstableMetadata K) (l0 : List (FileMetaData K)) :
    Option (SstableMetadata K) :=
  -- the numbers are inserted at the front, from the oldest table on
  let selected := { s with compactionFiles := l0.foldr (fun f cs => f.number :: cs) [] }
  if s.compactionFiles = [] then some selected
  else
    match consistencyLoop s.compactionFiles (l0.map FileMetaData.number) s.compactionFiles.length
        ((l0.length : Int) - 1) with
    | none => none
    | some true => some s
    | some false => some selected

theorem atIndex_natCast {l : List Nat} {n : Nat} (h : n < l.length) :
    atIndex l (n : Nat) = some l[n] := by
  rw [atIndex, if_neg (by omega), Int.toNat_natCast, getElem?_eq_getElem h]

/-- With `d` tables of level 0 passed, and enough tables left, the loop compares
    from the back. -/
theorem consistencyLoop_eq (cf l0 : List Nat) (n d : Nat) (hn : n ≤ cf.length)
    (hd : n + d ≤ l0.length) :
    consistencyLoop cf l0 n ((l0.length : Int) - 1 - d) = some
      (consistentFromBack (cf.take n).reverse (l0.reverse.drop d)) := by
  induction n generalizing d with
  | zero => rfl
  | succ n ih =>
  have hidx : (l0.length : Int) - 1 - d = (l0.length - 1 - d : Nat) := by omega
  have hnext : (l0.length : Int) - 1 - d - 1 = l0.length - 1 - (d + 1 : Nat) := by omega
  have hdrop : l0.reverse.drop d = l0[l0.length - 1 - d] :: l0.reverse.drop (d + 1) := by
    rw [drop_eq_getElem_cons (by rw [length_reverse]; omega), getElem_reverse]
  have htake : (cf.take (n + 1)).reverse = cf[n] :: (cf.take n).reverse := by
    rw [take_succ_eq_append_getElem (by omega), reverse_append]
    rfl
  have hrest := ih (d + 1) (by omega) (by omega)
  rw [consistencyLoop, hnext, hrest, hidx, atIndex_natCast (by omega),
    atIndex_natCast (by omega), hdrop, htake]
  simp only [consistentFromBack]
  by_cases h : cf[n] = l0[l0.length - 1 - d]
  · rw [if_pos h, if_pos h]
  · rw [if_neg h, if_neg h]

variable {l0 : List (FileMetaData K)}

/-- A set that is no longer than level 0 is compared in range. -/
theorem updateByIndex_eq (s : SstableMetadata K) (hlen : s.compactionFiles.length ≤ l0.length) :
    updateByIndex s l0 = some (s.updateCompactionState l0) := by
  have hselect : l0.foldr (fun f cs => f.number :: cs) [] = l0.map FileMetaData.number := by
    rw [map_eq_foldr]
  rw [updateByIndex, SstableMetadata.updateCompactionState, hselect]
  by_cases hempty : s.compactionFiles = []
  · rw [if_pos hempty, if_neg (fun h => h.1 hempty)]
  have hloop := consistencyLoop_eq s.compactionFiles (l0.map FileMetaData.number)
    s.compactionFiles.length 0 le_rfl (by rw [length_map]; exact hlen)
  rw [length_map, Nat.cast_zero, sub_zero, take_length, drop_zero] at hloop
  rw [if_neg hempty, hloop]
  cases hc : consistentFromBack s.compactionFiles.reverse
      (l0.map FileMetaData.number).reverse with
  | true => rw [if_pos ⟨hempty, rfl⟩]
  | false => rw [if_neg (fun h => Bool.false_ne_true h.2)]

/-- The set after an update is the numbers of the oldest tables. -/
theorem updateCompactionState_isSuffix (s : SstableMetadata K) (l0 : List (FileMetaData K)) :
    (s.updateCompactionState l0).compactionFiles <:+ l0.map FileMetaData.number := by
  rw [SstableMetadata.updateCompactionState]
  split
  · rename_i h
    exact reverse_prefix.mp (consistentFromBack_sound h.2)
  · exact suffix_refl _

theorem updateCompactionState_of_suffix {s : SstableMetadata K} (hne : s.compactionFiles ≠ [])
    (h : s.compactionFiles <:+ l0.map FileMetaData.number) : s.updateCompactionState l0 = s := by
  rw [SstableMetadata.updateCompactionState,
    if_pos ⟨hne, consistentFromBack_complete <| reverse_prefix.mpr h⟩]

/-! ## Runs -/

structure State (K : Type) where
  dir : SstableMetadata K := {}
  /-- level 0 of the current version -/
  l0 : List (FileMetaData K) := []
  /-- the column compaction between its pick and its end -/
  running : Option (ColumnCompactionItem K) := none

inductive Event (K : Type)
  /-- flush jobs add tables to the directory, and unlisted ones are deleted -/
  | directory (files : List (FileEntry K))
  /-- a flush is committed -/
  | flush (f : FileMetaData K)
  | pick (opts : NvmCfOptions) (level1 : List (FileMetaData K))
  /-- the compaction succeeds -/
  | install
  /-- the compaction fails or is given up -/
  | fail
  /-- the edit is not written, but `InstallColumnCompactionItem` is called -/
  | notLogged
  /-- the database is opened again -/
  | reopen (files : List (FileEntry K))

def installColumnCompactionItem (dir : SstableMetadata K) (item : ColumnCompactionItem K) :
    SstableMetadata K :=
  (addInputDeletions item).2.foldl SstableMetadata.deleteCompactionFile dir

variable {dir : SstableMetadata K}

section Run

variable [LinearOrder K]

def step (s : State K) : Event K → State K
  | .directory files => { s with dir := { s.dir with files := files } }
  | .flush f => { s with l0 := applyEdit s.l0 { newFiles := [f] } }
  | .pick opts level1 =>
    match s.running with
    -- only one column compaction at a time
    | some _ => s
    | none =>
      let picked := pickColumnCompaction opts s.dir ⟨s.l0, level1⟩
      { s with dir := picked.1, running := picked.2 }
  | .install =>
    match s.running with
    | none => s
    | some item =>
      { dir := installColumnCompactionItem s.dir item
        l0 := applyEdit s.l0 (addInputDeletions item).1
        running := none }
  | .fail => { s with running := none }
  | .notLogged =>
    match s.running with
    | none => s
    | some item =>
      { s with dir := installColumnCompactionItem s.dir item, running := none }
  | .reopen files => { dir := { files := files }, l0 := s.l0, running := none }

/-- The events as the rest of the database makes them: the directory keeps the
    entries of listed tables, a flushed table is well formed and newer than the
    listed ones, and recovery finds the listed tables. -/
def Allowed (s : State K) : Event K → Prop
  | .directory files => ∀ f ∈ s.l0,
      ({ s.dir with files := files } : SstableMetadata K).findFile f.number
        = s.dir.findFile f.number
  | .flush f => NvmTables s.dir (f :: s.l0)
  | .pick _ level1 => LevelSorted level1
  | .reopen files => NvmTables { files := files } s.l0
  | _ => True

/-- A run of allowed events. -/
def Valid (es : List (Event K)) : Prop := Never step (fun s e => ¬ Allowed s e) {} es

/-! ## What a run keeps -/

structure Inv (s : State K) : Prop where
  tables : NvmTables s.dir s.l0
  ordered : s.dir.compactionFiles.Sublist (s.l0.map FileMetaData.number)
  running : ∀ item, s.running = some item → ∃ sst l0 sel, Selected sst l0 item sel ∧
    KeptTables sst s.dir l0 s.l0

/-- Level 0 only sees the entries of its tables. -/
theorem NvmTables.of_findFile {dir' : SstableMetadata K} (h : NvmTables dir l0)
    (hfind : ∀ f ∈ l0, dir'.findFile f.number = dir.findFile f.number) : NvmTables dir' l0 := by
  have hentry : ∀ f ∈ l0, entryOf dir' f = entryOf dir f := by
    intro f hf
    rw [entryOf, entryOf, hfind f hf]
  refine ⟨⟨h.nodup, ?_, ?_, ?_, ?_⟩, h.newestFirst, h.nvm, ?_⟩
  · intro f hf
    rw [hfind f hf, hentry f hf]
    exact h.found f hf
  all_goals
    intro f hf
    rw [hentry f hf]
  · exact h.sorted f hf
  · exact h.remaining f hf
  · exact h.points f hf
  · exact h.keysNum f hf

theorem KeptTables.of_findFile {sst dir' : SstableMetadata K} {cur : List (FileMetaData K)}
    (h : KeptTables sst dir l0 cur)
    (hfind : ∀ f ∈ cur, dir'.findFile f.number = dir.findFile f.number) :
    KeptTables sst dir' l0 cur := by
  refine ⟨NvmTables.of_findFile h.level hfind, h.mem, ?_⟩
  intro f hf
  rw [entryOf, hfind f (h.mem f hf)]
  exact h.entry f hf

/-- A flush goes to the front. -/
theorem applyEdit_flush {f : FileMetaData K} (h : NvmTables dir (f :: l0)) :
    applyEdit l0 { newFiles := [f] } = f :: l0 :=
  applyEdit_newest h.newestFirst (h.nvm f (.head _)) (nodup_cons.mp h.nodup).1

/-! ## The end of a compaction -/

omit [LinearOrder K] in
theorem deleteCompactionFiles_eq (ns : List Nat) :
    ∀ dir : SstableMetadata K, dir.compactionFiles.Nodup →
      ns.foldl SstableMetadata.deleteCompactionFile dir
        = { dir with compactionFiles := dir.compactionFiles.filter (fun n => n ∉ ns) } := by
  induction ns with
  | nil =>
    intro dir _
    simp
  | cons n ns ih =>
  intro dir hnodup
  rw [foldl_cons, ih _ (hnodup.sublist erase_sublist)]
  have hfilter : (dir.compactionFiles.erase n).filter (fun x => x ∉ ns)
      = dir.compactionFiles.filter (fun x => x ∉ n :: ns) := by
    rw [hnodup.erase_eq_filter, filter_filter]
    refine filter_congr ?_
    intro x _
    rw [Bool.eq_iff_iff]
    simp only [Bool.and_eq_true, decide_eq_true_eq, bne_iff_ne, ne_eq, mem_cons, not_or, and_comm]
  rw [SstableMetadata.deleteCompactionFile]
  simp only [hfilter]

section End

variable {sst dir : SstableMetadata K} {l0 cur : List (FileMetaData K)}
  {item : ColumnCompactionItem K} {sel : List (FileMetaData K × (Nat × Nat))}

omit [LinearOrder K] in
/-- `column_compaction_delete_file_`: the tables that were chosen to the end. -/
theorem mem_deletions_iff (hsel : Selected sst l0 item sel) (n : Nat) :
    n ∈ (addInputDeletions item).2 ↔ ∃ f num size, (f, (num, size)) ∈ sel ∧
      f.firstKeyIndex + num = (entryOf sst f).keysNum ∧ f.number = n := by
  rw [addInputDeletions, hsel.files, hsel.l0Files, hsel.keysNum, hsel.keysSize, zip_map',
    zip_map', zip_map']
  simp only [mem_map, mem_filter, decide_eq_true_eq]
  constructor
  · rintro ⟨_, ⟨⟨⟨f, num, size⟩, hp, rfl⟩, hall⟩, rfl⟩
    exact ⟨f, num, size, hp, hall, (entryOf_filenum sst f).symm⟩
  · rintro ⟨f, num, size, hp, hall, rfl⟩
    exact ⟨_, ⟨⟨(f, (num, size)), hp, rfl⟩, hall⟩, entryOf_filenum sst f⟩

/-- A table of the current version is gone exactly when it is one of them. -/
theorem advance_eq_none_iff (hsel : Selected sst l0 item sel) (hk : KeptTables sst dir l0 cur)
    {f : FileMetaData K} (hf : f ∈ cur) :
    advance dir sel f = none ↔ f.number ∈ (addInputDeletions item).2 := by
  rw [mem_deletions_iff hsel]
  rcases advance_cases hsel hk hf with ⟨hnone, hsame⟩ | ⟨num, size, hp, hcut⟩
  · rw [hsame]
    refine iff_of_false (by simp) ?_
    rintro ⟨g, num, size, hp, -, hnum⟩
    exact chosen_eq_none hnone _ hp hnum
  rw [hcut, cutFile_eq_none_iff]
  constructor
  · intro hall
    exact ⟨f, num, size, hp, hall, rfl⟩
  rintro ⟨g, num', size', hp', hall, hnum⟩
  have heq : (g, (num', size')) = (f, (num, size)) :=
    inj_on_of_nodup_map hsel.nodup hp' hp hnum
  simp only [Prod.mk.injEq] at heq
  obtain ⟨rfl, rfl, -⟩ := heq
  exact hall

/-- The edit takes the numbers of the emptied tables out of level 0. -/
theorem map_number_after (hsel : Selected sst l0 item sel) (hk : KeptTables sst dir l0 cur) :
    ∀ fs : List (FileMetaData K), (∀ f ∈ fs, f ∈ cur) →
      (fs.filterMap (advance dir sel)).map FileMetaData.number
        = (fs.map FileMetaData.number).filter (fun n => n ∉ (addInputDeletions item).2) := by
  intro fs
  induction fs with
  | nil => intro _; rfl
  | cons f fs ih =>
  intro hfs
  have hf := hfs f (.head _)
  have hrest := ih (fun g hg => hfs g (.tail f hg))
  have hiff := advance_eq_none_iff hsel hk hf
  rw [map_cons]
  cases hadv : advance dir sel f with
  | none =>
    rw [filterMap_cons_none hadv, hrest, filter_cons_of_neg (by simpa using hiff.mp hadv)]
  | some f' =>
  have hkept : f.number ∉ (addInputDeletions item).2 := by
    intro h
    rw [hiff.mpr h] at hadv
    exact nomatch hadv
  rw [filterMap_cons_some hadv, map_cons, hrest, (advance_keeps hsel hk hf hadv).1,
    filter_cons_of_pos (by simpa using hkept)]

end End

section Step

variable {s : State K}

theorem pick_dir (opts : NvmCfOptions) (sst : SstableMetadata K) (vs : VersionStorageInfo K) :
    (pickColumnCompaction opts sst vs).1 = sst.updateCompactionState vs.level0 := by
  rw [pickColumnCompaction]
  split
  · rfl
  · split <;> rfl

omit [LinearOrder K] in
theorem findFile_update (dir : SstableMetadata K) (l0 : List (FileMetaData K)) (n : Nat) :
    (dir.updateCompactionState l0).findFile n = dir.findFile n := by
  rw [SstableMetadata.findFile, SstableMetadata.findFile, updateCompactionState_files]

/-- What a finished compaction leaves of the set. -/
theorem installColumnCompactionItem_eq (h : Inv s) (item : ColumnCompactionItem K) :
    installColumnCompactionItem s.dir item = { s.dir with
      compactionFiles := s.dir.compactionFiles.filter (fun n => n ∉ (addInputDeletions item).2) } :=
  deleteCompactionFiles_eq _ _ (h.tables.nodup.sublist h.ordered)

/-- What it leaves of level 0. -/
theorem map_number_install (h : Inv s) {item : ColumnCompactionItem K}
    (hrun : s.running = some item) :
    (applyEdit s.l0 (addInputDeletions item).1).map FileMetaData.number
      = (s.l0.map FileMetaData.number).filter (fun n => n ∉ (addInputDeletions item).2) := by
  obtain ⟨sst, l0, sel, hsel, hk⟩ := h.running item hrun
  rw [applyEdit_eq_filterMap hsel hk]
  exact map_number_after hsel hk s.l0 (fun f hf => hf)

/-- **STEP**: every allowed event keeps the invariant. -/
theorem Inv.step (h : Inv s) (e : Event K) (he : Allowed s e) : Inv (step s e) := by
  cases e with
  | directory files =>
    exact ⟨NvmTables.of_findFile h.tables he, h.ordered, fun item hitem =>
      let ⟨sst, l0, sel, hsel, hk⟩ := h.running item hitem
      ⟨sst, l0, sel, hsel, KeptTables.of_findFile hk he⟩⟩
  | flush f =>
    have htables : NvmTables s.dir (f :: s.l0) := he
    show Inv { s with l0 := applyEdit s.l0 { newFiles := [f] } }
    rw [applyEdit_flush htables]
    refine ⟨htables, h.ordered.cons _, ?_⟩
    intro item hitem
    obtain ⟨sst, l0, sel, hsel, hk⟩ := h.running item hitem
    exact ⟨sst, l0, sel, hsel, htables, fun g hg => .tail f (hk.mem g hg), hk.entry⟩
  | pick opts level1 =>
    cases hrun : s.running with
    | some item =>
      have hsame : CompactionSet.step s (.pick opts level1) = s := by
        simp only [CompactionSet.step, hrun]
      rw [hsame]
      exact h
    | none =>
    have hstep : CompactionSet.step s (.pick opts level1) = { s with
        dir := s.dir.updateCompactionState s.l0
        running := (pickColumnCompaction opts s.dir ⟨s.l0, level1⟩).2 } := by
      simp only [CompactionSet.step, hrun, pick_dir]
    have htables := NvmTables.of_findFile h.tables
      (fun f _ => findFile_update s.dir s.l0 f.number)
    rw [hstep]
    refine ⟨htables, (updateCompactionState_isSuffix _ _).sublist, ?_⟩
    intro item hitem
    have hl1 : LevelSorted level1 := he
    obtain ⟨sel, hsel⟩ := @pick_selected K _ s.dir ⟨s.l0, level1⟩ opts h.tables.toLevel0 hl1
      item hitem
    refine ⟨s.dir, s.l0, sel, hsel, htables, fun f hf => hf, ?_⟩
    intro f _
    rw [entryOf, entryOf, findFile_update]
  | install =>
    cases hrun : s.running with
    | none =>
      have hsame : CompactionSet.step s .install = s := by
        simp only [CompactionSet.step, hrun]
      rw [hsame]
      exact h
    | some item =>
    have hstep : CompactionSet.step s .install =
        { dir := installColumnCompactionItem s.dir item
          l0 := applyEdit s.l0 (addInputDeletions item).1
          running := none } := by
      simp only [CompactionSet.step, hrun]
    obtain ⟨sst, l0, sel, hsel, hk⟩ := h.running item hrun
    rw [hstep, installColumnCompactionItem_eq h]
    refine ⟨?_, ?_, fun _ h => absurd h (Option.some_ne_none _).symm⟩
    · rw [applyEdit_eq_filterMap hsel hk]
      exact NvmTables.of_findFile (nvmTables_after hsel hk) (fun f _ => rfl)
    · rw [map_number_install h hrun]
      exact h.ordered.filter _
  | fail => exact ⟨h.tables, h.ordered, fun _ h => absurd h (Option.some_ne_none _).symm⟩
  | notLogged =>
    cases hrun : s.running with
    | none =>
      have hsame : CompactionSet.step s .notLogged = s := by
        simp only [CompactionSet.step, hrun]
      rw [hsame]
      exact h
    | some item =>
    have hstep : CompactionSet.step s .notLogged = { s with
        dir := installColumnCompactionItem s.dir item, running := none } := by
      simp only [CompactionSet.step, hrun]
    rw [hstep, installColumnCompactionItem_eq h]
    exact ⟨NvmTables.of_findFile h.tables (fun f _ => rfl), filter_sublist.trans h.ordered,
      fun _ h => absurd h (Option.some_ne_none _).symm⟩
  | reopen files => exact ⟨he, nil_sublist _, fun _ h => absurd h (Option.some_ne_none _).symm⟩

/-- The set is the oldest part of level 0. -/
def Oldest (s : State K) : Prop :=
  s.dir.compactionFiles <:+ s.l0.map FileMetaData.number

/-- Only an edit that is not written can leave a gap in the set. -/
theorem Oldest.step (h : Inv s) (ho : Oldest s) (e : Event K) (he : Allowed s e)
    (hlogged : e ≠ .notLogged) : Oldest (CompactionSet.step s e) := by
  cases e with
  | directory files => exact ho
  | flush f =>
    show s.dir.compactionFiles <:+ (applyEdit s.l0 { newFiles := [f] }).map FileMetaData.number
    rw [applyEdit_flush he]
    exact ho.trans (suffix_cons _ _)
  | pick opts level1 =>
    rw [Oldest, CompactionSet.step]
    cases hrun : s.running with
    | some item => exact ho
    | none =>
      simp only [pick_dir]
      exact updateCompactionState_isSuffix _ _
  | install =>
    rw [Oldest, CompactionSet.step]
    cases hrun : s.running with
    | none => exact ho
    | some item =>
      simp only [installColumnCompactionItem_eq h, map_number_install h hrun]
      exact ho.filter _
  | fail => exact ho
  | notLogged => exact absurd rfl hlogged
  | reopen files => exact nil_suffix

end Step

theorem inv_new : Inv ({} : State K) where
  tables := ⟨⟨nodup_nil, nofun, nofun, nofun, nofun⟩, .nil, nofun, nofun⟩
  ordered := .refl _
  running := nofun

/-- **RUN**: the invariant holds after every run of allowed events, and the set is
    the oldest part of level 0 if every edit was written. -/
theorem inv_run (es : List (Event K)) :
    ∀ s : State K, Inv s → Never step (fun s e => ¬ Allowed s e) s es →
      Inv (run step s es) ∧ (Oldest s → .notLogged ∉ es → Oldest (run step s es)) := by
  induction es with
  | nil => exact fun s h _ => ⟨h, fun ho _ => ho⟩
  | cons e es ih =>
  rintro s h ⟨he, hes⟩
  have he' : Allowed s e := not_not.mp he
  obtain ⟨hinv, hold⟩ := ih (step s e) (h.step e he') hes
  refine ⟨hinv, ?_⟩
  intro ho hlogged
  rw [mem_cons, not_or] at hlogged
  exact hold (ho.step h e he' (fun heq => hlogged.1 heq.symm)) hlogged.2

/-- **THE COMPACTION SET** is the oldest part of level 0: after every run the update compares
    in range, and leaves a suffix of level 0 that is only empty with it; one that is not empty
    stays. Between the updates it stays a suffix as long as the edits of finished compactions are
    written. -/
theorem updateByIndex_oldest (es : List (Event K)) (hes : Valid es) :
    (∃ dir, updateByIndex (run step {} es).dir (run step {} es).l0 = some dir ∧
      dir.files = (run step {} es).dir.files ∧
      dir.compactionFiles <:+ (run step {} es).l0.map FileMetaData.number ∧
      ((run step {} es).l0 ≠ [] → dir.compactionFiles ≠ []) ∧
      ((run step {} es).dir.compactionFiles ≠ [] → Oldest (run step {} es) →
        dir = (run step {} es).dir)) ∧ (.notLogged ∉ es → Oldest (run step {} es)) := by
  obtain ⟨hinv, hold⟩ := inv_run es {} inv_new hes
  generalize run step {} es = s at hinv hold ⊢
  refine ⟨⟨s.dir.updateCompactionState s.l0, ?_, updateCompactionState_files _ _,
    updateCompactionState_isSuffix _ _, ?_, updateCompactionState_of_suffix⟩, hold (suffix_refl _)⟩
  · refine updateByIndex_eq s.dir ?_
    have hlen := hinv.ordered.length_le
    rwa [length_map] at hlen
  · intro hne
    obtain ⟨newer, rows, -, hrows, heq⟩ := updateCompactionState_suffix s.dir hne
    rw [heq]
    exact fun h => hrows (map_eq_nil_iff.mp h)

end Run

/-! ## Two flushes, a column compaction, and a flush in between -/

def splitTable (number seqno keysNum : Nat) (lo hi : Nat) : FileMetaData Nat :=
  { number := number, fileSize := 40 * keysNum, smallest := ⟨lo, seqno, .value⟩
    largest := ⟨hi, seqno, .value⟩, smallestSeqno := seqno, largestSeqno := seqno
    isNvmLevel0 := true, keysNum := keysNum }

def splitRun : List (Event Nat) :=
  [.directory laterDirectory.files, .flush (splitTable 1 1 2 5 25), .flush (splitTable 2 2 1 5 5),
    .pick splitOptions splitVersion.level1, .flush (splitTable 4 3 1 7 7), .install]

theorem valid_splitRun : Valid splitRun := by
  refine ⟨not_not.mpr nofun, not_not.mpr ?_, not_not.mpr ?_,
    not_not.mpr splitVersion_level1, not_not.mpr ?_, not_not.mpr trivial, trivial⟩
  all_goals exact
    { nodup := by decide, found := by decide, sorted := by decide, remaining := by decide
      points := by decide, newestFirst := by unfold NewestFirst; decide, nvm := by decide
      keysNum := by decide }

/-- The compaction empties table 2, and table 1 is left in the set. -/
theorem updateByIndex_oldest_splitRun :
    (run step {} splitRun).l0.map FileMetaData.number = [4, 1] ∧
    (run step {} splitRun).dir.compactionFiles = [1] ∧ Oldest (run step {} splitRun) :=
  ⟨by decide, by decide, (updateByIndex_oldest splitRun valid_splitRun).2 (by simp [splitRun])⟩

end CompactionSet
