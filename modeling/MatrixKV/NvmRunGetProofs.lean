import MatrixKV.NvmRunProofs

/-! # Point reads over runs

    A read of a version looks its tables up in the directory, in one walk over
    both lists, and then searches the tables it found with the cross-row hints.

    * `getL0Files_spec` — the walk finds the longest initial part of the version
      that stands in the directory in the same order.
    * In every reachable state the read of a key agrees with a plain search of the
      version's tables exactly when the newest table that holds the key is in that
      part, and runs in which tables are built in the order of their memtables
      never leave it (`getSearch_agrees_iff`). -/

namespace NvmRunGet

open List DbFormat SstableMeta PersistentSstable L0TableBuilder NvmFlush NvmRecover VersionBuilder
  ColumnEntries NvmGet NvmRun

variable {K : Type}

/-- The tables of a version, with what is left to read in them. -/
def listRows (dir : SstableMetadata K) (v : List (FileMetaData K)) : List (Row K) :=
  v.map (fun f => ⟨entryOf dir f, f.firstKeyIndex⟩)

/-- The files stand in the directory, in this order. -/
def InDirOrder (dir : SstableMetadata K) (fs : List (FileMetaData K)) : Prop :=
  (fs.map FileMetaData.number).Sublist (dir.files.map FileEntry.filenum)

/-! ## Looking the tables up -/

/-- Matching at the first occurrence loses nothing. -/
theorem sublist_of_cons_sublist_append {α : Type} {x : α} {xs l₂ : List α} {l₁ : List α}
    (hx : x ∉ l₁) (h : (x :: xs).Sublist (l₁ ++ x :: l₂)) : xs.Sublist l₂ := by
  induction l₁ with
  | nil =>
    exact cons_sublist_cons.mp h
  | cons y l₁ ih =>
  rw [cons_append, cons_sublist_cons'] at h
  rcases h with h | ⟨h, -⟩
  · exact ih (fun hmem => hx (.tail y hmem)) h
  · exact absurd (h ▸ .head _) hx

theorem matchL0Files_spec (v : List (FileMetaData K)) :
    ∀ files : List (FileEntry K),
      (matchL0Files v files).map FileEntry.filenum
        = (v.take (matchL0Files v files).length).map FileMetaData.number ∧
      (matchL0Files v files).Sublist files ∧
      ∀ j ≤ v.length, ((v.take j).map FileMetaData.number).Sublist
        (files.map FileEntry.filenum) → j ≤ (matchL0Files v files).length := by
  induction v with
  | nil =>
    intro files
    exact ⟨rfl, nil_sublist _, fun j hj _ => hj⟩
  | cons f fs ih =>
  intro files
  have hsplit := takeWhile_append_dropWhile
    (p := fun e : FileEntry K => decide (e.filenum ≠ f.number)) (l := files)
  have htake : f.number ∉ (files.takeWhile (fun e => e.filenum ≠ f.number)).map
      FileEntry.filenum := by
    intro hmem
    obtain ⟨e, he, heq⟩ := mem_map.mp hmem
    have hne := mem_takeWhile_imp he
    exact of_decide_eq_true hne heq
  rw [matchL0Files]
  cases hd : files.dropWhile (fun e => e.filenum ≠ f.number) with
  | nil =>
    refine ⟨rfl, nil_sublist _, ?_⟩
    intro j hj hsub
    rw [hd, append_nil] at hsplit
    rw [hsplit] at htake
    cases j with
    | zero => exact le_rfl
    | succ j =>
      rw [take_succ_cons, map_cons] at hsub
      exact absurd (hsub.subset (.head _)) htake
  | cons e es =>
  have hne : files.dropWhile (fun e => e.filenum ≠ f.number) ≠ [] := by
    rw [hd]
    exact cons_ne_nil _ _
  have he := head_dropWhile_not
    (fun e : FileEntry K => decide (e.filenum ≠ f.number)) hne
  simp only [hd, head_cons, decide_eq_false_iff_not, not_not] at he
  obtain ⟨hnums, hsub, hmax⟩ := ih es
  refine ⟨?_, ?_, ?_⟩
  · simp only [map_cons, length_cons, take_succ_cons, hnums, he]
  · rw [← hsplit, hd]
    exact (hsub.cons_cons e).trans (sublist_append_right _ _)
  intro j hj hjsub
  cases j with
  | zero => exact Nat.zero_le _
  | succ j =>
  rw [← hsplit, hd, map_append, map_cons, take_succ_cons, map_cons, he] at hjsub
  have hrest := sublist_of_cons_sublist_append htake hjsub
  exact Nat.succ_le_succ (hmax j (Nat.le_of_succ_le_succ hj) hrest)

variable [LinearOrder K]

/-- **THE WALK** over version and directory finds the longest initial part of the
    version that stands in the directory in this order. -/
theorem getL0Files_spec {cf : NvmCf K} (hdir : DirOK cf) (v : List (FileMetaData K)) :
    ∃ m ≤ v.length, cf.dir.getL0Files v = (v.take m).map (entryOf cf.dir) ∧
      ∀ j ≤ v.length, InDirOrder cf.dir (v.take j) ↔ j ≤ m := by
  obtain ⟨hnums, hsub, hmax⟩ := matchL0Files_spec v cf.dir.files
  have hlen := congrArg List.length hnums
  simp only [length_map, length_take] at hlen
  refine ⟨(cf.dir.getL0Files v).length, ?_, ?_, ?_⟩
  · show (matchL0Files v cf.dir.files).length ≤ _
    omega
  · -- an entry of the directory is the entry of its number
    have hself : (cf.dir.getL0Files v).map (fun e =>
        (cf.dir.findFile e.filenum).getD { filenum := e.filenum, sstableIndex := 0 })
        = cf.dir.getL0Files v := by
      refine (map_congr_left ?_).trans (map_id _)
      intro e he
      rw [hdir.findFile (hsub.subset he)]
      rfl
    have hmap := congrArg (List.map (fun n =>
      (cf.dir.findFile n).getD { filenum := n, sstableIndex := 0 })) hnums
    rw [map_map, map_map] at hmap
    exact hself.symm.trans hmap
  · intro j hj
    refine ⟨hmax j hj, ?_⟩
    intro hle
    have hpre : InDirOrder cf.dir (v.take (cf.dir.getL0Files v).length) := by
      rw [InDirOrder]
      refine .trans ?_ (hsub.map FileEntry.filenum)
      rw [hnums]
      exact .refl _
    refine .trans (.map _ ?_) hpre
    exact take_sublist_take_left hle

/-! ## One read -/

/-- The row at `i` is the first that holds `k`. -/
def FirstHolds (rows : List (Row K)) (k : K) (i : Nat) : Prop :=
  (∃ r, rows[i]? = some r ∧ Holds r k) ∧ ∀ j < i, ∀ r, rows[j]? = some r → ¬ Holds r k

variable {rows : List (Row K)}

omit [LinearOrder K] in
theorem exists_firstHolds {k : K} (h : ∃ r ∈ rows, Holds r k) : ∃ i, FirstHolds rows k i := by
  induction rows with
  | nil =>
    obtain ⟨r, hr, -⟩ := h
    exact nomatch hr
  | cons r rows ih =>
  by_cases hr : Holds r k
  · exact ⟨0, ⟨r, rfl, hr⟩, fun j hj => absurd hj (Nat.not_lt_zero j)⟩
  obtain ⟨r', hr', hk⟩ := h
  have htail : ∃ r' ∈ rows, Holds r' k := by
    rcases mem_cons.mp hr' with rfl | hr'
    · exact absurd hk hr
    · exact ⟨r', hr', hk⟩
  obtain ⟨i, ⟨x, hx, hxk⟩, hbefore⟩ := ih htail
  refine ⟨i + 1, ⟨x, hx, hxk⟩, ?_⟩
  intro j hj y hy
  cases j with
  | zero =>
    rw [getElem?_cons_zero, Option.some.injEq] at hy
    exact hy ▸ hr
  | succ j => exact hbefore j (by omega) y hy

omit [LinearOrder K] in
/-- A search of the first `m` rows is right for all rows exactly when the first
    row that holds the key is among them. -/
theorem searchOK_take_iff {k : K} {m : Nat} {res : Option (FileEntry K × Nat)}
    (h : SearchOK (rows.take m) k res) :
    SearchOK rows k res ↔ ∀ i, FirstHolds rows k i → i < m := by
  cases res with
  | none =>
    constructor
    · rintro hno i ⟨⟨r, hr, hk⟩, -⟩
      exact absurd hk (hno r (mem_of_getElem? hr))
    intro hfirst r hr hk
    obtain ⟨i, hi⟩ := exists_firstHolds ⟨r, hr, hk⟩
    obtain ⟨x, hx, hxk⟩ := hi.1
    have hx' : (rows.take m)[i]? = some x := by
      rw [getElem?_take_of_lt (hfirst i hi)]
      exact hx
    exact h x (mem_of_getElem? hx') hxk
  | some hit =>
  obtain ⟨newer, first, older, heq, hnewer, hhold⟩ := h
  have hrows : rows = newer ++ ⟨hit.1, first⟩ :: (older ++ rows.drop m) := by
    rw [← cons_append, ← append_assoc, ← heq, take_append_drop]
  have hlen : newer.length < m := by
    have hl := congrArg List.length heq
    simp only [length_take, length_append, length_cons] at hl
    omega
  refine iff_of_true ⟨newer, first, older ++ rows.drop m, hrows, hnewer, hhold⟩ ?_
  intro i hi
  by_contra hcon
  refine hi.2 newer.length (by omega) ⟨hit.1, first⟩ ?_ ⟨hit.2, hhold⟩
  rw [hrows, getElem?_append_right le_rfl, Nat.sub_self]
  rfl

/-- A read of the version `v` agrees with the plain search of its tables: it
    reports a hit exactly when a table holds the key, the hit is in the newest
    such table, and that is the table a search without hints ends in. -/
structure Agrees (cf : NvmCf K) (v : List (FileMetaData K)) (k : K) : Prop where
  hit : (get cf.pool cf.dir v k).isSome = true ↔ ∃ r ∈ listRows cf.dir v, Holds r k
  newest : SearchOK (listRows cf.dir v) k (getSearch cf.dir v k)
  plain : (getSearch cf.dir v k).map Prod.fst
    = (fullSearch k (listRows cf.dir v)).map Prod.fst

/-- The newest table that holds the key, with those before it, stands in the
    directory in the order of the version. -/
def HolderInDirOrder (dir : SstableMetadata K) (v : List (FileMetaData K)) (k : K) : Prop :=
  ∀ i, FirstHolds (listRows dir v) k i → InDirOrder dir (v.take (i + 1))

variable {dir : SstableMetadata K} {v : List (FileMetaData K)}

theorem get_isSome_iff (pool : Pool) {k : K}
    (h : SearchOK rows k (getSearch dir v k)) :
    (NvmGet.get pool dir v k).isSome = true ↔ ∃ r ∈ rows, Holds r k := by
  rw [NvmGet.get]
  cases hs : getSearch dir v k with
  | none =>
    rw [hs] at h
    refine iff_of_false (by simp) ?_
    rintro ⟨r, hr, hk⟩
    exact h r hr hk
  | some hit =>
  rw [hs] at h
  obtain ⟨newer, first, older, heq, -, hhold⟩ := h
  obtain ⟨m, hm, -⟩ := hhold.2
  refine iff_of_true ?_ ⟨⟨hit.1, first⟩, ?_, hit.2, hhold⟩
  · simp only at hm
    simp [hm]
  · rw [heq]
    exact mem_append_right _ (.head _)

/-! ## Reads in reachable states -/

variable [UserKeyCodec K] {s : DbState K}

omit [LinearOrder K] [UserKeyCodec K] in
theorem lists_of_live {f : FileMetaData K}
    (hv : v ∈ s.live) (hf : f ∈ v) : s.Lists f := .inr ⟨v, hv, hf⟩

theorem rowOK_listRows (h : Inv s) (hv : v ∈ s.live) :
    ∀ r ∈ listRows s.cf.dir v, RowOK r := by
  intro r hr
  obtain ⟨f, hf, rfl⟩ := mem_map.mp hr
  obtain ⟨hmem, hok⟩ := h.entryOf_spec (lists_of_live hv hf)
  exact ⟨h.dir.sorted _ hmem, hok.remaining⟩

/-- Between any two listed tables the pointers are sound when they belong. -/
theorem linked_of_subset (h : Inv s) (hv : v ∈ s.live)
    (hsub : rows ⊆ listRows s.cf.dir v) : Linked rows := by
  refine List.Pairwise.isChain (pairwise_of_forall_mem_list ?_)
  intro r hr r' hr' heq
  obtain ⟨f, hf, rfl⟩ := mem_map.mp (hsub hr)
  obtain ⟨g, hg, rfl⟩ := mem_map.mp (hsub hr')
  exact h.dir.links _ (h.entryOf_spec (lists_of_live hv hf)).1 _
    (h.entryOf_spec (lists_of_live hv hg)).1 heq

omit [LinearOrder K] [UserKeyCodec K] in
/-- The rows that are searched are the first rows of the version. -/
theorem versionRows_eq_take {m : Nat}
    (h : dir.getL0Files v = (v.take m).map (entryOf dir)) :
    versionRows dir v = (listRows dir v).take m := by
  rw [versionRows, h, listRows, ← map_take]
  clear h
  induction v generalizing m with
  | nil => simp
  | cons f v ih =>
  cases m with
  | zero => rfl
  | succ m => exact congrArg (_ :: ·) ih

/-- **ONE READ** in a state that keeps the invariant. -/
theorem agrees_iff_of_inv (h : Inv s) (hv : v ∈ s.live) (k : K) :
    Agrees s.cf v k ↔ HolderInDirOrder s.cf.dir v k := by
  obtain ⟨m, hm, hfound, horder⟩ := getL0Files_spec h.dir v
  have hok : ∀ r ∈ (listRows s.cf.dir v).take m, RowOK r :=
    fun r hr => rowOK_listRows h hv r (take_subset _ _ hr)
  have hsearch : SearchOK ((listRows s.cf.dir v).take m) k (getSearch s.cf.dir v k) := by
    rw [getSearch, versionRows_eq_take hfound]
    refine getLoop_spec k _ (-1) (-1) 0 hok (linked_of_subset h hv (take_subset _ _)) ?_
    intro r _ _
    exact hintOK_none r.file k
  have hiff : SearchOK (listRows s.cf.dir v) k (getSearch s.cf.dir v k) ↔
      HolderInDirOrder s.cf.dir v k := by
    rw [searchOK_take_iff hsearch]
    refine forall_congr' (fun i => ?_)
    refine forall_congr' (fun hi => ?_)
    obtain ⟨r, hr, -⟩ := hi.1
    have hlt := (List.getElem?_eq_some_iff.mp hr).1
    rw [listRows, length_map] at hlt
    rw [horder (i + 1) hlt, Nat.succ_le_iff]
  constructor
  · intro hagrees
    exact hiff.mp hagrees.newest
  · intro hin
    have hnewest := hiff.mpr hin
    exact ⟨get_isSome_iff s.cf.pool hnewest, hnewest,
      searchOK_unique hnewest (fullSearch_spec k _ (rowOK_listRows h hv))⟩

/-! ## Tables built in the order of their memtables -/

/-- The condition on a step: a table that is built is newer than every table
    listed by the current version or waiting to be. -/
def BuildsNewest (s s' : DbState K) : Prop :=
  ∀ f ∈ s'.built, f ∉ s.built → ∀ g, g ∈ s.current ∨ g ∈ s.built → seqRank g < seqRank f

/-- The directory lists newer tables first, and every version in its order. -/
structure InOrder (s : DbState K) : Prop where
  pairs : ∀ a b, (a ∈ s.current ∨ a ∈ s.built) → (b ∈ s.current ∨ b ∈ s.built) →
    seqRank b < seqRank a → InDirOrder s.cf.dir [a, b]
  versions : ∀ v ∈ s.live, InDirOrder s.cf.dir v

/-- A list whose pairs stand in a list without duplicates, stands in it. -/
theorem sublist_of_pairs {α : Type} :
    ∀ {l xs : List α}, l.Nodup → (∀ x ∈ xs, x ∈ l) → xs.Pairwise (fun x y => [x, y].Sublist l) →
      xs.Sublist l := by
  intro l
  induction l with
  | nil =>
    intro xs _ hmem _
    cases xs with
    | nil => exact .refl _
    | cons x xs => exact nomatch hmem x (.head _)
  | cons n l ih =>
  intro xs hnodup hmem hpairs
  obtain ⟨hn, hl⟩ := nodup_cons.mp hnodup
  -- away from the head, members and pairs are those of the tail
  have htail : ∀ {ys : List α}, (∀ y ∈ ys, y ∈ n :: l) → n ∉ ys →
      ys.Pairwise (fun x y => [x, y].Sublist (n :: l)) → ys.Sublist l := by
    intro ys hys hnot hp
    refine ih hl ?_ ?_
    · intro y hy
      rcases mem_cons.mp (hys y hy) with rfl | h
      · exact absurd hy hnot
      · exact h
    refine hp.imp_of_mem ?_
    intro x y hx _ hxy
    rcases cons_sublist_cons'.mp hxy with h | ⟨h, -⟩
    · exact h
    · exact absurd (h ▸ hx) hnot
  cases xs with
  | nil => exact nil_sublist _
  | cons x xs =>
  obtain ⟨hx, hxs⟩ := pairwise_cons.mp hpairs
  have hnot : n ∉ xs := by
    intro hmemn
    rcases cons_sublist_cons'.mp (hx n hmemn) with h | ⟨-, h⟩
    · exact hn (h.subset (.tail x (mem_singleton_self n)))
    · exact hn (singleton_sublist.mp h)
  by_cases hxn : x = n
  · subst hxn
    exact (htail (fun y hy => hmem y (.tail x hy)) hnot hxs).cons_cons x
  refine (htail hmem ?_ hpairs).cons n
  intro hmemn
  rcases mem_cons.mp hmemn with h | h
  · exact hxn h.symm
  · exact hnot h

/-- The versions of edits: sorted files whose pairs stand in the directory. -/
theorem inDirOrder_of_pairs (h : Inv s) (hv : NewestFirst v)
    (hmem : ∀ f ∈ v, f.number ∈ s.cf.dir.files.map FileEntry.filenum)
    (hpairs : ∀ a ∈ v, ∀ b ∈ v, seqRank b < seqRank a → InDirOrder s.cf.dir [a, b]) :
    InDirOrder s.cf.dir v := by
  refine sublist_of_pairs h.dir.numbers ?_ ?_
  · intro n hn
    obtain ⟨f, hf, rfl⟩ := mem_map.mp hn
    exact hmem f hf
  · rw [pairwise_map]
    refine hv.imp_of_mem ?_
    intro a b ha hb hab
    exact hpairs a ha b hb hab

theorem number_mem_of_lists (h : Inv s) {f : FileMetaData K} (hf : s.Lists f) :
    f.number ∈ s.cf.dir.files.map FileEntry.filenum := by
  obtain ⟨hmem, -⟩ := h.entryOf_spec hf
  exact mem_map.mpr ⟨_, hmem, entryOf_filenum _ f⟩

section

omit [LinearOrder K] [UserKeyCodec K]

/-- In a sorted list a newer file stands before an older one. -/
theorem pair_sublist (hv : NewestFirst v) {a b : FileMetaData K}
    (ha : a ∈ v) (hb : b ∈ v) (hab : seqRank b < seqRank a) : [a, b].Sublist v := by
  induction v with
  | nil => exact nomatch ha
  | cons f v ih =>
  obtain ⟨hf, hv'⟩ := pairwise_cons.mp hv
  rcases mem_cons.mp ha with rfl | ha'
  · rcases mem_cons.mp hb with rfl | hb'
    · exact absurd hab (lt_irrefl _)
    · exact (singleton_sublist.mpr hb').cons_cons a
  · rcases mem_cons.mp hb with rfl | hb'
    · exact absurd hab (lt_asymm (hf a ha'))
    · exact (ih hv' ha' hb').cons f

/-- Deleting another table keeps the order. -/
theorem InDirOrder.deteleFile {fs : List (FileMetaData K)} (h : InDirOrder dir fs) {number : Nat}
    (hne : ∀ f ∈ fs, f.number ≠ number) : InDirOrder (dir.deteleFile number) fs := by
  have hmap : (dir.deteleFile number).files.map FileEntry.filenum
      = (dir.files.map FileEntry.filenum).eraseP (fun n => n = number) := by
    rw [eraseP_map]
    rfl
  have hself : (fs.map FileMetaData.number).eraseP (fun n => n = number)
      = fs.map FileMetaData.number := by
    refine eraseP_of_forall_not ?_
    intro n hn
    obtain ⟨f, hf, rfl⟩ := mem_map.mp hn
    simpa using hne f hf
  rw [InDirOrder, hmap, ← hself]
  exact h.eraseP

end

section Steps

variable {s' : DbState K}

theorem InOrder.build (h : Inv s) (ho : InOrder s) (inp : FlushInput K) (res : FlushResult K)
    (hpicked : inp.number ∈ s.picked) (hinp : FlushOK inp)
    (hrun : buildInsertNvm s.cf inp = some res)
    (hcond : BuildsNewest s { s with
      cf := res.cf
      picked := s.picked.erase inp.number
      built := flushedFiles inp.number res ++ s.built }) :
    InOrder { s with
      cf := res.cf
      picked := s.picked.erase inp.number
      built := flushedFiles inp.number res ++ s.built } := by
  rcases build_effect hrun hinp h.slotSize h.dir with ⟨hcf, hnone⟩ | ⟨e, hnew⟩
  · rw [hcf, hnone, nil_append]
    exact ⟨ho.pairs, ho.versions⟩
  have hcons : res.cf.dir.files.map FileEntry.filenum
      = inp.number :: s.cf.dir.files.map FileEntry.filenum := by
    rw [hnew.files, map_cons, hnew.number]
  -- a flushed file is new
  have hfresh : ∀ f ∈ flushedFiles inp.number res, f ∉ s.built := by
    intro f hf hb
    obtain ⟨hmem, -⟩ := h.entryOf_spec (.inl hb : s.Lists f)
    refine (h.numbers.files _ hmem).2 ?_
    rw [entryOf_filenum, (mem_flushedFiles hf).2.2.1]
    exact hpicked
  have holder : ∀ f ∈ flushedFiles inp.number res, ∀ g, g ∈ s.current ∨ g ∈ s.built →
      seqRank g < seqRank f :=
    fun f hf => hcond f (mem_append_left _ hf) (hfresh f hf)
  have hcases : ∀ {f : FileMetaData K},
      f ∈ s.current ∨ f ∈ flushedFiles inp.number res ++ s.built →
      f ∈ flushedFiles inp.number res ∨ (f ∈ s.current ∨ f ∈ s.built) := by
    rintro f (hf | hf)
    · exact .inr (.inl hf)
    · exact (mem_append.mp hf).imp_right .inr
  have hmono : ∀ {fs : List (FileMetaData K)}, InDirOrder s.cf.dir fs →
      InDirOrder res.cf.dir fs := by
    intro fs hfs
    rw [InDirOrder, hcons]
    exact hfs.cons _
  constructor
  · intro a b ha hb hab
    rcases hcases ha with ha | ha <;> rcases hcases hb with hb | hb
    · have heq : a = b := by
        have h1 := (mem_flushedFiles ha).1
        rw [h1, mem_singleton] at hb
        exact hb.symm
      rw [heq] at hab
      exact absurd hab (lt_irrefl _)
    · rw [InDirOrder, hcons, map_cons, (mem_flushedFiles ha).2.2.1]
      refine .cons_cons _ (singleton_sublist.mpr ?_)
      refine number_mem_of_lists h ?_
      rcases hb with hb | hb
      · exact DbState.lists_current hb
      · exact .inl hb
    · exact absurd hab (lt_asymm (holder b hb a ha))
    · exact hmono (ho.pairs a b ha hb hab)
  · intro v hv
    exact hmono (ho.versions v hv)

/-- An edit whose files stand for files that were listed or waiting. -/
theorem InOrder.edit (h : Inv s) (ho : InOrder s) {current' built' : List (FileMetaData K)}
    {logged : Nat} (hsorted : NewestFirst current')
    (hmem : ∀ f ∈ current', ∃ g, (g ∈ s.current ∨ g ∈ s.built) ∧ g.number = f.number ∧
      seqRank g = seqRank f)
    (hbuilt : ∀ f ∈ built', f ∈ s.built) :
    InOrder { s with
      built := built'
      current := current'
      old := s.current :: s.old
      loggedFileNumber := logged } := by
  have hrep : ∀ f, f ∈ current' ∨ f ∈ built' →
      ∃ g, (g ∈ s.current ∨ g ∈ s.built) ∧ g.number = f.number ∧ seqRank g = seqRank f := by
    rintro f (hf | hf)
    · exact hmem f hf
    · exact ⟨f, .inr (hbuilt f hf), rfl, rfl⟩
  have hpairs : ∀ a b, (a ∈ current' ∨ a ∈ built') → (b ∈ current' ∨ b ∈ built') →
      seqRank b < seqRank a → InDirOrder s.cf.dir [a, b] := by
    intro a b ha hb hab
    obtain ⟨a', ha', hna, hra⟩ := hrep a ha
    obtain ⟨b', hb', hnb, hrb⟩ := hrep b hb
    have hpair := ho.pairs a' b' ha' hb' (by rw [hra, hrb]; exact hab)
    simp only [InDirOrder, map_cons, map_nil] at hpair ⊢
    rw [← hna, ← hnb]
    exact hpair
  refine ⟨hpairs, ?_⟩
  intro v hv
  rcases mem_cons.mp hv with rfl | hv
  · refine inDirOrder_of_pairs (s := s) h hsorted ?_
      (fun a ha b hb => hpairs a b (.inl ha) (.inl hb))
    intro f hf
    obtain ⟨g, hg, hnum, -⟩ := hmem f hf
    rw [← hnum]
    refine number_mem_of_lists h ?_
    rcases hg with hg | hg
    · exact DbState.lists_current hg
    · exact .inl hg
  · exact ho.versions v hv

/-- **ONE STEP** that builds the newest table, if any, keeps the order. -/
theorem InOrder.step (h : Inv s) (ho : InOrder s) (hstep : Step s s')
    (hcond : BuildsNewest s s') : InOrder s' := by
  have h' := h.step hstep
  cases hstep with
  | pick => exact ⟨ho.pairs, ho.versions⟩
  | build inp res hpicked hinp hrun => exact ho.build h inp res hpicked hinp hrun hcond
  | install f hbuilt =>
    refine ho.edit h h'.sorted ?_ (fun g hg => mem_of_mem_erase hg)
    intro g hg
    refine ⟨g, ?_, rfl, rfl⟩
    rcases (h.mem_install hbuilt g).mp hg with rfl | hg
    · exact .inr hbuilt
    · exact .inl hg
  | columnEdit edit hedit =>
    refine ho.edit h h'.sorted ?_ (fun g hg => hg)
    intro g hg
    rcases (h.mem_columnEdit hedit g).mp hg with hg | ⟨hg, -⟩
    · obtain ⟨f, hf, -, hadv⟩ := hedit.advanced g hg
      exact ⟨f, .inl hf, hadv.number.symm, hadv.rank.symm⟩
    · exact ⟨g, .inl hg, rfl, rfl⟩
  | release v =>
    refine ⟨ho.pairs, ?_⟩
    intro w hw
    refine ho.versions w ?_
    rcases mem_cons.mp hw with rfl | hw
    · exact .head _
    · exact .tail _ (mem_of_mem_erase hw)
  | delete number hobsolete =>
    have hkeep : ∀ {fs : List (FileMetaData K)}, (∀ f ∈ fs, s.Lists f) →
        InDirOrder s.cf.dir fs → InDirOrder (deleteL0file s.cf number).dir fs := by
      intro fs hlists hfs
      rw [deleteL0file]
      cases s.cf.dir.findFile number with
      | none => exact hfs
      | some e => exact hfs.deteleFile (fun f hf => hobsolete f (hlists f hf))
    have hlists : ∀ f, f ∈ s.current ∨ f ∈ s.built → s.Lists f := by
      rintro f (hf | hf)
      · exact DbState.lists_current hf
      · exact .inl hf
    constructor
    · intro a b ha hb hab
      refine hkeep ?_ (ho.pairs a b ha hb hab)
      intro f hf
      rcases mem_pair.mp hf with rfl | rfl
      · exact hlists f ha
      · exact hlists f hb
    · intro v hv
      exact hkeep (fun f hf => lists_of_live hv hf) (ho.versions v hv)
  | recover next hnext =>
  -- the recovered directory is the current version
  have hnums : (recoverFromStorageInfo (reopen s.cf.pool) false s.current).dir.files.map
      FileEntry.filenum = s.current.map FileMetaData.number := by
    rw [h.recovered.2.2.1, map_map]
    exact map_congr_left (fun f _ => entryOf_filenum _ f)
  constructor
  · rintro a b (ha | ha) (hb | hb) hab
    · rw [InDirOrder, hnums]
      exact (pair_sublist h.sorted ha hb hab).map _
    · cases hb
    · cases ha
    · cases ha
  · intro v hv
    rw [mem_singleton.mp hv, InDirOrder, hnums]

end Steps

/-- **EVERY RUN** that builds its tables in order keeps the order. -/
theorem inOrder_reachable (h : Reachable BuildsNewest s) : InOrder s := by
  induction h with
  | initial s h =>
    constructor
    · intro a b ha
      rw [h.current, h.built] at ha
      rcases ha with ha | ha <;> exact nomatch ha
    · intro v hv
      rw [DbState.live, h.old, h.current, mem_singleton] at hv
      rw [hv]
      exact nil_sublist _
  | step s s' hrun hstep hcond ih => exact ih.step (inv_reachable hrun) hstep hcond

/-- **READS OVER RUNS**: in every reachable state the read of a key in a version in use agrees
    with the plain search of its tables exactly when the newest table that holds the key stands in
    the directory in the version's order; and always in runs that build every table after those of
    the older memtables. -/
theorem getSearch_agrees_iff :
    (∀ s : DbState K, Reachable (fun _ _ => True) s → ∀ v ∈ s.live, ∀ k : K,
      (Agrees s.cf v k ↔ HolderInDirOrder s.cf.dir v k)) ∧
    (∀ s : DbState K, Reachable BuildsNewest s → ∀ v ∈ s.live, ∀ k : K, Agrees s.cf v k) := by
  constructor
  · intro s hrun v hv k
    exact agrees_iff_of_inv (inv_reachable hrun) hv k
  · intro s hrun v hv k
    rw [agrees_iff_of_inv (inv_reachable hrun) hv k]
    intro i _
    exact .trans ((take_sublist _ _).map _) ((inOrder_reachable hrun).versions v hv)

/-- Every run is one without a condition. -/
theorem reachable_any {C : DbState K → DbState K → Prop} (h : Reachable C s) :
    Reachable (fun _ _ => True) s := by
  induction h with
  | initial s h => exact .initial s h
  | step s s' _ hstep _ ih => exact .step s s' ih hstep trivial

/-! ## Two flush jobs that overlap

    Two jobs take the numbers 1 and 2 for an older and a newer memtable.  The job
    of the newer memtable reserves its slot first, so table 1 stands in front of
    table 2 in the directory, while the version lists 2 before 1. -/

def emptyDb : DbState (Fin 256) :=
  { cf := smallModule, nextFileNumber := 1, loggedFileNumber := 1 }

def olderFlush : FlushInput (Fin 256) := .ofPairs 1 [(⟨5, 1, .value⟩, [42])]

def newerFlush : FlushInput (Fin 256) := .ofPairs 2 [(⟨6, 2, .value⟩, [43])]

theorem initial_emptyDb : Initial emptyDb :=
  ⟨rfl, by decide, rfl, rfl, rfl, rfl, le_rfl⟩

theorem flushOK_olderFlush : FlushOK olderFlush := ⟨by decide, by decide⟩

theorem flushOK_newerFlush : FlushOK newerFlush := ⟨by decide, by decide⟩

/-- The file of a successful flush of one pair. -/
def flushedFile (number slot point : Nat) (k : Fin 256) (seq : Nat) : FileMetaData (Fin 256) :=
  { number := number, fileSize := 26, smallest := ⟨k, seq, .value⟩, largest := ⟨k, seq, .value⟩
    smallestSeqno := seq, largestSeqno := seq, isNvmLevel0 := true, firstKeyIndex := 0
    nvmSstableIndex := slot, keysNum := 1, keyPointFilenum := point, rawFileSize := 26
    nvmMetaSize := 37 }

/-- Two flushes one after the other. -/
theorem reachable_twoTables : ∃ s : DbState (Fin 256), Reachable BuildsNewest s ∧
    s.current.map FileMetaData.number = [2, 1] := by
  refine ⟨_, .step _ _ (.step _ _ (.step _ _ (.step _ _
    (.step _ _ (.step _ _ (.initial emptyDb initial_emptyDb) (.pick _) nofun)
    (.build _ olderFlush _ (by decide) flushOK_olderFlush rfl)
      (fun f _ _ g hg => hg.elim nofun nofun))
    (.install _ (flushedFile 1 0 0 5 1) (by decide)) nofun) (.pick _) nofun)
    (.build _ newerFlush _ (by decide) flushOK_newerFlush rfl) ?_)
    (.install _ (flushedFile 2 1 1 6 2) (by decide)) nofun, by decide⟩
  intro f hf _ g hg
  have hf' : f = flushedFile 2 1 1 6 2 := mem_singleton.mp hf
  have hg' : g = flushedFile 1 0 0 5 1 := mem_singleton.mp (hg.resolve_right nofun)
  rw [hf', hg']
  decide

/-- Key 5 is found in the older table, through the key pointer of the newer one. -/
theorem getSearch_agrees_iff_twoTables :
    ∃ s : DbState (Fin 256), Reachable (fun _ _ => True) s ∧ Reachable BuildsNewest s ∧
      s.current.map FileMetaData.number = [2, 1] ∧
      (Agrees s.cf s.current 5 ↔ HolderInDirOrder s.cf.dir s.current 5) ∧
      Agrees s.cf s.current 5 := by
  obtain ⟨s, hordered, hnumbers⟩ := reachable_twoTables
  have hall := reachable_any hordered
  exact ⟨s, hall, hordered, hnumbers, getSearch_agrees_iff.1 s hall _ (.head _) 5,
    getSearch_agrees_iff.2 s hordered _ (.head _) 5⟩

/-- The read of key 5 misses table 1, which holds it. -/
theorem getSearch_misses_table :
    ∃ s : DbState (Fin 256), Reachable (fun _ _ => True) s ∧
      s.current.map FileMetaData.number = [2, 1] ∧
      s.cf.dir.files.map FileEntry.filenum = [1, 2] ∧ ¬ Agrees s.cf s.current 5 := by
  refine ⟨_, .step _ _ (.step _ _ (.step _ _ (.step _ _ (.step _ _ (.step _ _
    (.initial emptyDb initial_emptyDb) (.pick _) trivial) (.pick _) trivial)
    (.build _ newerFlush _ (by decide) flushOK_newerFlush rfl) trivial)
    (.build _ olderFlush _ (by decide) flushOK_olderFlush rfl) trivial)
    (.install _ (flushedFile 1 1 2 5 1) (by decide)) trivial)
    (.install _ (flushedFile 2 0 0 6 2) (by decide)) trivial, by decide, by decide, ?_⟩
  intro h
  have hmiss := h.hit.mpr ⟨_, .tail _ (.head _), 0, by decide,
    _, rfl, by decide⟩
  exact absurd hmiss (by decide)

/-- **EVERY RUN** keeps level 0 sorted, the directory sound and its tables stored. -/
theorem level0_stored {C : DbState K → DbState K → Prop} (h : Reachable C s) :
    NewestFirst s.current ∧ DirOK s.cf ∧
      ∀ f ∈ s.current, ∃ e ∈ s.cf.dir.files, TableOK s.cf.pool f e := by
  have hinv := inv_reachable h
  exact ⟨hinv.sorted, hinv.dir, fun f hf => hinv.listed f (DbState.lists_current hf)⟩

/-- Two flushes one after the other keep the directory sound. -/
theorem level0_stored_twoTables :
    ∃ s : DbState (Fin 256), s.current.map FileMetaData.number = [2, 1] ∧ DirOK s.cf := by
  obtain ⟨s, hordered, hnumbers⟩ := reachable_twoTables
  exact ⟨s, hnumbers, (level0_stored hordered).2.1⟩

end NvmRunGet
