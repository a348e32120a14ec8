import MatrixKV.OverlapProofs

/-! # Ordinary level compactions — clean cuts on both levels

    `ExpandInputsToCleanCut` widens the inputs of a level until no neighbour shares a user
    key with them; `SetupOtherInputs` takes the files of the output level that they
    overlap and may then grow the inputs once more, in one of two ways.

    * `Hull` — what `GetRange` computes; `Meets` — what a file shares with a range.
    * `expandInputs_spec` — the loop ends in a clean cut.
    * `withinInterval_spec` — so does shrinking to an interval, and keeps clean inputs.
    * **`cleanCuts_both_levels`** for every call that returns true. -/

namespace LevelCompaction

open List DbFormat Bisect Overlap

variable {K : Type} [LinearOrder K]

/-! ## The model -/

/-- What the picker reads of files and options besides the bounds. -/
structure Picker (K : Type) where
  beingCompacted : FileMetaData K → Bool
  compensatedFileSize : FileMetaData K → Nat
  maxCompactionBytes : Nat

def areFilesInCompaction (p : Picker K) (files : List (FileMetaData K)) : Bool :=
  files.any p.beingCompacted

def totalCompensatedFileSize (p : Picker K) (files : List (FileMetaData K)) : Nat :=
  (files.map p.compensatedFileSize).sum % 2 ^ 64

/-- Two internal keys, `smallest` and `largest`. -/
abbrev Range (K : Type) := InternalKey K × InternalKey K

def widen (r : Range K) (f : FileMetaData K) : Range K :=
  (if icmp f.smallest r.1 = .lt then f.smallest else r.1,
    if icmp f.largest r.2 = .gt then f.largest else r.2)

/-- `GetRange`; inputs are never empty there. -/
def getRange (level : Nat) : List (FileMetaData K) → Option (Range K)
  | [] => none
  | f :: fs =>
    if level = 0 then some (fs.foldl widen (f.smallest, f.largest))
    else some (f.smallest, ((f :: fs).getLast (cons_ne_nil f fs)).largest)

/-- `GetRange` of two sets of inputs. -/
def joinRange (r r' : Range K) : Range K :=
  (if icmp r.1 r'.1 = .lt then r.1 else r'.1, if icmp r.2 r'.2 = .lt then r'.2 else r.2)

/-- One pass of `GetOverlappingInputs` over level 0: what it takes, what it leaves, and the
    user keys it has widened the range to. -/
def passLevel0 (b e : K) : List (FileMetaData K) →
    List (FileMetaData K) × List (FileMetaData K) × K × K
  | [] => ([], [], b, e)
  | f :: fs =>
    if f.largest.userKey < b ∨ e < f.smallest.userKey then
      let r := passLevel0 b e fs
      (r.1, f :: r.2.1, r.2.2)
    else
      let r := passLevel0 (if f.smallest.userKey < b then f.smallest.userKey else b)
        (if e < f.largest.userKey then f.largest.userKey else e) fs
      (f :: r.1, r.2)

/-- The passes, until one takes nothing; every other one shortens the list. -/
def overlapLevel0 : Nat → K → K → List (FileMetaData K) → List (FileMetaData K)
  | 0, _, _, _ => []
  | fuel + 1, b, e, index =>
    let r := passLevel0 b e index
    if r.1 = [] then [] else r.1 ++ overlapLevel0 fuel r.2.2.1 r.2.2.2 r.2.1

/-- The bisection, skipped with a hint. -/
def findOverlap (probe : Nat → Ordering) (n : Nat) (hint : Option Nat) : Option Nat :=
  match hint with
  | some mid => some mid
  | none => (bisect probe n 0 ((n : Int) - 1)).1

/-- `GetOverlappingInputsRangeBinarySearch`: the inputs and the file index. -/
def rangeBinarySearch (files : List (FileMetaData K)) (r : Range K) (hint : Option Nat) :
    List (FileMetaData K) × Option Nat :=
  match findOverlap (overlapProbe r.1 r.2 files) files.length hint with
  | none => ([], none)
  | some mid => (overlapSlice files r.1 r.2 mid, some mid)

/-- `GetOverlappingInputs`, with the range expanded on level 0. -/
def getOverlapping (levels : Nat → List (FileMetaData K)) (level : Nat) (r : Range K)
    (hint : Option Nat) : List (FileMetaData K) × Option Nat :=
  if level = 0 then
    (overlapLevel0 ((levels 0).length + 1) r.1.userKey r.2.userKey (levels 0), none)
  else rangeBinarySearch (levels level) r hint

/-- The test of the bisection for files within the range. -/
def withinProbe (r : Range K) (files : List (FileMetaData K)) (mid : Nat) : Ordering :=
  match files[mid]? with
  | none => .eq
  | some f =>
    if sstableKeyCompare r.1 f.smallest = .gt then .lt
    else if sstableKeyCompare f.largest r.2 = .gt then .gt
    else .eq

/-- Shrinking from one side: files go while they reach beyond the range or touch the file
    before, at first `prev`. -/
def shrink (beyond : FileMetaData K → Bool) (touches : FileMetaData K → FileMetaData K → Bool)
    (prev : Option (FileMetaData K)) : List (FileMetaData K) → List (FileMetaData K)
  | [] => []
  | f :: fs =>
    if beyond f || prev.any (touches · f) then shrink beyond touches (some f) fs else f :: fs

def shrinkLeft (b : InternalKey K) : Option (FileMetaData K) → List (FileMetaData K) →
    List (FileMetaData K) :=
  shrink (fun f => sstableKeyCompare b f.smallest = .gt)
    (fun g f => sstableKeyCompare f.smallest g.largest = .eq)

/-- Over the reversed list. -/
def shrinkRight (e : InternalKey K) : Option (FileMetaData K) → List (FileMetaData K) →
    List (FileMetaData K) :=
  shrink (fun f => sstableKeyCompare f.largest e = .gt)
    (fun g f => sstableKeyCompare g.smallest f.largest = .eq)

/-- `ExtendFileRangeWithinInterval` from the file `mid`. -/
def withinSlice (files : List (FileMetaData K)) (r : Range K) (mid : Nat) :
    List (FileMetaData K) :=
  let start := extendBackward r.1 files (mid + 1)
  let stop := mid + extendForward r.2 (files.drop (mid + 1)) + 1
  (shrinkRight r.2 (files.drop stop).head?
    (shrinkLeft r.1 (files.take start).getLast? (overlapSlice files r.1 r.2 mid)).reverse).reverse

/-- `GetCleanInputsWithinInterval`; there is none for level 0. -/
def getCleanInputsWithinInterval (levels : Nat → List (FileMetaData K)) (level : Nat)
    (r : Range K) (hint : Option Nat) : List (FileMetaData K) :=
  if level = 0 ∨ levels level = [] then []
  else
    match findOverlap (withinProbe r (levels level)) (levels level).length hint with
    | none => []
    | some mid => withinSlice (levels level) r mid

/-- The loop of `ExpandInputsToCleanCut`; each round but the last adds a file. -/
def expandLoop (files : List (FileMetaData K)) (level : Nat) :
    Nat → Option Nat → List (FileMetaData K) → List (FileMetaData K)
  | 0, _, inputs => inputs
  | fuel + 1, hint, inputs =>
    match getRange level inputs with
    | none => inputs
    | some r =>
      let o := rangeBinarySearch files r hint
      if inputs.length < o.1.length then expandLoop files level fuel o.2 o.1 else o.1

/-- `ExpandInputsToCleanCut`: the expanded inputs, or none when it returns false. -/
def expandInputsToCleanCut (p : Picker K) (levels : Nat → List (FileMetaData K)) (level : Nat)
    (inputs : List (FileMetaData K)) : Option (List (FileMetaData K)) :=
  if level = 0 then some inputs
  else
    let expanded := expandLoop (levels level) level ((levels level).length + 1) none inputs
    if areFilesInCompaction p expanded then none else some expanded

/-- The sizes stay below `max_compaction_bytes`, and no file is being compacted. -/
def mayGrow (p : Picker K) (outputs sized chosen : List (FileMetaData K)) : Bool :=
  (totalCompensatedFileSize p outputs + totalCompensatedFileSize p sized) % 2 ^ 64
      < p.maxCompactionBytes && !areFilesInCompaction p chosen

/-- The output level would take as many files for the expanded inputs. -/
def sameOutputs (p : Picker K) (levels : Nat → List (FileMetaData K)) (level outputLevel : Nat)
    (outputs expanded : List (FileMetaData K)) (parentIndex : Option Nat) : Bool :=
  match getRange level expanded with
  | none => false
  | some r =>
    let o := (getOverlapping levels outputLevel r parentIndex).1
    !areFilesInCompaction p o &&
      (expandInputsToCleanCut p levels outputLevel o).any (·.length = outputs.length)

/-- The inputs grown over the whole range: to all files that overlap it, if that leaves the
    output level alone, or to the clean ones within. -/
def growInputs (p : Picker K) (levels : Nat → List (FileMetaData K)) (level outputLevel : Nat)
    (inputs outputs : List (FileMetaData K)) (all : Range K) (parentIndex baseIndex : Option Nat) :
    List (FileMetaData K) :=
  let overlapping := (getOverlapping levels level all baseIndex).1
  let within := getCleanInputsWithinInterval levels level all baseIndex
  match (expandInputsToCleanCut p levels level overlapping).filter (fun expanded =>
      inputs.length < expanded.length && mayGrow p outputs overlapping expanded &&
        sameOutputs p levels level outputLevel outputs expanded parentIndex) with
  | some expanded => expanded
  | none =>
    if inputs.length < within.length && mayGrow p outputs within within then within else inputs

/-- `SetupOtherInputs`: the inputs of both levels, or none when it returns false. -/
def setupOtherInputs (p : Picker K) (levels : Nat → List (FileMetaData K))
    (level outputLevel : Nat) (inputs : List (FileMetaData K))
    (parentIndex baseIndex : Option Nat) :
    Option (List (FileMetaData K) × List (FileMetaData K)) :=
  if level = outputLevel then some (inputs, [])
  else
    (getRange level inputs).bind fun r =>
      let o := getOverlapping levels outputLevel r parentIndex
      if areFilesInCompaction p o.1 then none
      else if o.1 = [] then some (inputs, [])
      else
        (expandInputsToCleanCut p levels outputLevel o.1).bind fun outputs =>
          (getRange outputLevel outputs).map fun r' =>
            (growInputs p levels level outputLevel inputs outputs (joinRange r r') o.2 baseIndex,
              outputs)

/-! ## User keys -/

/-- The file has a user key of the range. -/
def Meets (a b : K) (f : FileMetaData K) : Prop :=
  a ≤ f.largest.userKey ∧ f.smallest.userKey ≤ b

instance (a b : K) (f : FileMetaData K) : Decidable (Meets a b f) :=
  inferInstanceAs (Decidable (_ ∧ _))

/-- The files of a range. -/
def meeting (files : List (FileMetaData K)) (r : Range K) : List (FileMetaData K) :=
  files.filter (fun f => Meets r.1.userKey r.2.userKey f)

/-- The file lies in the range. -/
def Inside (r : Range K) (f : FileMetaData K) : Prop :=
  r.1.userKey ≤ f.smallest.userKey ∧ f.largest.userKey ≤ r.2.userKey

/-- The key is no range-tombstone sentinel. -/
def Plain (k : InternalKey K) : Prop := k.packed ≠ rangeTombstoneSentinel

/-- The range is the least one over the files. -/
structure Hull (inputs : List (FileMetaData K)) (r : Range K) : Prop where
  lower : ∀ f ∈ inputs, r.1.userKey ≤ f.smallest.userKey
  upper : ∀ f ∈ inputs, f.largest.userKey ≤ r.2.userKey
  lower_mem : ∃ f ∈ inputs, f.smallest = r.1
  upper_mem : ∃ f ∈ inputs, f.largest = r.2

/-- A level above 0 by user keys. -/
structure Sorted (files : List (FileMetaData K)) : Prop where
  bounds : ∀ f ∈ files, f.smallest.userKey ≤ f.largest.userKey
  order : files.Pairwise (fun f g => f.largest.userKey ≤ g.smallest.userKey)
  plain : ∀ f ∈ files, Plain f.smallest ∧ Plain f.largest

/-- No file that is not chosen has a user key in common with one that is. -/
def CleanIn (files chosen : List (FileMetaData K)) : Prop :=
  ∀ f ∈ chosen, ∀ g ∈ files, g ∉ chosen → ¬ Meets f.smallest.userKey f.largest.userKey g

variable {f : FileMetaData K} {more : List (FileMetaData K)}

section Keys

variable {files inputs : List (FileMetaData K)} {r r' : Range K}

theorem Sorted.sublist (hs : Sorted files) (hsub : inputs.Sublist files) : Sorted inputs :=
  ⟨fun f hf => hs.bounds f (hsub.subset hf), hs.order.sublist hsub,
    fun f hf => hs.plain f (hsub.subset hf)⟩

theorem sstableKeyCompare_plain {a b : InternalKey K} (ha : Plain a) (hb : Plain b) :
    (sstableKeyCompare a b = .gt ↔ b.userKey < a.userKey) ∧
    (sstableKeyCompare a b = .eq ↔ a.userKey = b.userKey) := by
  rw [← cmp_eq_gt_iff, ← cmp_eq_eq_iff a.userKey b.userKey, sstableKeyCompare]
  cases h : cmp a.userKey b.userKey with
  | eq => exact ⟨by rw [if_neg ha, if_neg hb], by rw [if_neg ha, if_neg hb]⟩
  | lt => exact ⟨Iff.rfl, Iff.rfl⟩
  | gt => exact ⟨Iff.rfl, Iff.rfl⟩

theorem userKey_le_of_icmp {a b : InternalKey K} :
    (icmp a b ≠ .gt → a.userKey ≤ b.userKey) ∧ (icmp a b ≠ .lt → b.userKey ≤ a.userKey) := by
  rcases lt_trichotomy a.userKey b.userKey with h | h | h
  · exact ⟨fun _ => h.le, fun hne => absurd (by simp [icmp, h.cmp_eq_lt]) hne⟩
  · exact ⟨fun _ => h.le, fun _ => h.symm.le⟩
  · exact ⟨fun hne => absurd (by simp [icmp, h.cmp_eq_gt]) hne, fun _ => h.le⟩

theorem Hull.plain (h : Hull inputs r) (hp : ∀ f ∈ inputs, Plain f.smallest ∧ Plain f.largest) :
    Plain r.1 ∧ Plain r.2 := by
  obtain ⟨f, hf, hfr⟩ := h.lower_mem
  obtain ⟨g, hg, hgr⟩ := h.upper_mem
  exact ⟨hfr ▸ (hp f hf).1, hgr ▸ (hp g hg).2⟩

/-- More files, a wider range. -/
theorem Hull.mono (h : Hull inputs r) (h' : Hull more r') (hsub : inputs ⊆ more) :
    r'.1.userKey ≤ r.1.userKey ∧ r.2.userKey ≤ r'.2.userKey := by
  obtain ⟨f, hf, hfr⟩ := h.lower_mem
  obtain ⟨g, hg, hgr⟩ := h.upper_mem
  exact ⟨hfr ▸ h'.lower f (hsub hf), hgr ▸ h'.upper g (hsub hg)⟩

theorem Meets.mono {a b a' b' : K} (h : Meets a b f) (ha : a' ≤ a) (hb : b ≤ b') : Meets a' b' f :=
  ⟨ha.trans h.1, h.2.trans hb⟩

/-- The wider of two ranges, on either side. -/
theorem Hull.join {s : Range K} (h : Hull inputs r) (h' : Hull more r')
    (hlow : s.1 = r.1 ∧ r.1.userKey ≤ r'.1.userKey ∨ s.1 = r'.1 ∧ r'.1.userKey ≤ r.1.userKey)
    (hup : s.2 = r.2 ∧ r'.2.userKey ≤ r.2.userKey ∨ s.2 = r'.2 ∧ r.2.userKey ≤ r'.2.userKey) :
    Hull (inputs ++ more) s := by
  have hlow' : s.1.userKey ≤ r.1.userKey ∧ s.1.userKey ≤ r'.1.userKey := by
    rcases hlow with ⟨heq, hle⟩ | ⟨heq, hle⟩
    · exact ⟨(congrArg _ heq).le, heq ▸ hle⟩
    · exact ⟨heq ▸ hle, (congrArg _ heq).le⟩
  have hup' : r.2.userKey ≤ s.2.userKey ∧ r'.2.userKey ≤ s.2.userKey := by
    rcases hup with ⟨heq, hle⟩ | ⟨heq, hle⟩
    · exact ⟨(congrArg _ heq.symm).le, heq ▸ hle⟩
    · exact ⟨heq ▸ hle, (congrArg _ heq.symm).le⟩
  constructor
  · intro f hf
    rcases mem_append.mp hf with hf | hf
    · exact hlow'.1.trans (h.lower f hf)
    · exact hlow'.2.trans (h'.lower f hf)
  · intro f hf
    rcases mem_append.mp hf with hf | hf
    · exact (h.upper f hf).trans hup'.1
    · exact (h'.upper f hf).trans hup'.2
  · rcases hlow with ⟨heq, -⟩ | ⟨heq, -⟩
    · exact h.lower_mem.imp fun f hf => ⟨mem_append_left _ hf.1, hf.2.trans heq.symm⟩
    · exact h'.lower_mem.imp fun f hf => ⟨mem_append_right _ hf.1, hf.2.trans heq.symm⟩
  · rcases hup with ⟨heq, -⟩ | ⟨heq, -⟩
    · exact h.upper_mem.imp fun f hf => ⟨mem_append_left _ hf.1, hf.2.trans heq.symm⟩
    · exact h'.upper_mem.imp fun f hf => ⟨mem_append_right _ hf.1, hf.2.trans heq.symm⟩

theorem hull_singleton (f : FileMetaData K) : Hull [f] (f.smallest, f.largest) :=
  ⟨fun _ hg => mem_singleton.mp hg ▸ le_refl _, fun _ hg => mem_singleton.mp hg ▸ le_refl _,
    ⟨f, .head _, rfl⟩, ⟨f, .head _, rfl⟩⟩

theorem hull_foldl (fs : List (FileMetaData K)) : ∀ done (r : Range K), Hull done r →
    Hull (done ++ fs) (fs.foldl widen r) := by
  induction fs with
  | nil => exact fun done r h => (append_nil done).symm ▸ h
  | cons f fs ih =>
  intro done r h
  rw [append_cons]
  refine ih _ _ (h.join (hull_singleton f) ?_ ?_)
  · by_cases hlt : icmp f.smallest r.1 = .lt
    · exact .inr ⟨if_pos hlt, userKey_le_of_icmp.1 (by rw [hlt]; exact nofun)⟩
    · exact .inl ⟨if_neg hlt, userKey_le_of_icmp.2 hlt⟩
  · by_cases hgt : icmp f.largest r.2 = .gt
    · exact .inr ⟨if_pos hgt, userKey_le_of_icmp.2 (by rw [hgt]; exact nofun)⟩
    · exact .inl ⟨if_neg hgt, userKey_le_of_icmp.1 hgt⟩

theorem joinRange_hull (h : Hull inputs r) (h' : Hull more r') :
    Hull (inputs ++ more) (joinRange r r') := by
  refine h.join h' ?_ ?_
  · by_cases hlt : icmp r.1 r'.1 = .lt
    · exact .inl ⟨if_pos hlt, userKey_le_of_icmp.1 (by rw [hlt]; exact nofun)⟩
    · exact .inr ⟨if_neg hlt, userKey_le_of_icmp.2 hlt⟩
  · by_cases hlt : icmp r.2 r'.2 = .lt
    · exact .inr ⟨if_pos hlt, userKey_le_of_icmp.1 (by rw [hlt]; exact nofun)⟩
    · exact .inl ⟨if_neg hlt, userKey_le_of_icmp.2 hlt⟩

theorem Sorted.head_le (hs : Sorted files) : ∀ h ∈ files.head?, ∀ f ∈ files,
    h.smallest.userKey ≤ f.smallest.userKey := by
  intro h hh f hf
  cases files with
  | nil => exact nomatch hf
  | cons x xs =>
  obtain rfl := Option.some.inj hh
  rcases mem_cons.mp hf with rfl | hf
  · exact le_rfl
  · exact (hs.bounds x (.head _)).trans ((pairwise_cons.mp hs.order).1 f hf)

theorem Sorted.le_last (hs : Sorted files) : ∀ a ∈ files.getLast?, ∀ f ∈ files,
    f.largest.userKey ≤ a.largest.userKey := by
  intro a ha f hf
  obtain ⟨front, rfl⟩ := getLast?_eq_some_iff.mp ha
  have hself : a ∈ front ++ [a] := mem_append_right _ (mem_singleton.mpr rfl)
  rcases mem_append.mp hf with hf | hf
  · exact ((pairwise_append.mp hs.order).2.2 f hf a (mem_singleton.mpr rfl)).trans
      (hs.bounds a hself)
  · exact mem_singleton.mp hf ▸ le_refl _

/-- Where the neighbours at a cut have no user key in common, no two files have. -/
theorem Sorted.apart {X Y : List (FileMetaData K)} (hs : Sorted (X ++ Y))
    (hcut : ∀ a ∈ X.getLast?, ∀ h ∈ Y.head?, a.largest.userKey ≠ h.smallest.userKey) :
    ∀ g ∈ X, ∀ f ∈ Y, g.largest.userKey < f.smallest.userKey := by
  intro g hg f hf
  obtain ⟨a, ha⟩ : ∃ a, X.getLast? = some a :=
    ⟨_, getLast?_eq_some_getLast (ne_nil_of_mem hg)⟩
  obtain ⟨h, hh⟩ : ∃ h, Y.head? = some h := ⟨_, head?_eq_some_head (ne_nil_of_mem hf)⟩
  have hle := (hs.sublist (sublist_append_left X Y)).le_last a ha g hg
  have hge := (hs.sublist (sublist_append_right X Y)).head_le h hh f hf
  have hmid := (pairwise_append.mp hs.order).2.2 a (mem_of_getLast? ha) h
    (mem_of_mem_head? hh)
  exact hle.trans_lt ((lt_of_le_of_ne hmid (hcut a ha h hh)).trans_le hge)

/-- **THE RANGE** of inputs is their hull. -/
theorem getRange_hull (level : Nat) (hne : inputs ≠ []) (hs : level ≠ 0 → Sorted inputs) :
    ∃ r, getRange level inputs = some r ∧ Hull inputs r := by
  cases inputs with
  | nil => exact absurd rfl hne
  | cons f fs =>
  rw [getRange]
  by_cases hlevel : level = 0
  · rw [if_pos hlevel]
    exact ⟨_, rfl, hull_foldl fs [f] _ (hull_singleton f)⟩
  have hlast := getLast_mem (cons_ne_nil f fs)
  rw [if_neg hlevel]
  refine ⟨_, rfl, (hs hlevel).head_le f rfl, (hs hlevel).le_last _ ?_,
    ⟨f, .head _, rfl⟩, ⟨_, hlast, rfl⟩⟩
  exact getLast?_eq_some_getLast _

/-! ## The searches -/

/-- A hint is unset or names a file of the range. -/
def HintOK (files : List (FileMetaData K)) (r : Range K) (hint : Option Nat) : Prop :=
  ∀ m, hint = some m → ∃ f, files[m]? = some f ∧ Meets r.1.userKey r.2.userKey f

theorem overlaps_iff_meets (hr : Plain r.1 ∧ Plain r.2) (hf : Plain f.smallest ∧ Plain f.largest) :
    Overlaps r.1 r.2 f ↔ Meets r.1.userKey r.2.userKey f := by
  rw [Overlaps, Meets, Ne, Ne, (sstableKeyCompare_plain hr.1 hf.2).1,
    (sstableKeyCompare_plain hf.1 hr.2).1, not_lt, not_lt]

theorem Sorted.levelSorted (hs : Sorted files) : LevelSorted files where
  bounds f hf := by
    rw [Ne, (sstableKeyCompare_plain (hs.plain f hf).1 (hs.plain f hf).2).1, not_lt]
    exact hs.bounds f hf
  disjoint := hs.order.imp_of_mem fun {f g} hf hg hle => by
    rw [Ne, (sstableKeyCompare_plain (hs.plain f hf).2 (hs.plain g hg).1).1, not_lt]
    exact hle

/-- From a file of the range the walks find all of them. -/
theorem overlapSlice_eq (hs : Sorted files) (hr : Plain r.1 ∧ Plain r.2) {m : Nat}
    (hm : files[m]? = some f) (hf : Meets r.1.userKey r.2.userKey f) :
    overlapSlice files r.1 r.2 m = meeting files r := by
  obtain ⟨hlt, rfl⟩ := List.getElem?_eq_some_iff.mp hm
  rw [overlapSlice_eq_filter hs.levelSorted hlt
    ((overlaps_iff_meets hr (hs.plain _ (getElem_mem hlt))).mpr hf)]
  exact filter_congr fun g hg => decide_eq_decide.mpr (overlaps_iff_meets hr (hs.plain g hg))

/-- **THE SEARCH** above level 0, with or without a hint. -/
theorem rangeBinarySearch_spec (hs : Sorted files) (hr : Plain r.1 ∧ Plain r.2)
    {hint : Option Nat} (hhint : HintOK files r hint) :
    (rangeBinarySearch files r hint).1 = meeting files r ∧
    HintOK files r (rangeBinarySearch files r hint).2 := by
  have hfound : ∀ {m f}, files[m]? = some f → Meets r.1.userKey r.2.userKey f →
      (overlapSlice files r.1 r.2 m = meeting files r) ∧
      HintOK files r (some m) := by
    intro m f hm hf
    exact ⟨overlapSlice_eq hs hr hm hf, fun m' h => Option.some.inj h ▸ ⟨f, hm, hf⟩⟩
  rw [rangeBinarySearch]
  cases hint with
  | some m =>
    obtain ⟨f, hm, hf⟩ := hhint m rfl
    exact hfound hm hf
  | none =>
  rw [findOverlap]
  cases hres : (bisect (overlapProbe r.1 r.2 files) files.length 0
      ((files.length : Int) - 1)).1 with
  | none =>
    refine ⟨?_, nofun⟩
    rw [← (bisect_overlap hs.levelSorted r.1 r.2 hres).1 rfl]
    exact filter_congr fun g hg =>
      decide_eq_decide.mpr (overlaps_iff_meets hr (hs.plain g hg))
  | some m =>
    obtain ⟨hlt, hover⟩ := (bisect_overlap hs.levelSorted r.1 r.2 hres).2 m rfl
    exact hfound (getElem?_eq_getElem hlt)
      ((overlaps_iff_meets hr (hs.plain _ (getElem_mem hlt))).mp hover)

theorem sublist_meeting (hsub : inputs.Sublist files)
    (h : ∀ f ∈ inputs, Meets r.1.userKey r.2.userKey f) : inputs.Sublist (meeting files r) := by
  have hfilter := hsub.filter (fun f => Meets r.1.userKey r.2.userKey f)
  rw [filter_eq_self.mpr fun f hf => decide_eq_true (h f hf)] at hfilter
  exact hfilter

/-- The inputs are all files of their range. -/
structure Closed (files inputs : List (FileMetaData K)) (r : Range K) : Prop extends
    Hull inputs r where
  all : inputs = meeting files r

section

variable (h : Closed files inputs r)
include h

theorem Closed.mem {g : FileMetaData K} (hg : g ∈ files)
    (hmeets : Meets r.1.userKey r.2.userKey g) : g ∈ inputs := by
  rw [h.all]
  exact mem_filter.mpr ⟨hg, decide_eq_true hmeets⟩

theorem Closed.sublist : inputs.Sublist files := by
  rw [h.all]
  exact filter_sublist

theorem Closed.of_hull (h' : Hull inputs r') :
    Closed files inputs r' := by
  obtain ⟨hlow, hup⟩ := h.toHull.mono h' (List.Subset.refl _)
  obtain ⟨hlow', hup'⟩ := h'.mono h.toHull (List.Subset.refl _)
  refine { h' with all := ?_ }
  rw [meeting, le_antisymm hlow hlow', le_antisymm hup' hup]
  exact h.all

theorem Closed.cleanIn : CleanIn files inputs :=
  fun f hf _ hg hout hmeets => hout (h.mem hg (hmeets.mono (h.lower f hf) (h.upper f hf)))

end

/-- **THE EXPANSION** ends in the least clean cut around its inputs. -/
theorem expandLoop_spec (hs : Sorted files) (level : Nat) (fuel : Nat) (hint : Option Nat)
    (inputs : List (FileMetaData K)) (hsub : inputs.Sublist files) (hne : inputs ≠ [])
    (hlt : files.length < fuel + inputs.length) (hhint : ∀ r, Hull inputs r → HintOK files r hint) :
    inputs.Sublist (expandLoop files level fuel hint inputs) ∧
      (∃ r, Closed files (expandLoop files level fuel hint inputs) r) ∧ ∀ more r, Closed files more
      r → inputs ⊆ more → expandLoop files level fuel hint inputs ⊆ more := by
  induction fuel generalizing hint inputs with
  | zero =>
    exact absurd hsub.length_le (by omega)
  | succ fuel ih =>
  obtain ⟨r, hr, hhull⟩ := getRange_hull level hne fun _ => hs.sublist hsub
  have hplain := hhull.plain fun f hf => hs.plain f (hsub.subset hf)
  obtain ⟨heq, hnext⟩ := rangeBinarySearch_spec hs hplain (hhint r hhull)
  -- each input is in its own range
  have hkeep : inputs.Sublist (meeting files r) := sublist_meeting hsub fun f hf =>
    have hle := hs.bounds f (hsub.subset hf)
    ⟨(hhull.lower f hf).trans hle, hle.trans (hhull.upper f hf)⟩
  have hround : ∀ more r', Closed files more r' → inputs ⊆ more →
      meeting files r ⊆ more := by
    intro more r' h hmore f hf
    obtain ⟨hf, hmeets⟩ := mem_filter.mp hf
    obtain ⟨hlow, hup⟩ := hhull.mono h.toHull hmore
    exact h.mem hf ((of_decide_eq_true hmeets).mono hlow hup)
  rw [expandLoop, hr]
  simp only [heq]
  by_cases hgrow : inputs.length < (meeting files r).length
  · have hhint' : ∀ r', Hull (meeting files r) r' →
        HintOK files r' (rangeBinarySearch files r hint).2 := by
      intro r' hhull' m hm
      obtain ⟨f, hf, hmeets⟩ := hnext m hm
      obtain ⟨hlow, hup⟩ := hhull.mono hhull' hkeep.subset
      exact ⟨f, hf, hmeets.mono hlow hup⟩
    obtain ⟨hsub', hclosed, hleast⟩ := ih _ (meeting files r) filter_sublist
      (ne_nil_of_length_pos (Nat.zero_lt_of_lt hgrow)) (by omega) hhint'
    rw [if_pos hgrow]
    exact ⟨hkeep.trans hsub', hclosed, fun more r' h hmore => hleast more r' h
      (hround more r' h hmore)⟩
  · rw [if_neg hgrow]
    have hsame := hkeep.eq_of_length_le (Nat.le_of_not_lt hgrow)
    exact ⟨hkeep, ⟨r, hsame ▸ hhull, rfl⟩, hround⟩

omit [LinearOrder K] in
/-- Shrinking keeps an end of the list, drops no file with `P` if `P` forbids it, and stops
    at a file that stays. -/
theorem shrink_spec {beyond : FileMetaData K → Bool}
    {touches : FileMetaData K → FileMetaData K → Bool} {P : FileMetaData K → Prop} :
    ∀ (l front : List (FileMetaData K)), (∀ f ∈ l, P f → beyond f = false) →
      (∀ f ∈ l, ∀ g ∈ front ++ l, touches g f = true → P f → P g) →
      (∀ g ∈ front.getLast?, ¬ P g) →
      ∃ dropped, l = dropped ++ shrink beyond touches front.getLast? l ∧ (∀ f ∈ dropped, ¬ P f) ∧
        ∀ f ∈ (shrink beyond touches front.getLast? l).head?, beyond f = false ∧
          ∀ g ∈ (front ++ dropped).getLast?, touches g f = false := by
  intro l
  induction l with
  | nil => exact fun _ _ _ _ => ⟨[], rfl, nofun, nofun⟩
  | cons f fs ih =>
  intro front hbeyond htouch hlast
  rw [shrink]
  by_cases hdirty : (beyond f || front.getLast?.any (touches · f)) = true
  · have hP : ¬ P f := by
      intro hP
      rw [hbeyond f (.head _) hP, Bool.false_or, Option.any_eq_true] at hdirty
      obtain ⟨g, hg, hgf⟩ := hdirty
      refine hlast g hg (htouch f (.head _) g ?_ hgf hP)
      exact mem_append_left _ (mem_of_getLast? hg)
    have hprev : (front ++ [f]).getLast? = some f := getLast?_concat
    have htouch' : ∀ f' ∈ fs, ∀ g ∈ front ++ [f] ++ fs, touches g f' = true → P f' → P g := by
      intro f' hf' g hg
      rw [← append_cons] at hg
      exact htouch f' (.tail f hf') g hg
    obtain ⟨dropped, hl, hdropped, hhead⟩ := ih (front ++ [f])
      (fun f' hf' => hbeyond f' (.tail f hf')) htouch'
      (fun g hg => by rw [hprev] at hg; exact Option.some.inj hg ▸ hP)
    rw [if_pos hdirty, ← hprev]
    refine ⟨f :: dropped, congrArg (f :: ·) hl, forall_mem_cons.mpr ⟨hP, hdropped⟩, ?_⟩
    rw [append_cons front f dropped]
    exact hhead
  · rw [if_neg hdirty]
    obtain ⟨hin, hapart⟩ := Bool.or_eq_false_iff.mp (Bool.eq_false_iff.mpr hdirty)
    refine ⟨[], rfl, nofun, fun f' hf' => ?_⟩
    rw [← Option.some.inj hf', append_nil]
    exact ⟨hin, (Option.any_eq_false _ _).mp hapart⟩

/-- Both shrinkings of a slice: the inputs stay, and the ends are cut cleanly. -/
theorem shrink_both {A slice B : List (FileMetaData K)} (hs : Sorted (A ++ slice ++ B))
    (hr : Plain r.1 ∧ Plain r.2) (hclean : CleanIn (A ++ slice ++ B) inputs)
    (hin : ∀ f ∈ inputs, f ∈ slice ∧ Inside r f) (hout : ∀ g ∈ A ++ B, g ∉ inputs)
    {out : List (FileMetaData K)}
    (hres : (shrinkRight r.2 B.head? (shrinkLeft r.1 A.getLast? slice).reverse).reverse = out) :
    inputs ⊆ out ∧ ∃ front back, A ++ slice ++ B = front ++ (out ++ back) ∧
      (∀ f ∈ out.head?, r.1.userKey ≤ f.smallest.userKey ∧
        ∀ g ∈ front.getLast?, g.largest.userKey ≠ f.smallest.userKey) ∧
      ∀ f ∈ out.getLast?, f.largest.userKey ≤ r.2.userKey ∧
        ∀ g ∈ back.head?, f.largest.userKey ≠ g.smallest.userKey := by
  have hfront : ∀ g ∈ A ++ slice, g ∈ A ++ slice ++ B := fun g => mem_append_left _
  have hslice : ∀ g ∈ slice, g ∈ A ++ slice ++ B := fun g hg =>
    hfront g (mem_append_right _ hg)
  -- an input and a file that it touches are inputs together
  have htouch : ∀ f ∈ A ++ slice ++ B, ∀ g ∈ A ++ slice ++ B,
      f.smallest.userKey = g.largest.userKey ∨ g.smallest.userKey = f.largest.userKey →
      f ∈ inputs → g ∈ inputs := by
    intro f hf g hg heq hfin
    by_contra hgout
    refine hclean f hfin g hg hgout ?_
    rcases heq with heq | heq
    · exact ⟨heq.le, (hs.bounds g hg).trans (heq ▸ hs.bounds f hf)⟩
    · exact ⟨(hs.bounds f hf).trans (heq ▸ hs.bounds g hg), heq.le⟩
  have hkey := fun f hf g hg => @sstableKeyCompare_plain K _ _ _ (hs.plain f hf).1 (hs.plain g hg).2
  obtain ⟨lost, hlost, hlostOut, hhead⟩ := @shrink_spec K
    (fun f => sstableKeyCompare r.1 f.smallest = .gt)
    (fun g f => sstableKeyCompare f.smallest g.largest = .eq) (· ∈ inputs) slice A
    (fun f hf hfin => decide_eq_false fun hgt => absurd (hin f hfin).2.1 (not_le.mpr
      ((sstableKeyCompare_plain hr.1 (hs.plain f (hslice f hf)).1).1.mp hgt)))
    (fun f hf g hg heq => htouch f (hslice f hf) g (hfront g hg)
      (.inl ((hkey f (hslice f hf) g (hfront g hg)).2.mp (of_decide_eq_true heq))))
    (fun g hg => hout g (mem_append_left _ (mem_of_getLast? hg)))
  change slice = lost ++ shrinkLeft r.1 A.getLast? slice at hlost
  change ∀ f ∈ (shrinkLeft r.1 A.getLast? slice).head?, _ at hhead
  generalize shrinkLeft r.1 A.getLast? slice = kept at hlost hhead hres
  have hkept : ∀ g ∈ kept.reverse, g ∈ A ++ slice ++ B := fun g hg =>
    hslice g (hlost ▸ mem_append_right _ (mem_reverse.mp hg))
  have hback : ∀ g ∈ B.reverse ++ kept.reverse, g ∈ A ++ slice ++ B := fun g hg =>
    (mem_append.mp hg).elim (fun h => mem_append_right _ (mem_reverse.mp h)) (hkept g)
  obtain ⟨lost', hlost', hlostOut', hlast⟩ := @shrink_spec K
    (fun f => sstableKeyCompare f.largest r.2 = .gt)
    (fun g f => sstableKeyCompare g.smallest f.largest = .eq) (· ∈ inputs) kept.reverse B.reverse
    (fun f hf hfin => decide_eq_false fun hgt => absurd (hin f hfin).2.2 (not_le.mpr
      ((sstableKeyCompare_plain (hs.plain f (hkept f hf)).2 hr.2).1.mp hgt)))
    (fun f hf g hg heq => htouch f (hkept f hf) g (hback g hg)
      (.inr ((hkey g (hback g hg) f (hkept f hf)).2.mp (of_decide_eq_true heq))))
    (fun g hg => hout g (mem_append_right _ (mem_reverse.mp (mem_of_getLast? hg))))
  rw [getLast?_reverse] at hlost' hlast
  change kept.reverse = lost' ++ shrinkRight r.2 B.head? kept.reverse at hlost'
  change ∀ f ∈ (shrinkRight r.2 B.head? kept.reverse).head?, _ at hlast
  rw [← reverse_inj, reverse_append, reverse_reverse, hres] at hlost'
  have hall : A ++ slice ++ B = (A ++ lost) ++ (out ++ (lost'.reverse ++ B)) := by
    rw [hlost, hlost']
    simp only [append_assoc]
  have houtMem : ∀ f ∈ out, f ∈ A ++ slice ++ B := fun f hf =>
    hall ▸ mem_append_right _ (mem_append_left _ hf)
  refine ⟨fun f hf => ?_, A ++ lost, lost'.reverse ++ B, hall, fun f hf => ?_, fun f hf => ?_⟩
  · have hmem := (hin f hf).1
    rw [hlost, hlost', mem_append, mem_append, mem_reverse] at hmem
    rcases hmem with h | h | h
    · exact absurd hf (hlostOut f h)
    · exact h
    · exact absurd hf (hlostOut' f h)
  · have hfout := houtMem f (mem_of_mem_head? hf)
    obtain ⟨hlow, hcut⟩ := hhead f (by rw [hlost', head?_append, hf]; rfl)
    refine ⟨?_, fun g hg heq => ?_⟩
    · exact not_lt.mp fun hlt => absurd
        ((sstableKeyCompare_plain hr.1 (hs.plain f hfout).1).1.mpr hlt)
        (of_decide_eq_false hlow)
    · have hgmem := hall ▸ mem_append_left _ (mem_of_getLast? hg)
      exact of_decide_eq_false (hcut g hg) ((hkey f hfout g hgmem).2.mpr heq.symm)
  · have hfout := houtMem f (mem_of_getLast? hf)
    rw [← hres, getLast?_reverse] at hf
    obtain ⟨hup, hcut⟩ := hlast f hf
    refine ⟨?_, fun g hg heq => ?_⟩
    · exact not_lt.mp fun hlt => absurd
        ((sstableKeyCompare_plain (hs.plain f hfout).2 hr.2).1.mpr hlt)
        (of_decide_eq_false hup)
    have hgmem := hall ▸ mem_append_right (A ++ lost) (mem_append_right out
      (mem_of_mem_head? hg))
    refine of_decide_eq_false (hcut g ?_) ((hkey g hgmem f hfout).2.mpr heq.symm)
    rw [← head?_reverse, reverse_append, reverse_reverse]
    exact hg

/-- **THE FILES WITHIN A RANGE** are cleanly cut, and clean inputs are among them. -/
theorem withinSlice_spec (hs : Sorted files) (hr : Plain r.1 ∧ Plain r.2) {m : Nat}
    (hm : files[m]? = some f) (hf : Meets r.1.userKey r.2.userKey f) (hclean : CleanIn files inputs)
    (hin : ∀ f ∈ inputs, f ∈ files ∧ Inside r f) :
    inputs ⊆ withinSlice files r m ∧ (withinSlice files r m).Sublist files ∧
    CleanIn files (withinSlice files r m) ∧ ∀ f ∈ withinSlice files r m, Inside r f := by
  -- the files in front of the slice, the slice and the files behind it
  obtain ⟨A, B, hfiles, hA, hB⟩ : ∃ A B, files = A ++ overlapSlice files r.1 r.2 m ++ B ∧
      (files.take (extendBackward r.1 files (m + 1))).getLast? = A.getLast? ∧
      (files.drop (m + extendForward r.2 (files.drop (m + 1)) + 1)).head? = B.head? := by
    refine ⟨_, _, ?_, rfl, rfl⟩
    have hle := (extendBackward_spec (b := r.1) hs.levelSorted (m + 1)
      (List.getElem?_eq_some_iff.mp hm).1).1
    conv_lhs => rw [← take_append_drop (m + extendForward r.2 (files.drop (m + 1)) + 1) files]
    refine congrArg (· ++ _) ?_
    conv_lhs => rw [← take_append_drop (extendBackward r.1 files (m + 1))
      (files.take (m + extendForward r.2 (files.drop (m + 1)) + 1))]
    rw [take_take, Nat.min_eq_left (by omega)]
    rfl
  rw [withinSlice, hA, hB]
  have hmeets := overlapSlice_eq hs hr hm hf
  generalize overlapSlice files r.1 r.2 m = slice at hfiles hmeets
  have hinMeets : ∀ f ∈ inputs, Meets r.1.userKey r.2.userKey f := fun f hf =>
    ⟨(hin f hf).2.1.trans (hs.bounds f (hin f hf).1), (hs.bounds f (hin f hf).1).trans
      (hin f hf).2.2⟩
  have hinSlice : ∀ f ∈ inputs, f ∈ slice := fun f hf => by
    rw [hmeets]
    exact mem_filter.mpr ⟨(hin f hf).1, decide_eq_true (hinMeets f hf)⟩
  -- the slice has all files of the range, so the others have none
  have hout : ∀ g ∈ A ++ B, g ∉ inputs := by
    have hself : slice.filter (fun f => Meets r.1.userKey r.2.userKey f) = slice := by
      rw [hmeets, meeting, filter_filter]
      simp only [Bool.and_self]
    have hlen := congrArg List.length hmeets
    rw [hfiles, meeting, filter_append, filter_append, hself, length_append, length_append] at hlen
    have hnil : (A ++ B).filter (fun f => Meets r.1.userKey r.2.userKey f) = [] := by
      rw [filter_append]
      exact eq_nil_of_length_eq_zero (by rw [length_append]; omega)
    exact fun g hg hgin => filter_eq_nil_iff.mp hnil g hg (decide_eq_true (hinMeets g hgin))
  subst hfiles
  obtain ⟨hsub, front, back, hall, hhead, hlast⟩ := shrink_both hs hr hclean
    (fun f hf => ⟨hinSlice f hf, (hin f hf).2⟩) hout rfl
  generalize (shrinkRight r.2 B.head? (shrinkLeft r.1 A.getLast? slice).reverse).reverse = out
    at hsub hall hhead hlast
  rw [hall] at hs ⊢
  have hright := hs.sublist (sublist_append_right front (out ++ back))
  have hleft := hs.sublist ((List.Sublist.refl front).append (sublist_append_left out back))
  have hself := hright.sublist (sublist_append_left out back)
  refine ⟨hsub, (sublist_append_left out back).trans (sublist_append_right _ _), ?_,
    fun f hf => ?_⟩
  · intro f hf g hg hgout hmeet
    rw [mem_append, mem_append] at hg
    rcases hg with hg | hg | hg
    · exact absurd hmeet.1 (not_le.mpr
        (hleft.apart (fun a ha h hh => (hhead h hh).2 a ha) g hg f hf))
    · exact hgout hg
    · exact absurd hmeet.2 (not_le.mpr
        (hright.apart (fun a ha h hh => (hlast a ha).2 h hh) f hf g hg))
  · obtain ⟨h, hh⟩ : ∃ h, out.head? = some h := ⟨_, head?_eq_some_head (ne_nil_of_mem hf)⟩
    obtain ⟨a, ha⟩ : ∃ a, out.getLast? = some a :=
      ⟨_, getLast?_eq_some_getLast (ne_nil_of_mem hf)⟩
    exact ⟨(hhead h hh).1.trans (hself.head_le h hh f hf),
      (hself.le_last a ha f hf).trans (hlast a ha).1⟩

end Keys

/-! ## The levels of a version -/

/-- The bounds of every file are in order and no sentinels, and above level 0 each file ends
    before the next one starts, by internal key. -/
structure VersionOK (levels : Nat → List (FileMetaData K)) : Prop where
  bounds : ∀ i, ∀ f ∈ levels i, icmp f.smallest f.largest ≠ .gt
  disjoint : ∀ i, i ≠ 0 → (levels i).Pairwise (fun f g => icmp f.largest g.smallest = .lt)
  plain : ∀ i, ∀ f ∈ levels i, Plain f.smallest ∧ Plain f.largest

section Levels

variable {p : Picker K} {levels : Nat → List (FileMetaData K)} {level outputLevel : Nat}
  {inputs outputs : List (FileMetaData K)} {r : Range K}

theorem VersionOK.sorted (h : VersionOK levels) (hlevel : level ≠ 0) : Sorted (levels level) where
  bounds f hf := userKey_le_of_icmp.1 (h.bounds level f hf)
  order := (h.disjoint level hlevel).imp fun hlt => userKey_le_of_icmp.1 (by rw [hlt]; exact nofun)
  plain := h.plain level

/-- Cleanly cut inputs of a level; on level 0 there is nothing to ask for. -/
structure Clean (levels : Nat → List (FileMetaData K)) (level : Nat)
    (inputs : List (FileMetaData K)) : Prop where
  mem : ∀ f ∈ inputs, f ∈ levels level
  nonempty : inputs ≠ []
  sublist : level ≠ 0 → inputs.Sublist (levels level)
  clean : level ≠ 0 → CleanIn (levels level) inputs

theorem Clean.range (h : Clean levels level inputs) (hv : VersionOK levels) :
    ∃ r, getRange level inputs = some r ∧ Hull inputs r ∧ Plain r.1 ∧ Plain r.2 := by
  obtain ⟨r, hr, hhull⟩ := getRange_hull level h.nonempty
    fun hl => (hv.sorted hl).sublist (h.sublist hl)
  exact ⟨r, hr, hhull, hhull.plain fun f hf => hv.plain level f (h.mem f hf)⟩

/-- What `ExpandInputsToCleanCut` makes of inputs when it returns true. -/
theorem expandInputs_spec (hv : VersionOK levels) (hmem : ∀ f ∈ inputs, f ∈ levels level)
    (hne : inputs ≠ []) (hsub : level ≠ 0 → inputs.Sublist (levels level))
    {expanded : List (FileMetaData K)}
    (h : expandInputsToCleanCut p levels level inputs = some expanded) :
    Clean levels level expanded ∧ inputs ⊆ expanded ∧ (level ≠ 0 →
      (∃ r, Closed (levels level) expanded r) ∧
      ∀ more r, Closed (levels level) more r → inputs ⊆ more → expanded ⊆ more) := by
  by_cases hlevel : level = 0
  · rw [expandInputsToCleanCut, if_pos hlevel] at h
    obtain rfl := Option.some.inj h
    exact ⟨⟨hmem, hne, hsub, fun hl => absurd hlevel hl⟩, List.Subset.refl _,
      fun hl => absurd hlevel hl⟩
  obtain ⟨hkeep, ⟨r, hclosed⟩, hleast⟩ := expandLoop_spec (hv.sorted hlevel) level
    ((levels level).length + 1) none inputs (hsub hlevel) hne (by omega)
      (fun _ _ _ hm => nomatch hm)
  rw [expandInputsToCleanCut, if_neg hlevel] at h
  obtain rfl : expandLoop (levels level) level ((levels level).length + 1) none inputs
      = expanded := by
    simp only [Option.ite_none_left_eq_some, Option.some.injEq] at h
    exact h.2
  refine ⟨⟨fun f hf => hclosed.sublist.subset hf, ?_, fun _ => hclosed.sublist,
    fun _ => hclosed.cleanIn⟩,
    hkeep.subset, fun _ => ⟨⟨r, hclosed⟩, hleast⟩⟩
  obtain ⟨f, hf⟩ := exists_mem_of_ne_nil _ hne
  exact ne_nil_of_mem (hkeep.subset hf)

/-- A pass over level 0 takes what meets the range it starts with. -/
theorem passLevel0_spec (index : List (FileMetaData K)) (b e : K) :
    (∀ f ∈ index, Meets b e f → f ∈ (passLevel0 b e index).1) ∧
    ∀ f, f ∈ (passLevel0 b e index).1 ∨ f ∈ (passLevel0 b e index).2.1 → f ∈ index := by
  fun_induction passLevel0 b e index with
  | case1 b e => exact ⟨nofun, fun _ hf => hf.elim nofun nofun⟩
  | case2 b e x xs hout r ih =>
    refine ⟨forall_mem_cons.mpr ⟨fun hmeets => ?_, ih.1⟩, fun f hf => ?_⟩
    · exact absurd hmeets (fun h => hout.elim (not_lt.mpr h.1) (not_lt.mpr h.2))
    · rw [mem_cons, or_left_comm] at hf
      exact mem_cons.mpr (hf.imp_right (ih.2 f))
  | case3 b e x xs hout r ih =>
    refine ⟨forall_mem_cons.mpr ⟨fun _ => .head _, fun f hf hmeets => ?_⟩, fun f hf => ?_⟩
    · refine mem_cons_of_mem _ (ih.1 f hf (hmeets.mono ?_ ?_))
      · split
        · exact le_of_lt ‹_›
        · exact le_rfl
      · split
        · exact le_of_lt ‹_›
        · exact le_rfl
    · rw [mem_cons, or_assoc] at hf
      exact mem_cons.mpr (hf.imp_right (ih.2 f))

theorem overlapLevel0_mem (fuel : Nat) (b e : K) (index : List (FileMetaData K)) :
    overlapLevel0 fuel b e index ⊆ index := by
  induction fuel generalizing b e index with
  | zero => exact nil_subset _
  | succ fuel ih =>
  intro f hf
  have hmem := (passLevel0_spec index b e).2 f
  rw [overlapLevel0] at hf
  split at hf
  · exact nomatch hf
  · exact hmem ((mem_append.mp hf).imp_right (fun h => ih _ _ _ h))

/-- **THE OVERLAPPING INPUTS** of any level. -/
theorem getOverlapping_spec (hv : VersionOK levels) (hr : Plain r.1 ∧ Plain r.2)
    {hint : Option Nat} (hhint : level ≠ 0 → HintOK (levels level) r hint) :
    ((getOverlapping levels level r hint).1 ⊆ levels level) ∧
    (∀ f ∈ levels level, Meets r.1.userKey r.2.userKey f →
      f ∈ (getOverlapping levels level r hint).1) ∧
    (level ≠ 0 → (getOverlapping levels level r hint).1.Sublist (levels level) ∧
      (∀ f ∈ (getOverlapping levels level r hint).1, Meets r.1.userKey r.2.userKey f) ∧
      HintOK (levels level) r (getOverlapping levels level r hint).2) := by
  rw [getOverlapping]
  by_cases hlevel : level = 0
  · subst hlevel
    rw [if_pos rfl]
    refine ⟨overlapLevel0_mem .., fun f hf hmeets => ?_, fun hl => absurd rfl hl⟩
    have htake := (passLevel0_spec (levels 0) _ _).1 f hf hmeets
    show f ∈ overlapLevel0 _ _ _ _
    rw [overlapLevel0, if_neg (ne_nil_of_mem htake)]
    exact mem_append_left _ htake
  · obtain ⟨heq, hnext⟩ := rangeBinarySearch_spec (hv.sorted hlevel) hr (hhint hlevel)
    rw [if_neg hlevel, heq]
    refine ⟨filter_sublist.subset, fun f hf hmeets => ?_, fun _ => ⟨filter_sublist, ?_, hnext⟩⟩
    · exact mem_filter.mpr ⟨hf, decide_eq_true hmeets⟩
    · exact fun f hf => of_decide_eq_true (mem_filter.mp hf).2

/-- The output level takes what the inputs may meet. -/
def Covers (levels : Nat → List (FileMetaData K)) (outputLevel : Nat)
    (inputs outputs : List (FileMetaData K)) : Prop :=
  ∀ g ∈ levels outputLevel, ∀ f ∈ inputs, ∀ f' ∈ inputs,
    Meets f.smallest.userKey f'.largest.userKey g → g ∈ outputs

/-- The inputs of the output level for the range `r`: the least clean cut around the files
    of the range. -/
structure OutputSide (levels : Nat → List (FileMetaData K)) (outputLevel : Nat) (r : Range K)
    (outputs : List (FileMetaData K)) (r' : Range K) (hint : Option Nat) : Prop extends
    Closed (levels outputLevel) outputs r' where
  covers : ∀ g ∈ levels outputLevel, Meets r.1.userKey r.2.userKey g → g ∈ outputs
  meets : ∃ x ∈ outputs, Meets r.1.userKey r.2.userKey x
  least : ∀ more s, Closed (levels outputLevel) more s →
    (∀ g ∈ levels outputLevel, Meets r.1.userKey r.2.userKey g → g ∈ more) → outputs ⊆ more
  hint_ok : HintOK (levels outputLevel) r hint

variable {r' : Range K} {hint : Option Nat}

/-- The first way to grow: as many files of the output level are the same files. -/
theorem OutputSide.covers_expanded (ho : OutputSide levels outputLevel r outputs r' hint)
    (hv : VersionOK levels) (hout : outputLevel ≠ 0) {expanded : List (FileMetaData K)}
    (hexp : Clean levels level expanded) (hhull : Hull inputs r) (hsub : inputs ⊆ expanded)
    (h : sameOutputs p levels level outputLevel outputs expanded hint = true) :
    Covers levels outputLevel expanded outputs := by
  obtain ⟨s, hs, hnew, hplain⟩ := hexp.range hv
  obtain ⟨hlow, hup⟩ := hhull.mono hnew hsub
  have hhint : HintOK (levels outputLevel) s hint := fun m hm =>
    (ho.hint_ok m hm).imp fun f hf => ⟨hf.1, hf.2.mono hlow hup⟩
  obtain ⟨hmem, htake, hrest⟩ := getOverlapping_spec hv hplain (fun _ => hhint)
  rw [sameOutputs, hs, Bool.and_eq_true, Option.any_eq_true] at h
  obtain ⟨-, out, hexpand, hlen⟩ := h
  obtain ⟨x, hx, hxr⟩ := ho.meets
  have hxr' := htake x (ho.sublist.subset hx) (hxr.mono hlow hup)
  obtain ⟨-, hsub', hclosed⟩ := expandInputs_spec hv (fun f hf => hmem hf)
    (ne_nil_of_mem hxr') (fun hl => (hrest hl).1) hexpand
  obtain ⟨⟨s', hs'⟩, -⟩ := hclosed hout
  -- the files of the wider range include the outputs, and are not more
  have hall : ∀ f ∈ outputs, f ∈ out := fun f hf => ho.least out s' hs' (fun g hg hgr =>
    hsub' (htake g hg (hgr.mono hlow hup))) hf
  have hkeep : outputs.Sublist out := by
    rw [hs'.all] at hall ⊢
    exact sublist_meeting ho.sublist fun f hf => of_decide_eq_true (mem_filter.mp (hall f hf)).2
  have hsame := hkeep.eq_of_length (of_decide_eq_true hlen).symm
  intro g hg f hf f' hf' hgf
  rw [hsame]
  exact hsub' (htake g hg (hgf.mono (hnew.lower f hf) (hnew.upper f' hf')))

/-- The second way: nothing leaves the range of inputs and outputs. -/
theorem OutputSide.covers_within (ho : OutputSide levels outputLevel r outputs r' hint)
    (hbounds : ∀ g ∈ levels outputLevel, g.smallest.userKey ≤ g.largest.userKey)
    (hhull : Hull inputs r) {within : List (FileMetaData K)}
    (hin : ∀ f ∈ within, Inside (joinRange r r') f) : Covers levels outputLevel within outputs := by
  intro g hg f hf f' hf' hgf
  have hall := joinRange_hull hhull ho.toHull
  obtain ⟨hlow, hup⟩ := hgf.mono (hin f hf).1 (hin f' hf').2
  obtain ⟨x, hx, hxr⟩ := ho.meets
  by_contra hgout
  have hnot : ¬ Meets r'.1.userKey r'.2.userKey g := fun h => hgout (ho.toClosed.mem hg h)
  refine hgout (ho.covers g hg ?_)
  rcases not_and_or.mp hnot with hbelow | habove
  · -- in front of the outputs only the inputs reach that far
    have hbelow := not_le.mp hbelow
    obtain ⟨y, hy, hyr⟩ := hall.lower_mem
    rcases mem_append.mp hy with hy | hy
    · refine ⟨(hhull.lower y hy).trans (hyr ▸ hlow), ?_⟩
      exact (hbounds g hg).trans (hbelow.le.trans ((ho.lower x hx).trans hxr.2))
    · exact absurd ((ho.lower y hy).trans (hyr ▸ hlow)) (not_le.mpr hbelow)
  · have habove := not_le.mp habove
    obtain ⟨y, hy, hyr⟩ := hall.upper_mem
    rcases mem_append.mp hy with hy | hy
    · refine ⟨?_, (hyr ▸ hup).trans (hhull.upper y hy)⟩
      exact hxr.1.trans ((ho.upper x hx).trans (habove.le.trans (hbounds g hg)))
    · exact absurd ((hyr ▸ hup).trans (ho.upper y hy)) (not_le.mpr habove)

/-- **THE CLEAN FILES WITHIN AN INTERVAL** of a level above 0, or none. -/
theorem withinInterval_spec (hv : VersionOK levels) (hin : Clean levels level inputs)
    (hr : Plain r.1 ∧ Plain r.2) (hhint : HintOK (levels level) r hint)
    (hinside : ∀ f ∈ inputs, Inside r f)
    {within : List (FileMetaData K)}
    (h : getCleanInputsWithinInterval levels level r hint = within) (hne : within ≠ []) :
    inputs ⊆ within ∧ Clean levels level within ∧ ∀ f ∈ within, Inside r f := by
  subst h
  by_cases hlevel : level = 0 ∨ levels level = []
  · exact absurd (by rw [getCleanInputsWithinInterval, if_pos hlevel]) hne
  have hs := hv.sorted fun h => hlevel (.inl h)
  -- whatever file the search starts from, it is one of the range
  have hfound : ∀ {m f}, (levels level)[m]? = some f → Meets r.1.userKey r.2.userKey f →
      inputs ⊆ withinSlice (levels level) r m ∧
      (withinSlice (levels level) r m ≠ [] → Clean levels level (withinSlice (levels level) r m)) ∧
      ∀ f ∈ withinSlice (levels level) r m,
        Inside r f := by
    intro m f hm hf
    obtain ⟨hsub, hlist, hclean, hrange⟩ := withinSlice_spec hs hr hm hf
      (hin.clean fun h => hlevel (.inl h)) (fun f hf => ⟨hin.mem f hf, hinside f hf⟩)
    exact ⟨hsub, fun hne => ⟨fun f hf => hlist.subset hf, hne, fun _ => hlist,
      fun _ => hclean⟩, hrange⟩
  rw [getCleanInputsWithinInterval, if_neg hlevel] at hne ⊢
  cases hint with
  | some m =>
    obtain ⟨f, hm, hf⟩ := hhint m rfl
    exact ⟨(hfound hm hf).1, (hfound hm hf).2.1 hne, (hfound hm hf).2.2⟩
  | none =>
  rw [findOverlap] at hne ⊢
  cases hres : (bisect (withinProbe r (levels level)) (levels level).length 0
      (((levels level).length : Int) - 1)).1 with
  | none => exact absurd (by rw [hres]) hne
  | some m =>
    obtain ⟨-, hlt, hprobe⟩ := bisect_hit _ _ _ _ m (le_refl 0) hres
    obtain ⟨f, hm⟩ : ∃ f, (levels level)[m]? = some f :=
      ⟨_, getElem?_eq_getElem (show m < (levels level).length by omega)⟩
    have hfmem := mem_of_getElem? hm
    have hbounds := hs.bounds f hfmem
    have hf : Meets r.1.userKey r.2.userKey f := by
      rw [withinProbe, hm] at hprobe
      simp only [(sstableKeyCompare_plain hr.1 (hs.plain f hfmem).1).1,
        (sstableKeyCompare_plain (hs.plain f hfmem).2 hr.2).1] at hprobe
      split at hprobe
      · exact nomatch hprobe
      split at hprobe
      · exact nomatch hprobe
      · exact ⟨(not_lt.mp ‹_›).trans hbounds, hbounds.trans (not_lt.mp ‹_›)⟩
    rw [hres] at hne
    exact ⟨(hfound hm hf).1, (hfound hm hf).2.1 hne, (hfound hm hf).2.2⟩

/-- Either way, or without growth. -/
theorem growInputs_spec (ho : OutputSide levels outputLevel r outputs r' hint)
    (hv : VersionOK levels) (hout : outputLevel ≠ 0) (hin : Clean levels level inputs)
    (hhull : Hull inputs r) {baseIndex : Option Nat}
    (hplain : Plain (joinRange r r').1 ∧ Plain (joinRange r r').2)
    (hbase : HintOK (levels level) (joinRange r r') baseIndex) {grown : List (FileMetaData K)}
    (h : growInputs p levels level outputLevel inputs outputs (joinRange r r') hint baseIndex
      = grown) :
    inputs ⊆ grown ∧ Clean levels level grown ∧ Covers levels outputLevel grown outputs := by
  have hall := joinRange_hull hhull ho.toHull
  have hinAll : ∀ f ∈ inputs, Inside (joinRange r r') f := fun f hf =>
    ⟨hall.lower f (mem_append_left _ hf), hall.upper f (mem_append_left _ hf)⟩
  have hbounds : ∀ i, ∀ f ∈ levels i, f.smallest.userKey ≤ f.largest.userKey := fun i f hf =>
    userKey_le_of_icmp.1 (hv.bounds i f hf)
  obtain ⟨hmem, htake, hrest⟩ := getOverlapping_spec hv hplain (fun _ => hbase)
  have hover : inputs ⊆ (getOverlapping levels level (joinRange r r') baseIndex).1 := fun f hf =>
    have hf' := hbounds level f (hin.mem f hf)
    htake f (hin.mem f hf) ⟨(hinAll f hf).1.trans hf', hf'.trans (hinAll f hf).2⟩
  rw [growInputs] at h
  split at h
  · rename_i expanded hexp
    subst h
    obtain ⟨hexp, hcond⟩ := Option.filter_eq_some_iff.mp hexp
    obtain ⟨f, hf⟩ := exists_mem_of_ne_nil _ hin.nonempty
    obtain ⟨hclean, hsub, -⟩ := expandInputs_spec hv (fun f hf => hmem hf)
      (ne_nil_of_mem (hover hf)) (fun hl => (hrest hl).1) hexp
    have hinExp : inputs ⊆ expanded := fun f hf => hsub (hover hf)
    rw [Bool.and_eq_true] at hcond
    exact ⟨hinExp, hclean, ho.covers_expanded hv hout hclean hhull hinExp hcond.2⟩
  · split at h
    · rename_i hgrow
      subst h
      rw [Bool.and_eq_true, decide_eq_true_eq] at hgrow
      obtain ⟨hsub, hclean, hrange⟩ := withinInterval_spec hv hin hplain hbase hinAll rfl
        (ne_nil_of_length_pos (Nat.zero_lt_of_lt hgrow.1))
      exact ⟨hsub, hclean, ho.covers_within (hbounds outputLevel) hhull hrange⟩
    · subst h
      exact ⟨List.Subset.refl _, hin, ho.covers_within (hbounds outputLevel) hhull hinAll⟩

/-- **CLEAN CUTS ON BOTH LEVELS.** Whenever both calls return true, the inputs of the start
    level include those given, no file left behind in either level shares a user key with a
    chosen one, and the output level gives every file within reach. -/
theorem cleanCuts_both_levels (hv : VersionOK levels) (hne : inputs ≠ [])
    (hmem : ∀ f ∈ inputs, f ∈ levels level) (hrun : level ≠ 0 → inputs <:+: levels level)
    (hlevels : level ≠ outputLevel) (hout : outputLevel ≠ 0)
    {expanded start output : List (FileMetaData K)} {parentIndex baseIndex : Option Nat}
    (hparent : ∀ r, Hull expanded r → HintOK (levels outputLevel) r parentIndex)
    (hbase : ∀ r, Hull (expanded ++ output) r → HintOK (levels level) r baseIndex)
    (hexpand : expandInputsToCleanCut p levels level inputs = some expanded)
    (hsetup : setupOtherInputs p levels level outputLevel expanded parentIndex baseIndex
      = some (start, output)) :
    inputs ⊆ start ∧ (level ≠ 0 → CleanIn (levels level) start) ∧
    CleanIn (levels outputLevel) output ∧ Covers levels outputLevel start output := by
  obtain ⟨hclean, hsub, -⟩ := expandInputs_spec hv hmem hne (fun hl => (hrun hl).sublist) hexpand
  obtain ⟨r, hr, hhull, hplain⟩ := hclean.range hv
  obtain ⟨hmemO, htake, hrest⟩ := getOverlapping_spec hv hplain (fun _ => hparent r hhull)
  obtain ⟨hlist, hmeets, hhint⟩ := hrest hout
  rw [setupOtherInputs, if_neg hlevels, hr, Option.bind_some] at hsetup
  simp only [Option.ite_none_left_eq_some] at hsetup
  obtain ⟨-, hsetup⟩ := hsetup
  split at hsetup
  · rename_i hnil
    simp only [Option.some.injEq, Prod.mk.injEq] at hsetup
    obtain ⟨rfl, rfl⟩ := hsetup
    refine ⟨hsub, hclean.clean, nofun, fun g hg f hf f' hf' hgf => ?_⟩
    exact hnil ▸ htake g hg (hgf.mono (hhull.lower f hf) (hhull.upper f' hf'))
  rename_i hsome
  obtain ⟨outputs, houtputs, hsetup⟩ := Option.bind_eq_some_iff.mp hsetup
  obtain ⟨hcleanO, hsubO, hclosed⟩ := expandInputs_spec hv (fun f hf => hmemO hf) hsome
    (fun _ => hlist) houtputs
  obtain ⟨r', hr', hhull', -⟩ := hcleanO.range hv
  rw [hr', Option.map_some, Option.some.injEq, Prod.mk.injEq] at hsetup
  obtain ⟨hgrow, rfl⟩ := hsetup
  obtain ⟨⟨s, hs⟩, hleast⟩ := hclosed hout
  obtain ⟨x, hx⟩ := exists_mem_of_ne_nil _ hsome
  have ho : OutputSide levels outputLevel r outputs r'
      (getOverlapping levels outputLevel r parentIndex).2 :=
    { hs.of_hull hhull' with
      covers := fun g hg hgr => hsubO (htake g hg hgr)
      meets := ⟨x, hsubO hx, hmeets x hx⟩
      least := fun more t ht hmore => hleast more t ht fun g hg => hmore g (hmemO hg) (hmeets g hg)
      hint_ok := hhint }
  have hall := joinRange_hull hhull hhull'
  obtain ⟨hsub', hclean', hcovers⟩ := growInputs_spec ho hv hout hclean hhull
    (hall.plain fun f hf => (mem_append.mp hf).elim
      (fun h => hv.plain level f (hclean.mem f h))
        (fun h => hv.plain outputLevel f (hcleanO.mem f h)))
    (hbase _ hall) hgrow
  exact ⟨fun f hf => hsub' (hsub hf), hclean'.clean, hcleanO.clean hout, hcovers⟩

end Levels

/-- A file from the user key `a` to the user key `b`. -/
def plainFile (number a b : Nat) : FileMetaData Nat :=
  { number := number, fileSize := 10, smallest := ⟨a, 9, .value⟩, largest := ⟨b, 8, .value⟩,
    smallestSeqno := 8, largestSeqno := 9 }

/-- Two files of level 1 share the user key 2, and level 2 starts in the second of them. -/
def sharedKeyLevels : Nat → List (FileMetaData Nat)
  | 1 => [plainFile 1 1 2, { plainFile 2 2 4 with smallest := ⟨2, 7, .value⟩ }]
  | 2 => [plainFile 3 3 5, plainFile 4 6 7]
  | _ => []

theorem sharedKeyLevels_ok : VersionOK sharedKeyLevels := by
  have hall : ∀ i, (∀ f ∈ sharedKeyLevels i, icmp f.smallest f.largest ≠ .gt ∧
      Plain f.smallest ∧ Plain f.largest) ∧
      (sharedKeyLevels i).Pairwise (fun f g => icmp f.largest g.smallest = .lt)
    | 1 | 2 => ⟨by unfold Plain; decide, by decide⟩
    | 0 | _ + 3 => ⟨nofun, .nil⟩
  exact ⟨fun i f hf => ((hall i).1 f hf).1, fun i _ => (hall i).2, fun i f hf =>
    ((hall i).1 f hf).2⟩

/-- From its first file, both files of level 1 are taken and the first one of level 2. -/
theorem cleanCuts_sharedKey :
    [plainFile 1 1 2] ⊆ sharedKeyLevels 1 ∧
      (1 ≠ 0 → CleanIn (sharedKeyLevels 1) (sharedKeyLevels 1)) ∧
    CleanIn (sharedKeyLevels 2) [plainFile 3 3 5] ∧
    Covers sharedKeyLevels 2 (sharedKeyLevels 1) [plainFile 3 3 5] :=
  cleanCuts_both_levels (p := ⟨fun _ => false, fun _ => 10, 1000⟩) sharedKeyLevels_ok
    (cons_ne_nil _ _) (by decide) (fun _ => ⟨[], _, rfl⟩) (by decide) (by decide)
    (fun r _ => show HintOK _ r none from nofun) (fun r _ => show HintOK _ r none from nofun)
    (show _ = some (sharedKeyLevels 1) by decide) (by decide)

end LevelCompaction
