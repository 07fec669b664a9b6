import Mathlib
import S3fs.Operations
import S3fs.Unloaded

/-!
# The page list as a map of the file's bytes

A page list stands for a simple state: the size of the cache file, the two flags of each of its
bytes, the flags an empty file keeps in its page of no bytes, and whether a truncation is still
to be uploaded. `FileState` is that state, with the facts that make it one (the bytes below the
size have flags, no other does, and only an empty file has empty-file flags) as fields;
`PageList.toFileState` reads it off a well-formed list.

* `Op.apply_toFileState`: every operation on the list alone acts on the state the list stands
  for as the abstract operation `FileState.apply` says, whatever pages represent it;
* `applyAll_toFileState`: so does every sequence of them, from every well-formed list;
* `modified_queries_toFileState`: `IsModified` and `BytesModified` are questions about the
  state: a truncation to upload, a modified empty file or a modified byte, and the number of
  modified bytes. An empty file keeps its modified mark only in its page of no bytes, which is
  why the state carries that page's flags;
* `unloaded_queries_toFileState`: `IsPageLoaded`, `GetUnloadedPages` and
  `GetTotalUnloadedPageSize` with no limit give the same answers on every two lists that stand
  for one state, for every request whose end is an `off_t`, so `Compress` never changes them.
  With a limit the count depends on where the pages are cut;
* `setPageLoadedStatus_queries`: right after `SetPageLoadedStatus`, the three queries over the
  range it set read back the status it set.
-/

namespace S3fs

/-! ## The abstract state -/

/-- The flags of the page of no bytes that stands for an empty file, if the list is that page. -/
def emptyPageFlags : List FdPage → Option (Bool × Bool)
  | [page] => if page.bytes = 0 then some page.flags else none
  | _ => none

/-- What a page list stands for: the size of the cache file, the flags (loaded, modified) of
each of its bytes, the flags of an empty file's page of no bytes, and whether a truncation is
still to be uploaded. -/
@[ext]
structure FileState where
  size : Int
  flags : Int → Option (Bool × Bool)
  emptyFlags : Option (Bool × Bool)
  isShrink : Bool
  sizeNonneg : 0 ≤ size
  flagsDefined : ∀ x, (flags x).isSome ↔ 0 ≤ x ∧ x < size
  emptyFlagsOfEmpty : emptyFlags.isSome → size = 0

namespace FileState

/-- `Init`: `size` bytes (none when negative) with the given flags, kept by the page of no bytes
when `size` is 0, and no truncation pending. -/
def init (size : Int) (isLoaded isModified : Bool) : FileState where
  size := max size 0
  flags x := if 0 ≤ x ∧ x < size then some (isLoaded, isModified) else none
  emptyFlags := if size = 0 then some (isLoaded, isModified) else none
  isShrink := false
  sizeNonneg := le_max_right size 0
  flagsDefined x := by
    dsimp only
    split_ifs with inside
    · simp only [Option.isSome_some, true_iff]; omega
    · simp only [Option.isSome_none, Bool.false_eq_true, false_iff]; omega
  emptyFlagsOfEmpty := by split_ifs with empty <;> simp [empty]

/-- `Resize` to `size ≥ 0`: new bytes take the given flags and bytes from `size` on go; an empty
file becomes `Init(size)`, and a cut with the modified flag leaves a truncation to upload. -/
def resize (s : FileState) (size : Int) (nonneg : 0 ≤ size) (isLoaded isModified : Bool) :
    FileState where
  size := size
  flags x :=
    if s.size ≤ x ∧ x < size then some (isLoaded, isModified)
    else if x < size then s.flags x else none
  emptyFlags := if s.size = 0 ∧ size = 0 then some (isLoaded, isModified) else none
  isShrink := s.isShrink || (decide (size < s.size) && isModified)
  sizeNonneg := nonneg
  flagsDefined x := by
    have defined := s.flagsDefined x
    have := s.sizeNonneg
    dsimp only
    split_ifs with added kept
    · simp only [Option.isSome_some, true_iff]; omega
    · rw [defined]; omega
    · simp only [Option.isSome_none, Bool.false_eq_true, false_iff]; omega
  emptyFlagsOfEmpty := by split_ifs with empty <;> simp [empty]

/-- `SetPageLoadedStatus` over `[start, start + size)` with `start, size ≥ 0`: those bytes take
the status's flags, the bytes between the old end and `start` are unloaded with its modified
flag, and an empty file with an empty range keeps the status's flags. -/
def setPageLoadedStatus (s : FileState) (start size : Int) (startNonneg : 0 ≤ start)
    (sizeNonneg : 0 ≤ size) (pstatus : PageStatus) : FileState where
  size := max s.size (start + size)
  flags x :=
    if start ≤ x ∧ x < start + size then some (pstatus.isLoaded, pstatus.isModified)
    else if s.size ≤ x ∧ x < start then some (false, pstatus.isModified)
    else s.flags x
  emptyFlags :=
    if s.size = 0 ∧ start + size = 0 then some (pstatus.isLoaded, pstatus.isModified) else none
  isShrink := s.isShrink
  sizeNonneg := le_max_of_le_left s.sizeNonneg
  flagsDefined x := by
    have defined := s.flagsDefined x
    have := s.sizeNonneg
    dsimp only
    split_ifs with set gap
    · simp only [Option.isSome_some, true_iff]; omega
    · simp only [Option.isSome_some, true_iff]; omega
    · rw [defined]; omega
  emptyFlagsOfEmpty := by
    split_ifs with empty
    · simp only [Option.isSome_some, forall_const]; omega
    · simp

/-- `ClearAllModified`: no byte and no empty file is modified, and no truncation is pending. -/
def clearAllModified (s : FileState) : FileState where
  size := s.size
  flags x := (s.flags x).map fun flags => (flags.1, false)
  emptyFlags := s.emptyFlags.map fun flags => (flags.1, false)
  isShrink := false
  sizeNonneg := s.sizeNonneg
  flagsDefined x := by rw [Option.isSome_map']; exact s.flagsDefined x
  emptyFlagsOfEmpty := by rw [Option.isSome_map']; exact s.emptyFlagsOfEmpty

end FileState

/-! ## The operations on the list alone -/

/-- The operations that act on the list alone, with the offsets and sizes their callers pass:
none negative, and a `SetPageLoadedStatus` request that ends inside the `off_t` range;
`Deserialize` replaces the list by what the stats file records. -/
def Op.InMemory : Op → Prop
  | .resize size _ _ => 0 ≤ size
  | .setPageLoadedStatus start size _ _ => Request start size
  | .deserialize _ _ => False
  | _ => True

instance : (op : Op) → Decidable op.InMemory
  | .init .. => inferInstanceAs (Decidable True)
  | .resize size _ _ => inferInstanceAs (Decidable (0 ≤ size))
  | .parse _ => inferInstanceAs (Decidable True)
  | .compress => inferInstanceAs (Decidable True)
  | .setPageLoadedStatus start size _ _ => inferInstanceAs (Decidable (Request start size))
  | .clearAllModified => inferInstanceAs (Decidable True)
  | .getPageListsForMultipartUpload .. => inferInstanceAs (Decidable True)
  | .getNoDataPageLists .. => inferInstanceAs (Decidable True)
  | .deserialize .. => inferInstanceAs (Decidable False)

/-- What an operation on the list alone does to the state: `Parse`, `Compress` and the two
queries that compress the list first change nothing of it. -/
def FileState.apply (s : FileState) : (op : Op) → op.InMemory → FileState
  | .init size isLoaded isModified, _ => init size isLoaded isModified
  | .resize size isLoaded isModified, nonneg => s.resize size nonneg isLoaded isModified
  | .parse _, _ => s
  | .compress, _ => s
  | .setPageLoadedStatus start size pstatus _, inMemory =>
      s.setPageLoadedStatus start size inMemory.start_nonneg inMemory.size_nonneg pstatus
  | .clearAllModified, _ => s.clearAllModified
  | .getPageListsForMultipartUpload .., _ => s
  | .getNoDataPageLists .., _ => s
  | .deserialize .., inMemory => inMemory.elim

/-! ## The state a page list stands for -/

theorem WellFormed.flagsAt_isSome_iff {pl : PageList} (wellFormed : WellFormed pl.pages) (x : Int) :
    (flagsAt pl.pages x).isSome ↔ 0 ≤ x ∧ x < pl.size := by
  constructor
  · intro defined
    by_contra outside
    rw [wellFormed.flagsAt_eq_none (by omega)] at defined
    cases defined
  · rintro ⟨low, high⟩
    have contiguous := wellFormed.contiguous_of_size_ne_zero (by omega)
    rw [size_eq_endFrom] at high
    obtain ⟨page, member, inside⟩ := contiguous.exists_mem ⟨low, high⟩
    rw [contiguous.flagsAt_of_mem member inside]
    rfl

theorem Contiguous.emptyPageFlags_eq_none {start : Int} {pages : List FdPage}
    (contiguous : Contiguous start pages) : emptyPageFlags pages = none := by
  match pages, contiguous with
  | [], _ => rfl
  | [_], ⟨_, positive, _⟩ => exact if_neg positive.ne'
  | _ :: _ :: _, _ => rfl

theorem WellFormed.emptyPageFlags_eq_none {pl : PageList} (wellFormed : WellFormed pl.pages)
    (positive : 0 < pl.size) : emptyPageFlags pl.pages = none :=
  (wellFormed.contiguous_of_size_ne_zero positive.ne').emptyPageFlags_eq_none

theorem WellFormed.size_of_emptyPageFlags {pl : PageList} (wellFormed : WellFormed pl.pages)
    (defined : (emptyPageFlags pl.pages).isSome) : pl.size = 0 := by
  have := wellFormed.size_nonneg
  by_contra nonzero
  rw [wellFormed.emptyPageFlags_eq_none (by omega)] at defined
  cases defined

/-- The state a well-formed page list stands for. -/
def PageList.toFileState (pl : PageList) (wellFormed : WellFormed pl.pages) : FileState where
  size := pl.size
  flags := flagsAt pl.pages
  emptyFlags := emptyPageFlags pl.pages
  isShrink := pl.isShrink
  sizeNonneg := wellFormed.size_nonneg
  flagsDefined := wellFormed.flagsAt_isSome_iff
  emptyFlagsOfEmpty := wellFormed.size_of_emptyPageFlags

@[simp]
theorem PageList.toFileState_size (pl : PageList) (wellFormed : WellFormed pl.pages) :
    (pl.toFileState wellFormed).size = pl.size := rfl

@[simp]
theorem PageList.toFileState_flags (pl : PageList) (wellFormed : WellFormed pl.pages) :
    (pl.toFileState wellFormed).flags = flagsAt pl.pages := rfl

@[simp]
theorem PageList.toFileState_emptyFlags (pl : PageList) (wellFormed : WellFormed pl.pages) :
    (pl.toFileState wellFormed).emptyFlags = emptyPageFlags pl.pages := rfl

@[simp]
theorem PageList.toFileState_isShrink (pl : PageList) (wellFormed : WellFormed pl.pages) :
    (pl.toFileState wellFormed).isShrink = pl.isShrink := rfl

/-- A list stands for a state when its size, byte flags, empty-file flags and `is_shrink` are
the state's. -/
theorem PageList.toFileState_eq {pl : PageList} {wellFormed : WellFormed pl.pages}
    {s : FileState} (size : pl.size = s.size) (flags : ∀ x, flagsAt pl.pages x = s.flags x)
    (emptyFlags : emptyPageFlags pl.pages = s.emptyFlags) (isShrink : pl.isShrink = s.isShrink) :
    pl.toFileState wellFormed = s :=
  FileState.ext size (funext flags) emptyFlags isShrink

/-! ## Each operation on the state -/

theorem init_toFileState (pl : PageList) (size : Int) (isLoaded isModified : Bool) :
    (pl.init size isLoaded isModified).toFileState (init_wellFormed pl size isLoaded isModified) =
      FileState.init size isLoaded isModified := by
  by_cases nonneg : 0 ≤ size
  · have pages : (pl.init size isLoaded isModified).pages = [⟨0, size, isLoaded, isModified⟩] :=
      if_pos nonneg
    refine PageList.toFileState_eq ?_ (fun x => ?_) ?_ rfl
    · simp only [PageList.size, pages, FileState.init, List.getLast?_singleton, FdPage.next_mk]
      omega
    · simp only [pages, flagsAt_cons, flagsAt_nil, FdPage.Contains, FdPage.next_mk,
        FdPage.flags_mk, FileState.init, zero_add]
    · simp only [pages, emptyPageFlags, FileState.init, FdPage.flags_mk]
  · have pages : (pl.init size isLoaded isModified).pages = [] := if_neg nonneg
    refine PageList.toFileState_eq ?_ (fun x => ?_) ?_ rfl
    · simp only [PageList.size, pages, FileState.init, List.getLast?_nil]
      omega
    · simp only [pages, flagsAt_nil, FileState.init]
      rw [if_neg (by omega)]
    · simp only [pages, emptyPageFlags, FileState.init]
      rw [if_neg (by omega)]

theorem resize_toFileState {pl : PageList} (wellFormed : WellFormed pl.pages) {size : Int}
    (nonneg : 0 ≤ size) (isLoaded isModified : Bool) :
    (pl.resize size isLoaded isModified).toFileState
        (resize_wellFormed wellFormed size isLoaded isModified).1 =
      (pl.toFileState wellFormed).resize size nonneg isLoaded isModified := by
  have sizeNonneg := wellFormed.size_nonneg
  have resized := (resize_wellFormed wellFormed size isLoaded isModified).1
  by_cases grows : pl.size ≤ size
  · obtain ⟨-, -, sizeEq, shrinkEq, flagsEq⟩ := resize_grow isLoaded isModified wellFormed grows
    refine PageList.toFileState_eq sizeEq (fun x => ?_) ?_ ?_
    · simp only [flagsEq, FileState.resize, PageList.toFileState]
      split_ifs with added kept
      · rfl
      · rfl
      · exact wellFormed.flagsAt_eq_none (by omega)
    · by_cases empty : pl.size = 0
      · have pages : (pl.resize size isLoaded isModified).pages =
            [⟨0, size, isLoaded, isModified⟩] := by
          rw [PageList.resize_of_size_eq_zero empty, PageList.compress_pages]
          exact congrArg compressPages (if_pos nonneg)
        simp only [pages, emptyPageFlags, FileState.resize, PageList.toFileState, empty,
          true_and, FdPage.flags_mk]
      · rw [resized.emptyPageFlags_eq_none (by omega)]
        simp only [FileState.resize, PageList.toFileState, empty, false_and, if_false]
    · simp only [shrinkEq, FileState.resize, PageList.toFileState, decide_eq_false (not_lt.mpr grows),
        Bool.false_and, Bool.or_false]
  · obtain ⟨-, -, sizeEq, shrinkEq, flagsEq⟩ :=
      resize_shrink isLoaded isModified wellFormed nonneg (by omega)
    refine PageList.toFileState_eq sizeEq (fun x => ?_) ?_ ?_
    · simp only [flagsEq, FileState.resize, PageList.toFileState]
      rw [if_neg (show ¬ (pl.size ≤ x ∧ x < size) by omega)]
    · simp only [FileState.resize, PageList.toFileState]
      rw [if_neg (show ¬ (pl.size = 0 ∧ size = 0) by omega)]
      by_cases positive : 0 < size
      · exact resized.emptyPageFlags_eq_none (by omega)
      · rw [PageList.resize_of_gt (by omega) (by omega), PageList.compress_pages,
          cutPages_eq_nil (wellFormed.contiguous_of_size_ne_zero (by omega)) (by omega)]
        rfl
    · simp only [shrinkEq, FileState.resize, PageList.toFileState,
        decide_eq_true (show size < pl.size by omega), Bool.true_and]

theorem parse_of_isEmptyFilePage {pl : PageList} (emptyFile : IsEmptyFilePage pl.pages)
    (pos : Int) : pl.parse pos = pl := by
  rcases pl with ⟨pages, isShrink⟩
  match pages, emptyFile with
  | [page], ⟨atZero, empty⟩ =>
      simp only [PageList.parse, PageList.parsePages]
      split_ifs with atOffset inside
      · rfl
      · simp only [FdPage.next] at inside
        omega
      · rfl

theorem parse_toFileState {pl : PageList} (wellFormed : WellFormed pl.pages) (pos : Int) :
    (pl.parse pos).toFileState (parse_wellFormed wellFormed pos) = pl.toFileState wellFormed := by
  rcases wellFormed with contiguous | emptyFile
  · obtain ⟨parsed, endEq, flagsEq, -, -⟩ := parse_spec contiguous pos
    refine PageList.toFileState_eq ?_ flagsEq ?_ rfl
    · rw [PageList.toFileState_size, size_eq_endFrom, size_eq_endFrom, endEq]
    · rw [PageList.toFileState_emptyFlags, parsed.emptyPageFlags_eq_none,
        contiguous.emptyPageFlags_eq_none]
  · have same := parse_of_isEmptyFilePage emptyFile pos
    exact PageList.toFileState_eq (by rw [same]; rfl) (fun x => by rw [same]; rfl)
      (by rw [same]; rfl) (by rw [same]; rfl)

theorem emptyPageFlags_compressPages {pages : List FdPage} (wellFormed : WellFormed pages) :
    emptyPageFlags (compressPages pages) = emptyPageFlags pages := by
  rcases wellFormed with contiguous | emptyFile
  · rw [(compressPages_contiguous contiguous).emptyPageFlags_eq_none,
      contiguous.emptyPageFlags_eq_none]
  · match pages, emptyFile with
    | [_], _ => rfl

theorem compress_toFileState {pl : PageList} (wellFormed : WellFormed pl.pages) :
    pl.compress.toFileState (compressPages_wellFormed wellFormed) = pl.toFileState wellFormed :=
  PageList.toFileState_eq (size_compress wellFormed) (flagsAt_compress wellFormed)
    (emptyPageFlags_compressPages wellFormed) rfl

/-- On an empty file, an empty range makes the list the single page of no bytes with the
status's flags. -/
theorem setPageLoadedStatus_pages_of_empty {pl : PageList} (empty : pl.size = 0)
    (pstatus : PageStatus) (isCompress : Bool) :
    (pl.setPageLoadedStatus 0 0 pstatus isCompress).pages =
      [⟨0, 0, pstatus.isLoaded, pstatus.isModified⟩] := by
  cases isCompress <;>
    simp [PageList.setPageLoadedStatus, empty, PageList.resize, PageList.init]

theorem setPageLoadedStatus_toFileState {pl : PageList} (wellFormed : WellFormed pl.pages)
    {start size : Int} (startNonneg : 0 ≤ start) (sizeNonneg : 0 ≤ size) (pstatus : PageStatus)
    (isCompress : Bool) :
    (pl.setPageLoadedStatus start size pstatus isCompress).toFileState
        (setPageLoadedStatus_wellFormed wellFormed start size pstatus isCompress) =
      (pl.toFileState wellFormed).setPageLoadedStatus start size startNonneg sizeNonneg
        pstatus := by
  obtain ⟨updated, sizeEq, shrinkEq, flagsEq⟩ :=
    setPageLoadedStatus_statusSet wellFormed startNonneg sizeNonneg pstatus isCompress
  refine PageList.toFileState_eq sizeEq flagsEq ?_ shrinkEq
  simp only [FileState.setPageLoadedStatus, PageList.toFileState_size]
  by_cases empty : pl.size = 0 ∧ start + size = 0
  · obtain ⟨rfl, rfl⟩ : start = 0 ∧ size = 0 := by omega
    rw [if_pos empty, setPageLoadedStatus_pages_of_empty empty.1]
    rfl
  · rw [if_neg empty]
    exact updated.emptyPageFlags_eq_none (by rw [sizeEq]; have := wellFormed.size_nonneg; omega)

theorem emptyPageFlags_map_adjust (mode : CompressMode) (pages : List FdPage) :
    emptyPageFlags (pages.map mode.adjust) = (emptyPageFlags pages).map fun flags =>
      (if mode.ignoreLoad then mode.defaultLoad else flags.1,
        if mode.ignoreModify then mode.defaultModify else flags.2) := by
  match pages with
  | [] => rfl
  | [page] =>
      simp only [List.map_cons, List.map_nil, emptyPageFlags, CompressMode.adjust_bytes]
      by_cases empty : page.bytes = 0
      · rw [if_pos empty, if_pos empty]
        rfl
      · rw [if_neg empty, if_neg empty]
        rfl
  | _ :: _ :: _ => rfl

theorem clearAllModified_toFileState {pl : PageList} (wellFormed : WellFormed pl.pages) :
    pl.clearAllModified.toFileState (clearAllModified_wellFormed wellFormed).1 =
      (pl.toFileState wellFormed).clearAllModified := by
  let mode : CompressMode := ⟨false, true, false, false⟩
  have cleared : pl.clearAllModified =
      ({ pages := pl.pages.map mode.adjust, isShrink := false } : PageList).compress := rfl
  have mappedWellFormed := wellFormed.map_adjust mode
  refine PageList.toFileState_eq ?_ (fun x => ?_) ?_ rfl
  · rw [cleared, size_compress mappedWellFormed]
    show _ = pl.size
    rw [size_eq_endFrom, size_eq_endFrom]
    exact endFrom_map_adjust mode 0 pl.pages
  · rw [cleared, flagsAt_compress mappedWellFormed]
    exact flagsAt_map_adjust mode pl.pages x
  · rw [cleared, PageList.compress_pages, emptyPageFlags_compressPages mappedWellFormed]
    exact emptyPageFlags_map_adjust mode pl.pages

/-! ## Every operation, and every sequence of them -/

/-- Every operation on the list alone acts on the state a well-formed list stands for as the
abstract operation says: which pages represent the state never shows through. -/
theorem Op.apply_toFileState {pl : PageList} (wellFormed : WellFormed pl.pages) (op : Op)
    (inMemory : op.InMemory) :
    (op.apply pl).toFileState (Op.apply_wellFormed wellFormed op).1 =
      (pl.toFileState wellFormed).apply op inMemory := by
  cases op with
  | init size isLoaded isModified => exact init_toFileState pl size isLoaded isModified
  | resize size isLoaded isModified =>
      exact resize_toFileState wellFormed inMemory isLoaded isModified
  | parse pos => exact parse_toFileState wellFormed pos
  | compress => exact compress_toFileState wellFormed
  | setPageLoadedStatus start size pstatus isCompress =>
      exact setPageLoadedStatus_toFileState wellFormed inMemory.start_nonneg inMemory.size_nonneg
        pstatus isCompress
  | clearAllModified => exact clearAllModified_toFileState wellFormed
  | getPageListsForMultipartUpload => exact compress_toFileState wellFormed
  | getNoDataPageLists => exact compress_toFileState wellFormed
  | deserialize => exact inMemory.elim

/-- The list after the operations, one after the other. -/
def Op.applyAll (ops : List Op) (pl : PageList) : PageList :=
  ops.foldl (fun pl op => op.apply pl) pl

theorem Op.applyAll_wellFormed {pl : PageList} (wellFormed : WellFormed pl.pages)
    (ops : List Op) : WellFormed (Op.applyAll ops pl).pages := by
  induction ops generalizing pl with
  | nil => exact wellFormed
  | cons op rest inductionHypothesis =>
      exact inductionHypothesis (Op.apply_wellFormed wellFormed op).1

/-- The state after the operations on the list alone, one after the other. -/
def FileState.applyAll (s : FileState) : (ops : List Op) → (∀ op ∈ ops, op.InMemory) → FileState
  | [], _ => s
  | op :: rest, inMemory =>
      (s.apply op (inMemory op (List.mem_cons_self op rest))).applyAll rest
        fun later member => inMemory later (List.mem_cons_of_mem op member)

/-- Along every sequence of operations on the list alone, from every well-formed list, the list
stands for the state the abstract operations reach. -/
theorem applyAll_toFileState {pl : PageList} (wellFormed : WellFormed pl.pages) (ops : List Op)
    (inMemory : ∀ op ∈ ops, op.InMemory) :
    (Op.applyAll ops pl).toFileState (Op.applyAll_wellFormed wellFormed ops) =
      (pl.toFileState wellFormed).applyAll ops inMemory := by
  induction ops generalizing pl with
  | nil => rfl
  | cons op rest inductionHypothesis =>
      rw [FileState.applyAll, ← Op.apply_toFileState wellFormed op]
      exact inductionHypothesis (Op.apply_wellFormed wellFormed op).1 _

theorem applyAll_toFileState_sample :
    let pl := PageList.new 100 false false false
    let ops := [Op.setPageLoadedStatus 10 20 .loadModified false, .parse 40, .resize 50 true false,
      .clearAllModified]
    ∃ wellFormed : WellFormed pl.pages, ∃ inMemory : ∀ op ∈ ops, op.InMemory,
      (Op.applyAll ops pl).toFileState (Op.applyAll_wellFormed wellFormed ops) =
        (pl.toFileState wellFormed).applyAll ops inMemory :=
  ⟨by decide, by decide, applyAll_toFileState _ _ _⟩

/-! ## What the queries ask of the state -/

namespace FileState

/-- `IsModified` asked of the state: a truncation to upload, an empty file marked modified, or
a modified byte. -/
def Modified (s : FileState) : Prop :=
  s.isShrink = true ∨ s.emptyFlags.map Prod.snd = some true ∨
    ∃ x, (s.flags x).map Prod.snd = some true

/-- `BytesModified` asked of the state: the number of modified bytes. -/
def bytesModified (s : FileState) : Nat :=
  countBytes (fun x => (s.flags x).map Prod.snd = some true) 0 s.size

end FileState

theorem mem_of_emptyPageFlags_eq_some {pages : List FdPage} {flags : Bool × Bool}
    (known : emptyPageFlags pages = some flags) : ∃ page ∈ pages, page.flags = flags := by
  match pages, known with
  | [page], known =>
      simp only [emptyPageFlags] at known
      split_ifs at known
      exact ⟨page, List.mem_singleton_self page, Option.some.inj known⟩

theorem isModified_toFileState {pl : PageList} (wellFormed : WellFormed pl.pages) :
    pl.isModified = true ↔ (pl.toFileState wellFormed).Modified := by
  simp only [PageList.isModified, Bool.or_eq_true, List.any_eq_true, FileState.Modified,
    PageList.toFileState_isShrink, PageList.toFileState_emptyFlags, PageList.toFileState_flags]
  refine or_congr_right ⟨fun ⟨page, member, modified⟩ => ?_, ?_⟩
  · rcases wellFormed with contiguous | emptyFile
    · have positive := (contiguous.mem_bounds member).2.1
      refine .inr ⟨page.offset, ?_⟩
      rw [contiguous.flagsAt_of_mem member ⟨le_refl _, by simp only [FdPage.next]; omega⟩]
      simp only [FdPage.flags, modified, Option.map_some']
    · rcases pl with ⟨pages, isShrink⟩
      match pages, emptyFile, member with
      | [page], ⟨_, empty⟩, member =>
          rw [List.mem_singleton.mp member] at modified
          refine .inl ?_
          simp only [emptyPageFlags, empty, if_true, Option.map_some', FdPage.flags, modified]
  · rintro (empty | ⟨x, modifiedByte⟩)
    · obtain ⟨flags, known, modified⟩ := Option.map_eq_some'.mp empty
      obtain ⟨page, member, pageFlags⟩ := mem_of_emptyPageFlags_eq_some known
      exact ⟨page, member, by rw [← modified, ← pageFlags]; rfl⟩
    · obtain ⟨flags, known, modified⟩ := Option.map_eq_some'.mp modifiedByte
      obtain ⟨page, member, -, pageFlags⟩ := exists_mem_of_flagsAt_eq_some known
      exact ⟨page, member, by rw [← modified, ← pageFlags]; rfl⟩

/-- The loop of `BytesModified` over a contiguous list counts the modified bytes. -/
theorem Contiguous.foldl_modifiedBytes {start : Int} {pages : List FdPage}
    (contiguous : Contiguous start pages) (total : Int) :
    (pages.filter (·.modified)).foldl (fun total page => total + page.bytes) total =
      total + countBytes (fun x => (flagsAt pages x).map Prod.snd = some true) start
        (endFrom start pages) := by
  induction pages generalizing start total with
  | nil => simp [countBytes]
  | cons page rest inductionHypothesis =>
      obtain ⟨atStart, positive, tail⟩ := contiguous
      have pageEnd : start ≤ page.next := by simp only [FdPage.next]; omega
      have later : countBytes (fun x => (flagsAt (page :: rest) x).map Prod.snd = some true)
          page.next (endFrom page.next rest) =
          countBytes (fun x => (flagsAt rest x).map Prod.snd = some true) page.next
            (endFrom page.next rest) :=
        countBytes_congr fun x low _ => by rw [flagsAt_cons_of_next_le rest low]
      rw [endFrom_cons, countBytes_split pageEnd tail.start_le_end, later]
      have inPage : ∀ x, start ≤ x → x < page.next →
          flagsAt (page :: rest) x = some page.flags :=
        fun x low high => flagsAt_cons_of_contains rest ⟨by omega, high⟩
      cases modified : page.modified
      · rw [countBytes_eq_zero fun x low high known => by
          rw [inPage x low high, Option.map_some', FdPage.flags, modified] at known
          cases known]
        simp only [List.filter_cons, modified, Bool.false_eq_true, if_false]
        rw [inductionHypothesis tail total]
        omega
      · rw [countBytes_eq_length fun x low high => by
          rw [inPage x low high, Option.map_some', FdPage.flags, modified]]
        simp only [List.filter_cons, modified, if_true, List.foldl_cons]
        rw [inductionHypothesis tail (total + page.bytes)]
        simp only [FdPage.next] at pageEnd ⊢
        omega

theorem bytesModified_toFileState {pl : PageList} (wellFormed : WellFormed pl.pages) :
    pl.bytesModified = (pl.toFileState wellFormed).bytesModified := by
  rw [PageList.bytesModified, FileState.bytesModified, PageList.toFileState_size,
    PageList.toFileState_flags, size_eq_endFrom]
  rcases wellFormed with contiguous | emptyFile
  · rw [contiguous.foldl_modifiedBytes 0, zero_add]
  · rcases pl with ⟨pages, isShrink⟩
    match pages, emptyFile with
    | [page], ⟨atZero, empty⟩ =>
        have noBytes : endFrom 0 [page] = 0 := by simp [FdPage.next, atZero, empty]
        rw [noBytes, countBytes_eq_zero fun x low high => by omega]
        cases modified : page.modified <;> simp [modified, empty]

theorem countBytes_le (p : Int → Prop) [DecidablePred p] (first last : Int) :
    countBytes p first last ≤ (last - first).toNat :=
  (List.countP_le_length _).trans_eq (List.length_range _)

/-- `IsModified` and `BytesModified` ask about the state a well-formed list stands for: whether
a truncation is to be uploaded, an empty file is marked modified or a byte is modified, and how
many bytes are modified, never more than the size. -/
theorem modified_queries_toFileState {pl : PageList} (wellFormed : WellFormed pl.pages) :
    (pl.isModified = true ↔ (pl.toFileState wellFormed).Modified) ∧
      pl.bytesModified = (pl.toFileState wellFormed).bytesModified ∧
      ((pl.toFileState wellFormed).bytesModified : Int) ≤ pl.size := by
  refine ⟨isModified_toFileState wellFormed, bytesModified_toFileState wellFormed, ?_⟩
  have bound := countBytes_le (fun x => (flagsAt pl.pages x).map Prod.snd = some true) 0 pl.size
  have := wellFormed.size_nonneg
  simp only [FileState.bytesModified, PageList.toFileState_size, PageList.toFileState_flags]
  omega

/-- A list with two modified bytes between unmodified ones: `IsModified` holds through them and
`BytesModified` counts both. -/
theorem modified_queries_modified_bytes :
    let pl : PageList := ⟨[⟨0, 3, true, false⟩, ⟨3, 2, true, true⟩, ⟨5, 4, false, false⟩], false⟩
    pl.isModified = true ∧ pl.bytesModified = 2 ∧ ∃ wellFormed : WellFormed pl.pages,
      (pl.isModified = true ↔ (pl.toFileState wellFormed).Modified) ∧
        pl.bytesModified = (pl.toFileState wellFormed).bytesModified ∧
        ((pl.toFileState wellFormed).bytesModified : Int) ≤ pl.size :=
  ⟨by decide, by decide, by decide, modified_queries_toFileState (by decide)⟩

/-- A new empty file marked modified has no modified byte, and `IsModified` still holds: the
flags of its page of no bytes carry the mark. -/
example :
    (PageList.new 0 false true false).isModified = true ∧
      (PageList.new 0 false true false).bytesModified = 0 := by
  decide

/-! ## The unloaded queries on the state -/

/-- A well-formed list of size 0 is no page at all or the single page of no bytes, so the
flags of its empty page fix it. -/
theorem WellFormed.pages_eq_of_size_eq_zero {pl pl' : PageList} (wellFormed : WellFormed pl.pages)
    (wellFormed' : WellFormed pl'.pages) (empty : pl.size = 0) (empty' : pl'.size = 0)
    (sameFlags : emptyPageFlags pl.pages = emptyPageFlags pl'.pages) : pl.pages = pl'.pages := by
  have shape : ∀ {pl : PageList}, WellFormed pl.pages → pl.size = 0 →
      pl.pages = [] ∨ ∃ page, pl.pages = [page] ∧ page.offset = 0 ∧ page.bytes = 0 := by
    intro pl wellFormed empty
    rcases pl with ⟨pages, isShrink⟩
    rcases wellFormed with contiguous | emptyFile
    · cases pages with
      | nil => exact .inl rfl
      | cons page rest =>
          have bounds := contiguous.mem_bounds (List.mem_cons_self page rest)
          simp only [size_eq_endFrom] at empty
          simp only [FdPage.next] at bounds
          omega
    · match pages, emptyFile with
      | [page], ⟨atZero, noBytes⟩ => exact .inr ⟨page, rfl, atZero, noBytes⟩
  rcases shape wellFormed empty with none | ⟨page, single, atZero, noBytes⟩ <;>
    rcases shape wellFormed' empty' with none' | ⟨page', single', atZero', noBytes'⟩
  · rw [none, none']
  · rw [none, single'] at sameFlags
    simp [emptyPageFlags, noBytes'] at sameFlags
  · rw [single, none'] at sameFlags
    simp [emptyPageFlags, noBytes] at sameFlags
  · rw [single, single'] at sameFlags ⊢
    simp only [emptyPageFlags, noBytes, noBytes', if_true, Option.some.injEq, FdPage.flags,
      Prod.mk.injEq] at sameFlags
    obtain ⟨offset, bytes, loaded, modified⟩ := page
    obtain ⟨offset', bytes', loaded', modified'⟩ := page'
    simp only at atZero noBytes atZero' noBytes' sameFlags
    simp only [List.cons.injEq, FdPage.mk.injEq, and_true]
    exact ⟨by omega, by omega, sameFlags⟩

/-- Two well-formed page lists that stand for the same state answer `IsPageLoaded`,
`GetUnloadedPages` and `GetTotalUnloadedPageSize` with no limit alike, for every request from
`start ≥ 0` of `size ≥ 0` bytes that ends inside the `off_t` range: the three queries see a page list only through the state it
stands for. `Compress` keeps the state, so it changes none of their answers. -/
theorem unloaded_queries_toFileState {pl pl' : PageList} (wellFormed : WellFormed pl.pages)
    (wellFormed' : WellFormed pl'.pages)
    (same : pl.toFileState wellFormed = pl'.toFileState wellFormed') {start size : Int}
    (request : Request start size) :
    pl.isPageLoaded start size = pl'.isPageLoaded start size ∧
      pl.getUnloadedPages [] start size = pl'.getUnloadedPages [] start size ∧
      pl.getTotalUnloadedPageSize start size 0 = pl'.getTotalUnloadedPageSize start size 0 := by
  obtain ⟨startNonneg, sizeNonneg, -⟩ := request
  have sameSize : pl.size = pl'.size := congrArg FileState.size same
  have sameFlags : flagsAt pl.pages = flagsAt pl'.pages := congrArg FileState.flags same
  by_cases empty : pl.size = 0
  · have pages := wellFormed.pages_eq_of_size_eq_zero wellFormed' empty (sameSize ▸ empty)
      (congrArg FileState.emptyFlags same)
    simp only [PageList.isPageLoaded, PageList.getUnloadedPages,
      PageList.getTotalUnloadedPageSize, PageList.sizeToEnd, PageList.size, pages, and_self]
  have positive : 0 < pl.size := by
    have := wellFormed.size_nonneg
    omega
  have positive' : 0 < pl'.size := sameSize ▸ positive
  have sameRequest : ∀ x, (pl.InRequest start size x ∧ flagsAt pl.pages x = some (false, false)) ↔
      (pl'.InRequest start size x ∧ flagsAt pl'.pages x = some (false, false)) := fun x => by
    simp only [PageList.InRequest, sameSize, sameFlags]
  refine ⟨?_, ?_, ?_⟩
  · rw [Bool.eq_iff_iff, isPageLoaded_iff wellFormed positive startNonneg sizeNonneg,
      isPageLoaded_iff wellFormed' positive' startNonneg sizeNonneg]
    simp only [PageList.InRequest, sameSize, sameFlags]
  · obtain ⟨_, valid, covers⟩ := getUnloadedPages_ranges wellFormed positive sizeNonneg
    obtain ⟨_, valid', covers'⟩ := getUnloadedPages_ranges wellFormed' positive' sizeNonneg
    have ranges := valid.eq_of_covers_iff valid' fun x => by rw [covers, covers', sameRequest]
    simp only [PageList.getUnloadedPages] at ranges ⊢
    rw [ranges]
  · rw [getTotalUnloadedPageSize_eq wellFormed positive sizeNonneg,
      getTotalUnloadedPageSize_eq wellFormed' positive' sizeNonneg, sameSize]
    exact congrArg _ (countBytes_congr fun x _ _ => sameRequest x)

theorem unloaded_queries_compress_sample :
    let pl : PageList :=
      ⟨[⟨0, 2, false, false⟩, ⟨2, 2, false, false⟩, ⟨4, 3, true, false⟩], false⟩
    ∃ (wellFormed : WellFormed pl.pages) (wellFormed' : WellFormed pl.compress.pages),
      (pl.toFileState wellFormed = pl.compress.toFileState wellFormed' ∧ Request 1 5) ∧
      pl.isPageLoaded 1 5 = pl.compress.isPageLoaded 1 5 ∧
        pl.getUnloadedPages [] 1 5 = pl.compress.getUnloadedPages [] 1 5 ∧
        pl.getTotalUnloadedPageSize 1 5 0 = pl.compress.getTotalUnloadedPageSize 1 5 0 := by
  intro pl
  have wellFormed : WellFormed pl.pages := by decide
  exact ⟨wellFormed, compressPages_wellFormed wellFormed,
    ⟨(compress_toFileState wellFormed).symm, by decide⟩,
    unloaded_queries_toFileState wellFormed (compressPages_wellFormed wellFormed)
      (compress_toFileState wellFormed).symm ⟨by decide, by decide, by decide⟩⟩

/-- With a limit the count is no longer a question about the state: `Compress` merges the two
unloaded pages into one as long as the limit, which the count then leaves out. -/
example :
    let pl : PageList :=
      ⟨[⟨0, 2, false, false⟩, ⟨2, 2, false, false⟩, ⟨4, 3, true, false⟩], false⟩
    pl.getTotalUnloadedPageSize 0 0 3 = 4 ∧ pl.compress.getTotalUnloadedPageSize 0 0 3 = 0 := by
  decide

/-- The range `SetPageLoadedStatus` has just set reads back as set, for a positive size and a
range that ends inside the `off_t` range. Over a request for exactly that range, `IsPageLoaded` holds exactly when the status loads; `GetUnloadedPages` returns the
range as one range when the status is neither loaded nor modified, and no range otherwise; and
`GetTotalUnloadedPageSize` with no limit counts the whole range or nothing. -/
theorem setPageLoadedStatus_queries {pl : PageList} (wellFormed : WellFormed pl.pages)
    {start size : Int} (request : Request start size) (positive : 0 < size) (pstatus : PageStatus)
    (isCompress : Bool) :
    let updated := pl.setPageLoadedStatus start size pstatus isCompress
    updated.isPageLoaded start size = pstatus.isLoaded ∧
      updated.getUnloadedPages [] start size =
        (if pstatus = .notLoadModified then (1, [⟨start, size, false, false⟩]) else (0, [])) ∧
      updated.getTotalUnloadedPageSize start size 0 =
        if pstatus = .notLoadModified then size else 0 := by
  intro updated
  have startNonneg := request.start_nonneg
  have updatedWellFormed := setPageLoadedStatus_wellFormed wellFormed start size pstatus isCompress
  have abstract :=
    setPageLoadedStatus_toFileState wellFormed startNonneg positive.le pstatus isCompress
  have newSize : updated.size = max pl.size (start + size) := congrArg FileState.size abstract
  have newFlags : ∀ x, start ≤ x → x < start + size →
      flagsAt updated.pages x = some (pstatus.isLoaded, pstatus.isModified) := fun x low high => by
    simpa only [PageList.toFileState_flags, FileState.setPageLoadedStatus, low, high, and_self,
      if_true] using congrFun (congrArg FileState.flags abstract) x
  have updatedPositive : 0 < updated.size := by
    rw [newSize]
    omega
  have request : ∀ x, updated.InRequest start size x ↔ start ≤ x ∧ x < start + size := fun x => by
    simp only [PageList.InRequest, newSize]
    omega
  have unloadedIff : (pstatus.isLoaded, pstatus.isModified) = (false, false) ↔
      pstatus = .notLoadModified := by
    cases pstatus <;> decide
  have selected : ∀ x, (updated.InRequest start size x ∧
      flagsAt updated.pages x = some (false, false)) ↔
        (start ≤ x ∧ x < start + size) ∧ pstatus = .notLoadModified := fun x => by
    rw [request]
    exact and_congr_right fun inside => by
      rw [newFlags x inside.1 inside.2, Option.some.injEq, unloadedIff]
  refine ⟨?_, ?_, ?_⟩
  · rw [Bool.eq_iff_iff, isPageLoaded_iff updatedWellFormed updatedPositive startNonneg positive.le]
    constructor
    · intro all
      obtain ⟨modified, flags⟩ := all start ((request start).mpr ⟨le_refl _, by omega⟩)
      rw [newFlags start (le_refl _) (by omega)] at flags
      exact (Prod.mk.inj (Option.some.inj flags)).1
    · intro loaded x requested
      obtain ⟨low, high⟩ := (request x).mp requested
      exact ⟨_, by rw [newFlags x low high, loaded]⟩
  · obtain ⟨_, valid, covers⟩ :=
      getUnloadedPages_ranges updatedWellFormed updatedPositive positive.le
    have ranges : (updated.getUnloadedPages [] start size).2 =
        if pstatus = .notLoadModified then [⟨start, size, false, false⟩] else [] := by
      split_ifs with status
      · refine valid.eq_of_covers_iff (show UnloadedRanges [⟨start, size, false, false⟩]
          (start + size) from ⟨List.pairwise_singleton _ _, by simp [positive], by simp [FdPage.next]⟩)
          fun x => ?_
        rw [covers, selected]
        simp [Covers, FdPage.Contains, FdPage.next, status]
      · refine valid.eq_of_covers_iff (show UnloadedRanges [] 0 from ⟨.nil, by simp, by simp⟩)
          fun x => ?_
        rw [covers, selected]
        simp [Covers, status]
    simp only [PageList.getUnloadedPages] at ranges ⊢
    rw [ranges]
    split_ifs <;> rfl
  · rw [getTotalUnloadedPageSize_eq updatedWellFormed updatedPositive positive.le,
      countBytes_congr fun x _ _ => selected x]
    split_ifs with status
    · rw [countBytes_congr fun x _ _ => and_iff_left status,
        countBytes_interval start (start + size) updatedPositive.le, newSize]
      omega
    · rw [countBytes_eq_zero fun x _ _ chosen => status chosen.2]
      rfl

theorem setPageLoadedStatus_queries_sample :
    let pl := PageList.new 10 true false false
    (WellFormed pl.pages ∧ Request 4 8 ∧ (0 : Int) < 8) ∧
      let updated := pl.setPageLoadedStatus 4 8 .notLoadModified true
      updated.isPageLoaded 4 8 = PageStatus.notLoadModified.isLoaded ∧
        updated.getUnloadedPages [] 4 8 =
          (if PageStatus.notLoadModified = .notLoadModified then (1, [⟨4, 8, false, false⟩])
          else (0, [])) ∧
        updated.getTotalUnloadedPageSize 4 8 0 =
          if PageStatus.notLoadModified = .notLoadModified then 8 else 0 :=
  ⟨⟨by decide, by decide, by decide⟩,
    setPageLoadedStatus_queries (by decide) ⟨by decide, by decide, by decide⟩ (by decide) _ _⟩

end S3fs
