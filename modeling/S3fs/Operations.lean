import S3fs.Multipart
import S3fs.Stats

/-!
# Every history of a page list

The public operations that change a `PageList`, and the lists reachable from its constructor by
any sequence of them with any arguments. `reachable_wellFormed`: every reachable list is well
formed, and every operation that ends in `Compress` leaves no two neighbours with equal flags.

`GetNoDataPageLists` clips a page at `start` without shortening it, so when `start` lies inside
a loaded, unmodified page and the request runs past it, its end still an `off_t`, the result
reports the bytes after the page as loaded and unmodified whatever their flags
(`getNoDataPageLists_overrun`).
-/

namespace S3fs

/-! ## `GetNoDataPageLists` -/

/-- The loop of `GetNoDataPageLists`: the unmodified pages from `start` on, clipped at
`stop_pos` unless it is the sentinel `-1`. -/
def noDataPages (start stopPos : Int) : List FdPage → List FdPage
  | [] => []
  | page :: rest =>
      if page.offset + page.bytes < start then noDataPages start stopPos rest
      else if stopPos ≠ -1 ∧ stopPos ≤ page.offset then []
      else if page.modified then noDataPages start stopPos rest
      else
        let offset := max page.offset start
        let bytes := if stopPos = -1 then page.bytes else min page.bytes (stopPos - offset)
        ⟨offset, bytes, page.loaded, page.modified⟩ :: noDataPages start stopPos rest

/-- `PageList::GetNoDataPageLists`: the compressed list it leaves and `nodata_pages`; a `size`
of 0 means up to the end. `stop_pos` is the `size_t` sum `start + size` stored in an `off_t`,
which wraps once the sum reaches `2^63`. -/
def PageList.getNoDataPageLists (pl : PageList) (start : Int) (size : Nat) :
    PageList × List FdPage :=
  let compressed := pl.compress
  let stopPos : Int := if size = 0 then -1 else offT (start + size)
  let tmpPagelist := noDataPages start stopPos compressed.pages
  (compressed, if tmpPagelist = [] then [] else compressFdpageList tmpPagelist)

/-- The loop drops a modified page between two unmodified ones, and `compress_fdpage_list` fills
the gap it leaves with a page of default flags: the result reports the modified bytes
`[10, 20)` as holding no data. And with no `size`, a page clipped at `start` keeps its whole
length, so the result runs past the end of the list. -/
theorem getNoDataPageLists_covers_modified :
    let pl : PageList :=
      ⟨[⟨0, 10, true, false⟩, ⟨10, 10, true, true⟩, ⟨20, 10, true, false⟩], false⟩
    WellFormed pl.pages ∧ flagsAt pl.pages 15 = some (true, true) ∧
      (pl.getNoDataPageLists 0 0).2 =
        [⟨0, 10, true, false⟩, ⟨10, 10, false, false⟩, ⟨20, 10, true, false⟩] ∧
      (pl.getNoDataPageLists 25 0).2 = [⟨25, 10, true, false⟩] := by
  decide

theorem noDataPages_append_of_before {start stopPos : Int} {pre : List FdPage}
    (before : ∀ page ∈ pre, page.offset + page.bytes < start) (rest : List FdPage) :
    noDataPages start stopPos (pre ++ rest) = noDataPages start stopPos rest := by
  induction pre with
  | nil => rfl
  | cons page pre inductionHypothesis =>
      rw [List.cons_append, noDataPages, if_pos (before page (.head _)),
        inductionHypothesis fun other member => before other (List.mem_cons_of_mem _ member)]

/-- With a stop after `start`, the loop of `GetNoDataPageLists` makes no page of negative size. -/
theorem noDataPages_bytes_nonneg {start stopPos : Int} (stopAfter : start < stopPos)
    {pages : List FdPage} (nonneg : ∀ page ∈ pages, 0 ≤ page.bytes) :
    ∀ page ∈ noDataPages start stopPos pages, 0 ≤ page.bytes := by
  induction pages with
  | nil => intro _ member; cases member
  | cons page rest inductionHypothesis =>
      have later := inductionHypothesis fun other member => nonneg other (List.mem_cons_of_mem _ member)
      have own := nonneg page (.head _)
      simp only [noDataPages]
      split_ifs with _ stopped
      · exact later
      · intro _ member; cases member
      · exact later
      all_goals
        intro clipped member
        rcases List.mem_cons.mp member with rfl | member
        · first
          | exact own
          | (simp only [min_def, max_def]; split_ifs <;> omega)
        · exact later clipped member

theorem IsEmptyFilePage.bytes_eq_zero :
    ∀ {pages : List FdPage}, IsEmptyFilePage pages → ∀ page ∈ pages, page.bytes = 0
  | [_], ⟨_, empty⟩, _, member => by rw [List.mem_singleton.mp member]; exact empty

/-- On a contiguous list, the loop of `GetNoDataPageLists` skips the pages before the one
holding `start`, and clips that one, when unmodified, to begin at `start` with
`min(bytes, stop - start)` bytes. -/
theorem noDataPages_clip {pages : List FdPage} (contiguous : Contiguous 0 pages) {page : FdPage}
    (member : page ∈ pages) (unmodified : page.modified = false) {start stopPos : Int}
    (inside : page.offset < start) (startIn : start < page.next) (stopAfter : page.offset < stopPos)
    (notSentinel : stopPos ≠ -1) :
    ∃ post, noDataPages start stopPos pages =
      ⟨start, min page.bytes (stopPos - start), page.loaded, false⟩ ::
        noDataPages start stopPos post ∧ ∀ other ∈ post, 0 ≤ other.bytes := by
  have pageNext : page.next = page.offset + page.bytes := rfl
  obtain ⟨pre, post, split⟩ := List.append_of_mem member
  obtain ⟨preContiguous, atEnd, -, postContiguous⟩ := contiguous_append.mp (split ▸ contiguous)
  have before : ∀ other ∈ pre, other.offset + other.bytes < start := fun other otherMember => by
    have := (preContiguous.mem_bounds otherMember).2.2
    simp only [FdPage.next] at this
    omega
  refine ⟨post, ?_, fun other otherMember =>
    Int.le_of_lt (postContiguous.mem_bounds otherMember).2.1⟩
  rw [split, noDataPages_append_of_before before, noDataPages,
    if_neg (show ¬ page.offset + page.bytes < start by omega),
    if_neg (show ¬ (stopPos ≠ -1 ∧ stopPos ≤ page.offset) by omega),
    if_neg (by simp [unmodified])]
  simp only [notSentinel, if_false, max_eq_right (Int.le_of_lt inside), unmodified]

/-- When `start` lies inside a loaded, unmodified page of the compressed list and the request runs
past that page, with its end `start + size` still an `off_t`, the loop clips the page at `start` but keeps `min(bytes, stop - start)` bytes
from there: `GetNoDataPageLists` reports every byte up to `start + min(bytes, size)` as loaded
and unmodified, the first byte after the page among them, which the page list holds with other
flags or not at all. -/
theorem getNoDataPageLists_overrun {pl : PageList} (wellFormed : WellFormed pl.pages)
    {page : FdPage} (member : page ∈ pl.compress.pages) (loadedClean : page.flags = (true, false))
    {start : Int} {size : Nat} (inside : page.offset < start) (startIn : start < page.next)
    (beyond : page.next < start + size) (fits : start + size < 2 ^ 63) :
    (∀ x, start ≤ x → x < start + min page.bytes size →
      flagsAt (pl.getNoDataPageLists start size).2 x = some (true, false)) ∧
      page.next < start + min page.bytes size ∧ flagsAt pl.pages page.next ≠ some (true, false) := by
  have pageNext : page.next = page.offset + page.bytes := rfl
  have contiguous : Contiguous 0 pl.compress.pages := by
    rcases PageList.compress_wellFormed wellFormed with contiguous | emptyFile
    · exact contiguous
    · have := emptyFile.bytes_eq_zero page member
      omega
  have offsetNonneg := (contiguous.mem_bounds member).1
  have flags := loadedClean
  simp only [FdPage.flags, Prod.mk.injEq] at flags
  have stopPos : offT (start + size) = start + size := offT_of_lt (by omega) fits
  obtain ⟨post, clipped, postNonneg⟩ := noDataPages_clip contiguous member flags.2 inside startIn
    (show page.offset < start + size by omega) (show start + (size : Int) ≠ -1 by omega)
  have nodata : (pl.getNoDataPageLists start size).2 =
      compressFdpageList (⟨start, min page.bytes size, true, false⟩ ::
        noDataPages start (start + size) post) := by
    simp only [PageList.getNoDataPageLists, show size ≠ 0 by omega, if_false, stopPos, clipped,
      reduceCtorEq, add_sub_cancel_left, flags.1]
  refine ⟨fun x low high => ?_, ?_, ?_⟩
  · rw [nodata]
    exact flagsAt_rawCompressFdpageList_first (by simp only [min_def]; split_ifs <;> omega) (by rfl)
      (noDataPages_bytes_nonneg (by omega) postNonneg) ⟨low, high⟩
  · simp only [min_def]
    split_ifs <;> omega
  · have neighbours := (contiguous.flagsAt_neighbours_ne
      (compressPages_compressed_of_wellFormed wellFormed) member).2
    rwa [flagsAt_compress wellFormed, loadedClean] at neighbours

/-- Pages `[0, 10)` loaded and `[10, 20)` loaded and modified: `GetNoDataPageLists(5, 10)` reports
`[5, 15)` as loaded and unmodified, the modified bytes `[10, 15)` among them. -/
theorem getNoDataPageLists_overrun_modified :
    let pl : PageList := ⟨[⟨0, 10, true, false⟩, ⟨10, 10, true, true⟩], false⟩
    let page : FdPage := ⟨0, 10, true, false⟩
    (WellFormed pl.pages ∧ page ∈ pl.compress.pages ∧ page.flags = (true, false) ∧
        page.offset < 5 ∧ 5 < page.next ∧ page.next < 5 + (10 : Nat) ∧
        5 + ((10 : Nat) : Int) < 2 ^ 63) ∧
      (∀ x, 5 ≤ x → x < 5 + min page.bytes (10 : Nat) →
        flagsAt (pl.getNoDataPageLists 5 10).2 x = some (true, false)) ∧
        page.next < 5 + min page.bytes (10 : Nat) ∧ flagsAt pl.pages page.next ≠ some (true, false) :=
  ⟨by decide, getNoDataPageLists_overrun (by decide) (by decide) (by rfl) (by decide) (by decide)
    (by decide) (by decide)⟩

/-! ## Operations and histories -/

/-- The public operations of `PageList` that change it, with their arguments. -/
inductive Op where
  | init (size : Int) (isLoaded isModified : Bool)
  | resize (size : Int) (isLoaded isModified : Bool)
  | parse (newPos : Int)
  | compress
  | setPageLoadedStatus (start size : Int) (pstatus : PageStatus) (isCompress : Bool)
  | clearAllModified
  | getPageListsForMultipartUpload (minMultipartSize maxPartsize : Int)
  | getNoDataPageLists (start : Int) (size : Nat)
  | deserialize (file : Option (List Char)) (inode : Nat)

namespace Op

/-- The list an operation leaves. -/
def apply : Op → PageList → PageList
  | init size isLoaded isModified, pl => pl.init size isLoaded isModified
  | resize size isLoaded isModified, pl => pl.resize size isLoaded isModified
  | parse newPos, pl => pl.parse newPos
  | compress, pl => pl.compress
  | setPageLoadedStatus start size pstatus isCompress, pl =>
      pl.setPageLoadedStatus start size pstatus isCompress
  | clearAllModified, pl => pl.clearAllModified
  | getPageListsForMultipartUpload minMultipartSize maxPartsize, pl =>
      (pl.getPageListsForMultipartUpload minMultipartSize maxPartsize).1
  | getNoDataPageLists start size, pl => (pl.getNoDataPageLists start size).1
  | deserialize file inode, pl => (pl.deserialize file inode).2

/-- Whether the operation ends with `Compress` on `pl`: `Deserialize` does when it succeeds. -/
def endsInCompress : Op → PageList → Bool
  | init .., _ => false
  | parse _, _ => false
  | setPageLoadedStatus _ _ _ isCompress, _ => isCompress
  | deserialize file inode, pl => (pl.deserialize file inode).1
  | _, _ => true

end Op

/-- `PageList(size, is_loaded, is_modified, shrunk)`: its `Init` clears the `is_shrink` flag the
initializer set. -/
def PageList.new (size : Int) (isLoaded isModified shrunk : Bool) : PageList :=
  ({ pages := [], isShrink := shrunk } : PageList).init size isLoaded isModified

/-- The lists a sequence of operations can make from a constructed one. -/
inductive Reachable : PageList → Prop where
  | new (size : Int) (isLoaded isModified shrunk : Bool) :
      Reachable (PageList.new size isLoaded isModified shrunk)
  | step {pl : PageList} (op : Op) : Reachable pl → Reachable (op.apply pl)

/-! ## The invariant -/

theorem init_wellFormed (pl : PageList) (size : Int) (isLoaded isModified : Bool) :
    WellFormed (pl.init size isLoaded isModified).pages := by
  simp only [PageList.init]
  split
  · by_cases empty : size = 0
    · exact Or.inr ⟨rfl, empty⟩
    · exact Or.inl ⟨rfl, show 0 < size by omega, trivial⟩
  · exact Or.inl trivial

/-- One operation on a well-formed list: the list stays well formed, and compressed when the
operation ends in `Compress`. -/
theorem Op.apply_wellFormed {pl : PageList} (wellFormed : WellFormed pl.pages) (op : Op) :
    WellFormed (op.apply pl).pages ∧
      (op.endsInCompress pl = true → Compressed (op.apply pl).pages) := by
  have compressed : WellFormed pl.compress.pages ∧ Compressed pl.compress.pages :=
    ⟨compressPages_wellFormed wellFormed, compressPages_compressed_of_wellFormed wellFormed⟩
  cases op with
  | init size isLoaded isModified =>
      exact ⟨init_wellFormed pl size isLoaded isModified, fun ends => Bool.noConfusion ends⟩
  | resize size isLoaded isModified =>
      obtain ⟨resized, resizedCompressed⟩ := resize_wellFormed wellFormed size isLoaded isModified
      exact ⟨resized, fun _ => resizedCompressed⟩
  | parse newPos => exact ⟨parse_wellFormed wellFormed newPos, fun ends => Bool.noConfusion ends⟩
  | compress => exact ⟨compressed.1, fun _ => compressed.2⟩
  | setPageLoadedStatus start size pstatus isCompress =>
      refine ⟨setPageLoadedStatus_wellFormed wellFormed start size pstatus isCompress,
        fun ends => ?_⟩
      cases (ends : isCompress = true)
      exact setPageLoadedStatus_compressed wellFormed start size pstatus
  | clearAllModified =>
      obtain ⟨cleared, clearedCompressed⟩ := clearAllModified_wellFormed wellFormed
      exact ⟨cleared, fun _ => clearedCompressed⟩
  | getPageListsForMultipartUpload => exact ⟨compressed.1, fun _ => compressed.2⟩
  | getNoDataPageLists => exact ⟨compressed.1, fun _ => compressed.2⟩
  | deserialize file inode => exact deserialize_wellFormed wellFormed file inode

/-- Every list reachable from the constructor is well formed, and every operation on it that
ends in `Compress` leaves no two neighbouring pages with equal flags. -/
theorem reachable_wellFormed {pl : PageList} (reachable : Reachable pl) :
    WellFormed pl.pages ∧
      ∀ op : Op, op.endsInCompress pl = true → Compressed (op.apply pl).pages := by
  have wellFormed : WellFormed pl.pages := by
    induction reachable with
    | new size isLoaded isModified shrunk => exact init_wellFormed _ size isLoaded isModified
    | step op _ inductionHypothesis => exact (Op.apply_wellFormed inductionHypothesis op).1
  exact ⟨wellFormed, fun op => (Op.apply_wellFormed wellFormed op).2⟩

theorem reachable_wellFormed_truncated :
    let pl := Op.apply (.resize 400 false true) (PageList.new 1000 true false false)
    WellFormed pl.pages ∧
      ∀ op : Op, op.endsInCompress pl = true → Compressed (op.apply pl).pages :=
  reachable_wellFormed (.step (.resize 400 false true) (.new 1000 true false false))

end S3fs
