import S3fs.Compress

/-!
# Resizing and relabelling a page list

`Init`, `Resize`, `Parse`, `SetPageLoadedStatus` and `ClearAllModified`, the operations that
change the pages of a `PageList`. Each keeps a well-formed list well formed for every argument
(`resize_wellFormed`, `setPageLoadedStatus_wellFormed`), and on the arguments a caller passes
each has an exact byte-map description: `resize_grow` and `resize_shrink` for `Resize`,
`setPageLoadedStatus_spec` for `SetPageLoadedStatus`.
-/

namespace S3fs

namespace PageList

/-- `PageList::Clear`. -/
def clear (pl : PageList) : PageList :=
  { pl with pages := [], isShrink := false }

/-- `PageList::Init`: one page over `[0, size)`, none for a negative size. -/
def init (pl : PageList) (size : Int) (isLoaded isModified : Bool) : PageList :=
  { pl.clear with pages := if 0 ≤ size then [⟨0, size, isLoaded, isModified⟩] else [] }

/-- The cut loop of `PageList::Resize`: pages ending by `size` stay, pages from `size` on are
erased, and the page across `size` is shortened to end there. -/
def cutPages (size : Int) : List FdPage → List FdPage
  | [] => []
  | page :: rest =>
      if page.next ≤ size then page :: cutPages size rest
      else if size ≤ page.offset then cutPages size rest
      else { page with bytes := size - page.offset } :: cutPages size rest

/-- `PageList::Resize`. -/
def resize (pl : PageList) (size : Int) (isLoaded isModified : Bool) : PageList :=
  let total := pl.size
  let resized :=
    if total = 0 then { pl.init size isLoaded isModified with isShrink := pl.isShrink }
    else if total < size then
      { pl with pages := pl.pages ++ [⟨total, size - total, isLoaded, isModified⟩] }
    else if size < total then
      { pages := cutPages size pl.pages, isShrink := pl.isShrink || isModified }
    else pl
  resized.compress

/-- The split `PageList::Parse` makes: `none` when no page starts at or holds `newPos`, the case
in which the call returns false. -/
def parsePages (newPos : Int) : List FdPage → Option (List FdPage)
  | [] => none
  | page :: rest =>
      if newPos = page.offset then some (page :: rest)
      else if page.offset < newPos ∧ newPos < page.next then
        some (⟨page.offset, newPos - page.offset, page.loaded, page.modified⟩ ::
          { page with offset := newPos, bytes := page.bytes - (newPos - page.offset) } :: rest)
      else (parsePages newPos rest).map (page :: ·)

/-- `PageList::Parse`. -/
def parse (pl : PageList) (newPos : Int) : PageList :=
  { pl with pages := (parsePages newPos pl.pages).getD pl.pages }

/-- The loop of `SetPageLoadedStatus` over the pages of `[start, start + size)`, once the list
has been split at both ends. -/
def setFlagsFrom (start size : Int) (isLoaded isModified : Bool) : List FdPage → List FdPage
  | [] => []
  | page :: rest =>
      if page.endOffset < start then page :: setFlagsFrom start size isLoaded isModified rest
      else if start + size ≤ page.offset then page :: rest
      else
        { page with loaded := isLoaded, modified := isModified } ::
          setFlagsFrom start size isLoaded isModified rest

/-- `PageList::SetPageLoadedStatus`. -/
def setPageLoadedStatus (pl : PageList) (start size : Int) (pstatus : PageStatus)
    (isCompress : Bool) : PageList :=
  let nowSize := pl.size
  let isLoaded := pstatus.isLoaded
  let isModified := pstatus.isModified
  let updated :=
    if nowSize ≤ start then
      (if nowSize < start then pl.resize start false isModified else pl).resize
        (start + size) isLoaded isModified
    else if nowSize ≤ start + size then
      (pl.resize start false false).resize (start + size) isLoaded isModified
    else
      let parsed := (pl.parse start).parse (start + size)
      { parsed with pages := setFlagsFrom start size isLoaded isModified parsed.pages }
  if isCompress then updated.compress else updated

/-- `PageList::ClearAllModified`. -/
def clearAllModified (pl : PageList) : PageList :=
  ({ pages := pl.pages.map fun page => { page with modified := false }, isShrink := false } :
    PageList).compress

/-! ## `Resize` -/

variable {pl : PageList} {size : Int} {isLoaded isModified : Bool}

theorem resize_of_size_eq_zero (empty : pl.size = 0) :
    pl.resize size isLoaded isModified =
      ({ pl.init size isLoaded isModified with isShrink := pl.isShrink } : PageList).compress := by
  simp [resize, empty]

theorem resize_of_lt (nonempty : pl.size ≠ 0) (grows : pl.size < size) :
    pl.resize size isLoaded isModified =
      ({ pl with pages := pl.pages ++ [⟨pl.size, size - pl.size, isLoaded, isModified⟩] } :
        PageList).compress := by
  simp [resize, nonempty, grows]

theorem resize_of_gt (nonempty : pl.size ≠ 0) (shrinks : size < pl.size) :
    pl.resize size isLoaded isModified =
      ({ pages := cutPages size pl.pages, isShrink := pl.isShrink || isModified } :
        PageList).compress := by
  simp [resize, nonempty, shrinks, Int.not_lt.mpr (Int.le_of_lt shrinks)]

theorem resize_of_eq (nonempty : pl.size ≠ 0) (same : size = pl.size) :
    pl.resize size isLoaded isModified = pl.compress := by
  simp [resize, nonempty, same]

end PageList

/-! ## The cut loop -/

open PageList

theorem cutPages_eq_nil {start size : Int} {pages : List FdPage}
    (contiguous : Contiguous start pages) (before : size ≤ start) : cutPages size pages = [] := by
  induction pages generalizing start with
  | nil => rfl
  | cons page rest inductionHypothesis =>
      obtain ⟨atStart, positive, tail⟩ := contiguous
      have notInside : ¬ page.next ≤ size := by simp only [FdPage.next]; omega
      rw [cutPages, if_neg notInside, if_pos (by omega)]
      exact inductionHypothesis tail (by simp only [FdPage.next]; omega)

/-- Cutting a contiguous list at `size` keeps exactly the bytes before `size`. -/
theorem cutPages_spec {start size : Int} {pages : List FdPage}
    (contiguous : Contiguous start pages) (after : start ≤ size) :
    Contiguous start (cutPages size pages) ∧
      endFrom start (cutPages size pages) = min (endFrom start pages) size ∧
      ∀ x, flagsAt (cutPages size pages) x = if x < size then flagsAt pages x else none := by
  induction pages generalizing start with
  | nil => exact ⟨trivial, (Int.min_eq_left after).symm, fun x => by split <;> rfl⟩
  | cons page rest inductionHypothesis =>
      have contiguousHere : Contiguous start (page :: rest) := contiguous
      obtain ⟨atStart, positive, tail⟩ := contiguous
      have restEnd := tail.start_le_end
      simp only [FdPage.next] at restEnd
      by_cases fits : page.next ≤ size
      · obtain ⟨restContiguous, restEndEq, restFlags⟩ := inductionHypothesis tail fits
        refine ⟨?_, ?_, fun x => ?_⟩
        · rw [cutPages, if_pos fits]
          exact ⟨atStart, positive, restContiguous⟩
        · rw [cutPages, if_pos fits, endFrom_cons, restEndEq, endFrom_cons]
        · rw [cutPages, if_pos fits, flagsAt_cons, flagsAt_cons, restFlags]
          simp only [FdPage.Contains] at fits ⊢
          split_ifs <;> first | rfl | omega
      · have restCut : cutPages size rest = [] :=
          cutPages_eq_nil tail (by simp only [FdPage.next] at fits ⊢; omega)
        by_cases atPage : size ≤ page.offset
        · rw [cutPages, if_neg fits, if_pos atPage, restCut]
          refine ⟨trivial, ?_, fun x => ?_⟩
          · simp only [endFrom_nil, endFrom_cons, FdPage.next] at fits ⊢
            omega
          · split
            · exact (contiguousHere.flagsAt_eq_none (Or.inl (by omega))).symm
            · rfl
        · rw [cutPages, if_neg fits, if_neg atPage, restCut]
          refine ⟨⟨atStart, show 0 < size - page.offset by omega, trivial⟩, ?_, fun x => ?_⟩
          · simp only [endFrom_cons, endFrom_nil, FdPage.next] at fits ⊢
            omega
          · have outside := tail.flagsAt_eq_none (x := x)
            simp only [flagsAt_cons, flagsAt_nil, FdPage.Contains, FdPage.next, FdPage.flags]
              at outside fits ⊢
            split_ifs <;> first | rfl | omega | (rw [outside (Or.inl (by omega))])

/-! ## Well-formed lists -/

theorem PageList.compress_wellFormed {pl : PageList} (wellFormed : WellFormed pl.pages) :
    WellFormed pl.compress.pages :=
  compressPages_wellFormed wellFormed

theorem init_compress_spec (pl : PageList) {size : Int} (nonneg : 0 ≤ size)
    (isLoaded isModified : Bool) :
    let initialized := (pl.init size isLoaded isModified).compress
    initialized.pages = [⟨0, size, isLoaded, isModified⟩] ∧ WellFormed initialized.pages ∧
      initialized.size = size ∧
      ∀ x, flagsAt initialized.pages x =
        if 0 ≤ x ∧ x < size then some (isLoaded, isModified) else none := by
  refine ⟨by simp [PageList.init, nonneg], ?_, ?_, fun x => ?_⟩
  · simp only [PageList.compress_pages, PageList.init, PageList.clear, nonneg, if_true,
      compressPages_singleton]
    by_cases positive : 0 < size
    · exact Or.inl ⟨rfl, positive, trivial⟩
    · exact Or.inr ⟨rfl, show size = 0 by omega⟩
  · simp [PageList.size, PageList.init, nonneg, FdPage.next]
  · simp [PageList.init, PageList.clear, nonneg, flagsAt_cons, FdPage.Contains, FdPage.next,
      FdPage.flags]

/-! ## `Resize` on well-formed lists -/

section Resize

variable {pl : PageList} {size : Int} (isLoaded isModified : Bool)

/-- Growing a well-formed list (or resizing it to its own size) appends the new bytes with the
requested flags and keeps the rest. -/
theorem resize_grow (wellFormed : WellFormed pl.pages) (grows : pl.size ≤ size) :
    WellFormed (pl.resize size isLoaded isModified).pages ∧
      Compressed (pl.resize size isLoaded isModified).pages ∧
      (pl.resize size isLoaded isModified).size = size ∧
      (pl.resize size isLoaded isModified).isShrink = pl.isShrink ∧
      ∀ x, flagsAt (pl.resize size isLoaded isModified).pages x =
        if pl.size ≤ x ∧ x < size then some (isLoaded, isModified) else flagsAt pl.pages x := by
  have nonneg := wellFormed.size_nonneg
  by_cases empty : pl.size = 0
  · rw [resize_of_size_eq_zero empty]
    obtain ⟨pages, initWellFormed, initSize, initFlags⟩ :=
      init_compress_spec pl (show 0 ≤ size by omega) isLoaded isModified
    refine ⟨initWellFormed, ?_, initSize, rfl, fun x => ?_⟩
    · simp only [PageList.compress_pages] at pages ⊢
      rw [pages]
      exact List.chain'_singleton _
    · have initX := initFlags x
      simp only [PageList.compress_pages] at initX ⊢
      rw [initX, empty]
      by_cases inside : 0 ≤ x ∧ x < size
      · rw [if_pos inside, if_pos inside]
      · rw [if_neg inside, if_neg inside, wellFormed.flagsAt_eq_none (by omega)]
  · have contiguous := wellFormed.contiguous_of_size_ne_zero empty
    have endAt := size_eq_endFrom pl
    by_cases longer : pl.size < size
    · rw [resize_of_lt empty longer]
      have appended :
          Contiguous 0 (pl.pages ++ [⟨pl.size, size - pl.size, isLoaded, isModified⟩]) :=
        contiguous_append.mpr
          ⟨contiguous, by rw [← endAt]; exact ⟨rfl, show 0 < size - pl.size by omega, trivial⟩⟩
      refine ⟨Or.inl (compressPages_contiguous appended), compressPages_compressed appended, ?_,
        rfl, fun x => ?_⟩
      · rw [size_eq_endFrom, PageList.compress_pages, endFrom_compressPages appended,
          endFrom_append, ← endAt]
        simp only [endFrom_cons, endFrom_nil, FdPage.next]
        omega
      · rw [PageList.compress_pages, flagsAt_compressPages appended, flagsAt_append]
        simp only [flagsAt_cons, flagsAt_nil, FdPage.Contains, FdPage.next, FdPage.flags]
        by_cases before : x < pl.size
        · rw [if_neg (by omega), if_neg (by omega), Option.or_none]
        · rw [wellFormed.flagsAt_eq_none (Or.inr (by omega)), Option.none_or]
          split_ifs <;> first | rfl | omega
    · have same : pl.size = size := by omega
      rw [resize_of_eq empty same.symm]
      refine ⟨compressPages_wellFormed wellFormed,
        compressPages_compressed_of_wellFormed wellFormed, ?_, rfl, fun x => ?_⟩
      · rw [size_compress wellFormed, same]
      · rw [flagsAt_compress wellFormed, if_neg (by omega)]

/-- Shrinking a well-formed list to a size `≥ 0` keeps exactly the bytes before the new end
and records the truncation when `isModified` is passed. -/
theorem resize_shrink (wellFormed : WellFormed pl.pages) (nonneg : 0 ≤ size)
    (shrinks : size < pl.size) :
    WellFormed (pl.resize size isLoaded isModified).pages ∧
      Compressed (pl.resize size isLoaded isModified).pages ∧
      (pl.resize size isLoaded isModified).size = size ∧
      (pl.resize size isLoaded isModified).isShrink = (pl.isShrink || isModified) ∧
      ∀ x, flagsAt (pl.resize size isLoaded isModified).pages x =
        if x < size then flagsAt pl.pages x else none := by
  have nonempty : pl.size ≠ 0 := by omega
  have contiguous := wellFormed.contiguous_of_size_ne_zero nonempty
  obtain ⟨cutContiguous, cutEnd, cutFlags⟩ := cutPages_spec contiguous nonneg
  rw [resize_of_gt nonempty shrinks]
  refine ⟨Or.inl (compressPages_contiguous cutContiguous),
    compressPages_compressed cutContiguous, ?_, rfl, fun x => ?_⟩
  · rw [size_eq_endFrom, PageList.compress_pages, endFrom_compressPages cutContiguous, cutEnd,
      ← size_eq_endFrom]
    omega
  · rw [PageList.compress_pages, flagsAt_compressPages cutContiguous, cutFlags]

/-- `Resize` keeps a well-formed list well formed and compressed, whatever the size asked
for. -/
theorem resize_wellFormed (wellFormed : WellFormed pl.pages) (size : Int)
    (isLoaded isModified : Bool) :
    WellFormed (pl.resize size isLoaded isModified).pages ∧
      Compressed (pl.resize size isLoaded isModified).pages := by
  by_cases grows : pl.size ≤ size
  · obtain ⟨resizedWellFormed, compressed, -⟩ := resize_grow isLoaded isModified wellFormed grows
    exact ⟨resizedWellFormed, compressed⟩
  · by_cases nonneg : 0 ≤ size
    · obtain ⟨resizedWellFormed, compressed, -⟩ :=
        resize_shrink isLoaded isModified wellFormed nonneg (by omega)
      exact ⟨resizedWellFormed, compressed⟩
    · by_cases empty : pl.size = 0
      · rw [resize_of_size_eq_zero empty]
        simp only [PageList.compress_pages, PageList.init, nonneg, if_false, compressPages_nil]
        exact ⟨Or.inl trivial, List.chain'_nil⟩
      · rw [resize_of_gt empty (by omega),
          cutPages_eq_nil (wellFormed.contiguous_of_size_ne_zero empty) (by omega)]
        exact ⟨Or.inl trivial, List.chain'_nil⟩

/-- `Resize(size, l, m)` on a well-formed list of size `n ≥ 0`: a well-formed compressed list
of size `size`, reading as before on `[0, min(n, size))` and as `(l, m)` on `[n, size)`, whose
shrunk flag records a truncation requested with `m`, so that `IsModified()` then holds. -/
theorem resize_spec (pl : PageList) (wellFormed : WellFormed pl.pages) (size : Int)
    (nonneg : 0 ≤ size) (isLoaded isModified : Bool) :
    let resized := pl.resize size isLoaded isModified
    WellFormed resized.pages ∧ Compressed resized.pages ∧ resized.size = size ∧
      (∀ x, flagsAt resized.pages x =
        if pl.size ≤ x ∧ x < size then some (isLoaded, isModified)
        else if x < size then flagsAt pl.pages x else none) ∧
      resized.isShrink = (pl.isShrink || (decide (size < pl.size) && isModified)) ∧
      (size < pl.size → isModified = true → resized.isModified = true) := by
  by_cases grows : pl.size ≤ size
  · obtain ⟨resizedWellFormed, compressed, resizedSize, shrink, flags⟩ :=
      resize_grow isLoaded isModified wellFormed grows
    refine ⟨resizedWellFormed, compressed, resizedSize, fun x => ?_, ?_, fun shrinks => ?_⟩
    · rw [flags x]
      split_ifs <;> first | rfl | rw [wellFormed.flagsAt_eq_none (by omega)]
    · simp [shrink, show ¬ size < pl.size by omega]
    · omega
  · obtain ⟨resizedWellFormed, compressed, resizedSize, shrink, flags⟩ :=
      resize_shrink isLoaded isModified wellFormed nonneg (by omega)
    refine ⟨resizedWellFormed, compressed, resizedSize, fun x => ?_, ?_, fun _ modified => ?_⟩
    · rw [flags x, if_neg (show ¬ (pl.size ≤ x ∧ x < size) by omega)]
    · simp [shrink, show size < pl.size by omega]
    · rw [PageList.isModified, shrink, modified]
      simp

theorem resize_spec_truncate :
    let pl : PageList := ⟨[⟨0, 6, true, false⟩, ⟨6, 4, false, false⟩], false⟩
    let resized := pl.resize 8 false true
    WellFormed resized.pages ∧ Compressed resized.pages ∧ resized.size = 8 ∧
      (∀ x, flagsAt resized.pages x =
        if pl.size ≤ x ∧ x < 8 then some (false, true)
        else if x < 8 then flagsAt pl.pages x else none) ∧
      resized.isShrink = (pl.isShrink || (decide (8 < pl.size) && true)) ∧
      (8 < pl.size → true = true → resized.isModified = true) :=
  resize_spec _ (by decide) 8 (by decide) false true

end Resize

/-! ## `Parse` -/

/-- The list is cut at `pos`: no page holds `pos` strictly inside. -/
def CutAt (pos : Int) (pages : List FdPage) : Prop :=
  ∀ page ∈ pages, ¬ (page.offset < pos ∧ pos < page.next)

theorem cutAt_of_parsePages_eq_none {pos : Int} {pages : List FdPage}
    (notFound : parsePages pos pages = none) : CutAt pos pages := by
  induction pages with
  | nil => exact fun _ member => absurd member (List.not_mem_nil _)
  | cons page rest inductionHypothesis =>
      simp only [parsePages] at notFound
      split_ifs at notFound with atOffset inside
      simp only [Option.map_eq_none'] at notFound
      intro other member
      rcases List.mem_cons.mp member with rfl | later
      · exact inside
      · exact inductionHypothesis notFound other later

/-- Splitting a contiguous list at `pos` keeps its range and byte map and cuts it at `pos`. -/
theorem parsePages_spec {start pos : Int} {pages parsed : List FdPage}
    (contiguous : Contiguous start pages) (found : parsePages pos pages = some parsed) :
    Contiguous start parsed ∧ endFrom start parsed = endFrom start pages ∧
      (∀ x, flagsAt parsed x = flagsAt pages x) ∧ CutAt pos parsed ∧
      ∀ cut, CutAt cut pages → CutAt cut parsed := by
  induction pages generalizing start parsed with
  | nil => cases found
  | cons page rest inductionHypothesis =>
      have contiguousHere : Contiguous start (page :: rest) := contiguous
      obtain ⟨atStart, positive, tail⟩ := contiguous
      have afterPage : ∀ other ∈ rest, page.next ≤ other.offset := fun other member =>
        (tail.mem_bounds member).1
      simp only [parsePages] at found
      split_ifs at found with atOffset inside
      · cases found
        refine ⟨contiguousHere, rfl, fun _ => rfl, fun other member => ?_, fun _ cut => cut⟩
        rcases List.mem_cons.mp member with rfl | later
        · omega
        · have := afterPage other later
          simp only [FdPage.next] at this ⊢
          omega
      · cases found
        simp only [FdPage.next] at inside afterPage
        refine ⟨⟨atStart, show 0 < pos - page.offset by omega,
            show pos = page.offset + (pos - page.offset) by omega,
            show 0 < page.bytes - (pos - page.offset) by omega, ?_⟩, ?_, fun x => ?_,
          fun other member => ?_, fun cut cutPages other member => ?_⟩
        · simpa only [FdPage.next, show pos + (page.bytes - (pos - page.offset)) =
            page.offset + page.bytes by omega] using tail
        · simp only [endFrom_cons, FdPage.next]
          congr 1
          omega
        · simp only [flagsAt_cons, FdPage.Contains, FdPage.next, FdPage.flags]
          split_ifs <;> first | rfl | omega
        · simp only [List.mem_cons] at member
          rcases member with rfl | rfl | later
          · simp only [FdPage.next]
            omega
          · simp only [FdPage.next]
            omega
          · have := afterPage other later
            simp only [FdPage.next] at this ⊢
            omega
        · have notInPage := cutPages page (List.mem_cons_self _ _)
          simp only [List.mem_cons] at member
          rcases member with rfl | rfl | later
          · simp only [FdPage.next] at notInPage ⊢
            omega
          · simp only [FdPage.next] at notInPage ⊢
            omega
          · exact cutPages other (List.mem_cons_of_mem _ later)
      · obtain ⟨tailParsed, tailFound, rfl⟩ := Option.map_eq_some'.mp found
        obtain ⟨tailContiguous, tailEnd, tailFlags, tailCut, tailKeeps⟩ :=
          inductionHypothesis tail tailFound
        refine ⟨⟨atStart, positive, tailContiguous⟩, tailEnd, fun x => ?_,
          fun other member => ?_, fun cut cutPages other member => ?_⟩
        · rw [flagsAt_cons, flagsAt_cons, tailFlags]
        · rcases List.mem_cons.mp member with rfl | later
          · exact inside
          · exact tailCut other later
        · rcases List.mem_cons.mp member with rfl | later
          · exact cutPages other (List.mem_cons_self _ _)
          · exact tailKeeps cut (fun page member => cutPages page (List.mem_cons_of_mem _ member))
              other later

/-- `Parse` on a contiguous list: same range and byte map, cut at `pos`, and still cut wherever
it was. -/
theorem parse_spec {pl : PageList} {start : Int} (contiguous : Contiguous start pl.pages)
    (pos : Int) :
    Contiguous start (pl.parse pos).pages ∧ endFrom start (pl.parse pos).pages =
      endFrom start pl.pages ∧ (∀ x, flagsAt (pl.parse pos).pages x = flagsAt pl.pages x) ∧
      CutAt pos (pl.parse pos).pages ∧
      ∀ cut, CutAt cut pl.pages → CutAt cut (pl.parse pos).pages := by
  simp only [PageList.parse]
  cases found : parsePages pos pl.pages with
  | none =>
      exact ⟨contiguous, rfl, fun _ => rfl, cutAt_of_parsePages_eq_none found, fun _ cut => cut⟩
  | some parsed => exact parsePages_spec contiguous found

theorem parse_wellFormed {pl : PageList} (wellFormed : WellFormed pl.pages) (pos : Int) :
    WellFormed (pl.parse pos).pages := by
  rcases wellFormed with contiguous | emptyFile
  · exact Or.inl (parse_spec contiguous pos).1
  · rcases pl with ⟨pages, isShrink⟩
    match pages, emptyFile with
    | [page], ⟨atZero, empty⟩ =>
        simp only [PageList.parse, parsePages]
        split_ifs with atOffset inside
        · exact Or.inr ⟨atZero, empty⟩
        · simp only [FdPage.next] at inside
          omega
        · exact Or.inr ⟨atZero, empty⟩

/-! ## The relabel loop of `SetPageLoadedStatus` -/

section SetFlags

variable (start size : Int) (isLoaded isModified : Bool)

theorem setFlagsFrom_contiguous {first : Int} {pages : List FdPage}
    (contiguous : Contiguous first pages) :
    Contiguous first (setFlagsFrom start size isLoaded isModified pages) ∧
      endFrom first (setFlagsFrom start size isLoaded isModified pages) = endFrom first pages := by
  induction pages generalizing first with
  | nil => exact ⟨trivial, rfl⟩
  | cons page rest inductionHypothesis =>
      obtain ⟨atStart, positive, tail⟩ := contiguous
      obtain ⟨tailContiguous, tailEnd⟩ := inductionHypothesis tail
      simp only [setFlagsFrom]
      split_ifs
      · exact ⟨⟨atStart, positive, tailContiguous⟩, tailEnd⟩
      · exact ⟨⟨atStart, positive, tail⟩, rfl⟩
      · exact ⟨⟨atStart, positive, tailContiguous⟩, tailEnd⟩

theorem setFlagsFrom_isEmptyFilePage {pages : List FdPage} (emptyFile : IsEmptyFilePage pages) :
    IsEmptyFilePage (setFlagsFrom start size isLoaded isModified pages) := by
  match pages, emptyFile with
  | [page], emptyFile =>
      simp only [setFlagsFrom]
      split_ifs <;> exact emptyFile

/-- On a contiguous list cut at both ends of `[start, start + size)`, the loop relabels exactly
the bytes of that range. -/
theorem flagsAt_setFlagsFrom {first : Int} {pages : List FdPage}
    (contiguous : Contiguous first pages) (cutStart : CutAt start pages)
    (cutEnd : CutAt (start + size) pages) (x : Int) :
    flagsAt (setFlagsFrom start size isLoaded isModified pages) x =
      (flagsAt pages x).map fun flags =>
        if start ≤ x ∧ x < start + size then (isLoaded, isModified) else flags := by
  induction pages generalizing first with
  | nil => rfl
  | cons page rest inductionHypothesis =>
      have contiguousHere : Contiguous first (page :: rest) := contiguous
      obtain ⟨atStart, positive, tail⟩ := contiguous
      have pageCutStart := cutStart page (List.mem_cons_self _ _)
      have pageCutEnd := cutEnd page (List.mem_cons_self _ _)
      have restFlags := inductionHypothesis tail
        (fun other member => cutStart other (List.mem_cons_of_mem _ member))
        (fun other member => cutEnd other (List.mem_cons_of_mem _ member))
      rw [setFlagsFrom]
      by_cases before : page.endOffset < start
      · rw [if_pos before, flagsAt_cons, flagsAt_cons, restFlags]
        rw [FdPage.endOffset_lt_iff positive] at before
        by_cases holds : page.Contains x
        · rw [if_pos holds, if_pos holds]
          simp only [FdPage.Contains] at holds
          simp only [Option.map_some', if_neg (show ¬ (start ≤ x ∧ x < start + size) by omega)]
        · rw [if_neg holds, if_neg holds]
      · rw [if_neg before]
        rw [FdPage.endOffset_lt_iff positive] at before
        by_cases after : start + size ≤ page.offset
        · rw [if_pos after]
          cases known : flagsAt (page :: rest) x with
          | none => rfl
          | some flags =>
              obtain ⟨holder, member, holds, -⟩ := exists_mem_of_flagsAt_eq_some known
              have := (contiguousHere.mem_bounds member).1
              simp only [FdPage.Contains] at holds
              simp only [Option.map_some',
                if_neg (show ¬ (start ≤ x ∧ x < start + size) by omega)]
        · rw [if_neg after, flagsAt_cons, flagsAt_cons, restFlags]
          have relabeled :
              ({ page with loaded := isLoaded, modified := isModified } : FdPage).Contains x ↔
                page.Contains x := Iff.rfl
          by_cases holds : page.Contains x
          · rw [if_pos (relabeled.mpr holds), if_pos holds]
            simp only [FdPage.Contains, FdPage.next] at holds pageCutStart pageCutEnd before after
            simp only [Option.map_some', FdPage.flags,
              if_pos (show start ≤ x ∧ x < start + size by omega)]
          · rw [if_neg (mt relabeled.mp holds), if_neg holds]

end SetFlags

/-! ## `SetPageLoadedStatus` -/

section SetPageLoadedStatus

variable {pl : PageList} {start size : Int} {pstatus : PageStatus} {isCompress : Bool}

theorem setPageLoadedStatus_of_le (beyond : pl.size ≤ start) :
    pl.setPageLoadedStatus start size pstatus false =
      (if pl.size < start then pl.resize start false pstatus.isModified else pl).resize
        (start + size) pstatus.isLoaded pstatus.isModified := by
  simp only [PageList.setPageLoadedStatus, if_pos beyond, Bool.false_eq_true, if_false]

theorem setPageLoadedStatus_of_covers (inside : start < pl.size)
    (covers : pl.size ≤ start + size) :
    pl.setPageLoadedStatus start size pstatus false =
      (pl.resize start false false).resize (start + size) pstatus.isLoaded pstatus.isModified := by
  simp only [PageList.setPageLoadedStatus, if_neg (Int.not_le.mpr inside), if_pos covers,
    Bool.false_eq_true, if_false]

theorem setPageLoadedStatus_of_inner (inner : start + size < pl.size) (inside : start < pl.size) :
    pl.setPageLoadedStatus start size pstatus false =
      { (pl.parse start).parse (start + size) with
        pages := setFlagsFrom start size pstatus.isLoaded pstatus.isModified
          ((pl.parse start).parse (start + size)).pages } := by
  simp only [PageList.setPageLoadedStatus, if_neg (Int.not_le.mpr inside),
    if_neg (Int.not_le.mpr inner), Bool.false_eq_true, if_false]

theorem setPageLoadedStatus_true (pl : PageList) (start size : Int) (pstatus : PageStatus) :
    pl.setPageLoadedStatus start size pstatus true =
      (pl.setPageLoadedStatus start size pstatus false).compress := by
  simp [PageList.setPageLoadedStatus]

/-- `SetPageLoadedStatus` keeps a well-formed list well formed, whatever its arguments. -/
theorem setPageLoadedStatus_wellFormed (wellFormed : WellFormed pl.pages) (start size : Int)
    (pstatus : PageStatus) (isCompress : Bool) :
    WellFormed (pl.setPageLoadedStatus start size pstatus isCompress).pages := by
  have updatedWellFormed : WellFormed (pl.setPageLoadedStatus start size pstatus false).pages := by
    by_cases beyond : pl.size ≤ start
    · rw [setPageLoadedStatus_of_le beyond]
      split
      · exact (resize_wellFormed (resize_wellFormed wellFormed _ _ _).1 _ _ _).1
      · exact (resize_wellFormed wellFormed _ _ _).1
    · by_cases covers : pl.size ≤ start + size
      · rw [setPageLoadedStatus_of_covers (by omega) covers]
        exact (resize_wellFormed (resize_wellFormed wellFormed _ _ _).1 _ _ _).1
      · rw [setPageLoadedStatus_of_inner (by omega) (by omega)]
        rcases parse_wellFormed (parse_wellFormed wellFormed start) (start + size) with
          contiguous | emptyFile
        · exact Or.inl (setFlagsFrom_contiguous _ _ _ _ contiguous).1
        · exact Or.inr (setFlagsFrom_isEmptyFilePage _ _ _ _ emptyFile)
  cases isCompress
  · exact updatedWellFormed
  · rw [setPageLoadedStatus_true]
    exact compressPages_wellFormed updatedWellFormed

/-- With `is_compress` set, `SetPageLoadedStatus` leaves no two neighbours with equal flags. -/
theorem setPageLoadedStatus_compressed (wellFormed : WellFormed pl.pages) (start size : Int)
    (pstatus : PageStatus) : Compressed (pl.setPageLoadedStatus start size pstatus true).pages := by
  rw [setPageLoadedStatus_true]
  exact compressPages_compressed_of_wellFormed
    (setPageLoadedStatus_wellFormed wellFormed start size pstatus false)

/-- What `SetPageLoadedStatus(start, size, pstatus)` makes of `pl`: a well-formed list of size
`max Size() (start + size)` whose bytes of `[start, start + size)` carry the requested flags,
whose bytes between the old end and `start` are unloaded and carry the requested modified flag,
and whose other bytes keep their flags; `is_shrink` is kept. -/
def StatusSet (pl updated : PageList) (start size : Int) (pstatus : PageStatus) : Prop :=
  WellFormed updated.pages ∧ updated.size = max pl.size (start + size) ∧
    updated.isShrink = pl.isShrink ∧
    ∀ x, flagsAt updated.pages x =
      if start ≤ x ∧ x < start + size then some (pstatus.isLoaded, pstatus.isModified)
      else if pl.size ≤ x ∧ x < start then some (false, pstatus.isModified)
      else flagsAt pl.pages x

theorem StatusSet.compress {updated : PageList} (set : StatusSet pl updated start size pstatus) :
    StatusSet pl updated.compress start size pstatus := by
  obtain ⟨wellFormed, sizeEq, shrinkEq, flagsEq⟩ := set
  exact ⟨compressPages_wellFormed wellFormed, by rw [size_compress wellFormed, sizeEq],
    shrinkEq, fun x => by rw [flagsAt_compress wellFormed, flagsEq]⟩

theorem setPageLoadedStatus_statusSet (wellFormed : WellFormed pl.pages) (startNonneg : 0 ≤ start)
    (sizeNonneg : 0 ≤ size) (pstatus : PageStatus) (isCompress : Bool) :
    StatusSet pl (pl.setPageLoadedStatus start size pstatus isCompress) start size pstatus := by
  have updated : StatusSet pl (pl.setPageLoadedStatus start size pstatus false) start size
      pstatus := by
    by_cases beyond : pl.size ≤ start
    · rw [setPageLoadedStatus_of_le beyond]
      by_cases gap : pl.size < start
      · rw [if_pos gap]
        obtain ⟨gapWellFormed, -, gapSize, gapShrink, gapFlags⟩ :=
          resize_grow false pstatus.isModified wellFormed
            (Int.le_of_lt gap)
        obtain ⟨newWellFormed, -, newSize, newShrink, newFlags⟩ :=
          resize_grow pstatus.isLoaded pstatus.isModified
            gapWellFormed (show _ ≤ start + size by rw [gapSize]; omega)
        refine ⟨newWellFormed, by rw [newSize]; omega, by rw [newShrink, gapShrink], fun x => ?_⟩
        rw [newFlags, gapFlags, gapSize]
      · rw [if_neg gap]
        obtain ⟨newWellFormed, -, newSize, newShrink, newFlags⟩ :=
          resize_grow pstatus.isLoaded pstatus.isModified
            wellFormed (show pl.size ≤ start + size by omega)
        refine ⟨newWellFormed, by rw [newSize]; omega, newShrink, fun x => ?_⟩
        rw [newFlags]
        split_ifs <;> first | rfl | omega
    · by_cases covers : pl.size ≤ start + size
      · rw [setPageLoadedStatus_of_covers (by omega) covers]
        obtain ⟨cutWellFormed, -, cutSize, cutShrink, cutFlags⟩ :=
          resize_shrink false false wellFormed startNonneg
            (by omega)
        obtain ⟨newWellFormed, -, newSize, newShrink, newFlags⟩ :=
          resize_grow pstatus.isLoaded pstatus.isModified
            cutWellFormed (show _ ≤ start + size by rw [cutSize]; omega)
        refine ⟨newWellFormed, by rw [newSize]; omega,
          by rw [newShrink, cutShrink, Bool.or_false], fun x => ?_⟩
        rw [newFlags, cutFlags, cutSize]
        split_ifs <;> first | rfl | omega | exact (wellFormed.flagsAt_eq_none (by omega)).symm
      · rw [setPageLoadedStatus_of_inner (by omega) (by omega)]
        have contiguous := wellFormed.contiguous_of_size_ne_zero (by omega)
        obtain ⟨startContiguous, startEnd, startFlags, startCut, -⟩ := parse_spec contiguous start
        obtain ⟨bothContiguous, bothEnd, bothFlags, endCut, keepsCut⟩ :=
          parse_spec startContiguous (start + size)
        obtain ⟨setContiguous, setEnd⟩ := setFlagsFrom_contiguous start size pstatus.isLoaded
          pstatus.isModified bothContiguous
        refine ⟨Or.inl setContiguous, ?_, rfl, fun x => ?_⟩
        · rw [size_eq_endFrom, setEnd, bothEnd, startEnd, ← size_eq_endFrom]
          omega
        · rw [flagsAt_setFlagsFrom start size _ _ bothContiguous (keepsCut start startCut) endCut,
            bothFlags, startFlags]
          by_cases inside : start ≤ x ∧ x < start + size
          · obtain ⟨page, member, holds⟩ := contiguous.exists_mem (x := x)
              ⟨by omega, by rw [← size_eq_endFrom]; omega⟩
            rw [contiguous.flagsAt_of_mem member holds, if_pos inside, Option.map_some',
              if_pos inside]
          · rw [if_neg inside, if_neg (show ¬ (pl.size ≤ x ∧ x < start) by omega)]
            cases flagsAt pl.pages x <;> simp [inside]
  cases isCompress
  · exact updated
  · rw [setPageLoadedStatus_true]
    exact updated.compress

end SetPageLoadedStatus

/-- `SetPageLoadedStatus` on a well-formed list, for a request from `start ≥ 0` of `size ≥ 0`
bytes whose end is an `off_t`, with or without the final `Compress`: the list stays well formed and reaches `max Size() (start + size)`; the
bytes of `[start, start + size)` take the requested flags, the bytes between the old end and
`start` are unloaded with the requested modified flag, the others keep theirs, and `is_shrink`
is kept. -/
theorem setPageLoadedStatus_spec (pl : PageList) (wellFormed : WellFormed pl.pages)
    (start size : Int) (request : Request start size) (pstatus : PageStatus) (isCompress : Bool) :
    let updated := pl.setPageLoadedStatus start size pstatus isCompress
    WellFormed updated.pages ∧ updated.size = max pl.size (start + size) ∧
      updated.isShrink = pl.isShrink ∧
      ∀ x, flagsAt updated.pages x =
        if start ≤ x ∧ x < start + size then some (pstatus.isLoaded, pstatus.isModified)
        else if pl.size ≤ x ∧ x < start then some (false, pstatus.isModified)
        else flagsAt pl.pages x :=
  setPageLoadedStatus_statusSet wellFormed request.start_nonneg request.size_nonneg pstatus
    isCompress

theorem setPageLoadedStatus_spec_gap :
    let pl : PageList := ⟨[⟨0, 100, true, false⟩], false⟩
    let updated := pl.setPageLoadedStatus 120 30 .modified true
    WellFormed updated.pages ∧ updated.size = max pl.size (120 + 30) ∧
      updated.isShrink = pl.isShrink ∧
      ∀ x, flagsAt updated.pages x =
        if 120 ≤ x ∧ x < 120 + 30 then
          some (PageStatus.modified.isLoaded, PageStatus.modified.isModified)
        else if pl.size ≤ x ∧ x < 120 then some (false, PageStatus.modified.isModified)
        else flagsAt pl.pages x :=
  setPageLoadedStatus_spec _ (by decide) 120 30 ⟨by decide, by decide, by decide⟩ .modified true

/-! ## `ClearAllModified` -/

theorem clearAllModified_wellFormed {pl : PageList} (wellFormed : WellFormed pl.pages) :
    WellFormed pl.clearAllModified.pages ∧ Compressed pl.clearAllModified.pages := by
  have cleared : WellFormed (pl.pages.map fun page => { page with modified := false }) :=
    wellFormed.map_adjust ⟨false, true, false, false⟩
  exact ⟨compressPages_wellFormed cleared, compressPages_compressed_of_wellFormed cleared⟩

end S3fs
