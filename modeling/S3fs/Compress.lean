import S3fs.FdPage

/-!
# Compressing page lists

`PageList::Compress` walks the list once, merging every page into its predecessor when the two
carry the same flags. The static helper `raw_compress_fdpage_list` does the same into a second
list, optionally ignoring one of the two flags and dropping empty pages; the multipart planner
and `GetNoDataPageLists` use it through three wrappers.

On a contiguous list both passes keep the range and the byte map and leave no two neighbours
with equal flags (`compressPages_contiguous`, `flagsAt_compressPages`,
`compressPages_compressed`). A contiguous compressed list is determined by its start and its
byte map (`eq_of_flagsAt_eq`), so `Compress` yields a canonical form. On a contiguous list,
`raw_compress_fdpage_list` is `Compress` after resetting the ignored flags to their defaults
(`rawCompressFdpageList_eq_compressPages`); on pages in order with holes between them it returns
a contiguous list over all of them (`rawCompressFdpageList_ascending`). On any list, even one
whose pages overlap, its first page covers the first input page with that page's flags when
they fill holes (`flagsAt_rawCompressFdpageList_first`).
-/

namespace S3fs

/-! ## `PageList::Compress` -/

/-- What `Compress` does before comparing `lastpage` with a page starting at `pos`: when the two
do not touch, a `(false, false)` page fills the hole after a page with a flag set, while a page
without flags is stretched up to `pos`. -/
structure GapFill where
  kept : List FdPage
  last : FdPage

/-- The gap repair of `PageList::Compress`; `kept` are the pages it makes final, `last` the page
the next one is compared with. -/
def fillGap (lastpage : FdPage) (pos : Int) : GapFill :=
  if lastpage.next = pos then ⟨[], lastpage⟩
  else if lastpage.loaded || lastpage.modified then
    ⟨[lastpage], ⟨lastpage.next, pos - lastpage.next, false, false⟩⟩
  else ⟨[], { lastpage with bytes := pos - lastpage.offset }⟩

/-- The loop of `PageList::Compress` from `lastpage` on: a page with the flags of `lastpage` is
merged into it and erased, any other page becomes the new `lastpage`. -/
def compressFrom (lastpage : FdPage) : List FdPage → List FdPage
  | [] => [lastpage]
  | page :: rest =>
      let gap := fillGap lastpage page.offset
      if gap.last.loaded = page.loaded ∧ gap.last.modified = page.modified then
        gap.kept ++ compressFrom { gap.last with bytes := gap.last.bytes + page.bytes } rest
      else
        gap.kept ++ gap.last :: compressFrom page rest

/-- The pages `PageList::Compress` leaves. -/
def compressPages : List FdPage → List FdPage
  | [] => []
  | page :: rest => compressFrom page rest

/-- `PageList::Compress`. -/
def PageList.compress (pl : PageList) : PageList :=
  { pl with pages := compressPages pl.pages }

@[simp]
theorem PageList.compress_pages (pl : PageList) : pl.compress.pages = compressPages pl.pages :=
  rfl

@[simp]
theorem PageList.compress_isShrink (pl : PageList) : pl.compress.isShrink = pl.isShrink := rfl

@[simp]
theorem compressPages_nil : compressPages [] = [] := rfl

@[simp]
theorem compressPages_singleton (page : FdPage) : compressPages [page] = [page] := rfl

/-- The page `Compress` makes of `lastpage` and a page it absorbs. -/
def mergePage (lastpage page : FdPage) : FdPage :=
  { lastpage with bytes := lastpage.bytes + page.bytes }

@[simp]
theorem mergePage_offset (lastpage page : FdPage) :
    (mergePage lastpage page).offset = lastpage.offset := rfl

@[simp]
theorem mergePage_bytes (lastpage page : FdPage) :
    (mergePage lastpage page).bytes = lastpage.bytes + page.bytes := rfl

@[simp]
theorem mergePage_flags (lastpage page : FdPage) :
    (mergePage lastpage page).flags = lastpage.flags := rfl

theorem compressFrom_cons_of_touching {lastpage page : FdPage} (rest : List FdPage)
    (touching : lastpage.next = page.offset) :
    compressFrom lastpage (page :: rest) =
      if lastpage.flags = page.flags then compressFrom (mergePage lastpage page) rest
      else lastpage :: compressFrom page rest := by
  simp [compressFrom, fillGap, touching, FdPage.flags_eq_iff, mergePage]

/-- A merged page holds exactly the bytes of the two pages it was made of. -/
theorem flagsAt_mergePage {lastpage page : FdPage} (rest : List FdPage)
    (nonneg : 0 ≤ lastpage.bytes) (pageNonneg : 0 ≤ page.bytes)
    (touching : lastpage.next = page.offset) (sameFlags : lastpage.flags = page.flags) (x : Int) :
    flagsAt (mergePage lastpage page :: rest) x = flagsAt (lastpage :: page :: rest) x := by
  simp only [flagsAt_cons, FdPage.Contains, FdPage.next, mergePage_offset, mergePage_bytes,
    mergePage_flags] at touching ⊢
  by_cases first : lastpage.offset ≤ x ∧ x < lastpage.offset + lastpage.bytes
  · rw [if_pos (by omega), if_pos first]
  · by_cases second : page.offset ≤ x ∧ x < page.offset + page.bytes
    · rw [if_pos (by omega), if_neg first, if_pos second, sameFlags]
    · rw [if_neg (by omega), if_neg first, if_neg second]

/-- A byte of a merged page lies in one of the two pages it was made of. -/
theorem contains_of_mergePage {lastpage page : FdPage} (touching : lastpage.next = page.offset)
    {x : Int} (inside : (mergePage lastpage page).Contains x) :
    lastpage.Contains x ∨ page.Contains x := by
  simp only [FdPage.Contains, FdPage.next, mergePage_offset, mergePage_bytes] at touching inside ⊢
  omega

section Contiguous

variable {lastpage : FdPage} {rest : List FdPage}

theorem contiguous_mergePage {page : FdPage} (start : Int)
    (contiguous : Contiguous start (lastpage :: page :: rest)) :
    Contiguous start (mergePage lastpage page :: rest) := by
  obtain ⟨atStart, positive, atNext, pagePositive, tail⟩ := contiguous
  refine ⟨atStart, by simp only [mergePage_bytes]; omega, ?_⟩
  simpa only [FdPage.next, mergePage_offset, mergePage_bytes, atNext, Int.add_assoc] using tail

theorem compressFrom_contiguous (start : Int)
    (contiguous : Contiguous start (lastpage :: rest)) :
    Contiguous start (compressFrom lastpage rest) := by
  induction rest generalizing start lastpage with
  | nil => exact contiguous
  | cons page rest inductionHypothesis =>
      have touching : lastpage.next = page.offset := contiguous.2.2.1.symm
      rw [compressFrom_cons_of_touching rest touching]
      split
      · exact inductionHypothesis start (contiguous_mergePage start contiguous)
      · exact ⟨contiguous.1, contiguous.2.1, inductionHypothesis _ contiguous.2.2⟩

theorem endFrom_compressFrom (start : Int)
    (contiguous : Contiguous start (lastpage :: rest)) :
    endFrom start (compressFrom lastpage rest) = endFrom start (lastpage :: rest) := by
  induction rest generalizing start lastpage with
  | nil => rfl
  | cons page rest inductionHypothesis =>
      have touching : lastpage.next = page.offset := contiguous.2.2.1.symm
      rw [compressFrom_cons_of_touching rest touching]
      split
      · rw [inductionHypothesis start (contiguous_mergePage start contiguous)]
        simp only [endFrom_cons, FdPage.next, mergePage_offset, mergePage_bytes]
        simp only [FdPage.next] at touching
        rw [← touching, Int.add_assoc]
      · exact inductionHypothesis lastpage.next contiguous.2.2

theorem flagsAt_compressFrom (start : Int)
    (contiguous : Contiguous start (lastpage :: rest)) (x : Int) :
    flagsAt (compressFrom lastpage rest) x = flagsAt (lastpage :: rest) x := by
  induction rest generalizing start lastpage with
  | nil => rfl
  | cons page rest inductionHypothesis =>
      have touching : lastpage.next = page.offset := contiguous.2.2.1.symm
      rw [compressFrom_cons_of_touching rest touching]
      split
      · rw [inductionHypothesis start (contiguous_mergePage start contiguous),
          flagsAt_mergePage rest (Int.le_of_lt contiguous.2.1) (Int.le_of_lt contiguous.2.2.2.1)
            touching ‹_›]
      · rw [flagsAt_cons, flagsAt_cons, inductionHypothesis _ contiguous.2.2]

theorem head_compressFrom (lastpage : FdPage) (rest : List FdPage) :
    ∃ page tail, compressFrom lastpage rest = page :: tail ∧
      page.offset = lastpage.offset ∧ page.flags = lastpage.flags := by
  induction rest generalizing lastpage with
  | nil => exact ⟨lastpage, [], rfl, rfl, rfl⟩
  | cons page rest inductionHypothesis =>
      simp only [compressFrom, fillGap]
      split_ifs <;> first
        | exact ⟨_, _, rfl, rfl, rfl⟩
        | (obtain ⟨first, tail, equation, offset, flags⟩ := inductionHypothesis
              { lastpage with bytes := lastpage.bytes + page.bytes }
           exact ⟨first, tail, by simpa using equation, offset, flags⟩)
        | (obtain ⟨first, tail, equation, offset, flags⟩ := inductionHypothesis
              { lastpage with bytes := page.offset - lastpage.offset + page.bytes }
           exact ⟨first, tail, by simpa using equation, offset, flags⟩)

theorem compressFrom_compressed (start : Int)
    (contiguous : Contiguous start (lastpage :: rest)) :
    Compressed (compressFrom lastpage rest) := by
  induction rest generalizing start lastpage with
  | nil => exact List.chain'_singleton _
  | cons page rest inductionHypothesis =>
      have touching : lastpage.next = page.offset := contiguous.2.2.1.symm
      rw [compressFrom_cons_of_touching rest touching]
      split
      · exact inductionHypothesis start (contiguous_mergePage start contiguous)
      · next different =>
          obtain ⟨first, tail, equation, -, flags⟩ := head_compressFrom page rest
          have tailCompressed := inductionHypothesis _ contiguous.2.2
          rw [equation] at tailCompressed ⊢
          exact List.Chain'.cons (by rw [flags]; exact different) tailCompressed

end Contiguous

section Pages

variable {start : Int} {pages : List FdPage}

theorem compressPages_contiguous (contiguous : Contiguous start pages) :
    Contiguous start (compressPages pages) := by
  cases pages with
  | nil => trivial
  | cons page rest => exact compressFrom_contiguous start contiguous

theorem endFrom_compressPages (contiguous : Contiguous start pages) :
    endFrom start (compressPages pages) = endFrom start pages := by
  cases pages with
  | nil => rfl
  | cons page rest => exact endFrom_compressFrom start contiguous

theorem flagsAt_compressPages (contiguous : Contiguous start pages) (x : Int) :
    flagsAt (compressPages pages) x = flagsAt pages x := by
  cases pages with
  | nil => rfl
  | cons page rest => exact flagsAt_compressFrom start contiguous x

theorem compressPages_compressed (contiguous : Contiguous start pages) :
    Compressed (compressPages pages) := by
  cases pages with
  | nil => exact List.chain'_nil
  | cons page rest => exact compressFrom_compressed start contiguous

end Pages

/-! ## Canonical form -/

/-- The byte just past the first page of a compressed list does not carry that page's flags. -/
theorem flagsAt_next_ne {start : Int} {page : FdPage} {rest : List FdPage}
    (contiguous : Contiguous start (page :: rest)) (compressed : Compressed (page :: rest)) :
    flagsAt (page :: rest) page.next ≠ some page.flags := by
  have notHere : ¬ page.Contains page.next := by simp [FdPage.Contains]
  rw [flagsAt_cons, if_neg notHere]
  cases rest with
  | nil => simp
  | cons other tail =>
      rw [flagsAt_cons, if_pos contiguous.2.2.head_contains]
      exact fun same => (List.chain'_cons.mp compressed).1 (Option.some.inj same).symm

/-- In a compressed contiguous list, the bytes just before and just after a page do not carry
its flags: a page is a whole run of bytes with one pair of flags. -/
theorem Contiguous.flagsAt_neighbours_ne {start : Int} {pages : List FdPage}
    (contiguous : Contiguous start pages) (compressed : Compressed pages) {page : FdPage}
    (member : page ∈ pages) :
    flagsAt pages (page.offset - 1) ≠ some page.flags ∧ flagsAt pages page.next ≠ some page.flags := by
  induction pages generalizing start with
  | nil => cases member
  | cons first rest inductionHypothesis =>
      rcases List.mem_cons.mp member with rfl | later
      · refine ⟨?_, flagsAt_next_ne contiguous compressed⟩
        rw [contiguous.flagsAt_eq_none (.inl (by rw [contiguous.1]; omega))]
        exact Option.noConfusion
      obtain ⟨atStart, positive, tail⟩ := contiguous
      obtain ⟨before, after⟩ := inductionHypothesis tail compressed.tail later
      have bounds := tail.mem_bounds later
      simp only [FdPage.next] at bounds
      refine ⟨?_, by rw [flagsAt_cons_of_next_le rest (by simp only [FdPage.next]; omega)]; exact after⟩
      by_cases far : first.next ≤ page.offset - 1
      · rw [flagsAt_cons_of_next_le rest far]
        exact before
      -- the page starts where `first` ends, so it heads `rest` and its flags differ from `first`'s
      cases rest with
      | nil => cases later
      | cons head others =>
          simp only [FdPage.next] at far
          have atNext : page.offset = first.next := by
            simp only [FdPage.next]
            omega
          have inFirst : first.Contains (page.offset - 1) := by
            simp only [FdPage.Contains, FdPage.next]
            omega
          have inPage : page.Contains page.offset := by
            simp only [FdPage.Contains, FdPage.next]
            omega
          have sameFlags : some page.flags = some head.flags := by
            rw [← tail.flagsAt_of_mem later inPage, atNext,
              flagsAt_cons_of_contains others tail.head_contains]
          rw [flagsAt_cons_of_contains _ inFirst, sameFlags]
          exact fun same => (List.chain'_cons.mp compressed).1 (Option.some.inj same)

/-- Of two compressed lists from one start with the same byte map, the first page of one is no
shorter than that of the other. -/
theorem bytes_le_of_flagsAt_eq {start : Int} {page other : FdPage}
    {rest others : List FdPage} (contiguous : Contiguous start (page :: rest))
    (compressed : Compressed (page :: rest)) (otherContiguous : Contiguous start (other :: others))
    (sameFlags : ∀ x, flagsAt (page :: rest) x = flagsAt (other :: others) x) :
    other.bytes ≤ page.bytes := by
  by_contra longer
  have startFlags := sameFlags start
  rw [flagsAt_cons, flagsAt_cons, if_pos contiguous.head_contains,
    if_pos otherContiguous.head_contains] at startFlags
  have otherHoldsNext : other.Contains page.next := by
    obtain ⟨pageStart, positive, -⟩ := contiguous
    obtain ⟨otherStart, -, -⟩ := otherContiguous
    simp only [FdPage.Contains, FdPage.next]
    omega
  apply flagsAt_next_ne contiguous compressed
  rw [sameFlags, flagsAt_cons, if_pos otherHoldsNext, startFlags]

/-- A contiguous compressed list is determined by its start and its byte map. -/
theorem eq_of_flagsAt_eq {start : Int} {first second : List FdPage}
    (firstContiguous : Contiguous start first) (secondContiguous : Contiguous start second)
    (firstCompressed : Compressed first) (secondCompressed : Compressed second)
    (sameFlags : ∀ x, flagsAt first x = flagsAt second x) : first = second := by
  induction first generalizing start second with
  | nil =>
      cases second with
      | nil => rfl
      | cons other others =>
          have := sameFlags start
          rw [flagsAt_nil, flagsAt_cons, if_pos secondContiguous.head_contains] at this
          cases this
  | cons page rest inductionHypothesis =>
      cases second with
      | nil =>
          have := sameFlags start
          rw [flagsAt_nil, flagsAt_cons, if_pos firstContiguous.head_contains] at this
          cases this
      | cons other others =>
          have shorter := bytes_le_of_flagsAt_eq firstContiguous firstCompressed
            secondContiguous sameFlags
          have longer := bytes_le_of_flagsAt_eq secondContiguous secondCompressed
            firstContiguous (fun x => (sameFlags x).symm)
          have sameStart : page.offset = other.offset :=
            firstContiguous.1.trans secondContiguous.1.symm
          have startFlags := sameFlags start
          rw [flagsAt_cons, flagsAt_cons, if_pos firstContiguous.head_contains,
            if_pos secondContiguous.head_contains] at startFlags
          have sameBytes : page.bytes = other.bytes := by omega
          have samePage : page = other := by
            rcases page with ⟨offset, bytes, loaded, modified⟩
            rcases other with ⟨otherOffset, otherBytes, otherLoaded, otherModified⟩
            simp only [FdPage.flags_mk, Option.some.injEq, Prod.mk.injEq] at startFlags
            simp only at sameStart sameBytes
            rw [sameStart, sameBytes, startFlags.1, startFlags.2]
          subst samePage
          have tailFlags : ∀ x, flagsAt rest x = flagsAt others x := by
            intro x
            by_cases holdsX : page.Contains x
            · have restStart := firstContiguous.2.2
              have othersStart := secondContiguous.2.2
              rw [restStart.flagsAt_eq_none (Or.inl holdsX.2),
                othersStart.flagsAt_eq_none (Or.inl holdsX.2)]
            · have := sameFlags x
              rwa [flagsAt_cons, flagsAt_cons, if_neg holdsX, if_neg holdsX] at this
          rw [inductionHypothesis firstContiguous.2.2 secondContiguous.2.2
            (List.chain'_cons'.mp firstCompressed).2 (List.chain'_cons'.mp secondCompressed).2
            tailFlags]

/-- `Compress` leaves a contiguous compressed list as it is. -/
theorem compressPages_of_compressed {start : Int} {pages : List FdPage}
    (contiguous : Contiguous start pages) (compressed : Compressed pages) :
    compressPages pages = pages :=
  eq_of_flagsAt_eq (compressPages_contiguous contiguous) contiguous
    (compressPages_compressed contiguous) compressed (flagsAt_compressPages contiguous)

/-! ## Well-formed lists -/

theorem compressPages_wellFormed {pages : List FdPage} (wellFormed : WellFormed pages) :
    WellFormed (compressPages pages) := by
  rcases wellFormed with contiguous | emptyFile
  · exact Or.inl (compressPages_contiguous contiguous)
  · match pages, emptyFile with
    | [page], emptyFile => exact Or.inr emptyFile

theorem compressPages_compressed_of_wellFormed {pages : List FdPage}
    (wellFormed : WellFormed pages) : Compressed (compressPages pages) := by
  rcases wellFormed with contiguous | emptyFile
  · exact compressPages_compressed contiguous
  · match pages, emptyFile with
    | [page], _ => exact List.chain'_singleton page

theorem size_compress {pl : PageList} (wellFormed : WellFormed pl.pages) :
    pl.compress.size = pl.size := by
  rw [size_eq_endFrom, size_eq_endFrom]
  rcases wellFormed with contiguous | emptyFile
  · exact endFrom_compressPages contiguous
  · rcases pl with ⟨pages, isShrink⟩
    match pages, emptyFile with
    | [page], _ => rfl

theorem flagsAt_compress {pl : PageList} (wellFormed : WellFormed pl.pages) (x : Int) :
    flagsAt pl.compress.pages x = flagsAt pl.pages x := by
  rcases wellFormed with contiguous | emptyFile
  · exact flagsAt_compressPages contiguous x
  · rcases pl with ⟨pages, isShrink⟩
    match pages, emptyFile with
    | [page], _ => rfl

/-- A contiguous list has a modified page exactly when some byte of it is modified. -/
theorem any_modified_iff {start : Int} {pages : List FdPage} (contiguous : Contiguous start pages) :
    pages.any (fun page => page.modified) = true ↔
      ∃ x loaded, flagsAt pages x = some (loaded, true) := by
  rw [List.any_eq_true]
  constructor
  · rintro ⟨page, member, modified⟩
    have positive := (contiguous.mem_bounds member).2.1
    refine ⟨page.offset, page.loaded, ?_⟩
    rw [contiguous.flagsAt_of_mem member (by simp only [FdPage.Contains, FdPage.next]; omega),
      FdPage.flags, modified]
  · rintro ⟨x, loaded, known⟩
    obtain ⟨page, member, -, flags⟩ := exists_mem_of_flagsAt_eq_some known
    exact ⟨page, member, congrArg Prod.snd flags⟩

theorem any_modified_compressPages {pages : List FdPage} (wellFormed : WellFormed pages) :
    (compressPages pages).any (fun page => page.modified) =
      pages.any (fun page => page.modified) := by
  rcases wellFormed with contiguous | emptyFile
  · rw [Bool.eq_iff_iff, any_modified_iff (compressPages_contiguous contiguous),
      any_modified_iff contiguous]
    simp only [flagsAt_compressPages contiguous]
  · match pages, emptyFile with
    | [page], _ => rfl

theorem compressPages_compressPages {pages : List FdPage} (wellFormed : WellFormed pages) :
    compressPages (compressPages pages) = compressPages pages := by
  rcases wellFormed with contiguous | emptyFile
  · exact compressPages_of_compressed (compressPages_contiguous contiguous)
      (compressPages_compressed contiguous)
  · match pages, emptyFile with
    | [page], _ => rfl

/-- `Compress` yields a canonical form: two well-formed lists of the same positive size and the
same byte map compress to the same pages. On every well-formed list it keeps the size and the
byte map, leaves no two neighbours with equal flags, and a second `Compress` changes nothing. -/
theorem compress_canonical (pl other : PageList) (wellFormed : WellFormed pl.pages)
    (otherWellFormed : WellFormed other.pages) :
    (pl.size = other.size → 0 < pl.size →
        (∀ x, flagsAt pl.pages x = flagsAt other.pages x) →
        pl.compress.pages = other.compress.pages) ∧
      pl.compress.size = pl.size ∧ (∀ x, flagsAt pl.compress.pages x = flagsAt pl.pages x) ∧
      Compressed pl.compress.pages ∧ pl.compress.compress = pl.compress := by
  refine ⟨fun sameSize positive sameFlags => ?_, size_compress wellFormed,
    flagsAt_compress wellFormed, compressPages_compressed_of_wellFormed wellFormed,
    congrArg (fun pages => { pl with pages := pages }) (compressPages_compressPages wellFormed)⟩
  have contiguous := wellFormed.contiguous_of_size_ne_zero (by omega)
  have otherContiguous := otherWellFormed.contiguous_of_size_ne_zero (by omega)
  exact eq_of_flagsAt_eq (compressPages_contiguous contiguous)
    (compressPages_contiguous otherContiguous) (compressPages_compressed contiguous)
    (compressPages_compressed otherContiguous) fun x => by
      rw [flagsAt_compress wellFormed, flagsAt_compress otherWellFormed, sameFlags]

theorem compress_canonical_sample :
    let pl : PageList := ⟨[⟨0, 4, true, false⟩, ⟨4, 6, true, false⟩], false⟩
    let other : PageList := ⟨[⟨0, 10, true, false⟩], true⟩
    (pl.size = other.size → 0 < pl.size →
        (∀ x, flagsAt pl.pages x = flagsAt other.pages x) →
        pl.compress.pages = other.compress.pages) ∧
      pl.compress.size = pl.size ∧ (∀ x, flagsAt pl.compress.pages x = flagsAt pl.pages x) ∧
      Compressed pl.compress.pages ∧ pl.compress.compress = pl.compress :=
  compress_canonical _ _ (by decide) (by decide)

/-! ## `raw_compress_fdpage_list` -/

/-- The flag arguments of `raw_compress_fdpage_list`: which flag to ignore, and the value an
ignored flag takes in the result. -/
structure CompressMode where
  ignoreLoad : Bool
  ignoreModify : Bool
  defaultLoad : Bool
  defaultModify : Bool

namespace CompressMode

/-- A page as `raw_add_compress_fdpage_list` stores it: its ignored flags set to the defaults. -/
def adjust (mode : CompressMode) (page : FdPage) : FdPage :=
  { page with
    loaded := if mode.ignoreLoad then mode.defaultLoad else page.loaded
    modified := if mode.ignoreModify then mode.defaultModify else page.modified }

/-- The test of `raw_compress_fdpage_list` for starting a new page after `lastpage`: a flag it
does not ignore differs. -/
def differs (mode : CompressMode) (lastpage page : FdPage) : Bool :=
  (!mode.ignoreLoad && lastpage.loaded != page.loaded) ||
    (!mode.ignoreModify && lastpage.modified != page.modified)

/-- The test of `raw_compress_fdpage_list` for filling a hole after `lastpage` with a new page
rather than stretching `lastpage`. -/
def fillsGap (mode : CompressMode) (lastpage : FdPage) : Bool :=
  (!mode.ignoreLoad && lastpage.loaded) || (!mode.ignoreModify && lastpage.modified)

@[simp]
theorem adjust_offset (mode : CompressMode) (page : FdPage) :
    (mode.adjust page).offset = page.offset := rfl

@[simp]
theorem adjust_bytes (mode : CompressMode) (page : FdPage) :
    (mode.adjust page).bytes = page.bytes := rfl

@[simp]
theorem adjust_next (mode : CompressMode) (page : FdPage) :
    (mode.adjust page).next = page.next := rfl

@[simp]
theorem adjust_adjust (mode : CompressMode) (page : FdPage) :
    mode.adjust (mode.adjust page) = mode.adjust page := by
  cases mode
  cases page
  simp only [adjust]
  split_ifs <;> rfl

theorem adjust_mergePage (mode : CompressMode) (lastpage page : FdPage) :
    mode.adjust (mergePage lastpage page) = mergePage (mode.adjust lastpage) page := rfl

/-- On a page whose ignored flags already have their defaults, the raw test is the flag
comparison of `Compress` on adjusted pages. -/
theorem differs_eq_true_iff (mode : CompressMode) {lastpage : FdPage}
    (adjusted : mode.adjust lastpage = lastpage) (page : FdPage) :
    mode.differs lastpage page = true ↔ lastpage.flags ≠ (mode.adjust page).flags := by
  rcases mode with ⟨ignoreLoad, ignoreModify, defaultLoad, defaultModify⟩
  rcases lastpage with ⟨offset, bytes, loaded, modified⟩
  simp only [adjust, FdPage.mk.injEq] at adjusted
  obtain ⟨-, -, loadedEq, modifiedEq⟩ := adjusted
  cases ignoreLoad <;> cases ignoreModify <;> simp_all [differs, adjust, FdPage.flags]
  tauto

end CompressMode

/-- `raw_add_compress_fdpage_list`: append the adjusted page unless it is empty. The lists
built by `raw_compress_fdpage_list` are kept here last page first. -/
def rawAddCompressFdpageList (mode : CompressMode) (compressed : List FdPage)
    (page : FdPage) : List FdPage :=
  if 0 < page.bytes then mode.adjust page :: compressed else compressed

/-- One turn of the loop of `raw_compress_fdpage_list` on `page`; `compressed` is the output so
far, last page first, so that its head is `lastpage`. -/
def rawCompressStep (mode : CompressMode) (compressed : List FdPage) (page : FdPage) :
    List FdPage :=
  if page.bytes = 0 then compressed
  else
    match compressed with
    | [] => rawAddCompressFdpageList mode [] page
    | lastpage :: kept =>
        let filled :=
          if lastpage.next ≠ page.offset then
            if mode.fillsGap lastpage then
              rawAddCompressFdpageList mode compressed
                ⟨lastpage.next, page.offset - lastpage.next, false, false⟩
            else { lastpage with bytes := page.offset - lastpage.offset } :: kept
          else compressed
        match filled with
        | [] => filled
        | lastpage :: kept =>
            if mode.differs lastpage page then rawAddCompressFdpageList mode filled page
            else mergePage lastpage page :: kept

/-- `raw_compress_fdpage_list`. -/
def rawCompressFdpageList (pages : List FdPage) (mode : CompressMode) : List FdPage :=
  (pages.foldl (rawCompressStep mode) []).reverse

/-- `compress_fdpage_list_ignore_modify`. -/
def compressFdpageListIgnoreModify (pages : List FdPage) (defaultModify : Bool) :
    List FdPage :=
  rawCompressFdpageList pages ⟨false, true, false, defaultModify⟩

/-- `compress_fdpage_list_ignore_load`. -/
def compressFdpageListIgnoreLoad (pages : List FdPage) (defaultLoad : Bool) :
    List FdPage :=
  rawCompressFdpageList pages ⟨true, false, defaultLoad, false⟩

/-- `compress_fdpage_list`. -/
def compressFdpageList (pages : List FdPage) : List FdPage :=
  rawCompressFdpageList pages ⟨false, false, false, false⟩

theorem contiguous_map_adjust (mode : CompressMode) {start : Int} {pages : List FdPage} :
    Contiguous start (pages.map mode.adjust) ↔ Contiguous start pages := by
  induction pages generalizing start with
  | nil => simp
  | cons page rest inductionHypothesis =>
      simp only [List.map_cons, contiguous_cons, CompressMode.adjust_offset,
        CompressMode.adjust_bytes, CompressMode.adjust_next, inductionHypothesis]

theorem WellFormed.map_adjust (mode : CompressMode) {pages : List FdPage}
    (wellFormed : WellFormed pages) : WellFormed (pages.map mode.adjust) := by
  rcases wellFormed with contiguous | emptyFile
  · exact Or.inl ((contiguous_map_adjust mode).mpr contiguous)
  · match pages, emptyFile with
    | [_], emptyFile => exact Or.inr emptyFile

theorem endFrom_map_adjust (mode : CompressMode) (start : Int) (pages : List FdPage) :
    endFrom start (pages.map mode.adjust) = endFrom start pages := by
  induction pages generalizing start with
  | nil => rfl
  | cons page rest inductionHypothesis => exact inductionHypothesis page.next

theorem flagsAt_map_adjust (mode : CompressMode) (pages : List FdPage) (x : Int) :
    flagsAt (pages.map mode.adjust) x =
      (flagsAt pages x).map fun flags =>
        (if mode.ignoreLoad then mode.defaultLoad else flags.1,
          if mode.ignoreModify then mode.defaultModify else flags.2) := by
  induction pages with
  | nil => rfl
  | cons page rest inductionHypothesis =>
      simp only [List.map_cons, flagsAt_cons, FdPage.Contains, CompressMode.adjust_offset,
        CompressMode.adjust_next, inductionHypothesis]
      split_ifs <;> simp_all [CompressMode.adjust, FdPage.flags]

/-- The raw loop from a contiguous point on is the loop of `Compress` over adjusted pages. -/
theorem foldl_rawCompressStep (mode : CompressMode) {lastpage : FdPage}
    (adjusted : mode.adjust lastpage = lastpage) (kept rest : List FdPage) (start : Int)
    (contiguous : Contiguous start (lastpage :: rest)) :
    (rest.foldl (rawCompressStep mode) (lastpage :: kept)).reverse =
      kept.reverse ++ compressFrom lastpage (rest.map mode.adjust) := by
  induction rest generalizing lastpage kept start with
  | nil => simp [compressFrom]
  | cons page rest inductionHypothesis =>
      obtain ⟨-, lastPositive, atNext, positive, tail⟩ := contiguous
      have touching : lastpage.next = (mode.adjust page).offset := atNext.symm
      rw [List.map_cons, compressFrom_cons_of_touching _ touching, List.foldl_cons]
      have notEmpty : page.bytes ≠ 0 := by omega
      simp only [rawCompressStep, notEmpty, if_false, atNext, ne_eq, not_true_eq_false]
      by_cases different : lastpage.flags = (mode.adjust page).flags
      · have same : mode.differs lastpage page = false := by
          rw [Bool.eq_false_iff, ne_eq, CompressMode.differs_eq_true_iff mode adjusted]
          exact not_not.mpr different
        rw [if_pos different, same]
        simp only [Bool.false_eq_true, if_false]
        rw [inductionHypothesis (by rw [CompressMode.adjust_mergePage, adjusted]) kept
          lastpage.offset]
        · rfl
        · refine ⟨rfl, by simp only [mergePage_bytes]; omega, ?_⟩
          simpa only [FdPage.next, mergePage_offset, mergePage_bytes, atNext, Int.add_assoc]
            using tail
      · have differ : mode.differs lastpage page = true :=
          (CompressMode.differs_eq_true_iff mode adjusted page).mpr different
        rw [if_neg different, differ]
        simp only [if_true, rawAddCompressFdpageList, positive]
        rw [inductionHypothesis (CompressMode.adjust_adjust mode page) (lastpage :: kept)
          page.offset ⟨rfl, positive, tail⟩]
        simp

theorem rawCompressFdpageList_eq_compressPages (mode : CompressMode) {start : Int}
    {pages : List FdPage} (contiguous : Contiguous start pages) :
    rawCompressFdpageList pages mode = compressPages (pages.map mode.adjust) := by
  cases pages with
  | nil => rfl
  | cons page rest =>
      have positive := contiguous.2.1
      have first : rawCompressStep mode [] page = [mode.adjust page] := by
        simp [rawCompressStep, rawAddCompressFdpageList, positive, show page.bytes ≠ 0 by omega]
      rw [rawCompressFdpageList, List.foldl_cons, first,
        foldl_rawCompressStep mode (CompressMode.adjust_adjust mode page) [] rest page.offset
          ⟨rfl, positive, contiguous.2.2⟩]
      rfl

/-- Empty pages pass through the raw loop without a trace. -/
theorem foldl_rawCompressStep_filter (mode : CompressMode) (compressed pages : List FdPage) :
    (pages.filter fun page => page.bytes != 0).foldl (rawCompressStep mode) compressed =
      pages.foldl (rawCompressStep mode) compressed := by
  induction pages generalizing compressed with
  | nil => rfl
  | cons page rest inductionHypothesis =>
      by_cases empty : page.bytes = 0
      · rw [List.filter_cons_of_neg (by simp [empty]), inductionHypothesis, List.foldl_cons]
        simp [rawCompressStep, empty]
      · rw [List.filter_cons_of_pos (by simp [empty]), List.foldl_cons, List.foldl_cons,
          inductionHypothesis]

theorem rawCompressFdpageList_filter (mode : CompressMode) (pages : List FdPage) :
    rawCompressFdpageList (pages.filter fun page => page.bytes != 0) mode =
      rawCompressFdpageList pages mode := by
  simp only [rawCompressFdpageList, foldl_rawCompressStep_filter]

/-- Over a list whose pages with bytes lie one after the other, `raw_compress_fdpage_list`
keeps the range they cover and every byte, with the ignored flags set to their defaults. -/
theorem rawCompressFdpageList_spec (mode : CompressMode) {start : Int} {pages : List FdPage}
    (contiguous : Contiguous start (pages.filter fun page => page.bytes != 0)) :
    Contiguous start (rawCompressFdpageList pages mode) ∧
      endFrom start (rawCompressFdpageList pages mode) =
        endFrom start (pages.filter fun page => page.bytes != 0) ∧
      ∀ x, flagsAt (rawCompressFdpageList pages mode) x =
        (flagsAt (pages.filter fun page => page.bytes != 0) x).map fun flags =>
          (if mode.ignoreLoad then mode.defaultLoad else flags.1,
            if mode.ignoreModify then mode.defaultModify else flags.2) := by
  rw [← rawCompressFdpageList_filter, rawCompressFdpageList_eq_compressPages mode contiguous]
  have adjusted := (contiguous_map_adjust mode).mpr contiguous
  exact ⟨compressPages_contiguous adjusted,
    (endFrom_compressPages adjusted).trans (endFrom_map_adjust mode start _),
    fun x => (flagsAt_compressPages adjusted x).trans (flagsAt_map_adjust mode _ x)⟩

/-! ## Raw compression of an ordered list with holes -/

section Ascending

variable (mode : CompressMode)

/-- One turn of the raw loop on a page at or after the end of the output so far: the output, last
page first, stays contiguous and now ends where the page ends. -/
theorem rawCompressStep_ascending {lastpage page : FdPage} {kept : List FdPage} {start : Int}
    (contiguous : Contiguous start (kept.reverse ++ [lastpage]))
    (after : lastpage.next ≤ page.offset) (positive : 0 < page.bytes) :
    ∃ last rest, rawCompressStep mode (lastpage :: kept) page = last :: rest ∧
      Contiguous start (rest.reverse ++ [last]) ∧ last.next = page.next := by
  obtain ⟨keptContiguous, atEnd, lastPositive⟩ := contiguous_concat_iff.mp contiguous
  have lastEnd := endFrom_concat start kept.reverse lastpage
  have filled : ∃ last rest,
      (if lastpage.next ≠ page.offset then
          if mode.fillsGap lastpage then
            rawAddCompressFdpageList mode (lastpage :: kept)
              ⟨lastpage.next, page.offset - lastpage.next, false, false⟩
          else { lastpage with bytes := page.offset - lastpage.offset } :: kept
        else lastpage :: kept) = last :: rest ∧
        Contiguous start (rest.reverse ++ [last]) ∧ last.next = page.offset := by
    have lastNext : lastpage.next = lastpage.offset + lastpage.bytes := rfl
    split_ifs with gap
    · refine ⟨_, lastpage :: kept, by
        rw [rawAddCompressFdpageList, if_pos (show (0 : Int) < page.offset - lastpage.next by
          omega)], ?_, ?_⟩
      · rw [List.reverse_cons]
        exact contiguous_concat_iff.mpr ⟨contiguous,
          show lastpage.next = _ from lastEnd.symm,
          show (0 : Int) < page.offset - lastpage.next by omega⟩
      · rw [CompressMode.adjust_next]
        show lastpage.next + (page.offset - lastpage.next) = page.offset
        omega
    · exact ⟨_, kept, rfl, contiguous_concat_iff.mpr ⟨keptContiguous, atEnd,
        show (0 : Int) < page.offset - lastpage.offset by omega⟩,
        show lastpage.offset + (page.offset - lastpage.offset) = page.offset by omega⟩
    · exact ⟨lastpage, kept, rfl, contiguous, not_not.mp gap⟩
  obtain ⟨last, rest, filledEq, filledContiguous, filledEnd⟩ := filled
  have pageNonempty : page.bytes ≠ 0 := by omega
  simp only [rawCompressStep, pageNonempty, if_false, filledEq]
  have lastEndAll := endFrom_concat start rest.reverse last
  split
  · refine ⟨mode.adjust page, last :: rest, by rw [rawAddCompressFdpageList, if_pos positive], ?_,
      CompressMode.adjust_next mode page⟩
    rw [List.reverse_cons]
    exact contiguous_concat_iff.mpr ⟨filledContiguous, by simp [lastEndAll, filledEnd],
      positive⟩
  · obtain ⟨restContiguous, lastAt, lastBytes⟩ := contiguous_concat_iff.mp filledContiguous
    refine ⟨_, rest, rfl, contiguous_concat_iff.mpr ⟨restContiguous, lastAt, by
      simp only [mergePage_bytes]; omega⟩, ?_⟩
    simp only [FdPage.next, mergePage_offset, mergePage_bytes] at filledEnd ⊢
    omega

/-- The raw loop over pages in order, each starting at or after the end of the one before: the
output stays contiguous and ends where the last page ends. -/
theorem foldl_rawCompressStep_ascending :
    ∀ (rest : List FdPage) {lastpage : FdPage} {kept : List FdPage} {start : Int},
      Contiguous start (kept.reverse ++ [lastpage]) →
      (∀ page ∈ rest, lastpage.next ≤ page.offset) →
      rest.Pairwise (fun page next => page.next ≤ next.offset) →
      (∀ page ∈ rest, 0 < page.bytes) →
      ∃ last kept', rest.foldl (rawCompressStep mode) (lastpage :: kept) = last :: kept' ∧
        Contiguous start (kept'.reverse ++ [last]) ∧ lastpage.next ≤ last.next ∧
        ∀ page ∈ rest, page.next ≤ last.next
  | [], lastpage, kept, _, contiguous, _, _, _ =>
      ⟨lastpage, kept, rfl, contiguous, Int.le_refl _, fun _ member => absurd member (by simp)⟩
  | page :: rest, _, _, _, contiguous, after, ordered, positive => by
      obtain ⟨last, kept, step, stepContiguous, stepEnd⟩ := rawCompressStep_ascending mode
        contiguous (after page (List.mem_cons_self _ _)) (positive page (List.mem_cons_self _ _))
      obtain ⟨pageFirst, restOrdered⟩ := List.pairwise_cons.mp ordered
      obtain ⟨final, finalKept, run, finalContiguous, lastLe, restLe⟩ :=
        foldl_rawCompressStep_ascending rest stepContiguous
          (fun other member => stepEnd ▸ pageFirst other member) restOrdered
          (fun other member => positive other (List.mem_cons_of_mem _ member))
      have pageBefore : page.offset < page.next := by
        have := positive page (List.mem_cons_self _ _)
        simp only [FdPage.next]
        omega
      have firstBefore := after page (List.mem_cons_self _ _)
      refine ⟨final, finalKept, by rw [List.foldl_cons, step, run], finalContiguous, by omega,
        fun other member => ?_⟩
      rcases List.mem_cons.mp member with rfl | later
      · omega
      · exact restLe other later

/-- Over pages in order, each starting at or after the end of the one before,
`raw_compress_fdpage_list` returns a contiguous list whose range holds every byte of the
pages: it fills or bridges the holes between them. -/
theorem rawCompressFdpageList_ascending {pages : List FdPage}
    (ordered : pages.Pairwise fun page next => page.next ≤ next.offset)
    (nonneg : ∀ page ∈ pages, 0 ≤ page.bytes) :
    ∃ start, Contiguous start (rawCompressFdpageList pages mode) ∧
      ∀ x, Covers pages x → start ≤ x ∧ x < endFrom start (rawCompressFdpageList pages mode) := by
  rw [← rawCompressFdpageList_filter]
  have kept : ∀ {x}, Covers pages x → Covers (pages.filter fun page => page.bytes != 0) x := by
    rintro x ⟨page, member, inside⟩
    refine ⟨page, List.mem_filter.mpr ⟨member, ?_⟩, inside⟩
    simp only [FdPage.Contains, FdPage.next] at inside
    simp only [bne_iff_ne, ne_eq]
    omega
  have positive : ∀ page ∈ pages.filter (fun page => page.bytes != 0), 0 < page.bytes := by
    intro page member
    obtain ⟨member, nonempty⟩ := List.mem_filter.mp member
    have := nonneg page member
    simp only [bne_iff_ne, ne_eq] at nonempty
    omega
  have filteredOrdered := ordered.filter fun page => page.bytes != 0
  generalize pages.filter (fun page => page.bytes != 0) = filtered at kept positive filteredOrdered
  cases filtered with
  | nil => exact ⟨0, trivial, fun x covered => absurd (kept covered) fun ⟨_, member, _⟩ =>
      absurd member (List.not_mem_nil _)⟩
  | cons first rest =>
      have firstPositive := positive first (List.mem_cons_self _ _)
      obtain ⟨firstBefore, restOrdered⟩ := List.pairwise_cons.mp filteredOrdered
      have start : rawCompressStep mode [] first = [mode.adjust first] := by
        simp [rawCompressStep, rawAddCompressFdpageList, firstPositive,
          show first.bytes ≠ 0 by omega]
      obtain ⟨last, lastKept, run, contiguous, firstLe, restLe⟩ :=
        foldl_rawCompressStep_ascending mode rest
          (show Contiguous first.offset (([] : List FdPage).reverse ++ [mode.adjust first]) from
            contiguous_concat_iff.mpr ⟨trivial, rfl, firstPositive⟩)
          (fun other member => firstBefore other member) restOrdered
          (fun other member => positive other (List.mem_cons_of_mem _ member))
      rw [rawCompressFdpageList, List.foldl_cons, start, run, List.reverse_cons]
      refine ⟨first.offset, contiguous, fun x covered => ?_⟩
      obtain ⟨page, member, low, high⟩ := kept covered
      rw [endFrom_concat]
      rw [CompressMode.adjust_next] at firstLe
      rcases List.mem_cons.mp member with rfl | later
      · exact ⟨low, by omega⟩
      · have pageAfter := firstBefore page later
        have pageEnd := restLe page later
        have firstNext : first.next = first.offset + first.bytes := rfl
        omega

end Ascending

/-! ## The first page of any list

On a list whose pages overlap, `raw_compress_fdpage_list` can meet a page that starts before the
end of `lastpage`. Its first page still covers the first input page with that page's flags when
those flags make it fill holes: each later turn adds pages after it, or stretches it. -/

/-- The first page of the raw loop's output, kept last in its list: it has not moved, kept its
flags, and not shrunk. -/
def FirstKept (first : FdPage) (compressed : List FdPage) : Prop :=
  ∃ rest first', compressed = rest ++ [first'] ∧ first'.offset = first.offset ∧
    first'.flags = first.flags ∧ first.bytes ≤ first'.bytes

theorem FirstKept.cons {first : FdPage} {compressed : List FdPage}
    (kept : FirstKept first compressed) (page : FdPage) : FirstKept first (page :: compressed) := by
  obtain ⟨rest, first', rfl, same⟩ := kept
  exact ⟨page :: rest, first', rfl, same⟩

theorem FirstKept.rawAdd {first : FdPage} {compressed : List FdPage}
    (kept : FirstKept first compressed) (mode : CompressMode) (page : FdPage) :
    FirstKept first (rawAddCompressFdpageList mode compressed page) := by
  unfold rawAddCompressFdpageList
  split_ifs
  · exact kept.cons _
  · exact kept

theorem CompressMode.fillsGap_congr (mode : CompressMode) {page other : FdPage}
    (same : page.flags = other.flags) : mode.fillsGap page = mode.fillsGap other := by
  simp only [FdPage.flags, Prod.mk.injEq] at same
  simp only [CompressMode.fillsGap, same]

/-- A page list of one page keeps the first page when that page is it. -/
theorem FirstKept.singleton {first page : FdPage} (kept : FirstKept first [page]) :
    page.offset = first.offset ∧ page.flags = first.flags ∧ first.bytes ≤ page.bytes := by
  obtain ⟨rest, first', equal, same⟩ := kept
  cases rest with
  | nil => cases equal; exact same
  | cons _ rest => simp at equal

/-- Changing `lastpage` keeps the first page when there are pages after it. -/
theorem FirstKept.setHead {first lastpage : FdPage} {rest : List FdPage}
    (kept : FirstKept first (lastpage :: rest)) (later : rest ≠ []) (page : FdPage) :
    FirstKept first (page :: rest) := by
  obtain ⟨front, first', equal, same⟩ := kept
  cases front with
  | nil => exact absurd (List.cons_eq_cons.mp equal).2 later
  | cons _ front => exact ⟨page :: front, first', by rw [(List.cons_eq_cons.mp equal).2]; rfl, same⟩

/-- Stretching `lastpage` by a page of no negative size keeps the first page. -/
theorem FirstKept.merge {first lastpage page : FdPage} {rest : List FdPage}
    (kept : FirstKept first (lastpage :: rest)) (nonneg : 0 ≤ page.bytes) :
    FirstKept first (mergePage lastpage page :: rest) := by
  rcases rest with _ | ⟨next, rest⟩
  · obtain ⟨offset, flags, grown⟩ := kept.singleton
    exact ⟨[], _, rfl, offset, flags, by rw [mergePage_bytes]; omega⟩
  · exact kept.setHead (List.cons_ne_nil _ _) _

/-- The end of a turn of the raw loop, after the hole is dealt with: a new page, or `lastpage`
stretched. -/
theorem FirstKept.finish {first : FdPage} (mode : CompressMode) {page : FdPage}
    (nonneg : 0 ≤ page.bytes) :
    ∀ {filled : List FdPage}, FirstKept first filled →
      FirstKept first (match filled with
        | [] => filled
        | lastpage :: kept =>
            if mode.differs lastpage page then rawAddCompressFdpageList mode filled page
            else mergePage lastpage page :: kept)
  | [], kept => kept
  | _ :: _, kept => by
      dsimp only
      split_ifs
      · exact kept.rawAdd mode page
      · exact kept.merge nonneg

theorem FirstKept.step {mode : CompressMode} {first : FdPage} {compressed : List FdPage}
    (kept : FirstKept first compressed) (fills : mode.fillsGap first = true) {page : FdPage}
    (nonneg : 0 ≤ page.bytes) : FirstKept first (rawCompressStep mode compressed page) := by
  unfold rawCompressStep
  split_ifs with zero
  · exact kept
  rcases compressed with _ | ⟨lastpage, rest⟩
  · obtain ⟨_, _, equal, -⟩ := kept
    simp at equal
  dsimp only
  apply FirstKept.finish mode nonneg
  split_ifs with _ fillsLast
  · exact kept.rawAdd mode _
  · refine kept.setHead (fun alone => ?_) _
    subst alone
    rw [mode.fillsGap_congr kept.singleton.2.1, fills] at fillsLast
    exact fillsLast rfl
  · exact kept

theorem FirstKept.foldl {mode : CompressMode} {first : FdPage} (fills : mode.fillsGap first = true)
    {pages compressed : List FdPage} (kept : FirstKept first compressed)
    (nonneg : ∀ page ∈ pages, 0 ≤ page.bytes) :
    FirstKept first (pages.foldl (rawCompressStep mode) compressed) := by
  induction pages generalizing compressed with
  | nil => exact kept
  | cons page rest inductionHypothesis =>
      exact inductionHypothesis (kept.step fills (nonneg page (.head _))) fun other member =>
        nonneg other (List.mem_cons_of_mem _ member)

/-- When the first input page fills holes, the first page of `raw_compress_fdpage_list` covers
it with its flags, whatever the pages after it: they only add pages after it, or stretch it. -/
theorem flagsAt_rawCompressFdpageList_first {mode : CompressMode} {page : FdPage}
    {pages : List FdPage} (positive : 0 < page.bytes) (fills : mode.fillsGap (mode.adjust page) = true)
    (nonneg : ∀ other ∈ pages, 0 ≤ other.bytes) {x : Int} (inside : page.Contains x) :
    flagsAt (rawCompressFdpageList (page :: pages) mode) x = some (mode.adjust page).flags := by
  have first : rawCompressStep mode [] page = [mode.adjust page] := by
    simp [rawCompressStep, rawAddCompressFdpageList, positive, show page.bytes ≠ 0 by omega]
  obtain ⟨rest, first', built, offset, flags, grown⟩ :=
    FirstKept.foldl fills (show FirstKept (mode.adjust page) [mode.adjust page] from
      ⟨[], _, rfl, rfl, rfl, Int.le_refl _⟩) nonneg
  have covers : first'.Contains x := by
    simp only [FdPage.Contains, FdPage.next, CompressMode.adjust_offset,
      CompressMode.adjust_bytes] at inside offset grown ⊢
    omega
  rw [rawCompressFdpageList, List.foldl_cons, first, built, List.reverse_append,
    List.reverse_singleton, List.singleton_append, flagsAt_cons_of_contains _ covers, flags]

/-- The pages with bytes of a well-formed list: all of them, or none for an empty file. -/
theorem WellFormed.filter_contiguous {pages : List FdPage} (wellFormed : WellFormed pages) :
    Contiguous 0 (pages.filter fun page => page.bytes != 0) ∧
      endFrom 0 (pages.filter fun page => page.bytes != 0) = endFrom 0 pages ∧
      ∀ x, flagsAt (pages.filter fun page => page.bytes != 0) x = flagsAt pages x := by
  rcases wellFormed with contiguous | emptyFile
  · have kept : (pages.filter fun page => page.bytes != 0) = pages :=
      List.filter_eq_self.mpr fun page member => by
        have := (contiguous.mem_bounds member).2.1
        simp only [bne_iff_ne, ne_eq]
        omega
    rw [kept]
    exact ⟨contiguous, rfl, fun _ => rfl⟩
  · match pages, emptyFile with
    | [page], ⟨atZero, empty⟩ =>
        simp only [empty, bne_self_eq_false, Bool.false_eq_true, not_false_eq_true,
          List.filter_cons_of_neg, List.filter_nil, endFrom_cons, endFrom_nil, FdPage.next,
          atZero, flagsAt_cons, FdPage.Contains, flagsAt_nil]
        exact ⟨trivial, rfl, fun x => (if_neg (by omega)).symm⟩

end S3fs
