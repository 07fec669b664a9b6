import S3fs.Resize

/-!
# The multipart upload planner

`GetPageListsForMultipartUpload` turns the page list of a file with local modifications into
the parts of a multipart upload: `mixuppages`, copy parts (`modified = false`, bytes re-used
from the object already stored) and upload parts (`modified = true`, bytes sent from the
cache), and `dlpages`, the ranges to download first so that every upload part can be read from
the cache. The object store wants every part but the last to have at least
`MIN_MULTIPART_SIZE` bytes; the walk pads short upload parts with neighbouring bytes to reach
it, and `parse_partsize_fdpage_list` then splits long upload parts.

For every well-formed list, `MIN_MULTIPART_SIZE > 0` and `max_partsize ≥ MIN_MULTIPART_SIZE`,
with `max_partsize < 2^62` so that the `off_t` product `max_partsize * 2` does not wrap:

* `mixuppages_tile`: the parts tile `[0, Size())` and no copy part holds a modified byte;
* `mixuppages_part_sizes`: every part but the last has at least `MIN_MULTIPART_SIZE` bytes and
  every upload part at most `2 * max_partsize`;
* `dlpages_cover_uploads`: every byte of an upload part that is not modified in the list lies in
  `dlpages`, so every upload part can be read from the cache after the download.

`dlpages` can also reach into modified bytes: the walk collects download ranges apart from each
other, and `compress_fdpage_list_ignore_modify` bridges the hole between two of them
(`dlpages_covers_modified`).
-/

namespace S3fs

/-! ## `parse_partsize_fdpage_list` -/

/-- The chunks the loop of `parse_partsize_fdpage_list` cuts a modified page into, from
`start` with `rest` bytes left. `fuel` bounds the turns of the loop: for a positive
`max_partsize` every turn but the last takes at least one byte, so `rest + 1` turns suffice;
for `max_partsize ≤ 0` the source loop never ends. The test compares `rest` with the `off_t`
product `max_partsize * 2`, which wraps for `max_partsize ≥ 2^62`. -/
def splitPartsize (maxPartsize : Int) (page : FdPage) : Nat → Int → Int → List FdPage
  | 0, _, _ => []
  | fuel + 1, start, rest =>
      if 0 < rest then
        if offT (maxPartsize * 2) < rest then
          { page with offset := start, bytes := maxPartsize } ::
            splitPartsize maxPartsize page fuel (start + maxPartsize) (rest - maxPartsize)
        else [{ page with offset := start, bytes := rest }]
      else []

/-- What `parse_partsize_fdpage_list` makes of one page: a modified page is cut into chunks of
`max_partsize` bytes while more than twice that remains, any other page passes unchanged. -/
def partsizeChunks (maxPartsize : Int) (page : FdPage) : List FdPage :=
  if page.modified then
    splitPartsize maxPartsize page (page.bytes.toNat + 1) page.offset page.bytes
  else [page]

/-- `parse_partsize_fdpage_list`. -/
def parsePartsizeFdpageList (pages : List FdPage) (maxPartsize : Int) : List FdPage :=
  pages.flatMap (partsizeChunks maxPartsize)

/-- Below `2^62` the product `max_partsize * 2` does not wrap. -/
theorem offT_double {maxPartsize : Int} (positive : 0 < maxPartsize)
    (fits : maxPartsize < 2 ^ 62) : offT (maxPartsize * 2) = maxPartsize * 2 :=
  offT_of_lt (by omega) (by omega)

section Split

variable {maxPartsize : Int} (page : FdPage)

theorem splitPartsize_contiguous (positive : 0 < maxPartsize) (fits : maxPartsize < 2 ^ 62) :
    ∀ (fuel : Nat) (start rest : Int), 0 < rest → rest.toNat < fuel →
      Contiguous start (splitPartsize maxPartsize page fuel start rest) ∧
        endFrom start (splitPartsize maxPartsize page fuel start rest) = start + rest
  | 0, _, _, _, enough => absurd enough (Nat.not_lt_zero _)
  | fuel + 1, start, rest, restPositive, enough => by
      simp only [splitPartsize, if_pos restPositive, offT_double positive fits]
      split
      · obtain ⟨tailContiguous, tailEnd⟩ :=
          splitPartsize_contiguous positive fits fuel (start + maxPartsize) (rest - maxPartsize)
            (by omega) (by omega)
        refine ⟨⟨rfl, positive, tailContiguous⟩, ?_⟩
        rw [endFrom_cons]
        exact tailEnd.trans (by omega)
      · exact ⟨⟨rfl, restPositive, trivial⟩, rfl⟩

/-- Every chunk keeps the page's flags, has at most `2 * max_partsize` bytes, and has at least
`min rest least` bytes for any `least ≤ max_partsize`. -/
theorem mem_splitPartsize (positive : 0 < maxPartsize) (fits : maxPartsize < 2 ^ 62) {least : Int}
    (leastLe : least ≤ maxPartsize) :
    ∀ (fuel : Nat) (start rest : Int) (chunk : FdPage),
      chunk ∈ splitPartsize maxPartsize page fuel start rest →
      chunk.flags = page.flags ∧ chunk.bytes ≤ 2 * maxPartsize ∧ min rest least ≤ chunk.bytes
  | 0, _, _, _, member => absurd member (List.not_mem_nil _)
  | fuel + 1, start, rest, chunk, member => by
      simp only [splitPartsize, offT_double positive fits] at member
      split_ifs at member with restPositive longer
      · rcases List.mem_cons.mp member with rfl | later
        · exact ⟨rfl, by simp only; omega, by simp only; omega⟩
        · obtain ⟨flags, upper, lower⟩ :=
            mem_splitPartsize positive fits leastLe fuel (start + maxPartsize) (rest - maxPartsize) chunk
              later
          exact ⟨flags, upper, by omega⟩
      · rw [List.mem_singleton.mp member]
        exact ⟨rfl, by simp only; omega, by simp only; omega⟩
      · exact absurd member (List.not_mem_nil _)

/-- Every chunk but the last has exactly `max_partsize` bytes. -/
theorem mem_dropLast_splitPartsize :
    ∀ (fuel : Nat) (start rest : Int) (chunk : FdPage),
      chunk ∈ (splitPartsize maxPartsize page fuel start rest).dropLast →
      chunk.bytes = maxPartsize
  | 0, _, _, _, member => absurd member (List.not_mem_nil _)
  | fuel + 1, start, rest, chunk, member => by
      simp only [splitPartsize] at member
      split_ifs at member with restPositive longer
      · cases tail : splitPartsize maxPartsize page fuel (start + maxPartsize)
            (rest - maxPartsize) with
        | nil => simp [tail] at member
        | cons next others =>
            rw [tail, List.dropLast_cons₂] at member
            rcases List.mem_cons.mp member with rfl | later
            · rfl
            · exact mem_dropLast_splitPartsize fuel (start + maxPartsize) (rest - maxPartsize)
                chunk (by rw [tail]; exact later)
      · simp at member
      · simp at member

end Split

theorem mem_dropLast_partsizeChunks {maxPartsize : Int} {page chunk : FdPage}
    (member : chunk ∈ (partsizeChunks maxPartsize page).dropLast) : chunk.bytes = maxPartsize := by
  unfold partsizeChunks at member
  split at member
  · exact mem_dropLast_splitPartsize page _ _ _ chunk member
  · simp at member

section Chunks

variable {maxPartsize : Int} (positive : 0 < maxPartsize) (fits : maxPartsize < 2 ^ 62)
include positive fits

theorem partsizeChunks_contiguous {page : FdPage} (pagePositive : 0 < page.bytes) :
    Contiguous page.offset (partsizeChunks maxPartsize page) ∧
      endFrom page.offset (partsizeChunks maxPartsize page) = page.next := by
  unfold partsizeChunks
  split
  · exact splitPartsize_contiguous page positive fits _ _ _ pagePositive (by omega)
  · exact ⟨⟨rfl, pagePositive, trivial⟩, rfl⟩

/-- A chunk lies inside its page, keeps its flags, and an upload chunk has at most
`2 * max_partsize` bytes; every chunk has at least `min bytes least` bytes. -/
theorem mem_partsizeChunks {least : Int} (leastLe : least ≤ maxPartsize) {page chunk : FdPage}
    (pagePositive : 0 < page.bytes) (member : chunk ∈ partsizeChunks maxPartsize page) :
    chunk.flags = page.flags ∧ (∀ x, chunk.Contains x → page.Contains x) ∧
      (chunk.modified = true → chunk.bytes ≤ 2 * maxPartsize) ∧
      min page.bytes least ≤ chunk.bytes := by
  have bounds := (partsizeChunks_contiguous positive fits pagePositive).1.mem_bounds member
  rw [(partsizeChunks_contiguous positive fits pagePositive).2] at bounds
  have inside : ∀ x, chunk.Contains x → page.Contains x := by
    simp only [FdPage.Contains, FdPage.next] at bounds ⊢
    omega
  unfold partsizeChunks at member
  split at member
  · obtain ⟨flags, upper, lower⟩ := mem_splitPartsize page positive fits leastLe _ _ _ _ member
    exact ⟨flags, inside, fun _ => upper, lower⟩
  · rw [List.mem_singleton.mp member]
    refine ⟨rfl, fun _ holds => holds, fun modified => absurd modified ‹_›, by omega⟩

theorem parsePartsizeFdpageList_contiguous {start : Int} {pages : List FdPage}
    (contiguous : Contiguous start pages) :
    Contiguous start (parsePartsizeFdpageList pages maxPartsize) ∧
      endFrom start (parsePartsizeFdpageList pages maxPartsize) = endFrom start pages := by
  induction pages generalizing start with
  | nil => exact ⟨trivial, rfl⟩
  | cons page rest inductionHypothesis =>
      obtain ⟨atStart, pagePositive, tail⟩ := contiguous
      obtain ⟨chunksContiguous, chunksEnd⟩ := partsizeChunks_contiguous positive fits pagePositive
      obtain ⟨restContiguous, restEnd⟩ := inductionHypothesis tail
      rw [atStart] at chunksContiguous chunksEnd
      simp only [parsePartsizeFdpageList, List.flatMap_cons] at restContiguous restEnd ⊢
      rw [contiguous_append, endFrom_append, chunksEnd]
      exact ⟨⟨chunksContiguous, restContiguous⟩, restEnd⟩

theorem mem_parsePartsizeFdpageList {least : Int} (leastLe : least ≤ maxPartsize)
    {pages : List FdPage} (pagesPositive : ∀ page ∈ pages, 0 < page.bytes) {chunk : FdPage}
    (member : chunk ∈ parsePartsizeFdpageList pages maxPartsize) :
    ∃ page ∈ pages, chunk.flags = page.flags ∧ (∀ x, chunk.Contains x → page.Contains x) ∧
      (chunk.modified = true → chunk.bytes ≤ 2 * maxPartsize) := by
  obtain ⟨page, pageMember, chunkMember⟩ := List.mem_flatMap.mp member
  obtain ⟨flags, inside, upper, -⟩ :=
    mem_partsizeChunks positive fits leastLe (pagesPositive page pageMember) chunkMember
  exact ⟨page, pageMember, flags, inside, upper⟩

theorem partsizeChunks_ne_nil {page : FdPage} (pagePositive : 0 < page.bytes) :
    partsizeChunks maxPartsize page ≠ [] := by
  intro empty
  have endAt := (partsizeChunks_contiguous positive fits pagePositive).2
  rw [empty, endFrom_nil, FdPage.next] at endAt
  omega

/-- Splitting keeps every part but the last at least `least ≤ max_partsize` bytes long. -/
theorem parsePartsizeFdpageList_dropLast {least : Int} (leastLe : least ≤ maxPartsize) :
    ∀ {pages : List FdPage}, (∀ page ∈ pages, 0 < page.bytes) →
      (∀ page ∈ pages.dropLast, least ≤ page.bytes) →
      ∀ chunk ∈ (parsePartsizeFdpageList pages maxPartsize).dropLast, least ≤ chunk.bytes
  | [], _, _, chunk, member => by simp [parsePartsizeFdpageList] at member
  | [page], _, _, chunk, member => by
      simp only [parsePartsizeFdpageList, List.flatMap_cons, List.flatMap_nil,
        List.append_nil] at member
      rw [mem_dropLast_partsizeChunks member]
      exact leastLe
  | page :: next :: rest, pagesPositive, longEnough, chunk, member => by
      have restNonempty : parsePartsizeFdpageList (next :: rest) maxPartsize ≠ [] := by
        simp only [parsePartsizeFdpageList, List.flatMap_cons, ne_eq, List.append_eq_nil,
          not_and]
        exact fun chunksEmpty => absurd chunksEmpty
          (partsizeChunks_ne_nil positive fits (pagesPositive next (by simp)))
      have split : parsePartsizeFdpageList (page :: next :: rest) maxPartsize =
          partsizeChunks maxPartsize page ++ parsePartsizeFdpageList (next :: rest) maxPartsize :=
        List.flatMap_cons _ _ _
      rw [split, List.dropLast_append_of_ne_nil _ restNonempty, List.mem_append] at member
      rcases member with here | later
      · have lower := (mem_partsizeChunks positive fits leastLe
          (pagesPositive page (List.mem_cons_self _ _)) here).2.2.2
        have pageLong := longEnough page (by simp)
        omega
      · exact parsePartsizeFdpageList_dropLast leastLe
          (fun other member => pagesPositive other (List.mem_cons_of_mem _ member))
          (fun other member => longEnough other (by
            rw [List.dropLast_cons₂]
            exact List.mem_cons_of_mem _ member))
          chunk later

end Chunks

/-! ## Merging the parts -/

/-- Of two neighbouring parts, the first is at least `least` bytes long when the second starts
a part with other flags. -/
def LongBeforeChange (least : Int) (part next : FdPage) : Prop :=
  part.flags ≠ next.flags → least ≤ part.bytes

/-- `Compress` merges runs of equal flags; when the last page of each run before a change of
flags is long enough, so is every merged page but the last. `carried` is the last page merged
into `lastpage` so far. -/
theorem compressFrom_dropLast {least start : Int} {lastpage carried : FdPage}
    {rest : List FdPage} (contiguous : Contiguous start (lastpage :: rest))
    (sameFlags : lastpage.flags = carried.flags) (covers : carried.bytes ≤ lastpage.bytes)
    (chain : (carried :: rest).Chain' (LongBeforeChange least)) :
    ∀ part ∈ (compressFrom lastpage rest).dropLast, least ≤ part.bytes := by
  induction rest generalizing start lastpage carried with
  | nil => simp [compressFrom]
  | cons page rest inductionHypothesis =>
      have touching : lastpage.next = page.offset := contiguous.2.2.1.symm
      have tailChain := (List.chain'_cons.mp chain).2
      rw [compressFrom_cons_of_touching rest touching]
      split
      · next same =>
          have lastPositive := contiguous.2.1
          exact inductionHypothesis (contiguous_mergePage start contiguous)
            (show (mergePage lastpage page).flags = page.flags by rw [mergePage_flags, same])
            (by simp only [mergePage_bytes]; omega) tailChain
      · next different =>
          obtain ⟨first, others, equation, -, -⟩ := head_compressFrom page rest
          intro part member
          rw [equation, List.dropLast_cons₂, ← equation] at member
          rcases List.mem_cons.mp member with rfl | later
          · have := (List.chain'_cons.mp chain).1 (by rw [← sameFlags]; exact different)
            omega
          · exact inductionHypothesis contiguous.2.2 rfl (Int.le_refl _) tailChain part later

theorem compressPages_dropLast {least start : Int} {pages : List FdPage}
    (contiguous : Contiguous start pages) (chain : pages.Chain' (LongBeforeChange least)) :
    ∀ part ∈ (compressPages pages).dropLast, least ≤ part.bytes := by
  cases pages with
  | nil => simp
  | cons page rest => exact compressFrom_dropLast contiguous rfl (Int.le_refl _) chain

/-! ## The walk of `GetPageListsForMultipartUpload` -/

/-- The variables of the loop of `GetPageListsForMultipartUpload`: the pending part
`prev_page` and the lists built so far. -/
structure UploadWalk where
  prevPage : FdPage
  downloadPages : List FdPage
  mixuploadPages : List FdPage

section Walk

variable (minMultipartSize : Int)

/-- One turn of the loop of `GetPageListsForMultipartUpload` over `modified_pages`;
`minMultipartSize` is `MIN_MULTIPART_SIZE`, a constant of the object store protocol. -/
def multipartStep (walk : UploadWalk) (page : FdPage) : UploadWalk :=
  let prev := walk.prevPage
  if page.modified then
    if !prev.modified then
      if prev.bytes < minMultipartSize then
        { prevPage := page
          downloadPages := walk.downloadPages ++ [prev]
          mixuploadPages := walk.mixuploadPages ++ [{ prev with modified := true }] }
      else
        { prevPage := page
          downloadPages := walk.downloadPages
          mixuploadPages := walk.mixuploadPages ++ [{ prev with modified := false }] }
    else { walk with prevPage := mergePage prev page }
  else if !prev.modified then { walk with prevPage := mergePage prev page }
  else if prev.bytes < minMultipartSize then
    let missingBytes := minMultipartSize - prev.bytes
    if missingBytes + minMultipartSize < page.bytes then
      { prevPage := { page with
          offset := page.offset + missingBytes, bytes := page.bytes - missingBytes }
        downloadPages := walk.downloadPages ++ [⟨page.offset, missingBytes, false, false⟩]
        mixuploadPages := walk.mixuploadPages ++ [{ prev with bytes := minMultipartSize }] }
    else
      { prevPage := mergePage prev page
        downloadPages := walk.downloadPages ++ [page]
        mixuploadPages := walk.mixuploadPages }
  else
    { prevPage := page
      downloadPages := walk.downloadPages
      mixuploadPages := walk.mixuploadPages ++ [prev] }

/-- The loop of `GetPageListsForMultipartUpload` over `modified_pages`, from the empty
`prev_page`, and its push of the last area. -/
def walkModifiedPages (modifiedPages : List FdPage) : UploadWalk :=
  let walked := modifiedPages.foldl (multipartStep minMultipartSize) ⟨⟨0, 0, false, false⟩, [], []⟩
  if 0 < walked.prevPage.bytes then
    { walked with mixuploadPages := walked.mixuploadPages ++ [walked.prevPage] }
  else walked

/-- The two lists `GetPageListsForMultipartUpload` returns. -/
structure MultipartPlan where
  dlpages : List FdPage
  mixuppages : List FdPage

/-- `PageList::GetPageListsForMultipartUpload`: the compressed page list it leaves, and the
download and upload lists. -/
def PageList.getPageListsForMultipartUpload (pl : PageList) (maxPartsize : Int) :
    PageList × MultipartPlan :=
  let compressed := pl.compress
  let walked :=
    walkModifiedPages minMultipartSize (compressFdpageListIgnoreLoad compressed.pages false)
  (compressed,
    { dlpages := parsePartsizeFdpageList
        (compressFdpageListIgnoreModify walked.downloadPages false) maxPartsize
      mixuppages := parsePartsizeFdpageList
        (compressFdpageListIgnoreLoad walked.mixuploadPages false) maxPartsize })

theorem PageList.getPageListsForMultipartUpload_mixuppages (pl : PageList) (maxPartsize : Int) :
    (pl.getPageListsForMultipartUpload minMultipartSize maxPartsize).2.mixuppages =
      parsePartsizeFdpageList (compressFdpageListIgnoreLoad
        (walkModifiedPages minMultipartSize
          (compressFdpageListIgnoreLoad pl.compress.pages false)).mixuploadPages false)
        maxPartsize := rfl

/-- Everything one turn of the walk can do, with the guard of each branch. -/
theorem multipartStep_cases (walk : UploadWalk) (page : FdPage) :
    (page.modified = true ∧ walk.prevPage.modified = false ∧
      walk.prevPage.bytes < minMultipartSize ∧
      multipartStep minMultipartSize walk page =
        ⟨page, walk.downloadPages ++ [walk.prevPage],
          walk.mixuploadPages ++ [{ walk.prevPage with modified := true }]⟩) ∨
    (page.modified = true ∧ walk.prevPage.modified = false ∧
      minMultipartSize ≤ walk.prevPage.bytes ∧
      multipartStep minMultipartSize walk page =
        ⟨page, walk.downloadPages, walk.mixuploadPages ++ [walk.prevPage]⟩) ∨
    (page.modified = walk.prevPage.modified ∧
      multipartStep minMultipartSize walk page =
        ⟨mergePage walk.prevPage page, walk.downloadPages, walk.mixuploadPages⟩) ∨
    (page.modified = false ∧ walk.prevPage.modified = true ∧
      walk.prevPage.bytes < minMultipartSize ∧
      minMultipartSize - walk.prevPage.bytes + minMultipartSize < page.bytes ∧
      multipartStep minMultipartSize walk page =
        ⟨{ page with
            offset := page.offset + (minMultipartSize - walk.prevPage.bytes)
            bytes := page.bytes - (minMultipartSize - walk.prevPage.bytes) },
          walk.downloadPages ++
            [⟨page.offset, minMultipartSize - walk.prevPage.bytes, false, false⟩],
          walk.mixuploadPages ++ [{ walk.prevPage with bytes := minMultipartSize }]⟩) ∨
    (page.modified = false ∧ walk.prevPage.modified = true ∧
      walk.prevPage.bytes < minMultipartSize ∧
      page.bytes ≤ minMultipartSize - walk.prevPage.bytes + minMultipartSize ∧
      multipartStep minMultipartSize walk page =
        ⟨mergePage walk.prevPage page, walk.downloadPages ++ [page], walk.mixuploadPages⟩) ∨
    (page.modified = false ∧ walk.prevPage.modified = true ∧
      minMultipartSize ≤ walk.prevPage.bytes ∧
      multipartStep minMultipartSize walk page =
        ⟨page, walk.downloadPages, walk.mixuploadPages ++ [walk.prevPage]⟩) := by
  rcases walk with ⟨⟨offset, bytes, loaded, prevModified⟩, downloadPages, mixuploadPages⟩
  rcases page with ⟨pageOffset, pageBytes, pageLoaded, pageModified⟩
  cases pageModified <;> cases prevModified <;>
    simp only [multipartStep, Bool.not_true, Bool.not_false, Bool.false_eq_true, if_false,
      if_true, true_and, false_and, and_true, true_or, or_true, false_or, or_false] <;>
    split_ifs <;> simp_all [Int.not_lt]

/-! ## Invariants of the walk -/

/-- The parts pushed so far that hold bytes; `raw_compress_fdpage_list` drops the others. -/
def UploadWalk.parts (walk : UploadWalk) : List FdPage :=
  walk.mixuploadPages.filter fun part => part.bytes != 0

theorem UploadWalk.parts_push (walk : UploadWalk) (prev : FdPage) (downloadPages : List FdPage)
    (part : FdPage) :
    UploadWalk.parts ⟨prev, downloadPages, walk.mixuploadPages ++ [part]⟩ =
      walk.parts ++ if part.bytes = 0 then [] else [part] := by
  rw [UploadWalk.parts, List.filter_append]
  by_cases empty : part.bytes = 0 <;> simp [empty, UploadWalk.parts]

/-- Pushing a part where the pushed parts end keeps them contiguous. -/
theorem contiguous_push {parts : List FdPage} {part : FdPage}
    (contiguous : Contiguous 0 parts) (endAt : endFrom 0 parts = part.offset)
    (nonneg : 0 ≤ part.bytes) :
    Contiguous 0 (parts ++ if part.bytes = 0 then [] else [part]) ∧
      endFrom 0 (parts ++ if part.bytes = 0 then [] else [part]) = part.next := by
  split
  · simp only [List.append_nil, FdPage.next]
    exact ⟨contiguous, by omega⟩
  · refine ⟨contiguous_append.mpr ⟨contiguous, ⟨endAt.symm, by omega, trivial⟩⟩, ?_⟩
    rw [endFrom_append, endAt]
    rfl

/-- The pushed parts tile `[0, prev_page.offset)` and `prev_page` reaches `pos`, the offset of
the next page of `modified_pages`. -/
structure WalkTiles (walk : UploadWalk) (pos : Int) : Prop where
  partsContiguous : Contiguous 0 walk.parts
  partsEnd : endFrom 0 walk.parts = walk.prevPage.offset
  pushedNonneg : ∀ part ∈ walk.mixuploadPages, 0 ≤ part.bytes
  prevNonneg : 0 ≤ walk.prevPage.bytes
  prevNext : walk.prevPage.next = pos

section Step

variable {minMultipartSize : Int} {walk : UploadWalk} {page : FdPage}

theorem WalkTiles.step (minPositive : 0 < minMultipartSize)
    (tiles : WalkTiles walk page.offset) (pagePositive : 0 < page.bytes) :
    WalkTiles (multipartStep minMultipartSize walk page) page.next := by
  obtain ⟨partsContiguous, partsEnd, pushedNonneg, prevNonneg, prevNext⟩ := tiles
  simp only [FdPage.next] at prevNext
  have pushed : ∀ (part : FdPage) (prev : FdPage) (downloadPages : List FdPage),
      part.offset = walk.prevPage.offset → 0 ≤ part.bytes → prev.offset = part.next →
      prev.next = page.next → 0 ≤ prev.bytes →
      WalkTiles ⟨prev, downloadPages, walk.mixuploadPages ++ [part]⟩ page.next := by
    intro part prev downloadPages atPrev nonneg prevAt prevEnd prevBytes
    obtain ⟨contiguous, endAt⟩ := contiguous_push partsContiguous (partsEnd.trans atPrev.symm)
      nonneg
    refine ⟨?_, ?_, List.forall_mem_append.mpr ⟨pushedNonneg, List.forall_mem_singleton.mpr nonneg⟩,
      prevBytes, prevEnd⟩
    · rwa [UploadWalk.parts_push]
    · rw [UploadWalk.parts_push, endAt, prevAt]
  have merged : ∀ downloadPages : List FdPage,
      WalkTiles ⟨mergePage walk.prevPage page, downloadPages, walk.mixuploadPages⟩ page.next := by
    intro downloadPages
    refine ⟨partsContiguous, partsEnd, pushedNonneg, ?_, ?_⟩ <;>
      simp only [FdPage.next, mergePage_offset, mergePage_bytes] <;> omega
  rcases multipartStep_cases minMultipartSize walk page with
    ⟨-, -, -, equation⟩ | ⟨-, -, -, equation⟩ | ⟨-, equation⟩ | ⟨-, -, -, padded, equation⟩ |
      ⟨-, -, -, -, equation⟩ | ⟨-, -, -, equation⟩ <;> rw [equation]
  · exact pushed _ _ _ rfl prevNonneg (by simp only [FdPage.next]; omega) rfl (by omega)
  · exact pushed _ _ _ rfl prevNonneg (by simp only [FdPage.next]; omega) rfl (by omega)
  · exact merged _
  · exact pushed _ _ _ rfl (by simp only; omega) (by simp only [FdPage.next]; omega)
      (by simp only [FdPage.next]; omega) (by simp only; omega)
  · exact merged _
  · exact pushed _ _ _ rfl prevNonneg (by simp only [FdPage.next]; omega) rfl (by omega)

/-- The walk keeps copy parts clean: every byte of a copy part pushed so far, and of
`prev_page` while it is not modified, satisfies `clean`. -/
structure WalkSafe (clean : Int → Prop) (walk : UploadWalk) : Prop where
  copyParts : ∀ part ∈ walk.mixuploadPages, part.modified = false →
    ∀ x, part.Contains x → clean x
  prevClean : walk.prevPage.modified = false → ∀ x, walk.prevPage.Contains x → clean x

theorem WalkSafe.step {clean : Int → Prop} (tiles : WalkTiles walk page.offset)
    (safe : WalkSafe clean walk)
    (pageClean : page.modified = false → ∀ x, page.Contains x → clean x) :
    WalkSafe clean (multipartStep minMultipartSize walk page) := by
  obtain ⟨copyParts, prevClean⟩ := safe
  have pushed : ∀ (part prev : FdPage) (downloadPages : List FdPage),
      (part.modified = false → ∀ x, part.Contains x → clean x) →
      (prev.modified = false → ∀ x, prev.Contains x → clean x) →
      WalkSafe clean ⟨prev, downloadPages, walk.mixuploadPages ++ [part]⟩ :=
    fun _ _ _ partClean newPrevClean =>
      ⟨List.forall_mem_append.mpr ⟨copyParts, List.forall_mem_singleton.mpr partClean⟩,
        newPrevClean⟩
  have merged : (walk.prevPage.modified = false → page.modified = false) →
      ∀ downloadPages : List FdPage,
        WalkSafe clean ⟨mergePage walk.prevPage page, downloadPages, walk.mixuploadPages⟩ := by
    intro follows downloadPages
    refine ⟨copyParts, fun unmodified x inside => ?_⟩
    rcases contains_of_mergePage tiles.prevNext inside with old | new
    · exact prevClean unmodified x old
    · exact pageClean (follows unmodified) x new
  rcases multipartStep_cases minMultipartSize walk page with
    ⟨pageModified, -, -, equation⟩ | ⟨pageModified, -, -, equation⟩ | ⟨same, equation⟩ |
      ⟨pageUnmodified, prevModified, short, -, equation⟩ | ⟨-, prevModified, -, -, equation⟩ |
      ⟨pageUnmodified, prevModified, -, equation⟩ <;> rw [equation]
  · exact pushed _ _ _ (by simp) (by simp [pageModified])
  · exact pushed _ _ _ prevClean (by simp [pageModified])
  · exact merged (fun unmodified => same.trans unmodified) _
  · refine pushed _ _ _ (by simp [prevModified]) fun _ x inside => ?_
    refine pageClean pageUnmodified x ?_
    simp only [FdPage.Contains, FdPage.next] at inside ⊢
    omega
  · exact merged (fun unmodified => absurd (prevModified.symm.trans unmodified) (by decide)) _
  · exact pushed _ _ _ (by simp [prevModified]) fun _ => pageClean pageUnmodified

end Step

/-- Of two neighbouring parts, the first is at least `least` bytes long when the second
switches between copy and upload. -/
def LongBeforeSwitch (least : Int) (part next : FdPage) : Prop :=
  part.modified ≠ next.modified → least ≤ part.bytes

/-- The walk keeps short parts out of the middle: a pushed part is long before a switch, and
the last one pushed is long unless it and `prev_page` are both upload parts, so that the next
push, or the last one, joins it. -/
structure WalkLinked (least : Int) (walk : UploadWalk) : Prop where
  chain : walk.parts.Chain' (LongBeforeSwitch least)
  pending : ∀ last ∈ walk.parts.getLast?,
    least ≤ last.bytes ∨ (last.modified = true ∧ walk.prevPage.modified = true)

theorem WalkLinked.push {least : Int} {walk : UploadWalk} {part prev : FdPage}
    (downloadPages : List FdPage) (linked : WalkLinked least walk)
    (link : ∀ last ∈ walk.parts.getLast?, LongBeforeSwitch least last part)
    (keep : part.bytes = 0 → ∀ last ∈ walk.parts.getLast?,
      least ≤ last.bytes ∨ (last.modified = true ∧ prev.modified = true))
    (new : least ≤ part.bytes ∨ (part.modified = true ∧ prev.modified = true)) :
    WalkLinked least ⟨prev, downloadPages, walk.mixuploadPages ++ [part]⟩ := by
  have parts := UploadWalk.parts_push walk prev downloadPages part
  by_cases empty : part.bytes = 0
  · rw [if_pos empty, List.append_nil] at parts
    refine ⟨?_, ?_⟩ <;> rw [parts]
    · exact linked.chain
    · exact keep empty
  · rw [if_neg empty] at parts
    refine ⟨?_, ?_⟩ <;> rw [parts]
    · refine List.chain'_append.mpr ⟨linked.chain, List.chain'_singleton _, ?_⟩
      intro last member next head
      rw [List.head?_cons, Option.mem_some_iff] at head
      rw [← head]
      exact link last member
    · intro last member
      rw [List.getLast?_concat, Option.mem_some_iff] at member
      rw [← member]
      exact new

section Step

variable {minMultipartSize : Int} {walk : UploadWalk} {page : FdPage}

theorem WalkLinked.step (minPositive : 0 < minMultipartSize)
    (linked : WalkLinked minMultipartSize walk) :
    WalkLinked minMultipartSize (multipartStep minMultipartSize walk page) := by
  have long : walk.prevPage.modified = false →
      ∀ last ∈ walk.parts.getLast?, minMultipartSize ≤ last.bytes :=
    fun unmodified last member => (linked.pending last member).resolve_right
      fun both => absurd (both.2.symm.trans unmodified) (by decide)
  have sameLink : ∀ part : FdPage, part.modified = walk.prevPage.modified →
      ∀ last ∈ walk.parts.getLast?, LongBeforeSwitch minMultipartSize last part :=
    fun part same last member switch => (linked.pending last member).resolve_right
      fun both => switch (by rw [same, both.1, both.2])
  rcases multipartStep_cases minMultipartSize walk page with
    ⟨pageModified, prevUnmodified, -, equation⟩ | ⟨-, prevUnmodified, prevLong, equation⟩ |
      ⟨-, equation⟩ | ⟨-, -, -, -, equation⟩ | ⟨-, -, -, -, equation⟩ |
      ⟨-, -, prevLong, equation⟩ <;> rw [equation]
  · exact linked.push _ (fun last member _ => long prevUnmodified last member)
      (fun _ last member => .inl (long prevUnmodified last member)) (.inr ⟨rfl, pageModified⟩)
  · exact linked.push _ (fun last member _ => long prevUnmodified last member)
      (fun _ last member => .inl (long prevUnmodified last member)) (.inl prevLong)
  · exact ⟨linked.chain, linked.pending⟩
  · exact linked.push _ (sameLink _ rfl) (fun empty => absurd empty (by simp only; omega))
      (.inl (Int.le_refl _))
  · exact ⟨linked.chain, linked.pending⟩
  · exact linked.push _ (sameLink _ rfl) (fun empty => absurd empty (by omega)) (.inl prevLong)

end Step

/-- The invariants of the walk, from the page at `pos` on. -/
structure WalkInvariant (least : Int) (clean : Int → Prop) (walk : UploadWalk) (pos : Int) :
    Prop where
  tiles : WalkTiles walk pos
  safe : WalkSafe clean walk
  linked : WalkLinked least walk

section Run

variable {minMultipartSize : Int} {clean : Int → Prop}

theorem WalkInvariant.foldl (minPositive : 0 < minMultipartSize) {start : Int}
    {pages : List FdPage} (contiguous : Contiguous start pages)
    (pagesClean : ∀ page ∈ pages, page.modified = false → ∀ x, page.Contains x → clean x)
    {walk : UploadWalk} (invariant : WalkInvariant minMultipartSize clean walk start) :
    WalkInvariant minMultipartSize clean (pages.foldl (multipartStep minMultipartSize) walk)
      (endFrom start pages) := by
  induction pages generalizing start walk with
  | nil => exact invariant
  | cons page rest inductionHypothesis =>
      obtain ⟨atStart, positive, tail⟩ := contiguous
      subst atStart
      obtain ⟨tiles, safe, linked⟩ := invariant
      exact inductionHypothesis tail
        (fun other member => pagesClean other (List.mem_cons_of_mem _ member))
        ⟨tiles.step minPositive positive,
          safe.step tiles (pagesClean page (List.mem_cons_self _ _)), linked.step minPositive⟩

/-- What the walk leaves in `mixupload_pages`: its parts with bytes tile the range of
`modified_pages`, its copy parts are clean, and a part is short only where no switch
follows it. -/
theorem walkModifiedPages_spec (minPositive : 0 < minMultipartSize) {modifiedPages : List FdPage}
    (contiguous : Contiguous 0 modifiedPages)
    (pagesClean : ∀ page ∈ modifiedPages, page.modified = false → ∀ x, page.Contains x → clean x) :
    let parts := (walkModifiedPages minMultipartSize modifiedPages).parts
    Contiguous 0 parts ∧ endFrom 0 parts = endFrom 0 modifiedPages ∧
      (∀ part ∈ parts, part.modified = false → ∀ x, part.Contains x → clean x) ∧
      parts.Chain' (LongBeforeSwitch minMultipartSize) := by
  have initial : WalkInvariant minMultipartSize clean ⟨⟨0, 0, false, false⟩, [], []⟩ 0 :=
    ⟨⟨trivial, rfl, by simp, Int.le_refl _, rfl⟩, ⟨by simp,
      fun _ x inside => absurd inside (by simp only [FdPage.Contains, FdPage.next]; omega)⟩,
      ⟨List.chain'_nil, by simp [UploadWalk.parts]⟩⟩
  have invariant := WalkInvariant.foldl minPositive contiguous pagesClean initial
  simp only [walkModifiedPages]
  generalize modifiedPages.foldl (multipartStep minMultipartSize) ⟨⟨0, 0, false, false⟩, [], []⟩ =
    walked at invariant ⊢
  obtain ⟨⟨partsContiguous, partsEnd, -, prevNonneg, prevNext⟩, ⟨copyParts, prevClean⟩,
    ⟨chain, pending⟩⟩ := invariant
  have finalParts : UploadWalk.parts (if 0 < walked.prevPage.bytes then
      { walked with mixuploadPages := walked.mixuploadPages ++ [walked.prevPage] } else walked) =
      walked.parts ++ if walked.prevPage.bytes = 0 then [] else [walked.prevPage] := by
    split
    · exact UploadWalk.parts_push walked _ _ _
    · rw [if_pos (by omega), List.append_nil]
  obtain ⟨finalContiguous, finalEnd⟩ := contiguous_push partsContiguous partsEnd prevNonneg
  rw [finalParts]
  refine ⟨finalContiguous, finalEnd.trans prevNext, fun part member => ?_, ?_⟩
  · rcases List.mem_append.mp member with old | last
    · exact copyParts part (List.mem_filter.mp old).1
    · split at last
      · cases last
      · rw [List.mem_singleton.mp last]
        exact prevClean
  · split
    · rw [List.append_nil]
      exact chain
    · refine List.chain'_append.mpr ⟨chain, List.chain'_singleton _, ?_⟩
      intro last member next head
      rw [List.head?_cons, Option.mem_some_iff] at head
      intro switch
      refine (pending last member).resolve_right fun both => switch ?_
      rw [← head, both.1, both.2]

end Run

/-! ## The download list of the walk -/

/-- The walk keeps `download_pages` in order and behind `prev_page`, and downloads the clean bytes
of every upload part: every byte that satisfies `clean` and lies in an upload part pushed so
far, or in `prev_page` while it is an upload part, lies in a page of `download_pages`. -/
structure WalkDownloads (clean : Int → Prop) (walk : UploadWalk) : Prop where
  ordered : walk.downloadPages.Pairwise fun page next => page.next ≤ next.offset
  nonneg : ∀ page ∈ walk.downloadPages, 0 ≤ page.bytes
  behind : ∀ page ∈ walk.downloadPages,
    page.next ≤ if walk.prevPage.modified then walk.prevPage.next else walk.prevPage.offset
  uploads : ∀ part ∈ walk.mixuploadPages, part.modified = true →
    ∀ x, part.Contains x → clean x → Covers walk.downloadPages x
  prevUpload : walk.prevPage.modified = true →
    ∀ x, walk.prevPage.Contains x → clean x → Covers walk.downloadPages x

section Step

variable {minMultipartSize : Int} {walk : UploadWalk} {page : FdPage} {clean : Int → Prop}

theorem WalkDownloads.step (tiles : WalkTiles walk page.offset) (pagePositive : 0 < page.bytes)
    (pageDirty : page.modified = true → ∀ x, page.Contains x → ¬ clean x)
    (downloads : WalkDownloads clean walk) :
    WalkDownloads clean (multipartStep minMultipartSize walk page) := by
  obtain ⟨ordered, nonneg, behind, uploads, prevUpload⟩ := downloads
  have prevNext := tiles.prevNext
  have prevNonneg := tiles.prevNonneg
  have prevEnd : walk.prevPage.next = walk.prevPage.offset + walk.prevPage.bytes := rfl
  have pageEnd : page.next = page.offset + page.bytes := rfl
  have grow : ∀ (added : List FdPage) {x}, Covers walk.downloadPages x →
      Covers (walk.downloadPages ++ added) x :=
    fun added x covered => (covers_append _ _ x).mpr (.inl covered)
  have oldUploads : ∀ (added : List FdPage), ∀ part ∈ walk.mixuploadPages, part.modified = true →
      ∀ x, part.Contains x → clean x → Covers (walk.downloadPages ++ added) x :=
    fun added part member modified x inside isClean =>
      grow added (uploads part member modified x inside isClean)
  have pushed : ∀ added : FdPage, (∀ old ∈ walk.downloadPages, old.next ≤ added.offset) →
      0 ≤ added.bytes →
      (walk.downloadPages ++ [added]).Pairwise (fun page next => page.next ≤ next.offset) ∧
        ∀ old ∈ walk.downloadPages ++ [added], 0 ≤ old.bytes := fun added before addedNonneg =>
    ⟨List.pairwise_append.mpr ⟨ordered, List.pairwise_singleton _ _,
      fun old member other new => List.mem_singleton.mp new ▸ before old member⟩,
      List.forall_mem_append.mpr ⟨nonneg, List.forall_mem_singleton.mpr addedNonneg⟩⟩
  have added : ∀ (added : FdPage) {x}, added.Contains x →
      Covers (walk.downloadPages ++ [added]) x :=
    fun added x inside => (covers_append _ _ x).mpr (.inr ((covers_singleton _ _).mpr inside))
  rcases multipartStep_cases minMultipartSize walk page with
    ⟨pageModified, prevUnmodified, -, equation⟩ | ⟨pageModified, prevUnmodified, -, equation⟩ |
      ⟨same, equation⟩ | ⟨pageUnmodified, prevModified, short, -, equation⟩ |
      ⟨pageUnmodified, prevModified, -, -, equation⟩ |
      ⟨pageUnmodified, prevModified, -, equation⟩ <;> rw [equation]
  · simp only [prevUnmodified, Bool.false_eq_true, if_false] at behind
    obtain ⟨newOrdered, newNonneg⟩ := pushed walk.prevPage behind prevNonneg
    refine ⟨newOrdered, newNonneg, ?_, List.forall_mem_append.mpr ⟨oldUploads _,
      List.forall_mem_singleton.mpr fun _ x inside _ => added _ inside⟩,
      fun _ x inside isClean => absurd isClean (pageDirty pageModified x inside)⟩
    simp only [pageModified, if_true, List.forall_mem_append, List.forall_mem_singleton]
    exact ⟨fun old member => by have := behind _ member; omega, by omega⟩
  · simp only [prevUnmodified, Bool.false_eq_true, if_false] at behind
    refine ⟨ordered, nonneg, fun old member => ?_, List.forall_mem_append.mpr ⟨uploads,
      List.forall_mem_singleton.mpr fun modified => by simp [prevUnmodified] at modified⟩,
      fun _ x inside isClean => absurd isClean (pageDirty pageModified x inside)⟩
    simp only [pageModified, if_true]
    have := behind _ member
    omega
  · refine ⟨ordered, nonneg, fun old member => ?_, uploads, fun modified x inside isClean => ?_⟩
    · have := behind _ member
      simp only [FdPage.next, mergePage_offset, mergePage_bytes, mergePage] at this ⊢
      split_ifs at this ⊢ <;> omega
    · simp only [mergePage] at modified
      rcases contains_of_mergePage prevNext inside with old | new
      · exact prevUpload modified x old isClean
      · exact absurd isClean (pageDirty (same.trans modified) x new)
  · simp only [prevModified, if_true] at behind
    obtain ⟨newOrdered, newNonneg⟩ := pushed ⟨page.offset, minMultipartSize - walk.prevPage.bytes,
      false, false⟩ (fun old member => by have := behind _ member; simp only; omega)
      (by simp only; omega)
    refine ⟨newOrdered, newNonneg, ?_, List.forall_mem_append.mpr ⟨oldUploads _,
      List.forall_mem_singleton.mpr fun _ x inside isClean => ?_⟩,
      fun unmodified => by simp [pageUnmodified] at unmodified⟩
    · simp only [pageUnmodified, Bool.false_eq_true, if_false, List.forall_mem_append,
        List.forall_mem_singleton]
      exact ⟨fun old member => by have := behind _ member; omega, by simp only [FdPage.next]; omega⟩
    · simp only [FdPage.Contains, FdPage.next] at inside
      by_cases inPrev : x < walk.prevPage.next
      · exact grow _ (prevUpload prevModified x ⟨inside.1, inPrev⟩ isClean)
      · exact added _ (by simp only [FdPage.Contains, FdPage.next]; omega)
  · simp only [prevModified, if_true] at behind
    obtain ⟨newOrdered, newNonneg⟩ := pushed page (fun old member => by
      have := behind _ member; omega) (by omega)
    refine ⟨newOrdered, newNonneg, ?_, oldUploads _, fun _ x inside isClean => ?_⟩
    · simp only [mergePage, prevModified, if_true, List.forall_mem_append,
        List.forall_mem_singleton]
      simp only [FdPage.next] at prevNext behind ⊢
      exact ⟨fun old member => by have := behind _ member; omega, by omega⟩
    · rcases contains_of_mergePage prevNext inside with old | new
      · exact grow _ (prevUpload prevModified x old isClean)
      · exact added _ new
  · simp only [prevModified, if_true] at behind
    refine ⟨ordered, nonneg, fun old member => ?_, List.forall_mem_append.mpr ⟨uploads,
      List.forall_mem_singleton.mpr fun _ => prevUpload prevModified⟩,
      fun unmodified => by simp [pageUnmodified] at unmodified⟩
    simp only [pageUnmodified, Bool.false_eq_true, if_false]
    have := behind _ member
    omega

end Step

section Run

variable {minMultipartSize : Int} {clean : Int → Prop}

theorem WalkDownloads.foldl (minPositive : 0 < minMultipartSize) {start : Int}
    {pages : List FdPage} (contiguous : Contiguous start pages)
    (pagesDirty : ∀ page ∈ pages, page.modified = true → ∀ x, page.Contains x → ¬ clean x)
    {walk : UploadWalk} (tiles : WalkTiles walk start) (downloads : WalkDownloads clean walk) :
    let walked := pages.foldl (multipartStep minMultipartSize) walk
    WalkTiles walked (endFrom start pages) ∧ WalkDownloads clean walked := by
  induction pages generalizing start walk with
  | nil => exact ⟨tiles, downloads⟩
  | cons page rest inductionHypothesis =>
      obtain ⟨atStart, positive, tail⟩ := contiguous
      subst atStart
      exact inductionHypothesis tail
        (fun other member => pagesDirty other (List.mem_cons_of_mem _ member))
        (tiles.step minPositive positive)
        (downloads.step tiles positive (pagesDirty page (List.mem_cons_self _ _)))

/-- What the walk leaves in `download_pages`: pages in order, none of negative length, holding
every clean byte of every upload part of `mixupload_pages`. -/
theorem walkModifiedPages_downloads (minPositive : 0 < minMultipartSize)
    {modifiedPages : List FdPage} (contiguous : Contiguous 0 modifiedPages)
    (pagesDirty : ∀ page ∈ modifiedPages, page.modified = true →
      ∀ x, page.Contains x → ¬ clean x) :
    let walked := walkModifiedPages minMultipartSize modifiedPages
    walked.downloadPages.Pairwise (fun page next => page.next ≤ next.offset) ∧
      (∀ page ∈ walked.downloadPages, 0 ≤ page.bytes) ∧
      ∀ part ∈ walked.mixuploadPages, part.modified = true →
        ∀ x, part.Contains x → clean x → Covers walked.downloadPages x := by
  have initialTiles : WalkTiles ⟨⟨0, 0, false, false⟩, [], []⟩ 0 :=
    ⟨trivial, rfl, by simp, Int.le_refl _, rfl⟩
  have initialDownloads : WalkDownloads clean ⟨⟨0, 0, false, false⟩, [], []⟩ :=
    ⟨List.Pairwise.nil, by simp, by simp, by simp, fun unmodified => by cases unmodified⟩
  obtain ⟨-, ⟨ordered, nonneg, -, uploads, prevUpload⟩⟩ :=
    WalkDownloads.foldl minPositive contiguous pagesDirty initialTiles initialDownloads
  simp only [walkModifiedPages]
  generalize modifiedPages.foldl (multipartStep minMultipartSize) ⟨⟨0, 0, false, false⟩, [], []⟩ =
    walked at ordered nonneg uploads prevUpload ⊢
  refine ⟨?_, ?_, ?_⟩ <;> split
  · exact ordered
  · exact ordered
  · exact nonneg
  · exact nonneg
  · exact List.forall_mem_append.mpr ⟨uploads, List.forall_mem_singleton.mpr prevUpload⟩
  · exact uploads

end Run

end Walk

/-! ## The plan -/

section Plan

variable {pl : PageList} {minMultipartSize maxPartsize : Int}

/-- `modified_pages`, the list the walk runs over, tiles `[0, Size())`, and its unmodified pages
hold no modified byte of the page list. -/
theorem modifiedPages_spec (wellFormed : WellFormed pl.pages) :
    let modifiedPages := compressFdpageListIgnoreLoad pl.compress.pages false
    Contiguous 0 modifiedPages ∧ endFrom 0 modifiedPages = pl.size ∧
      ∀ page ∈ modifiedPages, page.modified = false → ∀ x, page.Contains x →
        ∀ loaded, flagsAt pl.pages x ≠ some (loaded, true) := by
  obtain ⟨filterContiguous, filterEnd, filterFlags⟩ :=
    (PageList.compress_wellFormed wellFormed).filter_contiguous
  obtain ⟨contiguous, endAt, flags⟩ :=
    rawCompressFdpageList_spec ⟨true, false, false, false⟩ filterContiguous
  refine ⟨contiguous, endAt.trans (filterEnd.trans ?_),
    fun page member unmodified x inside loaded known => ?_⟩
  · rw [← size_eq_endFrom, size_compress wellFormed]
  · have byte := flags x
    rw [contiguous.flagsAt_of_mem member inside, filterFlags, flagsAt_compress wellFormed,
      known] at byte
    simp [FdPage.flags, unmodified] at byte

/-- Every page of `modified_pages` carries the modified flag of each of its bytes in the list. -/
theorem modifiedPages_flags (wellFormed : WellFormed pl.pages) :
    ∀ page ∈ compressFdpageListIgnoreLoad pl.compress.pages false, ∀ x, page.Contains x →
      ∃ loaded, flagsAt pl.pages x = some (loaded, page.modified) := by
  obtain ⟨filterContiguous, -, filterFlags⟩ :=
    (PageList.compress_wellFormed wellFormed).filter_contiguous
  obtain ⟨contiguous, -, flags⟩ :=
    rawCompressFdpageList_spec ⟨true, false, false, false⟩ filterContiguous
  intro page member x inside
  have byte := flags x
  rw [contiguous.flagsAt_of_mem member inside, filterFlags, flagsAt_compress wellFormed] at byte
  obtain ⟨⟨loaded, modified⟩, known, adjusted⟩ := Option.map_eq_some'.mp byte.symm
  have sameModified : modified = page.modified := by
    simpa [FdPage.flags] using congrArg Prod.snd adjusted
  exact ⟨loaded, by rw [known, sameModified]⟩

/-- The parts `GetPageListsForMultipartUpload` returns tile `[0, Size())`, and every modified
byte of the page list lies in an upload part: no copy part re-uses a stale byte of the stored
object. -/
theorem mixuppages_tile (pl : PageList) (wellFormed : WellFormed pl.pages)
    (minMultipartSize maxPartsize : Int) (minPositive : 0 < minMultipartSize)
    (maxGe : minMultipartSize ≤ maxPartsize) (maxFits : maxPartsize < 2 ^ 62) :
    let mixuppages := (pl.getPageListsForMultipartUpload minMultipartSize maxPartsize).2.mixuppages
    Contiguous 0 mixuppages ∧ endFrom 0 mixuppages = pl.size ∧
      ∀ x loaded, flagsAt pl.pages x = some (loaded, true) →
        ∀ part ∈ mixuppages, part.Contains x → part.modified = true := by
  obtain ⟨modifiedContiguous, modifiedEnd, modifiedClean⟩ := modifiedPages_spec wellFormed
  have walk := walkModifiedPages_spec minPositive modifiedContiguous modifiedClean
  rw [PageList.getPageListsForMultipartUpload_mixuppages]
  generalize walkModifiedPages minMultipartSize
    (compressFdpageListIgnoreLoad pl.compress.pages false) = walked at walk ⊢
  obtain ⟨partsContiguous, partsEnd, partsClean, -⟩ := walk
  obtain ⟨merged, mergedEnd, mergedFlags⟩ :=
    rawCompressFdpageList_spec ⟨true, false, false, false⟩ partsContiguous
  have maxPositive : 0 < maxPartsize := by omega
  obtain ⟨chunks, chunksEnd⟩ := parsePartsizeFdpageList_contiguous maxPositive maxFits merged
  refine ⟨chunks, chunksEnd.trans (mergedEnd.trans (partsEnd.trans modifiedEnd)), ?_⟩
  intro x loaded known chunk member inside
  obtain ⟨part, partMember, chunkFlags, within, -⟩ := mem_parsePartsizeFdpageList maxPositive
    maxFits maxGe (fun page member => (merged.mem_bounds member).2.1) member
  have byte := mergedFlags x
  rw [merged.flagsAt_of_mem partMember (within x inside)] at byte
  obtain ⟨flags, partsByte, adjusted⟩ := Option.map_eq_some'.mp byte.symm
  obtain ⟨source, sourceMember, sourceInside, sourceFlags⟩ :=
    exists_mem_of_flagsAt_eq_some partsByte
  have partModified : part.modified = flags.2 := (congrArg Prod.snd adjusted).symm
  have sourceModified : source.modified = flags.2 := congrArg Prod.snd sourceFlags
  have chunkModified : chunk.modified = part.modified := congrArg Prod.snd chunkFlags
  by_contra uploaded
  refine partsClean source sourceMember ?_ x sourceInside loaded known
  rw [sourceModified, ← partModified, ← chunkModified]
  exact Bool.eq_false_iff.mpr uploaded

theorem mixuppages_tile_sample :
    let pl : PageList := ⟨[⟨0, 3, true, false⟩, ⟨3, 2, true, true⟩, ⟨5, 4, false, false⟩], false⟩
    let mixuppages := (pl.getPageListsForMultipartUpload 2 2).2.mixuppages
    Contiguous 0 mixuppages ∧ endFrom 0 mixuppages = pl.size ∧
      ∀ x loaded, flagsAt pl.pages x = some (loaded, true) →
        ∀ part ∈ mixuppages, part.Contains x → part.modified = true :=
  mixuppages_tile _ (by decide) 2 2 (by decide) (by decide) (by decide)

/-- Every part but the last has at least `MIN_MULTIPART_SIZE` bytes, and every upload part at
most `2 * max_partsize`. -/
theorem mixuppages_part_sizes (pl : PageList) (wellFormed : WellFormed pl.pages)
    (minMultipartSize maxPartsize : Int) (minPositive : 0 < minMultipartSize)
    (maxGe : minMultipartSize ≤ maxPartsize) (maxFits : maxPartsize < 2 ^ 62) :
    let mixuppages := (pl.getPageListsForMultipartUpload minMultipartSize maxPartsize).2.mixuppages
    (∀ part ∈ mixuppages.dropLast, minMultipartSize ≤ part.bytes) ∧
      ∀ part ∈ mixuppages, part.modified = true → part.bytes ≤ 2 * maxPartsize := by
  obtain ⟨modifiedContiguous, -, modifiedClean⟩ := modifiedPages_spec wellFormed
  have walk := walkModifiedPages_spec minPositive modifiedContiguous modifiedClean
  rw [PageList.getPageListsForMultipartUpload_mixuppages]
  generalize walkModifiedPages minMultipartSize
    (compressFdpageListIgnoreLoad pl.compress.pages false) = walked at walk ⊢
  obtain ⟨partsContiguous, -, -, chain⟩ := walk
  have merged := (rawCompressFdpageList_spec ⟨true, false, false, false⟩ partsContiguous).1
  have maxPositive : 0 < maxPartsize := by omega
  have mergedPositive : ∀ page ∈ compressFdpageListIgnoreLoad walked.mixuploadPages false,
      0 < page.bytes := fun page member => (merged.mem_bounds member).2.1
  have mergedEq : compressFdpageListIgnoreLoad walked.mixuploadPages false =
      compressPages (walked.parts.map (CompressMode.adjust ⟨true, false, false, false⟩)) := by
    rw [compressFdpageListIgnoreLoad, ← rawCompressFdpageList_filter]
    exact rawCompressFdpageList_eq_compressPages _ partsContiguous
  refine ⟨parsePartsizeFdpageList_dropLast maxPositive maxFits maxGe mergedPositive ?_,
    fun chunk member => (mem_parsePartsizeFdpageList maxPositive maxFits maxGe mergedPositive
      member).choose_spec.2.2.2⟩
  rw [mergedEq]
  refine compressPages_dropLast ((contiguous_map_adjust _).mpr partsContiguous)
    (List.chain'_map_of_chain' _ (fun part next long change => long fun same => change ?_) chain)
  simp [CompressMode.adjust, FdPage.flags, same]

theorem mixuppages_part_sizes_sample :
    let pl : PageList := ⟨[⟨0, 3, true, false⟩, ⟨3, 2, true, true⟩, ⟨5, 4, false, false⟩], false⟩
    let mixuppages := (pl.getPageListsForMultipartUpload 2 2).2.mixuppages
    (∀ part ∈ mixuppages.dropLast, 2 ≤ part.bytes) ∧
      ∀ part ∈ mixuppages, part.modified = true → part.bytes ≤ 2 * 2 :=
  mixuppages_part_sizes _ (by decide) 2 2 (by decide) (by decide) (by decide)

/-- Every byte of an upload part of `mixuppages` that is not modified in the list lies in a page
of `dlpages`: after the download every upload part can be read from the cache. -/
theorem dlpages_cover_uploads (pl : PageList) (wellFormed : WellFormed pl.pages)
    (minMultipartSize maxPartsize : Int) (minPositive : 0 < minMultipartSize)
    (maxGe : minMultipartSize ≤ maxPartsize) (maxFits : maxPartsize < 2 ^ 62) :
    let plan := (pl.getPageListsForMultipartUpload minMultipartSize maxPartsize).2
    ∀ x loaded, flagsAt pl.pages x = some (loaded, false) →
      ∀ part ∈ plan.mixuppages, part.modified = true → part.Contains x →
        ∃ page ∈ plan.dlpages, page.Contains x := by
  obtain ⟨modifiedContiguous, -, -⟩ := modifiedPages_spec wellFormed
  have walk := walkModifiedPages_spec minPositive modifiedContiguous
    (show ∀ page ∈ compressFdpageListIgnoreLoad pl.compress.pages false, page.modified = false →
      ∀ x, page.Contains x → True from fun _ _ _ _ _ => trivial)
  have dirty : ∀ page ∈ compressFdpageListIgnoreLoad pl.compress.pages false,
      page.modified = true → ∀ x, page.Contains x →
        ¬ ∃ loaded, flagsAt pl.pages x = some (loaded, false) := by
    intro page member modified x inside ⟨loaded, known⟩
    obtain ⟨other, flags⟩ := modifiedPages_flags wellFormed page member x inside
    rw [known, modified] at flags
    cases flags
  have downloads := walkModifiedPages_downloads minPositive modifiedContiguous dirty
  intro plan x loaded known part member modified inside
  simp only [plan, PageList.getPageListsForMultipartUpload] at member ⊢
  generalize walkModifiedPages minMultipartSize
    (compressFdpageListIgnoreLoad pl.compress.pages false) = walked at walk downloads member ⊢
  obtain ⟨partsContiguous, -, -, -⟩ := walk
  obtain ⟨ordered, nonneg, uploads⟩ := downloads
  obtain ⟨merged, -, mergedFlags⟩ :=
    rawCompressFdpageList_spec ⟨true, false, false, false⟩ partsContiguous
  have maxPositive : 0 < maxPartsize := by omega
  obtain ⟨mergedPart, partMember, chunkFlags, within, -⟩ := mem_parsePartsizeFdpageList maxPositive
    maxFits maxGe (fun page member => (merged.mem_bounds member).2.1) member
  have byte := mergedFlags x
  rw [merged.flagsAt_of_mem partMember (within x inside)] at byte
  obtain ⟨flags, partsByte, adjusted⟩ := Option.map_eq_some'.mp byte.symm
  obtain ⟨source, sourceMember, sourceInside, sourceFlags⟩ :=
    exists_mem_of_flagsAt_eq_some partsByte
  have sourceModified : source.modified = true := calc
    source.modified = flags.2 := congrArg Prod.snd sourceFlags
    _ = mergedPart.modified := congrArg Prod.snd adjusted
    _ = part.modified := (congrArg Prod.snd chunkFlags).symm
    _ = true := modified
  have covered := uploads source (List.mem_filter.mp sourceMember).1 sourceModified x sourceInside
    ⟨loaded, known⟩
  obtain ⟨start, downloadContiguous, downloadRange⟩ :=
    rawCompressFdpageList_ascending ⟨false, true, false, false⟩ ordered nonneg
  obtain ⟨chunks, chunksEnd⟩ := parsePartsizeFdpageList_contiguous maxPositive maxFits downloadContiguous
  exact chunks.exists_mem (by rw [chunksEnd]; exact downloadRange x covered)

theorem dlpages_cover_uploads_sample :
    let pl : PageList := ⟨[⟨0, 3, true, false⟩, ⟨3, 2, true, true⟩, ⟨5, 4, false, false⟩], false⟩
    let plan := (pl.getPageListsForMultipartUpload 2 2).2
    (WellFormed pl.pages ∧ (0 : Int) < 2 ∧ (2 : Int) ≤ 2 ∧ (2 : Int) < 2 ^ 62) ∧
      ∀ x loaded, flagsAt pl.pages x = some (loaded, false) →
        ∀ part ∈ plan.mixuppages, part.modified = true → part.Contains x →
          ∃ page ∈ plan.dlpages, page.Contains x :=
  ⟨⟨by decide, by decide, by decide, by decide⟩,
    dlpages_cover_uploads _ (by decide) 2 2 (by decide) (by decide) (by decide)⟩

end Plan

/-! ## The download list -/

/-- Two short unmodified runs around a short modified one are each pushed to `download_pages`,
and `compress_fdpage_list_ignore_modify`, which sees only their loaded flag (cleared by the
first compress), stretches the first over the gap between them: `dlpages` then covers the
modified byte 1. -/
theorem dlpages_covers_modified (minMultipartSize maxPartsize : Int)
    (minGe : 2 ≤ minMultipartSize) :
    let pl : PageList := ⟨[⟨0, 1, true, false⟩, ⟨1, 1, true, true⟩, ⟨2, 1, true, false⟩], false⟩
    flagsAt pl.pages 1 = some (true, true) ∧
      (pl.getPageListsForMultipartUpload minMultipartSize maxPartsize).2.dlpages =
        [⟨0, 3, false, false⟩] := by
  intro pl
  have short : (1 : Int) < minMultipartSize := by omega
  have noSplit : ¬ (minMultipartSize - 1 + minMultipartSize < 1) := by omega
  have modifiedPages : compressFdpageListIgnoreLoad pl.compress.pages false =
      [⟨0, 1, false, false⟩, ⟨1, 1, false, true⟩, ⟨2, 1, false, false⟩] := by decide
  have walked : (walkModifiedPages minMultipartSize
      [⟨0, 1, false, false⟩, ⟨1, 1, false, true⟩, ⟨2, 1, false, false⟩]).downloadPages =
      [⟨0, 1, false, false⟩, ⟨2, 1, false, false⟩] := by
    simp [walkModifiedPages, multipartStep, mergePage, short, noSplit]
  have joined : compressFdpageListIgnoreModify [⟨0, 1, false, false⟩, ⟨2, 1, false, false⟩] false =
      [⟨0, 3, false, false⟩] := by decide
  refine ⟨by decide, ?_⟩
  show parsePartsizeFdpageList (compressFdpageListIgnoreModify (walkModifiedPages minMultipartSize
    (compressFdpageListIgnoreLoad pl.compress.pages false)).downloadPages false) maxPartsize = _
  rw [modifiedPages, walked, joined]
  rfl

theorem dlpages_covers_modified_five_mib :
    let pl : PageList := ⟨[⟨0, 1, true, false⟩, ⟨1, 1, true, true⟩, ⟨2, 1, true, false⟩], false⟩
    2 ≤ (5242880 : Int) ∧ flagsAt pl.pages 1 = some (true, true) ∧
      (pl.getPageListsForMultipartUpload 5242880 10485760).2.dlpages = [⟨0, 3, false, false⟩] :=
  ⟨by decide, dlpages_covers_modified 5242880 10485760 (by decide)⟩

end S3fs
