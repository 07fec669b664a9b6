import Mathlib

/-!
# Pages and page lists

The page-state engine of the cache (fdcache_page.cpp) describes each open file by a list of
`fdpage` records, each a byte range with a `loaded` and a `modified` flag. This module holds the
data model: the page record, the `page_status` argument of `SetPageLoadedStatus`, the `PageList`
state, `Size()`, and the vocabulary the later modules state their results in:

* `Contiguous start pages`: pages of positive length, each starting where the previous one ends;
* `WellFormed pages`: a contiguous list from 0, or the single empty page of an empty file;
* `flagsAt pages x`: the flags of the page holding byte `x` (the byte map of the list);
* `Compressed pages`: no two neighbours carry the same flags.

Offsets and lengths are `off_t`; they are modelled as `Int`, which is exact as long as no sum
leaves the signed 64-bit range. Where the code's arithmetic can leave it, `offT` gives the value
the wrapped `off_t` holds, and `Request start size` is a request whose end `start + size` stays
an `off_t`, the domain on which the model's unbounded sums are the code's.
-/

namespace S3fs

/-- `struct fdpage`: the byte range `offset ≤ x < offset + bytes` with its two flags. -/
structure FdPage where
  offset : Int
  bytes : Int
  loaded : Bool
  modified : Bool
deriving DecidableEq, Repr

namespace FdPage

/-- Modelled from the spec: `fdpage::next()` (declared in fdcache_page.h, which is not among the
sources) is the offset just past the page, `offset + length`. -/
def next (page : FdPage) : Int :=
  page.offset + page.bytes

/-- Modelled from the spec: `fdpage::end()` (fdcache_page.h) is the offset of the page's last
byte, `offset + bytes - 1`, and 0 for a page of no bytes. -/
def endOffset (page : FdPage) : Int :=
  if 0 < page.bytes then page.offset + page.bytes - 1 else 0

/-- The two flags of a page, compared together by `Compress`. -/
def flags (page : FdPage) : Bool × Bool :=
  (page.loaded, page.modified)

/-- Byte `x` lies in the page. -/
def Contains (page : FdPage) (x : Int) : Prop :=
  page.offset ≤ x ∧ x < page.next

instance (page : FdPage) (x : Int) : Decidable (page.Contains x) :=
  inferInstanceAs (Decidable (_ ∧ _))

@[simp]
theorem next_mk (offset bytes : Int) (loaded modified : Bool) :
    (FdPage.mk offset bytes loaded modified).next = offset + bytes := rfl

@[simp]
theorem flags_mk (offset bytes : Int) (loaded modified : Bool) :
    (FdPage.mk offset bytes loaded modified).flags = (loaded, modified) := rfl

theorem endOffset_lt_iff {page : FdPage} (positive : 0 < page.bytes) (start : Int) :
    page.endOffset < start ↔ page.next ≤ start := by
  simp only [endOffset, positive, if_true, next]
  omega

theorem flags_eq_iff {page other : FdPage} :
    page.flags = other.flags ↔
      page.loaded = other.loaded ∧ page.modified = other.modified := by
  simp [flags]

end FdPage

/-- `PageList::page_status`, the flags `SetPageLoadedStatus` writes. -/
inductive PageStatus where
  | notLoadModified
  | loaded
  | modified
  | loadModified
deriving DecidableEq, Repr

namespace PageStatus

/-- `is_loaded` as `SetPageLoadedStatus` derives it from the status. -/
def isLoaded : PageStatus → Bool
  | loadModified => true
  | loaded => true
  | _ => false

/-- `is_modified` as `SetPageLoadedStatus` derives it from the status. -/
def isModified : PageStatus → Bool
  | loadModified => true
  | modified => true
  | _ => false

end PageStatus

/-- `class PageList`: the pages of one cache file and the `is_shrink` flag recording a
truncation that the next upload has to carry to the object store. -/
structure PageList where
  pages : List FdPage
  isShrink : Bool
deriving DecidableEq, Repr

namespace PageList

/-- `PageList::Size`: the end of the last page, 0 for an empty list. -/
def size (pl : PageList) : Int :=
  match pl.pages.getLast? with
  | none => 0
  | some last => last.next

/-- `PageList::IsModified`: a pending truncation or some modified page. -/
def isModified (pl : PageList) : Bool :=
  pl.isShrink || pl.pages.any (·.modified)

/-- `PageList::BytesModified`: the total length of the modified pages. -/
def bytesModified (pl : PageList) : Int :=
  (pl.pages.filter (·.modified)).foldl (fun total page => total + page.bytes) 0

end PageList

/-! ## Contiguous page lists -/

/-- Where a list of pages laid one after the other from `start` ends: the end of its last page,
or `start` itself when there is none. -/
def endFrom (start : Int) : List FdPage → Int
  | [] => start
  | page :: rest => endFrom page.next rest

/-- `Contiguous start pages`: every page has positive length and starts where the previous one
(or `start`, for the first) ends. -/
def Contiguous : Int → List FdPage → Prop
  | _, [] => True
  | start, page :: rest =>
      page.offset = start ∧ 0 < page.bytes ∧ Contiguous page.next rest

instance decidableContiguous : (start : Int) → (pages : List FdPage) →
    Decidable (Contiguous start pages)
  | _, [] => isTrue trivial
  | _, page :: rest =>
      haveI := decidableContiguous page.next rest
      inferInstanceAs (Decidable (_ ∧ _ ∧ _))

/-- The page list of an empty file: the single page `(0, 0)`. -/
def IsEmptyFilePage : List FdPage → Prop
  | [page] => page.offset = 0 ∧ page.bytes = 0
  | _ => False

instance : (pages : List FdPage) → Decidable (IsEmptyFilePage pages)
  | [] => isFalse id
  | [page] => inferInstanceAs (Decidable (page.offset = 0 ∧ page.bytes = 0))
  | _ :: _ :: _ => isFalse id

/-- Invariants I1, I2 and I4 of the spec: the pages partition `[0, Size())`; the only page of
length 0 allowed is the single page of an empty file. The empty list is contiguous. -/
def WellFormed (pages : List FdPage) : Prop :=
  Contiguous 0 pages ∨ IsEmptyFilePage pages

instance (pages : List FdPage) : Decidable (WellFormed pages) :=
  inferInstanceAs (Decidable (_ ∨ _))

/-- The byte map of a page list: the flags of the first page holding byte `x`. -/
def flagsAt : List FdPage → Int → Option (Bool × Bool)
  | [], _ => none
  | page :: rest, x => if page.Contains x then some page.flags else flagsAt rest x

/-- Invariant I3 of the spec: no two neighbouring pages carry the same flags. -/
def Compressed (pages : List FdPage) : Prop :=
  pages.Chain' fun page other => page.flags ≠ other.flags

instance (pages : List FdPage) : Decidable (Compressed pages) :=
  inferInstanceAs (Decidable (List.Chain' _ _))

@[simp]
theorem endFrom_nil (start : Int) : endFrom start [] = start := rfl

@[simp]
theorem endFrom_cons (start : Int) (page : FdPage) (rest : List FdPage) :
    endFrom start (page :: rest) = endFrom page.next rest := rfl

@[simp]
theorem contiguous_nil (start : Int) : Contiguous start [] := trivial

@[simp]
theorem contiguous_cons (start : Int) (page : FdPage) (rest : List FdPage) :
    Contiguous start (page :: rest) ↔
      page.offset = start ∧ 0 < page.bytes ∧ Contiguous page.next rest := Iff.rfl

@[simp]
theorem flagsAt_nil (x : Int) : flagsAt [] x = none := rfl

theorem flagsAt_cons (page : FdPage) (rest : List FdPage) (x : Int) :
    flagsAt (page :: rest) x =
      if page.Contains x then some page.flags else flagsAt rest x := rfl

theorem flagsAt_cons_of_contains {page : FdPage} (rest : List FdPage) {x : Int}
    (inside : page.Contains x) : flagsAt (page :: rest) x = some page.flags := by
  rw [flagsAt_cons, if_pos inside]

theorem flagsAt_cons_of_next_le {page : FdPage} (rest : List FdPage) {x : Int}
    (after : page.next ≤ x) : flagsAt (page :: rest) x = flagsAt rest x := by
  rw [flagsAt_cons, if_neg fun inside => by simp only [FdPage.Contains] at inside; omega]

theorem flagsAt_append (first second : List FdPage) (x : Int) :
    flagsAt (first ++ second) x = (flagsAt first x).or (flagsAt second x) := by
  induction first with
  | nil => rfl
  | cons page rest inductionHypothesis =>
      simp only [List.cons_append, flagsAt_cons, inductionHypothesis]
      split <;> rfl

theorem endFrom_append (start : Int) (first second : List FdPage) :
    endFrom start (first ++ second) = endFrom (endFrom start first) second := by
  induction first generalizing start with
  | nil => rfl
  | cons page rest inductionHypothesis => exact inductionHypothesis page.next

theorem contiguous_append {start : Int} {first second : List FdPage} :
    Contiguous start (first ++ second) ↔
      Contiguous start first ∧ Contiguous (endFrom start first) second := by
  induction first generalizing start with
  | nil => simp
  | cons page rest inductionHypothesis =>
      simp only [List.cons_append, contiguous_cons, inductionHypothesis, endFrom_cons]
      tauto

/-- A contiguous list ends no earlier than it starts. -/
theorem Contiguous.start_le_end {start : Int} {pages : List FdPage}
    (contiguous : Contiguous start pages) : start ≤ endFrom start pages := by
  induction pages generalizing start with
  | nil => exact Int.le_refl start
  | cons page rest inductionHypothesis =>
      obtain ⟨atStart, positive, tail⟩ := contiguous
      have := inductionHypothesis tail
      simp only [endFrom_cons, FdPage.next] at this ⊢
      omega

/-- The first page of a contiguous list holds its start. -/
theorem Contiguous.head_contains {start : Int} {page : FdPage} {rest : List FdPage}
    (contiguous : Contiguous start (page :: rest)) : page.Contains start := by
  obtain ⟨atStart, positive, -⟩ := contiguous
  simp only [FdPage.Contains, FdPage.next]
  omega

/-- Byte `x` lies in one of `ranges`. -/
def Covers (ranges : List FdPage) (x : Int) : Prop :=
  ∃ range ∈ ranges, range.Contains x

theorem covers_append (first second : List FdPage) (x : Int) :
    Covers (first ++ second) x ↔ Covers first x ∨ Covers second x := by
  simp only [Covers, List.mem_append, or_and_right, exists_or]

theorem covers_singleton (range : FdPage) (x : Int) : Covers [range] x ↔ range.Contains x := by
  simp [Covers]

theorem contiguous_concat_iff {start : Int} {pages : List FdPage} {page : FdPage} :
    Contiguous start (pages ++ [page]) ↔
      Contiguous start pages ∧ page.offset = endFrom start pages ∧ 0 < page.bytes := by
  rw [contiguous_append, contiguous_cons]
  simp only [contiguous_nil, and_true]

theorem endFrom_concat (start : Int) (pages : List FdPage) (page : FdPage) :
    endFrom start (pages ++ [page]) = page.next := by
  rw [endFrom_append]
  rfl

/-- Every page of a contiguous list holds a byte, so the list is no longer than its range. -/
theorem Contiguous.length_le {start : Int} {pages : List FdPage}
    (contiguous : Contiguous start pages) : start + pages.length ≤ endFrom start pages := by
  induction pages generalizing start with
  | nil => simp
  | cons page rest inductionHypothesis =>
      obtain ⟨atStart, positive, tail⟩ := contiguous
      have := inductionHypothesis tail
      simp only [List.length_cons, endFrom_cons, FdPage.next] at this ⊢
      omega

/-- Every page of a contiguous list lies between its start and its end. -/
theorem Contiguous.mem_bounds {start : Int} {pages : List FdPage}
    (contiguous : Contiguous start pages) {page : FdPage} (member : page ∈ pages) :
    start ≤ page.offset ∧ 0 < page.bytes ∧ page.next ≤ endFrom start pages := by
  induction pages generalizing start with
  | nil => cases member
  | cons first rest inductionHypothesis =>
      obtain ⟨atStart, positive, tail⟩ := contiguous
      have restBound := tail.start_le_end
      rcases List.mem_cons.mp member with rfl | later
      · simp only [FdPage.next] at restBound
        exact ⟨by omega, positive, by simp only [endFrom_cons, FdPage.next]; omega⟩
      · obtain ⟨low, pos, high⟩ := inductionHypothesis tail later
        simp only [FdPage.next] at low
        exact ⟨by omega, pos, high⟩

/-- Outside `[start, end)` a contiguous list holds no byte. -/
theorem Contiguous.flagsAt_eq_none {start : Int} {pages : List FdPage}
    (contiguous : Contiguous start pages) {x : Int}
    (outside : x < start ∨ endFrom start pages ≤ x) : flagsAt pages x = none := by
  induction pages generalizing start with
  | nil => rfl
  | cons page rest inductionHypothesis =>
      obtain ⟨atStart, positive, tail⟩ := contiguous
      have restBound := tail.start_le_end
      simp only [endFrom_cons] at outside
      rw [flagsAt_cons, if_neg, inductionHypothesis tail]
      · simp only [FdPage.next] at outside ⊢
        omega
      · simp only [FdPage.Contains, FdPage.next] at outside restBound ⊢
        omega

/-- In a contiguous list the page holding `x` is the one the byte map reads. -/
theorem Contiguous.flagsAt_of_mem {start : Int} {pages : List FdPage}
    (contiguous : Contiguous start pages) {page : FdPage} (member : page ∈ pages)
    {x : Int} (inside : page.Contains x) : flagsAt pages x = some page.flags := by
  induction pages generalizing start with
  | nil => cases member
  | cons first rest inductionHypothesis =>
      obtain ⟨atStart, positive, tail⟩ := contiguous
      rcases List.mem_cons.mp member with rfl | later
      · simp [flagsAt_cons, inside]
      · have bounds := tail.mem_bounds later
        rw [flagsAt_cons, if_neg, inductionHypothesis tail later]
        simp only [FdPage.Contains, FdPage.next] at inside bounds ⊢
        omega

/-- Inside `[start, end)` a contiguous list holds every byte. -/
theorem Contiguous.exists_mem {start : Int} {pages : List FdPage}
    (contiguous : Contiguous start pages) {x : Int}
    (inside : start ≤ x ∧ x < endFrom start pages) :
    ∃ page ∈ pages, page.Contains x := by
  induction pages generalizing start with
  | nil => simp at inside; omega
  | cons page rest inductionHypothesis =>
      obtain ⟨atStart, positive, tail⟩ := contiguous
      by_cases here : page.Contains x
      · exact ⟨page, List.mem_cons_self _ _, here⟩
      · simp only [FdPage.Contains, FdPage.next, endFrom_cons] at here inside
        obtain ⟨other, member, holds⟩ :=
          inductionHypothesis tail ⟨by simp only [FdPage.next]; omega, inside.2⟩
        exact ⟨other, List.mem_cons_of_mem _ member, holds⟩

/-- A byte the byte map knows lies in a page carrying those flags. -/
theorem exists_mem_of_flagsAt_eq_some {pages : List FdPage} {x : Int} {flags : Bool × Bool}
    (known : flagsAt pages x = some flags) :
    ∃ page ∈ pages, page.Contains x ∧ page.flags = flags := by
  induction pages with
  | nil => cases known
  | cons page rest inductionHypothesis =>
      rw [flagsAt_cons] at known
      split at known
      · exact ⟨page, List.mem_cons_self _ _, ‹_›, Option.some.inj known⟩
      · obtain ⟨other, member, holds⟩ := inductionHypothesis known
        exact ⟨other, List.mem_cons_of_mem _ member, holds⟩

theorem size_eq_endFrom (pl : PageList) : pl.size = endFrom 0 pl.pages := by
  rcases pl with ⟨pages, isShrink⟩
  simp only [PageList.size]
  induction pages using List.reverseRecOn with
  | nil => rfl
  | append_singleton initial last _ =>
      simp [endFrom_append]

/-! ## Well-formed lists -/

theorem WellFormed.contiguous_of_size_ne_zero {pl : PageList} (wellFormed : WellFormed pl.pages)
    (nonempty : pl.size ≠ 0) : Contiguous 0 pl.pages := by
  rcases wellFormed with contiguous | emptyFile
  · exact contiguous
  · rcases pl with ⟨pages, isShrink⟩
    match pages, emptyFile with
    | [page], ⟨atZero, empty⟩ =>
        exact absurd (by simp [PageList.size, FdPage.next, atZero, empty]) nonempty

theorem WellFormed.size_nonneg {pl : PageList} (wellFormed : WellFormed pl.pages) :
    0 ≤ pl.size := by
  rw [size_eq_endFrom]
  rcases wellFormed with contiguous | emptyFile
  · exact contiguous.start_le_end
  · rcases pl with ⟨pages, isShrink⟩
    match pages, emptyFile with
    | [page], ⟨atZero, empty⟩ => simp [FdPage.next, atZero, empty]

/-- A well-formed list holds exactly the bytes of `[0, Size())`. -/
theorem WellFormed.flagsAt_eq_none {pl : PageList} (wellFormed : WellFormed pl.pages) {x : Int}
    (outside : x < 0 ∨ pl.size ≤ x) : flagsAt pl.pages x = none := by
  rw [size_eq_endFrom] at outside
  rcases wellFormed with contiguous | emptyFile
  · exact contiguous.flagsAt_eq_none outside
  · rcases pl with ⟨pages, isShrink⟩
    match pages, emptyFile with
    | [page], ⟨atZero, empty⟩ =>
        simp only [flagsAt_cons, flagsAt_nil, FdPage.Contains, FdPage.next, atZero, empty]
        split_ifs <;> first | rfl | omega

/-! ## `off_t` arithmetic -/

/-- The value a signed 64-bit `off_t` holds after a computation whose exact result is `x`, as
two's-complement arithmetic wraps it. -/
def offT (x : Int) : Int :=
  (x + 2 ^ 63) % 2 ^ 64 - 2 ^ 63

/-- A result inside the `off_t` range does not wrap. -/
theorem offT_of_lt {x : Int} (low : -2 ^ 63 ≤ x) (high : x < 2 ^ 63) : offT x = x := by
  unfold offT
  omega

/-- A request of `size` bytes from `start`, neither negative, whose end `start + size` is still
an `off_t`: on these the model's unbounded `start + size` is the code's. -/
structure Request (start size : Int) : Prop where
  start_nonneg : 0 ≤ start
  size_nonneg : 0 ≤ size
  fits : start + size < 2 ^ 63

instance (start size : Int) : Decidable (Request start size) :=
  decidable_of_iff (0 ≤ start ∧ 0 ≤ size ∧ start + size < 2 ^ 63)
    ⟨fun ⟨low, nonneg, fits⟩ => ⟨low, nonneg, fits⟩, fun ⟨low, nonneg, fits⟩ => ⟨low, nonneg, fits⟩⟩

end S3fs
