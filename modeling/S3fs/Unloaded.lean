import Mathlib
import S3fs.Compress

/-!
# Unloaded ranges

Three queries over a request of `size` bytes from `start`, where a `size` of 0 asks for every
byte from `start` to `Size()`: `IsPageLoaded` tells whether every requested byte is loaded,
`GetTotalUnloadedPageSize` counts the requested bytes that are neither loaded nor modified, and
`GetUnloadedPages` lists those bytes as ranges, joining a range to the one before it when the two
touch.

Each loop runs over the pages from a position on and takes one page per turn: it skips the page,
stops, or takes the part of the page inside the request. On a well-formed list of positive size,
for a request from `start ≥ 0` of `size ≥ 0` bytes whose end `start + size` is an `off_t`
(`unloaded_queries`):

* the ranges of `GetUnloadedPages` are sorted, neither overlap nor touch, and cover exactly the
  requested bytes that are neither loaded nor modified;
* `GetTotalUnloadedPageSize` with no limit is the number of those bytes and the total length of
  those ranges;
* `IsPageLoaded` holds exactly when every requested byte is loaded.

`FindUnloadedPage` returns the first page at or after `start` that is neither loaded nor
modified. On a well-formed list of positive size it returns false exactly when no such byte lies
from `start` on, and on a compressed list the page it returns is a whole run of such bytes
(`findUnloadedPage_spec`).
-/

namespace S3fs

namespace PageList

/-! ## The queries -/

/-- The loop of `PageList::IsPageLoaded`: a page ending before `start` is skipped, an unloaded
page fails, and a page reaching `start + size` ends the loop unless `size` is 0. -/
def isPageLoadedFrom (start size : Int) : List FdPage → Bool
  | [] => true
  | page :: rest =>
      if page.endOffset < start then isPageLoadedFrom start size rest
      else if !page.loaded then false
      else if size ≠ 0 ∧ start + size ≤ page.next then true
      else isPageLoadedFrom start size rest

/-- `PageList::IsPageLoaded`. -/
def isPageLoaded (pl : PageList) (start size : Int) : Bool :=
  isPageLoadedFrom start size pl.pages

/-- The size `GetTotalUnloadedPageSize` and `GetUnloadedPages` work with: a `size` of 0 asks for
the rest of the list from `start`. -/
def sizeToEnd (pl : PageList) (start size : Int) : Int :=
  if size = 0 ∧ start < pl.size then pl.size - start else size

/-- The loop of `PageList::GetTotalUnloadedPageSize` up to `next`, the end of the request: the
part of each page that is neither loaded nor modified and lies in `[start, next)`, counted when
it is shorter than `limit_size` or `limit_size` is 0. -/
def totalUnloadedFrom (start next limitSize : Int) : List FdPage → Int
  | [] => 0
  | page :: rest =>
      if page.next ≤ start then totalUnloadedFrom start next limitSize rest
      else if next ≤ page.offset then 0
      else if page.loaded || page.modified then totalUnloadedFrom start next limitSize rest
      else
        let tmpsize :=
          if page.offset ≤ start then
            if page.next ≤ next then page.next - start else next - start
          else if page.next ≤ next then page.next - page.offset else next - page.offset
        (if limitSize = 0 ∨ tmpsize < limitSize then tmpsize else 0) +
          totalUnloadedFrom start next limitSize rest

/-- `PageList::GetTotalUnloadedPageSize`. -/
def getTotalUnloadedPageSize (pl : PageList) (start size limitSize : Int) : Int :=
  totalUnloadedFrom start (start + pl.sizeToEnd start size) limitSize pl.pages

/-- The append of `GetUnloadedPages`: the range `[pageStart, pageStart + pageSize)` joins the
last range of `unloaded_list` when that one ends where it starts. -/
def pushUnloaded (unloadedList : List FdPage) (pageStart pageSize : Int) : List FdPage :=
  match unloadedList.getLast? with
  | some last =>
      if last.next = pageStart then
        unloadedList.dropLast ++ [{ last with bytes := last.bytes + pageSize }]
      else unloadedList ++ [⟨pageStart, pageSize, false, false⟩]
  | none => unloadedList ++ [⟨pageStart, pageSize, false, false⟩]

/-- The loop of `PageList::GetUnloadedPages` up to `next`, the end of the request. -/
def unloadedFrom (start next : Int) (unloadedList : List FdPage) : List FdPage → List FdPage
  | [] => unloadedList
  | page :: rest =>
      if page.next ≤ start then unloadedFrom start next unloadedList rest
      else if next ≤ page.offset then unloadedList
      else if page.loaded || page.modified then unloadedFrom start next unloadedList rest
      else
        let pageStart := max page.offset start
        let pageNext := min page.next next
        unloadedFrom start next (pushUnloaded unloadedList pageStart (pageNext - pageStart)) rest

/-- `PageList::GetUnloadedPages`: the number of ranges in `unloaded_list`, and the list. -/
def getUnloadedPages (pl : PageList) (unloadedList : List FdPage) (start size : Int) :
    Nat × List FdPage :=
  let result := unloadedFrom start (start + pl.sizeToEnd start size) unloadedList pl.pages
  (result.length, result)

/-- The loop of `PageList::FindUnloadedPage`: the first page that does not end before `start`
and is neither loaded nor modified (modified areas are not loaded) gives `resstart` and
`ressize`. -/
def findUnloadedFrom (start : Int) : List FdPage → Option (Int × Int)
  | [] => none
  | page :: rest =>
      if start ≤ page.endOffset then
        if !page.loaded && !page.modified then some (page.offset, page.bytes)
        else findUnloadedFrom start rest
      else findUnloadedFrom start rest

/-- `PageList::FindUnloadedPage`: `resstart` and `ressize`, or none when it returns false. -/
def findUnloadedPage (pl : PageList) (start : Int) : Option (Int × Int) :=
  findUnloadedFrom start pl.pages

/-! ## What a request asks for -/

/-- The bytes a request of `size` bytes from `start` asks for: those of `[start, start + size)`,
or of `[start, Size())` when `size` is 0, that lie in the list. -/
def InRequest (pl : PageList) (start size x : Int) : Prop :=
  0 ≤ x ∧ x < pl.size ∧ start ≤ x ∧ (size = 0 ∨ x < start + size)

instance (pl : PageList) (start size x : Int) : Decidable (pl.InRequest start size x) :=
  inferInstanceAs (Decidable (_ ∧ _))

end PageList

/-- The number of bytes of `[first, last)` that satisfy `p`. -/
def countBytes (p : Int → Prop) [DecidablePred p] (first last : Int) : Nat :=
  (List.range (last - first).toNat).countP fun i : Nat => p (first + i)

/-- Byte `x` lies in `[start, next)` and the list holds it neither loaded nor modified. -/
def UnloadedIn (start next : Int) (pages : List FdPage) (x : Int) : Prop :=
  start ≤ x ∧ x < next ∧ flagsAt pages x = some (false, false)

instance (start next : Int) (pages : List FdPage) : DecidablePred (UnloadedIn start next pages) :=
  fun _ => inferInstanceAs (Decidable (_ ∧ _))

/-! ## Counting bytes -/

section Count

variable {p : Int → Prop} [DecidablePred p]

theorem countBytes_split {first mid last : Int} (low : first ≤ mid) (high : mid ≤ last) :
    countBytes p first last = countBytes p first mid + countBytes p mid last := by
  have length : (last - first).toNat = (mid - first).toNat + (last - mid).toNat := by omega
  rw [countBytes, length, List.range_add, List.countP_append, List.countP_map]
  congr 1
  refine List.countP_congr fun i _ => ?_
  have shift : first + (((mid - first).toNat + i : Nat) : Int) = mid + (i : Int) := by omega
  simp only [Function.comp_apply, shift]

theorem countBytes_eq_zero {first last : Int} (outside : ∀ x, first ≤ x → x < last → ¬ p x) :
    countBytes p first last = 0 := by
  refine List.countP_eq_zero.mpr fun i member => ?_
  rw [List.mem_range] at member
  simpa using outside (first + i) (by omega) (by omega)

theorem countBytes_eq_length {first last : Int} (inside : ∀ x, first ≤ x → x < last → p x) :
    countBytes p first last = (last - first).toNat := by
  rw [countBytes, List.countP_eq_length.mpr, List.length_range]
  intro i member
  rw [List.mem_range] at member
  simpa using inside (first + i) (by omega) (by omega)

theorem countBytes_congr {q : Int → Prop} [DecidablePred q] {first last : Int}
    (same : ∀ x, first ≤ x → x < last → (p x ↔ q x)) :
    countBytes p first last = countBytes q first last := by
  refine List.countP_congr fun i member => ?_
  rw [List.mem_range] at member
  simpa using same (first + i) (by omega) (by omega)

/-- The bytes of `[lo, hi)` inside `[first, last)`: as many as the two ranges share. -/
theorem countBytes_interval (first last : Int) {lo hi : Int} (ordered : lo ≤ hi) :
    countBytes (fun x => first ≤ x ∧ x < last) lo hi = (min hi last - max lo first).toNat := by
  by_cases meet : max lo first ≤ min hi last
  · rw [countBytes_split (show lo ≤ max lo first by omega) (show max lo first ≤ hi by omega),
      countBytes_split meet (show min hi last ≤ hi by omega),
      countBytes_eq_zero fun x _ high inside => by omega,
      countBytes_eq_length fun x low high => by omega,
      countBytes_eq_zero fun x low _ inside => by omega]
    omega
  · rw [countBytes_eq_zero fun x _ _ inside => by omega]
    omega

end Count

/-- The unloaded bytes of `[start, next)` in the first page of a list: the part of the page inside
the range when the page is neither loaded nor modified, none otherwise. -/
theorem countBytes_unloadedIn_page (start next : Int) (page : FdPage) (rest : List FdPage) :
    countBytes (UnloadedIn start next (page :: rest)) page.offset page.next =
      if page.loaded || page.modified then 0
      else (min page.next next - max page.offset start).toNat := by
  have here : ∀ x, page.offset ≤ x → x < page.next →
      flagsAt (page :: rest) x = some (page.loaded, page.modified) :=
    fun x low high => flagsAt_cons_of_contains rest ⟨low, high⟩
  by_cases ordered : page.offset ≤ page.next
  · cases flags : page.loaded || page.modified
    · obtain ⟨unloaded, unmodified⟩ : page.loaded = false ∧ page.modified = false := by
        simpa using flags
      rw [if_neg (by decide), ← countBytes_interval start next ordered]
      refine countBytes_congr fun x low high => ?_
      simp only [UnloadedIn, here x low high, unloaded, unmodified, and_true]
    · rw [if_pos rfl]
      refine countBytes_eq_zero fun x low high ⟨_, _, known⟩ => ?_
      rw [here x low high, Option.some.injEq, Prod.mk.injEq] at known
      rw [known.1, known.2] at flags
      exact absurd flags (by decide)
  · rw [countBytes_eq_zero fun x low high _ => by omega]
    split <;> omega

/-! ## `IsPageLoaded` -/

section Loaded

variable {start size : Int} (sizeNonneg : 0 ≤ size)
include sizeNonneg

/-- From a position the request has not passed yet, the loop of `IsPageLoaded` succeeds exactly
when every requested byte from there on is loaded. -/
theorem isPageLoadedFrom_iff :
    ∀ {pos : Int} {pages : List FdPage}, Contiguous pos pages → (size = 0 ∨ pos < start + size) →
      (PageList.isPageLoadedFrom start size pages = true ↔
        ∀ x, pos ≤ x → x < endFrom pos pages → start ≤ x → (size = 0 ∨ x < start + size) →
          ∃ modified, flagsAt pages x = some (true, modified))
  | pos, [], _, _ => ⟨fun _ x low high => absurd high (by rw [endFrom_nil]; omega), fun _ => rfl⟩
  | pos, page :: rest, ⟨atStart, positive, tail⟩, pending => by
      have restIff := fun pending => isPageLoadedFrom_iff tail pending
      have later : ∀ x, page.next ≤ x →
          flagsAt (page :: rest) x = flagsAt rest x := fun x => flagsAt_cons_of_next_le rest
      rw [PageList.isPageLoadedFrom, endFrom_cons]
      by_cases before : page.next ≤ start
      · rw [if_pos ((FdPage.endOffset_lt_iff positive start).mpr before),
          restIff (by omega)]
        refine ⟨fun loaded x low high requested bounded => ?_,
          fun loaded x low high requested bounded => ?_⟩
        · rw [later x (by omega)]
          exact loaded x (by omega) high requested bounded
        · rw [← later x low]
          exact loaded x (by simp only [FdPage.next] at low; omega) high requested bounded
      · rw [if_neg (mt (FdPage.endOffset_lt_iff positive start).mp before)]
        have first : page.Contains (max pos start) := by
          simp only [FdPage.Contains, FdPage.next] at before ⊢
          omega
        have firstInside : max pos start < endFrom page.next rest :=
          Int.lt_of_lt_of_le first.2 tail.start_le_end
        cases loaded : page.loaded
        · refine ⟨fun failed => Bool.noConfusion failed, fun all => ?_⟩
          obtain ⟨modified, flags⟩ :=
            all (max pos start) (by omega) firstInside (by omega) (by omega)
          rw [flagsAt_cons_of_contains rest first] at flags
          simp [FdPage.flags, loaded] at flags
        · simp only [Bool.not_true, Bool.false_eq_true, if_false]
          have loadedHere : ∀ x, page.Contains x → ∃ modified,
              flagsAt (page :: rest) x = some (true, modified) := fun x inside =>
            ⟨page.modified, by rw [flagsAt_cons_of_contains rest inside, FdPage.flags, loaded]⟩
          by_cases stop : size ≠ 0 ∧ start + size ≤ page.next
          · rw [if_pos stop]
            exact ⟨fun _ x low _ _ bounded => loadedHere x ⟨by omega, by omega⟩, fun _ => rfl⟩
          · rw [if_neg stop, restIff (by omega)]
            refine ⟨fun loadedRest x low high requested bounded => ?_,
              fun all x low high requested bounded => ?_⟩
            · by_cases inPage : x < page.next
              · exact loadedHere x ⟨by omega, inPage⟩
              · rw [later x (by omega)]
                exact loadedRest x (by omega) high requested bounded
            · rw [← later x low]
              exact all x (by simp only [FdPage.next] at low; omega) high requested bounded

end Loaded

/-! ## `GetTotalUnloadedPageSize` -/

/-- With no limit, the loop of `GetTotalUnloadedPageSize` over a contiguous list counts the bytes
of `[start, next)` that it holds neither loaded nor modified. -/
theorem totalUnloadedFrom_eq_countBytes {start next : Int} (ordered : start ≤ next) :
    ∀ {pos : Int} {pages : List FdPage}, Contiguous pos pages →
      PageList.totalUnloadedFrom start next 0 pages =
        countBytes (UnloadedIn start next pages) pos (endFrom pos pages)
  | pos, [], _ => by simp [PageList.totalUnloadedFrom, countBytes]
  | _, page :: rest, ⟨rfl, positive, tail⟩ => by
      have restTotal := totalUnloadedFrom_eq_countBytes ordered tail
      have restCount : countBytes (UnloadedIn start next (page :: rest)) page.next
          (endFrom page.next rest) =
            countBytes (UnloadedIn start next rest) page.next (endFrom page.next rest) :=
        countBytes_congr fun x low _ => by simp only [UnloadedIn, flagsAt_cons_of_next_le rest low]
      rw [PageList.totalUnloadedFrom, endFrom_cons,
        countBytes_split (show page.offset ≤ page.next by simp only [FdPage.next]; omega)
          tail.start_le_end, countBytes_unloadedIn_page, restCount, Int.natCast_add, ← restTotal]
      by_cases before : page.next ≤ start
      · rw [if_pos before, show (if page.loaded || page.modified then 0
            else (min page.next next - max page.offset start).toNat) = 0 by split <;> omega]
        simp
      · rw [if_neg before]
        by_cases beyond : next ≤ page.offset
        · have restEmpty : PageList.totalUnloadedFrom start next 0 rest = 0 := by
            rw [restTotal, countBytes_eq_zero fun x low _ ⟨_, below, _⟩ => by
              simp only [FdPage.next] at low; omega]
            rfl
          rw [if_pos beyond, restEmpty, show (if page.loaded || page.modified then 0
            else (min page.next next - max page.offset start).toNat) = 0 by split <;> omega]
          rfl
        · rw [if_neg beyond]
          cases page.loaded || page.modified
          · simp only [Bool.false_eq_true, if_false, true_or, if_true]
            congr 1
            simp only [FdPage.next] at before beyond ⊢
            split_ifs <;> omega
          · simp

/-! ## `GetUnloadedPages` -/

theorem sum_bytes_append (first second : List FdPage) :
    ((first ++ second).map (·.bytes)).sum =
      (first.map (·.bytes)).sum + (second.map (·.bytes)).sum := by
  induction first with
  | nil => simp
  | cons range rest inductionHypothesis =>
      simp only [List.cons_append, List.map_cons, List.sum_cons, inductionHypothesis]
      omega

/-- The ranges `GetUnloadedPages` has built before `pos`: sorted, neither overlapping nor
touching, each nonempty with both flags clear. -/
structure UnloadedRanges (ranges : List FdPage) (pos : Int) : Prop where
  separated : ranges.Pairwise fun range later => range.next < later.offset
  unloaded : ∀ range ∈ ranges, 0 < range.bytes ∧ range.loaded = false ∧ range.modified = false
  before : ∀ range ∈ ranges, range.next ≤ pos

theorem UnloadedRanges.mono {ranges : List FdPage} {pos later : Int}
    (valid : UnloadedRanges ranges pos) (le : pos ≤ later) : UnloadedRanges ranges later :=
  ⟨valid.separated, valid.unloaded, fun range member => Int.le_trans (valid.before range member) le⟩

/-- A nonempty unloaded range appended past a gap after every range keeps the ranges apart. -/
theorem UnloadedRanges.concat {ranges : List FdPage} {pos : Int} {range : FdPage}
    (valid : UnloadedRanges ranges pos) (gap : ∀ old ∈ ranges, old.next < range.offset)
    (unloaded : 0 < range.bytes ∧ range.loaded = false ∧ range.modified = false) :
    UnloadedRanges (ranges ++ [range]) range.next := by
  refine ⟨List.pairwise_append.mpr ⟨valid.separated, List.pairwise_singleton _ _,
      fun old member other new => List.mem_singleton.mp new ▸ gap old member⟩,
    List.forall_mem_append.mpr ⟨valid.unloaded, List.forall_mem_singleton.mpr unloaded⟩,
    List.forall_mem_append.mpr ⟨fun old member => ?_, List.forall_mem_singleton.mpr
      (Int.le_refl _)⟩⟩
  have := gap old member
  simp only [FdPage.next] at this ⊢
  omega

/-- The first range of a list of unloaded ranges holds the least byte they cover; the byte just
past it is not covered, and the later ranges lie beyond it. -/
theorem UnloadedRanges.cons_bounds {range : FdPage} {rest : List FdPage} {pos : Int}
    (valid : UnloadedRanges (range :: rest) pos) :
    Covers (range :: rest) range.offset ∧ (∀ x, Covers (range :: rest) x → range.offset ≤ x) ∧
      ¬ Covers (range :: rest) range.next ∧ ∀ x, Covers rest x → range.next < x := by
  have later : ∀ other ∈ rest, range.next < other.offset := fun other member =>
    List.rel_of_pairwise_cons valid.separated member
  have positive := (valid.unloaded range (List.mem_cons_self _ _)).1
  have beyond : ∀ x, Covers rest x → range.next < x := fun x ⟨other, member, low, _⟩ =>
    Int.lt_of_lt_of_le (later other member) low
  refine ⟨⟨range, List.mem_cons_self _ _, le_refl _, by simp only [FdPage.next]; omega⟩,
    fun x ⟨other, member, low, _⟩ => ?_, fun ⟨other, member, low, high⟩ => ?_, beyond⟩
  · rcases List.mem_cons.mp member with rfl | member
    · exact low
    · have := later other member
      simp only [FdPage.next] at this
      omega
  · rcases List.mem_cons.mp member with rfl | member
    · exact absurd high (Int.lt_irrefl _)
    · exact absurd (beyond _ ⟨other, member, low, high⟩) (Int.lt_irrefl _)

theorem UnloadedRanges.tail {range : FdPage} {rest : List FdPage} {pos : Int}
    (valid : UnloadedRanges (range :: rest) pos) : UnloadedRanges rest pos :=
  ⟨valid.separated.of_cons, fun r member => valid.unloaded r (List.mem_cons_of_mem _ member),
    fun r member => valid.before r (List.mem_cons_of_mem _ member)⟩

/-- Two lists of unloaded ranges that cover the same bytes start with the same range: both
start at the least byte covered and end at the first byte past it that is not. -/
theorem UnloadedRanges.head_eq {range other : FdPage} {rest others : List FdPage}
    {pos pos' : Int} (valid : UnloadedRanges (range :: rest) pos)
    (valid' : UnloadedRanges (other :: others) pos')
    (same : ∀ x, Covers (range :: rest) x ↔ Covers (other :: others) x) : range = other := by
  obtain ⟨first, low, gap, -⟩ := valid.cons_bounds
  obtain ⟨first', low', gap', -⟩ := valid'.cons_bounds
  obtain ⟨positive, unloaded, unmodified⟩ := valid.unloaded range (List.mem_cons_self _ _)
  obtain ⟨positive', unloaded', unmodified'⟩ := valid'.unloaded other (List.mem_cons_self _ _)
  have start : range.offset = other.offset :=
    Int.le_antisymm (low _ ((same _).mpr first')) (low' _ ((same _).mp first))
  have covered : ∀ {x} {page : FdPage} {pages : List FdPage}, page.Contains x →
      Covers (page :: pages) x := fun inside => ⟨_, List.mem_cons_self _ _, inside⟩
  have next : range.next = other.next := by
    by_contra differ
    rcases Int.lt_or_gt_of_ne differ with shorter | longer
    · exact gap ((same _).mpr (covered ⟨by simp only [FdPage.next] at *; omega, shorter⟩))
    · exact gap' ((same _).mp (covered ⟨by simp only [FdPage.next] at *; omega, longer⟩))
  obtain ⟨offset, bytes, loaded, modified⟩ := range
  obtain ⟨offset', bytes', loaded', modified'⟩ := other
  simp only [FdPage.next] at next start unloaded unloaded' unmodified unmodified'
  simp only [FdPage.mk.injEq]
  exact ⟨start, by omega, unloaded.trans unloaded'.symm, unmodified.trans unmodified'.symm⟩

/-- A byte the later ranges of a list cover lies past its first range, so a list with the same
first range that covers it covers it with its later ranges. -/
theorem UnloadedRanges.covers_rest {range : FdPage} {rest others : List FdPage} {pos : Int}
    (valid : UnloadedRanges (range :: rest) pos)
    (same : ∀ x, Covers (range :: rest) x → Covers (range :: others) x) {x : Int}
    (covered : Covers rest x) : Covers others x := by
  obtain ⟨page, member, inside⟩ :=
    same x ⟨_, List.mem_cons_of_mem _ covered.choose_spec.1, covered.choose_spec.2⟩
  rcases List.mem_cons.mp member with rfl | member
  · exact absurd (Int.lt_trans (valid.cons_bounds.2.2.2 x covered) inside.2) (Int.lt_irrefl _)
  · exact ⟨page, member, inside⟩

/-- Unloaded ranges are fixed by the bytes they cover: two lists of them that cover the same
bytes are equal. -/
theorem UnloadedRanges.eq_of_covers_iff {first second : List FdPage} {pos pos' : Int}
    (valid : UnloadedRanges first pos) (valid' : UnloadedRanges second pos')
    (same : ∀ x, Covers first x ↔ Covers second x) : first = second := by
  induction first generalizing second with
  | nil =>
      cases second with
      | nil => rfl
      | cons other others =>
          obtain ⟨_, member, _⟩ := (same _).mpr valid'.cons_bounds.1
          cases member
  | cons range rest inductionHypothesis =>
      cases second with
      | nil =>
          obtain ⟨_, member, _⟩ := (same _).mp valid.cons_bounds.1
          cases member
      | cons other others =>
          obtain rfl := valid.head_eq valid' same
          rw [inductionHypothesis valid.tail valid'.tail fun x =>
            ⟨valid.covers_rest (fun y => (same y).mp), valid'.covers_rest (fun y => (same y).mpr)⟩]

section Push

variable {ranges : List FdPage} {pos pageStart pageSize : Int}
  (valid : UnloadedRanges ranges pos) (after : pos ≤ pageStart) (positive : 0 < pageSize)
include valid after positive

/-- What the append of `GetUnloadedPages` makes of the ranges: they stay sorted and apart, gain
the bytes `[pageStart, pageStart + pageSize)`, and grow by `pageSize` bytes. -/
theorem pushUnloaded_spec :
    let pushed := PageList.pushUnloaded ranges pageStart pageSize
    UnloadedRanges pushed (pageStart + pageSize) ∧
      (∀ x, Covers pushed x ↔ Covers ranges x ∨ (pageStart ≤ x ∧ x < pageStart + pageSize)) ∧
      (pushed.map (·.bytes)).sum = (ranges.map (·.bytes)).sum + pageSize := by
  have appended : (∀ range ∈ ranges, range.next < pageStart) →
      let pushed := ranges ++ [⟨pageStart, pageSize, false, false⟩]
      UnloadedRanges pushed (pageStart + pageSize) ∧
        (∀ x, Covers pushed x ↔ Covers ranges x ∨ (pageStart ≤ x ∧ x < pageStart + pageSize)) ∧
        (pushed.map (·.bytes)).sum = (ranges.map (·.bytes)).sum + pageSize := fun gap =>
    ⟨valid.concat gap ⟨positive, rfl, rfl⟩, fun x => by rw [covers_append, covers_singleton]; rfl,
      by rw [sum_bytes_append]; simp⟩
  unfold PageList.pushUnloaded
  split
  · next last lastEq =>
      obtain ⟨init, rfl⟩ := List.getLast?_eq_some_iff.mp lastEq
      have lastMember : last ∈ init ++ [last] := List.mem_append_right _ (List.mem_singleton_self _)
      obtain ⟨initSeparated, -, toLast⟩ := List.pairwise_append.mp valid.separated
      have lastBefore := valid.before last lastMember
      obtain ⟨lastPositive, unloaded, unmodified⟩ := valid.unloaded last lastMember
      split
      · next touching =>
          have initValid : UnloadedRanges init pos :=
            ⟨initSeparated,
              fun range member => valid.unloaded range (List.mem_append_left _ member),
              fun range member => valid.before range (List.mem_append_left _ member)⟩
          have mergedContains : ∀ x,
              ({ last with bytes := last.bytes + pageSize } : FdPage).Contains x ↔
              last.Contains x ∨ (pageStart ≤ x ∧ x < pageStart + pageSize) := by
            simp only [FdPage.Contains, FdPage.next] at touching ⊢
            intro x
            constructor <;> intro holds <;> omega
          have mergedValid :=
            @UnloadedRanges.concat init pos { last with bytes := last.bytes + pageSize }
              initValid (fun range member => toLast range member last (List.mem_singleton_self _))
              ⟨show 0 < last.bytes + pageSize by omega, unloaded, unmodified⟩
          rw [List.dropLast_concat]
          refine ⟨mergedValid.mono (by simp only [FdPage.next] at touching ⊢; omega),
            fun x => ?_, ?_⟩
          · rw [covers_append, covers_append, covers_singleton, covers_singleton, mergedContains,
              or_assoc]
          · simp only [sum_bytes_append, List.map_cons, List.map_nil, List.sum_cons, List.sum_nil]
            omega
      · next apart =>
          refine appended (List.forall_mem_append.mpr ⟨fun range member => ?_,
            List.forall_mem_singleton.mpr (by omega)⟩)
          have := toLast range member last (List.mem_singleton_self _)
          simp only [FdPage.next] at this lastBefore ⊢
          omega
  · next none =>
      exact appended fun range member => by
        rw [List.getLast?_eq_none_iff.mp none] at member
        exact absurd member (List.not_mem_nil _)

end Push

/-- The requested unloaded bytes from the first page of a list on: those of the page, when it is
neither loaded nor modified, and those of the rest of the list. -/
theorem unloadedIn_cons_iff (start next : Int) {page : FdPage} {rest : List FdPage}
    (positive : 0 < page.bytes) (restEnd : page.next ≤ endFrom page.next rest) (x : Int) :
    (page.offset ≤ x ∧ x < endFrom page.next rest ∧ UnloadedIn start next (page :: rest) x) ↔
      (page.offset ≤ x ∧ x < page.next ∧ start ≤ x ∧ x < next ∧ page.loaded = false ∧
          page.modified = false) ∨
        (page.next ≤ x ∧ x < endFrom page.next rest ∧ UnloadedIn start next rest x) := by
  have inPage : ∀ {x}, page.offset ≤ x → x < page.next →
      (UnloadedIn start next (page :: rest) x ↔
        start ≤ x ∧ x < next ∧ page.loaded = false ∧ page.modified = false) := by
    intro x low high
    simp only [UnloadedIn, flagsAt_cons_of_contains rest ⟨low, high⟩, FdPage.flags,
      Option.some.injEq, Prod.mk.injEq]
  have afterPage : ∀ {x}, page.next ≤ x →
      (UnloadedIn start next (page :: rest) x ↔ UnloadedIn start next rest x) := by
    intro x low
    simp only [UnloadedIn, flagsAt_cons_of_next_le rest low]
  have pageEnd : page.offset < page.next := by
    simp only [FdPage.next]
    omega
  constructor
  · rintro ⟨low, high, unloaded⟩
    by_cases here : x < page.next
    · exact .inl ⟨low, here, (inPage low here).mp unloaded⟩
    · exact .inr ⟨by omega, high, (afterPage (by omega)).mp unloaded⟩
  · rintro (⟨low, here, requested⟩ | ⟨low, high, unloaded⟩)
    · exact ⟨low, by omega, (inPage low here).mpr requested⟩
    · exact ⟨by omega, high, (afterPage low).mpr unloaded⟩

section Loop

variable {start next : Int}

/-- The loop of `GetUnloadedPages` over a contiguous list, from ranges built before it: the
ranges stay sorted and apart, gain exactly the requested bytes the list holds neither loaded nor
modified, and grow by what the loop of `GetTotalUnloadedPageSize` counts. -/
theorem unloadedFrom_spec (ordered : start < next) :
    ∀ {pos : Int} {pages ranges : List FdPage}, Contiguous pos pages →
      UnloadedRanges ranges pos →
      let result := PageList.unloadedFrom start next ranges pages
      UnloadedRanges result (endFrom pos pages) ∧
        (∀ x, Covers result x ↔
          Covers ranges x ∨ (pos ≤ x ∧ x < endFrom pos pages ∧ UnloadedIn start next pages x)) ∧
        (result.map (·.bytes)).sum =
          (ranges.map (·.bytes)).sum + PageList.totalUnloadedFrom start next 0 pages
  | pos, [], ranges, _, valid =>
      ⟨valid, fun x => ⟨.inl, fun covered => covered.elim id fun ⟨low, high, _⟩ =>
        absurd high (by rw [endFrom_nil]; omega)⟩,
        by simp [PageList.totalUnloadedFrom, PageList.unloadedFrom]⟩
  | _, page :: rest, ranges, ⟨rfl, positive, tail⟩, valid => by
      have restEnd := tail.start_le_end
      have pageNext : page.next = page.offset + page.bytes := rfl
      have pageEnd : page.offset ≤ page.next := by omega
      have region := unloadedIn_cons_iff start next positive restEnd
      simp only [PageList.unloadedFrom, PageList.totalUnloadedFrom, endFrom_cons]
      by_cases before : page.next ≤ start
      · rw [if_pos before, if_pos before]
        obtain ⟨restValid, restCover, restSum⟩ :=
          unloadedFrom_spec ordered tail (valid.mono pageEnd)
        refine ⟨restValid, fun x => ?_, restSum⟩
        rw [restCover x, region x]
        constructor
        · rintro (old | later)
          exacts [.inl old, .inr (.inr later)]
        · rintro (old | ⟨_, here, requested, _⟩ | later)
          exacts [.inl old, absurd requested (by omega), .inr later]
      rw [if_neg before, if_neg before]
      by_cases beyond : next ≤ page.offset
      · rw [if_pos beyond, if_pos beyond]
        refine ⟨valid.mono (Int.le_trans pageEnd restEnd), fun x => ?_, by simp⟩
        rw [region x]
        constructor
        · exact .inl
        · rintro (old | ⟨_, _, _, below, _⟩ | ⟨low, _, _, below, _⟩)
          exacts [old, absurd below (by omega), absurd below (by omega)]
      rw [if_neg beyond, if_neg beyond]
      cases flags : page.loaded || page.modified
      · obtain ⟨unloaded, unmodified⟩ : page.loaded = false ∧ page.modified = false := by
          simpa using flags
        simp only [Bool.false_eq_true, if_false, true_or, if_true]
        have lower : max page.offset start < min page.next next := by
          rw [Int.max_def, Int.min_def]
          split_ifs <;> omega
        have minLe := Int.min_le_left page.next next
        have minLeNext := Int.min_le_right page.next next
        have maxGe := Int.le_max_left page.offset start
        have maxGeStart := Int.le_max_right page.offset start
        obtain ⟨pushedValid, pushedCover, pushedSum⟩ :=
          pushUnloaded_spec valid maxGe
            (show 0 < min page.next next - max page.offset start by omega)
        obtain ⟨restValid, restCover, restSum⟩ := unloadedFrom_spec ordered tail
          (pushedValid.mono (show max page.offset start +
            (min page.next next - max page.offset start) ≤ page.next by omega))
        refine ⟨restValid, fun x => ?_, ?_⟩
        · rw [restCover x, pushedCover x, region x]
          constructor
          · rintro ((old | ⟨low, high⟩) | later)
            exacts [.inl old, .inr (.inl ⟨by omega, by omega, by omega, by omega, unloaded,
              unmodified⟩), .inr (.inr later)]
          · rintro (old | ⟨low, here, requested, below, _⟩ | later)
            exacts [.inl (.inl old), .inl (.inr ⟨by omega, by omega⟩), .inr later]
        · rw [restSum, pushedSum, Int.min_def, Int.max_def]
          split_ifs <;> omega
      · simp only [if_true]
        obtain ⟨restValid, restCover, restSum⟩ :=
          unloadedFrom_spec ordered tail (valid.mono pageEnd)
        refine ⟨restValid, fun x => ?_, restSum⟩
        rw [restCover x, region x]
        constructor
        · rintro (old | later)
          exacts [.inl old, .inr (.inr later)]
        · rintro (old | ⟨_, _, _, _, unloaded, unmodified⟩ | later)
          · exact .inl old
          · rw [unloaded, unmodified] at flags
            exact absurd flags (by decide)
          · exact .inr later

end Loop

/-- When the request starts at or past the end of the list, both loops skip every page. -/
theorem unloadedFrom_of_end_le (start next : Int) (ranges : List FdPage) :
    ∀ {pos : Int} {pages : List FdPage}, Contiguous pos pages → endFrom pos pages ≤ start →
      PageList.unloadedFrom start next ranges pages = ranges ∧
        PageList.totalUnloadedFrom start next 0 pages = 0
  | _, [], _, _ => ⟨rfl, rfl⟩
  | _, page :: rest, ⟨_, _, tail⟩, past => by
      have skipped : page.next ≤ start := Int.le_trans tail.start_le_end past
      simp only [PageList.unloadedFrom, PageList.totalUnloadedFrom, if_pos skipped]
      exact unloadedFrom_of_end_le start next ranges tail past


/-! ## The three queries on a well-formed list -/

section Queries

variable {pl : PageList} {start size : Int}

/-- The end `GetTotalUnloadedPageSize` and `GetUnloadedPages` compute bounds the request within
the list. -/
theorem inRequest_iff_of_sizeToEnd {x : Int} (low : 0 ≤ x) (high : x < pl.size) :
    (start ≤ x ∧ x < start + pl.sizeToEnd start size) ↔ pl.InRequest start size x := by
  simp only [PageList.sizeToEnd, PageList.InRequest]
  split_ifs <;> omega

end Queries

/-- On a well-formed list of positive size, for a request from `start ≥ 0` of `size ≥ 0` bytes
that ends inside the `off_t` range: the ranges of
`GetUnloadedPages` are sorted, apart, unloaded and unmodified, and cover exactly the requested
bytes that are neither loaded nor modified; `GetTotalUnloadedPageSize` with no limit counts those
bytes and is the total length of the ranges; and `IsPageLoaded` holds exactly when every requested
byte is loaded. -/
theorem unloaded_queries (pl : PageList) (wellFormed : WellFormed pl.pages) (positive : 0 < pl.size)
    (start size : Int) (request : Request start size) :
    let ranges := (pl.getUnloadedPages [] start size).2
    (ranges.Pairwise (fun range later => range.next < later.offset) ∧
        (∀ range ∈ ranges, 0 < range.bytes ∧ range.loaded = false ∧ range.modified = false) ∧
        ∀ x, Covers ranges x ↔
          pl.InRequest start size x ∧ flagsAt pl.pages x = some (false, false)) ∧
      pl.getTotalUnloadedPageSize start size 0 = countBytes
        (fun x => pl.InRequest start size x ∧ flagsAt pl.pages x = some (false, false)) 0 pl.size ∧
      pl.getTotalUnloadedPageSize start size 0 = (ranges.map (·.bytes)).sum ∧
      (pl.isPageLoaded start size = true ↔
        ∀ x, pl.InRequest start size x → ∃ modified, flagsAt pl.pages x = some (true, modified)) := by
  obtain ⟨startNonneg, sizeNonneg, -⟩ := request
  have contiguous := wellFormed.contiguous_of_size_ne_zero (by omega)
  have listEnd := (size_eq_endFrom pl).symm
  have loaded : pl.isPageLoaded start size = true ↔
      ∀ x, pl.InRequest start size x → ∃ modified, flagsAt pl.pages x = some (true, modified) := by
    rw [PageList.isPageLoaded, isPageLoadedFrom_iff sizeNonneg contiguous (by omega), listEnd]
    exact ⟨fun all x ⟨low, high, requested, bounded⟩ => all x low high requested bounded,
      fun all x low high requested bounded => all x ⟨low, high, requested, bounded⟩⟩
  have unloadedIn : ∀ x, 0 ≤ x → x < pl.size →
      (UnloadedIn start (start + pl.sizeToEnd start size) pl.pages x ↔
        pl.InRequest start size x ∧ flagsAt pl.pages x = some (false, false)) := by
    intro x low high
    rw [UnloadedIn, ← inRequest_iff_of_sizeToEnd low high, and_assoc]
  simp only [PageList.getUnloadedPages, PageList.getTotalUnloadedPageSize]
  by_cases empty : size = 0 ∧ pl.size ≤ start
  · obtain ⟨noRanges, noBytes⟩ := unloadedFrom_of_end_le start (start + pl.sizeToEnd start size)
      [] contiguous (by omega)
    rw [noRanges, noBytes]
    refine ⟨⟨List.Pairwise.nil, fun _ member => absurd member (List.not_mem_nil _),
      fun x => ⟨fun ⟨_, member, _⟩ => absurd member (List.not_mem_nil _),
        fun ⟨⟨_, high, requested, _⟩, _⟩ => absurd high (by omega)⟩⟩, ?_, rfl, loaded⟩
    rw [countBytes_eq_zero fun x _ _ ⟨⟨_, high, requested, _⟩, _⟩ => by omega]
    rfl
  · have ordered : start < start + pl.sizeToEnd start size := by
      simp only [PageList.sizeToEnd]
      split_ifs <;> omega
    obtain ⟨valid, covers, sum⟩ := unloadedFrom_spec ordered contiguous
      (show UnloadedRanges [] 0 from ⟨.nil, by simp, by simp⟩)
    have total := totalUnloadedFrom_eq_countBytes (Int.le_of_lt ordered) contiguous
    rw [listEnd] at covers total
    refine ⟨⟨valid.separated, valid.unloaded, fun x => ?_⟩, ?_, ?_, loaded⟩
    · rw [covers x]
      constructor
      · rintro (⟨_, member, _⟩ | ⟨low, high, unloaded⟩)
        · exact absurd member (List.not_mem_nil _)
        · exact (unloadedIn x low high).mp unloaded
      · rintro ⟨requested, flags⟩
        exact .inr ⟨requested.1, requested.2.1,
          (unloadedIn x requested.1 requested.2.1).mpr ⟨requested, flags⟩⟩
    · rw [total]
      exact congrArg _ (countBytes_congr fun x low high => unloadedIn x low high)
    · rw [sum]
      simp

theorem unloaded_queries_sample :
    let pl : PageList := ⟨[⟨0, 4, true, false⟩, ⟨4, 3, false, false⟩, ⟨7, 2, false, false⟩,
      ⟨9, 3, false, true⟩, ⟨12, 4, false, false⟩], false⟩
    let ranges := (pl.getUnloadedPages [] 2 12).2
    (WellFormed pl.pages ∧ 0 < pl.size ∧ Request 2 12) ∧
      (ranges.Pairwise (fun range later => range.next < later.offset) ∧
          (∀ range ∈ ranges, 0 < range.bytes ∧ range.loaded = false ∧ range.modified = false) ∧
          ∀ x, Covers ranges x ↔
            pl.InRequest 2 12 x ∧ flagsAt pl.pages x = some (false, false)) ∧
        pl.getTotalUnloadedPageSize 2 12 0 = countBytes
          (fun x => pl.InRequest 2 12 x ∧ flagsAt pl.pages x = some (false, false)) 0 pl.size ∧
        pl.getTotalUnloadedPageSize 2 12 0 = (ranges.map (·.bytes)).sum ∧
        (pl.isPageLoaded 2 12 = true ↔
          ∀ x, pl.InRequest 2 12 x → ∃ modified, flagsAt pl.pages x = some (true, modified)) :=
  ⟨⟨by decide, by decide, by decide⟩,
    unloaded_queries _ (by decide) (by decide) 2 12 ⟨by decide, by decide, by decide⟩⟩

/-- The two touching unloaded pages come out as one range, the modified page is left out, and
the last range is clipped at the end of the request. -/
example :
    let pl : PageList := ⟨[⟨0, 4, true, false⟩, ⟨4, 3, false, false⟩, ⟨7, 2, false, false⟩,
      ⟨9, 3, false, true⟩, ⟨12, 4, false, false⟩], false⟩
    (pl.getUnloadedPages [] 2 12).2 = [⟨4, 5, false, false⟩, ⟨12, 2, false, false⟩] ∧
      pl.getTotalUnloadedPageSize 2 12 0 = 7 ∧ pl.isPageLoaded 0 4 = true := by
  decide

/-! ## Each query on its own

The same three facts as `unloaded_queries`, one query each, for results that ask them apart. -/

/-- Where the request reaches past `start`, its end lies past `start`; otherwise it starts at
or past the end of the list. -/
theorem sizeToEnd_cases {pl : PageList} {start size : Int} (sizeNonneg : 0 ≤ size) :
    start < start + pl.sizeToEnd start size ∨ (size = 0 ∧ pl.size ≤ start ∧
      pl.sizeToEnd start size = 0) := by
  simp only [PageList.sizeToEnd]
  split_ifs <;> omega

section EachQuery

variable {pl : PageList} (wellFormed : WellFormed pl.pages) (positive : 0 < pl.size)
  {start size : Int}
include wellFormed positive

theorem isPageLoaded_iff (startNonneg : 0 ≤ start) (sizeNonneg : 0 ≤ size) :
    pl.isPageLoaded start size = true ↔
      ∀ x, pl.InRequest start size x → ∃ modified, flagsAt pl.pages x = some (true, modified) := by
  rw [PageList.isPageLoaded, isPageLoadedFrom_iff sizeNonneg
    (wellFormed.contiguous_of_size_ne_zero (by omega)) (by omega), ← size_eq_endFrom]
  exact ⟨fun all x ⟨low, high, requested, bounded⟩ => all x low high requested bounded,
    fun all x low high requested bounded => all x ⟨low, high, requested, bounded⟩⟩

theorem getTotalUnloadedPageSize_eq (sizeNonneg : 0 ≤ size) :
    pl.getTotalUnloadedPageSize start size 0 = countBytes
      (fun x => pl.InRequest start size x ∧ flagsAt pl.pages x = some (false, false)) 0 pl.size := by
  have contiguous := wellFormed.contiguous_of_size_ne_zero (by omega)
  have ordered : start ≤ start + pl.sizeToEnd start size := by
    simp only [PageList.sizeToEnd]
    split_ifs <;> omega
  rw [PageList.getTotalUnloadedPageSize, totalUnloadedFrom_eq_countBytes ordered contiguous,
    ← size_eq_endFrom]
  exact congrArg _ (countBytes_congr fun x low high => by
    rw [UnloadedIn, ← inRequest_iff_of_sizeToEnd low high, and_assoc])

theorem getUnloadedPages_ranges (sizeNonneg : 0 ≤ size) :
    ∃ pos, UnloadedRanges (pl.getUnloadedPages [] start size).2 pos ∧
      ∀ x, Covers (pl.getUnloadedPages [] start size).2 x ↔
        pl.InRequest start size x ∧ flagsAt pl.pages x = some (false, false) := by
  have contiguous := wellFormed.contiguous_of_size_ne_zero (by omega)
  simp only [PageList.getUnloadedPages]
  rcases (sizeToEnd_cases sizeNonneg : start < start + pl.sizeToEnd start size ∨ _) with
    ordered | ⟨_, past, _⟩
  · obtain ⟨valid, covers, -⟩ :=
      unloadedFrom_spec ordered contiguous (show UnloadedRanges [] 0 from ⟨.nil, by simp, by simp⟩)
    refine ⟨_, valid, fun x => ?_⟩
    rw [covers x, ← size_eq_endFrom]
    constructor
    · rintro (⟨_, member, _⟩ | ⟨low, high, unloaded⟩)
      · cases member
      · rw [UnloadedIn, ← and_assoc, inRequest_iff_of_sizeToEnd low high] at unloaded
        exact unloaded
    · rintro ⟨requested, flags⟩
      exact .inr ⟨requested.1, requested.2.1, by
        rw [UnloadedIn, ← and_assoc, inRequest_iff_of_sizeToEnd requested.1 requested.2.1]
        exact ⟨requested, flags⟩⟩
  · rw [(unloadedFrom_of_end_le _ _ _ contiguous (by rw [← size_eq_endFrom]; exact past)).1]
    exact ⟨0, ⟨.nil, by simp, by simp⟩, fun x =>
      ⟨fun ⟨_, member, _⟩ => absurd member (List.not_mem_nil _),
        fun ⟨⟨_, high, requested, _⟩, _⟩ => absurd high (by omega)⟩⟩

end EachQuery

/-! ## `FindUnloadedPage` -/

/-- When the loop of `FindUnloadedPage` finds nothing, no byte from `start` on is unloaded and
unmodified. -/
theorem findUnloadedFrom_eq_none {start : Int} :
    ∀ {pages : List FdPage}, PageList.findUnloadedFrom start pages = none →
      ∀ x, start ≤ x → flagsAt pages x ≠ some (false, false)
  | [], _, x, _ => by simp
  | page :: rest, notFound, x, after => by
      rw [PageList.findUnloadedFrom] at notFound
      rw [flagsAt_cons]
      by_cases reached : start ≤ page.endOffset
      · rw [if_pos reached] at notFound
        by_cases unloaded : (!page.loaded && !page.modified) = true
        · rw [if_pos unloaded] at notFound
          cases notFound
        · rw [if_neg unloaded] at notFound
          split_ifs
          · cases loaded : page.loaded <;> cases modified : page.modified <;>
              simp_all [FdPage.flags]
          · exact findUnloadedFrom_eq_none notFound x after
      · rw [if_neg reached] at notFound
        have outside : ¬ page.Contains x := by
          simp only [FdPage.Contains, FdPage.next, FdPage.endOffset] at reached ⊢
          split_ifs at reached <;> omega
        rw [if_neg outside]
        exact findUnloadedFrom_eq_none notFound x after

/-- What the loop of `FindUnloadedPage` finds in a contiguous list: a page that is neither loaded
nor modified and ends after `start`, with no such byte from `start` up to it. -/
theorem findUnloadedFrom_eq_some {start : Int} :
    ∀ {pos : Int} {pages : List FdPage}, Contiguous pos pages → ∀ {resstart ressize : Int},
      PageList.findUnloadedFrom start pages = some (resstart, ressize) →
      ∃ page ∈ pages, page.offset = resstart ∧ page.bytes = ressize ∧
        page.flags = (false, false) ∧ start < page.next ∧
        ∀ x, start ≤ x → x < resstart → flagsAt pages x ≠ some (false, false)
  | _, [], _, _, _, found => by cases found
  | pos, page :: rest, contiguous, resstart, ressize, found => by
      have positive := contiguous.2.1
      have reachedIff : start ≤ page.endOffset ↔ start < page.next := by
        rw [← not_lt, FdPage.endOffset_lt_iff positive]
        omega
      rw [PageList.findUnloadedFrom] at found
      split_ifs at found with reached unloaded
      · obtain ⟨rfl, rfl⟩ := Prod.mk.inj (Option.some.inj found)
        refine ⟨page, List.mem_cons_self _ _, rfl, rfl, ?_, reachedIff.mp reached,
          fun x _ before => ?_⟩
        · simpa [FdPage.flags] using unloaded
        · rw [contiguous.flagsAt_eq_none (.inl (by rw [← contiguous.1]; exact before))]
          exact Option.noConfusion
      all_goals
        obtain ⟨later, member, offset, bytes, flags, ends, before⟩ :=
          findUnloadedFrom_eq_some contiguous.2.2 found
        refine ⟨later, List.mem_cons_of_mem _ member, offset, bytes, flags, ends,
          fun x low high => ?_⟩
        rw [flagsAt_cons]
        split_ifs with inside
      · cases loaded : page.loaded <;> cases modified : page.modified <;> simp_all [FdPage.flags]
      · exact before x low high
      · simp only [FdPage.Contains] at inside
        omega
      · exact before x low high

/-- On a well-formed list of positive size, `FindUnloadedPage` from any `start` finds the first
page at or after `start` that is neither loaded nor modified: the range it returns is not empty,
ends after `start` and holds only such bytes, and no byte from `start` up to it is one. It
returns false exactly when no byte from `start` on is unloaded and unmodified. On a compressed
list the range is a whole run: the bytes just before and just after it are not such bytes. -/
theorem findUnloadedPage_spec (pl : PageList) (wellFormed : WellFormed pl.pages)
    (positive : 0 < pl.size) (start : Int) :
    (pl.findUnloadedPage start = none ↔
        ∀ x, start ≤ x → flagsAt pl.pages x ≠ some (false, false)) ∧
      ∀ resstart ressize, pl.findUnloadedPage start = some (resstart, ressize) →
        0 < ressize ∧ start < resstart + ressize ∧
        (∀ x, resstart ≤ x → x < resstart + ressize → flagsAt pl.pages x = some (false, false)) ∧
        (∀ x, start ≤ x → x < resstart → flagsAt pl.pages x ≠ some (false, false)) ∧
        (Compressed pl.pages → flagsAt pl.pages (resstart - 1) ≠ some (false, false) ∧
          flagsAt pl.pages (resstart + ressize) ≠ some (false, false)) := by
  have contiguous := wellFormed.contiguous_of_size_ne_zero (by omega)
  have found : ∀ resstart ressize, pl.findUnloadedPage start = some (resstart, ressize) →
      0 < ressize ∧ start < resstart + ressize ∧
      (∀ x, resstart ≤ x → x < resstart + ressize → flagsAt pl.pages x = some (false, false)) ∧
      (∀ x, start ≤ x → x < resstart → flagsAt pl.pages x ≠ some (false, false)) ∧
      (Compressed pl.pages → flagsAt pl.pages (resstart - 1) ≠ some (false, false) ∧
        flagsAt pl.pages (resstart + ressize) ≠ some (false, false)) := by
    intro resstart ressize result
    obtain ⟨page, member, rfl, rfl, flags, ends, before⟩ := findUnloadedFrom_eq_some contiguous result
    refine ⟨(contiguous.mem_bounds member).2.1, ends, fun x low high => ?_, before,
      fun compressed => ?_⟩
    · rw [contiguous.flagsAt_of_mem member ⟨low, high⟩, flags]
    · rw [← flags]
      exact contiguous.flagsAt_neighbours_ne compressed member
  refine ⟨⟨findUnloadedFrom_eq_none, fun noByte => ?_⟩, found⟩
  cases result : pl.findUnloadedPage start with
  | none => rfl
  | some range =>
      obtain ⟨nonempty, ends, unloaded, -⟩ := found range.1 range.2 result
      exact absurd (unloaded (max range.1 start) (by omega) (by omega))
        (noByte _ (by omega))

theorem findUnloadedPage_spec_sample :
    let pl : PageList := ⟨[⟨0, 4, true, false⟩, ⟨4, 3, false, false⟩, ⟨7, 2, false, true⟩,
      ⟨9, 3, false, false⟩], false⟩
    (WellFormed pl.pages ∧ 0 < pl.size) ∧
      (pl.findUnloadedPage 5 = none ↔
          ∀ x, 5 ≤ x → flagsAt pl.pages x ≠ some (false, false)) ∧
        ∀ resstart ressize, pl.findUnloadedPage 5 = some (resstart, ressize) →
          0 < ressize ∧ 5 < resstart + ressize ∧
          (∀ x, resstart ≤ x → x < resstart + ressize →
            flagsAt pl.pages x = some (false, false)) ∧
          (∀ x, 5 ≤ x → x < resstart → flagsAt pl.pages x ≠ some (false, false)) ∧
          (Compressed pl.pages → flagsAt pl.pages (resstart - 1) ≠ some (false, false) ∧
            flagsAt pl.pages (resstart + ressize) ≠ some (false, false)) :=
  ⟨⟨by decide, by decide⟩, findUnloadedPage_spec _ (by decide) (by decide) 5⟩

/-- From inside the unloaded page the whole page comes back, past the modified page the last
one does, and past the end nothing; the empty file's page of no bytes is found as `(0, 0)`. -/
example :
    let pl : PageList := ⟨[⟨0, 4, true, false⟩, ⟨4, 3, false, false⟩, ⟨7, 2, false, true⟩,
      ⟨9, 3, false, false⟩], false⟩
    pl.findUnloadedPage 5 = some (4, 3) ∧ pl.findUnloadedPage 7 = some (9, 3) ∧
      pl.findUnloadedPage 12 = none ∧
      PageList.findUnloadedPage ⟨[⟨0, 0, false, false⟩], false⟩ 0 = some (0, 0) := by
  decide

end S3fs
