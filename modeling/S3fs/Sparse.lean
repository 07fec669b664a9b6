import Mathlib
import S3fs.Compress

/-!
# Comparing a page list with the cache file

`CompareSparseFile` asks the file system for the hole and data segments of the cache file
(`GetSparseFilePages`, through `lseek`), and `CheckAreaInSparseFile` checks every page against
every segment it overlaps: a loaded or modified page must not lie over a hole, and the bytes of
an untouched page that lie in a data segment should read as zero (`CheckZeroAreaInFile`,
through `pread`).

`checkRange` is the five-way case split that computes the range checked for a page and a
segment. It always covers the intersection of the two (`checkRange_covers`), but when a
segment reaches past the start of a page and past its end, or starts with the page and ends
inside it, the range it reports reaches outside the page or the segment
(`compareSparseFile_warns_outside_page`).

On a file whose segments form a layout, tiling the file and alternating between hole and data,
`GetSparseFilePages` ends and returns that layout, followed at most by a zero-length page at the
end of the file (`getSparseFilePages_layout`).

`CheckZeroAreaInFile` moves on by the count `pread` returned. It ends exactly when its range is
empty, lies in the file, or holds a byte that is not zero before the end of the file
(`checkZeroAreaInFile_terminates_iff`), and then answers whether the range reads as zero
(`checkZeroAreaInFile_spec`); past the end of a file that reads as zero, `pread` returns 0 and
the loop never leaves.

Put together, on a layout of a file of an `off_t` size that the pages do not outrun,
`CompareSparseFile` ends, fails exactly when it reports a range, and misses nothing: every loaded
or modified byte over a hole lies in an error range, and every untouched byte of data that is
not zero in a warning range (`compareSparseFile_complete`).
-/

namespace S3fs

/-! ## The file as the system calls see it -/

/-- A cache file: its bytes, holes reading as zero, and the hole and data segments `lseek`
reports, each a page whose `loaded` flag marks data. -/
structure CacheFile where
  contents : List UInt8
  segments : List FdPage

namespace CacheFile

/-- The size of the file. -/
def size (file : CacheFile) : Int :=
  file.contents.length

/-- `lseek(fd, pos, SEEK_DATA)` when `toData`, else `lseek(fd, pos, SEEK_HOLE)`: `pos` itself
when it lies in a segment of the kind sought, else the start of the next one; past the data
there is no data (`-1`), and the end of the file counts as a hole. At or past the end both
fail. -/
def seek (file : CacheFile) (pos : Int) (toData : Bool) : Int :=
  if pos < 0 ∨ file.size ≤ pos then -1
  else
    match file.segments.find? fun segment => pos < segment.next && segment.loaded == toData with
    | some segment => max segment.offset pos
    | none => if toData then -1 else file.size

/-- `pread(fd, buf, count, pos)`: the bytes from `pos` on, at most `count`, fewer at the end of
the file; `none` (-1) for a negative position. -/
def pread (file : CacheFile) (pos : Int) (count : Nat) : Option (List UInt8) :=
  if pos < 0 then none else some ((file.contents.drop pos.toNat).take count)

end CacheFile

/-! ## `GetSparseFilePages` -/

/-- The loop of `GetSparseFilePages` from `cur_pos`, a hole when `isHole`: each turn records
the segment up to the next change, or to `file_size` when `lseek` finds none. `fuel` bounds
the turns; `none` when it runs out. -/
def sparsePages (file : CacheFile) (fileSize : Nat) : Nat → Int → Bool → Option (List FdPage)
  | 0, _, _ => none
  | fuel + 1, curPos, isHole =>
      if curPos < 0 then some []
      else
        let nextPos := file.seek curPos isHole
        let bytes := if nextPos = -1 then fileSize - curPos else nextPos - curPos
        (sparsePages file fileSize fuel nextPos !isHole).map
          (⟨curPos, bytes, !isHole, false⟩ :: ·)

/-- `PageList::GetSparseFilePages`: whether it succeeded and the segments it found; `none`
when the loop runs past its fuel, twice the size of the file and four more turns. -/
def getSparseFilePages (file : CacheFile) (fileSize : Nat) : Option (Bool × List FdPage) :=
  if fileSize = 0 then some (true, [])
  else
    let holePos := file.seek 0 false
    let dataPos := file.seek 0 true
    if holePos = -1 ∧ dataPos = -1 then some (false, [])
    else
      let isHole := if holePos = -1 then false else if dataPos = -1 then true else holePos < dataPos
      (sparsePages file fileSize (2 * file.contents.length + 4) 0 isHole).map (true, ·)

/-! ## `CheckZeroAreaInFile` -/

/-- `CHECK_CACHEFILE_PART_SIZE`, the size of the buffer `CheckZeroAreaInFile` reads into. -/
def checkCachefilePartSize : Nat := 1024 * 16

/-- The loop of `CheckZeroAreaInFile` from `comp_bytes` on: `false` at a failed read or a byte
that is not zero. A read at the end of the file returns nothing and the loop makes no progress;
`fuel` bounds the turns and `none` stands for a loop that does not end. -/
def checkZeroFrom (file : CacheFile) (start : Int) (bytes : Nat) : Nat → Nat → Option Bool
  | 0, _ => none
  | fuel + 1, compBytes =>
      if compBytes < bytes then
        let checkBytes :=
          if checkCachefilePartSize < bytes - compBytes then checkCachefilePartSize
          else bytes - compBytes
        match file.pread (start + compBytes) checkBytes with
        | none => some false
        | some read =>
            if read.any (· != 0) then some false
            else checkZeroFrom file start bytes fuel (compBytes + read.length)
      else some true

/-- `PageList::CheckZeroAreaInFile`, with a turn for every byte and one more. -/
def checkZeroAreaInFile (file : CacheFile) (start : Int) (bytes : Nat) : Option Bool :=
  checkZeroFrom file start bytes (bytes + 1) 0

/-! ## When `CheckZeroAreaInFile` ends -/

/-- Splitting off the first read of a range: `take n` is the `take k` read, then what is left of
the range after the bytes the read returned. -/
theorem take_eq_take_append_of_le {α : Type} (rest : List α) {k n : Nat} (le : k ≤ n) :
    rest.take n = rest.take k ++
      (rest.drop (rest.take k).length).take (n - (rest.take k).length) := by
  have readLe : (rest.take k).length ≤ k := List.length_take_le k rest
  have prefixRead : rest.take (rest.take k).length = rest.take k := by
    conv => rhs; rw [← List.take_length (rest.take k), List.take_take]
    rw [Nat.min_eq_left readLe]
  calc rest.take n = rest.take ((rest.take k).length + (n - (rest.take k).length)) := by
        rw [Nat.add_sub_cancel' (by omega)]
    _ = _ := by rw [List.take_add, prefixRead]

section CheckZero

variable {file : CacheFile} {start : Int} {bytes : Nat} (startNonneg : 0 ≤ start)
include startNonneg

theorem pread_from_start (compBytes count : Nat) :
    file.pread (start + compBytes) count =
      some ((file.contents.drop (start.toNat + compBytes)).take count) := by
  rw [CacheFile.pread, if_neg (by omega), Int.toNat_add_nat startNonneg]

/-- One turn of the loop of `CheckZeroAreaInFile`: the read returns the bytes from
`start + comp_bytes` on, at most `check_bytes`, and the loop goes on past them when they are all
zero. -/
theorem checkZeroFrom_turn (fuel compBytes : Nat) (short : compBytes < bytes) :
    let read := (file.contents.drop (start.toNat + compBytes)).take
      (if checkCachefilePartSize < bytes - compBytes then checkCachefilePartSize
        else bytes - compBytes)
    checkZeroFrom file start bytes (fuel + 1) compBytes =
      if read.any (· != 0) then some false
      else checkZeroFrom file start bytes fuel (compBytes + read.length) := by
  dsimp only
  rw [checkZeroFrom, if_pos short]
  dsimp only
  rw [pread_from_start startNonneg]

/-- Once the range reaches past the end of the file and holds only zeros from `comp_bytes` on,
every read returns zeros and then nothing, so the loop never leaves: no fuel is enough. -/
theorem checkZeroFrom_past_end (past : file.size < start + bytes) :
    ∀ (fuel compBytes : Nat), compBytes < bytes →
      (∀ b ∈ file.contents.drop (start.toNat + compBytes), b = 0) →
      checkZeroFrom file start bytes fuel compBytes = none
  | 0, _, _, _ => rfl
  | fuel + 1, compBytes, short, zeros => by
      have sizeLt : file.contents.length < start.toNat + bytes := by
        simp only [CacheFile.size] at past
        omega
      rw [checkZeroFrom_turn startNonneg fuel compBytes short]
      have restLength := List.length_drop (start.toNat + compBytes) file.contents
      set rest := file.contents.drop (start.toNat + compBytes) with restEq
      set read := rest.take (if checkCachefilePartSize < bytes - compBytes then
        checkCachefilePartSize else bytes - compBytes)
      have readShort : read.length ≤ rest.length := List.length_take_le' _ _
      have readZero : read.any (· != 0) = false := List.any_eq_false.mpr fun b member => by
        simp [zeros b (List.mem_of_mem_take member)]
      rw [if_neg (by simp only [readZero, Bool.false_eq_true, not_false_eq_true])]
      refine checkZeroFrom_past_end past fuel _ (by omega) fun b member => zeros b ?_
      rw [← Nat.add_assoc, ← List.drop_drop] at member
      exact List.mem_of_mem_drop member

/-- When the range lies in the file, or holds a byte that is not zero, the loop leaves within a
turn for every byte and one more, and answers whether every byte of the range is zero. -/
theorem checkZeroFrom_spec :
    ∀ (fuel compBytes : Nat), compBytes ≤ bytes → bytes - compBytes < fuel →
      (start + bytes ≤ file.size ∨
        ∃ b ∈ (file.contents.drop (start.toNat + compBytes)).take (bytes - compBytes), b ≠ 0) →
      checkZeroFrom file start bytes fuel compBytes =
        some (((file.contents.drop (start.toNat + compBytes)).take (bytes - compBytes)).all
          (· == 0))
  | 0, _, _, enough, _ => absurd enough (Nat.not_lt_zero _)
  | fuel + 1, compBytes, le, enough, ends => by
      by_cases short : compBytes < bytes
      swap
      · rw [checkZeroFrom, if_neg short, show bytes - compBytes = 0 by omega, List.take_zero]
        rfl
      rw [checkZeroFrom_turn startNonneg fuel compBytes short]
      have restLength := List.length_drop (start.toNat + compBytes) file.contents
      set rest := file.contents.drop (start.toNat + compBytes) with restEq
      generalize checkEq : (if checkCachefilePartSize < bytes - compBytes then
        checkCachefilePartSize else bytes - compBytes) = checkBytes
      have checkBounds : 0 < checkBytes ∧ checkBytes ≤ bytes - compBytes := by
        rw [← checkEq, checkCachefilePartSize]
        split_ifs <;> omega
      have split := take_eq_take_append_of_le rest checkBounds.2
      set read := rest.take checkBytes
      have next : file.contents.drop (start.toNat + (compBytes + read.length)) =
          rest.drop read.length := by
        rw [← Nat.add_assoc, ← List.drop_drop]
      rw [split, List.all_append]
      by_cases bad : read.any (· != 0) = true
      · have notAll : read.all (· == 0) = false := by
          obtain ⟨b, member, nonzero⟩ := List.any_eq_true.mp bad
          exact List.all_eq_false.mpr ⟨b, member, by simpa using nonzero⟩
        rw [if_pos bad, notAll, Bool.false_and]
      have allZero : read.all (· == 0) = true := List.all_eq_true.mpr fun b member => by
        simpa using List.any_eq_false.mp (Bool.eq_false_iff.mpr bad) b member
      rw [if_neg bad, allZero, Bool.true_and]
      have progress : 0 < read.length := by
        rcases ends with fits | ⟨b, member, _⟩
        · simp only [CacheFile.size] at fits
          rw [List.length_take_of_le (by omega)]
          exact checkBounds.1
        · refine Nat.pos_of_ne_zero fun empty => ?_
          rcases List.take_eq_nil_iff.mp (List.length_eq_zero.mp empty) with zero | none
          · omega
          · rw [none] at member
            simp at member
      have remaining : bytes - (compBytes + read.length) = bytes - compBytes - read.length := by
        omega
      rw [checkZeroFrom_spec fuel (compBytes + read.length)
        (by have : read.length ≤ checkBytes := List.length_take_le checkBytes rest; omega)
        (by omega) ?_, next, remaining]
      rcases ends with fits | ⟨b, member, nonzero⟩
      · exact .inl fits
      · rw [split] at member
        rcases List.mem_append.mp member with inRead | later
        · exact absurd (by simpa using List.all_eq_true.mp allZero b inRead) nonzero
        · exact .inr ⟨b, by rwa [next, remaining], nonzero⟩

end CheckZero

/-- From `start ≥ 0`, `CheckZeroAreaInFile` ends exactly when its range is empty, lies in the
file, or holds a byte that is not zero before the end of the file. When the range reaches past
the end and the bytes up to the end are zero, `pread` returns 0 at the end of the file and
`comp_bytes` stops growing: the loop turns forever. -/
theorem checkZeroAreaInFile_terminates_iff (file : CacheFile) (start : Int) (bytes : Nat)
    (startNonneg : 0 ≤ start) :
    (∃ fuel, checkZeroFrom file start bytes fuel 0 ≠ none) ↔
      bytes = 0 ∨ start + bytes ≤ file.size ∨
        ∃ b ∈ (file.contents.drop start.toNat).take bytes, b ≠ 0 := by
  constructor
  · rintro ⟨fuel, ends⟩
    by_contra stuck
    simp only [not_or, Int.not_le, not_exists, not_and, not_not] at stuck
    obtain ⟨nonempty, past, zeros⟩ := stuck
    have short : (file.contents.drop start.toNat).length ≤ bytes := by
      simp only [CacheFile.size] at past
      rw [List.length_drop]
      omega
    rw [List.take_of_length_le short] at zeros
    exact ends (checkZeroFrom_past_end startNonneg past fuel 0 (Nat.pos_of_ne_zero nonempty)
      zeros)
  · rintro (empty | ends)
    · subst empty
      exact ⟨1, by simp [checkZeroFrom]⟩
    · exact ⟨bytes + 1, by
        rw [checkZeroFrom_spec startNonneg (bytes + 1) 0 (Nat.zero_le _) (by omega) ends]
        exact Option.some_ne_none _⟩

theorem checkZeroAreaInFile_empty_file_diverges :
    (0 : Int) ≤ 0 ∧ ¬ ∃ fuel, checkZeroFrom ⟨[], []⟩ 0 1 fuel 0 ≠ none :=
  ⟨Int.le_refl 0, fun ends => by
    simpa [CacheFile.size] using
      (checkZeroAreaInFile_terminates_iff ⟨[], []⟩ 0 1 (Int.le_refl 0)).mp ends⟩

/-- Where it ends, `CheckZeroAreaInFile` answers whether every byte of its range up to the end of
the file is zero, within its turns. -/
theorem checkZeroAreaInFile_spec (file : CacheFile) (start : Int) (bytes : Nat)
    (startNonneg : 0 ≤ start)
    (ends : bytes = 0 ∨ start + bytes ≤ file.size ∨
      ∃ b ∈ (file.contents.drop start.toNat).take bytes, b ≠ 0) :
    checkZeroAreaInFile file start bytes =
      some (((file.contents.drop start.toNat).take bytes).all (· == 0)) := by
  rcases ends with empty | ends
  · subst empty
    simp [checkZeroAreaInFile, checkZeroFrom]
  · exact checkZeroFrom_spec startNonneg (bytes + 1) 0 (Nat.zero_le _) (by omega) ends

theorem checkZeroAreaInFile_spec_nonzero :
    let file : CacheFile := ⟨[0, 0, 7], []⟩
    ((0 : Int) ≤ 1 ∧ (4 = 0 ∨ 1 + 4 ≤ file.size ∨
        ∃ b ∈ (file.contents.drop (1 : Int).toNat).take 4, b ≠ 0)) ∧
      checkZeroAreaInFile file 1 4 = some (((file.contents.drop (1 : Int).toNat).take 4).all
        (· == 0)) :=
  ⟨⟨by decide, by decide⟩, checkZeroAreaInFile_spec _ 1 4 (by decide) (by decide)⟩

/-! ## `CheckAreaInSparseFile` -/

/-- The start and length of the range `CheckAreaInSparseFile` checks for `checkpage` and a
segment that overlaps it, by cases 2 to 5 of the source. -/
def checkRange (checkpage segment : FdPage) : Int × Int :=
  if segment.offset < checkpage.offset ∧
      segment.offset + segment.bytes < checkpage.offset + checkpage.bytes then
    (checkpage.offset, segment.bytes - (checkpage.offset - segment.offset))
  else if checkpage.offset + checkpage.bytes < segment.offset + segment.bytes then
    (segment.offset, checkpage.bytes - (segment.offset - checkpage.offset))
  else if checkpage.offset < segment.offset ∧
      segment.offset + segment.bytes < checkpage.offset + checkpage.bytes then
    (segment.offset, segment.bytes)
  else (checkpage.offset, checkpage.bytes)

/-- What one call adds: its result and the error and warning ranges it appends. -/
abbrev AreaReport := Bool × List FdPage × List FdPage

/-- Two reports one after the other. -/
def AreaReport.append (first second : AreaReport) : AreaReport :=
  (first.1 && second.1, first.2.1 ++ second.2.1, first.2.2 ++ second.2.2)

/-- The check of `checkpage` against one overlapping segment. -/
def checkSegment (file : CacheFile) (checkpage segment : FdPage) : Option AreaReport :=
  let (checkStart, checkBytes) := checkRange checkpage segment
  if checkpage.loaded || checkpage.modified then
    if !segment.loaded then some (false, [⟨checkStart, checkBytes, false, false⟩], [])
    else some (true, [], [])
  else if segment.loaded then
    (checkZeroAreaInFile file checkStart (checkBytes % 2 ^ 64).toNat).map fun zero =>
      if zero then (true, [], []) else (false, [], [⟨checkStart, checkBytes, true, false⟩])
  else some (true, [], [])

/-- `PageList::CheckAreaInSparseFile`: the segments before the page are skipped (case 0) and
the loop stops at the first one after it (case 1). -/
def checkAreaInSparseFile (file : CacheFile) (checkpage : FdPage) :
    List FdPage → Option AreaReport
  | [] => some (true, [], [])
  | segment :: rest =>
      if segment.offset + segment.bytes ≤ checkpage.offset then
        checkAreaInSparseFile file checkpage rest
      else if checkpage.offset + checkpage.bytes ≤ segment.offset then some (true, [], [])
      else do
        let here ← checkSegment file checkpage segment
        let later ← checkAreaInSparseFile file checkpage rest
        pure (here.append later)

/-- The loop of `CompareSparseFile` over the pages. -/
def compareSparsePages (file : CacheFile) (sparseList : List FdPage) :
    List FdPage → Option AreaReport
  | [] => some (true, [], [])
  | page :: rest => do
      let here ← checkAreaInSparseFile file page sparseList
      let later ← compareSparsePages file sparseList rest
      pure (here.append later)

/-- `PageList::CompareSparseFile`: its result, `err_area_list` and `warn_area_list`. -/
def PageList.compareSparseFile (pl : PageList) (file : CacheFile) (fileSize : Nat) :
    Option AreaReport := do
  let (found, sparseList) ← getSparseFilePages file fileSize
  if !found then some (false, [⟨0, fileSize, false, false⟩], [])
  else if sparseList = [] ∧ pl.pages = [] then some (true, [], [])
  else compareSparsePages file sparseList pl.pages

/-! ## The range checked -/

/-- The range checked for a page and a segment covers every byte the two share, so no error or
warning is missed, and stays between the first start and the last end of the two. -/
theorem checkRange_covers (checkpage segment : FdPage) :
    let range := checkRange checkpage segment
    (∀ x, checkpage.Contains x → segment.Contains x → range.1 ≤ x ∧ x < range.1 + range.2) ∧
      min checkpage.offset segment.offset ≤ range.1 ∧
      range.1 + range.2 ≤ max checkpage.next segment.next := by
  simp only [checkRange, FdPage.Contains, FdPage.next]
  split_ifs <;> refine ⟨fun x inPage inSegment => ?_, ?_, ?_⟩ <;> omega

/-- Pages `(0, 10)` loaded, `(10, 10)` untouched and `(20, 10)` loaded over a file of 30 bytes
that is one data segment, with bytes that are not zero only in `[0, 10)`: the untouched page
holds only zeros, yet `CompareSparseFile` warns about `[0, 20)`, a range that reaches into the
first page, and fails. -/
theorem compareSparseFile_warns_outside_page :
    let file : CacheFile := ⟨List.replicate 10 1 ++ List.replicate 20 0, [⟨0, 30, true, false⟩]⟩
    let pl : PageList :=
      ⟨[⟨0, 10, true, false⟩, ⟨10, 10, false, false⟩, ⟨20, 10, true, false⟩], false⟩
    pl.compareSparseFile file 30 = some (false, [], [⟨0, 20, true, false⟩]) := by
  decide

/-! ## The segments `GetSparseFilePages` finds -/

theorem sparsePages_of_neg {file : CacheFile} {fileSize fuel : Nat} {curPos : Int}
    (negative : curPos < 0) (isHole : Bool) :
    sparsePages file fileSize (fuel + 1) curPos isHole = some [] := by
  rw [sparsePages, if_pos negative]

theorem sparsePages_of_nonneg {file : CacheFile} {fileSize fuel : Nat} {curPos : Int}
    (nonneg : 0 ≤ curPos) (isHole : Bool) :
    sparsePages file fileSize (fuel + 1) curPos isHole =
      (sparsePages file fileSize fuel (file.seek curPos isHole) !isHole).map
        (⟨curPos, if file.seek curPos isHole = -1 then fileSize - curPos
          else file.seek curPos isHole - curPos, !isHole, false⟩ :: ·) := by
  rw [sparsePages, if_neg (by omega)]

namespace CacheFile

/-- The hole and data segments form a layout of the file: they tile `[0, size)` and alternate
between hole and data. -/
structure Layout (file : CacheFile) : Prop where
  contiguous : Contiguous 0 file.segments
  endsAtSize : endFrom 0 file.segments = file.size
  alternating : file.segments.Chain' fun segment next => segment.loaded ≠ next.loaded

/-- The segment after a segment of a layout starts where it ends and is of the other kind. -/
theorem Layout.neighbour {file : CacheFile} (layout : file.Layout) {pre others : List FdPage}
    {segment next : FdPage} (split : file.segments = pre ++ segment :: next :: others) :
    next.offset = segment.next ∧ 0 < next.bytes ∧ next.loaded = !segment.loaded := by
  have whole : Contiguous 0 (pre ++ segment :: next :: others) := split ▸ layout.contiguous
  have alternating : (pre ++ segment :: next :: others).Chain'
      fun segment next => segment.loaded ≠ next.loaded := split ▸ layout.alternating
  obtain ⟨atNext, nextPositive, -⟩ := (contiguous_append.mp whole).2.2.2
  refine ⟨atNext, nextPositive, ?_⟩
  have switches := alternating.right_of_append.rel_head
  revert switches
  cases segment.loaded <;> cases next.loaded <;> decide

/-! A segment of a layout, with those before it and those after it. -/

section Segment

variable {file : CacheFile} (layout : file.Layout) {pre rest : List FdPage} {segment : FdPage}
  (split : file.segments = pre ++ segment :: rest)
include layout split

theorem Layout.bounds : 0 ≤ segment.offset ∧ 0 < segment.bytes ∧ segment.next ≤ file.size := by
  have bounds := layout.contiguous.mem_bounds
    (split ▸ List.mem_append_right pre (List.mem_cons_self segment rest))
  rwa [layout.endsAtSize] at bounds

/-- `lseek` from the start of a segment passes over every segment before it. -/
theorem Layout.find?_eq (toData : Bool) :
    file.segments.find? (fun other => segment.offset < other.next && other.loaded == toData) =
      (segment :: rest).find? fun other =>
        segment.offset < other.next && other.loaded == toData := by
  obtain ⟨preContiguous, restContiguous⟩ := contiguous_append.mp (split ▸ layout.contiguous)
  have atEnd : segment.offset = endFrom 0 pre := restContiguous.1
  rw [split, List.find?_append, List.find?_eq_none.mpr, Option.none_or]
  intro other member
  have before := (preContiguous.mem_bounds member).2.2
  simp only [Bool.and_eq_true, decide_eq_true_eq, not_and]
  intro after
  omega

/-- `lseek` for the kind of a segment, from its start, stays there. -/
theorem Layout.seek_self : file.seek segment.offset segment.loaded = segment.offset := by
  obtain ⟨nonneg, positive, inside⟩ := layout.bounds split
  simp only [FdPage.next] at inside
  rw [seek, if_neg (by omega), layout.find?_eq split, List.find?_cons_of_pos _ (by
    simp only [FdPage.next, Bool.and_eq_true, decide_eq_true_eq, beq_self_eq_true, and_true]
    omega)]
  show max segment.offset segment.offset = segment.offset
  omega

/-- `lseek` for the other kind, from the start of a segment, finds where the segment ends, or
fails for a hole at the end of the file. -/
theorem Layout.seek_other :
    file.seek segment.offset (!segment.loaded) =
      if rest = [] ∧ segment.loaded = false then -1 else segment.next := by
  obtain ⟨nonneg, positive, inside⟩ := layout.bounds split
  simp only [FdPage.next] at inside
  rw [seek, if_neg (by omega), layout.find?_eq split,
    List.find?_cons_of_neg _ (by cases segment.loaded <;> simp)]
  cases rest with
  | nil =>
      have atSize : file.size = segment.next := by
        rw [← layout.endsAtSize, split, endFrom_append]
        rfl
      cases loaded : segment.loaded <;> simp [atSize]
  | cons next others =>
      obtain ⟨atNext, nextPositive, flipped⟩ := layout.neighbour split
      rw [List.find?_cons_of_pos _ (by
        simp only [FdPage.next, Bool.and_eq_true, decide_eq_true_eq, flipped, beq_self_eq_true,
          and_true] at atNext ⊢
        omega)]
      simp only [List.cons_ne_nil, false_and, if_false, atNext]
      simp only [FdPage.next]
      omega

/-- The last segment ends the file. -/
theorem Layout.next_eq_size (last : rest = []) : segment.next = file.size := by
  rw [← layout.endsAtSize, split, last, endFrom_append]
  rfl

/-- From the start of a segment the two `lseek` calls do not both fail, and the one that
lands first tells the kind of the segment. -/
theorem Layout.seek_choice :
    ¬ (file.seek segment.offset false = -1 ∧ file.seek segment.offset true = -1) ∧
      (if file.seek segment.offset false = -1 then false
        else if file.seek segment.offset true = -1 then true
        else decide (file.seek segment.offset false < file.seek segment.offset true)) =
        !segment.loaded := by
  obtain ⟨nonneg, positive, -⟩ := layout.bounds split
  have self := layout.seek_self split
  have other := layout.seek_other split
  simp only [FdPage.next] at other
  have here : segment.offset ≠ -1 := by omega
  have there : segment.offset + segment.bytes ≠ -1 := by omega
  cases loaded : segment.loaded
  · simp only [loaded, Bool.not_false, and_true] at self other
    rw [self, Bool.not_false, if_neg here]
    refine ⟨fun both => here both.1, ?_⟩
    by_cases last : rest = []
    · rw [other, if_pos last, if_pos rfl]
    · rw [other, if_neg last, if_neg there,
        decide_eq_true (show segment.offset < segment.offset + segment.bytes by omega)]
  · rw [loaded] at self other
    simp only [Bool.not_true, Bool.true_eq_false, and_false, if_false] at other
    rw [self, other, if_neg there, if_neg here,
      decide_eq_false (show ¬ segment.offset + segment.bytes < segment.offset by omega)]
    exact ⟨fun both => here both.2, rfl⟩

end Segment

theorem seek_of_size_le {file : CacheFile} {pos : Int} (past : file.size ≤ pos) (toData : Bool) :
    file.seek pos toData = -1 := by
  rw [seek, if_pos (.inr past)]

/-- From the start of a segment of a layout, the loop of `GetSparseFilePages` records that
segment and every later one, then at most a zero-length page at the end of the file. -/
theorem Layout.sparsePages_from {file : CacheFile} (layout : file.Layout) :
    ∀ (rest pre : List FdPage) (segment : FdPage) (fuel : Nat),
      file.segments = pre ++ segment :: rest → rest.length + 3 ≤ fuel →
      ∃ tail, sparsePages file file.contents.length fuel segment.offset (!segment.loaded) =
          some ((segment :: rest).map (fun segment => { segment with modified := false }) ++
            tail) ∧
        ∀ page ∈ tail, page.bytes = 0
  | [], pre, segment, fuel, split, enough => by
      obtain ⟨turns, rfl⟩ : ∃ turns, fuel = turns + 2 + 1 := ⟨fuel - 3, by omega⟩
      obtain ⟨nonneg, positive, -⟩ := layout.bounds split
      have atSize := layout.next_eq_size split rfl
      have other := layout.seek_other split
      simp only [FdPage.next] at atSize
      rcases segment with ⟨offset, bytes, loaded, modified⟩
      simp only at nonneg positive atSize other ⊢
      cases loaded
      · simp only [and_self, if_true, Bool.not_false] at other
        refine ⟨[], ?_, by simp⟩
        rw [Bool.not_false, sparsePages_of_nonneg nonneg, other, if_pos rfl,
          sparsePages_of_neg (by omega)]
        simp only [Option.map_some', List.map_cons, List.map_nil, List.append_nil, Bool.not_true]
        congr
        show file.size - offset = bytes
        omega
      · simp only [true_and, Bool.true_eq_false, if_false, Bool.not_true, FdPage.next_mk] at other
        refine ⟨[⟨file.size, 0, false, false⟩], ?_, by simp⟩
        rw [Bool.not_true, sparsePages_of_nonneg nonneg, other,
          if_neg (show offset + bytes ≠ -1 by omega), Bool.not_false,
          sparsePages_of_nonneg (show 0 ≤ offset + bytes by omega),
          seek_of_size_le (show file.size ≤ offset + bytes by omega), if_pos rfl,
          sparsePages_of_neg (show (-1 : Int) < 0 by decide)]
        have firstBytes : offset + bytes - offset = bytes := by omega
        have tailBytes : (file.contents.length : Int) - (offset + bytes) = 0 := by
          show file.size - _ = 0
          omega
        rw [firstBytes, tailBytes, atSize]
        rfl
  | next :: others, pre, segment, fuel, split, enough => by
      obtain ⟨turns, rfl⟩ : ∃ turns, fuel = turns + 1 := ⟨fuel - 1, by omega⟩
      obtain ⟨nonneg, positive, -⟩ := layout.bounds split
      obtain ⟨atNext, -, flipped⟩ := layout.neighbour split
      have other := layout.seek_other split
      rw [if_neg fun ⟨empty, _⟩ => List.cons_ne_nil _ _ empty] at other
      obtain ⟨tail, run, zero⟩ := Layout.sparsePages_from layout others (pre ++ [segment]) next
        turns (by rw [split, List.append_assoc]; rfl)
        (by simp only [List.length_cons] at enough; omega)
      rw [atNext, flipped, Bool.not_not] at run
      refine ⟨tail, ?_, zero⟩
      rw [sparsePages_of_nonneg nonneg, other,
        if_neg (show segment.next ≠ -1 by simp only [FdPage.next]; omega), Bool.not_not, run,
        show segment.next - segment.offset = segment.bytes by simp only [FdPage.next]; omega]
      rfl

end CacheFile

/-- On a layout of a nonempty file, `GetSparseFilePages` ends within its turns and returns the
segments of the layout with `modified` cleared, and at most a zero-length page after them. -/
theorem getSparseFilePages_layout (file : CacheFile) (layout : file.Layout)
    (nonempty : 0 < file.contents.length) :
    ∃ pages, getSparseFilePages file file.contents.length = some (true, pages) ∧
      pages.filter (fun page => page.bytes != 0) =
        file.segments.map fun segment => { segment with modified := false } := by
  obtain ⟨first, rest, split⟩ : ∃ first rest, file.segments = [] ++ first :: rest := by
    cases segments : file.segments with
    | nil =>
        have empty := layout.endsAtSize
        rw [segments] at empty
        exact absurd empty (by simp only [endFrom_nil, CacheFile.size]; omega)
    | cons first rest => exact ⟨first, rest, rfl⟩
  have whole : Contiguous 0 ([] ++ first :: rest) := split ▸ layout.contiguous
  have atZero : first.offset = 0 := whole.1
  have count := layout.contiguous.length_le
  rw [layout.endsAtSize, split] at count
  obtain ⟨tail, run, zero⟩ := layout.sparsePages_from rest [] first (2 * file.contents.length + 4)
    split (by simp only [List.nil_append, List.length_cons, CacheFile.size] at count; omega)
  have start := layout.seek_choice split
  rw [atZero] at run start
  have kept : ((first :: rest).map fun segment => { segment with modified := false }).filter
      (fun page => page.bytes != 0) = (first :: rest).map fun segment =>
        { segment with modified := false } := by
    refine List.filter_eq_self.mpr fun page member => ?_
    obtain ⟨segment, segmentMember, rfl⟩ := List.mem_map.mp member
    have := (whole.mem_bounds segmentMember).2.1
    simp only [bne_iff_ne, ne_eq]
    omega
  have dropped : tail.filter (fun page => page.bytes != 0) = [] :=
    List.filter_eq_nil_iff.mpr fun page member => by simp [zero page member]
  refine ⟨(first :: rest).map (fun segment => { segment with modified := false }) ++ tail, ?_, ?_⟩
  · simp only [getSparseFilePages, Nat.pos_iff_ne_zero.mp nonempty, if_false, if_neg start.1,
      start.2, run, Option.map_some']
  · rw [List.filter_append, kept, dropped, List.append_nil, split, List.nil_append]

theorem getSparseFilePages_layout_sample :
    let file : CacheFile :=
      ⟨List.replicate 6 0, [⟨0, 2, false, false⟩, ⟨2, 3, true, false⟩, ⟨5, 1, false, false⟩]⟩
    file.Layout ∧ 0 < file.contents.length ∧
      ∃ pages, getSparseFilePages file file.contents.length = some (true, pages) ∧
        pages.filter (fun page => page.bytes != 0) =
          file.segments.map fun segment => { segment with modified := false } :=
  ⟨⟨by decide, by decide, by simp⟩, by decide,
    getSparseFilePages_layout _ ⟨by decide, by decide, by simp⟩ (by decide)⟩

/-! ## What `CompareSparseFile` finds on a layout -/

/-- A report fails exactly when it holds an error or a warning range. -/
def AreaReport.Consistent (report : AreaReport) : Prop :=
  report.1 = true ↔ report.2.1 = [] ∧ report.2.2 = []

theorem AreaReport.Consistent.append {first second : AreaReport} (consistentFirst : first.Consistent)
    (consistentSecond : second.Consistent) : (first.append second).Consistent := by
  simp only [AreaReport.Consistent, AreaReport.append, Bool.and_eq_true, List.append_eq_nil] at *
  rw [consistentFirst, consistentSecond]
  tauto

theorem checkSegment_consistent {file : CacheFile} {checkpage segment : FdPage} {report : AreaReport}
    (checked : checkSegment file checkpage segment = some report) : report.Consistent := by
  simp only [checkSegment] at checked
  split_ifs at checked
  all_goals first
    | (cases checked; simp [AreaReport.Consistent])
    | skip
  obtain ⟨zero, -, rfl⟩ := Option.map_eq_some'.mp checked
  cases zero <;> simp [AreaReport.Consistent]

theorem checkAreaInSparseFile_consistent {file : CacheFile} {checkpage : FdPage} :
    ∀ {sparseList : List FdPage} {report : AreaReport},
      checkAreaInSparseFile file checkpage sparseList = some report → report.Consistent
  | [], _, checked => by cases checked; simp [AreaReport.Consistent]
  | segment :: rest, report, checked => by
      simp only [checkAreaInSparseFile] at checked
      split_ifs at checked
      · exact checkAreaInSparseFile_consistent checked
      · cases checked; simp [AreaReport.Consistent]
      · obtain ⟨here, hereChecked, later⟩ := Option.bind_eq_some.mp checked
        obtain ⟨rest', restChecked, appended⟩ := Option.bind_eq_some.mp later
        cases appended
        exact (checkSegment_consistent hereChecked).append
          (checkAreaInSparseFile_consistent restChecked)

theorem compareSparsePages_consistent {file : CacheFile} {sparseList : List FdPage} :
    ∀ {pages : List FdPage} {report : AreaReport},
      compareSparsePages file sparseList pages = some report → report.Consistent
  | [], _, compared => by cases compared; simp [AreaReport.Consistent]
  | page :: rest, report, compared => by
      simp only [compareSparsePages] at compared
      obtain ⟨here, hereChecked, later⟩ := Option.bind_eq_some.mp compared
      obtain ⟨rest', restCompared, appended⟩ := Option.bind_eq_some.mp later
      cases appended
      exact (checkAreaInSparseFile_consistent hereChecked).append
        (compareSparsePages_consistent restCompared)

/-- The loop of `CheckAreaInSparseFile` reaches a segment that overlaps the page when no segment
before it starts past the page, and keeps what the check against it reports. -/
theorem checkAreaInSparseFile_reaches {file : CacheFile} {checkpage segment : FdPage}
    (afterStart : checkpage.offset < segment.next) (beforeEnd : segment.offset < checkpage.next) :
    ∀ {before after : List FdPage} {report : AreaReport},
      (∀ other ∈ before, other.offset < checkpage.next) →
      checkAreaInSparseFile file checkpage (before ++ segment :: after) = some report →
      ∃ here, checkSegment file checkpage segment = some here ∧
        here.2.1 ⊆ report.2.1 ∧ here.2.2 ⊆ report.2.2
  | [], after, report, _, checked => by
      simp only [FdPage.next] at afterStart beforeEnd
      simp only [List.nil_append, checkAreaInSparseFile] at checked
      rw [if_neg (by omega), if_neg (by omega)] at checked
      obtain ⟨here, hereChecked, later⟩ := Option.bind_eq_some.mp checked
      obtain ⟨rest, -, appended⟩ := Option.bind_eq_some.mp later
      cases appended
      exact ⟨here, hereChecked, List.subset_append_left _ _, List.subset_append_left _ _⟩
  | other :: before, after, report, earlier, checked => by
      have otherStart := earlier other (List.mem_cons_self _ _)
      have later := fun o (member : o ∈ before) => earlier o (List.mem_cons_of_mem other member)
      simp only [List.cons_append, checkAreaInSparseFile] at checked
      split_ifs at checked with skipped stopped
      · exact checkAreaInSparseFile_reaches afterStart beforeEnd later checked
      · simp only [FdPage.next] at otherStart
        omega
      · obtain ⟨here', -, rest⟩ := Option.bind_eq_some.mp checked
        obtain ⟨rest', restChecked, appended⟩ := Option.bind_eq_some.mp rest
        cases appended
        obtain ⟨here, hereChecked, errs, warns⟩ :=
          checkAreaInSparseFile_reaches afterStart beforeEnd later restChecked
        exact ⟨here, hereChecked, errs.trans (List.subset_append_right _ _),
          warns.trans (List.subset_append_right _ _)⟩

/-- The loop of `CompareSparseFile` checks every page and keeps what it reports. -/
theorem compareSparsePages_reaches {file : CacheFile} {sparseList : List FdPage} {page : FdPage} :
    ∀ {pages : List FdPage} {report : AreaReport}, page ∈ pages →
      compareSparsePages file sparseList pages = some report →
      ∃ here, checkAreaInSparseFile file page sparseList = some here ∧
        here.2.1 ⊆ report.2.1 ∧ here.2.2 ⊆ report.2.2
  | [], _, member, _ => absurd member (List.not_mem_nil _)
  | first :: rest, report, member, compared => by
      simp only [compareSparsePages] at compared
      obtain ⟨here, hereChecked, later⟩ := Option.bind_eq_some.mp compared
      obtain ⟨rest', restCompared, appended⟩ := Option.bind_eq_some.mp later
      cases appended
      rcases List.mem_cons.mp member with rfl | member
      · exact ⟨here, hereChecked, List.subset_append_left _ _, List.subset_append_left _ _⟩
      · obtain ⟨found, foundChecked, errs, warns⟩ := compareSparsePages_reaches member restCompared
        exact ⟨found, foundChecked, errs.trans (List.subset_append_right _ _),
          warns.trans (List.subset_append_right _ _)⟩

/-- The loop of `CheckAreaInSparseFile` ends when the check against every overlapping segment
does. -/
theorem checkAreaInSparseFile_isSome {file : CacheFile} {checkpage : FdPage} :
    ∀ {sparseList : List FdPage},
      (∀ segment ∈ sparseList, checkpage.offset < segment.next →
        segment.offset < checkpage.next → (checkSegment file checkpage segment).isSome) →
      (checkAreaInSparseFile file checkpage sparseList).isSome
  | [], _ => rfl
  | segment :: rest, ends => by
      have later := fun o (member : o ∈ rest) => ends o (List.mem_cons_of_mem segment member)
      simp only [checkAreaInSparseFile]
      split_ifs with skipped stopped
      · exact checkAreaInSparseFile_isSome later
      · rfl
      · obtain ⟨here, hereChecked⟩ := Option.isSome_iff_exists.mp
          (ends segment (List.mem_cons_self _ _) (by simp only [FdPage.next]; omega)
            (by simp only [FdPage.next]; omega))
        obtain ⟨rest', restChecked⟩ := Option.isSome_iff_exists.mp (checkAreaInSparseFile_isSome later)
        simp only [hereChecked, restChecked]
        rfl

theorem compareSparsePages_isSome {file : CacheFile} {sparseList : List FdPage} :
    ∀ {pages : List FdPage},
      (∀ page ∈ pages, (checkAreaInSparseFile file page sparseList).isSome) →
      (compareSparsePages file sparseList pages).isSome
  | [], _ => rfl
  | page :: rest, ends => by
      obtain ⟨here, hereChecked⟩ := Option.isSome_iff_exists.mp (ends page (List.mem_cons_self _ _))
      obtain ⟨rest', restCompared⟩ := Option.isSome_iff_exists.mp
        (compareSparsePages_isSome fun o member => ends o (List.mem_cons_of_mem page member))
      simp only [compareSparsePages, hereChecked, restCompared]
      rfl

/-- The range checked for a page and a segment that overlap holds every byte they share, lies
between the first start and the last end of the two, and has no negative length. -/
theorem checkRange_overlap {checkpage segment : FdPage} (pageNonneg : 0 ≤ checkpage.bytes)
    (segmentNonneg : 0 ≤ segment.bytes) (afterStart : checkpage.offset < segment.next)
    (beforeEnd : segment.offset < checkpage.next) :
    let range := checkRange checkpage segment
    (∀ x, checkpage.Contains x → segment.Contains x → range.1 ≤ x ∧ x < range.1 + range.2) ∧
      min checkpage.offset segment.offset ≤ range.1 ∧
      range.1 + range.2 ≤ max checkpage.next segment.next ∧ 0 ≤ range.2 := by
  simp only [checkRange, FdPage.Contains, FdPage.next] at *
  split_ifs <;> refine ⟨fun x inPage inSegment => ?_, ?_, ?_, ?_⟩ <;> omega

/-- `CheckZeroAreaInFile` over a range inside the file answers whether its bytes are zero. -/
theorem checkZeroAreaInFile_within {file : CacheFile} {start : Int} {bytes : Nat}
    (startNonneg : 0 ≤ start) (inside : start + bytes ≤ file.size) :
    checkZeroAreaInFile file start bytes =
      some (((file.contents.drop start.toNat).take bytes).all (· == 0)) := by
  have spec := checkZeroFrom_spec startNonneg (bytes + 1) 0 (Nat.zero_le _) (by omega) (.inl inside)
  simpa using spec

/-- The check against one segment, with the range inside a file of an `off_t` size: an error
range for a loaded or modified page over a hole, a warning range for an untouched page over data
that is not all zero. -/
theorem checkSegment_eq {file : CacheFile} {checkpage segment : FdPage} {start bytes : Int}
    (range : checkRange checkpage segment = (start, bytes)) (startNonneg : 0 ≤ start)
    (bytesNonneg : 0 ≤ bytes) (inside : start + bytes ≤ file.size) (fits : file.size < 2 ^ 63) :
    checkSegment file checkpage segment = some
      (if checkpage.loaded || checkpage.modified then
        if segment.loaded then (true, [], []) else (false, [⟨start, bytes, false, false⟩], [])
      else if segment.loaded then
        if ((file.contents.drop start.toNat).take bytes.toNat).all (· == 0) then (true, [], [])
        else (false, [], [⟨start, bytes, true, false⟩])
      else (true, [], [])) := by
  have count : (bytes % 2 ^ 64).toNat = bytes.toNat := by omega
  have zeroCheck : checkZeroAreaInFile file start bytes.toNat =
      some (((file.contents.drop start.toNat).take bytes.toNat).all (· == 0)) :=
    checkZeroAreaInFile_within startNonneg (by omega)
  simp only [checkSegment, range, count, zeroCheck, Option.map_some']
  cases checkpage.loaded <;> cases checkpage.modified <;> cases segment.loaded <;> rfl

/-- For a page inside the file and a segment inside it or of no bytes, the range checked when
the two overlap lies inside the file. -/
theorem checkRange_within {file : CacheFile} {checkpage segment : FdPage}
    (pageInside : 0 ≤ checkpage.offset ∧ 0 ≤ checkpage.bytes ∧ checkpage.next ≤ file.size)
    (segmentInside : 0 ≤ segment.bytes ∧
      (0 < segment.bytes → 0 ≤ segment.offset ∧ segment.next ≤ file.size))
    (afterStart : checkpage.offset < segment.next) (beforeEnd : segment.offset < checkpage.next) :
    ∃ start bytes, checkRange checkpage segment = (start, bytes) ∧
      0 ≤ start ∧ 0 ≤ bytes ∧ start + bytes ≤ file.size := by
  obtain ⟨-, low, high, nonneg⟩ :=
    checkRange_overlap pageInside.2.1 segmentInside.1 afterStart beforeEnd
  refine ⟨(checkRange checkpage segment).1, (checkRange checkpage segment).2, rfl, ?_⟩
  simp only [FdPage.next, min_def, max_def] at pageInside segmentInside low high afterStart beforeEnd
  by_cases positive : 0 < segment.bytes
  · have := segmentInside.2 positive
    split_ifs at low high <;> omega
  · split_ifs at low high <;> omega

/-- A byte of a range that is not zero makes the zero check of the range fail. -/
theorem all_zero_eq_false {contents : List UInt8} {start bytes x : Int} (startNonneg : 0 ≤ start)
    (inRange : start ≤ x ∧ x < start + bytes) (inside : start + bytes ≤ contents.length)
    (nonzero : contents[x.toNat]? ≠ some 0) :
    ((contents.drop start.toNat).take bytes.toNat).all (· == 0) = false := by
  have atX : x.toNat < contents.length := by omega
  have read : ((contents.drop start.toNat).take bytes.toNat)[(x - start).toNat]? =
      some contents[x.toNat] := by
    rw [List.getElem?_take_of_lt (by omega), List.getElem?_drop, ← List.getElem?_eq_getElem atX]
    congr 1
    omega
  have nonzeroByte : contents[x.toNat] ≠ 0 := fun zero =>
    nonzero (by rw [List.getElem?_eq_getElem atX, zero])
  exact List.all_eq_false.mpr ⟨_, List.getElem?_mem read, by simpa using nonzeroByte⟩

/-- `GetSparseFilePages` on a layout: the segments with `modified` cleared, then pages of no
bytes. An empty file has no segment, and none is found. -/
theorem CacheFile.Layout.getSparseFilePages_eq {file : CacheFile} (layout : file.Layout) :
    ∃ tail, getSparseFilePages file file.contents.length =
        some (true, file.segments.map (fun segment => { segment with modified := false }) ++
          tail) ∧
      ∀ page ∈ tail, page.bytes = 0 := by
  cases segments : file.segments with
  | nil =>
      have empty := layout.endsAtSize
      rw [segments, endFrom_nil, CacheFile.size] at empty
      refine ⟨[], ?_, fun _ => nofun⟩
      simp [getSparseFilePages, show file.contents.length = 0 by omega]
  | cons first rest =>
      have split : file.segments = [] ++ first :: rest := segments
      have atZero : first.offset = 0 :=
        (split ▸ layout.contiguous : Contiguous 0 ([] ++ first :: rest)).1
      obtain ⟨-, positive, inside⟩ := layout.bounds split
      simp only [FdPage.next, CacheFile.size] at inside
      have count := layout.contiguous.length_le
      rw [layout.endsAtSize, split] at count
      obtain ⟨tail, run, zero⟩ := layout.sparsePages_from rest [] first
        (2 * file.contents.length + 4) split
        (by simp only [List.nil_append, List.length_cons, CacheFile.size] at count; omega)
      have start := layout.seek_choice split
      rw [atZero] at run start
      refine ⟨tail, ?_, zero⟩
      simp only [getSparseFilePages, show file.contents.length ≠ 0 by omega, if_false,
        if_neg start.1, start.2, run, Option.map_some']

theorem WellFormed.page_bounds {pl : PageList} (wellFormed : WellFormed pl.pages) {page : FdPage}
    (member : page ∈ pl.pages) : 0 ≤ page.offset ∧ 0 ≤ page.bytes ∧ page.next ≤ pl.size := by
  rw [size_eq_endFrom]
  rcases wellFormed with contiguous | emptyFile
  · obtain ⟨low, positive, high⟩ := contiguous.mem_bounds member
    exact ⟨low, Int.le_of_lt positive, high⟩
  · rcases pl with ⟨pages, isShrink⟩
    match pages, emptyFile, member with
    | [only], ⟨atZero, empty⟩, member =>
        rw [List.mem_singleton.mp member]
        simp [FdPage.next, atZero, empty]

/-- A page and a segment that share a byte overlap. -/
theorem overlap_of_contains {checkpage segment : FdPage} {x : Int} (inPage : checkpage.Contains x)
    (inSegment : segment.Contains x) :
    checkpage.offset < segment.next ∧ segment.offset < checkpage.next := by
  simp only [FdPage.Contains, FdPage.next] at *
  omega

/-- On a layout, the check of the page that holds byte `x`, with flags `(loaded, modified)`,
against the segment that holds it runs over a range inside the file around `x`, and
`CompareSparseFile` keeps what that check reports. -/
theorem CacheFile.Layout.compareSparsePages_at {file : CacheFile} (layout : file.Layout)
    (fits : file.size < 2 ^ 63) {tail pages : List FdPage} {report : AreaReport}
    (reported : compareSparsePages file
      (file.segments.map (fun segment => { segment with modified := false }) ++ tail) pages =
        some report)
    (pagesInside : ∀ page ∈ pages, 0 ≤ page.offset ∧ 0 ≤ page.bytes ∧ page.next ≤ file.size)
    {segment : FdPage} {x : Int} {loaded modified : Bool}
    (known : flagsAt pages x = some (loaded, modified)) (segmentMember : segment ∈ file.segments)
    (inSegment : segment.Contains x) :
    ∃ start bytes, 0 ≤ start ∧ start + bytes ≤ file.size ∧ start ≤ x ∧ x < start + bytes ∧
      let here : AreaReport := if loaded || modified then
          if segment.loaded then (true, [], []) else (false, [⟨start, bytes, false, false⟩], [])
        else if segment.loaded then
          if ((file.contents.drop start.toNat).take bytes.toNat).all (· == 0) then (true, [], [])
          else (false, [], [⟨start, bytes, true, false⟩])
        else (true, [], [])
      here.2.1 ⊆ report.2.1 ∧ here.2.2 ⊆ report.2.2 := by
  obtain ⟨page, pageMember, inPage, pageFlags⟩ := exists_mem_of_flagsAt_eq_some known
  have pageInside := pagesInside page pageMember
  obtain ⟨pre, rest, split⟩ := List.append_of_mem segmentMember
  obtain ⟨preContiguous, atEnd, -⟩ := contiguous_append.mp (split ▸ layout.contiguous)
  obtain ⟨offsetNonneg, positive, inside⟩ := layout.bounds split
  obtain ⟨afterStart, beforeEnd⟩ :=
    @overlap_of_contains page { segment with modified := false } x inPage inSegment
  obtain ⟨start, bytes, range, startNonneg, bytesNonneg, within⟩ := checkRange_within pageInside
    ⟨Int.le_of_lt positive, fun _ => ⟨offsetNonneg, inside⟩⟩ afterStart beforeEnd
  have covering := (checkRange_overlap pageInside.2.1 (Int.le_of_lt positive) afterStart
    beforeEnd).1 x inPage inSegment
  rw [range] at covering
  have earlier : ∀ other ∈ pre.map (fun segment => { segment with modified := false }),
      other.offset < page.next := fun other otherMember => by
    obtain ⟨earlier, earlierMember, rfl⟩ := List.mem_map.mp otherMember
    have := preContiguous.mem_bounds earlierMember
    simp only [FdPage.Contains, FdPage.next] at this inSegment inPage atEnd ⊢
    omega
  obtain ⟨_, pageChecked, errs, warns⟩ := compareSparsePages_reaches pageMember reported
  rw [split, List.map_append, List.map_cons, List.append_assoc, List.cons_append] at pageChecked
  obtain ⟨here, hereChecked, hereErrs, hereWarns⟩ :=
    checkAreaInSparseFile_reaches afterStart beforeEnd earlier pageChecked
  rw [checkSegment_eq (show checkRange page { segment with modified := false } = (start, bytes)
    from range) startNonneg bytesNonneg within fits] at hereChecked
  simp only [FdPage.flags, Prod.mk.injEq] at pageFlags
  obtain ⟨rfl, rfl⟩ := pageFlags
  cases hereChecked
  exact ⟨start, bytes, startNonneg, within, covering.1, covering.2, hereErrs.trans errs,
    hereWarns.trans warns⟩

/-- `CompareSparseFile` against a file laid out in holes and data, of an `off_t` size and no
shorter than the pages: it ends, fails exactly when it reports a range, reports an error range
over every loaded or modified byte in a hole, and a warning range over every untouched byte of
data that is not zero. -/
theorem compareSparseFile_complete (pl : PageList) (wellFormed : WellFormed pl.pages)
    (file : CacheFile) (layout : file.Layout) (fits : file.contents.length < 2 ^ 63)
    (within : pl.size ≤ file.size) :
    ∃ ok errs warns, pl.compareSparseFile file file.contents.length = some (ok, errs, warns) ∧
      (ok = true ↔ errs = [] ∧ warns = []) ∧
      (∀ x loaded modified, flagsAt pl.pages x = some (loaded, modified) →
        (loaded || modified) = true →
        (∃ segment ∈ file.segments, segment.Contains x ∧ segment.loaded = false) →
        Covers errs x) ∧
      ∀ x, flagsAt pl.pages x = some (false, false) →
        (∃ segment ∈ file.segments, segment.Contains x ∧ segment.loaded = true) →
        file.contents[x.toNat]? ≠ some 0 → Covers warns x := by
  obtain ⟨tail, sparse, zeroTail⟩ := layout.getSparseFilePages_eq
  have pageInside : ∀ page ∈ pl.pages,
      0 ≤ page.offset ∧ 0 ≤ page.bytes ∧ page.next ≤ file.size := fun page member => by
    have := wellFormed.page_bounds member
    omega
  have segmentInside : ∀ segment ∈
      file.segments.map (fun segment => { segment with modified := false }) ++ tail,
      0 ≤ segment.bytes ∧ (0 < segment.bytes → 0 ≤ segment.offset ∧ segment.next ≤ file.size) := by
    intro segment member
    rcases List.mem_append.mp member with cleared | empty
    · obtain ⟨original, originalMember, rfl⟩ := List.mem_map.mp cleared
      obtain ⟨pre, rest, split⟩ := List.append_of_mem originalMember
      obtain ⟨offsetNonneg, positive, inside⟩ := layout.bounds split
      exact ⟨Int.le_of_lt positive, fun _ => ⟨offsetNonneg, inside⟩⟩
    · simp [zeroTail segment empty]
  have fitsSize : file.size < 2 ^ 63 := by
    simp only [CacheFile.size]
    omega
  have compared : pl.compareSparseFile file file.contents.length =
      compareSparsePages file
        (file.segments.map (fun segment => { segment with modified := false }) ++ tail) pl.pages := by
    simp only [PageList.compareSparseFile, sparse, Option.bind_eq_bind, Option.some_bind,
      Bool.not_true, Bool.false_eq_true, if_false]
    split_ifs with nothing
    · rw [nothing.1, nothing.2]
      rfl
    · rfl
  obtain ⟨report, reported⟩ := Option.isSome_iff_exists.mp <|
    compareSparsePages_isSome fun page pageMember => checkAreaInSparseFile_isSome
      fun segment segmentMember afterStart beforeEnd => by
        obtain ⟨start, bytes, range, startNonneg, bytesNonneg, inside⟩ :=
          checkRange_within (pageInside page pageMember) (segmentInside segment segmentMember)
            afterStart beforeEnd
        rw [checkSegment_eq range startNonneg bytesNonneg inside fitsSize]
        rfl
  obtain ⟨ok, errs, warns⟩ := report
  refine ⟨ok, errs, warns, compared.trans reported, compareSparsePages_consistent reported, ?_, ?_⟩
  · intro x loaded modified known touched ⟨segment, segmentMember, inSegment, hole⟩
    obtain ⟨start, bytes, -, -, low, high, hereErrs, -⟩ :=
      layout.compareSparsePages_at fitsSize reported pageInside known segmentMember inSegment
    simp only [touched, hole, if_true, Bool.false_eq_true, if_false] at hereErrs
    exact ⟨_, hereErrs (List.mem_singleton_self _), low, high⟩
  · intro x known ⟨segment, segmentMember, inSegment, data⟩ nonzero
    obtain ⟨start, bytes, startNonneg, inside, low, high, -, hereWarns⟩ :=
      layout.compareSparsePages_at fitsSize reported pageInside known segmentMember inSegment
    simp only [all_zero_eq_false startNonneg ⟨low, high⟩ inside nonzero, data, Bool.or_self,
      if_true, Bool.false_eq_true, if_false] at hereWarns
    exact ⟨_, hereWarns (List.mem_singleton_self _), low, high⟩

theorem compareSparseFile_complete_sample :
    let pl : PageList := ⟨[⟨0, 3, true, false⟩, ⟨3, 3, false, false⟩], false⟩
    let file : CacheFile :=
      ⟨[0, 0, 7, 0, 9, 0], [⟨0, 2, false, false⟩, ⟨2, 3, true, false⟩, ⟨5, 1, false, false⟩]⟩
    WellFormed pl.pages ∧ file.Layout ∧ file.contents.length < 2 ^ 63 ∧ pl.size ≤ file.size ∧
      ∃ ok errs warns, pl.compareSparseFile file file.contents.length = some (ok, errs, warns) ∧
        (ok = true ↔ errs = [] ∧ warns = []) ∧
        (∀ x loaded modified, flagsAt pl.pages x = some (loaded, modified) →
          (loaded || modified) = true →
          (∃ segment ∈ file.segments, segment.Contains x ∧ segment.loaded = false) →
          Covers errs x) ∧
        ∀ x, flagsAt pl.pages x = some (false, false) →
          (∃ segment ∈ file.segments, segment.Contains x ∧ segment.loaded = true) →
          file.contents[x.toNat]? ≠ some 0 → Covers warns x :=
  ⟨by decide, ⟨by decide, by decide, by simp⟩, by decide, by decide,
    compareSparseFile_complete _ (by decide) _ ⟨by decide, by decide, by simp⟩ (by decide)
      (by decide)⟩

end S3fs
