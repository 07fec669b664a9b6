import Mathlib
import S3fs.Resize

/-!
# The stats file

`Serialize` writes a page list as text: a header line `<inode>:<size>` and one line
`<offset>:<bytes>:<loaded>:<modified>` per page. `Deserialize` reads the lines back with
`getline`, takes the fields apart with `getline` on `:`, and rebuilds the list from a cleared
one by calls of `SetPageLoadedStatus`.

* `deserialize_serialize`: for a well-formed list whose size fits in `off_t` and an inode in
  `(0, 2^63)`, reading back what `Serialize` wrote succeeds and gives the compressed pages;
* `deserialize_isModified`: after that round trip `IsModified()` reports whether a page was
  modified, since the `is_shrink` flag is not part of the file;
* `deserialize_wellFormed`: whatever the file holds, `Deserialize` leaves a well-formed list,
  and a compressed one when it succeeds.
-/

namespace S3fs

/-! ## Numbers as text -/

/-- `ostream << n` for an unsigned number: its decimal digits. -/
def decimal (n : Nat) : List Char :=
  Nat.toDigits 10 n

/-- `ostream << n` for a signed `off_t`: a minus sign before the digits of a negative value. -/
def signedDecimal : Int → List Char
  | .ofNat n => decimal n
  | .negSucc n => '-' :: decimal (n + 1)

/-- The C `isspace` test of the "C" locale. -/
def isSpace (c : Char) : Bool :=
  c == ' ' || c == '\t' || c == '\n' || c == '\x0B' || c == '\x0C' || c == '\r'

/-- The sign `strtoll` reads before the digits. -/
def splitSign : List Char → Bool × List Char
  | '-' :: rest => (true, rest)
  | '+' :: rest => (false, rest)
  | rest => (false, rest)

/-- The value of a string of decimal digits, read from the left as `strtoll` reads it. -/
def digitsValue (digits : List Char) : Nat :=
  digits.foldl (fun value digit => value * 10 + (digit.toNat - '0'.toNat)) 0

/-- Modelled from the spec (`cvt_strtoofft` is not among the sources; offsets and lengths are
signed 64-bit counts): `strtoll` in base 10 over the whole string, with optional leading white
space and sign, at least one digit and nothing after the digits, and a value in the range of
`off_t`; any other string gives 0. -/
def cvtStrtoofft (str : List Char) : Int :=
  let (negative, digits) := splitSign (str.dropWhile isSpace)
  let value : Int := if negative then -(digitsValue digits : Int) else digitsValue digits
  if digits ≠ [] ∧ digits.all Char.isDigit ∧ -2 ^ 63 ≤ value ∧ value < 2 ^ 63 then value else 0

theorem digitChar_spec : ∀ d < 10,
    (Nat.digitChar d).isDigit = true ∧ (Nat.digitChar d).toNat - '0'.toNat = d := by
  decide

/-- `Nat.toDigitsCore` puts the digits of `n` before `ds`: a nonempty string of digits whose
value is `n`. -/
theorem toDigitsCore_spec :
    ∀ (fuel n : Nat) (ds : List Char), n < fuel →
      ∃ digits, Nat.toDigitsCore 10 fuel n ds = digits ++ ds ∧ digits ≠ [] ∧
        (∀ c ∈ digits, c.isDigit = true) ∧ digitsValue digits = n
  | 0, _, _, enough => absurd enough (Nat.not_lt_zero _)
  | fuel + 1, n, ds, enough => by
      have last := digitChar_spec (n % 10) (Nat.mod_lt _ (by omega))
      simp only [Nat.toDigitsCore]
      split
      · next small =>
          refine ⟨[Nat.digitChar (n % 10)], rfl, List.cons_ne_nil _ _, ?_, ?_⟩
          · simpa using last.1
          · simp only [digitsValue, List.foldl_cons, List.foldl_nil, Nat.zero_mul, Nat.zero_add,
              last.2]
            omega
      · next large =>
          obtain ⟨digits, equation, nonempty, allDigits, value⟩ :=
            toDigitsCore_spec fuel (n / 10) _ (by omega)
          refine ⟨digits ++ [Nat.digitChar (n % 10)], by rw [equation, List.append_assoc]; rfl,
            by simp, List.forall_mem_append.mpr ⟨allDigits, List.forall_mem_singleton.mpr last.1⟩,
            ?_⟩
          simp only [digitsValue, List.foldl_append, List.foldl_cons, List.foldl_nil] at value ⊢
          rw [value, last.2]
          omega

theorem decimal_spec (n : Nat) :
    decimal n ≠ [] ∧ (∀ c ∈ decimal n, c.isDigit = true) ∧ digitsValue (decimal n) = n := by
  obtain ⟨digits, equation, nonempty, allDigits, value⟩ := toDigitsCore_spec (n + 1) n [] (by omega)
  rw [decimal, Nat.toDigits, equation, List.append_nil]
  exact ⟨nonempty, allDigits, value⟩

theorem isSpace_eq_false {c : Char} (digit : c.isDigit = true) : isSpace c = false := by
  simp only [isSpace, Bool.or_eq_false_iff, beq_eq_false_iff_ne, ne_eq]
  refine ⟨⟨⟨⟨⟨?_, ?_⟩, ?_⟩, ?_⟩, ?_⟩, ?_⟩ <;> rintro rfl <;> exact absurd digit (by decide)

theorem splitSign_of_isDigit {c : Char} (digit : c.isDigit = true) (rest : List Char) :
    splitSign (c :: rest) = (false, c :: rest) := by
  unfold splitSign
  split
  · next equation => cases equation; exact absurd digit (by decide)
  · next equation => cases equation; exact absurd digit (by decide)
  · rfl

/-- `cvt_strtoofft` reads the digits `ostream` writes for an unsigned number as that number
when `off_t` holds it, and as 0 when it does not. -/
theorem cvtStrtoofft_decimal_eq (n : Nat) :
    cvtStrtoofft (decimal n) = if n < 2 ^ 63 then (n : Int) else 0 := by
  obtain ⟨nonempty, allDigits, value⟩ := decimal_spec n
  obtain ⟨first, rest, equation⟩ := List.exists_cons_of_ne_nil nonempty
  have firstDigit := allDigits first (by rw [equation]; exact List.mem_cons_self _ _)
  have unsigned : splitSign ((decimal n).dropWhile isSpace) = (false, decimal n) := by
    rw [equation, List.dropWhile_cons_of_neg (by simp [isSpace_eq_false firstDigit]),
      splitSign_of_isDigit firstDigit]
  simp only [cvtStrtoofft, unsigned, value, Bool.false_eq_true, if_false]
  by_cases bound : n < 2 ^ 63
  · rw [if_pos ⟨nonempty, List.all_eq_true.mpr allDigits, by omega, by omega⟩, if_pos bound]
  · rw [if_neg fun ⟨_, _, _, below⟩ => bound (by omega), if_neg bound]

/-- `cvt_strtoofft` reads back the digits `ostream` writes for any `off_t` value `≥ 0`. -/
theorem cvtStrtoofft_decimal {n : Nat} (bound : n < 2 ^ 63) : cvtStrtoofft (decimal n) = n := by
  rw [cvtStrtoofft_decimal_eq, if_pos bound]

theorem cvtStrtoofft_signedDecimal {value : Int} (nonneg : 0 ≤ value) (bound : value < 2 ^ 63) :
    cvtStrtoofft (signedDecimal value) = value := by
  obtain ⟨n, rfl⟩ := Int.eq_ofNat_of_zero_le nonneg
  exact cvtStrtoofft_decimal (by omega)

/-! ## Lines and fields -/

/-- `std::getline(stream, line, delim)` on what is left of a stream: the characters before the
next `delim`, which is taken but not kept, and the rest; it fails only at the end of the
stream. -/
def getline (delim : Char) (stream : List Char) : Option (List Char × List Char) :=
  if stream = [] then none
  else some (stream.takeWhile (· != delim), (stream.dropWhile (· != delim)).drop 1)

theorem getline_append {delim : Char} {line : List Char} (noDelim : ∀ c ∈ line, c ≠ delim)
    (rest : List Char) : getline delim (line ++ delim :: rest) = some (line, rest) := by
  have keeps : ∀ c ∈ line, (c != delim) = true := by simpa using noDelim
  simp [getline, List.takeWhile_append_of_pos keeps, List.dropWhile_append_of_pos keeps]

theorem getline_of_ne_nil {delim : Char} {line : List Char} (nonempty : line ≠ [])
    (noDelim : ∀ c ∈ line, c ≠ delim) : getline delim line = some (line, []) := by
  have keeps : ∀ c ∈ line, (c != delim) = true := by simpa using noDelim
  simp [getline, nonempty, List.takeWhile_eq_self_iff.mpr keeps,
    List.dropWhile_eq_nil_iff.mpr keeps]

/-! ## `Serialize` -/

/-- The flag characters `Serialize` writes. -/
def flagChar (flag : Bool) : Char :=
  if flag then '1' else '0'

/-- The line `Serialize` writes for one page. -/
def pageLine (page : FdPage) : List Char :=
  signedDecimal page.offset ++ ':' :: (signedDecimal page.bytes ++
    ':' :: flagChar page.loaded :: ':' :: [flagChar page.modified])

/-- `PageList::Serialize`: the text it writes to the stats file. -/
def PageList.serialize (pl : PageList) (inode : Nat) : List Char :=
  (decimal inode ++ ':' :: signedDecimal pl.size) ++
    pl.pages.flatMap fun page => '\n' :: pageLine page

/-! ## `Deserialize` -/

/-- The `pstatus` the loop of `Deserialize` picks for the flags of a line. -/
def pageStatusOf (isLoaded isModified : Bool) : PageStatus :=
  if isLoaded then (if isModified then .loadModified else .loaded)
  else if isModified then .modified else .notLoadModified

@[simp]
theorem pageStatusOf_isLoaded (isLoaded isModified : Bool) :
    (pageStatusOf isLoaded isModified).isLoaded = isLoaded := by
  cases isLoaded <;> cases isModified <;> rfl

@[simp]
theorem pageStatusOf_isModified (isLoaded isModified : Bool) :
    (pageStatusOf isLoaded isModified).isModified = isModified := by
  cases isLoaded <;> cases isModified <;> rfl

/-- The header line: the size it records and the inode, 0 for the old format `<size>`; `none`
when the line is empty or records inode 0. -/
def parseHeader (oneline : List Char) : Option (Int × Nat) :=
  match getline ':' oneline with
  | none => none
  | some (strhead1, rest) =>
      match getline ':' rest with
      | none => some (cvtStrtoofft strhead1, 0)
      | some (strhead2, _) =>
          let cacheInode := (cvtStrtoofft strhead1 % 2 ^ 64).toNat
          if cacheInode = 0 then none else some (cvtStrtoofft strhead2, cacheInode)

/-- The fields of a page line: offset, size and status; `none` when the line has fewer than
three fields, and an absent fourth field means not modified. -/
def parsePageLine (oneline : List Char) : Option (Int × Int × PageStatus) :=
  match getline ':' oneline with
  | none => none
  | some (offsetPart, rest) =>
      match getline ':' rest with
      | none => none
      | some (sizePart, rest) =>
          match getline ':' rest with
          | none => none
          | some (loadedPart, rest) =>
              let isModified :=
                match getline ':' rest with
                | none => false
                | some (modifiedPart, _) => cvtStrtoofft modifiedPart == 1
              some (cvtStrtoofft offsetPart, cvtStrtoofft sizePart,
                pageStatusOf (cvtStrtoofft loadedPart == 1) isModified)

/-- The loop of `Deserialize` over the page lines: `none` when a line is malformed (`is_err`).
Every turn takes at least one character, so the length of the text is enough `fuel`. -/
def loadPages (pl : PageList) : Nat → List Char → Option PageList
  | 0, _ => some pl
  | fuel + 1, stream =>
      match getline '\n' stream with
      | none => some pl
      | some (oneline, rest) =>
          match parsePageLine oneline with
          | none => none
          | some (offset, size, pstatus) =>
              loadPages (pl.setPageLoadedStatus offset size pstatus true) fuel rest

/-- `PageList::Deserialize`: the result and the list it leaves. `file` is what the stats file
holds, `none` when it cannot be opened, examined or read; the text ends at its first NUL. -/
def PageList.deserialize (pl : PageList) (file : Option (List Char)) (inode : Nat) :
    Bool × PageList :=
  match file with
  | none => (false, pl)
  | some contents =>
      if contents.length = 0 then (true, pl.init 0 false false)
      else
        let cleared := pl.clear
        match getline '\n' (contents.takeWhile (· != '\x00')) with
        | none => (false, cleared)
        | some (oneline, rest) =>
            match parseHeader oneline with
            | none => (false, cleared)
            | some (total, cacheInode) =>
                if cacheInode ≠ 0 ∧ cacheInode ≠ inode then (false, cleared)
                else
                  match loadPages cleared rest.length rest with
                  | none => (false, cleared)
                  | some loaded =>
                      if total ≠ loaded.size then (false, cleared) else (true, loaded)

/-! ## The text `Serialize` writes -/

theorem signedDecimal_ne_nil (value : Int) : signedDecimal value ≠ [] := by
  cases value with
  | ofNat n => exact (decimal_spec n).1
  | negSucc n => exact List.cons_ne_nil _ _

/-- A character of a number is neither a field separator, nor a line end, nor a NUL. -/
theorem ne_of_mem_signedDecimal {value : Int} {c : Char} (member : c ∈ signedDecimal value) :
    c ≠ ':' ∧ c ≠ '\n' ∧ c ≠ '\x00' := by
  have digitOrSign : c.isDigit = true ∨ c = '-' := by
    cases value with
    | ofNat n => exact .inl ((decimal_spec n).2.1 c member)
    | negSucc n =>
        rcases List.mem_cons.mp member with sign | digit
        · exact .inr sign
        · exact .inl ((decimal_spec (n + 1)).2.1 c digit)
  rcases digitOrSign with digit | rfl
  · refine ⟨?_, ?_, ?_⟩ <;> rintro rfl <;> exact absurd digit (by decide)
  · decide

theorem ne_of_mem_decimal {n : Nat} {c : Char} (member : c ∈ decimal n) :
    c ≠ ':' ∧ c ≠ '\n' ∧ c ≠ '\x00' :=
  ne_of_mem_signedDecimal (show c ∈ signedDecimal (n : Int) from member)

theorem ne_of_mem_pageLine {page : FdPage} {c : Char} (member : c ∈ pageLine page) :
    c ≠ '\n' ∧ c ≠ '\x00' := by
  simp only [pageLine, List.mem_append, List.mem_cons, List.not_mem_nil, or_false] at member
  rcases member with inOffset | rfl | inBytes | rfl | rfl | rfl | rfl
  · exact (ne_of_mem_signedDecimal inOffset).2
  · decide
  · exact (ne_of_mem_signedDecimal inBytes).2
  · decide
  · unfold flagChar; split <;> decide
  · decide
  · unfold flagChar; split <;> decide

/-- The text of `Serialize` holds no NUL, so `Deserialize` reads all of it. -/
theorem ne_of_mem_serialize {pl : PageList} {inode : Nat} {c : Char}
    (member : c ∈ pl.serialize inode) : c ≠ '\x00' := by
  simp only [PageList.serialize, List.mem_append, List.mem_cons, List.mem_flatMap] at member
  rcases member with (inInode | rfl | inSize) | ⟨page, -, rfl | inLine⟩
  · exact (ne_of_mem_decimal inInode).2.2
  · decide
  · exact (ne_of_mem_signedDecimal inSize).2.2
  · decide
  · exact (ne_of_mem_pageLine inLine).2

/-- What follows the header line of a serialized list. -/
def pageLines : List FdPage → List Char
  | [] => []
  | page :: rest => pageLine page ++ rest.flatMap fun page => '\n' :: pageLine page

theorem getline_pageLines {line : List Char} (nonempty : line ≠ [])
    (noNewline : ∀ c ∈ line, c ≠ '\n') (pages : List FdPage) :
    getline '\n' (line ++ pages.flatMap fun page => '\n' :: pageLine page) =
      some (line, pageLines pages) := by
  cases pages with
  | nil => simpa using getline_of_ne_nil nonempty noNewline
  | cons page rest =>
      rw [List.flatMap_cons, List.cons_append]
      exact getline_append noNewline _

theorem length_le_pageLines (pages : List FdPage) : pages.length ≤ (pageLines pages).length := by
  have each : ∀ rest : List FdPage,
      rest.length ≤ (rest.flatMap fun page => '\n' :: pageLine page).length := by
    intro rest
    induction rest with
    | nil => exact Nat.le_refl 0
    | cons page rest inductionHypothesis =>
        simp only [List.flatMap_cons, List.length_cons, List.length_append]
        omega
  cases pages with
  | nil => exact Nat.le_refl 0
  | cons page rest =>
      have lineNonempty : 0 < (pageLine page).length := by
        simp only [pageLine, List.length_append, List.length_cons]
        omega
      simp only [pageLines, List.length_cons, List.length_append]
      have := each rest
      omega

theorem parsePageLine_pageLine {page : FdPage} (offsetNonneg : 0 ≤ page.offset)
    (offsetBound : page.offset < 2 ^ 63) (bytesNonneg : 0 ≤ page.bytes)
    (bytesBound : page.bytes < 2 ^ 63) :
    parsePageLine (pageLine page) =
      some (page.offset, page.bytes, pageStatusOf page.loaded page.modified) := by
  have flagFields : ∀ loaded modified : Bool,
      getline ':' (flagChar loaded :: ':' :: [flagChar modified]) =
        some ([flagChar loaded], [flagChar modified]) ∧
      getline ':' [flagChar modified] = some ([flagChar modified], []) ∧
      (cvtStrtoofft [flagChar loaded] == 1) = loaded := by
    decide
  obtain ⟨loadedField, modifiedField, loadedValue⟩ := flagFields page.loaded page.modified
  have modifiedValue := (flagFields page.modified page.modified).2.2
  simp only [pageLine, parsePageLine,
    getline_append (fun c member => (ne_of_mem_signedDecimal member).1), loadedField,
    modifiedField, loadedValue, modifiedValue, cvtStrtoofft_signedDecimal offsetNonneg offsetBound,
    cvtStrtoofft_signedDecimal bytesNonneg bytesBound]

/-! ## Rebuilding the list -/

/-- One turn of the loop of `Deserialize` on a line it can read: `SetPageLoadedStatus` over the
page with the page's flags, compressing. -/
def restorePage (pl : PageList) (page : FdPage) : PageList :=
  pl.setPageLoadedStatus page.offset page.bytes (pageStatusOf page.loaded page.modified) true

theorem loadPages_pageLines {pages : List FdPage}
    (bounded : ∀ page ∈ pages, 0 ≤ page.offset ∧ page.offset < 2 ^ 63 ∧ 0 ≤ page.bytes ∧
      page.bytes < 2 ^ 63) :
    ∀ (pl : PageList) (fuel : Nat), pages.length ≤ fuel →
      loadPages pl fuel (pageLines pages) = some (pages.foldl restorePage pl) := by
  induction pages with
  | nil =>
      intro pl fuel _
      cases fuel <;> rfl
  | cons page rest inductionHypothesis =>
      intro pl fuel enough
      obtain ⟨fuel, rfl⟩ : ∃ turns, fuel = turns + 1 :=
        ⟨fuel - 1, by simp only [List.length_cons] at enough; omega⟩
      obtain ⟨offsetNonneg, offsetBound, bytesNonneg, bytesBound⟩ :=
        bounded page (List.mem_cons_self _ _)
      have lineNonempty : pageLine page ≠ [] := by simp [pageLine]
      rw [pageLines, loadPages, getline_pageLines lineNonempty
        (fun c member => (ne_of_mem_pageLine member).1) rest]
      simp only [parsePageLine_pageLine offsetNonneg offsetBound bytesNonneg bytesBound]
      exact inductionHypothesis (fun other member => bounded other (List.mem_cons_of_mem _ member))
        _ fuel (by simp only [List.length_cons] at enough; omega)

section Restore

variable {pl : PageList} {page : FdPage}

/-- A page restored where the list ends extends it by exactly that page. -/
theorem restorePage_spec (wellFormed : WellFormed pl.pages) (atEnd : page.offset = pl.size)
    (positive : 0 < page.bytes) :
    let restored := restorePage pl page
    WellFormed restored.pages ∧ Compressed restored.pages ∧ restored.size = page.next ∧
      restored.isShrink = pl.isShrink ∧
      ∀ x, flagsAt restored.pages x = flagsAt (pl.pages ++ [page]) x := by
  have nonneg := wellFormed.size_nonneg
  obtain ⟨restoredWellFormed, restoredSize, restoredShrink, restoredFlags⟩ :=
    setPageLoadedStatus_statusSet wellFormed (show 0 ≤ page.offset by omega)
      (Int.le_of_lt positive) (pageStatusOf page.loaded page.modified) true
  refine ⟨restoredWellFormed, setPageLoadedStatus_compressed wellFormed _ _ _,
    by rw [restorePage, restoredSize, FdPage.next]; omega, restoredShrink, fun x => ?_⟩
  rw [restorePage, restoredFlags, flagsAt_append, flagsAt_cons, flagsAt_nil]
  simp only [pageStatusOf_isLoaded, pageStatusOf_isModified, FdPage.Contains, FdPage.next]
  by_cases inside : page.offset ≤ x ∧ x < page.offset + page.bytes
  · rw [if_pos inside, if_pos inside, wellFormed.flagsAt_eq_none (by omega)]
    rfl
  · rw [if_neg inside, if_neg inside, if_neg (by omega), Option.or_none]

theorem foldl_restorePage {pages : List FdPage} :
    ∀ {pl : PageList}, WellFormed pl.pages → Contiguous pl.size pages →
      let restored := pages.foldl restorePage pl
      WellFormed restored.pages ∧ (Compressed pl.pages → Compressed restored.pages) ∧
        restored.size = endFrom pl.size pages ∧ restored.isShrink = pl.isShrink ∧
        ∀ x, flagsAt restored.pages x = flagsAt (pl.pages ++ pages) x := by
  induction pages with
  | nil =>
      intro pl wellFormed _
      exact ⟨wellFormed, id, rfl, rfl, fun x => by rw [List.append_nil]; rfl⟩
  | cons page rest inductionHypothesis =>
      intro pl wellFormed contiguous
      obtain ⟨atEnd, positive, tail⟩ := contiguous
      obtain ⟨restoredWellFormed, restoredCompressed, restoredSize, restoredShrink,
        restoredFlags⟩ := restorePage_spec wellFormed atEnd positive
      obtain ⟨foldWellFormed, foldCompressed, foldSize, foldShrink, foldFlags⟩ :=
        inductionHypothesis restoredWellFormed (restoredSize ▸ tail)
      refine ⟨foldWellFormed, fun _ => foldCompressed restoredCompressed, ?_,
        foldShrink.trans restoredShrink, fun x => ?_⟩
      · rw [List.foldl_cons, foldSize, restoredSize]
        rfl
      · rw [List.foldl_cons, foldFlags, flagsAt_append, restoredFlags, ← flagsAt_append,
          List.append_assoc]
        rfl

/-- From a cleared list, the loop rebuilds the compressed pages of a well-formed list. -/
theorem foldl_restorePage_clear (wellFormed : WellFormed pl.pages) (target : PageList) :
    let restored := pl.pages.foldl restorePage target.clear
    restored.size = pl.size ∧ restored.isShrink = false ∧
      restored.pages = compressPages pl.pages := by
  rcases wellFormed with contiguous | emptyFile
  · obtain ⟨restoredWellFormed, restoredCompressed, restoredSize, restoredShrink,
      restoredFlags⟩ :=
      foldl_restorePage (show WellFormed target.clear.pages from Or.inl trivial) contiguous
    refine ⟨restoredSize.trans (size_eq_endFrom pl).symm, restoredShrink, ?_⟩
    cases pages : pl.pages with
    | nil => rfl
    | cons first rest =>
        rw [pages] at contiguous restoredWellFormed restoredCompressed restoredSize restoredFlags
        obtain ⟨atZero, positive, tail⟩ := contiguous
        have restoredContiguous := restoredWellFormed.contiguous_of_size_ne_zero (by
          rw [restoredSize, endFrom_cons]
          have := tail.start_le_end
          simp only [FdPage.next] at this ⊢
          omega)
        have contiguous : Contiguous 0 (first :: rest) := ⟨atZero, positive, tail⟩
        exact eq_of_flagsAt_eq restoredContiguous (compressPages_contiguous contiguous)
          (restoredCompressed List.chain'_nil) (compressPages_compressed contiguous)
          fun x => by rw [restoredFlags, flagsAt_compressPages contiguous]; rfl
  · rcases pl with ⟨pages, isShrink⟩
    match pages, emptyFile with
    | [⟨offset, bytes, loaded, modified⟩], ⟨atZero, empty⟩ =>
        cases (atZero : offset = 0)
        cases (empty : bytes = 0)
        cases loaded <;> cases modified <;> exact ⟨rfl, rfl, rfl⟩

end Restore

/-! ## The round trip -/

section RoundTrip

variable {pl : PageList} {inode : Nat}

/-- The header `Serialize` writes, as `Deserialize` reads it: the inode field through
`cvt_strtoofft` and a cast to `ino_t`, the size field through `cvt_strtoofft`. -/
theorem parseHeader_header (inode : Nat) (size : Int) :
    parseHeader (decimal inode ++ ':' :: signedDecimal size) =
      if (cvtStrtoofft (decimal inode) % 2 ^ 64).toNat = 0 then none
      else
        some (cvtStrtoofft (signedDecimal size), (cvtStrtoofft (decimal inode) % 2 ^ 64).toNat) := by
  have inodeField : getline ':' (decimal inode ++ ':' :: signedDecimal size) =
      some (decimal inode, signedDecimal size) :=
    getline_append (fun c member => (ne_of_mem_decimal member).1) _
  have sizeField : getline ':' (signedDecimal size) = some (signedDecimal size, []) :=
    getline_of_ne_nil (signedDecimal_ne_nil size)
      (fun c member => (ne_of_mem_signedDecimal member).1)
  simp only [parseHeader, inodeField, sizeField]

theorem parseHeader_serialized (sizeNonneg : 0 ≤ pl.size) (sizeBound : pl.size < 2 ^ 63)
    (inodePositive : 0 < inode) (inodeBound : inode < 2 ^ 63) :
    parseHeader (decimal inode ++ ':' :: signedDecimal pl.size) = some (pl.size, inode) := by
  have inodeValue : (cvtStrtoofft (decimal inode) % 2 ^ 64).toNat = inode := by
    rw [cvtStrtoofft_decimal inodeBound, Int.emod_eq_of_lt (by omega) (by omega)]
    rfl
  rw [parseHeader_header, inodeValue, cvtStrtoofft_signedDecimal sizeNonneg sizeBound,
    if_neg (by omega)]

/-- `Deserialize` reads the whole text `Serialize` wrote, and its first line is the header. -/
theorem getline_serialize (pl : PageList) (inode : Nat) :
    getline '\n' ((pl.serialize inode).takeWhile (· != '\x00')) =
      some (decimal inode ++ ':' :: signedDecimal pl.size, pageLines pl.pages) := by
  have headerNonempty : decimal inode ++ ':' :: signedDecimal pl.size ≠ [] := by simp
  have noNewline : ∀ c ∈ decimal inode ++ ':' :: signedDecimal pl.size, c ≠ '\n' := by
    intro c member
    rcases List.mem_append.mp member with inInode | inRest
    · exact (ne_of_mem_decimal inInode).2.1
    · rcases List.mem_cons.mp inRest with rfl | inSize
      · decide
      · exact (ne_of_mem_signedDecimal inSize).2.1
  have wholeText : (pl.serialize inode).takeWhile (· != '\x00') = pl.serialize inode :=
    List.takeWhile_eq_self_iff.mpr fun c member => by simpa using ne_of_mem_serialize member
  rw [wholeText, PageList.serialize, getline_pageLines headerNonempty noNewline]

theorem serialize_length_ne_zero (pl : PageList) (inode : Nat) :
    (pl.serialize inode).length ≠ 0 := by
  simp [PageList.serialize]

/-- Reading back what `Serialize` wrote takes the path with no error, through the loop over
every page. -/
theorem deserialize_serialize_eq (wellFormed : WellFormed pl.pages) (sizeBound : pl.size < 2 ^ 63)
    (inodePositive : 0 < inode) (inodeBound : inode < 2 ^ 63) (target : PageList) :
    target.deserialize (some (pl.serialize inode)) inode =
      (true, pl.pages.foldl restorePage target.clear) := by
  have sizeNonneg := wellFormed.size_nonneg
  have bounded : ∀ page ∈ pl.pages, 0 ≤ page.offset ∧ page.offset < 2 ^ 63 ∧ 0 ≤ page.bytes ∧
      page.bytes < 2 ^ 63 := by
    intro page member
    have bounds : 0 ≤ page.offset ∧ page.next ≤ pl.size := by
      rcases wellFormed with contiguous | emptyFile
      · obtain ⟨low, -, high⟩ := contiguous.mem_bounds member
        exact ⟨low, by rw [size_eq_endFrom]; exact high⟩
      · rcases pl with ⟨pages, isShrink⟩
        match pages, emptyFile, member with
        | [only], ⟨atZero, empty⟩, member =>
            rw [List.mem_singleton.mp member]
            exact ⟨by omega, by simp [PageList.size, FdPage.next, atZero, empty]⟩
    simp only [FdPage.next] at bounds
    have positive : 0 ≤ page.bytes := by
      rcases wellFormed with contiguous | emptyFile
      · exact Int.le_of_lt (contiguous.mem_bounds member).2.1
      · rcases pl with ⟨pages, isShrink⟩
        match pages, emptyFile, member with
        | [only], ⟨_, empty⟩, member =>
            have zero := (congrArg FdPage.bytes (List.mem_singleton.mp member)).trans empty
            omega
    omega
  obtain ⟨restoredSize, -, -⟩ := foldl_restorePage_clear wellFormed target
  simp only [PageList.deserialize, serialize_length_ne_zero, if_false, getline_serialize,
    parseHeader_serialized sizeNonneg sizeBound inodePositive inodeBound, ne_eq,
    not_true_eq_false, and_false, if_false,
    loadPages_pageLines bounded target.clear _ (length_le_pageLines pl.pages), restoredSize]

/-- `Serialize` then `Deserialize` with the same inode, into any list, succeeds and gives the
pages of the written list after `Compress`. -/
theorem deserialize_serialize (pl : PageList) (wellFormed : WellFormed pl.pages)
    (sizeBound : pl.size < 2 ^ 63) (inode : Nat) (inodePositive : 0 < inode)
    (inodeBound : inode < 2 ^ 63) (target : PageList) :
    let result := target.deserialize (some (pl.serialize inode)) inode
    result.1 = true ∧ result.2.pages = pl.compress.pages := by
  rw [deserialize_serialize_eq wellFormed sizeBound inodePositive inodeBound target]
  exact ⟨rfl, (foldl_restorePage_clear wellFormed target).2.2⟩

theorem deserialize_serialize_sample :
    let pl : PageList := ⟨[⟨0, 3, true, false⟩, ⟨3, 2, true, true⟩, ⟨5, 4, true, true⟩], false⟩
    let result := pl.deserialize (some (pl.serialize 7)) 7
    result.1 = true ∧ result.2.pages = pl.compress.pages :=
  deserialize_serialize _ (by decide) (by decide) 7 (by decide) (by decide) _

/-- After the round trip `IsModified()` tells whether a page of the written list was modified:
the `is_shrink` flag of a truncation is not written, and reading clears it. -/
theorem deserialize_isModified (pl : PageList) (wellFormed : WellFormed pl.pages)
    (sizeBound : pl.size < 2 ^ 63) (inode : Nat) (inodePositive : 0 < inode)
    (inodeBound : inode < 2 ^ 63) (target : PageList) :
    (target.deserialize (some (pl.serialize inode)) inode).2.isModified =
      pl.pages.any fun page => page.modified := by
  rw [deserialize_serialize_eq wellFormed sizeBound inodePositive inodeBound target]
  obtain ⟨-, restoredShrink, restoredPages⟩ := foldl_restorePage_clear wellFormed target
  simp only [PageList.isModified, restoredShrink, restoredPages, Bool.false_or]
  exact any_modified_compressPages wellFormed

theorem deserialize_isModified_sample :
    let pl : PageList := ⟨[⟨0, 400, true, false⟩], true⟩
    (pl.deserialize (some (pl.serialize 1)) 1).2.isModified =
      pl.pages.any fun page => page.modified :=
  deserialize_isModified _ (by decide) (by decide) 1 (by decide) (by decide) _

/-- A truncation is lost on the way through the stats file: after `Init(1000, true, false)` and
`Resize(400, false, true)` the list is modified only through `is_shrink`, and after the round
trip it is not modified. -/
theorem isModified_round_trip_truncated :
    let pl := ((PageList.mk [] false).init 1000 true false).resize 400 false true
    pl.isModified = true ∧ (pl.deserialize (some (pl.serialize 1)) 1).2.isModified = false := by
  decide

end RoundTrip

/-! ## Values beyond `off_t` -/

/-- `Serialize` writes the inode as an unsigned number, and `Deserialize` reads it back through
the signed `cvt_strtoofft`: an inode of `2^63` or more, which `ino_t` holds, reads as 0, so the
header looks like one of inode 0 and `Deserialize` rejects the file `Serialize` wrote. -/
theorem deserialize_serialize_high_inode (pl target : PageList) (inode : Nat)
    (high : 2 ^ 63 ≤ inode) :
    cvtStrtoofft (decimal inode) = 0 ∧
      target.deserialize (some (pl.serialize inode)) inode = (false, target.clear) := by
  have unread : cvtStrtoofft (decimal inode) = 0 := by
    rw [cvtStrtoofft_decimal_eq, if_neg (by omega)]
  refine ⟨unread, ?_⟩
  simp only [PageList.deserialize, serialize_length_ne_zero, if_false, getline_serialize,
    parseHeader_header, unread]
  rfl

theorem deserialize_serialize_inode_two_pow_63 :
    let pl : PageList := ⟨[⟨0, 4, true, false⟩], false⟩
    2 ^ 63 ≤ 2 ^ 63 ∧ cvtStrtoofft (decimal (2 ^ 63)) = 0 ∧
      pl.deserialize (some (pl.serialize (2 ^ 63))) (2 ^ 63) = (false, pl.clear) :=
  ⟨Nat.le_refl _, deserialize_serialize_high_inode _ _ _ (Nat.le_refl _)⟩

/-- The loop of `Deserialize` passes the offset and the length of a line, each an `off_t` value,
to `SetPageLoadedStatus` as they are, and on the cleared list that call resizes to their sum:
one line of offset `o` and length `n` leaves a list of size `o + n`, which can reach `2^64 - 2`,
past what `off_t` holds. -/
theorem loadPages_pageLine_size (pl : PageList) (page : FdPage) (offsetNonneg : 0 ≤ page.offset)
    (offsetBound : page.offset < 2 ^ 63) (bytesNonneg : 0 ≤ page.bytes)
    (bytesBound : page.bytes < 2 ^ 63) :
    ∃ loaded, loadPages pl.clear (pageLine page).length (pageLine page) = some loaded ∧
      loaded.size = page.offset + page.bytes := by
  have single : pageLines [page] = pageLine page := List.append_nil _
  obtain ⟨-, restoredSize, -, -⟩ := setPageLoadedStatus_statusSet
    (show WellFormed pl.clear.pages from Or.inl trivial) offsetNonneg bytesNonneg
    (pageStatusOf page.loaded page.modified) true
  refine ⟨restorePage pl.clear page, ?_, ?_⟩
  · rw [← single]
    exact loadPages_pageLines (by simpa using ⟨offsetNonneg, offsetBound, bytesNonneg, bytesBound⟩)
      pl.clear _ (length_le_pageLines [page])
  · rw [restorePage, restoredSize]
    show max 0 (page.offset + page.bytes) = _
    omega

theorem loadPages_pageLine_size_overflow :
    let page : FdPage := ⟨2 ^ 63 - 1, 1, true, false⟩
    (0 ≤ page.offset ∧ page.offset < 2 ^ 63 ∧ 0 ≤ page.bytes ∧ page.bytes < 2 ^ 63) ∧
      2 ^ 63 ≤ page.offset + page.bytes ∧
      ∃ loaded, loadPages (PageList.mk [] false).clear (pageLine page).length (pageLine page) =
        some loaded ∧ loaded.size = page.offset + page.bytes :=
  ⟨by decide, by decide,
    loadPages_pageLine_size _ _ (by decide) (by decide) (by decide) (by decide)⟩

/-! ## Any file -/

/-- Everything `Deserialize` can do: fail before reading and keep the list, find an empty file,
fail after clearing the list, or succeed with what the loop rebuilt from the cleared list. -/
theorem deserialize_cases (pl : PageList) (file : Option (List Char)) (inode : Nat) :
    pl.deserialize file inode = (false, pl) ∨
      pl.deserialize file inode = (true, pl.init 0 false false) ∨
      pl.deserialize file inode = (false, pl.clear) ∨
      ∃ fuel stream loaded, loadPages pl.clear fuel stream = some loaded ∧
        pl.deserialize file inode = (true, loaded) := by
  dsimp only [PageList.deserialize]
  repeat' split
  all_goals first
    | exact .inl rfl
    | exact .inr (.inl rfl)
    | exact .inr (.inr (.inl rfl))
    | exact .inr (.inr (.inr ⟨_, _, _, ‹_›, rfl⟩))

theorem loadPages_wellFormed :
    ∀ (fuel : Nat) (pl : PageList) (stream : List Char) {loaded : PageList},
      WellFormed pl.pages → Compressed pl.pages → loadPages pl fuel stream = some loaded →
      WellFormed loaded.pages ∧ Compressed loaded.pages
  | 0, _, _, _, wellFormed, compressed, loads => by
      cases loads
      exact ⟨wellFormed, compressed⟩
  | fuel + 1, pl, stream, _, wellFormed, compressed, loads => by
      unfold loadPages at loads
      split at loads
      · cases loads
        exact ⟨wellFormed, compressed⟩
      · split at loads
        · cases loads
        · exact loadPages_wellFormed fuel _ _
            (setPageLoadedStatus_wellFormed wellFormed _ _ _ _)
            (setPageLoadedStatus_compressed wellFormed _ _ _) loads

/-- Whatever the stats file holds, `Deserialize` leaves a well-formed list, and a compressed
one when it succeeds. -/
theorem deserialize_wellFormed {pl : PageList} (wellFormed : WellFormed pl.pages)
    (file : Option (List Char)) (inode : Nat) :
    WellFormed (pl.deserialize file inode).2.pages ∧
      ((pl.deserialize file inode).1 = true → Compressed (pl.deserialize file inode).2.pages) := by
  rcases deserialize_cases pl file inode with
    kept | empty | cleared | ⟨fuel, stream, loaded, loads, read⟩
  · rw [kept]
    exact ⟨wellFormed, fun failed => Bool.noConfusion failed⟩
  · rw [empty]
    exact ⟨Or.inr ⟨rfl, rfl⟩, fun _ => List.chain'_singleton _⟩
  · rw [cleared]
    exact ⟨Or.inl trivial, fun _ => List.chain'_nil⟩
  · rw [read]
    obtain ⟨loadedWellFormed, loadedCompressed⟩ :=
      loadPages_wellFormed fuel pl.clear stream (Or.inl trivial) List.chain'_nil loads
    exact ⟨loadedWellFormed, fun _ => loadedCompressed⟩

end S3fs
