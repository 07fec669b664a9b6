import Mathlib.Data.List.DropRight
import Mathlib.Data.List.Lex
import Mathlib.Data.Char

/-!
# Sorted header lists

The request signer keeps the headers of a request in a `curl_slist`, a list of `name: value`
strings sorted by name. `curl_slist_sort_insert` puts an entry in order, replacing one of the
same name up to case; `curl_slist_remove` drops every entry of a name; `get_header_value` reads
one back; and `get_sorted_header_keys` and `get_canonical_headers` write the `SignedHeaders` and
`CanonicalHeaders` of the signature from the list.

The insert trims the key to place the entry but stores the key as given. For keys with no
surrounding white space and no `:`, every run of inserts and removes keeps the list strictly
sorted by name, and `get_header_value` returns the value of the latest insert of the name that
no later remove deleted (`headerList_trimmed_keys`); with nonempty keys the two signature strings
also name the same headers (`sortedHeaderKeys_trimmed_keys`). A key with a leading space breaks
both: it is stored under a name that a later insert of the trimmed key does not match
(`sortInsert_space_key_duplicates`), and `get_sorted_header_keys` writes it with the space that
`get_canonical_headers` trims (`sortedHeaderKeys_space_key`).
-/

namespace S3fs

/-! ## Strings -/

/-- `SPACES` of `string_util.h`: the characters `trim` strips. -/
def spaces : List Char := [' ', '\t', '\r', '\n']

/-- `trim_left`: the string without its leading `SPACES`. -/
def trimLeft (s : List Char) : List Char :=
  s.dropWhile spaces.contains

/-- `trim_right`: the string without its trailing `SPACES`. -/
def trimRight (s : List Char) : List Char :=
  s.rdropWhile spaces.contains

/-- `trim`: `trim_left(trim_right(s))`. -/
def trim (s : List Char) : List Char :=
  trimLeft (trimRight s)

/-- `lower`: `tolower` on every character. -/
def lower (s : List Char) : List Char :=
  s.map Char.toLower

/-- `strcasecmp`: the two strings compared character by character after `tolower`, the shorter
first when one is a prefix of the other; only the sign of the result is kept. -/
def strcasecmp (a b : List Char) : Ordering :=
  compare (lower a) (lower b)

/-- `data.find(':', 0)` on an entry: the text before the first `:`, the whole entry when there is
none, and the text after it. -/
def splitHeader (data : List Char) : List Char × Option (List Char) :=
  match data.span (· != ':') with
  | (name, _ :: value) => (name, some value)
  | (name, []) => (name, none)

theorem toNat_ofNat_of_lt {n : Nat} (small : n < 0xd800) : (Char.ofNat n).toNat = n := by
  have valid : n.isValidChar := Or.inl small
  simp only [Char.ofNat, dif_pos valid, Char.ofNatAux, Char.toNat, UInt32.toNat]
  rfl

theorem toNat_of_mem_spaces {c : Char} (member : c ∈ spaces) : c.toNat < 33 := by
  simp only [spaces, List.mem_cons, List.mem_singleton, List.not_mem_nil, or_false] at member
  rcases member with rfl | rfl | rfl | rfl <;> decide

/-- `tolower` maps only the letters `A` to `Z`, so it keeps `SPACES` and every other character
out of them. -/
theorem spaces_contains_toLower (c : Char) : spaces.contains c.toLower = spaces.contains c := by
  rw [Bool.eq_iff_iff, List.elem_iff, List.elem_iff]
  unfold Char.toLower
  dsimp only
  split_ifs with upper
  · constructor <;> intro member <;> have := toNat_of_mem_spaces member
    · rw [toNat_ofNat_of_lt (by omega)] at this
      omega
    · omega
  · rfl

theorem toLower_eq_colon (c : Char) : c.toLower = ':' ↔ c = ':' := by
  have colon : (':' : Char).toNat = 58 := rfl
  unfold Char.toLower
  dsimp only
  split_ifs with upper
  · constructor <;> intro same <;> have := congrArg Char.toNat same
    · rw [toNat_ofNat_of_lt (by omega)] at this
      omega
    · omega
  · rfl

theorem length_lower (s : List Char) : (lower s).length = s.length :=
  List.length_map _ _

theorem colon_not_mem_lower {s : List Char} (noColon : ':' ∉ s) : ':' ∉ lower s := by
  simp only [lower, List.mem_map, not_exists, not_and]
  exact fun c member same => noColon ((toLower_eq_colon c).mp same ▸ member)

theorem strcasecmp_eq_iff {a b : List Char} : strcasecmp a b = .eq ↔ lower a = lower b :=
  compare_eq_iff_eq

theorem strcasecmp_lt_iff {a b : List Char} : strcasecmp a b = .lt ↔ lower a < lower b :=
  compare_lt_iff_lt

theorem strcasecmp_gt_iff {a b : List Char} : strcasecmp a b = .gt ↔ lower b < lower a :=
  compare_gt_iff_gt

theorem rdropWhile_cons {p : Char → Bool} {c : Char} (drop : p c = true) (s : List Char) :
    (c :: s).rdropWhile p = if s.rdropWhile p = [] then [] else c :: s.rdropWhile p := by
  simp only [List.rdropWhile, List.reverse_cons, List.dropWhile_append]
  by_cases empty : s.reverse.dropWhile p = []
  · simp [empty, drop]
  · simp [empty]

@[simp] theorem trim_nil : trim [] = [] := rfl

theorem trim_cons_of_mem {c : Char} (member : c ∈ spaces) (s : List Char) :
    trim (c :: s) = trim s := by
  have drop : spaces.contains c = true := List.elem_iff.mpr member
  simp only [trim, trimRight, rdropWhile_cons drop]
  split
  · next empty => simp [trimLeft, empty]
  · exact List.dropWhile_cons_of_pos drop

theorem trim_trim (s : List Char) : trim (trim s) = trim s := by
  have lastKept : trimRight (trimLeft (trimRight s)) = trimLeft (trimRight s) := by
    rw [trimRight, List.rdropWhile_eq_self_iff]
    intro nonempty
    have kept : trimRight s ≠ [] := fun empty => nonempty (by rw [empty]; rfl)
    unfold trimLeft at nonempty ⊢
    rw [(List.dropWhile_suffix spaces.contains).getLast nonempty]
    exact List.rdropWhile_last_not spaces.contains s kept
  rw [trim, trim, lastKept, trimLeft, trimLeft, List.dropWhile_idempotent]

theorem trim_lower (s : List Char) : trim (lower s) = lower (trim s) := by
  have same : spaces.contains ∘ Char.toLower = spaces.contains := funext spaces_contains_toLower
  simp only [trim, trimLeft, trimRight, lower, List.rdropWhile, ← List.map_reverse,
    List.dropWhile_map, same]

/-- The text `curl_slist_sort_insert` writes after the name reads back as the trimmed value. -/
theorem trim_space_trim (value : List Char) : trim (' ' :: trim value) = trim value := by
  rw [trim_cons_of_mem (by decide), trim_trim]

theorem splitHeader_append {name : List Char} (noColon : ':' ∉ name) (value : List Char) :
    splitHeader (name ++ ':' :: value) = (name, some value) := by
  have before : ∀ c ∈ name, (c != ':') = true := fun c member => by
    simpa using fun same : c = ':' => noColon (same ▸ member)
  simp [splitHeader, List.span_eq_take_drop, List.takeWhile_append_of_pos before,
    List.dropWhile_append_of_pos before]

/-! ## The header list -/

/-- The loop of `curl_slist_sort_insert` over the entries from `*p` on: the entry `data` replaces
the first entry whose name equals `strkey` up to case, goes before the first greater one, or
goes at the end. -/
def sortInsertFrom (strkey data : List Char) : List (List Char) → List (List Char)
  | [] => [data]
  | cur :: rest =>
      match strcasecmp strkey (splitHeader cur).1 with
      | .eq => data :: rest
      | .lt => data :: cur :: rest
      | .gt => cur :: sortInsertFrom strkey data rest

/-- `curl_slist_sort_insert(list, key, value)` for a non-null `key`, `none` standing for a null
`value`. The entry is placed by the trimmed key but written with the key as given. -/
def curlSlistSortInsert (list : List (List Char)) (key : List Char)
    (value : Option (List Char)) : List (List Char) :=
  let strkey := trim key
  let strval := match value with
    | some value => trim value
    | none => []
  let strnew := key ++ ':' :: ' ' :: strval
  sortInsertFrom strkey strnew list

/-- `curl_slist_remove(list, key)` for a non-null `key`: every entry whose name equals the
trimmed key up to case is dropped. -/
def curlSlistRemove (list : List (List Char)) (key : List Char) : List (List Char) :=
  let strkey := trim key
  list.filter fun cur => strcasecmp strkey (splitHeader cur).1 != .eq

/-- One key appended to `sorted_headers`: a `;` first unless the string is still empty. -/
def addHeaderKey (sortedHeaders strkey : List Char) : List Char :=
  (if sortedHeaders = [] then sortedHeaders else sortedHeaders ++ [';']) ++ lower strkey

/-- The loop of `get_sorted_header_keys`: the lowered name of every entry, skipping those whose
value trims to nothing. -/
def sortedHeaderKeysFrom (sortedHeaders : List Char) : List (List Char) → List Char
  | [] => sortedHeaders
  | data :: rest =>
      match splitHeader data with
      | (name, some value) =>
          if trim value = [] then sortedHeaderKeysFrom sortedHeaders rest
          else sortedHeaderKeysFrom (addHeaderKey sortedHeaders name) rest
      | (_, none) => sortedHeaderKeysFrom (addHeaderKey sortedHeaders data) rest

/-- `get_sorted_header_keys(list)`: the `SignedHeaders` of a signature. -/
def getSortedHeaderKeys (list : List (List Char)) : List Char :=
  sortedHeaderKeysFrom [] list

/-- `get_header_value(list, key)`: the trimmed value of the first entry whose trimmed name
equals `key` up to case, or the empty string. -/
def getHeaderValue : List (List Char) → List Char → List Char
  | [], _ => []
  | data :: rest, key =>
      match splitHeader data with
      | (name, some value) =>
          if strcasecmp (trim name) key = .eq then trim value else getHeaderValue rest key
      | (_, none) => getHeaderValue rest key

/-- The line `get_canonical_headers` writes for one entry, without its newline: the lowered and
trimmed name, `:` and the trimmed value; `none` when the value trims to nothing, or when only
`x-amz` headers are asked for and the line starts otherwise. -/
def canonicalHeaderLine (onlyAmz : Bool) (data : List Char) : Option (List Char) :=
  let line := match splitHeader data with
    | (name, some value) =>
        if trim value = [] then none else some (trim (lower name) ++ ':' :: trim value)
    | (_, none) => some (trim (lower data))
  line.bind fun strhead =>
    if onlyAmz ∧ strhead.take 5 ≠ ['x', '-', 'a', 'm', 'z'] then none else some strhead

/-- The loop of `get_canonical_headers`: every line followed by a newline. -/
def canonicalHeadersFrom (onlyAmz : Bool) (canonicalHeaders : List Char) :
    List (List Char) → List Char
  | [] => canonicalHeaders
  | data :: rest =>
      match canonicalHeaderLine onlyAmz data with
      | some strhead => canonicalHeadersFrom onlyAmz (canonicalHeaders ++ strhead ++ ['\n']) rest
      | none => canonicalHeadersFrom onlyAmz canonicalHeaders rest

/-- `get_canonical_headers(list, only_amz)`: the `CanonicalHeaders` of a signature, a lone newline
for the empty list. -/
def getCanonicalHeaders (list : List (List Char)) (onlyAmz : Bool) : List Char :=
  if list = [] then ['\n'] else canonicalHeadersFrom onlyAmz [] list

/-- The lines `get_canonical_headers` writes, in order. -/
def canonicalHeaderLines (list : List (List Char)) (onlyAmz : Bool) : List (List Char) :=
  list.filterMap (canonicalHeaderLine onlyAmz)

/-- The output of `get_canonical_headers` is its lines, each followed by a newline. -/
theorem canonicalHeadersFrom_eq (onlyAmz : Bool) :
    ∀ (canonicalHeaders : List Char) (list : List (List Char)),
      canonicalHeadersFrom onlyAmz canonicalHeaders list =
        canonicalHeaders ++ ((canonicalHeaderLines list onlyAmz).map (· ++ ['\n'])).flatten
  | _, [] => by simp [canonicalHeadersFrom, canonicalHeaderLines]
  | canonicalHeaders, data :: rest => by
      simp only [canonicalHeadersFrom, canonicalHeaderLines, List.filterMap_cons]
      split <;> next line =>
        rw [canonicalHeadersFrom_eq, line]
        simp [canonicalHeaderLines]

theorem getCanonicalHeaders_eq (list : List (List Char)) (onlyAmz : Bool) :
    getCanonicalHeaders list onlyAmz =
      if list = [] then ['\n']
      else ((canonicalHeaderLines list onlyAmz).map (· ++ ['\n'])).flatten := by
  rw [getCanonicalHeaders, canonicalHeadersFrom_eq, List.nil_append]

/-! ## A key with a leading space -/

theorem toLower_of_mem_spaces {c : Char} (space : c ∈ spaces) : c.toLower = c := by
  simp only [spaces, List.mem_cons, List.mem_singleton, List.not_mem_nil, or_false] at space
  rcases space with rfl | rfl | rfl | rfl <;> decide

theorem colon_not_mem_cons {c : Char} (space : c ∈ spaces) {name : List Char}
    (noColon : ':' ∉ name) : ':' ∉ c :: name := by
  have small := toNat_of_mem_spaces space
  rintro (_ | ⟨_, member⟩)
  · exact absurd small (by decide)
  · exact noColon member

theorem splitHeader_space_key {c : Char} (space : c ∈ spaces) {name : List Char}
    (noColon : ':' ∉ name) (rest : List Char) :
    splitHeader (c :: (name ++ ':' :: rest)) = (c :: name, some rest) :=
  splitHeader_append (colon_not_mem_cons space noColon) rest

/-- A key with a leading space is placed as its trimmed form but stored with the space, so a
later insert of the trimmed key does not find it: the list holds two entries of one trimmed name,
and is not sorted strictly by trimmed name. -/
theorem sortInsert_space_key_duplicates {c : Char} (space : c ∈ spaces) {name : List Char}
    (trimmed : trim name = name) (noColon : ':' ∉ name)
    (firstValue laterValue : Option (List Char)) :
    let list := curlSlistSortInsert (curlSlistSortInsert [] (c :: name) firstValue) name laterValue
    list.length = 2 ∧ (∀ data ∈ list, trim (splitHeader data).1 = name) ∧
      ¬ list.Pairwise fun data next =>
        strcasecmp (trim (splitHeader data).1) (trim (splitHeader next).1) = .lt := by
  have spaced : trim (c :: name) = name := (trim_cons_of_mem space name).trans trimmed
  have differ : strcasecmp name (c :: name) ≠ .eq := fun same => by
    have := congrArg List.length (strcasecmp_eq_iff.mp same)
    simp [length_lower] at this
  have self : strcasecmp name name = .eq := strcasecmp_eq_iff.mpr rfl
  have stored := splitHeader_space_key space noColon
  simp only [curlSlistSortInsert, sortInsertFrom, trimmed, spaced, List.cons_append, stored]
  rcases order : strcasecmp name (c :: name)
  · simp [splitHeader_append noColon, stored, spaced, trimmed, self]
  · exact absurd order differ
  · simp [splitHeader_append noColon, stored, spaced, trimmed, self]

theorem sortInsert_space_key_duplicates_sample :
    let list := curlSlistSortInsert (curlSlistSortInsert [] [' ', 'a'] (some ['1'])) ['a']
      (some ['2'])
    (' ' ∈ spaces ∧ trim ['a'] = ['a'] ∧ ':' ∉ ['a']) ∧
      list.length = 2 ∧ (∀ data ∈ list, trim (splitHeader data).1 = ['a']) ∧
        ¬ list.Pairwise fun data next =>
          strcasecmp (trim (splitHeader data).1) (trim (splitHeader next).1) = .lt :=
  ⟨⟨by decide, by decide, by decide⟩,
    sortInsert_space_key_duplicates (by decide) (by decide) (by decide) _ _⟩

/-- The entry of the later insert of `a` goes after the one stored as ` a`, and
`get_header_value` finds the earlier value first. -/
example :
    let list := curlSlistSortInsert (curlSlistSortInsert [] [' ', 'a'] (some ['1'])) ['a']
      (some ['2'])
    list = [[' ', 'a', ':', ' ', '1'], ['a', ':', ' ', '2']] ∧
      getHeaderValue list ['a'] = ['1'] := by
  decide

/-- `get_sorted_header_keys` writes the name of an entry stored with a leading space as it is,
lowered, while `get_canonical_headers` trims it: the two signature strings name different
headers. -/
theorem sortedHeaderKeys_space_key {c : Char} (space : c ∈ spaces) {name : List Char}
    (trimmed : trim name = name) (noColon : ':' ∉ name) (value : List Char)
    (valued : trim value ≠ []) :
    let list := curlSlistSortInsert [] (c :: name) (some value)
    let names := (canonicalHeaderLines list false).map fun line => (splitHeader line).1
    getSortedHeaderKeys list = c :: lower name ∧ names = [lower name] ∧
      getSortedHeaderKeys list ≠ [';'].intercalate names := by
  have stored := splitHeader_space_key space noColon
  have lowered : lower (c :: name) = c :: lower name := by
    rw [lower, List.map_cons, toLower_of_mem_spaces space]
    rfl
  have canonicalName : trim (lower (c :: name)) = lower name := by
    rw [lowered, trim_cons_of_mem space, trim_lower, trimmed]
  have keys : getSortedHeaderKeys (curlSlistSortInsert [] (c :: name) (some value)) =
      c :: lower name := by
    simp [getSortedHeaderKeys, curlSlistSortInsert, sortInsertFrom, sortedHeaderKeysFrom, stored,
      trim_space_trim, valued, addHeaderKey, lowered]
  have names : (canonicalHeaderLines (curlSlistSortInsert [] (c :: name) (some value)) false).map
      (fun line => (splitHeader line).1) = [lower name] := by
    simp [canonicalHeaderLines, canonicalHeaderLine, curlSlistSortInsert, sortInsertFrom, stored,
      trim_space_trim, valued, canonicalName, splitHeader_append (colon_not_mem_lower noColon)]
  refine ⟨keys, names, ?_⟩
  rw [keys, names]
  intro same
  have := congrArg List.length same
  simp [List.intercalate] at this

theorem sortedHeaderKeys_space_key_sample :
    let list := curlSlistSortInsert [] [' ', 'a'] (some ['1'])
    let names := (canonicalHeaderLines list false).map fun line => (splitHeader line).1
    (' ' ∈ spaces ∧ trim ['a'] = ['a'] ∧ ':' ∉ ['a'] ∧ trim ['1'] ≠ []) ∧
      getSortedHeaderKeys list = ' ' :: lower ['a'] ∧ names = [lower ['a']] ∧
        getSortedHeaderKeys list ≠ [';'].intercalate names :=
  ⟨⟨by decide, by decide, by decide, by decide⟩,
    sortedHeaderKeys_space_key (by decide) (by decide) (by decide) _ (by decide)⟩

/-- An empty first name leaves `sorted_headers` empty, so the next key gets no `;` before it. -/
example :
    let list := curlSlistSortInsert (curlSlistSortInsert [] [] (some ['1'])) ['b'] (some ['2'])
    getSortedHeaderKeys list = ['b'] ∧
      [';'].intercalate ((canonicalHeaderLines list false).map fun line => (splitHeader line).1) =
        [';', 'b'] := by
  decide

/-! ## Entries of keys without surrounding spaces -/

/-- An entry as `curl_slist_sort_insert` writes it for a key with no surrounding `SPACES` and no
`:`: the name, `: ` and the trimmed value. -/
structure IsEntry (data name value : List Char) : Prop where
  data_eq : data = name ++ ':' :: ' ' :: value
  nameTrimmed : trim name = name
  noColon : ':' ∉ name
  valueTrimmed : trim value = value

/-- Every entry of the list is one an insert writes, of a name that satisfies `keyOk`. -/
def Entries (keyOk : List Char → Prop) (list : List (List Char)) : Prop :=
  ∀ data ∈ list, ∃ name value, IsEntry data name value ∧ keyOk name

/-- The names of the list strictly ascend under `strcasecmp`. -/
def NamesAscending (list : List (List Char)) : Prop :=
  list.Pairwise fun data next => lower (splitHeader data).1 < lower (splitHeader next).1

theorem IsEntry.splitHeader_eq {data name value : List Char} (entry : IsEntry data name value) :
    splitHeader data = (name, some (' ' :: value)) := by
  rw [entry.data_eq, splitHeader_append entry.noColon]

theorem IsEntry.trim_value {data name value : List Char} (entry : IsEntry data name value) :
    trim (' ' :: value) = value := by
  rw [trim_cons_of_mem (by decide), entry.valueTrimmed]

theorem getHeaderValue_cons_of_entry {data name value : List Char}
    (entry : IsEntry data name value) (rest : List (List Char)) (key : List Char) :
    getHeaderValue (data :: rest) key =
      if lower name = lower key then value else getHeaderValue rest key := by
  simp only [getHeaderValue, entry.splitHeader_eq, entry.nameTrimmed, strcasecmp_eq_iff,
    entry.trim_value]

theorem mem_sortInsertFrom {strkey data other : List Char} :
    ∀ {list : List (List Char)}, other ∈ sortInsertFrom strkey data list →
      other = data ∨ other ∈ list
  | [], member => .inl (List.mem_singleton.mp member)
  | cur :: rest, member => by
      simp only [sortInsertFrom] at member
      split at member
      · rcases List.mem_cons.mp member with rfl | later
        exacts [.inl rfl, .inr (List.mem_cons_of_mem _ later)]
      · rcases List.mem_cons.mp member with rfl | later
        exacts [.inl rfl, .inr later]
      · rcases List.mem_cons.mp member with rfl | later
        · exact .inr (List.mem_cons_self _ _)
        · exact (mem_sortInsertFrom later).imp_right (List.mem_cons_of_mem _)

/-- The sorted insert keeps the names ascending when the entry is stored under the key it is
placed by. -/
theorem NamesAscending.sortInsertFrom {strkey data : List Char}
    (named : (splitHeader data).1 = strkey) :
    ∀ {list : List (List Char)}, NamesAscending list →
      NamesAscending (S3fs.sortInsertFrom strkey data list)
  | [], _ => List.pairwise_singleton _ _
  | cur :: rest, ascending => by
      obtain ⟨curBefore, restAscending⟩ := List.pairwise_cons.mp ascending
      simp only [S3fs.sortInsertFrom]
      split
      · next order =>
          have same := strcasecmp_eq_iff.mp order
          refine List.pairwise_cons.mpr ⟨fun other member => ?_, restAscending⟩
          rw [named, same]
          exact curBefore other member
      · next order =>
          have below := strcasecmp_lt_iff.mp order
          rw [← named] at below
          refine List.pairwise_cons.mpr ⟨fun other member => ?_, ascending⟩
          rcases List.mem_cons.mp member with rfl | later
          exacts [below, lt_trans below (curBefore other later)]
      · next order =>
          have above := strcasecmp_gt_iff.mp order
          rw [← named] at above
          refine List.pairwise_cons.mpr ⟨fun other member => ?_,
            NamesAscending.sortInsertFrom named restAscending⟩
          rcases mem_sortInsertFrom member with rfl | later
          exacts [above, curBefore other later]

section Entries

variable {keyOk : List Char → Prop}

theorem Entries.insert {list : List (List Char)} (entries : Entries keyOk list)
    {key : List Char} (trimmed : trim key = key) (noColon : ':' ∉ key) (ok : keyOk key)
    (value : Option (List Char)) : Entries keyOk (curlSlistSortInsert list key value) := by
  intro data member
  rcases mem_sortInsertFrom member with rfl | old
  · refine ⟨key, _, ⟨rfl, trimmed, noColon, ?_⟩, ok⟩
    cases value <;> simp [trim_trim]
  · exact entries data old

theorem Entries.remove {list : List (List Char)} (entries : Entries keyOk list)
    (key : List Char) : Entries keyOk (curlSlistRemove list key) :=
  fun data member => entries data (List.mem_filter.mp member).1

/-- After an insert of a key with no surrounding spaces, `get_header_value` finds the inserted
value for that name up to case, and what it found before for every other name. -/
theorem getHeaderValue_sortInsertFrom {key strval : List Char}
    (entry : IsEntry (key ++ ':' :: ' ' :: strval) key strval) (lookup : List Char) :
    ∀ {list : List (List Char)}, Entries keyOk list →
      getHeaderValue (sortInsertFrom key (key ++ ':' :: ' ' :: strval) list) lookup =
        if lower key = lower lookup then strval else getHeaderValue list lookup
  | [], _ => by
      rw [sortInsertFrom, getHeaderValue_cons_of_entry entry]
  | cur :: rest, entries => by
      obtain ⟨name, value, curEntry, -⟩ := entries cur (List.mem_cons_self _ _)
      have restEntries : Entries keyOk rest := fun data member =>
        entries data (List.mem_cons_of_mem _ member)
      rw [getHeaderValue_cons_of_entry curEntry, sortInsertFrom, curEntry.splitHeader_eq]
      dsimp only
      split
      · next order =>
          rw [getHeaderValue_cons_of_entry entry, strcasecmp_eq_iff.mp order]
          split_ifs <;> rfl
      · rw [getHeaderValue_cons_of_entry entry, getHeaderValue_cons_of_entry curEntry]
      · next order =>
          have differ := ne_of_gt (strcasecmp_gt_iff.mp order)
          rw [getHeaderValue_cons_of_entry curEntry,
            getHeaderValue_sortInsertFrom entry lookup restEntries]
          split_ifs with here there <;>
            first | rfl | exact absurd (here.trans there.symm) differ.symm

/-- After a remove, `get_header_value` finds nothing for the removed name up to case, and what it
found before for every other name. -/
theorem getHeaderValue_curlSlistRemove (key lookup : List Char) :
    ∀ {list : List (List Char)}, Entries keyOk list →
      getHeaderValue (curlSlistRemove list key) lookup =
        if lower (trim key) = lower lookup then [] else getHeaderValue list lookup
  | [], _ => by
      simp only [curlSlistRemove, List.filter_nil, getHeaderValue, ite_self]
  | cur :: rest, entries => by
      obtain ⟨name, value, curEntry, -⟩ := entries cur (List.mem_cons_self _ _)
      have restEntries : Entries keyOk rest := fun data member =>
        entries data (List.mem_cons_of_mem _ member)
      have restRemoved := getHeaderValue_curlSlistRemove key lookup restEntries
      simp only [curlSlistRemove] at restRemoved ⊢
      rw [List.filter_cons, curEntry.splitHeader_eq, getHeaderValue_cons_of_entry curEntry]
      dsimp only
      by_cases same : lower (trim key) = lower name
      · rw [if_neg (by rw [strcasecmp_eq_iff.mpr same]; decide), restRemoved]
        split_ifs with removed found <;> first | rfl | exact absurd (same.trans found) removed
      · rw [if_pos (by cases order : strcasecmp (trim key) name <;>
            first | rfl | exact absurd (strcasecmp_eq_iff.mp order) same),
          getHeaderValue_cons_of_entry curEntry, restRemoved]
        split_ifs with found removed <;> first | rfl | exact absurd (removed.trans found.symm) same

end Entries

/-! ## Runs of inserts and removes -/

/-- A call on a header list. -/
inductive HeaderOp where
  | insert (key : List Char) (value : Option (List Char))
  | remove (key : List Char)
  deriving DecidableEq, Repr

/-- The key a call passes. -/
def HeaderOp.key : HeaderOp → List Char
  | insert key _ => key
  | remove key => key

/-- The list a call returns. -/
def HeaderOp.apply (list : List (List Char)) : HeaderOp → List (List Char)
  | insert key value => curlSlistSortInsert list key value
  | remove key => curlSlistRemove list key

/-- The list after a run of calls from the empty list. -/
def runHeaderOps (ops : List HeaderOp) : List (List Char) :=
  ops.foldl HeaderOp.apply []

/-- What a run of calls leaves for `key`: the trimmed value of the latest insert of a key equal
to it up to case and surrounding spaces, unless a later remove of such a key deleted it; the
empty string when there is none. -/
def latestHeaderValue (ops : List HeaderOp) (key : List Char) : List Char :=
  ops.foldl (fun current op => match op with
    | .insert inserted value =>
        if lower (trim inserted) = lower key then (value.map trim).getD [] else current
    | .remove removed => if lower (trim removed) = lower key then [] else current) []

theorem curlSlistSortInsert_eq (list : List (List Char)) (key : List Char)
    (value : Option (List Char)) :
    curlSlistSortInsert list key value =
      sortInsertFrom (trim key) (key ++ ':' :: ' ' :: (value.map trim).getD []) list := by
  cases value <;> rfl

theorem runHeaderOps_concat (ops : List HeaderOp) (op : HeaderOp) :
    runHeaderOps (ops ++ [op]) = HeaderOp.apply (runHeaderOps ops) op := by
  simp only [runHeaderOps, List.foldl_append, List.foldl_cons, List.foldl_nil]

theorem latestHeaderValue_concat (ops : List HeaderOp) (op : HeaderOp) (key : List Char) :
    latestHeaderValue (ops ++ [op]) key = match op with
      | .insert inserted value =>
          if lower (trim inserted) = lower key then (value.map trim).getD []
          else latestHeaderValue ops key
      | .remove removed =>
          if lower (trim removed) = lower key then [] else latestHeaderValue ops key := by
  simp only [latestHeaderValue, List.foldl_append, List.foldl_cons, List.foldl_nil]

section Run

variable {keyOk : List Char → Prop}

/-- A run of calls with keys without surrounding spaces or `:` keeps the entries written by
inserts with ascending names, and `get_header_value` then returns the latest value. -/
theorem runHeaderOps_spec (ops : List HeaderOp)
    (keys : ∀ op ∈ ops, trim op.key = op.key ∧ ':' ∉ op.key ∧ keyOk op.key) :
    Entries keyOk (runHeaderOps ops) ∧ NamesAscending (runHeaderOps ops) ∧
      ∀ lookup, getHeaderValue (runHeaderOps ops) lookup = latestHeaderValue ops lookup := by
  induction ops using List.reverseRecOn with
  | nil => exact ⟨fun _ member => absurd member (List.not_mem_nil _), List.Pairwise.nil,
      fun _ => rfl⟩
  | append_singleton ops op inductionHypothesis =>
      obtain ⟨entries, ascending, found⟩ := inductionHypothesis fun op member =>
        keys op (List.mem_append_left _ member)
      obtain ⟨trimmed, noColon, ok⟩ := keys op (List.mem_append_right _ (List.mem_singleton_self _))
      clear keys inductionHypothesis
      simp only [runHeaderOps_concat, latestHeaderValue_concat]
      cases op with
      | insert key value =>
          simp only [HeaderOp.key] at trimmed noColon ok
          have entry : IsEntry (key ++ ':' :: ' ' :: (value.map trim).getD []) key
              ((value.map trim).getD []) :=
            ⟨rfl, trimmed, noColon, by cases value <;> simp [trim_trim]⟩
          refine ⟨entries.insert trimmed noColon ok value, ?_, fun lookup => ?_⟩
          · rw [HeaderOp.apply, curlSlistSortInsert_eq, trimmed]
            exact ascending.sortInsertFrom (by rw [splitHeader_append noColon])
          · rw [HeaderOp.apply, curlSlistSortInsert_eq, trimmed,
              getHeaderValue_sortInsertFrom entry lookup entries, found]
            simp only [trimmed]
      | remove key =>
          refine ⟨entries.remove key, ascending.sublist (List.filter_sublist _),
            fun lookup => ?_⟩
          rw [HeaderOp.apply, getHeaderValue_curlSlistRemove key lookup entries, found]

end Run

/-- For keys with no surrounding spaces and no `:`, every run of inserts and removes from the empty
list keeps the entries strictly ascending by trimmed name under `strcasecmp`, and
`get_header_value` returns for every name the value of the latest insert of it, up to case, that
no later remove deleted, or the empty string. -/
theorem headerList_trimmed_keys (ops : List HeaderOp)
    (keys : ∀ op ∈ ops, trim op.key = op.key ∧ ':' ∉ op.key) :
    let list := runHeaderOps ops
    list.Pairwise (fun data next =>
        strcasecmp (trim (splitHeader data).1) (trim (splitHeader next).1) = .lt) ∧
      ∀ lookup, getHeaderValue list lookup = latestHeaderValue ops lookup := by
  obtain ⟨entries, ascending, found⟩ := @runHeaderOps_spec (fun _ => True) ops fun op member =>
    ⟨(keys op member).1, (keys op member).2, trivial⟩
  refine ⟨ascending.imp_of_mem fun {data next} dataMember nextMember below => ?_, found⟩
  obtain ⟨_, _, dataEntry, -⟩ := entries data dataMember
  obtain ⟨_, _, nextEntry, -⟩ := entries next nextMember
  rw [dataEntry.splitHeader_eq, nextEntry.splitHeader_eq] at below ⊢
  rw [dataEntry.nameTrimmed, nextEntry.nameTrimmed]
  exact strcasecmp_lt_iff.mpr below

theorem headerList_trimmed_keys_sample :
    let ops := [HeaderOp.insert ['b'] (some ['1']), .insert ['A'] (some [' ', '2']),
      .insert ['a'] (some ['3']), .remove ['B']]
    (∀ op ∈ ops, trim op.key = op.key ∧ ':' ∉ op.key) ∧
      (runHeaderOps ops).Pairwise (fun data next =>
          strcasecmp (trim (splitHeader data).1) (trim (splitHeader next).1) = .lt) ∧
        ∀ lookup, getHeaderValue (runHeaderOps ops) lookup = latestHeaderValue ops lookup :=
  ⟨by decide, headerList_trimmed_keys _ (by decide)⟩

/-- The later insert of `a` replaces the entry of `A`, and the remove of `B` drops `b`. -/
example :
    runHeaderOps [.insert ['b'] (some ['1']), .insert ['A'] (some [' ', '2']),
      .insert ['a'] (some ['3']), .remove ['B']] = [['a', ':', ' ', '3']] := by
  decide

theorem intercalate_semicolon_append (first second : List Char) (rest : List (List Char)) :
    [';'].intercalate ((first ++ ';' :: second) :: rest) =
      [';'].intercalate (first :: second :: rest) := by
  cases rest <;> simp [List.intercalate, List.intersperse]

theorem canonicalHeaderLine_of_entry {data name value : List Char}
    (entry : IsEntry data name value) :
    canonicalHeaderLine false data =
      if value = [] then none else some (lower name ++ ':' :: value) := by
  simp only [canonicalHeaderLine, entry.splitHeader_eq, entry.trim_value, trim_lower,
    entry.nameTrimmed]
  split_ifs <;> simp

/-- On entries of nonempty names, the loop of `get_sorted_header_keys` appends the names of the
lines `get_canonical_headers` writes, separated by `;`. -/
theorem sortedHeaderKeysFrom_entries :
    ∀ (sortedHeaders : List Char) {list : List (List Char)}, Entries (· ≠ []) list →
      sortedHeaderKeysFrom sortedHeaders list =
        [';'].intercalate ((if sortedHeaders = [] then [] else [sortedHeaders]) ++
          (canonicalHeaderLines list false).map fun line => (splitHeader line).1)
  | sortedHeaders, [], _ => by
      by_cases empty : sortedHeaders = [] <;>
        simp [empty, sortedHeaderKeysFrom, canonicalHeaderLines, List.intercalate]
  | sortedHeaders, data :: rest, entries => by
      obtain ⟨name, value, entry, named⟩ := entries data (List.mem_cons_self _ _)
      have restEntries : Entries (· ≠ []) rest := fun data member =>
        entries data (List.mem_cons_of_mem _ member)
      have lines : canonicalHeaderLines (data :: rest) false =
          (if value = [] then [] else [lower name ++ ':' :: value]) ++
            canonicalHeaderLines rest false := by
        rw [canonicalHeaderLines, List.filterMap_cons, canonicalHeaderLine_of_entry entry]
        split_ifs <;> rfl
      rw [sortedHeaderKeysFrom, entry.splitHeader_eq]
      dsimp only
      rw [entry.trim_value, lines]
      by_cases empty : value = []
      · rw [if_pos empty, if_pos empty, List.nil_append,
          sortedHeaderKeysFrom_entries sortedHeaders restEntries]
      have keyed : addHeaderKey sortedHeaders name ≠ [] := by
        simp [addHeaderKey, lower, named]
      rw [if_neg empty, if_neg empty, sortedHeaderKeysFrom_entries _ restEntries, if_neg keyed,
        List.singleton_append, List.map_append, List.map_singleton,
        splitHeader_append (colon_not_mem_lower entry.noColon), List.singleton_append]
      by_cases first : sortedHeaders = []
      · simp [first, addHeaderKey]
      · simp only [addHeaderKey, if_neg first, List.singleton_append, List.append_assoc,
          List.cons_append, List.nil_append]
        exact intercalate_semicolon_append _ _ _

/-- For nonempty keys with no surrounding spaces and no `:`, the `SignedHeaders` string of every
run of inserts and removes from the empty list is the `;`-separated list of the names of the
lines of its `CanonicalHeaders`, in order. -/
theorem sortedHeaderKeys_trimmed_keys (ops : List HeaderOp)
    (keys : ∀ op ∈ ops, trim op.key = op.key ∧ ':' ∉ op.key ∧ op.key ≠ []) :
    let list := runHeaderOps ops
    getSortedHeaderKeys list =
      [';'].intercalate
        ((canonicalHeaderLines list false).map fun line => (splitHeader line).1) := by
  have entries := (@runHeaderOps_spec (· ≠ []) ops keys).1
  show sortedHeaderKeysFrom [] _ = _
  rw [sortedHeaderKeysFrom_entries [] entries, if_pos rfl, List.nil_append]

theorem sortedHeaderKeys_trimmed_keys_sample :
    let ops := [HeaderOp.insert ['b'] (some ['1']), .insert ['A'] (some [' ']),
      .insert ['c'] (some ['3'])]
    (∀ op ∈ ops, trim op.key = op.key ∧ ':' ∉ op.key ∧ op.key ≠ []) ∧
      getSortedHeaderKeys (runHeaderOps ops) = [';'].intercalate
        ((canonicalHeaderLines (runHeaderOps ops) false).map fun line => (splitHeader line).1) :=
  ⟨by decide, sortedHeaderKeys_trimmed_keys _ (by decide)⟩

end S3fs
