import Mathlib
import S3fs.CurlUtil

/-!
# Request URLs

`MakeUrlResource` builds the URL of an object from the endpoint `s3host`, the service path, the
bucket and the object's path. `prepare_url` rewrites it for the request style: a virtual-hosted
request moves the bucket out of the path into the host name, a path request keeps it in the path.
The host a request is signed for comes from `get_bucket_host`, which reads the host out of
`s3host` with `url_to_host`.

For an endpoint `http://host` or `https://host` with no `/` in `host`, a bucket with no `/`, and
a path that `MakeUrlResource` encodes as `/bucket` followed by nothing or by a path from `/`, the
URL `prepare_url` makes goes to the host `get_bucket_host` names, in both request styles
(`prepareUrl_host`).

`prepare_url` finds the bucket with `std::string::find`. When the bucket is not in the URL, `find`
returns `npos`, and the `size_t` sum `npos + token.size()` wraps round to the bucket's length: a
virtual-hosted request then copies the URL a second time from that index on, and throws
`std::out_of_range` when the URL is shorter than the bucket (`prepareUrl_missing_bucket`).
-/

namespace S3fs

/-! ## `std::string` -/

/-- `std::string::npos`, the largest `size_t`. -/
def npos : Nat := 2 ^ 64 - 1

/-- `std::string::substr(pos, count)`: at most `count` characters from `pos` on; past the end it
throws `std::out_of_range`, here none. -/
def substr (s : List Char) (pos count : Nat) : Option (List Char) :=
  if pos ≤ s.length then some ((s.drop pos).take count) else none

/-- The index of the first suffix of `s` that starts with `token`, counted from `index`. -/
def findFrom (token : List Char) (index : Nat) : List Char → Option Nat
  | [] => if token.isPrefixOf [] then some index else none
  | c :: rest =>
      if token.isPrefixOf (c :: rest) then some index else findFrom token (index + 1) rest

/-- `std::string::find(token, pos)`: the first index from `pos` on where `token` starts, or
`npos`. -/
def find (s token : List Char) (pos : Nat) : Nat :=
  if pos ≤ s.length then (findFrom token pos (s.drop pos)).getD npos else npos

theorem substr_append_of_length {s rest : List Char} {pos count : Nat}
    (atPos : s.length = pos) (short : rest.length ≤ count) :
    substr (s ++ rest) pos count = some rest := by
  rw [substr, if_pos (by simp only [List.length_append]; omega), List.drop_left' atPos,
    List.take_of_length_le short]

theorem substr_of_length {s mid rest : List Char} {pos : Nat} (atPos : s.length = pos) :
    substr (s ++ (mid ++ rest)) pos mid.length = some mid := by
  rw [substr, if_pos (by simp only [List.length_append]; omega), List.drop_left' atPos,
    List.take_left' rfl]

theorem findFrom_split {bucket rest : List Char} (index : Nat) :
    ∀ {pre : List Char}, '/' ∉ pre →
      findFrom ('/' :: bucket) index (pre ++ '/' :: bucket ++ rest) = some (index + pre.length)
  | [], _ => by
      rw [List.nil_append, List.cons_append, findFrom,
        if_pos (show ('/' :: bucket).isPrefixOf ('/' :: (bucket ++ rest)) = true from
          List.isPrefixOf_iff_prefix.mpr ⟨rest, rfl⟩)]
      rfl
  | c :: pre, noSlash => by
      have other : c ≠ '/' := fun same => noSlash (same ▸ List.mem_cons_self _ _)
      rw [List.cons_append, List.cons_append, findFrom, List.isPrefixOf_cons₂,
        findFrom_split (index + 1) (fun member => noSlash (List.mem_cons_of_mem c member))]
      simp only [Bool.and_eq_true, beq_iff_eq, other.symm, false_and, if_false, List.length_cons]
      exact congrArg some (by omega)

theorem findFrom_eq_none {token : List Char} :
    ∀ {s : List Char} (index : Nat), (∀ i, ¬ token <+: s.drop i) → findFrom token index s = none
  | [], _, missing => by
      rw [findFrom, if_neg (show ¬ token.isPrefixOf [] = true from
        fun found => missing 0 (List.isPrefixOf_iff_prefix.mp found))]
  | c :: rest, index, missing => by
      rw [findFrom, if_neg (show ¬ token.isPrefixOf (c :: rest) = true from
        fun found => missing 0 (List.isPrefixOf_iff_prefix.mp found))]
      exact findFrom_eq_none (index + 1) fun i => missing (i + 1)

/-! ## The URL functions -/

/-- `MakeUrlResource`: the resource path `urlEncodePath(service_path + bucket + realpath)` and the
URL `s3host + resourcepath`; a null `realpath` fails. `urlEncodePath`, of `string_util`, and the
settings `service_path` and `s3host` are parameters. -/
def makeUrlResource (urlEncodePath : List Char → List Char) (servicePath bucket s3host : List Char) :
    Option (List Char) → Option (List Char × List Char)
  | none => none
  | some realpath =>
      let resourcepath := urlEncodePath (servicePath ++ bucket ++ realpath)
      some (resourcepath, s3host ++ resourcepath)

/-- `uri_length` of `prepare_url`: the length of the scheme, `https://` or `http://` up to case
(`strncasecmp`), or 0. -/
def uriLength (url : List Char) : Nat :=
  if lower (url.take 8) = "https://".toList then 8
  else if lower (url.take 7) = "http://".toList then 7
  else 0

/-- `prepare_url` for the bucket `bucket` and the request style `pathrequeststyle`: the scheme,
then the host and the path, with the bucket moved into the host for a virtual-hosted request.
`bucket_pos` and its sums are `size_t`. -/
def prepareUrl (bucket : List Char) (pathrequeststyle : Bool) (url : List Char) :
    Option (List Char) := do
  let token := '/' :: bucket
  let uri ← substr url 0 (uriLength url)
  let bucketPos := find url token (uriLength url)
  if !pathrequeststyle then
    let host ← substr url (uriLength url) (bucketPos - uriLength url)
    let path ← substr url ((bucketPos + token.length) % 2 ^ 64) npos
    pure (uri ++ (bucket ++ '.' :: host) ++ path)
  else
    let hostname ← substr url (uriLength url) (bucketPos - uriLength url)
    let part ← substr url ((bucketPos + token.length) % 2 ^ 64) npos
    let part := if part.head? = some '/' then part else '/' :: part
    pure (uri ++ hostname ++ ('/' :: bucket ++ part))

/-- `url_to_host`: what follows `http://` or `https://` (`is_prefix`, of `string_util`), up to
the first `/`; any other URL aborts, here none. -/
def urlToHost (url : List Char) : Option (List Char) := do
  let hostname ←
    if "http://".toList.isPrefixOf url then substr url 7 npos
    else if "https://".toList.isPrefixOf url then substr url 8 npos
    else none
  pure (hostname.takeWhile (· != '/'))

/-- `get_bucket_host`: the host of `s3host`, after `bucket.` for a virtual-hosted request. -/
def getBucketHost (bucket : List Char) (pathrequeststyle : Bool) (s3host : List Char) :
    Option (List Char) :=
  if !pathrequeststyle then (urlToHost s3host).map fun host => bucket ++ '.' :: host
  else urlToHost s3host

/-- Up to the first `/`: all of `pre` when it has none and what follows is empty or starts with
one. -/
theorem takeWhile_slash {pre rest : List Char} (noSlash : '/' ∉ pre)
    (stops : rest = [] ∨ rest.head? = some '/') : (pre ++ rest).takeWhile (· != '/') = pre := by
  rw [List.takeWhile_append_of_pos fun c member =>
    bne_iff_ne.mpr fun (same : c = '/') => noSlash (same ▸ member)]
  rcases stops with rfl | start
  · simp
  · cases rest with
    | nil => simp
    | cons c others =>
        obtain rfl : c = '/' := Option.some.inj start
        simp

/-! ## The two schemes -/

section Scheme

variable {scheme : List Char} (schemeOk : scheme = "http://".toList ∨ scheme = "https://".toList)
include schemeOk

theorem uriLength_scheme (rest : List Char) : uriLength (scheme ++ rest) = scheme.length := by
  rcases schemeOk with rfl | rfl
  · have notHttps : lower (("http://".toList ++ rest).take 8) ≠ "https://".toList := fun same => by
      have := congrArg (List.take 5) same
      rw [lower, List.map_take, List.take_take, List.map_append] at this
      simp at this
    rw [uriLength, if_neg notHttps,
      if_pos (by rw [List.take_left' (show "http://".toList.length = 7 from rfl)]; rfl)]
    rfl
  · rw [uriLength, if_pos (by rw [List.take_left' (show "https://".toList.length = 8 from rfl)]; rfl)]
    rfl

/-- `url_to_host` on a URL of either scheme: the rest up to the first `/`. -/
theorem urlToHost_scheme {rest : List Char} (short : rest.length ≤ npos) :
    urlToHost (scheme ++ rest) = some (rest.takeWhile (· != '/')) := by
  rcases schemeOk with rfl | rfl
  · rw [urlToHost, if_pos (List.isPrefixOf_iff_prefix.mpr (List.prefix_append _ _)),
      substr_append_of_length (show "http://".toList.length = 7 from rfl) short]
    rfl
  · have notHttp : "http://".toList.isPrefixOf ("https://".toList ++ rest) = false := rfl
    rw [urlToHost, notHttp, if_neg Bool.false_ne_true,
      if_pos (List.isPrefixOf_iff_prefix.mpr (List.prefix_append _ _)),
      substr_append_of_length (show "https://".toList.length = 8 from rfl) short]
    rfl

/-- `prepare_url` on the URL of an object under a bucket, for an endpoint of either scheme with no
`/` in its host: a virtual-hosted request moves the bucket into the host; a path request keeps the
URL, with a `/` after the bucket when the path does not start with one. -/
theorem prepareUrl_eq {host bucket resource : List Char} (hostOk : '/' ∉ host)
    (pathrequeststyle : Bool) (fits : (scheme ++ host ++ '/' :: bucket ++ resource).length < 2 ^ 64) :
    prepareUrl bucket pathrequeststyle (scheme ++ host ++ '/' :: bucket ++ resource) =
      some (scheme ++ if pathrequeststyle then
          host ++ '/' :: bucket ++ (if resource.head? = some '/' then resource else '/' :: resource)
        else bucket ++ '.' :: host ++ resource) := by
  simp only [List.length_append, List.length_cons] at fits
  have whole : scheme ++ host ++ '/' :: bucket ++ resource =
      scheme ++ (host ++ ('/' :: bucket ++ resource)) := by
    simp only [List.append_assoc, List.cons_append]
  have length : uriLength (scheme ++ host ++ '/' :: bucket ++ resource) = scheme.length := by
    rw [whole, uriLength_scheme schemeOk]
  have found : find (scheme ++ host ++ '/' :: bucket ++ resource) ('/' :: bucket) scheme.length =
      scheme.length + host.length := by
    rw [find, if_pos (by simp only [List.length_append]; omega), whole, List.drop_left,
      ← List.append_assoc, findFrom_split _ hostOk]
    rfl
  have uri : substr (scheme ++ host ++ '/' :: bucket ++ resource) 0 scheme.length = some scheme := by
    rw [whole, ← List.nil_append (scheme ++ _),
      substr_of_length (show ([] : List Char).length = 0 from rfl)]
  have hostname : substr (scheme ++ host ++ '/' :: bucket ++ resource) scheme.length
      (scheme.length + host.length - scheme.length) = some host := by
    rw [whole, Nat.add_sub_cancel_left, substr_of_length rfl]
  have path : substr (scheme ++ host ++ '/' :: bucket ++ resource)
      ((scheme.length + host.length + ('/' :: bucket).length) % 2 ^ 64) npos = some resource := by
    rw [Nat.mod_eq_of_lt (by simp only [List.length_cons]; omega)]
    exact substr_append_of_length (by simp only [List.length_append])
      (by simp only [npos]; omega)
  simp only [prepareUrl, length, found, uri, hostname, path, Option.some_bind]
  cases pathrequeststyle <;> simp

end Scheme

/-- The URL `prepare_url` makes from the one `MakeUrlResource` builds goes to the host that
`get_bucket_host` names, in both request styles: `bucket.host` for a virtual-hosted request and
`host` for a path request. This holds for an endpoint `http://host` or `https://host` with no `/`
in `host`, a bucket with no `/`, and a path that `urlEncodePath` turns into `/bucket` followed by
nothing or by a path from `/`. -/
theorem prepareUrl_host (urlEncodePath : List Char → List Char)
    (servicePath bucket realpath scheme host resource : List Char) (pathrequeststyle : Bool)
    (schemeOk : scheme = "http://".toList ∨ scheme = "https://".toList) (hostOk : '/' ∉ host)
    (bucketOk : '/' ∉ bucket)
    (encoded : urlEncodePath (servicePath ++ bucket ++ realpath) = '/' :: bucket ++ resource)
    (rooted : resource = [] ∨ resource.head? = some '/')
    (fits : (scheme ++ host ++ '/' :: bucket ++ resource).length < 2 ^ 64) :
    ∃ url prepared,
      makeUrlResource urlEncodePath servicePath bucket (scheme ++ host) (some realpath) =
        some ('/' :: bucket ++ resource, url) ∧
      prepareUrl bucket pathrequeststyle url = some prepared ∧
      urlToHost prepared = getBucketHost bucket pathrequeststyle (scheme ++ host) ∧
      getBucketHost bucket pathrequeststyle (scheme ++ host) =
        some (if pathrequeststyle then host else bucket ++ '.' :: host) := by
  have schemeLength : 7 ≤ scheme.length := by rcases schemeOk with rfl | rfl <;> decide
  have long := fits
  simp only [List.length_append, List.length_cons] at long
  have endpoint : urlToHost (scheme ++ host) = some host := by
    have whole := takeWhile_slash hostOk (Or.inl (rfl : ([] : List Char) = []))
    rw [List.append_nil] at whole
    rw [urlToHost_scheme schemeOk (by simp only [npos]; omega), whole]
  have bucketHost : getBucketHost bucket pathrequeststyle (scheme ++ host) =
      some (if pathrequeststyle then host else bucket ++ '.' :: host) := by
    cases pathrequeststyle <;> simp [getBucketHost, endpoint]
  refine ⟨scheme ++ host ++ '/' :: bucket ++ resource, _,
    by simp only [makeUrlResource]; rw [encoded]; simp only [List.append_assoc],
    prepareUrl_eq schemeOk hostOk pathrequeststyle fits, ?_, bucketHost⟩
  rw [bucketHost]
  cases pathrequeststyle <;> simp only [Bool.false_eq_true, ite_false, ite_true, eq_self_iff_true]
  · have noSlash : '/' ∉ bucket ++ '.' :: host := by simp [bucketOk, hostOk]
    rw [urlToHost_scheme schemeOk
      (by simp only [List.length_append, List.length_cons, npos]; omega), takeWhile_slash noSlash rooted]
  · have partLength : (if resource.head? = some '/' then resource else '/' :: resource).length ≤
        resource.length + 1 := by
      split_ifs <;> simp
    rw [urlToHost_scheme schemeOk
      (by simp only [List.length_append, List.length_cons, npos]; omega), List.append_assoc,
      List.cons_append, takeWhile_slash hostOk (Or.inr List.head?_cons)]

theorem prepareUrl_host_sample :
    let bucket := "mybucket".toList
    let scheme := "https://".toList
    let host := "s3.amazonaws.com".toList
    let resource := "/dir/file".toList
    ((scheme = "http://".toList ∨ scheme = "https://".toList) ∧ '/' ∉ host ∧ '/' ∉ bucket ∧
      id ("/".toList ++ bucket ++ resource) = '/' :: bucket ++ resource ∧
      (resource = [] ∨ resource.head? = some '/') ∧
      (scheme ++ host ++ '/' :: bucket ++ resource).length < 2 ^ 64) ∧
      ∃ url prepared,
        makeUrlResource id "/".toList bucket (scheme ++ host) (some resource) =
          some ('/' :: bucket ++ resource, url) ∧
        prepareUrl bucket false url = some prepared ∧
        urlToHost prepared = getBucketHost bucket false (scheme ++ host) ∧
        getBucketHost bucket false (scheme ++ host) =
          some (if false then host else bucket ++ '.' :: host) :=
  ⟨⟨Or.inr rfl, by decide, by decide, rfl, Or.inr rfl, by decide⟩,
    prepareUrl_host id _ _ _ _ _ _ false (Or.inr rfl) (by decide) (by decide) rfl (Or.inr rfl)
      (by decide)⟩

/-- The scheme `prepare_url` keeps lies in the URL. -/
theorem uriLength_le (url : List Char) : uriLength url ≤ url.length := by
  rw [uriLength]
  split_ifs with https http
  · have := congrArg List.length https
    rw [length_lower, List.length_take, show "https://".toList.length = 8 from rfl] at this
    omega
  · have := congrArg List.length http
    rw [length_lower, List.length_take, show "http://".toList.length = 7 from rfl] at this
    omega
  · exact Nat.zero_le _

/-- When `/bucket` does not occur in the URL after the scheme, `find` returns `npos`, and the
`size_t` sum `npos + token.size()` wraps round to the bucket's length. A virtual-hosted
`prepare_url` then puts the whole rest of the URL into the host and copies the URL again from the
bucket's length on; when the URL is shorter than the bucket, `substr` throws. -/
theorem prepareUrl_missing_bucket (bucket url : List Char)
    (missing : ¬ ('/' :: bucket) <:+: url.drop (uriLength url))
    (fits : url.length < 2 ^ 64) (bucketFits : bucket.length < 2 ^ 64) :
    prepareUrl bucket false url =
      if bucket.length ≤ url.length then
        some (url.take (uriLength url) ++ (bucket ++ '.' :: url.drop (uriLength url)) ++
          url.drop bucket.length)
      else none := by
  have within := uriLength_le url
  have notFound : find url ('/' :: bucket) (uriLength url) = npos := by
    have absent : ∀ i, ¬ ('/' :: bucket) <+: (url.drop (uriLength url)).drop i :=
      fun i ⟨rest, start⟩ => missing ⟨(url.drop (uriLength url)).take i, rest,
        by rw [List.append_assoc, start, List.take_append_drop]⟩
    rw [find, if_pos within, findFrom_eq_none _ absent]
    rfl
  have uri : substr url 0 (uriLength url) = some (url.take (uriLength url)) := by
    rw [substr, if_pos (Nat.zero_le _), List.drop_zero]
  have host : substr url (uriLength url) (npos - uriLength url) = some (url.drop (uriLength url)) := by
    rw [substr, if_pos within, List.take_of_length_le (by simp only [List.length_drop, npos]; omega)]
  have wrapped : (npos + ('/' :: bucket).length) % 2 ^ 64 = bucket.length := by
    simp only [npos, List.length_cons]
    omega
  by_cases short : bucket.length ≤ url.length
  · have path : substr url bucket.length npos = some (url.drop bucket.length) := by
      rw [substr, if_pos short, List.take_of_length_le (by simp only [List.length_drop, npos]; omega)]
    simp only [prepareUrl, notFound, uri, host, wrapped, path, if_pos short]
    rfl
  · have path : substr url bucket.length npos = none := by
      rw [substr, if_neg short]
    simp only [prepareUrl, notFound, uri, host, wrapped, path, if_neg short]
    rfl

theorem prepareUrl_missing_bucket_sample :
    let url := "https://host/x".toList
    (¬ ('/' :: "b".toList) <:+: url.drop (uriLength url) ∧ url.length < 2 ^ 64 ∧
      "b".toList.length < 2 ^ 64) ∧
      prepareUrl "b".toList false url =
        if "b".toList.length ≤ url.length then
          some (url.take (uriLength url) ++ ("b".toList ++ '.' :: url.drop (uriLength url)) ++
            url.drop "b".toList.length)
        else none :=
  ⟨⟨by decide, by decide, by decide⟩,
    prepareUrl_missing_bucket _ _ (by decide) (by decide) (by decide)⟩

/-- A URL without the bucket: the host takes the whole rest of the URL and the path repeats the
URL from the bucket's length on. -/
example : prepareUrl "b".toList false "https://host/x".toList =
    some "https://b.host/xttps://host/x".toList := by
  decide

end S3fs
