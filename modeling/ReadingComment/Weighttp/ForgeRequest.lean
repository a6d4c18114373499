import ReadingComment.Lib.CString

/-!
# The request of the benchmarking tool (`forge_request` in `weighttp/src/weighttp.c`)

A C string is the list of its characters in front of the NUL. The request only grows, so it
stays in the bytes that were allocated if it does in the end, with its NUL.
-/

namespace Weighttp.Forge

open Lib List

/-- What is returned, the bytes that were allocated for the request, and the path in it. -/
structure Forged where
  req : List Char
  allocated : ℕ
  host : List Char
  port : ℕ
  path : List Char

def stripScheme (url : List Char) : Option (List Char) :=
  if "http://".toList <+: url then some (url.drop 7)
  else if "https://".toList <+: url then none
  else some url

/-- `len = strlen(s)`, a `uint32_t`. -/
def strlen (s : List Char) : ℕ := s.length % 2 ^ 32

/-- Host and port, and where `url` is then. -/
def splitUrl (url : List Char) : List Char × ℕ × List Char :=
  match url.dropWhile (· ≠ ':') with
  | _ :: s => (url.takeWhile (· ≠ ':'), (atoi (s.takeWhile (· ≠ '/')) % 2 ^ 16).toNat,
      if '/' ∈ s then s.dropWhile (· ≠ '/') else url.drop (strlen url))
  | [] =>
    if '/' ∈ url then (url.takeWhile (· ≠ '/'), 80, url.dropWhile (· ≠ '/'))
    else (url.take (strlen url), 80, url.drop (strlen url))

/-- What the loop over the headers finds out, and what it adds to `len`. -/
structure Scan where
  headerHost : Option (List Char)
  len : ℕ
  haveUserAgent : Bool

/-- The name in a `Host` header. -/
def hostValue (h : List Char) : List Char :=
  if (h.drop 5).head? = some ' ' then (h.drop 5).tail else h.drop 5

def scanHeaders : List (List Char) → Scan → Option Scan
  | [], a => some a
  | h :: hs, a =>
    if "Host:".toList <+: h then
      if a.headerHost.isSome ∨ hostValue h = [] then none
      else scanHeaders hs { a with
        headerHost := some (hostValue h)
        len := a.len + (hostValue h).length }
    else scanHeaders hs { a with
      len := a.len + (h.length + 2)
      haveUserAgent := a.haveUserAgent || "User-Agent:".toList.isPrefixOf h }

def userAgent (a : Scan) : List Char :=
  if a.haveUserAgent then [] else "User-Agent: weighttp/0.3\r\n".toList

/-- The sum of the lengths, with a byte for the NUL; `len` is what 32 bits have of it. -/
def size (host path : List Char) (a : Scan) : ℕ :=
  "GET HTTP/1.1\r\nHost: :65536\r\nConnection: keep-alive\r\n\r\n".toList.length + 1 + host.length +
    path.length + a.len + (userAgent a).length

def headerLines (headers : List (List Char)) : List Char :=
  (headers.filter fun h => ¬ "Host:".toList <+: h).flatMap (· ++ "\r\n".toList)

def portText (port : ℕ) : List Char := if port ≠ 80 then ':' :: decimal port else []

def connection (keepAlive : Bool) : List Char :=
  if keepAlive then "Connection: keep-alive\r\n\r\n".toList else "Connection: close\r\n\r\n".toList

/-- `forge_request(url, keep_alive, &host, &port, headers, headers_num)` -/
def forgeRequest (url : List Char) (keepAlive : Bool) (headers : List (List Char)) :
    Option Forged := do
  let url ← stripScheme url
  let (host, port, rest) := splitUrl url
  if port = 0 then none
  else
    let path := if rest = [] then ['/'] else rest
    let a ← scanHeaders headers ⟨none, 0, false⟩
    some {
      req := "GET ".toList ++ path ++ " HTTP/1.1\r\nHost: ".toList ++
        a.headerHost.getD (host ++ portText port) ++ "\r\n".toList ++ userAgent a ++
        headerLines headers ++ connection keepAlive
      allocated := size host path a % 2 ^ 32
      host := host
      port := port
      path := path }

/-! ## What is expected -/

def hostOf (url : List Char) : List Char := url.takeWhile fun c => c ≠ ':' ∧ c ≠ '/'

/-- The number behind the first colon in front of the path. -/
def portOf (url : List Char) : ℤ :=
  match (url.takeWhile (· ≠ '/')).dropWhile (· ≠ ':') with
  | _ :: s => strtol 10 s
  | [] => 80

def pathOf (url : List Char) : List Char := if '/' ∈ url then url.dropWhile (· ≠ '/') else ['/']

/-- The request is in its bytes, and its parts are those of the URL. -/
structure Forged.Right (r : Forged) (url : List Char) : Prop where
  room : r.req.length + 1 ≤ r.allocated
  host : r.host = hostOf url
  port : r.port = portOf url
  path : r.path = pathOf url

/-- The number behind the first colon, wherever it is, makes no port. -/
def NoPort (url : List Char) : Prop :=
  ∃ s, url.dropWhile (· ≠ ':') = ':' :: s ∧ 2 ^ 16 ∣ strtol 10 (s.takeWhile (· ≠ '/'))

/-- What `len` loses of the sum and what is written of the port is not more than what was reserved
and is not needed. -/
def Fits (url : List Char) (keepAlive : Bool) (a : Scan) : Prop :=
  size (hostOf url) (pathOf url) a / 2 ^ 32 * 2 ^ 32 +
      (if a.headerHost.isSome then 0 else (portText (portOf url).toNat).length) ≤
    (if keepAlive then 5 else 10) + if a.headerHost.isSome then (hostOf url).length else 0

/-- The condition on a URL and headers that are not refused. -/
structure Fine (url : List Char) (keepAlive : Bool) (a : Scan) : Prop where
  colon : ':' ∈ url → ':' ∈ url.takeWhile (· ≠ '/')
  port : 0 ≤ portOf url ∧ portOf url < 2 ^ 16
  short : '/' ∈ url ∨ url.length < 2 ^ 32
  fits : Fits url keepAlive a

/-! ## The length of the request -/

variable {url host path s : List Char} {keepAlive : Bool} {headers : List (List Char)} {a b : Scan}

theorem scanHeaders_spec (h : scanHeaders headers a = some b) :
    b.len + (a.headerHost.getD []).length =
      a.len + (b.headerHost.getD []).length + (headerLines headers).length := by
  induction headers generalizing a with
  | nil =>
    cases h
    rfl
  | cons x xs ih =>
    rw [scanHeaders] at h
    rw [headerLines, filter_cons]
    split at h
    · rename_i hhost
      split at h
      · cases h
      · rename_i hnone
        have hfirst : a.headerHost = none := by simpa using fun hs => hnone (.inl hs)
        have := ih h
        rw [if_neg (by simpa using hhost), ← headerLines, hfirst]
        simp only [Option.getD_some, Option.getD_none, length_nil] at this ⊢
        omega
    · rename_i hhost
      have := ih h
      rw [if_pos (by simpa using hhost), flatMap_cons, length_append, length_append,
        ← headerLines]
      change _ = _ + (x.length + 2 + _)
      simp only at this
      omega

/-- The request is as long as what was reserved, but for a few bytes. -/
theorem room_iff (h : scanHeaders headers ⟨none, 0, false⟩ = some a) {port : ℕ} :
    ("GET ".toList ++ path ++ " HTTP/1.1\r\nHost: ".toList ++ a.headerHost.getD
      (host ++ portText port) ++
        "\r\n".toList ++ userAgent a ++ headerLines headers ++ connection keepAlive).length + 1 ≤
        size host path a % 2 ^ 32 ↔
      size host path a / 2 ^ 32 * 2 ^ 32 +
        (if a.headerHost.isSome then 0 else (portText port).length) ≤
        (if keepAlive then 5 else 10) + if a.headerHost.isSome then host.length else 0 := by
  have hlen := scanHeaders_spec h
  have hdiv := Nat.div_add_mod' (size host path a) (2 ^ 32)
  have hconnection : (connection keepAlive).length + (if keepAlive then 5 else 10) = 31 := by
    cases keepAlive <;> rfl
  have hsize : size host path a = 55 + host.length + path.length + a.len + (userAgent a).length :=
    rfl
  have hfour : "GET ".toList.length = 4 := rfl
  have hhost : " HTTP/1.1\r\nHost: ".toList.length = 17 := rfl
  have htwo : "\r\n".toList.length = 2 := rfl
  simp only [length_append, hfour, hhost, htwo]
  cases hname : a.headerHost with
  | none =>
    rw [hname] at hlen
    simp only [Option.getD_none, length_append, length_nil, Option.isSome_none,
      Bool.false_eq_true, if_false] at hlen ⊢
    omega
  | some v =>
    rw [hname] at hlen
    simp only [Option.getD_some, Option.getD_none, length_nil, Option.isSome_some,
      if_true] at hlen ⊢
    omega

/-! ## The parts of the URL -/

theorem atoi_emod (s : List Char) : atoi s % 2 ^ 16 = strtol 10 s % 2 ^ 16 := by
  rw [atoi, toInt, ← Int.emod_emod_of_dvd (strtol 10 s) (by decide : (2 ^ 16 : ℤ) ∣ 2 ^ 32),
    ← Int.emod_emod_of_dvd (Int.bmod _ _) (by decide : (2 ^ 16 : ℤ) ∣ 2 ^ 32)]
  exact congrArg (· % 2 ^ 16) (Int.bmod_emod ..)

/-- A colon in front of the path. -/
theorem url_colon (h : ':' ∈ url.takeWhile (· ≠ '/')) :
    ∃ s, url.dropWhile (· ≠ ':') = ':' :: s ∧ url.takeWhile (· ≠ ':') = hostOf url ∧
      strtol 10 (s.takeWhile (· ≠ '/')) = portOf url ∧ ('/' ∈ s ↔ '/' ∈ url) ∧
      s.dropWhile (· ≠ '/') = url.dropWhile (· ≠ '/') := by
  obtain ⟨x, s, hxs, hx⟩ := eq_append_cons_of_mem h
  have hpath := head_dropWhile (· ≠ '/') url
  have hurl : url = x ++ ':' :: (s ++ url.dropWhile (· ≠ '/')) := by
    rw [← cons_append, ← append_assoc, ← hxs, takeWhile_append_dropWhile]
  have hslash : ∀ c ∈ x ++ ':' :: s, c ≠ '/' := by
    intro c hc
    exact of_decide_eq_true (mem_takeWhile_imp (p := (· ≠ '/')) (hxs.symm ▸ hc))
  have hx' : ∀ c ∈ x, decide (c ≠ ':') = true := fun c hc => by
    simpa using ne_of_mem_of_not_mem hc hx
  have hs : ∀ c ∈ s, decide (c ≠ '/') = true := fun c hc => by
    simpa using hslash c (mem_append_right _ (mem_cons_of_mem _ hc))
  generalize url.dropWhile (· ≠ '/') = p at hurl hpath
  subst hurl
  have hboth : ∀ c ∈ x, decide (c ≠ ':' ∧ c ≠ '/') = true := fun c hc => by
    have := hx' c hc
    have := hslash c (mem_append_left _ hc)
    simp_all
  refine ⟨s ++ p, dropWhile_append_stop hx' (by simp), ?_, ?_, ?_, ?_⟩
  · rw [hostOf, takeWhile_append_stop hx' (by simp), takeWhile_append_stop hboth (by simp)]
  · rw [portOf, hxs, dropWhile_append_stop hx' (by simp), takeWhile_append_stop hs hpath]
  · have hnot : '/' ∉ x := fun hc => hslash _ (mem_append_left _ hc) rfl
    simp [hnot]
  · rw [dropWhile_append_stop hs hpath]

theorem noPort_iff : NoPort url ↔ (splitUrl url).2.1 = 0 := by
  rw [NoPort, splitUrl]
  cases h : url.dropWhile (· ≠ ':') with
  | nil =>
    simp only
    split <;> simp
  | cons c s =>
    obtain rfl : c = ':' := by simpa [h] using head_dropWhile (· ≠ ':') url c (h ▸ rfl)
    simp only [List.cons.injEq, true_and, exists_eq_left', atoi_emod]
    omega

/-- A URL without a path that is too long leaves something of it for the path. -/
theorem splitUrl_long (hslash : '/' ∉ url) (hlong : 2 ^ 32 ≤ url.length) :
    (splitUrl url).2.2 ≠ [] ∧ '/' ∉ (splitUrl url).2.2 := by
  have hrest : url.drop (strlen url) ≠ [] ∧ '/' ∉ url.drop (strlen url) := by
    refine ⟨?_, fun h => hslash (mem_of_mem_drop h)⟩
    rw [ne_eq, drop_eq_nil_iff, strlen]
    omega
  rw [splitUrl]
  split
  · rename_i s hs
    have hs' : '/' ∉ s := fun h => hslash ((dropWhile_suffix _).mem (hs ▸ mem_cons_of_mem _ h))
    rwa [if_neg hs']
  · rwa [if_neg hslash]

/-- A colon that is only in the path. -/
theorem splitUrl_late (h : ':' ∈ url) (hlate : ':' ∉ url.takeWhile (· ≠ '/')) :
    '/' ∈ (splitUrl url).1 := by
  obtain ⟨x, s, rfl, hx⟩ := eq_append_cons_of_mem h
  have hx' : ∀ c ∈ x, decide (c ≠ ':') = true := fun c hc => by
    simpa using ne_of_mem_of_not_mem hc hx
  have hslash : '/' ∈ x := by
    by_contra hnot
    apply hlate
    rw [takeWhile_append_of_pos fun c hc => by simpa using ne_of_mem_of_not_mem hc hnot]
    simp
  rw [splitUrl, dropWhile_append_stop hx' (by simp), takeWhile_append_stop hx' (by simp)]
  exact hslash

/-- The other URLs are taken apart as they should be. -/
theorem splitUrl_eq (hcolon : ':' ∈ url → ':' ∈ url.takeWhile (· ≠ '/'))
    (hshort : '/' ∈ url ∨ url.length < 2 ^ 32) :
    (splitUrl url).1 = hostOf url ∧ ((splitUrl url).2.1 : ℤ) = portOf url % 2 ^ 16 ∧
      (if (splitUrl url).2.2 = [] then ['/'] else (splitUrl url).2.2) = pathOf url := by
  have hpath : '/' ∈ url → url.dropWhile (· ≠ '/') ≠ [] := by
    intro hslash hnil
    simpa using dropWhile_eq_nil_iff.mp hnil _ hslash
  have hall :
      '/' ∉ url → strlen url = url.length := fun h => Nat.mod_eq_of_lt (hshort.resolve_left h)
  rw [splitUrl, pathOf]
  by_cases h : ':' ∈ url
  · obtain ⟨s, hs, hhost, hport, hmem, hrest⟩ := url_colon (hcolon h)
    simp only [hs, hrest, hmem, atoi_emod, hport]
    refine ⟨hhost, Int.toNat_of_nonneg (Int.emod_nonneg _ (by decide)), ?_⟩
    split
    · rename_i hslash
      rw [if_neg (hpath hslash)]
    · rename_i hslash
      rw [hall hslash, drop_length, if_pos rfl]
  · have hnone : ∀ c ∈ url, decide (c ≠ ':') = true := fun c hc => by
      simpa using ne_of_mem_of_not_mem hc h
    have hhost : hostOf url = url.takeWhile (· ≠ '/') := by
      have hsplit : (url.takeWhile (· ≠ '/') ++ url.dropWhile (· ≠ '/')).takeWhile
          (fun c => c ≠ ':' ∧ c ≠ '/') = url.takeWhile (· ≠ '/') := by
        apply takeWhile_append_stop
        · intro c hc
          have h1 := hnone c ((takeWhile_sublist _).subset hc)
          have h2 := mem_takeWhile_imp hc
          simp_all
        · intro c hc
          have := head_dropWhile (· ≠ '/') url c hc
          simp_all
      rwa [takeWhile_append_dropWhile] at hsplit
    have hport : portOf url = 80 := by
      rw [portOf, dropWhile_eq_nil_iff.mpr fun c hc => hnone c ((takeWhile_sublist _).subset hc)]
    rw [dropWhile_eq_nil_iff.mpr hnone, hhost, hport]
    by_cases hslash : '/' ∈ url
    · rw [if_pos hslash, if_pos hslash]
      exact ⟨rfl, rfl, if_neg (hpath hslash)⟩
    · have hself : url.takeWhile (· ≠ '/') = url :=
        takeWhile_eq_self_iff.mpr fun c hc => by simpa using ne_of_mem_of_not_mem hc hslash
      rw [if_neg hslash, if_neg hslash, hall hslash, hself]
      exact ⟨take_length, rfl, if_pos (drop_length ..)⟩

/-! ## The theorem -/

theorem right_iff {u : List Char} (ha : scanHeaders headers ⟨none, 0, false⟩ = some a) :
    (Forged.mk ("GET ".toList ++ (if (splitUrl u).2.2 = [] then ['/'] else (splitUrl u).2.2) ++
        " HTTP/1.1\r\nHost: ".toList ++ a.headerHost.getD
          ((splitUrl u).1 ++ portText (splitUrl u).2.1) ++
        "\r\n".toList ++ userAgent a ++ headerLines headers ++ connection keepAlive)
      (size (splitUrl u).1 (if (splitUrl u).2.2 = [] then ['/'] else (splitUrl u).2.2) a % 2 ^ 32)
      (splitUrl u).1 (splitUrl u).2.1
      (if (splitUrl u).2.2 = [] then ['/'] else (splitUrl u).2.2)).Right u ↔
        Fine u keepAlive a := by
  constructor
  · rintro ⟨hroom, hhost, hport, hpath⟩
    simp only at hhost hport hpath
    have hcolon : ':' ∈ u → ':' ∈ u.takeWhile (· ≠ '/') := by
      intro h
      by_contra hlate
      have hmem := splitUrl_late h hlate
      rw [hhost] at hmem
      simpa using mem_takeWhile_imp hmem
    have hshort : '/' ∈ u ∨ u.length < 2 ^ 32 := by
      by_contra h
      rw [not_or, Nat.not_lt] at h
      obtain ⟨hne, hslash⟩ := splitUrl_long h.1 h.2
      rw [if_neg hne, pathOf, if_neg h.1] at hpath
      rw [hpath] at hslash
      exact hslash (mem_singleton_self _)
    obtain ⟨-, hport', -⟩ := splitUrl_eq hcolon hshort
    have hfits := (room_iff ha).mp hroom
    rw [hhost, hpath] at hfits
    refine ⟨hcolon, by omega, hshort, ?_⟩
    rw [Fits, ← hport]
    exact hfits
  · rintro ⟨hcolon, hport, hshort, hfits⟩
    obtain ⟨hhost, hport', hpath⟩ := splitUrl_eq hcolon hshort
    have hport'' : ((splitUrl u).2.1 : ℤ) = portOf u := by omega
    refine ⟨(room_iff ha).mpr ?_, hhost, hport'', hpath⟩
    rw [hhost, hpath]
    rw [Fits, ← hport''] at hfits
    exact hfits

/-- **`forge_request`**: a request that is written is in its bytes and its parts are those of the
URL, if and only if the condition holds or nothing is written. -/
theorem forge_request_iff (url : List Char) (keepAlive : Bool) (headers : List (List Char)) :
    (∀ u r, stripScheme url = some u → forgeRequest url keepAlive headers = some r → r.Right u) ↔
      ∀ u a, stripScheme url = some u → ¬ NoPort u → scanHeaders headers ⟨none, 0, false⟩ = some a →
        Fine u keepAlive a := by
  constructor
  · intro h u a hu hport ha
    refine (right_iff ha).mp (h u _ hu ?_)
    rw [forgeRequest, hu]
    simp only [Option.bind_eq_bind, Option.bind_some, if_neg (mt noPort_iff.mpr hport), ha]
  · intro h u r hu hr
    rw [forgeRequest, hu] at hr
    simp only [Option.bind_eq_bind, Option.bind_some] at hr
    split at hr
    · cases hr
    · rename_i hport
      obtain ⟨a, ha, hr⟩ := Option.bind_eq_some_iff.mp hr
      cases hr
      exact (right_iff ha).mpr (h u a hu (mt noPort_iff.mp hport) ha)

/-- Five digits in the port and a connection that is kept alive: one byte too many. -/
theorem forge_request_overflows :
    ¬ ∀ u r, stripScheme "http://a:10000/".toList = some u →
      forgeRequest "http://a:10000/".toList true [] = some r → r.Right u := by
  intro h
  have := (h _ _ rfl rfl).room
  revert this
  decide

end Weighttp.Forge
