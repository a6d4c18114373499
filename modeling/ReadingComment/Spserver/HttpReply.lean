import ReadingComment.Spserver.HttpText

/-!
# Replies of an HTTP handler (`spserver/sphttp.cpp`)

`SP_HttpHandlerAdapter::handle` after the handler: it adjusts some headers of the response and
prints the response line by line through an array of 512 bytes, then the content. A line that does
not fit is cut off, its line end with it.
-/

namespace Spserver

open Lib List

/-! ## Data -/

/-- A response that a handler can leave: the version and the reason phrase are what fits into
`mVersion` and `mReasonPhrase`, the length of the content and its NUL is an `int`, and strings have
no NUL. The reason phrase and the values are not empty and have no line ends, and no value begins
with a blank. -/
structure HttpResponse where
  version : List Char
  statusCode : ℤ
  reasonPhrase : List Char
  headers : List (List Char × List Char)
  content : List Char
  version_length : version.length ≤ 15
  version_nul : '\x00' ∉ version
  status_ge : -2 ^ 31 ≤ statusCode
  status_lt : statusCode < 2 ^ 31
  reason_length : reasonPhrase.length ≤ 127
  reason_clean : Clean reasonPhrase
  reason_ne : reasonPhrase ≠ []
  name_nul : ∀ header ∈ headers, '\x00' ∉ header.1
  name_colon : ∀ header ∈ headers, ':' ∉ header.1
  value_clean : ∀ header ∈ headers, Clean header.2
  value_ne : ∀ header ∈ headers, header.2 ≠ []
  value_blank : ∀ header ∈ headers, header.2.head? ≠ some ' '
  content_length : content.length + 1 < 2 ^ 31

/-- `struct tm`, as `gmtime_r` fills it in. -/
structure Tm where
  wday : Fin 7
  mday : Fin 32
  mon : Fin 12
  /-- `tm_year`, the years since 1900 -/
  year : ℤ
  hour : Fin 24
  min : Fin 60
  sec : Fin 61
  year_ge : -2 ^ 31 ≤ year
  year_lt : year < 2 ^ 31

/-! ## Headers -/

/-- `removeHeader (name)`: the first header of the name. -/
def removeHeader (headers : List (List Char × List Char)) (name : List Char) :
    List (List Char × List Char) :=
  headers.eraseP fun header => caseEq name header.1

/-- `isKeepAlive`. -/
def HttpMessage.isKeepAlive (message : HttpMessage) : Bool :=
  (message.getHeaderValue "Proxy-Connection".toList).any (caseEq · "Keep-Alive".toList) ||
    (message.getHeaderValue "Connection".toList).any (caseEq · "Keep-Alive".toList)

/-- `getMethod` of a request. -/
def HttpMessage.getMethod (message : HttpMessage) : List Char :=
  match message.kind with
  | .request method .. => method
  | .response .. => []

/-! ## Text -/

/-- `%a`. -/
def dayName (wday : Fin 7) : List Char :=
  match wday with
  | 0 => "Sun".toList
  | 1 => "Mon".toList
  | 2 => "Tue".toList
  | 3 => "Wed".toList
  | 4 => "Thu".toList
  | 5 => "Fri".toList
  | 6 => "Sat".toList

/-- `%b`. -/
def monthName (mon : Fin 12) : List Char :=
  match mon with
  | 0 => "Jan".toList
  | 1 => "Feb".toList
  | 2 => "Mar".toList
  | 3 => "Apr".toList
  | 4 => "May".toList
  | 5 => "Jun".toList
  | 6 => "Jul".toList
  | 7 => "Aug".toList
  | 8 => "Sep".toList
  | 9 => "Oct".toList
  | 10 => "Nov".toList
  | 11 => "Dec".toList

def twoDigits (n : ℕ) : List Char := [Nat.digitChar (n / 10), Nat.digitChar (n % 10)]

/-- `strftime (buffer, sizeof (buffer), "%a, %d %b %Y %H:%M:%S %Z", tm)`. -/
def strftime (tm : Tm) : List Char :=
  dayName tm.wday ++ ", ".toList ++ twoDigits tm.mday ++ " ".toList ++ monthName tm.mon ++
    " ".toList ++
    decimal (1900 + tm.year) ++ " ".toList ++ twoDigits tm.hour ++ ":".toList ++ twoDigits tm.min ++
    ":".toList ++ twoDigits tm.sec ++ " GMT".toList

/-- What `snprintf` leaves in an array of 512 bytes. -/
def snprintf (text : List Char) : List Char := text.take 511

/-! ## The reply -/

namespace HttpResponse

/-- The header `Content-Length`, if the request is not for the head only. -/
def setContentLength (request : HttpMessage) (content : List Char)
    (headers : List (List Char × List Char)) :
    List (List Char × List Char) :=
  if caseEq request.getMethod "head".toList then headers
  else removeHeader headers "Content-Length".toList ++ [("Content-Length".toList,
    decimal content.length)]

def sent (request : HttpMessage) (tm : Tm) (response : HttpResponse) :
    List (List Char × List Char) :=
  let headers := response.headers
  -- check keep alive header
  let headers := if request.isKeepAlive ∧ headerValue headers "Connection".toList = none then
      headers ++ [("Connection".toList, "Keep-Alive".toList)] else headers
  -- check Content-Length header
  let headers := setContentLength request response.content headers
  -- check date header
  let headers := removeHeader headers "Date".toList ++ [("Date".toList, strftime tm)]
  -- check Content-Type header
  let headers := if headerValue headers "Content-Type".toList = none then
      headers ++ [("Content-Type".toList, "text/html; charset=ISO-8859-1".toList)] else headers
  -- check Server header
  removeHeader headers "Server".toList ++ [("Server".toList, "sphttp/spserver".toList)]

def statusLine (response : HttpResponse) : List Char :=
  response.version ++ ' ' :: decimal response.statusCode ++ ' ' :: response.reasonPhrase ++ crlf

def headerLine (header : List Char × List Char) : List Char :=
  header.1 ++ ':' :: ' ' :: header.2 ++ crlf

def printHeaders (headers : List (List Char × List Char)) : List Char :=
  (headers.map fun header => snprintf (headerLine header)).flatten

/-- `SP_HttpHandlerAdapter::handle`, after the handler: what is put in the reply. -/
def handle (request : HttpMessage) (tm : Tm) (response : HttpResponse) : List Char :=
  snprintf response.statusLine ++ printHeaders (response.sent request tm) ++ crlf ++
    response.content

end HttpResponse

/-! ## Characters -/

theorem isDigit_clean {c : Char} (h : c.isDigit = true) :
    (isBreak c = false ∧ c ≠ '\x00') ∧ c ≠ ' ' := by
  have hne {d : Char} (hd : d.isDigit = false) : c ≠ d := fun heq => by
    rw [heq, hd] at h
    cases h
  have hbreak : isBreak c = false := by
    rw [isBreak, Bool.or_eq_false_iff]
    exact ⟨beq_false_of_ne (hne rfl), beq_false_of_ne (hne rfl)⟩
  exact ⟨⟨hbreak, hne rfl⟩, hne rfl⟩

theorem decimal_mem {n : ℤ} {c : Char} (h : c ∈ decimal n) :
    (isBreak c = false ∧ c ≠ '\x00') ∧ c ≠ ' ' := by
  rw [decimal] at h
  split at h
  · rcases mem_cons.mp h with rfl | h
    · decide
    · exact isDigit_clean (isDigit_toDigits h)
  · exact isDigit_clean (isDigit_toDigits h)

theorem decimal_clean (n : ℤ) : Clean (decimal n) := fun _ hc => (decimal_mem hc).1

theorem decimal_ne (n : ℤ) : decimal n ≠ [] := by
  rw [decimal]
  split
  · rintro ⟨⟩
  · exact Nat.toDigits_ne_nil

theorem length_decimal {n : ℤ} (h : n.natAbs < 10 ^ 10) : (decimal n).length ≤ 11 := by
  have hlen : (Nat.toDigits 10 n.natAbs).length ≤ 10 :=
    (Nat.length_toDigits_le_iff (by decide) (by decide)).mpr h
  rw [decimal]
  split
  · rw [length_cons]
    omega
  · omega

theorem twoDigits_clean {n : ℕ} (h : n < 100) : Clean (twoDigits n) := by
  intro c hc
  have hdigit {d : ℕ} (hd : d < 10) : isBreak d.digitChar = false ∧ d.digitChar ≠ '\x00' :=
    (isDigit_clean (Nat.isDigit_digitChar.trans (decide_eq_true hd))).1
  rcases mem_cons.mp hc with rfl | hc
  · exact hdigit (by omega)
  · rw [mem_singleton.mp hc]
    exact hdigit (by omega)

theorem strftime_clean (tm : Tm) : Clean (strftime tm) := by
  have hday : ∀ wday, Clean (dayName wday) := by decide
  have hmonth : ∀ mon, Clean (monthName mon) := by decide
  have hmday := twoDigits_clean (tm.mday.isLt.trans (by decide))
  have hhour := twoDigits_clean (tm.hour.isLt.trans (by decide))
  have hmin := twoDigits_clean (tm.min.isLt.trans (by decide))
  have hsec := twoDigits_clean (tm.sec.isLt.trans (by decide))
  have hdate :
      Clean (dayName tm.wday ++ ", ".toList ++ twoDigits tm.mday ++ " ".toList ++
        monthName tm.mon ++
      " ".toList ++ decimal (1900 + tm.year)) :=
    (((((hday _).append (by decide)).append hmday).append (by decide)).append (hmonth _)).append
      (by decide)
      |>.append (decimal_clean _)
  exact (((((hdate.append (by decide)).append hhour).append (by decide)).append hmin).append
    (by decide)).append hsec
    |>.append (by decide)

theorem length_strftime (tm : Tm) : (strftime tm).length ≤ 36 := by
  have hday : ∀ wday, (dayName wday).length = 3 := by decide
  have hmonth : ∀ mon, (monthName mon).length = 3 := by decide
  have htwo (n : ℕ) : (twoDigits n).length = 2 := rfl
  have hge := tm.year_ge
  have hlt := tm.year_lt
  have hyear := length_decimal (n := 1900 + tm.year) (by omega)
  have hcomma : ", ".toList.length = 2 := rfl
  have hblank : " ".toList.length = 1 := rfl
  have hcolon : ":".toList.length = 1 := rfl
  have hzone : " GMT".toList.length = 4 := rfl
  simp only [strftime, length_append, hday, hmonth, htwo, hcomma, hblank, hcolon, hzone]
  omega

theorem strftime_head (tm : Tm) : strftime tm ≠ [] ∧ (strftime tm).head? ≠ some ' ' := by
  have hday : ∀ wday, dayName wday ≠ [] ∧ (dayName wday).head? ≠ some ' ' := by decide
  obtain ⟨hne, hhead⟩ := hday tm.wday
  obtain ⟨c, cs, hname⟩ := exists_cons_of_ne_nil hne
  rw [hname] at hhead
  rw [strftime, hname]
  exact ⟨nofun, hhead⟩

/-! ## The headers that are sent -/

/-- What a handler may put in a header. -/
structure ProperHeader (header : List Char × List Char) : Prop where
  name_nul : '\x00' ∉ header.1
  name_colon : ':' ∉ header.1
  value_clean : Clean header.2
  value_ne : header.2 ≠ []
  value_blank : header.2.head? ≠ some ' '

theorem removeHeader_append {headers added : List (List Char × List Char)} {name : List Char}
    (h : ∀ header ∈ added, caseEq name header.1 = false) :
    removeHeader (headers ++ added) name = removeHeader headers name ++ added := by
  have hadded : added.eraseP (fun header => caseEq name header.1) = added :=
    eraseP_of_forall_not fun header hmem => by simp [h header hmem]
  rw [removeHeader, removeHeader, eraseP_append]
  split
  · rfl
  · rename_i hnone
    rw [hadded, eraseP_of_forall_not]
    simpa using hnone

theorem headerValue_append (headers added : List (List Char × List Char)) (name : List Char) :
    headerValue (headers ++ added) name =
      (headerValue headers name).or (headerValue added name) := by
  rw [headerValue, headerValue, headerValue, find?_append]
  cases headers.find? fun header => caseEq name header.1 <;> rfl

namespace HttpResponse

def kept (request : HttpMessage) (response : HttpResponse) : List (List Char × List Char) :=
  removeHeader (removeHeader (if caseEq request.getMethod "head".toList then response.headers
    else removeHeader response.headers "Content-Length".toList) "Date".toList) "Server".toList

theorem kept_subset (request : HttpMessage) (response : HttpResponse) :
    ∀ header ∈ response.kept request, header ∈ response.headers := by
  intro header h
  have h₁ := mem_of_mem_eraseP (mem_of_mem_eraseP h)
  split at h₁
  · exact h₁
  · exact mem_of_mem_eraseP h₁

/-- The headers that are set for the handler, but for the last one. -/
def settings (tm : Tm) (content : List Char) : List (List Char × List Char) :=
  [("Connection".toList, "Keep-Alive".toList), ("Content-Length".toList, decimal content.length),
    ("Date".toList, strftime tm), ("Content-Type".toList, "text/html; charset=ISO-8859-1".toList)]

/-- **The headers that are sent**: the handler's, and those that are set for it. -/
theorem sent_eq (request : HttpMessage) (tm : Tm) (response : HttpResponse) :
    ∃ added, response.sent request tm =
        response.kept request ++ added ++ [("Server".toList, "sphttp/spserver".toList)] ∧
      (∀ header ∈ added, header ∈ settings tm response.content) ∧
      headerValue added "Content-Length".toList =
        if caseEq request.getMethod "head".toList then none
        else some (decimal response.content.length) := by
  have hoption (c : Prop) [Decidable c] (headers : List (List Char × List Char))
      (header : List Char × List Char) :
      ∃ l, (if c then headers ++ [header] else headers) = headers ++ l ∧
        (l = [] ∨ l = [header]) := by
    split
    · exact ⟨_, rfl, .inr rfl⟩
    · exact ⟨[], (append_nil _).symm, .inl rfl⟩
  obtain ⟨conn, hconn, hconn'⟩ := hoption
    (request.isKeepAlive ∧ headerValue response.headers "Connection".toList = none) response.headers
    ("Connection".toList, "Keep-Alive".toList)
  -- the headers of the handler without the length, and the length
  obtain ⟨base, len, hlen, hbase, hlen'⟩ : ∃ base len,
      setContentLength request response.content (response.headers ++ conn) = base ++ (conn ++ len) ∧
      base = (if caseEq request.getMethod "head".toList then response.headers
        else removeHeader response.headers "Content-Length".toList) ∧
      len = if caseEq request.getMethod "head".toList then []
        else [("Content-Length".toList, decimal response.content.length)] := by
    refine ⟨_, _, ?_, rfl, rfl⟩
    rw [setContentLength]
    split
    · rw [append_nil]
    · rw [removeHeader_append, append_assoc]
      rcases hconn' with rfl | rfl <;> decide
  have hnames :
      ∀ header ∈ conn ++ len, header.1 = "Connection".toList ∨
        header.1 = "Content-Length".toList := by
    intro header h
    rcases mem_append.mp h with h | h
    · rcases hconn' with rfl | rfl
      · cases h
      · exact .inl (congrArg Prod.fst (mem_singleton.mp h))
    · rw [hlen'] at h
      split at h
      · cases h
      · exact .inr (congrArg Prod.fst (mem_singleton.mp h))
  have hdate :
      removeHeader (base ++ (conn ++ len)) "Date".toList =
        removeHeader base "Date".toList ++ (conn ++ len) := by
    refine removeHeader_append fun header h => ?_
    rcases hnames header h with h | h <;> rw [h] <;> decide
  obtain ⟨type, htype, htype'⟩ := hoption
    (headerValue (removeHeader base "Date".toList ++ (conn ++ len) ++ [("Date".toList,
      strftime tm)])
      "Content-Type".toList = none)
    (removeHeader base "Date".toList ++ (conn ++ len) ++ [("Date".toList, strftime tm)])
    ("Content-Type".toList, "text/html; charset=ISO-8859-1".toList)
  have htypename : ∀ header ∈ type, header.1 = "Content-Type".toList := by
    intro header h
    rcases htype' with rfl | rfl
    · cases h
    · exact congrArg Prod.fst (mem_singleton.mp h)
  have hsent : response.sent request tm =
      removeHeader (removeHeader base "Date".toList ++ (conn ++ len ++ ("Date".toList,
        strftime tm) :: type))
        "Server".toList ++ [("Server".toList, "sphttp/spserver".toList)] := by
    rw [sent, hconn, hlen, hdate, htype]
    simp only [append_assoc, cons_append, nil_append]
  have hserver :
      removeHeader (removeHeader base "Date".toList ++ (conn ++ len ++ ("Date".toList,
        strftime tm) :: type))
      "Server".toList = removeHeader (removeHeader base "Date".toList) "Server".toList ++
        (conn ++ len ++ ("Date".toList, strftime tm) :: type) := by
    refine removeHeader_append fun header h => ?_
    rcases mem_append.mp h with h | h
    · rcases hnames header h with h | h <;> rw [h] <;> decide
    · rcases mem_cons.mp h with rfl | h
      · exact (by decide : caseEq "Server".toList "Date".toList = false)
      · rw [htypename header h]
        decide
  refine ⟨conn ++ len ++ ("Date".toList, strftime tm) :: type, ?_, fun header h => ?_, ?_⟩
  · rw [hsent, hserver, kept, hbase]
  · rcases mem_append.mp h with h | h
    · rcases mem_append.mp h with h | h
      · rcases hconn' with rfl | rfl
        · cases h
        · exact mem_singleton.mp h ▸ mem_cons_self ..
      · rw [hlen'] at h
        split at h
        · cases h
        · exact mem_singleton.mp h ▸ mem_cons_of_mem _ (mem_cons_self ..)
    · rcases mem_cons.mp h with rfl | h
      · exact mem_cons_of_mem _ (mem_cons_of_mem _ (mem_cons_self ..))
      · rcases htype' with rfl | rfl
        · cases h
        · rw [mem_singleton.mp h]
          exact mem_cons_of_mem _ (mem_cons_of_mem _ (mem_cons_of_mem _ (mem_cons_self ..)))
  · have hconnvalue : headerValue conn "Content-Length".toList = none := by
      rcases hconn' with rfl | rfl <;> decide
    have hrest :
        headerValue (("Date".toList, strftime tm) :: type) "Content-Length".toList = none := by
      rcases htype' with rfl | rfl <;> rfl
    rw [append_assoc, headerValue_append, headerValue_append, hconnvalue, hrest, Option.none_or,
      Option.or_none,
      hlen']
    split <;> rfl

end HttpResponse

end Spserver
