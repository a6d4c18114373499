import Mathlib.Data.List.DropRight
import ReadingComment.Lib.CString

/-!
# Event definitions (`userspace/kp_parse_events.c`)

`trace` is given a list of definitions `sys:event`, separated by commas, with a filter
between slashes at its end. The list is cut at the commas first, wherever they stand; of
each part the system is what stands before the first colon, the filter is looked for from
the end, and the event is what lies between. A pointer into a part is its position there.

What happens to an event is up to `/sys/kernel/debug/tracing`: `add` says whether the
next event of a list can be added.
-/

namespace Ktap.User

open Lib List

/-! ## The parser -/

/-- `strim(s)`: blanks are removed at the end. -/
def strim (s : List Char) : List Char := s.rdropWhile isSpace

/-- `strchr(s + i, c) - s`. -/
def strchr (s : List Char) (c : Char) (i : ℕ) : Option ℕ :=
  if c ∈ s.drop i then some (i + (s.drop i).idxOf c) else none

/-- The parts of a definition: `sys`, `event` and `filter`. -/
structure EventParts where
  sys : List Char
  event : List Char
  filter : Option (List Char)
  deriving DecidableEq, Repr

/-- `separator2`, which is behind the path of "uprobe event". -/
def pathSeparator (s sys : List Char) (separator : ℕ) : Option ℕ :=
  if sys = ['p', 'r', 'o', 'b', 'e'] ∧ s[separator + 1]? = some '/' then
    strchr s ':' (separator + 1)
  else some separator

/-- `get_sys_event_filter_str(start, &sys, &event, &filter)`. -/
def getSysEventFilterStr (start : List Char) : Option EventParts := do
  let s := start.dropWhile (· == ' ')
  -- find sys
  let separator ← strchr s ':' 0
  if separator = 0 then none
  else
    let sys := strim (s.take separator)
    let separator2 ← pathSeparator s sys separator
    -- find filter
    let last := (s.rdropWhile (· == ' ')).length - 1
    if s[last]? = some '/' then
      let filterStart ← strchr s '/' separator2
      if filterStart = last then none
      else
        some ⟨sys, strim (s.extract (separator + 1) filterStart),
          some (s.extract (filterStart + 1) last)⟩
    else some ⟨sys, strim (s.extract (separator + 1) (last + 1)), none⟩

/-- `get_next_eventdef(str)`, with what `str` is afterwards. -/
def getNextEventdef (str : List Char) : List Char × List Char :=
  (str.takeWhile (· != ','), (str.dropWhile (· != ',')).tail)

theorem length_getNextEventdef {str : List Char} (h : (getNextEventdef str).2 ≠ []) :
    (getNextEventdef str).2.length < str.length := by
  have hle := (dropWhile_suffix (· != ',') (l := str)).length_le
  have hpos := length_pos_iff.mpr h
  rw [getNextEventdef, length_tail] at hpos ⊢
  omega

abbrev Event : Type := List Char × List Char

/-- The events that `kp_parse_events` adds, and the filter that it returns; nothing if it fails.
`add` is told the events that were added before. -/
def parseNextEventdef (add : List Event → Event → Bool) (added : List Event) (str : List Char) :
    List Event × Option (Option (List Char)) :=
  match getSysEventFilterStr (getNextEventdef str).1 with
  | none => (added, none)
  | some ⟨sys, event, filter⟩ =>
    let added' := added ++ [(sys, event)]
    if ! add added (sys, event) then (added', none)
    -- "Error: eventdef only can append one filter\n"
    else if filter.isSome ∧ (getNextEventdef str).2 ≠ [] then (added', none)
    else if _h : (getNextEventdef str).2 ≠ [] then
      parseNextEventdef add added' (getNextEventdef str).2
    else (added', some filter)
termination_by str.length
decreasing_by exact length_getNextEventdef _h

/-- `kp_parse_events(eventdef)`. -/
def kpParseEvents (add : List Event → Event → Bool) (eventdef : List Char) :
    List Event × Option (Option (List Char)) := parseNextEventdef add [] eventdef

/-! ## Texts -/

/-- A name: no comma, colon or slash, and no blank at either end. -/
structure EventName where
  text : List Char
  ne_nil : text ≠ []
  plain : ∀ c ∈ text, c ≠ ',' ∧ c ≠ ':' ∧ c ≠ '/'
  head : ∀ c ∈ text.head?, isSpace c = false
  last : ∀ c ∈ text.getLast?, isSpace c = false

def blanks (n : ℕ) : List Char := List.replicate n ' '

/-- A filter, and the blanks behind it. -/
structure EventFilter where
  text : List Char
  noSlash : '/' ∉ text
  after : ℕ

/-- A definition `sys:event`, with blanks around its parts. -/
structure EventDef where
  beforeSys : ℕ
  sys : EventName
  afterSys : ℕ
  beforeEvent : ℕ
  event : EventName
  afterEvent : ℕ
  filter : Option EventFilter

namespace EventDef

variable (d : EventDef)

def filterText : List Char :=
  match d.filter with
  | some f => '/' :: f.text ++ '/' :: blanks f.after
  | none => []

def sysText : List Char := d.sys.text ++ blanks d.afterSys

def eventText : List Char := blanks d.beforeEvent ++ d.event.text

def text : List Char :=
  blanks d.beforeSys ++ (d.sysText ++ ':' :: (d.eventText ++ blanks d.afterEvent ++ d.filterText))

def meant : Event := (d.sys.text, d.event.text)

end EventDef

def listText (ds : List EventDef) : List Char := [','].intercalate (ds.map EventDef.text)

/-- The events of a list are added until that fails, and then the filter is returned. -/
def addAll (add : List Event → Event → Bool) (added : List Event) (filter : Option (List Char)) :
    List Event → List Event × Option (Option (List Char))
  | [] => (added, some filter)
  | e :: es =>
    if add added e then addAll add (added ++ [e]) filter es else (added ++ [e], none)

/-! ## One definition -/

section characters

variable {u v w s : List Char} {c : Char} {p : Char → Bool} {i j : ℕ}

theorem rdropWhile_append_stop (hv : ∀ c ∈ v, p c = true) (hu : ∀ c ∈ u.getLast?, p c = false) :
    (u ++ v).rdropWhile p = u := by
  have hdrop : (v.reverse ++ u.reverse).dropWhile p = u.reverse := by
    refine dropWhile_append_stop (fun c hc => hv c (mem_reverse.mp hc)) fun c hc => ?_
    rw [head?_reverse] at hc
    exact hu c hc
  rw [List.rdropWhile, reverse_append, hdrop, reverse_reverse]

theorem strchr_append (h : c ∉ u) : strchr (w ++ (u ++ c :: v)) c w.length =
    some (w.length + u.length) := by
  rw [strchr, drop_left, if_pos (mem_append_right _ mem_cons_self),
    idxOf_append_of_notMem h, idxOf_cons_self, Nat.add_zero]

theorem strchr_some (h : strchr s c i = some j) : i ≤ j ∧ s[j]? = some c := by
  rw [strchr] at h
  split at h
  · rename_i hmem
    cases h
    refine ⟨Nat.le_add_right _ _, ?_⟩
    rw [← getElem?_drop, getElem?_idxOf hmem]
  · cases h

theorem extract_append : (u ++ (v ++ w)).extract u.length (u.length + v.length) = v := by
  rw [extract_eq_take_drop, drop_left, Nat.add_sub_cancel_left, take_left]

end characters

section definition

variable {d : EventDef} {n : ℕ} {c : Char}

theorem mem_blanks (h : c ∈ blanks n) : c = ' ' := eq_of_mem_replicate h

theorem isSpace_blanks (h : c ∈ blanks n) : isSpace c = true := by
  rw [mem_blanks h]
  rfl

theorem blank_of_isSpace (h : isSpace c = false) : (c == ' ') = false := by
  refine beq_false_of_ne fun hc => ?_
  rw [hc] at h
  cases h

theorem notMem_blanks (h : c ≠ ' ') : c ∉ blanks n := fun hc => h (mem_blanks hc)

theorem EventName.last_append (e : EventName) (u : List Char) :
    ∀ c ∈ (u ++ e.text).getLast?, isSpace c = false := by
  intro c hc
  rw [getLast?_append_of_ne_nil _ e.ne_nil] at hc
  exact e.last c hc

theorem EventName.strim_append (e : EventName) (u : List Char) (n : ℕ) :
    strim (u ++ e.text ++ blanks n) = u ++ e.text :=
  rdropWhile_append_stop (fun _ hc => isSpace_blanks hc) (e.last_append u)

theorem EventName.notMem (e : EventName) :
    ',' ∉ e.text ∧ ':' ∉ e.text ∧ '/' ∉ e.text :=
  ⟨fun h => (e.plain _ h).1 rfl, fun h => (e.plain _ h).2.1 rfl, fun h => (e.plain _ h).2.2 rfl⟩

namespace EventDef

def body (d : EventDef) : List Char :=
  d.sysText ++ ':' :: (d.eventText ++ blanks d.afterEvent ++ d.filterText)

theorem dropWhile_text (d : EventDef) : d.text.dropWhile (· == ' ') = d.body := by
  refine dropWhile_append_stop (fun c hc => ?_) fun c hc => ?_
  · rw [mem_blanks hc]
    rfl
  · rw [sysText, append_assoc, head?_append_of_ne_nil _ d.sys.ne_nil] at hc
    exact blank_of_isSpace (d.sys.head c hc)

theorem colon_notMem_sysText (d : EventDef) : ':' ∉ d.sysText := by
  rw [sysText, mem_append, not_or]
  exact ⟨d.sys.notMem.2.1, notMem_blanks (by decide)⟩

theorem slash_notMem_eventText (d : EventDef) : '/' ∉ d.eventText ++ blanks d.afterEvent := by
  rw [eventText, mem_append, mem_append, not_or, not_or]
  exact ⟨⟨notMem_blanks (by decide), d.event.notMem.2.2⟩, notMem_blanks (by decide)⟩

theorem strchr_colon (d : EventDef) : strchr d.body ':' 0 = some d.sysText.length := by
  have h := strchr_append (w := []) (v := d.eventText ++ blanks d.afterEvent ++ d.filterText)
    d.colon_notMem_sysText
  rwa [nil_append, length_nil, Nat.zero_add] at h

theorem not_uprobe (d : EventDef) : d.body[d.sysText.length + 1]? ≠ some '/' := by
  have hne : d.eventText ≠ [] := fun h => d.event.ne_nil (append_eq_nil_iff.mp h).2
  intro h
  rw [body, getElem?_append_right (Nat.le_add_right _ _), Nat.add_sub_cancel_left,
    getElem?_cons_succ, append_assoc, getElem?_append_left
      (length_pos_iff.mpr hne)] at h
  exact d.slash_notMem_eventText (mem_append_left _ (mem_of_getElem? h))

theorem strim_sys (d : EventDef) : strim (d.body.take d.sysText.length) = d.sys.text := by
  rw [body, take_left]
  exact d.sys.strim_append [] d.afterSys

def front (d : EventDef) : List Char :=
  d.sysText ++ ':' :: (d.eventText ++ blanks d.afterEvent)

theorem body_eq (d : EventDef) : d.body = d.front ++ d.filterText := by
  rw [body, front, append_assoc d.sysText, cons_append]

theorem strim_event (d : EventDef) (n : ℕ) (w : List Char) :
    strim ((d.sysText ++ ':' :: (d.eventText ++ blanks n ++ w)).extract (d.sysText.length + 1)
      (d.sysText.length + 1 + (d.eventText ++ blanks n).length)) = d.eventText := by
  have h := extract_append (u := d.sysText ++ [':']) (v := d.eventText ++ blanks n) (w := w)
  rw [length_append, length_singleton, append_assoc, singleton_append] at h
  rw [h]
  exact d.event.strim_append _ n

theorem getSysEventFilterStr_eq {last : ℕ}
    (hlast : (d.body.rdropWhile (· == ' ')).length - 1 = last) : getSysEventFilterStr d.text =
      if d.body[last]? = some '/' then
        (strchr d.body '/' d.sysText.length).bind fun filterStart =>
          if filterStart = last then none
          else
            some ⟨d.sys.text, strim (d.body.extract (d.sysText.length + 1) filterStart),
              some (d.body.extract (filterStart + 1) last)⟩
      else
        some ⟨d.sys.text, strim (d.body.extract (d.sysText.length + 1) (last + 1)), none⟩ := by
  have hpos : d.sysText.length ≠ 0 := fun hz =>
    d.sys.ne_nil (append_eq_nil_iff.mp (length_eq_zero_iff.mp hz)).1
  rw [getSysEventFilterStr, dropWhile_text, strchr_colon]
  change (if d.sysText.length = 0 then none else _) = _
  rw [if_neg hpos]
  dsimp only
  rw [pathSeparator, if_neg fun hu => d.not_uprobe hu.2, hlast, strim_sys]
  rfl

theorem getSysEventFilterStr_none (h : d.filter = none) :
    getSysEventFilterStr d.text = some ⟨d.sys.text, d.eventText, none⟩ := by
  have hrest : d.filterText = [] := by rw [filterText, h]
  have hdrop : d.body.rdropWhile (· == ' ') = d.sysText ++ ':' :: d.eventText := by
    rw [body_eq, hrest, front, append_nil, ← cons_append, ← append_assoc]
    refine rdropWhile_append_stop (fun c hc => by rw [mem_blanks hc]; rfl) fun c hc => ?_
    rw [eventText, ← cons_append, ← append_assoc] at hc
    exact blank_of_isSpace (d.event.last_append _ c hc)
  have hlen : (d.sysText ++ ':' :: d.eventText).length - 1 = d.sysText.length +
      d.eventText.length := by
    rw [length_append, length_cons]
    omega
  have hlast : d.body[d.sysText.length + d.eventText.length]? ≠ some '/' := by
    intro hslash
    rw [body_eq, hrest, append_nil, front, getElem?_append_right (Nat.le_add_right _ _),
      Nat.add_sub_cancel_left] at hslash
    have hmem := mem_of_getElem? hslash
    rcases mem_cons.mp hmem with heq | hmem
    · cases heq
    · exact d.slash_notMem_eventText hmem
  rw [getSysEventFilterStr_eq (hdrop ▸ hlen), if_neg hlast]
  have hevent := d.strim_event 0 (blanks d.afterEvent ++ d.filterText)
  rw [blanks, replicate_zero, append_nil, ← append_assoc] at hevent
  rw [body, Nat.add_right_comm, hevent]

theorem getSysEventFilterStr_some {f : EventFilter} (h : d.filter = some f) :
    getSysEventFilterStr d.text = some ⟨d.sys.text, d.eventText, some f.text⟩ := by
  have hrest : d.filterText = '/' :: f.text ++ '/' :: blanks f.after := by rw [filterText, h]
  have hbody : d.body = d.front ++ ('/' :: f.text ++ ['/']) ++ blanks f.after := by
    rw [body_eq, hrest, append_assoc, append_assoc, singleton_append]
  have hdrop : d.body.rdropWhile (· == ' ') = d.front ++ ('/' :: f.text ++ ['/']) := by
    rw [hbody]
    refine rdropWhile_append_stop (fun c hc => by rw [mem_blanks hc]; rfl) fun c hc => ?_
    rw [← append_assoc, getLast?_concat] at hc
    cases hc
    rfl
  have hlen : (d.front ++ ('/' :: f.text ++ ['/'])).length - 1 =
      d.front.length + (1 + f.text.length) := by
    simp only [length_append, length_cons, length_nil]
    omega
  have hlast : d.body[d.front.length + (1 + f.text.length)]? = some '/' := by
    rw [hbody, append_assoc, getElem?_append_right (Nat.le_add_right _ _),
      Nat.add_sub_cancel_left, Nat.add_comm 1]
    change (f.text ++ ['/'] ++ blanks f.after)[f.text.length]? = _
    rw [append_assoc, getElem?_append_right (Nat.le_refl _), Nat.sub_self]
    rfl
  have hslash : strchr d.body '/' d.sysText.length = some d.front.length := by
    have hno : '/' ∉ ':' :: (d.eventText ++ blanks d.afterEvent) := by
      rw [mem_cons, not_or]
      exact ⟨by decide, d.slash_notMem_eventText⟩
    have hfind := strchr_append (w := d.sysText) (v := f.text ++ '/' :: blanks f.after) hno
    rw [front, length_append, ← hfind, body_eq, hrest, front, append_assoc,
      cons_append (a := '/')]
  have hfilter : d.body.extract (d.front.length + 1) (d.front.length + (1 + f.text.length)) =
      f.text := by
    have hex := extract_append (u := d.front ++ ['/']) (v := f.text) (w := '/' :: blanks f.after)
    rw [length_append, length_singleton, append_assoc, singleton_append,
      Nat.add_assoc] at hex
    rw [body_eq, hrest, cons_append, hex]
  have hevent := d.strim_event d.afterEvent d.filterText
  have hfront : d.sysText.length + 1 + (d.eventText ++ blanks d.afterEvent).length =
      d.front.length := by
    simp only [front, length_append, length_cons]
    omega
  rw [hfront] at hevent
  rw [getSysEventFilterStr_eq (hdrop ▸ hlen), if_pos hlast, hslash, Option.bind_some,
    if_neg (by omega), hfilter, body, hevent]

theorem getSysEventFilterStr_text (d : EventDef) : getSysEventFilterStr d.text =
    some ⟨d.sys.text, d.eventText, d.filter.map EventFilter.text⟩ := by
  cases h : d.filter with
  | none => exact getSysEventFilterStr_none h
  | some f => exact getSysEventFilterStr_some h

end EventDef

end definition

/-! ## Parts that end with a slash -/

section slash

variable {x y v : List Char} {n : ℕ} {add : List Event → Event → Bool} {added : List Event}

theorem dropWhile_slash (x : List Char) (n : ℕ) :
    ∃ x', (x ++ '/' :: blanks n).dropWhile (· == ' ') = x' ++ '/' :: blanks n ∧ x' <:+ x := by
  induction x with
  | nil => exact ⟨[], rfl, suffix_refl _⟩
  | cons c x ih =>
    by_cases hc : (c == ' ') = true
    · obtain ⟨x', hx', hs⟩ := ih
      refine ⟨x', ?_, hs.trans (suffix_cons c x)⟩
      rw [cons_append, dropWhile_cons_of_pos (by exact hc), hx']
    · exact ⟨c :: x, dropWhile_cons_of_neg (by exact hc), suffix_refl _⟩

theorem getSysEventFilterStr_slash {parts : EventParts}
    (h : getSysEventFilterStr (x ++ '/' :: blanks n) = some parts) :
    '/' ∈ x ∧ parts.filter.isSome = true := by
  obtain ⟨x', hx', hs⟩ := dropWhile_slash x n
  have hdrop : (x' ++ '/' :: blanks n).rdropWhile (· == ' ') = x' ++ ['/'] := by
    rw [append_cons]
    refine rdropWhile_append_stop (fun c hc => by rw [mem_blanks hc]; rfl) fun c hc => ?_
    rw [getLast?_concat] at hc
    cases hc
    rfl
  have hlast : (x' ++ '/' :: blanks n)[x'.length]? = some '/' := by
    rw [getElem?_append_right (Nat.le_refl _), Nat.sub_self]
    rfl
  rw [getSysEventFilterStr, hx', hdrop, length_append, length_singleton,
    Nat.add_sub_cancel] at h
  obtain ⟨separator, -, h⟩ := Option.bind_eq_some_iff.mp h
  split at h
  · cases h
  · obtain ⟨separator2, -, h⟩ := Option.bind_eq_some_iff.mp h
    dsimp only at h
    rw [if_pos hlast] at h
    obtain ⟨filterStart, hfilter, h⟩ := Option.bind_eq_some_iff.mp h
    split at h
    · cases h
    · rename_i hne
      cases h
      refine ⟨hs.subset ?_, rfl⟩
      have hslash := (strchr_some hfilter).2
      rcases Nat.lt_trichotomy filterStart x'.length with hlt | heq | hgt
      · rw [getElem?_append_left hlt] at hslash
        exact mem_of_getElem? hslash
      · exact absurd heq hne
      · obtain ⟨i, rfl⟩ := Nat.exists_eq_add_of_lt hgt
        rw [getElem?_append_right (by omega), show x'.length + i + 1 - x'.length = i + 1 by omega,
          getElem?_cons_succ] at hslash
        cases mem_blanks (mem_of_getElem? hslash)

theorem getNextEventdef_append (hx : ',' ∉ x) (y : List Char) :
    getNextEventdef (x ++ ',' :: y) = (x, y) := by
  have hp : ∀ c ∈ x, (c != ',') = true := fun c hc => by
    simpa using ne_of_mem_of_not_mem hc hx
  have hstop : ∀ c ∈ (',' :: y).head?, (c != ',') = false := by
    intro c hc
    cases hc
    rfl
  rw [getNextEventdef, takeWhile_append_stop hp hstop, dropWhile_append_stop hp hstop]
  rfl

theorem getNextEventdef_last (hx : ',' ∉ x) : getNextEventdef x = (x, []) := by
  have hp : ∀ c ∈ x, (c != ',') = true := fun c hc => by
    simpa using ne_of_mem_of_not_mem hc hx
  rw [getNextEventdef, takeWhile_eq_self_iff.mpr hp, dropWhile_eq_nil_iff.mpr hp]
  rfl

theorem parseNextEventdef_none (hx : ',' ∉ x) (hy : y ≠ [])
    (hrest : ∀ parts, getSysEventFilterStr x = some parts → parts.filter = none →
      ∀ added, (parseNextEventdef add added y).2 = none) :
    (parseNextEventdef add added (x ++ ',' :: y)).2 = none := by
  rw [parseNextEventdef, getNextEventdef_append hx]
  dsimp only
  cases hparts : getSysEventFilterStr x with
  | none => rfl
  | some parts =>
    obtain ⟨sys, event, filter⟩ := parts
    dsimp only
    split
    · rfl
    · split
      · rfl
      · rename_i hfilter
        refine hrest _ hparts ?_ _
        exact Option.not_isSome_iff_eq_none.mp fun hsome => hfilter ⟨hsome, hy⟩

theorem parseNextEventdef_one_slash (hv : ',' ∉ v) (hslash : '/' ∉ v) (u : List Char) :
    (parseNextEventdef add added (u ++ ',' :: (v ++ '/' :: blanks n))).2 = none := by
  have hcomma : ',' ∉ v ++ '/' :: blanks n := by
    rw [mem_append, mem_cons, not_or, not_or]
    exact ⟨hv, by decide, notMem_blanks (by decide)⟩
  have hnil : v ++ '/' :: blanks n ≠ [] := append_ne_nil_of_right_ne_nil _
    (cons_ne_nil _ _)
  have hreject : getSysEventFilterStr (v ++ '/' :: blanks n) = none := by
    cases hparts : getSysEventFilterStr (v ++ '/' :: blanks n) with
    | none => rfl
    | some parts => exact absurd (getSysEventFilterStr_slash hparts).1 hslash
  induction hlen : u.length using Nat.strong_induction_on generalizing u added with
  | _ k ih =>
    rcases strsep_cases ',' u with hu | ⟨u₁, u₂, rfl, hu₁⟩
    · refine parseNextEventdef_none hu hnil fun _ _ _ added => ?_
      rw [parseNextEventdef, getNextEventdef_last hcomma, hreject]
    · rw [append_assoc, cons_append]
      refine parseNextEventdef_none hu₁ (append_ne_nil_of_right_ne_nil _
        (cons_ne_nil _ _)) fun _ _ _ added => ih u₂.length ?_ u₂ rfl
      rw [← hlen, length_append, length_cons]
      omega

theorem parseNextEventdef_slash_comma (hy : y ≠ []) (x : List Char) :
    (parseNextEventdef add added (x ++ '/' :: (blanks n ++ ',' :: y))).2 = none := by
  induction hlen : x.length using Nat.strong_induction_on generalizing x added with
  | _ k ih =>
    rcases strsep_cases ',' x with hx | ⟨x₁, x₂, rfl, hx₁⟩
    · have hcomma : ',' ∉ x ++ '/' :: blanks n := by
        rw [mem_append, mem_cons, not_or, not_or]
        exact ⟨hx, by decide, notMem_blanks (by decide)⟩
      rw [← cons_append, ← append_assoc]
      refine parseNextEventdef_none hcomma hy fun parts hparts hnone => ?_
      have hsome := (getSysEventFilterStr_slash hparts).2
      rw [hnone] at hsome
      cases hsome
    · rw [append_assoc, cons_append]
      refine parseNextEventdef_none hx₁ (append_ne_nil_of_right_ne_nil _
        (cons_ne_nil _ _)) fun _ _ _ added => ih x₂.length ?_ x₂ rfl
      rw [← hlen, length_append, length_cons]
      omega

end slash

/-! ## Lists -/

section lists

variable {ds ds' : List EventDef} {d last : EventDef} {add : List Event → Event → Bool}
  {added : List Event} {filter : Option (List Char)}

theorem listText_cons (d : EventDef) (h : ds ≠ []) :
    listText (d :: ds) = d.text ++ ',' :: listText ds := by
  obtain ⟨d', ds, rfl⟩ := exists_cons_of_ne_nil h
  rw [listText, map_cons, map_cons, intercalate_cons_cons, append_assoc,
    singleton_append]
  rfl

theorem listText_singleton (d : EventDef) : listText [d] = d.text := append_nil _

theorem listText_append (ds : List EventDef) (h : ds' ≠ []) :
    ∃ pre, listText (ds ++ ds') = pre ++ listText ds' := by
  induction ds with
  | nil => exact ⟨[], rfl⟩
  | cons d ds ih =>
    obtain ⟨pre, hpre⟩ := ih
    refine ⟨d.text ++ ',' :: pre, ?_⟩
    rw [cons_append, listText_cons d (append_ne_nil_of_right_ne_nil _ h), hpre,
      append_assoc, cons_append]

namespace EventDef

theorem text_eq (d : EventDef) : d.text = blanks d.beforeSys ++ (d.front ++ d.filterText) := by
  rw [← body_eq]
  rfl

theorem text_ne_nil (d : EventDef) : d.text ≠ [] :=
  append_ne_nil_of_right_ne_nil _ (append_ne_nil_of_right_ne_nil _ (cons_ne_nil _ _))

theorem comma_notMem_text (h : ∀ f ∈ d.filter, ',' ∉ f.text) : ',' ∉ d.text := by
  have hb : ∀ n, ',' ∉ blanks n := fun n => notMem_blanks (by decide)
  have hfilter : ',' ∉ d.filterText := by
    rw [filterText]
    cases hf : d.filter with
    | none => exact not_mem_nil
    | some f =>
      simp only [mem_append, mem_cons, not_or]
      exact ⟨⟨by decide, h f hf⟩, by decide, hb _⟩
  simp only [text, sysText, eventText, mem_append, mem_cons, not_or]
  exact ⟨hb _, ⟨d.sys.notMem.1, hb _⟩, by decide, ⟨⟨hb _, d.event.notMem.1⟩, hb _⟩, hfilter⟩

def found (d : EventDef) : Event := (d.sys.text, d.eventText)

theorem found_eq_meant_iff : d.found = d.meant ↔ d.beforeEvent = 0 := by
  rw [found, meant, Prod.mk.injEq, eventText, append_left_eq_self, blanks,
    replicate_eq_nil_iff]
  exact and_iff_right rfl

end EventDef

theorem listText_ne_nil (h : ds ≠ []) : listText ds ≠ [] := by
  obtain ⟨d, ds, rfl⟩ := exists_cons_of_ne_nil h
  cases ds with
  | nil =>
    rw [listText_singleton]
    exact d.text_ne_nil
  | cons d' ds =>
    rw [listText_cons d (cons_ne_nil d' ds)]
    exact append_ne_nil_of_left_ne_nil d.text_ne_nil _

theorem parseNextEventdef_list (hnone : ∀ d ∈ ds, d.filter = none)
    (hlast : ∀ f ∈ last.filter, ',' ∉ f.text) :
    parseNextEventdef add added (listText (ds ++ [last])) =
      addAll add added (last.filter.map EventFilter.text) ((ds ++ [last]).map EventDef.found) := by
  induction ds generalizing added with
  | nil =>
    rw [nil_append, listText_singleton, parseNextEventdef,
      getNextEventdef_last (EventDef.comma_notMem_text hlast)]
    dsimp only
    rw [EventDef.getSysEventFilterStr_text]
    simp only [ne_eq, not_true_eq_false, and_false, if_false, dite_false, map_cons,
      map_nil, addAll, EventDef.found]
    cases add added (last.sys.text, last.eventText) <;> rfl
  | cons d ds ih =>
    obtain ⟨hd, hnone⟩ := forall_mem_cons.mp hnone
    have hne : ds ++ [last] ≠ [] := append_ne_nil_of_right_ne_nil _ (cons_ne_nil _ _)
    have hcomma : ',' ∉ d.text := EventDef.comma_notMem_text (by rw [hd]; exact nofun)
    rw [cons_append, listText_cons d hne, parseNextEventdef, getNextEventdef_append hcomma]
    dsimp only
    rw [EventDef.getSysEventFilterStr_text, hd]
    simp only [Option.map_none, Option.isSome_none, Bool.false_eq_true, false_and, if_false,
      ne_eq, listText_ne_nil hne, not_false_eq_true, dite_true, map_cons, addAll]
    rw [ih hnone, show d.found = (d.sys.text, d.eventText) from rfl]
    cases add added (d.sys.text, d.eventText) <;> rfl

theorem parseNextEventdef_comma_in_filter {f : EventFilter} (hf : last.filter = some f)
    (hcomma : ',' ∈ f.text) :
    (parseNextEventdef add added (listText (ds ++ [last]))).2 = none := by
  obtain ⟨pre, hpre⟩ := listText_append ds (cons_ne_nil last [])
  obtain ⟨v, u, huv, hv⟩ := eq_append_cons_of_mem (mem_reverse.mpr hcomma)
  have htext : f.text = u.reverse ++ ',' :: v.reverse := by
    rw [← reverse_reverse f.text, huv]
    simp
  have hslash : '/' ∉ v.reverse := fun h => f.noSlash (by
    rw [htext]
    exact mem_append_right _ (mem_cons_of_mem _ h))
  have hlist : listText (ds ++ [last]) = (pre ++ blanks last.beforeSys ++ last.front ++
      '/' :: u.reverse) ++ ',' :: (v.reverse ++ '/' :: blanks f.after) := by
    rw [hpre, listText_singleton, EventDef.text_eq, EventDef.filterText, hf]
    simp [htext]
  rw [hlist]
  exact parseNextEventdef_one_slash (fun h => hv (mem_reverse.mp h)) hslash _

theorem parseNextEventdef_filter_inside (hd : d.filter.isSome = true) (hds : ds' ≠ []) :
    (parseNextEventdef add added (listText (ds ++ d :: ds'))).2 = none := by
  obtain ⟨pre, hpre⟩ := listText_append ds (cons_ne_nil d ds')
  obtain ⟨f, hf⟩ := Option.isSome_iff_exists.mp hd
  have hlist : listText (ds ++ d :: ds') = (pre ++ blanks d.beforeSys ++ d.front ++
      '/' :: f.text) ++ '/' :: (blanks f.after ++ ',' :: listText ds') := by
    rw [hpre, listText_cons d hds, EventDef.text_eq, EventDef.filterText, hf]
    simp
  rw [hlist]
  exact parseNextEventdef_slash_comma (listText_ne_nil hds) _

theorem addAll_true (added es : List Event) :
    addAll (fun _ _ => true) added filter es = (added ++ es, some filter) := by
  induction es generalizing added with
  | nil => rw [addAll, append_nil]
  | cons e es ih => rw [addAll, if_pos rfl, ih, append_assoc, singleton_append]

/-- Lists of definitions are split into the events that are meant just when no blank stands before
an event and no comma in the filter; a filter that is not at the end is rejected. -/
theorem eventdefs_split_iff (ds : List EventDef) (last : EventDef) :
    ((∀ d ∈ ds, d.filter = none) →
      ((∀ add, kpParseEvents add (listText (ds ++ [last])) =
          addAll add [] (last.filter.map EventFilter.text) ((ds ++ [last]).map EventDef.meant)) ↔
        (∀ d ∈ ds ++ [last], d.beforeEvent = 0) ∧ ∀ f ∈ last.filter, ',' ∉ f.text)) ∧
    ∀ d ds' add, d.filter.isSome = true → ds' ≠ [] →
      (kpParseEvents add (listText (ds ++ d :: ds'))).2 = none := by
  refine ⟨fun hnone => ⟨fun h => ?_, ?_⟩, fun d ds' add hd hds =>
    parseNextEventdef_filter_inside hd hds⟩
  · have hadd := h fun _ _ => true
    rw [addAll_true] at hadd
    have hcomma : ∀ f ∈ last.filter, ',' ∉ f.text := by
      intro f hf hmem
      have hfail : (parseNextEventdef (fun _ _ => true) [] (listText (ds ++ [last]))).2 = none :=
        parseNextEventdef_comma_in_filter hf hmem
      rw [kpParseEvents] at hadd
      rw [hadd] at hfail
      cases hfail
    refine ⟨fun d hd => ?_, hcomma⟩
    rw [kpParseEvents, parseNextEventdef_list hnone hcomma, addAll_true] at hadd
    have hmap := List.map_inj_left.mp (Prod.mk.inj hadd).1
    exact EventDef.found_eq_meant_iff.mp (hmap d hd)
  · rintro ⟨hbefore, hcomma⟩ add
    rw [kpParseEvents, parseNextEventdef_list hnone hcomma]
    exact congrArg _ (List.map_congr_left fun d hd =>
      EventDef.found_eq_meant_iff.mpr (hbefore d hd))

end lists

def letterName (c : Char) (h : c ≠ ',' ∧ c ≠ ':' ∧ c ≠ '/' ∧ isSpace c = false) : EventName where
  text := [c]
  ne_nil := List.cons_ne_nil _ _
  plain := by
    intro c' hc
    obtain rfl := List.mem_singleton.mp hc
    exact ⟨h.1, h.2.1, h.2.2.1⟩
  head := by
    intro c' hc
    cases hc
    exact h.2.2.2
  last := by
    intro c' hc
    cases hc
    exact h.2.2.2

/-- `a:b`, with blanks before `b` and a filter. -/
def letterDef (beforeEvent : ℕ) (filter : Option EventFilter) : EventDef where
  beforeSys := 0
  sys := letterName 'a' (by decide)
  afterSys := 0
  beforeEvent := beforeEvent
  event := letterName 'b' (by decide)
  afterEvent := 1
  filter := filter

/-- `a:b ,a:b /f/`. -/
theorem eventdefs_split_letters :
    kpParseEvents (fun _ _ => true)
        (listText ([letterDef 0 none] ++ [letterDef 0 (some ⟨['f'], by decide, 0⟩)])) =
      addAll (fun _ _ => true) [] (some ['f']) [(['a'], ['b']), (['a'], ['b'])] := by
  have hnone : ∀ d ∈ [letterDef 0 none], d.filter = none := by
    intro d hd
    rw [List.mem_singleton.mp hd]
    rfl
  refine ((eventdefs_split_iff [letterDef 0 none] _).1 hnone).mpr ⟨fun d hd => ?_, ?_⟩ _
  · rcases List.mem_pair.mp hd with rfl | rfl
    · rfl
    · rfl
  · rintro f ⟨⟩
    decide

/-- `a: b ` names the event ` b`, and `a:b /f,g/` fails. -/
theorem blank_belongs_to_event :
    listText ([] ++ [letterDef 1 none]) = ['a', ':', ' ', 'b', ' '] ∧
    kpParseEvents (fun _ _ => true) (listText ([] ++ [letterDef 1 none])) =
      ([(['a'], [' ', 'b'])], some none) ∧
    (kpParseEvents (fun _ _ => true)
      (listText ([] ++ [letterDef 0 (some ⟨['f', ',', 'g'], by decide, 0⟩)]))).2 = none :=
  ⟨rfl, (parseNextEventdef_list (fun _ h => by cases h) (fun _ h => by cases h)).trans
    (addAll_true [] _),
    parseNextEventdef_comma_in_filter rfl (by decide)⟩

end Ktap.User
