import ReadingComment.Lib.Fields

/-!
# Fields of a string (`spserver/sputils.cpp`)

`sp_strtok` copies the field with an index out of a string: the fields are its words where the
delimiter is a blank, and what is between the delimiters otherwise. A pointer into the string is
what is there. `strlen (pos1)` is compared as an `int`.
-/

namespace Spserver

namespace Strtok

open Lib List

/-- What `sp_strtok` returns, and what is in the array `dest` and in `*next` then. -/
structure Token where
  ret : ℤ
  dest : List Char
  next : Option (List Char)
  deriving DecidableEq

/-- `for( ; isspace( *pos ); ) pos++` -/
def skipSpace (pos : List Char) : List Char := pos.dropWhile isSpace

/-- `strchr`. -/
def strchr (pos : List Char) (delimiter : Char) : Option (List Char) :=
  match pos.dropWhile (· != delimiter) with
  | [] => none
  | pos => some pos

/-- The end of a field: `NULL` where the string ends first. -/
def fieldEnd (delimiter : Char) (pos : List Char) : Option (List Char) :=
  if delimiter = '\x00' then
    match pos.dropWhile (! isSpace ·) with
    | [] => none
    | pos => some pos
  else strchr pos delimiter

/-- The loop that goes over `index` fields. -/
def seek (delimiter : Char) : ℕ → List Char → Option (List Char)
  | 0, pos1 => some pos1
  | index + 1, pos1 =>
    match fieldEnd delimiter pos1 with
    | none => none
    | some pos1 => seek delimiter index (skipSpace pos1.tail)

def trimEnd (dest : List Char) : ℕ → ℕ
  | 0 => 0
  | len + 1 => if isSpace (dest.getD len '\x00') then trimEnd dest len else len + 1

def Token.finish (t : Token) (len : ℕ) : Token :=
  let dest := t.dest.set (len - 1) '\x00'
  { t with dest := dest.set (trimEnd dest (cstr dest).length) '\x00' }

/-- `sp_strtok( src, index, dest, len, delimiter, &next )`. -/
def spStrtok (src : List Char) (index : ℕ) (dest : List Char) (len : ℕ) (delimiter : Char) :
    Token :=
  let delimiter := if isSpace delimiter then '\x00' else delimiter
  let dest' := dest.set 0 '\x00'
  match seek delimiter index (skipSpace src) with
  | none | some [] => Token.finish ⟨-1, dest', none⟩ len
  | some pos1 =>
    match fieldEnd delimiter pos1 with
    | none =>
      Token.finish ⟨if len ≤ toInt pos1.length then -2 else 0, strncpyInto dest' pos1 len, none⟩ len
    | some pos2 =>
      let n := pos1.length - pos2.length
      let len' := if len < n + 1 then len else n + 1
      let next := match skipSpace pos2.tail with
        | [] => none
        | pos2 => some pos2
      Token.finish ⟨if len ≤ n then -2 else 0, strncpyInto dest' pos1 len', next⟩ len'

/-- The fields that are read one after the other by way of `next`. -/
def readNext (src dest : List Char) (len : ℕ) (delimiter : Char) : ℕ → Option Token
  | 0 => some (spStrtok src 0 dest len delimiter)
  | k + 1 => (readNext src dest len delimiter k).bind fun t =>
    t.next.map fun pos => spStrtok pos 0 t.dest len delimiter

/-! ## What is meant -/

def fields (delimiter : Char) (src : List Char) : List (List Char) :=
  if isSpace delimiter ∨ delimiter = '\x00' then Fields.words isSpace src
  else src.splitOnP (· == delimiter)

/-- A field without its blanks at both ends; empty where there is none. -/
def field (delimiter : Char) (src : List Char) (index : ℕ) : List Char :=
  ((fields delimiter src)[index]?).elim [] (Fields.trim isSpace)

/-- **What a token should be**: the field as far as it fits, with the value that says so. -/
structure Token.Has (t : Token) (field : List Char) (len : ℕ) : Prop where
  stored : cstr t.dest = field.take (len - 1)
  ret : t.ret = if field = [] then -1 else if len ≤ field.length then -2 else 0

def ToEnd (delimiter : Char) (src : List Char) (index : ℕ) (field : List Char) : Prop :=
  index + 1 = (fields delimiter src).length ∧ field <:+ src

open Classical in
/-- The length that is compared with `len`: that of the field and of the blanks behind it, as an
`int` where the string ends there. -/
noncomputable def compared (delimiter : Char) (src : List Char) (index : ℕ) (field : List Char) :
    ℤ :=
  if ToEnd delimiter src index field then toInt (field.dropWhile isSpace).length
  else (field.dropWhile isSpace).length

/-- **The condition under which a token is right.** An empty field ends the string; the blanks
behind a field do not make it too long; and what is kept of a long field does not end with a blank.
-/
structure Fits (delimiter : Char) (src : List Char) (index len : ℕ) (field : List Char) : Prop where
  empty : Fields.trim isSpace field = [] → ToEnd delimiter src index field
  long : Fields.trim isSpace field ≠ [] →
    (len ≤ compared delimiter src index field ↔ len ≤ (Fields.trim isSpace field).length)
  cut : ∀ c ∈ ((Fields.trim isSpace field).take (len - 1)).getLast?, isSpace c = false

/-! ## The array -/

theorem trimEnd_append (s t : List Char) :
    trimEnd (s ++ t) s.length = (s.rdropWhile isSpace).length := by
  induction s using List.reverseRecOn generalizing t with
  | nil => rfl
  | append_singleton s c ih =>
    have hget : (s ++ [c] ++ t).getD s.length '\x00' = c := by
      rw [append_assoc, getD_eq_getElem?_getD, getElem?_append_right (Nat.le_refl _),
        Nat.sub_self]
      rfl
    rw [length_append, length_singleton, trimEnd, hget, rdropWhile_concat]
    split
    · rw [append_assoc]
      exact ih _
    · rw [length_append, length_singleton]

theorem Token.finish_ret (t : Token) (len : ℕ) : (t.finish len).ret = t.ret := rfl

theorem Token.finish_next (t : Token) (len : ℕ) : (t.finish len).next = t.next := rfl

/-- **The last lines** end what is in the array and trim it; the rest of the array stays as it is.
-/
theorem Token.finish_spec (t : Token) {len : ℕ} (hlen : 0 < len) (hdest : len ≤ t.dest.length) :
    cstr (t.finish len).dest = (cstr (t.dest.take (len - 1))).rdropWhile isSpace ∧
    (t.finish len).dest.length = t.dest.length ∧
    ∀ n, len ≤ n → (t.finish len).dest.drop n = t.dest.drop n := by
  have hstr : cstr (t.dest.set (len - 1) '\x00') = cstr (t.dest.take (len - 1)) :=
    cstr_set_nul (by omega)
  have hshort : (cstr (t.dest.take (len - 1))).length ≤ len - 1 :=
    (isPrefix_cstr _).length_le.trans (length_take_le _ _)
  obtain ⟨more, hmore⟩ := isPrefix_cstr (t.dest.set (len - 1) '\x00')
  have htrim := trimEnd_append (cstr (t.dest.set (len - 1) '\x00')) more
  rw [hmore, hstr] at htrim
  have hkeep : ((cstr (t.dest.take (len - 1))).rdropWhile isSpace).length ≤ len - 1 :=
    ( rdropWhile_prefix _ _).length_le.trans hshort
  have hfront :
      (cstr (t.dest.take (len - 1))).rdropWhile isSpace <+: t.dest.set (len - 1) '\x00' := by
    rw [← hstr]
    exact ( rdropWhile_prefix _ _).trans (isPrefix_cstr _)
  have hnone : '\x00' ∉ (cstr (t.dest.take (len - 1))).rdropWhile isSpace := fun h =>
    notMem_cstr _ (( rdropWhile_prefix _ _).subset h)
  have hset : (t.finish len).dest = (t.dest.set (len - 1) '\x00').set
      ((cstr (t.dest.take (len - 1))).rdropWhile isSpace).length '\x00' := by
    rw [Token.finish]
    dsimp only
    rw [hstr, htrim]
  refine ⟨?_, ?_, fun n hn => ?_⟩
  · rw [hset, cstr_set_nul (by rw [length_set]; omega), ← prefix_iff_eq_take.mp hfront,
      cstr_eq_self hnone]
  · rw [hset, length_set, length_set]
  · rw [hset, drop_set_of_lt (by omega), drop_set_of_lt (by omega)]

/-! ## One call -/

/-- What a call comes to that has found its field at `pos1`. -/
def outcome (delimiter : Char) (len : ℕ) : Option (List Char) → ℤ × List Char × Option (List Char)
  | none | some [] => (-1, [], none)
  | some pos1 =>
    match fieldEnd delimiter pos1 with
    | none =>
      (if len ≤ toInt pos1.length then -2 else 0, (pos1.take (len - 1)).rdropWhile isSpace, none)
    | some pos2 =>
      (if len ≤ pos1.length - pos2.length then -2 else 0,
        ((pos1.take (pos1.length - pos2.length)).take (len - 1)).rdropWhile isSpace,
        if skipSpace pos2.tail = [] then none else some (skipSpace pos2.tail))

def searched (delimiter : Char) : Char := if isSpace delimiter then '\x00' else delimiter

def isSep (delimiter c : Char) : Bool := if delimiter = '\x00' then isSpace c else c == delimiter

theorem fieldEnd_eq (delimiter : Char) (pos : List Char) : fieldEnd delimiter pos =
    if pos.dropWhile (! isSep delimiter ·) = [] then none
    else some (pos.dropWhile (! isSep delimiter ·)) := by
  by_cases hblank : delimiter = '\x00'
  · have hsep : isSep delimiter = isSpace := funext fun c => if_pos hblank
    rw [fieldEnd, if_pos hblank, hsep]
    cases pos.dropWhile (! isSpace ·) with
    | nil => rfl
    | cons c cs => rfl
  · have hsep : isSep delimiter = (· == delimiter) := funext fun c => if_neg hblank
    rw [fieldEnd, if_neg hblank, hsep, strchr]
    show (match pos.dropWhile (! · == delimiter) with | [] => none | pos => some pos) = _
    cases pos.dropWhile (! · == delimiter) with
    | nil => rfl
    | cons c cs => rfl

section

variable {delimiter : Char} {pos pos2 : List Char} (h : fieldEnd delimiter pos = some pos2)

include h

theorem fieldEnd_eq_some :
    pos.dropWhile (! isSep delimiter ·) = pos2 := by
  rw [fieldEnd_eq] at h
  split at h
  · cases h
  · exact Option.some.inj h

theorem fieldEnd_suffix :
    pos2 <:+ pos := by
  rw [← fieldEnd_eq_some h]
  exact dropWhile_suffix _

end

theorem seek_suffix {delimiter : Char} {index : ℕ} {pos pos1 : List Char}
    (h : seek delimiter index pos = some pos1) : pos1 <:+ pos := by
  induction index generalizing pos with
  | zero =>
    cases h
    exact suffix_rfl
  | succ index ih =>
    rw [seek] at h
    split at h
    · cases h
    · rename_i pos2 hend
      exact (ih h).trans <| (dropWhile_suffix _).trans <| (tail_suffix _).trans <|
        fieldEnd_suffix hend

section one

variable {src dest pos1 : List Char} {len index : ℕ} {delimiter : Char}

theorem spStrtok_missing
    (h : ∀ pos1, seek (searched delimiter) index (skipSpace src) = some pos1 → pos1 = []) :
    spStrtok src index dest len delimiter = Token.finish ⟨-1, dest.set 0 '\x00', none⟩ len := by
  unfold spStrtok
  simp only [show (if isSpace delimiter then '\x00' else delimiter) = searched delimiter from rfl]
  rcases hseek : seek (searched delimiter) index (skipSpace src) with _ | pos1
  · rfl
  · rw [h pos1 hseek]

section

variable (hne : pos1 ≠ []) (hseek : seek (searched delimiter) index (skipSpace src) = some pos1)

include hne hseek

theorem spStrtok_last (hend : fieldEnd (searched delimiter) pos1 = none) :
    spStrtok src index dest len delimiter = Token.finish
      ⟨if len ≤ toInt pos1.length then -2 else 0, strncpyInto (dest.set 0 '\x00') pos1 len,
        none⟩ len := by
  obtain ⟨c, cs, rfl⟩ := exists_cons_of_ne_nil hne
  unfold spStrtok
  simp only [show (if isSpace delimiter then '\x00' else delimiter) = searched delimiter from rfl,
    hseek, hend]

theorem spStrtok_within {pos2 : List Char} (hend : fieldEnd (searched delimiter) pos1 = some pos2) :
    spStrtok src index dest len delimiter = Token.finish
      ⟨if len ≤ pos1.length - pos2.length then -2 else 0,
        strncpyInto (dest.set 0 '\x00') pos1 (min len (pos1.length - pos2.length + 1)),
        if skipSpace pos2.tail = [] then none else some (skipSpace pos2.tail)⟩
      (min len (pos1.length - pos2.length + 1)) := by
  obtain ⟨c, cs, rfl⟩ := exists_cons_of_ne_nil hne
  have hmin :
      (if len < (c :: cs).length - pos2.length + 1 then len else (c :: cs).length - pos2.length +
        1) =
      min len ((c :: cs).length - pos2.length + 1) := by
    split <;> omega
  have hnext : (match skipSpace pos2.tail with | [] => none | pos2 => some pos2) =
      if skipSpace pos2.tail = [] then none else some (skipSpace pos2.tail) := by
    cases skipSpace pos2.tail with
    | nil => rfl
    | cons _ _ => rfl
  unfold spStrtok
  simp only [show (if isSpace delimiter then '\x00' else delimiter) = searched delimiter from rfl,
    hseek, hend,
    hmin]
  rw [← hnext]

end

theorem Token.finish_copy (ret : ℤ) (next : Option (List Char)) (hsrc : '\x00' ∉ pos1)
    (hlen : 0 < len)
    (hdest : len ≤ dest.length) :
    cstr (Token.finish ⟨ret, strncpyInto dest pos1 len, next⟩ len).dest =
      (pos1.take (len - 1)).rdropWhile isSpace ∧
    (Token.finish ⟨ret, strncpyInto dest pos1 len, next⟩ len).dest.length = dest.length ∧
    ∀ n, len ≤ n → (Token.finish ⟨ret, strncpyInto dest pos1 len, next⟩ len).dest.drop n =
      dest.drop n := by
  have hcopy := length_strncpyInto hdest pos1
  obtain ⟨hstr, hlength, hrest⟩ :=
    Token.finish_spec ⟨ret, strncpyInto dest pos1 len, next⟩ hlen (by rwa [hcopy])
  refine ⟨?_, hlength.trans hcopy, fun n hn => ?_⟩
  · rw [hstr, cstr_take_strncpyInto hsrc _ (Nat.sub_le ..)]
  · rw [hrest n hn, drop_strncpyInto _ _ hn]

/-- **One call**: the outcome does not depend on what was in the array, and the array is not left.
-/
theorem spStrtok_spec (hsrc : '\x00' ∉ src) (hlen : 0 < len) (hdest : len ≤ dest.length) (index : ℕ)
    (delimiter : Char) :
    ((spStrtok src index dest len delimiter).ret, cstr (spStrtok src index dest len delimiter).dest,
        (spStrtok src index dest len delimiter).next) =
      outcome (searched delimiter) len (seek (searched delimiter) index (skipSpace src)) ∧
    (spStrtok src index dest len delimiter).dest.length = dest.length ∧
    (spStrtok src index dest len delimiter).dest.drop len = dest.drop len := by
  have hset : (dest.set 0 '\x00').length = dest.length := length_set
  have hdrop : (dest.set 0 '\x00').drop len = dest.drop len := drop_set_of_lt hlen
  by_cases hmissing :
      ∀ pos1, seek (searched delimiter) index (skipSpace src) = some pos1 → pos1 = []
  · have houtcome :
      outcome (searched delimiter) len (seek (searched delimiter) index (skipSpace src)) =
        (-1, [], none) := by
      rcases hseek : seek (searched delimiter) index (skipSpace src) with _ | pos1
      · rfl
      · rw [hmissing pos1 hseek]
        rfl
    have hempty : cstr ((dest.set 0 '\x00').take (len - 1)) = [] := by
      obtain ⟨x, xs, rfl⟩ := exists_cons_of_length_pos (hlen.trans_le hdest)
      rcases len - 1 with _ | n
      · rfl
      · rfl
    obtain ⟨hstr, hlength, hrest⟩ :=
      Token.finish_spec ⟨-1, dest.set 0 '\x00', none⟩ hlen (by rwa [hset])
    rw [spStrtok_missing hmissing, houtcome]
    refine ⟨?_, hlength.trans hset, (hrest len le_rfl).trans hdrop⟩
    rw [hstr, hempty]
    rfl
  · push Not at hmissing
    obtain ⟨pos1, hseek, hne⟩ := hmissing
    have hnone : '\x00' ∉ pos1 := fun hmem =>
      hsrc (((seek_suffix hseek).trans (dropWhile_suffix _)).subset hmem)
    obtain ⟨c, cs, rfl⟩ := exists_cons_of_ne_nil hne
    rw [hseek, outcome]
    on_goal 2 => exact hne
    rcases hend : fieldEnd (searched delimiter) (c :: cs) with _ | pos2
    · rw [spStrtok_last hne hseek hend]
      obtain ⟨hstr, hlength, hrest⟩ := Token.finish_copy
        (if len ≤ toInt (c :: cs).length then -2 else 0) none hnone hlen (by rwa [hset])
      refine ⟨?_, hlength.trans hset, (hrest len le_rfl).trans hdrop⟩
      rw [hstr, Token.finish_ret, Token.finish_next]
    · rw [spStrtok_within hne hseek hend]
      obtain ⟨hstr, hlength, hrest⟩ := Token.finish_copy
        (if len ≤ (c :: cs).length - pos2.length then -2 else 0)
        (if skipSpace pos2.tail = [] then none else some (skipSpace pos2.tail)) hnone
        (lt_min hlen (Nat.succ_pos ((c :: cs).length - pos2.length)))
          ((min_le_left _ _).trans (by rwa [hset]))
      refine ⟨?_, hlength.trans hset, (hrest len (min_le_left _ _)).trans hdrop⟩
      have hkept : min len ((c :: cs).length - pos2.length + 1) - 1 =
          min (len - 1) ((c :: cs).length - pos2.length) := by omega
      rw [hstr, hkept, ← take_take, Token.finish_ret, Token.finish_next]

end one

/-! ## The fields -/

/-- `pos` is at a field: what is there without the blanks before it, and what ends it. -/
def At (delimiter : Char) (src : List Char) (index : ℕ) (raw rest : List Char) : Prop :=
  seek (searched delimiter) index (skipSpace src) = some (raw.dropWhile isSpace ++ rest) ∧
    (∀ c ∈ raw, isSep (searched delimiter) c = false) ∧
    (∀ c ∈ rest.head?, isSep (searched delimiter) c = true) ∧
    (rest = [] ↔ ToEnd delimiter src index raw)

theorem fieldEnd_append {delimiter : Char} {raw rest : List Char}
    (hraw : ∀ c ∈ raw, isSep delimiter c = false)
    (hrest : ∀ c ∈ rest.head?, isSep delimiter c = true) :
    fieldEnd delimiter (raw ++ rest) = if rest = [] then none else some rest := by
  have hraw' : ∀ c ∈ raw, (! isSep delimiter c) = true := fun c hc => by rw [hraw c hc]; rfl
  have hrest' :
      ∀ c ∈ rest.head?, (! isSep delimiter c) = false := fun c hc => by rw [hrest c hc]; rfl
  rw [fieldEnd_eq, dropWhile_append_stop hraw' hrest']

theorem seek_append {delimiter : Char} {raw rest : List Char} (index : ℕ)
    (hraw : ∀ c ∈ raw, isSep delimiter c = false)
    (hrest : ∀ c ∈ rest.head?, isSep delimiter c = true) :
    seek delimiter (index + 1) (raw ++ rest) =
      if rest = [] then none else seek delimiter index (skipSpace rest.tail) := by
  rw [seek, fieldEnd_append hraw hrest]
  by_cases hnil : rest = []
  · rw [if_pos hnil, if_pos hnil]
  · rw [if_neg hnil, if_neg hnil]

theorem seek_nil (delimiter : Char) (index : ℕ) : seek delimiter (index + 1) [] = none := by
  rw [seek, fieldEnd_eq]
  rfl

theorem not_sep_dropWhile {delimiter : Char} {raw : List Char}
    (hraw : ∀ c ∈ raw, isSep delimiter c = false) :
    ∀ c ∈ raw.dropWhile isSpace, isSep delimiter c = false := fun c hc =>
  hraw c ((dropWhile_suffix _).subset hc)

section blank

variable {delimiter : Char} (hblank : isSpace delimiter = true ∨ delimiter = '\x00')

include hblank

theorem searched_blank : searched delimiter = '\x00' := by
  rw [searched]
  split
  · rfl
  · exact hblank.resolve_left (by assumption)

theorem fields_blank (src : List Char) : fields delimiter src = Fields.words isSpace src :=
  if_pos hblank

theorem isSep_blank : isSep (searched delimiter) = isSpace := by
  rw [searched_blank hblank]
  exact funext fun c => if_pos rfl

theorem at_blank {src raw : List Char} {index : ℕ} (h : (fields delimiter src)[index]? = some raw) :
    ∃ rest, At delimiter src index raw rest := by
  have hsep := isSep_blank hblank
  induction index generalizing src with
  | zero =>
    rcases Fields.words_cases isSpace src with ⟨-, hnil⟩ | ⟨w, rest, hsrc, hne, hw, hrest, hwords⟩
    · rw [fields_blank hblank, hnil] at h
      cases h
    · rw [fields_blank hblank, hwords] at h
      obtain rfl : w = raw := Option.some.inj h
      have hfront : ([] ++ w).dropWhile isSpace = w := dropWhile_append_stop nofun fun c hc =>
        hw c (mem_of_mem_head? hc)
      rw [nil_append] at hfront
      have hsuffix : w ++ rest <:+ src := hsrc ▸ dropWhile_suffix _
      refine ⟨rest, ?_, by rwa [hsep], by rwa [hsep], ?_⟩
      · rw [seek, skipSpace, hsrc, hfront]
      · rw [ToEnd, fields_blank hblank, hwords, length_cons]
        constructor
        · rintro rfl
          rw [append_nil] at hsuffix
          exact ⟨rfl, hsuffix⟩
        · rintro ⟨hlast, hend⟩
          by_contra hrest_ne
          obtain ⟨c, behind, rfl⟩ := exists_cons_of_ne_nil hrest_ne
          obtain ⟨before, hbefore⟩ := hsuffix
          have hc : c ∉ w := fun hmem => by
            have := hw c hmem
            rw [hrest c rfl] at this
            cases this
          rw [← hbefore, ← append_assoc] at hend
          have hin : w <:+ c :: behind := (Fields.suffix_behind hend hc).trans (suffix_cons _ _)
          have hall :=
            Fields.forall_of_words_eq_nil (eq_nil_of_length_eq_zero (Nat.succ.inj hlast).symm)
          obtain ⟨x, hx⟩ := exists_mem_of_ne_nil w hne
          have := hw x hx
          rw [hall x (hin.subset hx)] at this
          cases this
  | succ index ih =>
    rcases Fields.words_cases isSpace src with ⟨-, hnil⟩ | ⟨w, rest, hsrc, hne, hw, hrest, hwords⟩
    · rw [fields_blank hblank, hnil] at h
      cases h
    · rw [fields_blank hblank, hwords, getElem?_cons_succ] at h
      cases rest with
      | nil => cases h
      | cons c behind =>
        have hc : isSpace c = true := hrest c rfl
        rw [Fields.words_cons_pos hc] at h hwords
        obtain ⟨rest', hseek, hraw, hrest', hend⟩ := ih (by rwa [fields_blank hblank])
        have hsuffix : w ++ c :: behind <:+ src := hsrc ▸ dropWhile_suffix _
        obtain ⟨before, hbefore⟩ := hsuffix
        refine ⟨rest', ?_, hraw, hrest', hend.trans ?_⟩
        · rw [skipSpace, hsrc, seek_append index (by rwa [hsep]) (by rwa [hsep]),
            if_neg (cons_ne_nil _ _)]
          exact hseek
        · rw [ToEnd, ToEnd, fields_blank hblank, fields_blank hblank, hwords, length_cons,
            Nat.add_right_cancel_iff, ← hbefore, ← append_assoc]
          refine and_congr_right fun _ =>
            ⟨fun hin => ?_, fun hin => Fields.suffix_behind hin fun hmem => ?_⟩
          · exact hin.trans ((suffix_cons _ _).trans (suffix_append _ _))
          · have := hraw c hmem
            rw [hsep, hc] at this
            cases this

theorem missing_blank {src : List Char} {index : ℕ} (h : (fields delimiter src)[index]? = none) :
    ∀ pos1, seek (searched delimiter) index (skipSpace src) = some pos1 → pos1 = [] := by
  have hsep := isSep_blank hblank
  induction index generalizing src with
  | zero =>
    intro pos1 hseek
    cases hseek
    rcases Fields.words_cases isSpace src with ⟨hnil, -⟩ | ⟨w, rest, -, -, -, -, hwords⟩
    · exact hnil
    · rw [fields_blank hblank, hwords] at h
      cases h
  | succ index ih =>
    intro pos1 hseek
    rcases Fields.words_cases isSpace src with ⟨hnil, -⟩ | ⟨w, rest, hsrc, hne, hw, hrest, hwords⟩
    · rw [skipSpace, hnil, seek_nil] at hseek
      cases hseek
    · rw [skipSpace, hsrc, seek_append index (by rwa [hsep]) (by rwa [hsep])] at hseek
      split at hseek
      · cases hseek
      · rename_i hrest_ne
        obtain ⟨c, behind, rfl⟩ := exists_cons_of_ne_nil hrest_ne
        rw [fields_blank hblank, hwords, getElem?_cons_succ,
          Fields.words_cons_pos (hrest c rfl)] at h
        exact ih (by rwa [fields_blank hblank]) pos1 hseek

end blank

section other

variable {delimiter : Char} (hother : ¬ (isSpace delimiter = true ∨ delimiter = '\x00'))

include hother

theorem searched_other : searched delimiter = delimiter := if_neg fun h => hother (.inl h)

theorem fields_other (src : List Char) : fields delimiter src = src.splitOnP (· == delimiter) :=
  if_neg hother

theorem isSep_other : isSep (searched delimiter) = (· == delimiter) := by
  rw [searched_other hother]
  exact funext fun c => if_neg fun h => hother (.inr h)

theorem skipSpace_append (raw behind : List Char) :
    skipSpace (raw ++ delimiter :: behind) = raw.dropWhile isSpace ++ delimiter :: behind := by
  have hdel : isSpace delimiter = false := by
    simpa using fun h => hother (.inl h)
  rw [skipSpace, dropWhile_append]
  split
  case isTrue hempty =>
    rw [List.isEmpty_iff.mp hempty, dropWhile_cons_of_neg (by rw [hdel]; exact Bool.false_ne_true),
      nil_append]
  case isFalse => rfl

theorem fields_cases (src : List Char) :
    ((∀ c ∈ src, isSep (searched delimiter) c = false) ∧ fields delimiter src = [src]) ∨
    ∃ raw behind, src = raw ++ delimiter :: behind ∧
      (∀ c ∈ raw, isSep (searched delimiter) c = false) ∧
      fields delimiter src = raw :: fields delimiter behind := by
  rw [isSep_other hother, fields_other hother]
  rcases strsep_cases delimiter src with hnone | ⟨raw, behind, rfl, hnone⟩
  · have hsrc : ∀ c ∈ src, (c == delimiter) = false := fun c hc => by
      simpa using ne_of_mem_of_not_mem hc hnone
    exact .inl ⟨hsrc, splitOnP_eq_singleton hsrc⟩
  · have hraw : ∀ c ∈ raw, (c == delimiter) = false := fun c hc => by
      simpa using ne_of_mem_of_not_mem hc hnone
    refine .inr ⟨raw, behind, rfl, hraw, ?_⟩
    rw [splitOnP_append_cons_of_forall_mem hraw _ (beq_self_eq_true _), fields_other hother]

theorem isSep_delimiter : isSep (searched delimiter) delimiter = true := by
  rw [isSep_other hother]
  exact beq_self_eq_true _

theorem fields_ne_nil (src : List Char) : fields delimiter src ≠ [] := by
  rw [fields_other hother]
  exact splitOnP_ne_nil _ _

theorem seek_behind {raw : List Char} (hraw : ∀ c ∈ raw, isSep (searched delimiter) c = false)
    (index : ℕ)
    (behind : List Char) :
    seek (searched delimiter) (index + 1) (raw.dropWhile isSpace ++ delimiter :: behind) =
      seek (searched delimiter) index (skipSpace behind) := by
  rw [seek_append index (not_sep_dropWhile hraw), if_neg (cons_ne_nil _ _), tail_cons]
  intro c hc
  cases hc
  exact isSep_delimiter hother

theorem at_other {src raw : List Char} {index : ℕ} (h : (fields delimiter src)[index]? = some raw) :
    ∃ rest, At delimiter src index raw rest := by
  induction index generalizing src with
  | zero =>
    rcases fields_cases hother src with ⟨hsrc, hone⟩ | ⟨raw', behind, rfl, hraw, hfields⟩
    · rw [hone] at h
      obtain rfl : src = raw := Option.some.inj h
      refine ⟨[], ?_, hsrc, nofun, ?_⟩
      · rw [append_nil]
        rfl
      · exact iff_of_true rfl ⟨by rw [hone]; rfl, suffix_rfl⟩
    · rw [hfields] at h
      obtain rfl : raw' = raw := Option.some.inj h
      refine ⟨delimiter :: behind, ?_, hraw, ?_, ?_⟩
      · rw [skipSpace_append hother]
        rfl
      · intro c hc
        cases hc
        exact isSep_delimiter hother
      · refine iff_of_false (cons_ne_nil _ _) fun hend => fields_ne_nil hother behind ?_
        have hlast := hend.1
        rw [hfields, length_cons] at hlast
        exact eq_nil_of_length_eq_zero (Nat.succ.inj hlast).symm
  | succ index ih =>
    rcases fields_cases hother src with ⟨-, hone⟩ | ⟨raw', behind, rfl, hraw', hfields⟩
    · rw [hone] at h
      cases h
    · rw [hfields, getElem?_cons_succ] at h
      obtain ⟨rest, hseek, hraw, hrest, hend⟩ := ih h
      refine ⟨rest, ?_, hraw, hrest, hend.trans ?_⟩
      · rw [skipSpace_append hother, seek_behind hother hraw']
        exact hseek
      · rw [ToEnd, ToEnd, hfields, length_cons, Nat.add_right_cancel_iff]
        refine and_congr_right fun _ =>
          ⟨fun hin => ?_, fun hin => Fields.suffix_behind hin fun hmem => ?_⟩
        · exact hin.trans ((suffix_cons _ _).trans (suffix_append _ _))
        · have := hraw delimiter hmem
          rw [isSep_delimiter hother] at this
          cases this

theorem missing_other {src : List Char} {index : ℕ} (h : (fields delimiter src)[index]? = none) :
    ∀ pos1, seek (searched delimiter) index (skipSpace src) = some pos1 → pos1 = [] := by
  induction index generalizing src with
  | zero =>
    obtain ⟨raw, raws, hfields⟩ := exists_cons_of_ne_nil (fields_ne_nil hother src)
    rw [hfields] at h
    cases h
  | succ index ih =>
    intro pos1 hseek
    rcases fields_cases hother src with ⟨hsrc, -⟩ | ⟨raw, behind, rfl, hraw, hfields⟩
    · have hend : seek (searched delimiter) (index + 1) (src.dropWhile isSpace ++ []) = _ :=
        seek_append index (not_sep_dropWhile hsrc) nofun
      rw [append_nil, if_pos rfl] at hend
      rw [skipSpace, hend] at hseek
      cases hseek
    · rw [hfields, getElem?_cons_succ] at h
      rw [skipSpace_append hother, seek_behind hother hraw] at hseek
      exact ih h pos1 hseek

end other

theorem exists_at (delimiter : Char) {src raw : List Char} {index : ℕ}
    (h : (fields delimiter src)[index]? = some raw) : ∃ rest, At delimiter src index raw rest := by
  by_cases hblank : isSpace delimiter = true ∨ delimiter = '\x00'
  · exact at_blank hblank h
  · exact at_other hblank h

theorem missing (delimiter : Char) {src : List Char} {index : ℕ}
    (h : (fields delimiter src)[index]? = none) :
    ∀ pos1, seek (searched delimiter) index (skipSpace src) = some pos1 → pos1 = [] := by
  by_cases hblank : isSpace delimiter = true ∨ delimiter = '\x00'
  · exact missing_blank hblank h
  · exact missing_other hblank h

theorem outcome_missing {delimiter : Char} {pos1 : Option (List Char)}
    (h : ∀ pos, pos1 = some pos → pos = [])
    (len : ℕ) : outcome delimiter len pos1 = (-1, [], none) := by
  rcases pos1 with _ | pos
  · rfl
  · rw [h pos rfl]
    rfl

/-- **What a call comes to**, for a field that is there. -/
theorem outcome_at {delimiter : Char} {src raw rest : List Char} {index : ℕ}
    (h : At delimiter src index raw rest)
    (hne : raw.dropWhile isSpace ++ rest ≠ []) (len : ℕ) :
    outcome (searched delimiter) len (seek (searched delimiter) index (skipSpace src)) =
      (if len ≤ compared delimiter src index raw then -2 else 0,
        ((raw.dropWhile isSpace).take (len - 1)).rdropWhile isSpace,
        if skipSpace rest.tail = [] then none else some (skipSpace rest.tail)) := by
  obtain ⟨hseek, hraw, hrest, hend⟩ := h
  rw [hseek, outcome, fieldEnd_append (not_sep_dropWhile hraw) hrest, compared]
  on_goal 2 => exact hne
  cases rest with
  | nil => rw [if_pos rfl, if_pos (hend.mp rfl), append_nil]; rfl
  | cons c behind =>
    have hlength : (raw.dropWhile isSpace ++ c :: behind).length - (c :: behind).length =
        (raw.dropWhile isSpace).length := by
      rw [length_append, Nat.add_sub_cancel]
    rw [if_neg (cons_ne_nil _ _), if_neg fun h => cons_ne_nil _ _ (hend.mpr h)]
    dsimp only
    rw [hlength, take_left, if_congr (Nat.cast_le (α := ℤ)) rfl rfl]

theorem outcome_short (delimiter : Char) (len : ℕ) (pos1 : Option (List Char)) :
    (outcome delimiter len pos1).2.1.length ≤ len - 1 := by
  have hkept (s : List Char) : ((s.take (len - 1)).rdropWhile isSpace).length ≤ len - 1 :=
    ( rdropWhile_prefix _ _).length_le.trans (length_take_le _ _)
  unfold outcome
  split
  · exact Nat.zero_le _
  · exact Nat.zero_le _
  · split
    · exact hkept _
    · exact hkept _

/-! ## One field after the other -/

theorem seek_succ (delimiter : Char) (index : ℕ) (pos : List Char) :
    seek delimiter (index + 1) pos =
    (seek delimiter index pos).bind fun pos1 => (fieldEnd delimiter pos1).map fun pos2 =>
      skipSpace pos2.tail := by
  induction index generalizing pos with
  | zero =>
    rw [seek, seek, Option.bind_some]
    cases fieldEnd delimiter pos with
    | none => rfl
    | some pos2 => rfl
  | succ index ih =>
    rw [seek, seek]
    cases fieldEnd delimiter pos with
    | none => rfl
    | some pos2 => exact ih _

theorem skipSpace_skipSpace (pos : List Char) : skipSpace (skipSpace pos) = skipSpace pos := by
  have h : ([] ++ skipSpace pos).dropWhile isSpace = skipSpace pos :=
    dropWhile_append_stop nofun (head_dropWhile isSpace pos)
  exact h

theorem next_outcome (delimiter : Char) (len : ℕ) (pos1 : Option (List Char)) :
    (∀ pos, (outcome delimiter len pos1).2.2 = some pos → skipSpace pos = pos ∧
      (pos1.bind fun pos1 => (fieldEnd delimiter pos1).map fun pos2 => skipSpace pos2.tail) =
        some pos) ∧
    ((outcome delimiter len pos1).2.2 = none → ∀ pos,
      (pos1.bind fun pos1 => (fieldEnd delimiter pos1).map fun pos2 => skipSpace pos2.tail) =
        some pos →
        pos = []) := by
  rcases pos1 with _ | _ | ⟨c, cs⟩
  · exact ⟨nofun, nofun⟩
  · have hend : fieldEnd delimiter [] = none := fieldEnd_eq delimiter []
    refine ⟨nofun, fun _ pos hpos => ?_⟩
    rw [Option.bind_some, hend] at hpos
    cases hpos
  · rw [outcome, Option.bind_some]
    on_goal 2 => exact cons_ne_nil _ _
    cases fieldEnd delimiter (c :: cs) with
    | none => exact ⟨nofun, nofun⟩
    | some pos2 =>
      dsimp only [Option.map_some]
      refine ⟨fun pos hpos => ?_, fun hnone pos hpos => ?_⟩
      · split at hpos
        · cases hpos
        · cases hpos
          exact ⟨skipSpace_skipSpace _, rfl⟩
      · split at hnone
        · rename_i hnil
          rw [hnil] at hpos
          exact (Option.some.inj hpos).symm
        · cases hnone

/-! ## The tokens -/

section tokens

variable {src dest : List Char} {len : ℕ} (hsrc : '\x00' ∉ src) (hlen : 0 < len)
  (hdest : len ≤ dest.length)

include hsrc hlen hdest

theorem has_iff_outcome (index : ℕ) (delimiter : Char) (field : List Char) :
    (spStrtok src index dest len delimiter).Has field len ↔
      (outcome (searched delimiter) len (seek (searched delimiter) index (skipSpace src))).2.1 =
        field.take (len - 1) ∧
      (outcome (searched delimiter) len (seek (searched delimiter) index (skipSpace src))).1 =
        if field = [] then -1 else if len ≤ field.length then -2 else 0 := by
  rw [← (spStrtok_spec hsrc hlen hdest index delimiter).1]
  exact ⟨fun h => ⟨h.stored, h.ret⟩, fun h => ⟨h.1, h.2⟩⟩

theorem has_iff_fits (index : ℕ) (delimiter : Char) :
    (spStrtok src index dest len delimiter).Has (field delimiter src index) len ↔
      ∀ raw, (fields delimiter src)[index]? = some raw → Fits delimiter src index len raw := by
  rw [has_iff_outcome hsrc hlen hdest, field]
  cases hraw : (fields delimiter src)[index]? with
  | none =>
    rw [outcome_missing (missing delimiter hraw), Option.elim_none, take_nil]
    exact iff_of_true ⟨rfl, rfl⟩ nofun
  | some raw =>
    obtain ⟨rest, hat⟩ := exists_at delimiter hraw
    have htrim : Fields.trim isSpace raw = (raw.dropWhile isSpace).rdropWhile isSpace := rfl
    rw [Option.elim_some]
    by_cases hne : raw.dropWhile isSpace ++ rest = []
    case pos =>
      obtain ⟨hleft, hrest⟩ := append_eq_nil_iff.mp hne
      have hnil : Fields.trim isSpace raw = [] := by
        rw [htrim, hleft]
        rfl
      rw [hat.1, hne, hnil, take_nil]
      refine iff_of_true ⟨rfl, rfl⟩ fun raw' hraw' => ?_
      cases hraw'
      refine ⟨fun _ => hat.2.2.2.mp hrest, fun h => absurd hnil h, fun c hc => ?_⟩
      rw [hnil, take_nil] at hc
      cases hc
    case neg =>
      rw [outcome_at hat hne]
      dsimp only
      rw [htrim, Fields.rdropWhile_take_eq_iff, ← htrim]
      constructor
      · rintro ⟨hcut, hret⟩ raw' hraw'
        cases hraw'
        by_cases hnil : Fields.trim isSpace raw = []
        · rw [if_pos hnil] at hret
          split at hret <;> cases hret
        · refine ⟨fun h => absurd h hnil, fun _ => ?_, hcut⟩
          rw [if_neg hnil] at hret
          by_cases hlong : len ≤ (Fields.trim isSpace raw).length
          · rw [if_pos hlong] at hret
            refine iff_of_true ?_ hlong
            by_contra hshort
            rw [if_neg hshort] at hret
            cases hret
          · rw [if_neg hlong] at hret
            refine iff_of_false (fun hlong' => ?_) hlong
            rw [if_pos hlong'] at hret
            cases hret
      · intro h
        have hfits := h raw rfl
        have hnil : Fields.trim isSpace raw ≠ [] := fun hnil => by
          have hrest := hat.2.2.2.mpr (hfits.empty hnil)
          exact hne (by rw [(Fields.trim_eq_nil_iff _ _).mp hnil, hrest]; rfl)
        refine ⟨hfits.cut, ?_⟩
        rw [if_neg hnil, if_congr (hfits.long hnil) rfl rfl]

/-- **Reading on by way of `next`** goes over the fields one by one. -/
theorem readNext_spec (delimiter : Char) (k : ℕ) :
    (∀ t, readNext src dest len delimiter k = some t → t.dest.length = dest.length ∧
      (t.ret, cstr t.dest, t.next) =
        outcome (searched delimiter) len (seek (searched delimiter) k (skipSpace src))) ∧
    (readNext src dest len delimiter k = none → ∀ pos1,
      seek (searched delimiter) k (skipSpace src) = some pos1 → pos1 = []) := by
  induction k with
  | zero =>
    refine ⟨fun t ht => ?_, nofun⟩
    cases ht
    obtain ⟨houtcome, hlength, -⟩ := spStrtok_spec hsrc hlen hdest 0 delimiter
    exact ⟨hlength, houtcome⟩
  | succ k ih =>
    obtain ⟨hsome, hnone⟩ := ih
    obtain ⟨hnext, hlast⟩ :=
      next_outcome (searched delimiter) len (seek (searched delimiter) k (skipSpace src))
    rw [← seek_succ] at hnext hlast
    cases ht : readNext src dest len delimiter k with
    | none =>
      rw [outcome_missing (hnone ht)] at hlast
      rw [readNext, ht]
      exact ⟨nofun, fun _ => hlast rfl⟩
    | some t =>
      obtain ⟨hlength, houtcome⟩ := hsome t ht
      rw [← houtcome] at hnext hlast
      rw [readNext, ht, Option.bind_some]
      cases hpos : t.next with
      | none => exact ⟨nofun, fun _ => hlast hpos⟩
      | some pos =>
        refine ⟨fun t' ht' => ?_, nofun⟩
        cases ht'
        obtain ⟨hskip, hseek⟩ := hnext pos hpos
        have hpos_none : '\x00' ∉ pos := fun hmem =>
          hsrc (((seek_suffix hseek).trans (dropWhile_suffix _)).subset hmem)
        obtain ⟨houtcome', hlength', -⟩ :=
          spStrtok_spec hpos_none hlen (hlength ▸ hdest) 0 delimiter
        refine ⟨hlength'.trans hlength, ?_⟩
        rw [houtcome', hskip, hseek]
        rfl

end tokens

/-- **Fields of a string.** The field with an index is stored as it should be just if it ends the
string where it is empty, the blanks behind it do not make it too long and what is kept of it does
not end with a blank; the array is not left, and has the end of the string. And one after the other
by way of `next` the fields are those with the indices 0, 1, 2, and so on. -/
theorem strtok_fields {src dest : List Char} {len : ℕ} (hsrc : '\x00' ∉ src) (hlen : 0 < len)
    (hdest : len ≤ dest.length) (delimiter : Char) (index : ℕ) :
    ((spStrtok src index dest len delimiter).Has (field delimiter src index) len ↔
      ∀ raw, (fields delimiter src)[index]? = some raw → Fits delimiter src index len raw) ∧
    ((cstr (spStrtok src index dest len delimiter).dest).length < len ∧
      (spStrtok src index dest len delimiter).dest.length = dest.length ∧
      (spStrtok src index dest len delimiter).dest.drop len = dest.drop len) ∧
    match readNext src dest len delimiter index with
    | some t => t.ret = (spStrtok src index dest len delimiter).ret ∧
        cstr t.dest = cstr (spStrtok src index dest len delimiter).dest
    | none => (spStrtok src index dest len delimiter).ret = -1 := by
  obtain ⟨houtcome, hlength, hrest⟩ := spStrtok_spec hsrc hlen hdest index delimiter
  refine ⟨has_iff_fits hsrc hlen hdest index delimiter, ⟨?_, hlength, hrest⟩, ?_⟩
  · have hshort :=
      outcome_short (searched delimiter) len (seek (searched delimiter) index (skipSpace src))
    rw [← houtcome] at hshort
    dsimp only at hshort
    omega
  · obtain ⟨hsome, hnone⟩ := readNext_spec hsrc hlen hdest delimiter index
    cases ht : readNext src dest len delimiter index with
    | none =>
      rw [outcome_missing (hnone ht)] at houtcome
      exact (Prod.mk.inj houtcome).1
    | some t =>
      have heq := (hsome t ht).2.trans houtcome.symm
      exact ⟨(Prod.mk.inj heq).1, (Prod.mk.inj (Prod.mk.inj heq).2).1⟩

/-- The second one of two fields. -/
theorem strtok_fields_second :
    ((spStrtok ['a', ',', 'b'] 1 ['x', 'x', 'x'] 3 ',').Has (field ',' ['a', ',', 'b'] 1) 3 ↔
      ∀ raw, (fields ',' ['a', ',', 'b'])[1]? = some raw → Fits ',' ['a', ',', 'b'] 1 3 raw) ∧
    cstr (spStrtok ['a', ',', 'b'] 1 ['x', 'x', 'x'] 3 ',').dest = ['b'] := by
  refine ⟨(strtok_fields ?_ ?_ ?_ ',' 1).1, ?_⟩ <;> decide

/-- An empty field before the last one is returned as one that is there, and blanks behind a field
make it too long. -/
theorem fields_missed :
    ¬ (spStrtok ['a', ',', ',', 'b'] 1 ['x', 'x', 'x'] 3 ',').Has (field ',' ['a', ',', ',',
      'b'] 1) 3 ∧
    ¬ (spStrtok ['a', ' ', ' ', ',', 'b'] 0 ['x', 'x', 'x'] 3 ',').Has
      (field ',' ['a', ' ', ' ', ',', 'b'] 0) 3 :=
  ⟨fun h => absurd h.ret (by decide), fun h => absurd h.ret (by decide)⟩

end Strtok

end Spserver
