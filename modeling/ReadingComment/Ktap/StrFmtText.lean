import ReadingComment.Ktap.StrFmt

/-!
# What `kp_str_fmt` prints

A format string is a list of pieces in one way, and `kp_str_fmt` goes through the pieces as long as
each item finds a number or a string to print. Where it stops, it is at the end, at an error, at an
item that `scanformat` refuses, or at a `%s` whose argument is `nil` or the event string.
-/

namespace Ktap

open Codec Lib List

namespace StrFmt

/-! ## Format strings -/

theorem Item.head_ne_percent (i : Item) (rest : Bytes) :
    (i.spec ++ i.conv.byte :: rest).head? ≠ some 37 := by
  intro h
  rw [i.append_spec] at h
  cases hflags : i.flags with
  | cons c flags =>
    rw [hflags] at h
    have hc := i.flags_flag c (by rw [hflags]; exact mem_cons_self)
    rw [Option.some.inj h] at hc
    exact absurd hc (by decide)
  | nil =>
    rw [hflags, nil_append] at h
    cases hwidth : i.width with
    | cons c width =>
      rw [hwidth] at h
      have hc := i.width_digits.1 c (by rw [hwidth]; exact mem_cons_self)
      rw [Option.some.inj h] at hc
      exact absurd hc (by decide)
    | nil =>
      rw [hwidth, nil_append, Item.precision] at h
      cases hprec : i.prec with
      | none =>
        rw [hprec] at h
        exact i.conv.byte_plain.2.2.2.1 (Option.some.inj h)
      | some ds =>
        rw [hprec] at h
        exact absurd (Option.some.inj h) (by decide)

theorem Item.append_bytes (i : Item) (rest : Bytes) :
    i.bytes ++ rest = 37 :: (i.spec ++ i.conv.byte :: rest) := by
  rw [Item.bytes, append_assoc]
  rfl

/-- **The first piece** of a format string is determined. -/
theorem Piece.first_inj {p p' : Piece} {rest rest' : Bytes}
    (h : p.bytes ++ rest = p'.bytes ++ rest') :
    p = p' ∧ rest = rest' := by
  cases p with
  | lit c hc =>
    cases p' with
    | lit c' hc' =>
      cases h
      exact ⟨rfl, rfl⟩
    | percent => exact absurd (List.cons.inj h).1 hc
    | item i' =>
      rw [Piece.bytes, Piece.bytes, i'.append_bytes] at h
      exact absurd (List.cons.inj h).1 hc
  | percent =>
    cases p' with
    | lit c' hc' => exact absurd (List.cons.inj h).1.symm hc'
    | percent => exact ⟨rfl, append_cancel_left h⟩
    | item i' =>
      rw [Piece.bytes, Piece.bytes, i'.append_bytes] at h
      exact absurd (congrArg List.head? (List.cons.inj h).2).symm (i'.head_ne_percent rest')
  | item i =>
    rw [Piece.bytes, i.append_bytes] at h
    cases p' with
    | lit c' hc' => exact absurd (List.cons.inj h).1.symm hc'
    | percent => exact absurd (congrArg List.head? (List.cons.inj h).2) (i.head_ne_percent rest)
    | item i' =>
      rw [Piece.bytes, i'.append_bytes] at h
      obtain ⟨rfl, rfl⟩ := Item.spec_inj (List.cons.inj h).2
      exact ⟨rfl, rfl⟩

theorem Piece.bytes_ne_nil (p : Piece) : p.bytes ≠ [] := by
  cases p <;> exact cons_ne_nil _ _

/-- **Pieces in front** of a format string are the first ones. -/
theorem pieces_front {ps ps' : List Piece} {rest : Bytes}
    (h : ps.flatMap Piece.bytes ++ rest = ps'.flatMap Piece.bytes) :
    ∃ ps'', ps' = ps ++ ps'' ∧ ps''.flatMap Piece.bytes = rest := by
  induction ps generalizing ps' with
  | nil => exact ⟨ps', rfl, h.symm⟩
  | cons p ps ih =>
    rw [flatMap_cons, append_assoc] at h
    cases ps' with
    | nil => exact absurd (append_eq_nil_iff.mp h).1 p.bytes_ne_nil
    | cons p' ps' =>
      rw [flatMap_cons] at h
      obtain ⟨rfl, hps⟩ := Piece.first_inj h
      obtain ⟨ps'', rfl, hrest⟩ := ih hps
      exact ⟨ps'', rfl, hrest⟩

/-! ## Items that print -/

variable {kernel : Kernel} {eventstr : Option Bytes}

def Item.write (kernel : Kernel) (i : Item) (v : Val Bytes) : Option Write :=
  match i.conv, v with
  | .s, .str s =>
    some (if i.prec = none ∧ s.length ≥ 100 then .puts s else .printf i.bytes (.str s))
  | .s, _ => none
  | .c, .num n => some (.printf i.bytes (.num n))
  | .p, .num n => some (.puts (kernel.sprintSymbol n))
  | _, .num n => some (.printf i.longBytes (.num n))
  | _, _ => none

def shown (eventstr : Option Bytes) : Val Bytes → Option Bytes
  | .nil => some [110, 105, 108]
  | .eventstr _ => eventstr
  | _ => none

variable {i : Item} {v : Val Bytes}

theorem Item.render_of_write {w : Write} (h : i.write kernel v = some w) :
    i.render kernel eventstr v = some (kernel.text w) := by
  unfold Item.write at h
  unfold Item.render
  cases hconv :
      i.conv <;> cases v <;> simp only [hconv, reduceCtorEq, Option.some.injEq] at h ⊢ <;>
        subst h <;>
    try rfl
  split <;> rfl

theorem Item.dot_mem_bytes (i : Item) : 46 ∈ cstring i.bytes ↔ i.prec ≠ none := by
  have hstring : cstring i.bytes = i.bytes :=
    takeWhile_eq_self_iff.mpr fun c hc => by simpa using i.bytes_ne_zero c hc
  have hflag : 46 ∉ i.flags := fun hmem => absurd (i.flags_flag 46 hmem) (by decide)
  have hwidth : 46 ∉ i.width := fun hmem => absurd (i.width_digits.1 46 hmem) (by decide)
  have hconv : (46 : BitVec 8) ≠ i.conv.byte := i.conv.byte_plain.2.2.1.symm
  have hpercent : (46 : BitVec 8) ≠ 37 := by decide
  rw [hstring, Item.bytes, Item.spec, Item.precision]
  cases i.prec with
  | none => simpa using ⟨hflag, hwidth, hconv⟩
  | some ds => simp

/-- **The `switch`** at a number or a string that the item prints. -/
theorem formatItem_write {w : Write} (h : i.write kernel v = some w) (seq : TraceSeq) (arg : ℕ) :
    formatItem kernel eventstr seq arg i.bytes v i.conv.byte = .next (kernel.write seq w) := by
  have hlong : ¬ maxFormat < i.longBytes.length + 1 := Nat.not_lt.mpr i.length_longBytes_lt.2
  unfold Item.write at h
  rw [formatItem, Conv.ofByte_byte]
  cases hconv :
      i.conv <;> cases v <;> simp only [hconv, reduceCtorEq, Option.some.injEq] at h ⊢ <;>
        subst h <;>
    simp only [argChecknumber, printLong, printString, i.addlenmod_bytes, if_neg hlong] <;> try rfl
  -- the search for the `.` in the buffer
  have hdot : 46 ∉ cstring i.bytes ↔ i.prec = none := by rw [i.dot_mem_bytes, ne_eq, not_not]
  simp only [hdot]
  split <;> rfl

/-- **The `switch`** at any other value: an error, or the text of the value. -/
theorem formatItem_stop (h : i.write kernel v = none) (seq : TraceSeq) (arg : ℕ) :
    (∃ msg, formatItem kernel eventstr seq arg i.bytes v i.conv.byte = .ret (.error msg) seq ∧
        (i.conv = .s → shown eventstr v = none)) ∨
      ∃ text, i.conv = .s ∧ shown eventstr v = some text ∧
        formatItem kernel eventstr seq arg i.bytes v i.conv.byte =
          .ret .ok (traceSeqPuts seq text) := by
  unfold Item.write at h
  rw [formatItem, Conv.ofByte_byte]
  cases hconv : i.conv with
  | s =>
    cases v with
    | nil => exact .inr ⟨_, rfl, rfl, rfl⟩
    | eventstr stale =>
      cases eventstr with
      | none => exact .inl ⟨_, rfl, fun _ => rfl⟩
      | some text => exact .inr ⟨text, rfl, rfl, rfl⟩
    | str s => simp [hconv] at h
    | _ => exact .inl ⟨_, rfl, fun _ => rfl⟩
  | _ =>
    cases v with
    | num n => simp [hconv] at h
    | _ => exact .inl ⟨_, rfl, nofun⟩

theorem decimal_lt {ds : Bytes} (h : Digits ds) : decimal ds < 100 := by
  obtain ⟨hdigit, hlen⟩ := h
  have hle : ∀ c, isdigit c = true → c.toNat ≤ 57 := by
    intro c hc
    rw [isdigit, Bool.and_eq_true, decide_eq_true_iff, decide_eq_true_iff] at hc
    exact hc.2
  match ds with
  | [] => decide
  | [c] =>
    have hc := hle c (hdigit c (by simp))
    simp only [decimal, foldl_cons, foldl_nil]
    omega
  | [c, c'] =>
    have hc := hle c (hdigit c (by simp))
    have hc' := hle c' (hdigit c' (by simp))
    simp only [decimal, foldl_cons, foldl_nil]
    omega
  | _ :: _ :: _ :: _ => simp at hlen

theorem Item.vsnprintf_long {s : Bytes} (hconv : i.conv = .s) (hprec : i.prec = none)
    (hlong : 100 ≤ s.length)
    (hzero : cstring s = s) : kernel.vsnprintf i.bytes (.str s) = s := by
  have hblanks : decimal i.width - s.length = 0 := by
    have hwidth := decimal_lt i.width_digits
    omega
  rw [kernel.vsnprintf_str i s hconv hprec]
  simp only [strText, justify, hzero, hblanks, replicate_zero, append_nil, nil_append, ite_self]

/-- **A string of 100 bytes and more** is not formatted, and the text is the same, but for one that
would fill the page to its last byte. -/
theorem formatItem_long_plain {s : Bytes} (hconv : i.conv = .s) (hzero : 0 ∉ s) (seq : TraceSeq)
    (hfill : seq.buffer.length + s.length ≠ pageSize - 1) (arg : ℕ) :
    ∃ seq', formatItem kernel eventstr seq arg i.bytes (.str s) i.conv.byte = .next seq' ∧
      seq'.buffer = (kernel.traceSeqPrintf seq i.bytes (.str s)).buffer := by
  have hwrite : i.write kernel (.str s) =
      some (if i.prec = none ∧ s.length ≥ 100 then .puts s else .printf i.bytes (.str s)) := by
    unfold Item.write
    simp only [hconv]
  refine ⟨_, formatItem_write hwrite seq arg, ?_⟩
  split
  · rename_i h
    obtain ⟨hprec, hlong⟩ := h
    have hstring : cstring s = s :=
      takeWhile_eq_self_iff.mpr fun c hc => by simpa using ne_of_mem_of_not_mem hc hzero
    have htext : kernel.vsnprintf i.bytes (.str s) = s :=
      Item.vsnprintf_long hconv hprec hlong hstring
    have hlost := kernel.printf_lost seq i.bytes (.str s)
    have hroom := kernel.printf_room seq i.bytes (.str s)
    rw [htext] at hlost hroom
    change (traceSeqPuts seq s).buffer = _
    rw [traceSeqPuts, hstring]
    by_cases hfull : seq.full = true
    · rw [if_pos hfull, (hlost (.inl hfull)).1]
    rw [if_neg hfull]
    by_cases hlen : s.length > pageSize - 1 - seq.buffer.length
    · rw [if_pos hlen, (hlost (.inr (by omega))).1]
    · rw [if_neg hlen, hroom (Bool.eq_false_iff.mpr hfull) (by omega)]
  · rfl

/-! ## One piece -/

section loop

variable {seq : TraceSeq} {arg : ℕ} {args : List (Val Bytes)}

theorem loop_lit {c : BitVec 8} (hc : c ≠ 37) (rest : Bytes) :
    kpStrFmtLoop kernel eventstr seq arg args (c :: rest) =
      kpStrFmtLoop kernel eventstr (kernel.traceSeqPutc seq c) arg args rest := by
  rw [kpStrFmtLoop, if_pos hc]

theorem loop_percent (rest : Bytes) :
    kpStrFmtLoop kernel eventstr seq arg args (37 :: 37 :: rest) =
      kpStrFmtLoop kernel eventstr (kernel.traceSeqPutc seq 37) arg args rest := by
  rw [kpStrFmtLoop, if_neg (not_not.mpr rfl), if_pos head?_cons, tail_cons]

theorem loop_item (i : Item) (v : Val Bytes) (rest : Bytes) :
    kpStrFmtLoop kernel eventstr seq arg (v :: args) (i.bytes ++ rest) =
      match formatItem kernel eventstr seq (arg + 1) i.bytes v i.conv.byte with
      | .ret e seq => (e, seq)
      | .next seq => kpStrFmtLoop kernel eventstr seq (arg + 1) args rest := by
  have hlong : ¬ maxFormat < i.bytes.length + 1 := Nat.not_lt.mpr i.length_longBytes_lt.1
  have hchar : charAt (i.spec ++ i.conv.byte :: rest) i.spec.length = i.conv.byte := by
    rw [charAt, getElem?_append_right (Nat.le_refl _), Nat.sub_self]
    rfl
  have hdrop : (i.spec ++ i.conv.byte :: rest).drop (i.spec.length + 1) = rest := by
    rw [drop_append, drop_eq_nil_of_le (Nat.le_succ _), Nat.add_sub_cancel_left]
    rfl
  rw [i.append_bytes, kpStrFmtLoop, if_neg (not_not.mpr rfl), if_neg (i.head_ne_percent rest)]
  cases hv : formatItem kernel eventstr seq (arg + 1) i.bytes v i.conv.byte <;>
    simp only [i.scanformat_item rest, if_neg hlong, hchar, hdrop, hv]

theorem loop_no_value {s : Bytes} (hs : s.head? ≠ some 37) :
    ∃ msg, kpStrFmtLoop kernel eventstr seq arg [] (37 :: s) = (.error msg, seq) := by
  rw [kpStrFmtLoop, if_neg (not_not.mpr rfl), if_neg hs]
  exact ⟨_, rfl⟩

theorem loop_malformed {s : Bytes} {msg : String} {v : Val Bytes} (hs : s.head? ≠ some 37)
    (hscan : scanformat s = .error msg) :
    kpStrFmtLoop kernel eventstr seq arg (v :: args) (37 :: s) = (.nullDeref msg, seq) := by
  rw [kpStrFmtLoop, if_neg (not_not.mpr rfl), if_neg hs]
  simp only [hscan]

theorem loop_invalid {s form : Bytes} {n : ℕ} {v : Val Bytes} (hs : s.head? ≠ some 37)
    (hscan : scanformat s = .ok (form, n)) (hconv : Conv.ofByte (charAt s n) = none) :
    ∃ msg, kpStrFmtLoop kernel eventstr seq arg (v :: args) (37 :: s) = (.error msg, seq) := by
  have hlong : ¬ maxFormat < form.length + 1 := Nat.not_lt.mpr (length_form_lt hscan)
  rw [kpStrFmtLoop, if_neg (not_not.mpr rfl), if_neg hs]
  simp only [hscan, if_neg hlong, formatItem, hconv]
  exact ⟨_, rfl⟩

end loop

/-! ## Walks -/

/-- Pieces that are printed: each item has a number or a string for an argument. -/
inductive Plain (kernel : Kernel) : List Piece → List (Val Bytes) → List Write → Prop where
  | nil : Plain kernel [] [] []
  | lit {c hc ps args ws} : Plain kernel ps args ws →
    Plain kernel (.lit c hc :: ps) args (.putc c :: ws)
  | percent {ps args ws} : Plain kernel ps args ws →
    Plain kernel (.percent :: ps) args (.putc 37 :: ws)
  | item {i v w ps args ws} : Item.write kernel i v = some w → Plain kernel ps args ws →
    Plain kernel (.item i :: ps) (v :: args) (w :: ws)

/-- Pieces in front of `rest` are printed by writes, and `left` are the arguments behind theirs. -/
def Walk (kernel : Kernel) (fmt : Bytes) (args : List (Val Bytes)) (ps : List Piece)
    (ws : List Write)
    (rest : Bytes) (left : List (Val Bytes)) : Prop :=
  ∃ front, Plain kernel ps front ws ∧ ps.flatMap Piece.bytes ++ rest = fmt ∧ front ++ left = args

/-- Where nothing is printed any more. -/
inductive Stops (kernel : Kernel) : Bytes → List (Val Bytes) → Prop where
  | done {args} : Stops kernel [] args
  | noValue {s} : s.head? ≠ some 37 → Stops kernel (37 :: s) []
  | malformed {s msg v args} : s.head? ≠ some 37 → scanformat s = .error msg →
    Stops kernel (37 :: s) (v :: args)
  | invalid {s form n v args} : s.head? ≠ some 37 → scanformat s = .ok (form, n) →
    Conv.ofByte (charAt s n) = none → Stops kernel (37 :: s) (v :: args)
  | item {i : Item} {rest v args} :
      i.write kernel v = none → Stops kernel (i.bytes ++ rest) (v :: args)

/-- **Run lemma**: the loop goes through the pieces of a walk. -/
theorem Walk.loop {fmt rest : Bytes} {args left : List (Val Bytes)} {ps : List Piece}
    {ws : List Write}
    (h : Walk kernel fmt args ps ws rest left) (seq : TraceSeq) (arg : ℕ) :
    ∃ arg', kpStrFmtLoop kernel eventstr seq arg args fmt =
      kpStrFmtLoop kernel eventstr (ws.foldl kernel.write seq) arg' left rest := by
  obtain ⟨front, hplain, rfl, rfl⟩ := h
  induction hplain generalizing seq arg with
  | nil => exact ⟨arg, rfl⟩
  | @lit c hc ps args ws _ ih =>
    obtain ⟨arg', hloop⟩ := ih (kernel.traceSeqPutc seq c) arg
    exact ⟨arg', (loop_lit hc _).trans hloop⟩
  | @percent ps args ws _ ih =>
    obtain ⟨arg', hloop⟩ := ih (kernel.traceSeqPutc seq 37) arg
    exact ⟨arg', (loop_percent _).trans hloop⟩
  | @item i v w ps args ws hw _ ih =>
    obtain ⟨arg', hloop⟩ := ih (kernel.write seq w) (arg + 1)
    refine ⟨arg', ?_⟩
    rw [flatMap_cons, append_assoc, cons_append, Piece.bytes, loop_item,
      formatItem_write hw]
    exact hloop

theorem Plain.render {ps ps' : List Piece} {front left : List (Val Bytes)} {ws : List Write}
    (h : Plain kernel ps front ws) :
    StrFmt.render kernel eventstr (ps ++ ps') (front ++ left) =
      (StrFmt.render kernel eventstr ps' left).map (ws.flatMap kernel.text ++ ·) := by
  induction h with
  | nil => exact Option.map_id'.symm
  | lit _ ih | percent _ ih =>
    rw [cons_append, StrFmt.render, ih, Option.map_map]
    rfl
  | item hw _ ih =>
    rw [cons_append, cons_append, StrFmt.render, Item.render_of_write hw, Option.bind_some,
      ih, Option.map_map, flatMap_cons]
    refine congrArg (Option.map · _) (funext fun text => ?_)
    exact (append_assoc _ _ _).symm

/-- **Every walk ends.** -/
theorem exists_walk (fmt : Bytes) (args : List (Val Bytes)) :
    ∃ ps ws rest left, Walk kernel fmt args ps ws rest left ∧ Stops kernel rest left := by
  induction hn : fmt.length using Nat.strong_induction_on generalizing fmt args with
  | _ n ih =>
    subst hn
    cases fmt with
    | nil => exact ⟨[], [], [], args, ⟨[], .nil, rfl, rfl⟩, .done⟩
    | cons c s =>
      have hempty : Walk kernel (c :: s) args [] [] (c :: s) args := ⟨[], .nil, rfl, rfl⟩
      by_cases hc : c = 37
      · subst hc
        by_cases hs : s.head? = some 37
        · obtain ⟨s, rfl⟩ := head?_eq_some_iff.mp hs
          obtain ⟨ps, ws, rest, left, ⟨front, hplain, rfl, rfl⟩, hstops⟩ :=
            ih s.length (by simp only [length_cons]; omega) s args rfl
          exact ⟨_, _, rest, left, ⟨front, .percent hplain, rfl, rfl⟩, hstops⟩
        · cases args with
          | nil => exact ⟨_, _, _, _, hempty, .noValue hs⟩
          | cons v args =>
            cases hscan : scanformat s with
            | error msg => exact ⟨_, _, _, _, hempty, .malformed hs hscan⟩
            | ok r =>
              obtain ⟨form, n⟩ := r
              cases hconv : Conv.ofByte (charAt s n) with
              | none => exact ⟨_, _, _, _, hempty, .invalid hs hscan hconv⟩
              | some conv =>
                obtain ⟨i, rest, rfl, -⟩ := item_of_scanformat hscan hconv
                rw [← i.append_bytes] at hempty ⊢
                cases hw : i.write kernel v with
                | none => exact ⟨_, _, _, _, hempty, .item hw⟩
                | some w =>
                  obtain ⟨ps, ws, rest', left, ⟨front, hplain, rfl, rfl⟩, hstops⟩ :=
                    ih rest.length (by simp; omega) rest args rfl
                  refine ⟨_, _, rest', left, ⟨_, .item hw hplain, ?_, rfl⟩, hstops⟩
                  rw [flatMap_cons, append_assoc, Piece.bytes]
      · obtain ⟨ps, ws, rest, left, ⟨front, hplain, rfl, rfl⟩, hstops⟩ :=
          ih s.length (by simp) s args rfl
        exact ⟨.lit c hc :: ps, _, rest, left, ⟨front, .lit hplain, rfl, rfl⟩, hstops⟩

/-! ## The condition -/

/-- The condition on a format string and its arguments: text that is returned fits into the page,
`scanformat` refuses no item that has an argument, and where the printing ends with `nil` or the
event string, the item and what is behind it add nothing to the text of the value. -/
structure FmtFine (kernel : Kernel) (eventstr : Option Bytes) (fmt : Bytes)
  (args : List (Val Bytes)) :
    Prop where
  whole : ∀ ps ws left, Walk kernel fmt args ps ws [] left → kernel.Fits 0 ws
  formed : ∀ ps ws s v left, Walk kernel fmt args ps ws (37 :: s) (v :: left) → s.head? ≠ some 37 →
    ∃ r, scanformat s = .ok r
  early : ∀ ps ws (i : Item) rest v left text,
    Walk kernel fmt args ps ws (i.bytes ++ rest) (v :: left) →
    i.conv = .s → shown eventstr v = some text →
    kernel.Fits 0 ws ∧ ∃ ps' text', ps'.flatMap Piece.bytes = rest ∧
      render kernel eventstr ps' left = some text' ∧
      kernel.vsnprintf i.bytes (.str text) ++ text' =
        if kernel.FitsAt (ws.flatMap kernel.text).length (.puts text) then cstring text else []

theorem Item.render_of_shown {text : Bytes} (hconv : i.conv = .s)
    (h : shown eventstr v = some text) :
    i.render kernel eventstr v = some (kernel.vsnprintf i.bytes (.str text)) := by
  unfold Item.render
  rw [hconv]
  cases v <;> simp only [shown, reduceCtorEq, Option.some.injEq] at h ⊢
  · rw [h]
  · rw [h]
    rfl

theorem Item.write_of_shown {text : Bytes} (hconv : i.conv = .s)
    (h : shown eventstr v = some text) :
    i.write kernel v = none := by
  unfold Item.write
  rw [hconv]
  cases v <;> simp only [shown, reduceCtorEq] at h ⊢

theorem Open.init : Open .init := ⟨Nat.zero_le _, nofun⟩

section ends

variable {fmt rest : Bytes} {args left : List (Val Bytes)} {ps : List Piece} {ws : List Write}

theorem Walk.formats_done (h : Walk kernel fmt args ps ws [] left) :
    Formats kernel eventstr fmt args ↔ kernel.Fits 0 ws := by
  obtain ⟨arg', hloop⟩ := @Walk.loop kernel eventstr _ _ _ _ _ _ h .init 1
  obtain ⟨front, hplain, hfmt, rfl⟩ := h
  rw [append_nil] at hfmt
  have hrender : render kernel eventstr ps (front ++ left) = some (ws.flatMap kernel.text) := by
    have hrender := @Plain.render kernel eventstr ps [] front left ws hplain
    rwa [append_nil, StrFmt.render, Option.map_some, append_nil] at hrender
  have hbuffer : (ws.foldl kernel.write .init).buffer = ws.flatMap kernel.text ↔ kernel.Fits 0 ws :=
    writes_eq_iff Open.init
  rw [Formats, kpStrFmt, hloop, kpStrFmtLoop, ← hbuffer]
  constructor
  · rintro ⟨ps', hfmt', htext⟩
    obtain ⟨ps'', rfl, hnil⟩ :=
      @pieces_front ps ps' [] ((append_nil _).trans (hfmt.trans hfmt'.symm))
    obtain rfl : ps'' = [] := by
      cases ps'' with
      | nil => rfl
      | cons p ps'' => exact absurd (append_eq_nil_iff.mp hnil).1 p.bytes_ne_nil
    rw [append_nil, hrender] at htext
    exact (Option.some.inj htext).symm
  · intro hbuffer
    exact ⟨ps, hfmt, hrender.trans (congrArg some hbuffer.symm)⟩

theorem puts_buffer (text tail : Bytes) :
    (traceSeqPuts (ws.foldl kernel.write .init) text).buffer = ws.flatMap kernel.text ++ tail ↔
      kernel.Fits 0 ws ∧
        tail = if kernel.FitsAt (ws.flatMap kernel.text).length
          (.puts text) then cstring text else [] := by
  by_cases hfit : kernel.Fits 0 ws
  · obtain ⟨hbuffer, hopen⟩ := writes_fit Open.init hfit
    have hbuffer' : (ws.foldl kernel.write .init).buffer = ws.flatMap kernel.text := hbuffer
    by_cases hat : kernel.FitsAt (ws.flatMap kernel.text).length (.puts text)
    · rw [← hbuffer'] at hat ⊢
      rw [if_pos hat]
      have hputs : (traceSeqPuts (ws.foldl kernel.write .init) text).buffer = _ :=
        (write_fits hopen hat).1
      rw [hputs, append_right_inj, eq_comm]
      exact (and_iff_right hfit).symm
    · rw [← hbuffer'] at hat ⊢
      rw [if_neg hat]
      have hputs : (traceSeqPuts (ws.foldl kernel.write .init) text).buffer = _ :=
        (write_lost hopen hat).1
      rw [hputs, self_eq_append_right]
      exact (and_iff_right hfit).symm
  · obtain ⟨hlt, hclosed⟩ := writes_lost Open.init hfit
    have hputs : (traceSeqPuts (ws.foldl kernel.write .init) text).buffer = _ :=
      (@write_closed kernel _ (.puts text) hclosed).1
    refine iff_of_false (fun heq => ?_) fun h => hfit h.1
    rw [← hputs, heq, length_append, length_append] at hlt
    have hinit : TraceSeq.init.buffer.length = 0 := rfl
    omega

theorem Walk.formats_early {i : Item} {v : Val Bytes} {text : Bytes}
    (h : Walk kernel fmt args ps ws (i.bytes ++ rest) (v :: left)) (hconv : i.conv = .s)
    (hshown : shown eventstr v = some text) :
    Formats kernel eventstr fmt args ↔
      kernel.Fits 0 ws ∧ ∃ ps' text', ps'.flatMap Piece.bytes = rest ∧
        render kernel eventstr ps' left = some text' ∧
        kernel.vsnprintf i.bytes (.str text) ++ text' =
          if kernel.FitsAt (ws.flatMap kernel.text).length (.puts text) then cstring text
          else [] := by
  obtain ⟨arg', hloop⟩ := @Walk.loop kernel eventstr _ _ _ _ _ _ h .init 1
  obtain ⟨front, hplain, hfmt, rfl⟩ := h
  have hitem : formatItem kernel eventstr (ws.foldl kernel.write .init) (arg' + 1) i.bytes v
      i.conv.byte = .ret .ok (traceSeqPuts (ws.foldl kernel.write .init) text) := by
    rcases @formatItem_stop kernel eventstr i v (Item.write_of_shown hconv hshown)
      (ws.foldl kernel.write .init) (arg' + 1) with ⟨_, -, hnone⟩ | ⟨text', -, htext', hitem⟩
    · rw [hnone hconv] at hshown
      cases hshown
    · rw [hshown] at htext'
      cases htext'
      exact hitem
  have hrender : ∀ ps', render kernel eventstr (ps ++ .item i :: ps') (front ++ v :: left) =
      (render kernel eventstr ps' left).map
        fun text' => ws.flatMap kernel.text ++ (kernel.vsnprintf i.bytes (.str text) ++ text') := by
    intro ps'
    rw [hplain.render, render, Item.render_of_shown hconv hshown, Option.bind_some, Option.map_map]
    rfl
  rw [Formats, kpStrFmt, hloop, loop_item, hitem]
  dsimp only
  constructor
  · rintro ⟨ps', hfmt', htext⟩
    obtain ⟨ps'', rfl, hrest⟩ := pieces_front (hfmt.trans hfmt'.symm)
    obtain ⟨ps', rfl, hrest'⟩ := @pieces_front [.item i] ps'' rest (by
      rw [hrest, flatMap_singleton]
      rfl)
    rw [singleton_append, hrender] at htext
    obtain ⟨text', htext', hbuffer⟩ := Option.map_eq_some_iff.mp htext
    obtain ⟨hfit, htail⟩ := (puts_buffer text _).mp hbuffer.symm
    exact ⟨hfit, ps', text', hrest', htext', htail⟩
  · rintro ⟨hfit, ps', text', rfl, htext', htail⟩
    refine ⟨ps ++ .item i :: ps', ?_, ?_⟩
    · rw [flatMap_append, flatMap_cons]
      exact hfmt
    · rw [hrender, htext', Option.map_some, Option.some.injEq]
      exact ((puts_buffer text _).mpr ⟨hfit, htail⟩).symm

theorem Walk.formats_error (h : Walk kernel fmt args ps ws rest left)
    (herror : ∀ seq arg, ∃ msg, kpStrFmtLoop kernel eventstr seq arg left rest = (.error msg,
      seq)) :
    Formats kernel eventstr fmt args := by
  obtain ⟨arg', hloop⟩ := @Walk.loop kernel eventstr _ _ _ _ _ _ h .init 1
  obtain ⟨msg, hmsg⟩ := herror (ws.foldl kernel.write .init) arg'
  rw [Formats, kpStrFmt, hloop, hmsg]
  trivial

end ends

/-- **Formatted output**: exactly for format strings and arguments that meet the condition. -/
theorem kpStrFmt_formats_iff (kernel : Kernel) (eventstr : Option Bytes) (fmt : Bytes)
    (args : List (Val Bytes)) :
    Formats kernel eventstr fmt args ↔ FmtFine kernel eventstr fmt args := by
  constructor
  · intro h
    refine ⟨fun ps ws left hwalk => hwalk.formats_done.mp h, fun ps ws s v left hwalk hs => ?_,
      fun ps ws i rest v left text hwalk hconv hshown => (hwalk.formats_early hconv hshown).mp h⟩
    cases hscan : scanformat s with
    | ok r => exact ⟨r, rfl⟩
    | error msg =>
      obtain ⟨arg', hloop⟩ := @Walk.loop kernel eventstr _ _ _ _ _ _ hwalk .init 1
      rw [Formats, kpStrFmt, hloop, loop_malformed hs hscan] at h
      exact h.elim
  · intro h
    obtain ⟨ps, ws, rest, left, hwalk, hstops⟩ := @exists_walk kernel fmt args
    cases hstops with
    | done => exact hwalk.formats_done.mpr (h.whole _ _ _ hwalk)
    | noValue hs => exact hwalk.formats_error fun _ _ => loop_no_value hs
    | malformed hs hscan =>
      obtain ⟨r, hr⟩ := h.formed _ _ _ _ _ hwalk hs
      rw [hscan] at hr
      cases hr
    | invalid hs hscan hconv => exact hwalk.formats_error fun _ _ => loop_invalid hs hscan hconv
    | @item i rest v args hw =>
      by_cases hearly : ∃ text, i.conv = .s ∧ shown eventstr v = some text
      · obtain ⟨text, hconv, hshown⟩ := hearly
        exact (hwalk.formats_early hconv hshown).mpr (h.early _ _ _ _ _ _ _ hwalk hconv hshown)
      · refine hwalk.formats_error fun seq arg => ?_
        rcases @formatItem_stop kernel eventstr i v hw seq (arg + 1) with
          ⟨msg, hitem, -⟩ | ⟨text, hconv, hshown, -⟩
        · rw [loop_item, hitem]
          exact ⟨msg, rfl⟩
        · exact absurd ⟨text, hconv, hshown⟩ hearly

/-- Strings as `vsnprintf` prints them, and numbers in decimal. -/
def vsnprintf64 (form : Bytes) : Arg → Bytes
  | .num n => (toString n.toInt).toList.map fun c => BitVec.ofNat 8 c.toNat
  | .str s => justify (form.tail.takeWhile isFlag)
      (decimal ((form.tail.dropWhile isFlag).takeWhile isdigit)) (cstring s)

def kernel64 : Kernel where
  vsnprintf := vsnprintf64
  sprintSymbol n := vsnprintf64 [] (.num n)
  traceSeqPutc seq c :=
    if seq.full = true ∨ pageSize - 1 ≤ seq.buffer.length then ⟨seq.buffer, true⟩
    else ⟨seq.buffer ++ [c], false⟩
  traceSeqPrintf seq form x :=
    if seq.full = true ∨ pageSize - 1 ≤ seq.buffer.length + (vsnprintf64 form x).length then
      ⟨seq.buffer, true⟩
    else ⟨seq.buffer ++ vsnprintf64 form x, false⟩
  vsnprintf_str := by
    intro i s _ hprec
    have hnone : i.precision = [] := by rw [Item.precision, hprec, Option.elim_none]
    have htail : i.bytes.tail = i.flags ++ (i.width ++ (i.precision ++ [i.conv.byte])) :=
      i.append_spec []
    have hflags : i.bytes.tail.takeWhile isFlag = i.flags := by
      rw [htail, takeWhile_append_stop i.flags_flag (i.width_precision_head [])]
    have hwidth : (i.bytes.tail.dropWhile isFlag).takeWhile isdigit = i.width := by
      rw [htail, dropWhile_append_stop i.flags_flag (i.width_precision_head []),
        takeWhile_append_stop i.width_digits.1 (i.precision_head [])]
    rw [vsnprintf64, hflags, hwidth, Item.strText]
  putc_room := by
    intro seq c hfull hlen
    exact if_neg (not_or.mpr ⟨by rw [hfull]; exact Bool.false_ne_true, Nat.not_le.mpr hlen⟩)
  putc_lost := fun seq c h => if_pos h
  printf_room := by
    intro seq form x hfull hlen
    exact if_neg (not_or.mpr ⟨by rw [hfull]; exact Bool.false_ne_true, Nat.not_le.mpr hlen⟩)
  printf_lost := by
    intro seq form x h
    rw [if_pos h]
    exact ⟨rfl, .inl rfl⟩

/-- The item `%s`. -/
def itemS : Item where
  flags := []
  width := []
  prec := none
  conv := .s
  flags_flag := by simp
  flags_few := by decide
  width_digits := ⟨by simp, by simp⟩
  width_head := by simp
  prec_digits := by simp

/-- A string of 100 bytes behind one that is written. -/
theorem formatItem_long_plain_s : ∃ seq', formatItem kernel64 none ⟨[33], false⟩ 2 itemS.bytes
    (.str (List.replicate 100 97)) itemS.conv.byte = .next seq' ∧
      seq'.buffer =
        (kernel64.traceSeqPrintf ⟨[33], false⟩ itemS.bytes (.str (List.replicate 100 97))).buffer :=
  formatItem_long_plain rfl (by simp) _ (by decide) 2

/-- `"%s!"` with `nil` for its argument. -/
theorem formats_nil_early :
    ¬ ∀ (kernel : Kernel) (eventstr : Option Bytes) (fmt : Bytes) (args : List (Val Bytes)),
      Formats kernel eventstr fmt args := by
  intro h
  have hwalk : Walk kernel64 [37, 115, 33] [.nil] [] [] (itemS.bytes ++ [33]) [.nil] :=
    ⟨[], .nil, rfl, rfl⟩
  obtain ⟨-, ps', text', hps', htext', htail⟩ :=
    (@Walk.formats_early _ none _ _ _ _ _ _ _ _ _ hwalk rfl rfl).mp
      (h kernel64 none [37, 115, 33] [.nil])
  -- the `!` is missing
  obtain ⟨ps'', rfl, -⟩ := @pieces_front [.lit 33 (by decide)] ps' [] hps'.symm
  obtain ⟨text'', -, rfl⟩ := Option.map_eq_some_iff.mp htext'
  rw [if_pos (by decide)] at htail
  have hlen := congrArg List.length htail
  rw [List.length_append] at hlen
  have hnil : (kernel64.vsnprintf itemS.bytes (.str [110, 105, 108])).length = 3 := by decide
  have hnil' : (cstring [110, 105, 108]).length = 3 := by decide
  rw [hnil, hnil', List.length_cons] at hlen
  omega

end StrFmt

end Ktap
