import ReadingComment.Lib.Codec

/-!
# What readers ask of their input

A format is a tree of fields: a field is a block of bytes, and what it holds decides
which field comes next. A byte string fits a format when its fields are all there, down
to a place where nothing more is asked for. A reader follows a format (`Follows`) when
the inputs that fit are those on which it ends with a result or with an error that it
reports. `Follows` composes along `bind`, so a reader follows the format that is put
together from those of its parts.
-/

namespace Codec

/-- What a byte string is asked for. -/
inductive Format where
  /-- nothing more -/
  | stop
  /-- something that no byte string holds -/
  | never
  /-- a block of `n` bytes, and then what depends on it -/
  | field (n : ℕ) (rest : Bytes → Format)

namespace Format

/-- Every field of the format is in the bytes. -/
def Fits : Format → Bytes → Prop
  | .stop, _ => True
  | .never, _ => False
  | .field n rest, b => n ≤ b.length ∧ (rest (b.take n)).Fits (b.drop n)

/-- Whether every field of the format is in the bytes. -/
def decideFits : (φ : Format) → (b : Bytes) → Decidable (φ.Fits b)
  | .stop, _ => isTrue trivial
  | .never, _ => isFalse id
  | .field n rest, b =>
    have := decideFits (rest (b.take n)) (b.drop n)
    inferInstanceAs (Decidable (n ≤ b.length ∧ (rest (b.take n)).Fits (b.drop n)))

instance (φ : Format) (b : Bytes) : Decidable (φ.Fits b) := φ.decideFits b

@[simp] theorem fits_never (b : Bytes) : never.Fits b ↔ False := Iff.rfl

theorem fits_field (n : ℕ) (rest : Bytes → Format) (b : Bytes) :
    (field n rest).Fits b ↔ n ≤ b.length ∧ (rest (b.take n)).Fits (b.drop n) := Iff.rfl

theorem fits_field_field (m n : ℕ) (rest : Bytes → Bytes → Format) (b : Bytes) :
    (field m fun w => field n (rest w)).Fits b ↔
      (field (m + n) fun w => rest (w.take m) (w.drop m)).Fits b := by
  have htake : (b.take (m + n)).take m = b.take m := by
    rw [List.take_take, Nat.min_eq_left (Nat.le_add_right m n)]
  have hdrop : (b.take (m + n)).drop m = (b.drop m).take n := by
    rw [List.drop_take, Nat.add_sub_cancel_left]
  simp only [fits_field, htake, hdrop, List.drop_drop, List.length_drop]
  constructor
  · rintro ⟨hm, hn, hrest⟩
    exact ⟨by omega, hrest⟩
  · rintro ⟨hle, hrest⟩
    exact ⟨by omega, by omega, hrest⟩

end Format

/-! ## Readers that follow a format -/

variable {S E α β : Type}

/-- The state of the reader. -/
def getSt : Reader S E S := fun c => .ok (c.st, c)

/-- Change the state of the reader. -/
def modifySt (g : S → S) : Reader S E Unit := fun c => .ok ((), { c with st := g c.st })

theorem bind_eq_error {m : Reader S E α} {f : α → Reader S E β} {c : Cursor S} {e : E} :
    (m >>= f) c = .error e ↔
      m c = .error e ∨ ∃ a c', m c = .ok (a, c') ∧ f a c' = .error e := by
  change (m c >>= fun p => f p.1 p.2) = .error e ↔ _
  cases m c with
  | error e' => simp [bind, Except.bind]
  | ok p =>
    constructor
    · exact fun h => .inr ⟨p.1, p.2, rfl, h⟩
    · rintro (h | ⟨a, c', h, he⟩)
      · cases h
      · cases h
        exact he

theorem bind_eq_ok {m : Reader S E α} {f : α → Reader S E β} {c c'' : Cursor S} {b : β} :
    (m >>= f) c = .ok (b, c'') ↔ ∃ a c', m c = .ok (a, c') ∧ f a c' = .ok (b, c'') := by
  change (m c >>= fun p => f p.1 p.2) = .ok (b, c'') ↔ _
  cases m c with
  | error e' => simp [bind, Except.bind]
  | ok p =>
    constructor
    · exact fun h => ⟨p.1, p.2, rfl, h⟩
    · rintro ⟨a, c', h, hb⟩
      cases h
      exact hb

/-- A result, or an error that is reported. -/
def Ends (reported : E → Prop) : Except E α → Prop
  | .ok _ => True
  | .error e => reported e

instance (reported : E → Prop) [DecidablePred reported] (r : Except E α) :
    Decidable (Ends reported r) :=
  match r with
  | .ok _ => isTrue trivial
  | .error e => inferInstanceAs (Decidable (reported e))

/-- What a reader asks for: `φ` is given what follows as a function of the result and of the
state. -/
structure Follows (reported known : E → Prop) (m : Reader S E α)
    (φ : (α → S → Format) → S → Format) : Prop where
  /-- the reader and whatever comes after it end exactly on the inputs that fit -/
  ends_bind : ∀ (β : Type) (f : α → Reader S E β) (k : α → S → Format),
    (∀ a b s, Ends reported (f a ⟨b, s⟩) ↔ (k a s).Fits b) →
      ∀ b s, Ends reported ((m >>= f) ⟨b, s⟩) ↔ (φ k s).Fits b
  /-- it goes no way back, and stops with the errors that are known -/
  stops : ∀ c, match m c with
    | .ok (_, c') => c'.input.length ≤ c.input.length
    | .error e => known e

namespace Follows

variable {reported known : E → Prop} {m : Reader S E α} {φ ψ : (α → S → Format) → S → Format}

section

variable (h : Follows reported known m φ)

include h

theorem length_le {c c' : Cursor S} {a : α} (hm : m c = .ok (a, c')) :
    c'.input.length ≤ c.input.length := by
  have hstops := h.stops c
  rwa [hm] at hstops

theorem known_of_error {c : Cursor S} {e : E} (hm : m c = .error e) : known e := by
  have hstops := h.stops c
  rwa [hm] at hstops

theorem congr (heq : ∀ k s b, (φ k s).Fits b ↔ (ψ k s).Fits b) : Follows reported known m ψ :=
  ⟨fun β f k hf b s => (h.ends_bind β f k hf b s).trans (heq k s b), h.stops⟩

theorem weaken {known' : E → Prop} (hk : ∀ e, known e → known' e) :
    Follows reported known' m φ where
  ends_bind := h.ends_bind
  stops c := by
    have hstops := h.stops c
    cases hc : m c with
    | ok p =>
      rw [hc] at hstops
      exact hstops
    | error e =>
      rw [hc] at hstops
      exact hk e hstops

end

theorem pure (a : α) : Follows reported known (Pure.pure a : Reader S E α) fun k => k a :=
  ⟨fun _ _ _ hf b s => hf a b s, fun c => le_refl c.input.length⟩

theorem bind {f : α → Reader S E β} {χ : α → (β → S → Format) → S → Format}
    (hm : Follows reported known m φ) (hf : ∀ a, Follows reported known (f a) (χ a)) :
    Follows reported known (m >>= f) fun k => φ fun a => χ a k where
  ends_bind γ g k hg b s := by
    rw [bind_assoc]
    exact hm.ends_bind γ _ _ (fun a b s => (hf a).ends_bind γ g k hg b s) b s
  stops c := by
    rcases h : (m >>= f) c with e | ⟨b, c₂⟩
    · rcases bind_eq_error.mp h with hm' | ⟨a, c₁, -, hf'⟩
      · exact hm.known_of_error hm'
      · exact (hf a).known_of_error hf'
    · obtain ⟨a, c₁, hm', hf'⟩ := bind_eq_ok.mp h
      exact ((hf a).length_le hf').trans (hm.length_le hm')

/-- An error that is reported asks for nothing more. -/
theorem throw_reported {e : E} (he : reported e) (hk : known e) :
    Follows reported known (throw e : Reader S E α) fun _ _ => .stop :=
  ⟨fun _ _ _ _ _ _ => ⟨fun _ => trivial, fun _ => he⟩, fun _ => hk⟩

/-- An error that is not reported fits nothing. -/
theorem throw_unreported {e : E} (he : ¬ reported e) (hk : known e) :
    Follows reported known (throw e : Reader S E α) fun _ _ => .never :=
  ⟨fun _ _ _ _ _ _ => ⟨he, False.elim⟩, fun _ => hk⟩

section

variable {m' : Reader S E α} (hm : Follows reported known m φ) (hm' : Follows reported known m' ψ)

include hm hm'

theorem ite {p : Prop} [Decidable p] :
    Follows reported known (if p then m else m') fun k => if p then φ k else ψ k := by
  by_cases hp : p
  · simpa only [if_pos hp] using hm
  · simpa only [if_neg hp] using hm'

theorem iteBool (ok : Bool) :
    Follows reported known (if ok then m else m') fun k => if ok then φ k else ψ k := hm.ite hm'

end

theorem mem {e : E} (he : ¬ reported e) (hk : known e) (n : ℕ) :
    Follows reported known (readMem e n : Reader S E Bytes) fun k s => .field n fun w => k w s where
  ends_bind β f k hf b s := by
    have hbind : (readMem e n >>= f) ⟨b, s⟩ = readMem e n ⟨b, s⟩ >>= fun p => f p.1 p.2 := rfl
    rw [Format.fits_field, hbind, readMem]
    by_cases hn : n ≤ b.length
    · rw [if_pos hn]
      exact (hf _ _ _).trans (and_iff_right hn).symm
    · rw [if_neg hn]
      exact ⟨fun h => absurd h he, fun h => absurd h.1 hn⟩
  stops c := by
    rw [readMem]
    by_cases hn : n ≤ c.input.length
    · rw [if_pos hn]
      simp
    · rw [if_neg hn]
      exact hk

theorem getSt : Follows reported known (Codec.getSt : Reader S E S) fun k s => k s s :=
  ⟨fun _ _ _ hf b s => hf s b s, fun c => le_refl c.input.length⟩

theorem modifySt (g : S → S) :
    Follows reported known (Codec.modifySt g : Reader S E Unit) fun k s => k () (g s) :=
  ⟨fun _ _ _ hf b s => hf () b (g s), fun c => le_refl c.input.length⟩

end Follows

end Codec
