import ReadingComment.Lib.Fields

/-!
# The paths of the upload server (`src/code_mine/http.py`)

What a request names is read word by word, so that no word leads out of the directory. The name
of an uploaded file is joined as it is.
-/

namespace Upload

open Fields Lib List

/-! ## Paths as the program makes them -/

/-- `urllib.unquote` -/
def unquote : List Char → List Char
  | '%' :: a :: b :: s =>
    match digitValue 16 a, digitValue 16 b with
    | some x, some y => Char.ofNat (16 * x + y) :: unquote s
    | _, _ => '%' :: unquote (a :: b :: s)
  | c :: s => c :: unquote s
  | [] => []

/-- One component in `posixpath.normpath`. -/
def normStep (rooted : Bool) (comps : List (List Char)) (comp : List Char) : List (List Char) :=
  if comp = [] ∨ comp = ['.'] then comps
  else if comp ≠ ['.', '.'] ∨ (rooted = false ∧ comps = []) ∨ comps.getLast? = some ['.', '.'] then
    comps ++ [comp]
  else comps.dropLast

/-- The slashes in front that `normpath` keeps. -/
def slashes (path : List Char) : ℕ :=
  if ['/'] <+: path then if ['/', '/'] <+: path ∧ ¬ ['/', '/', '/'] <+: path then 2 else 1 else 0

/-- `posixpath.normpath` -/
def normpath (path : List Char) : List Char :=
  let comps := (path.splitOnP (· == '/')).foldl (normStep (slashes path ≠ 0)) []
  let norm := List.replicate (slashes path) '/' ++ ['/'].intercalate comps
  if norm = [] then ['.'] else norm

/-- `os.path.join` -/
def join (a b : List Char) : List Char :=
  if b.head? = some '/' then b
  else if a = [] ∨ a.getLast? = some '/' then a ++ b
  else a ++ '/' :: b

/-- The words of a request that `translate_path` joins. A word has no slash, so `splitdrive` and
`split` return it as it is. -/
def requestWords (path : List Char) : List (List Char) :=
  let path := (path.takeWhile (· ≠ '?')).takeWhile (· ≠ '#')
  (words (· == '/') (normpath (unquote path))).filter fun word => word ∉ [['.'], ['.', '.']]

/-- `translate_path(path)` in the directory `cwd` -/
def translatePath (cwd path : List Char) : List Char := (requestWords path).foldl join cwd

/-- What `send_head` opens. For a redirection and for a listing that is nothing. -/
def sendHead (cwd : List Char) (isdir exists_ : List Char → Bool) (request : List Char) :
    Option (List Char) :=
  let path := translatePath cwd request
  if isdir path then
    if request.getLast? = some '/' then
      ["index.html".toList, "index.htm".toList].map (join path) |>.find? exists_
    else none
  else some path

/-- `while os.path.exists(fn): fn += "_"` -/
def freeName (exists_ : List Char → Bool) : ℕ → List Char → Option (List Char)
  | 0, _ => none
  | fuel + 1, fn => if exists_ fn then freeName exists_ fuel (fn ++ ['_']) else some fn

/-- What `deal_post_data` opens for a file of that name. `recode` makes UTF-8 of what is GBK. -/
def createdPath (cwd : List Char) (exists_ : List Char → Bool)
    (recode : List Char → Option (List Char)) (request name : List Char) (fuel : ℕ) :
    Option (List Char) :=
  (recode name).bind fun name => freeName exists_ fuel (join (translatePath cwd request) name)

/-! ## Paths as the file system reads them -/

/-- A component leads into a directory, stays or leads to the one above. -/
def enter (dir : List (List Char)) (word : List Char) : List (List Char) :=
  if word = ['.'] then dir else if word = ['.', '.'] then dir.dropLast else dir ++ [word]

def walk (dir : List (List Char)) (path : List Char) : List (List Char) :=
  (words (· == '/') path).foldl enter dir

/-- Where a path leads from the root, by its components. -/
def resolve (path : List Char) : List (List Char) := walk [] path

def Under (cwd path : List Char) : Prop := resolve cwd <+: resolve path

instance (cwd path : List Char) : Decidable (Under cwd path) := by
  unfold Under
  infer_instance

variable {a b cwd : List Char}

theorem walk_append (dir : List (List Char)) (a b : List Char) :
    walk dir (a ++ '/' :: b) = walk (walk dir a) b := by
  have hwords : words (· == '/') (a ++ '/' :: b) = words (· == '/') a ++ words (· == '/') b := by
    rw [words, splitOnP_append_cons _ _ (by rfl), filter_append, words, words]
  rw [walk, hwords, foldl_append, walk, walk]

theorem resolve_join (hb : b.head? ≠ some '/') : resolve (join a b) = walk (resolve a) b := by
  rw [join, if_neg hb]
  split
  next h =>
    rcases h with rfl | hslash
    · rfl
    · obtain ⟨a, rfl⟩ := getLast?_eq_some_iff.mp hslash
      rw [append_assoc, resolve, resolve, singleton_append, walk_append, walk_append]
      rfl
  next => exact walk_append [] a b

/-! ## Requests -/

theorem walk_word {word : List Char} (hne : word ≠ []) (hword : ∀ c ∈ word, (c == '/') = false)
    (hdots : word ∉ [['.'], ['.', '.']]) (dir : List (List Char)) :
    walk dir word = dir ++ [word] := by
  obtain ⟨hdot, hdotdot⟩ : word ≠ ['.'] ∧ word ≠ ['.', '.'] := by simpa using hdots
  rw [walk, words_single hne hword, foldl_cons, foldl_nil, enter, if_neg hdot, if_neg hdotdot]

/-- **The words of a request lead down from the directory one by one.** -/
theorem resolve_translatePath (cwd path : List Char) :
    resolve (translatePath cwd path) = resolve cwd ++ requestWords path := by
  have hwords : ∀ word ∈ requestWords path,
      (word ≠ [] ∧ ∀ c ∈ word, (c == '/') = false) ∧ word ∉ [['.'], ['.', '.']] := fun word h => by
    obtain ⟨hmem, hdots⟩ := mem_filter.mp h
    exact ⟨mem_words _ _ word hmem, of_decide_eq_true hdots⟩
  rw [translatePath]
  generalize requestWords path = ws at hwords ⊢
  induction ws generalizing cwd with
  | nil => rw [foldl_nil, append_nil]
  | cons word ws ih =>
    obtain ⟨⟨⟨hne, hword⟩, hdots⟩, hwords⟩ := forall_mem_cons.mp hwords
    have hhead : word.head? ≠ some '/' := fun h => by
      simpa using hword '/' (mem_of_head? h)
    rw [foldl_cons, ih _ hwords, resolve_join hhead, walk_word hne hword hdots,
      append_assoc, singleton_append]

theorem under_translatePath (cwd path : List Char) : Under cwd (translatePath cwd path) := by
  rw [Under, resolve_translatePath]
  exact prefix_append _ _

theorem sendHead_under {isdir exists_ : List Char → Bool} {request p : List Char}
    (h : sendHead cwd isdir exists_ request = some p) : Under cwd p := by
  have hindex : ∀ index ∈ ["index.html".toList, "index.htm".toList],
      Under cwd (join (translatePath cwd request) index) := by
    intro index hmem
    have hword : (index ≠ [] ∧ ∀ c ∈ index, (c == '/') = false) ∧ index ∉ [['.'], ['.', '.']] ∧
        index.head? ≠ some '/' := by
      rcases mem_pair.mp hmem with rfl | rfl <;> simp
    obtain ⟨⟨hne, hslash⟩, hdots, hhead⟩ := hword
    rw [Under, resolve_join hhead, walk_word hne hslash hdots, resolve_translatePath, append_assoc]
    exact prefix_append _ _
  rw [sendHead] at h
  split at h
  · split at h
    · obtain ⟨index, hmem, rfl⟩ := mem_map.mp (mem_of_find?_eq_some h)
      exact hindex index hmem
    · cases h
  · exact Option.some.inj h ▸ under_translatePath cwd request

/-! ## Names of uploaded files -/

/-- The levels that were left and what was gone down since then, with one more component. -/
def climbStep (s : ℕ × List (List Char)) (word : List Char) : ℕ × List (List Char) :=
  if word = ['.'] then s
  else if word = ['.', '.'] then if s.2 = [] then (s.1 + 1, []) else (s.1, s.2.dropLast)
  else (s.1, s.2 ++ [word])

/-- How many levels a relative path leaves, and what it goes down from there. -/
def climb (path : List Char) : ℕ × List (List Char) :=
  (words (· == '/') path).foldl climbStep (0, [])

/-- An absolute name is below the directory. Of a relative one, the components of the directory that
it leaves are the first that it goes down again. -/
def Stays (cwd request name : List Char) : Prop :=
  if name.head? = some '/' then resolve cwd <+: resolve name
  else (resolve cwd).drop ((resolve cwd).length + (requestWords request).length - (climb name).1)
    <+: (climb name).2

theorem walk_eq_climb (dir : List (List Char)) (path : List Char) :
    walk dir path = dir.take (dir.length - (climb path).1) ++ (climb path).2 := by
  have hfold : ∀ (ws : List (List Char)) (s : ℕ × List (List Char)),
      ws.foldl enter (dir.take (dir.length - s.1) ++ s.2) =
        dir.take (dir.length - (ws.foldl climbStep s).1) ++ (ws.foldl climbStep s).2 := by
    intro ws
    induction ws with
    | nil => exact fun _ => rfl
    | cons word ws ih =>
      intro s
      rw [foldl_cons, foldl_cons, ← ih, enter, climbStep]
      split_ifs with hdot hdotdot hdowns
      · rfl
      · rw [hdowns, append_nil, append_nil, dropLast_eq_take, take_take,
          length_take]
        congr 2
        omega
      · rw [dropLast_append_of_ne_nil hdowns]
      · rw [append_assoc]
  have := hfold (words (· == '/') path) (0, [])
  rwa [Nat.sub_zero, take_length, append_nil] at this

/-- **A name leads out of the directory unless it comes back.** -/
theorem under_join_iff (cwd request name : List Char) :
    Under cwd (join (translatePath cwd request) name) ↔ Stays cwd request name := by
  rw [Under, Stays]
  split
  next h => rw [join, if_pos h]
  next h =>
    rw [resolve_join h, resolve_translatePath, walk_eq_climb, length_append]
    generalize (resolve cwd).length + (requestWords request).length - (climb name).1 = n
    conv_lhs =>
      lhs
      rw [← take_append_drop n (resolve cwd)]
    by_cases hn : n ≤ (resolve cwd).length
    · rw [take_append_of_le_length hn, prefix_append_right_inj]
    · rw [drop_of_length_le (Nat.le_of_not_le hn), append_nil, take_append,
        take_of_length_le (Nat.le_of_not_le hn), append_assoc]
      exact iff_of_true (prefix_append _ _) nil_prefix

/-- The first `k` names of the loop are there, the next one is not. -/
def Taken (exists_ : List Char → Bool) (fn : List Char) (k : ℕ) : Prop :=
  (∀ j < k, exists_ (fn ++ List.replicate j '_') = true) ∧
    exists_ (fn ++ List.replicate k '_') = false

theorem freeName_taken {exists_ : List Char → Bool} {k : ℕ} {fn : List Char}
    (h : Taken exists_ fn k) {fuel : ℕ} (hfuel : k < fuel) :
    freeName exists_ fuel fn = some (fn ++ List.replicate k '_') := by
  obtain ⟨hthere, hfree⟩ := h
  induction k generalizing fn fuel with
  | zero =>
    obtain ⟨fuel, rfl⟩ := Nat.exists_eq_add_one_of_ne_zero hfuel.ne'
    rw [replicate_zero, append_nil] at hfree ⊢
    rw [freeName, hfree, if_neg Bool.false_ne_true]
  | succ k ih =>
    obtain ⟨fuel, rfl⟩ := Nat.exists_eq_add_one_of_ne_zero (Nat.ne_zero_of_lt hfuel)
    have hshift (j : ℕ) :
        fn ++ ['_'] ++ List.replicate j '_' = fn ++ List.replicate (j + 1) '_' := by
      rw [append_assoc, singleton_append, replicate_succ]
    have hfirst : exists_ fn = true := by simpa using hthere 0 (Nat.succ_pos k)
    rw [freeName, hfirst, if_pos rfl, ih (Nat.lt_of_succ_lt_succ hfuel), hshift]
    · exact fun j hj => hshift j ▸ hthere (j + 1) (Nat.succ_lt_succ hj)
    · exact hshift k ▸ hfree

theorem join_append (a b : List Char) {c : List Char} (hc : c.head? ≠ some '/') :
    join a (b ++ c) = join a b ++ c := by
  have hhead : (b ++ c).head? = some '/' ↔ b.head? = some '/' := by
    cases b with
    | nil => exact iff_of_false hc (by simp)
    | cons x b => rfl
  rw [join, join]
  simp only [hhead]
  split_ifs <;> simp

/-- **What is opened for reading is below the directory; what is created is below it if and only if
the name with the underscores it gets does not lead out of it.** -/
theorem paths_contained_iff (cwd : List Char) (isdir exists_ : List Char → Bool)
    (recode : List Char → Option (List Char)) (request name : List Char) {stored : List Char}
    {k : ℕ}
    (hstored : recode name = some stored)
    (htaken : Taken exists_ (join (translatePath cwd request) stored) k) :
    (∀ p ∈ sendHead cwd isdir exists_ request, Under cwd p) ∧
      ∃ p, (∀ fuel > k, createdPath cwd exists_ recode request name fuel = some p) ∧
        (Under cwd p ↔ Stays cwd request (stored ++ List.replicate k '_')) := by
  refine ⟨fun p hp => sendHead_under hp, _, fun fuel hfuel => ?_, under_join_iff cwd request _⟩
  have hhead : (List.replicate k '_').head? ≠ some '/' := by
    cases k <;> simp [List.replicate_succ]
  rw [createdPath, hstored, Option.bind_some, freeName_taken htaken hfuel, join_append _ _ hhead]

/-- The file `a` is created in the directory that is served. -/
theorem paths_contained_iff_plain :
    (∀ p ∈ sendHead "/srv".toList (fun _ => false) (fun _ => false) ['/'], Under "/srv".toList p) ∧
      ∃ p, (∀ fuel > 0, createdPath "/srv".toList (fun _ => false) some ['/'] ['a'] fuel = some p) ∧
        (Under "/srv".toList p ↔ Stays "/srv".toList ['/'] (['a'] ++ List.replicate 0 '_')) :=
  paths_contained_iff _ _ _ _ _ _ rfl ⟨nofun, rfl⟩

/-- A name with dots is created beside the directory. -/
theorem path_escapes : ¬ ∀ (cwd : List Char) (isdir exists_ : List Char → Bool)
    (recode : List Char → Option (List Char)) (request name : List Char) (fuel : ℕ),
    (∀ p ∈ sendHead cwd isdir exists_ request, Under cwd p) ∧
      ∀ p ∈ createdPath cwd exists_ recode request name fuel, Under cwd p := by
  intro h
  have := (h ['/', 's'] (fun _ => false) (fun _ => false) some ['/'] ['.', '.', '/', 'x'] 1).2
    ['/', 's', '/', '.', '.', '/', 'x'] rfl
  exact absurd this (by decide)

end Upload
