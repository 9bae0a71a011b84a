import Mathlib.Data.List.Infix
import Mathlib.Data.List.Forall2
import SP2022.Movies

/-!
# Loading the movies

`initialize` reads the file in pieces of at most `MAX_LEN - 1` bytes, and takes each piece
for a row. A row that fits into a piece gives its id, its title and its numerals
(`Row.loadRow_text`), whatever blanks and commas the title has. A longer row comes in more
pieces than one, each of which gives a movie or fails, so that there are too many movies in
the end (`count_le_length`).
-/

namespace SP2022.Recommendation

/-- `MAX_MOVIES`. -/
def MAX_MOVIES : ℕ :=
  70000

/-- `NUM_OF_GENRE`. -/
def NUM_OF_GENRE : ℕ :=
  19

/-! ## `fgets` and `strtok` -/

/-- What `fgets` stores of a file, at most as many bytes as the argument says, and what it
leaves. -/
def takeLine : ℕ → Bytes → Bytes × Bytes
  | 0, file => ([], file)
  | _ + 1, [] => ([], [])
  | n + 1, c :: file =>
    if c = 10 then ([c], file)
    else ((c :: (takeLine n file).1), (takeLine n file).2)

/-- `fgets`, which returns `NULL` at the end of the file. -/
def fgets (size : ℕ) (file : Bytes) : Option (Bytes × Bytes) :=
  if file = [] then none else some (takeLine (size - 1) file)

/-- `strtok` with one delimiter, on the string at its argument or where it was left, and where
it leaves it. -/
def strtok (delim : UInt8) (s : Bytes) : Option Bytes × Bytes :=
  let s := s.dropWhile (· = delim)
  if s = [] then (none, []) else (some (s.takeWhile (· ≠ delim)), (s.dropWhile (· ≠ delim)).tail)

/-! ## `initialize` -/

/-- A `movie_profile` before it is normalized : `values` are the strings that `strtod` was
called with. -/
structure Loaded where
  movieId : ℤ
  title : Bytes
  values : List Bytes

/-- The loop over the genres, from `i` turns before its end. -/
def genres : ℕ → Option Bytes → Bytes → Option (List Bytes)
  | 0, _, _ => some []
  | i + 1, token, s => do
    let value ← token
    let (token, s) := strtok 44 s
    let values ← genres i token s
    some (value :: values)

/-- The loop body of `initialize`. A call with `NULL` is `none`. -/
def loadRow (chunk : Bytes) : Option Loaded := do
  let (token, s) := strtok 32 chunk
  let movieId := int32 (atoi (← token))
  let (token, s) := strtok 123 s
  let title := (← token).dropLast
  let (token, s) := strtok 44 s
  let values ← genres NUM_OF_GENRE token s
  some ⟨movieId, title, values⟩

theorem takeLine_length (n : ℕ) (file : Bytes) :
    (takeLine n file).1.length + (takeLine n file).2.length = file.length := by
  induction n generalizing file with
  | zero => simp [takeLine]
  | succ n ih =>
    cases file with
    | nil => rfl
    | cons c file =>
      have := ih file
      unfold takeLine
      split_ifs <;> simp <;> omega

theorem takeLine_pos {n : ℕ} {file : Bytes} (h : file ≠ []) :
    0 < (takeLine (n + 1) file).1.length := by
  obtain ⟨c, file, rfl⟩ := List.exists_cons_of_ne_nil h
  unfold takeLine
  split_ifs <;> simp

theorem fgets_lt {n : ℕ} {file chunk rest : Bytes}
    (h : fgets (n + 2) file = some (chunk, rest)) : rest.length < file.length := by
  unfold fgets at h
  split_ifs at h with hfile
  have hlength := takeLine_length (n + 1) file
  have hpos := @takeLine_pos n file hfile
  have heq : takeLine (n + 1) file = (chunk, rest) := Option.some.inj h
  rw [heq] at hlength hpos
  simp only at hlength hpos
  omega

/-- The loop of `initialize`, after `cnt` movies. -/
def loadRows (file : Bytes) (cnt : ℕ) : Option (List Loaded) :=
  match h : fgets MAX_LEN file with
  | none => some []
  | some (chunk, rest) =>
    if cnt < MAX_MOVIES then do
      let m ← loadRow (cstring chunk)
      let movies ← loadRows rest (cnt + 1)
      some (m :: movies)
    else none
termination_by file.length
decreasing_by exact fgets_lt h

/-- `initialize` : the entries of `movies` up to `num_of_movies`. -/
def initializeMovies (file : Bytes) : Option (List Loaded) := do
  let (_, rest) ← fgets MAX_LEN file
  loadRows rest 0

/-- A row of the file. -/
structure Row where
  idText : Bytes
  id : ℤ
  title : Bytes
  numerals : List Bytes
  numeral : Numeral idText id
  isInt : IsInt id
  title_ne : title ≠ []
  title_chars : ∀ c ∈ title, c ≠ 123 ∧ c ≠ 10 ∧ c ≠ 0
  length : numerals.length = NUM_OF_GENRE
  numerals_ne : ∀ s ∈ numerals, s ≠ []
  numerals_chars : ∀ s ∈ numerals, ∀ c ∈ s, c ≠ 44 ∧ c ≠ 10 ∧ c ≠ 0

/-- The characters of a row before its newline. -/
def Row.text (r : Row) : Bytes :=
  r.idText ++ 32 :: (r.title ++ [32, 123] ++ [44].intercalate r.numerals ++ [125])

/-- The row is what was stored : its id, its title, and its numerals at the start of what
`strtod` read. -/
structure Row.StoredAs (r : Row) (m : Loaded) : Prop where
  movieId : m.movieId = r.id
  title : m.title = r.title
  values : List.Forall₂ (· <+: ·) r.numerals m.values

/-- The file with these rows. -/
def rowsFile (rows : List Row) : Bytes :=
  (rows.map fun r => r.text ++ [10]).flatten

section Tokens

variable {delim : UInt8} {s rest : Bytes}

/-- A token up to a delimiter. -/
theorem strtok_token (hs : delim ∉ s) (hne : s ≠ []) :
    strtok delim (s ++ delim :: rest) = (some s, rest) := by
  have hpos : ∀ c ∈ s, decide (c ≠ delim) := fun c hc => decide_eq_true fun h => hs (h ▸ hc)
  obtain ⟨c, t, rfl⟩ := List.exists_cons_of_ne_nil hne
  have hc : c ≠ delim := fun h => hs (h ▸ List.mem_cons_self)
  have hskip : (c :: t ++ delim :: rest).dropWhile (· = delim) = c :: t ++ delim :: rest := by
    rw [List.cons_append, List.dropWhile_cons_of_neg (by simpa using hc)]
  unfold strtok
  rw [hskip, if_neg (by simp), List.takeWhile_append_of_pos hpos, List.dropWhile_append_of_pos hpos]
  simp

/-- The last token. -/
theorem strtok_last (hs : delim ∉ s) (hne : s ≠ []) : strtok delim s = (some s, []) := by
  have hpos : ∀ c ∈ s, decide (c ≠ delim) := fun c hc => decide_eq_true fun h => hs (h ▸ hc)
  obtain ⟨c, t, rfl⟩ := List.exists_cons_of_ne_nil hne
  have hc : c ≠ delim := fun h => hs (h ▸ List.mem_cons_self)
  unfold strtok
  rw [List.dropWhile_cons_of_neg (by simpa using hc), if_neg (by simp),
    List.takeWhile_eq_self_iff.2 hpos, List.dropWhile_eq_nil_iff.2 hpos]
  rfl

end Tokens

/-- The loop over the genres reads the numerals, the last one with what follows it. -/
theorem genres_numerals {tl : Bytes} (htl : 44 ∉ tl) {l : List Bytes} (hl : l ≠ [])
    (hne : ∀ s ∈ l, s ≠ []) (hcomma : ∀ s ∈ l, 44 ∉ s) :
    ∃ values, genres l.length (strtok 44 ([44].intercalate l ++ tl)).1
        (strtok 44 ([44].intercalate l ++ tl)).2 = some values ∧
      List.Forall₂ (· <+: ·) l values := by
  induction l with
  | nil => exact absurd rfl hl
  | cons s l ih =>
    have hs := hne s List.mem_cons_self
    have hs' := hcomma s List.mem_cons_self
    cases l with
    | nil =>
      rw [List.intercalate_singleton, strtok_last (by simp [hs', htl]) (by simp [hs])]
      refine ⟨[s ++ tl], rfl, ?_⟩
      exact List.Forall₂.cons (List.prefix_append s tl) List.Forall₂.nil
    | cons s' l =>
      obtain ⟨values, hvalues, hprefix⟩ := ih (by simp)
        (fun u hu => hne u (List.mem_cons_of_mem s hu))
        fun u hu => hcomma u (List.mem_cons_of_mem s hu)
      rw [List.intercalate_cons_cons, List.append_assoc, List.append_assoc, List.singleton_append,
        strtok_token hs' hs]
      refine ⟨s :: values, ?_, List.Forall₂.cons List.prefix_rfl hprefix⟩
      rw [List.length_cons, genres]
      simp only [Option.bind_eq_bind, Option.bind_some, hvalues]

theorem mem_intercalate {sep c : UInt8} {l : List Bytes} (h : c ∈ [sep].intercalate l) :
    c = sep ∨ ∃ s ∈ l, c ∈ s := by
  induction l with
  | nil => cases h
  | cons s l ih =>
    cases l with
    | nil => exact Or.inr ⟨s, List.mem_cons_self, by simpa using h⟩
    | cons s' l =>
      simp only [List.intercalate_cons_cons, List.mem_append, List.mem_singleton] at h
      rcases h with (h | h) | h
      · exact Or.inr ⟨s, List.mem_cons_self, h⟩
      · exact Or.inl h
      · exact (ih h).imp_right fun ⟨u, hu, hc⟩ => ⟨u, List.mem_cons_of_mem s hu, hc⟩

namespace Row

variable (r : Row)

/-- The id has none of the characters that end a token or a line. -/
theorem notMem_idText {c : UInt8} (hsign : c ≠ 43 ∧ c ≠ 45) (hdigit : ¬isdigit c) :
    c ∉ r.idText := by
  intro hc
  rcases r.numeral.chars hc with h | h | h
  · exact hsign.1 h
  · exact hsign.2 h
  · exact hdigit h

theorem notMem_numerals {c : UInt8} (hc : c ≠ 44) (hchars : ∀ s ∈ r.numerals, c ∉ s) :
    c ∉ [44].intercalate r.numerals := fun h =>
  (mem_intercalate h).elim hc fun ⟨s, hs, h⟩ => hchars s hs h

theorem notMem_text {c : UInt8} (hsign : c ≠ 43 ∧ c ≠ 45) (hdigit : ¬isdigit c)
    (hsep : c ≠ 32 ∧ c ≠ 44 ∧ c ≠ 123 ∧ c ≠ 125) (htitle : c ∉ r.title)
    (hchars : ∀ s ∈ r.numerals, c ∉ s) : c ∉ r.text := by
  have hid := r.notMem_idText hsign hdigit
  have hnumerals := r.notMem_numerals hsep.2.1 hchars
  simp [text, hid, hnumerals, htitle, hsep]

theorem newline_notMem : 10 ∉ r.text :=
  r.notMem_text (by decide) (by decide) (by decide) (fun h => (r.title_chars _ h).2.1 rfl)
    fun s hs h => (r.numerals_chars s hs _ h).2.1 rfl

theorem zero_notMem : 0 ∉ r.text :=
  r.notMem_text (by decide) (by decide) (by decide) (fun h => (r.title_chars _ h).2.2 rfl)
    fun s hs h => (r.numerals_chars s hs _ h).2.2 rfl

/-- The loop body reads a row. -/
theorem loadRow_text : ∃ m, loadRow (r.text ++ [10]) = some m ∧ r.StoredAs m := by
  obtain ⟨values, hvalues, hprefix⟩ := @genres_numerals [125, 10] (by decide) r.numerals
    (List.ne_nil_of_length_pos (by rw [r.length]; decide)) r.numerals_ne
    fun s hs h => (r.numerals_chars s hs _ h).1 rfl
  rw [r.length] at hvalues
  have hid : strtok 32 (r.text ++ [10]) =
      (some r.idText, (r.title ++ [32]) ++ 123 :: ([44].intercalate r.numerals ++ [125, 10])) := by
    rw [← strtok_token (@notMem_idText r 32 (by decide) (by decide)) r.numeral.ne_nil]
    simp [text]
  have htitle : strtok 123
      ((r.title ++ [32]) ++ 123 :: ([44].intercalate r.numerals ++ [125, 10])) =
      (some (r.title ++ [32]), [44].intercalate r.numerals ++ [125, 10]) := by
    refine strtok_token ?_ (by simp)
    simpa using fun h => (r.title_chars _ h).1 rfl
  have hatoi : atoi r.idText = r.id := by
    have h := @atoi_numeral r.idText [] r.id r.numeral 0 (by simp)
    simpa using h
  refine ⟨⟨r.id, r.title, values⟩, ?_, rfl, rfl, hprefix⟩
  simp only [loadRow, hid, htitle, hvalues, Option.bind_eq_bind, Option.bind_some, hatoi,
    int32_eq r.isInt, List.dropLast_concat]

end Row

section Lines

variable {n : ℕ} {line rest : Bytes}

/-- A line that fits. -/
theorem takeLine_line (hline : 10 ∉ line) (hfit : line.length < n) :
    takeLine n (line ++ 10 :: rest) = (line ++ [10], rest) := by
  induction line generalizing n with
  | nil =>
    obtain ⟨n, rfl⟩ := Nat.exists_eq_succ_of_ne_zero hfit.ne'
    rfl
  | cons c line ih =>
    obtain ⟨hc, hline⟩ := not_or.1 (mt List.mem_cons.2 hline)
    obtain ⟨n, rfl⟩ := Nat.exists_eq_succ_of_ne_zero (Nat.ne_of_gt (Nat.zero_lt_of_lt hfit))
    rw [List.cons_append, takeLine, if_neg (Ne.symm hc),
      ih hline (by simpa using hfit)]
    rfl

/-- A line that is too long comes in pieces. -/
theorem takeLine_long (hline : 10 ∉ line) (hlong : n ≤ line.length) :
    takeLine n (line ++ 10 :: rest) = (line.take n, line.drop n ++ 10 :: rest) := by
  induction line generalizing n with
  | nil =>
    obtain rfl : n = 0 := by simpa using hlong
    rfl
  | cons c line ih =>
    obtain ⟨hc, hline⟩ := not_or.1 (mt List.mem_cons.2 hline)
    cases n with
    | zero => rfl
    | succ n =>
      rw [List.cons_append, takeLine, if_neg (Ne.symm hc), ih hline (by simpa using hlong)]
      rfl

/-- At most one newline is read. -/
theorem count_takeLine (n : ℕ) (file : Bytes) :
    file.count 10 ≤ (takeLine n file).2.count 10 + 1 := by
  induction n generalizing file with
  | zero => simp [takeLine]
  | succ n ih =>
    cases file with
    | nil => simp [takeLine]
    | cons c file =>
      have := ih file
      unfold takeLine
      by_cases hc : c = 10
      · simp [hc]
      · simpa [hc, List.count_cons] using this

end Lines

section Loop

variable {file : Bytes} {cnt : ℕ} {movies : List Loaded} {rows : List Row}

theorem loadRows_nil (cnt : ℕ) : loadRows [] cnt = some [] := by
  rw [loadRows]
  rfl

/-- A turn of the loop. -/
theorem loadRows_eq (hfile : file ≠ []) : loadRows file cnt =
    if cnt < MAX_MOVIES then
      (loadRow (cstring (takeLine 254 file).1)).bind fun m =>
        (loadRows (takeLine 254 file).2 (cnt + 1)).map (m :: ·)
    else none := by
  have hfgets : fgets MAX_LEN file = some (takeLine 254 file) := if_neg hfile
  rw [loadRows]
  split
  · next h => rw [hfgets] at h; cases h
  · next chunk rest h =>
    rw [hfgets] at h
    rw [Option.some.inj h]
    simp only [Option.map_eq_bind]
    rfl

/-- Each turn adds one movie. -/
theorem exists_of_loadRows (hfile : file ≠ []) (h : loadRows file cnt = some movies) :
    ∃ m rest, movies = m :: rest ∧ loadRows (takeLine 254 file).2 (cnt + 1) = some rest := by
  rw [loadRows_eq hfile] at h
  split_ifs at h
  obtain ⟨m, -, h⟩ := Option.bind_eq_some_iff.1 h
  obtain ⟨rest, hrest, rfl⟩ := Option.map_eq_some_iff.1 h
  exact ⟨m, rest, rfl, hrest⟩

/-- There are at least as many movies as newlines. -/
theorem count_le_length (h : loadRows file cnt = some movies) : file.count 10 ≤ movies.length := by
  induction movies generalizing file cnt with
  | nil =>
    by_cases hfile : file = []
    · simp [hfile]
    · obtain ⟨m, rest, hnil, -⟩ := exists_of_loadRows hfile h
      cases hnil
  | cons m movies ih =>
    by_cases hfile : file = []
    · simp [hfile]
    · obtain ⟨m', rest, hcons, hrest⟩ := exists_of_loadRows hfile h
      obtain ⟨rfl, rfl⟩ := List.cons.inj hcons
      exact (count_takeLine 254 file).trans (Nat.succ_le_succ (ih hrest))

theorem rowsFile_cons (r : Row) (rows : List Row) :
    rowsFile (r :: rows) = r.text ++ 10 :: rowsFile rows := by
  simp [rowsFile]

theorem count_rowsFile (rows : List Row) : (rowsFile rows).count 10 = rows.length := by
  induction rows with
  | nil => rfl
  | cons r rows ih =>
    have hr : r.text.count 10 = 0 := List.count_eq_zero.2 r.newline_notMem
    rw [rowsFile_cons, List.count_append, hr, List.count_cons_self, ih]
    simp

/-- Rows that fit are read back. -/
theorem loadRows_fit (hfit : ∀ r ∈ rows, r.text.length < 254)
    (hmax : cnt + rows.length ≤ MAX_MOVIES) :
    ∃ movies, loadRows (rowsFile rows) cnt = some movies ∧
      List.Forall₂ Row.StoredAs rows movies := by
  induction rows generalizing cnt with
  | nil => exact ⟨[], loadRows_nil cnt, List.Forall₂.nil⟩
  | cons r rows ih =>
    rw [List.length_cons] at hmax
    obtain ⟨m, hm, hstored⟩ := r.loadRow_text
    obtain ⟨movies, hmovies, hrest⟩ := @ih (cnt + 1)
      (fun r' hr' => hfit r' (List.mem_cons_of_mem r hr')) (by omega)
    have hline : takeLine 254 (rowsFile (r :: rows)) = (r.text ++ [10], rowsFile rows) := by
      rw [rowsFile_cons]
      exact takeLine_line r.newline_notMem (hfit r List.mem_cons_self)
    have hstring : cstring (r.text ++ [10]) = r.text ++ [10] := by
      have h := @cstring_append (r.text ++ [10]) (by simp [r.zero_notMem]) []
      simpa [cstring] using h
    refine ⟨m :: movies, ?_, List.Forall₂.cons hstored hrest⟩
    rw [loadRows_eq (by simp [rowsFile_cons]), if_pos (by omega), hline]
    simp only [hstring, hm, hmovies, Option.bind_some, Option.map_some]

/-- Rows that are as many as the movies fit. -/
theorem fit_of_loadRows (h : loadRows (rowsFile rows) cnt = some movies)
    (hlength : movies.length = rows.length) : ∀ r ∈ rows, r.text.length < 254 := by
  induction rows generalizing cnt movies with
  | nil => exact fun r hr => absurd hr List.not_mem_nil
  | cons r rows ih =>
    obtain ⟨m, rest, rfl, hrest⟩ := exists_of_loadRows (by simp [rowsFile_cons]) h
    rw [rowsFile_cons] at hrest
    have hr : r.text.length < 254 := by
      by_contra hlong
      rw [takeLine_long r.newline_notMem (not_lt.1 hlong)] at hrest
      have hcount := count_le_length hrest
      rw [List.count_append, List.count_cons_self, count_rowsFile] at hcount
      simp only [List.length_cons] at hlength
      omega
    rw [takeLine_line r.newline_notMem hr] at hrest
    intro r' hr'
    rcases List.mem_cons.1 hr' with rfl | hr'
    · exact hr
    · exact ih hrest (by simpa using hlength) r' hr'

end Loop

/-- The rows are read back, in order. -/
def ReadsBack (file : Bytes) (rows : List Row) : Prop :=
  ∃ movies, initializeMovies file = some movies ∧ List.Forall₂ Row.StoredAs rows movies

section Header

variable {header : Bytes} {rows : List Row}

/-- The first call of `fgets` reads the header. -/
theorem initializeMovies_eq (hheader : 10 ∉ header) (hlength : header.length < 254)
    (file : Bytes) : initializeMovies (header ++ 10 :: file) = loadRows file 0 := by
  have hfgets : fgets MAX_LEN (header ++ 10 :: file) = some (header ++ [10], file) := by
    rw [fgets, if_neg (by simp)]
    exact congrArg some (takeLine_line hheader hlength)
  simp only [initializeMovies, hfgets, Option.bind_eq_bind, Option.bind_some]

theorem ReadsBack.fit (hheader : 10 ∉ header) (hlength : header.length < 254)
    (h : ReadsBack (header ++ 10 :: rowsFile rows) rows) : ∀ r ∈ rows, r.text.length < 254 := by
  obtain ⟨movies, hmovies, hstored⟩ := h
  rw [initializeMovies_eq hheader hlength] at hmovies
  exact fit_of_loadRows hmovies hstored.length_eq.symm

/-- When the rows are read back : each fits into `chunk` with its newline and a `NUL`. -/
theorem rows_read_back_iff (hheader : 10 ∉ header) (hlength : header.length < 254)
    (hmax : rows.length ≤ MAX_MOVIES) :
    ReadsBack (header ++ 10 :: rowsFile rows) rows ↔
      ∀ r ∈ rows, r.text.length + 1 + 1 ≤ MAX_LEN := by
  constructor
  · exact fun h r hr => Nat.succ_le_succ (h.fit hheader hlength r hr)
  · intro hfit
    unfold ReadsBack
    rw [initializeMovies_eq hheader hlength]
    exact loadRows_fit (fun r hr => Nat.le_of_succ_le_succ (hfit r hr)) (by simpa using hmax)

end Header

/-- The row with the id 1, a title of `n + 1` letters and no genre. -/
def letters (n : ℕ) : Row where
  idText := [49]
  id := 1
  title := List.replicate (n + 1) 97
  numerals := List.replicate 19 [48]
  numeral := @Numeral.plain [49] (by decide) (by simp [isdigit])
  isInt := by decide
  title_ne := by simp
  title_chars c hc := by
    rw [List.eq_of_mem_replicate hc]
    decide
  length := rfl
  numerals_ne := by decide
  numerals_chars s hs c hc := by
    rw [List.eq_of_mem_replicate hs, List.mem_singleton] at hc
    rw [hc]
    decide

theorem letters_length (n : ℕ) : (letters n).text.length = n + 43 := by
  have hnumerals : ([44].intercalate (List.replicate 19 [(48 : UInt8)])).length = 37 := by decide
  simp only [letters, Row.text, List.length_append, List.length_cons, List.length_nil, hnumerals,
    List.length_replicate]
  omega

theorem rows_read_back_one : ReadsBack (109 :: 10 :: rowsFile [letters 3]) [letters 3] :=
  (@rows_read_back_iff [109] [letters 3] (by decide) (by decide) (by decide)).2 (by decide)

/-- A row of `MAX_LEN` bytes. -/
theorem row_lost : (letters 211).text.length + 1 = MAX_LEN ∧
    ¬ReadsBack (109 :: 10 :: rowsFile [letters 211]) [letters 211] := by
  have hlength := letters_length 211
  refine ⟨by rw [hlength, MAX_LEN], fun h => ?_⟩
  have hfit := @ReadsBack.fit [109] [letters 211] (by decide) (by decide) h _
    List.mem_cons_self
  omega

end SP2022.Recommendation
