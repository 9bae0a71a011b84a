import SP2022.MoviesLoader

/-!
# Reading the requests

After the movies `initialize` reads the number of requests, and `read_request` each of them : an
id, the keywords and the genres, with blanks between them. `%254s` stops inside a word that is
longer, and what is left of it is read as the next item. So the requests are read back exactly if
no word of theirs is too long (`requests_read_back_iff`).
-/

namespace SP2022.Recommendation

/-- `MAX_REQ`. -/
def MAX_REQ : ℕ :=
  255

/-! ## `scanf` -/

/-- A sign or none and the longest string of digits, after blanks, with what is left. It is
`none` if there is no digit. -/
def scanNumber (s : Bytes) : Option (ℤ × Bytes) :=
  let number (negative : Bool) (s : Bytes) : Option (ℤ × Bytes) :=
    if s.takeWhile isdigit = [] then none
    else
      let n : ℤ := decimal (s.takeWhile isdigit)
      some (if negative then -n else n, s.dropWhile isdigit)
  match s.dropWhile isspace with
  | 45 :: s => number true s
  | 43 :: s => number false s
  | s => number false s

/-- What `%d` stores of a number. It goes through a `long`, which does not wrap around. -/
def storeD (x : ℤ) : ℤ :=
  int32 (max (-2 ^ 63) (min x (2 ^ 63 - 1)))

/-- What `%u` stores of a number in an `int`. It goes through an `unsigned long`. -/
def storeU (x : ℤ) : ℤ :=
  if x.natAbs < 2 ^ 64 then int32 x else -1

/-- `%s` with a width : the word after blanks, or its start, with what is left. -/
def scanWord (width : ℕ) (s : Bytes) : Option (Bytes × Bytes) :=
  let s := s.dropWhile isspace
  let word := (s.takeWhile fun c => !isspace c).take width
  if s = [] then none else some (word, s.drop word.length)

/-! ## `read_request` -/

/-- A `request` before its profile is normalized : `values` are the strings that `strtod` was
called with. -/
structure Asked where
  id : ℤ
  keywords : Bytes
  values : List Bytes
  deriving DecidableEq

/-- `read_request`, with what it leaves of `stdin`. It is `none` if `scanf` stores nothing in
`id`, `buf1` or `buf2`, or `strtod` is called with `NULL`. -/
def read_request (stdin : Bytes) : Option (Asked × Bytes) := do
  let (id, stdin) ← scanNumber stdin
  let (buf1, stdin) ← scanWord 254 stdin
  let (buf2, stdin) ← scanWord 254 stdin
  let (token, s) := strtok 44 (cstring buf2)
  let values ← genres NUM_OF_GENRE token s
  some (⟨storeU id, cstring buf1, values⟩, stdin)

/-- The loop over the requests. -/
def readRequests : ℕ → Bytes → Option (List Asked)
  | 0, _ => some []
  | n + 1, stdin => do
    let (r, stdin) ← read_request stdin
    let reqs ← readRequests n stdin
    some (r :: reqs)

/-- The end of `initialize`. `num_of_reqs` is unsigned, and stays `0` if there is no number. -/
def initializeRequests (stdin : Bytes) : Option (List Asked) :=
  match scanNumber stdin with
  | none => some []
  | some (x, stdin) =>
    if 0 ≤ storeD x ∧ storeD x ≤ MAX_REQ then readRequests (storeD x).toNat stdin else none

/-! ## Requests as text -/

/-- A request in the input, with the blanks before its parts. -/
structure RequestText where
  idText : Bytes
  id : ℤ
  keywords : Bytes
  numerals : List Bytes
  beforeId : Bytes
  beforeKeywords : Bytes
  beforeGenres : Bytes
  numeral : Numeral idText id
  isInt : IsInt id
  keywords_ne : keywords ≠ []
  keywords_chars : ∀ c ∈ keywords, isspace c = false ∧ c ≠ 0
  length : numerals.length = NUM_OF_GENRE
  numerals_ne : ∀ s ∈ numerals, s ≠ []
  numerals_chars : ∀ s ∈ numerals, ∀ c ∈ s, isspace c = false ∧ c ≠ 44 ∧ c ≠ 0
  blanks : ∀ b ∈ [beforeId, beforeKeywords, beforeGenres], b ≠ [] ∧ ∀ c ∈ b, isspace c

namespace RequestText

/-- The genres, with commas between them. -/
def genresText (r : RequestText) : Bytes :=
  [44].intercalate r.numerals

/-- The characters of a request. -/
def text (r : RequestText) : Bytes :=
  r.beforeId ++ (r.idText ++ (r.beforeKeywords ++ (r.keywords ++
    (r.beforeGenres ++ r.genresText))))

/-- What is to be read. -/
def asked (r : RequestText) : Asked :=
  ⟨r.id, r.keywords, r.numerals⟩

/-- No word is too long for its buffer. -/
def Fits (r : RequestText) : Prop :=
  r.keywords.length ≤ 254 ∧ r.genresText.length ≤ 254

end RequestText

/-! ## Items -/

section Items

variable {gap s rest word : Bytes} {x : ℤ}

theorem isspace_of_isdigit {c : UInt8} (h : isdigit c) : isspace c = false := by
  have hc := isdigit_iff.1 h
  rw [Bool.eq_false_iff]
  simp only [isspace, ne_eq, UInt8.le_iff_toNat_le, Bool.or_eq_true, Bool.and_eq_true,
    decide_eq_true_eq, ← UInt8.toNat_inj, UInt8.reduceToNat]
  omega

theorem isdigit_of_isspace {c : UInt8} (h : isspace c) : isdigit c = false := by
  by_contra hd
  rw [isspace_of_isdigit (Bool.eq_true_of_not_eq_false hd)] at h
  cases h

/-- A number after blanks. -/
theorem scanNumber_numeral (hgap : ∀ c ∈ gap, isspace c) (h : Numeral s x)
    (hrest : ∀ c ∈ rest.head?, isdigit c = false) :
    scanNumber (gap ++ (s ++ rest)) = some (x, rest) := by
  have htake : ∀ {ds : Bytes}, (∀ c ∈ ds, isdigit c) →
      (ds ++ rest).takeWhile isdigit = ds ∧ (ds ++ rest).dropWhile isdigit = rest := by
    intro ds hd
    rw [List.takeWhile_append_of_pos hd, List.dropWhile_append_of_pos hd]
    cases rest with
    | nil => simp
    | cons c rest =>
      have hc := hrest c rfl
      rw [List.takeWhile_cons_of_neg (by simp [hc]), List.dropWhile_cons_of_neg (by simp [hc])]
      simp
  unfold scanNumber
  rw [List.dropWhile_append_of_pos hgap]
  cases h with
  | @plain ds hne hd =>
    obtain ⟨ht, hdrop⟩ := htake hd
    obtain ⟨c, ds, rfl⟩ := List.exists_cons_of_ne_nil hne
    have hc := hd c List.mem_cons_self
    rw [List.cons_append, List.dropWhile_cons_of_neg (by simp [isspace_of_isdigit hc]),
      ← List.cons_append]
    split
    · next heq =>
      obtain rfl : c = 45 := (List.cons.inj heq).1
      cases hc
    · next heq =>
      obtain rfl : c = 43 := (List.cons.inj heq).1
      cases hc
    · simp only [ht, hdrop, if_neg hne]
      rfl
  | @plus ds hne hd =>
    obtain ⟨ht, hdrop⟩ := htake hd
    simp [List.dropWhile_cons_of_neg, isspace, ht, hdrop, hne]
  | @minus ds hne hd =>
    obtain ⟨ht, hdrop⟩ := htake hd
    simp [List.dropWhile_cons_of_neg, isspace, ht, hdrop, hne]

/-- A word after blanks. -/
theorem scanWord_word (width : ℕ) (hgap : ∀ c ∈ gap, isspace c) (hne : word ≠ [])
    (hword : ∀ c ∈ word, isspace c = false) (hrest : ∀ c ∈ rest.head?, isspace c) :
    scanWord width (gap ++ (word ++ rest)) = some (word.take width, word.drop width ++ rest) := by
  have hfirst : (word ++ rest).dropWhile isspace = word ++ rest := by
    obtain ⟨c, word, rfl⟩ := List.exists_cons_of_ne_nil hne
    exact List.dropWhile_cons_of_neg (by simp [hword c List.mem_cons_self])
  have htake : (word ++ rest).takeWhile (fun c => !isspace c) = word := by
    rw [List.takeWhile_append_of_pos fun c hc => by simp [hword c hc]]
    cases rest with
    | nil => simp
    | cons c rest => simp [hrest c rfl]
  unfold scanWord
  rw [List.dropWhile_append_of_pos hgap, hfirst]
  simp only [htake]
  rw [if_neg (by simp [hne]), List.length_take, List.drop_append]
  rcases le_total width word.length with hle | hle
  · simp [hle]
  · simp [hle, List.drop_eq_nil_of_le hle]

end Items

/-! ## Genres -/

section Genres

/-- The loop over the genres reads the numerals. -/
theorem genres_eq {l : List Bytes} (hl : l ≠ []) (hne : ∀ s ∈ l, s ≠ [])
    (hcomma : ∀ s ∈ l, 44 ∉ s) :
    genres l.length (strtok 44 ([44].intercalate l)).1 (strtok 44 ([44].intercalate l)).2 =
      some l := by
  induction l with
  | nil => exact absurd rfl hl
  | cons s l ih =>
    have hs := hne s List.mem_cons_self
    have hs' := hcomma s List.mem_cons_self
    cases l with
    | nil =>
      rw [List.intercalate_singleton, strtok_last hs' hs]
      rfl
    | cons s' l =>
      have hvalues := ih (by simp) (fun u hu => hne u (List.mem_cons_of_mem s hu))
        fun u hu => hcomma u (List.mem_cons_of_mem s hu)
      rw [List.intercalate_cons_cons, List.append_assoc, List.singleton_append,
        strtok_token hs' hs, List.length_cons, genres]
      simp only [Option.bind_eq_bind, Option.bind_some, hvalues]

/-- A token and a delimiter come before what is left. -/
theorem length_strtok {delim : UInt8} {s token rest : Bytes}
    (h : strtok delim s = (some token, rest)) :
    token.length ≤ s.length ∧ (rest ≠ [] → token.length + 1 + rest.length ≤ s.length) := by
  have hsuffix : (s.dropWhile (· = delim)).length ≤ s.length :=
    (List.dropWhile_suffix _).length_le
  have hsplit := congrArg List.length
    (List.takeWhile_append_dropWhile (p := (· ≠ delim)) (l := s.dropWhile (· = delim)))
  rw [List.length_append] at hsplit
  unfold strtok at h
  simp only at h
  split_ifs at h
  · cases h
  obtain ⟨htoken, rfl⟩ := Prod.mk.inj h
  obtain rfl := Option.some.inj htoken
  refine ⟨by omega, fun hne => ?_⟩
  have hpos := List.length_pos_iff.2 hne
  rw [List.length_tail] at hpos ⊢
  omega

/-- Strings that were read with commas between them were there. -/
theorem length_genres {n : ℕ} {s : Bytes} {values : List Bytes}
    (h : genres n (strtok 44 s).1 (strtok 44 s).2 = some values) :
    ([44].intercalate values).length ≤ s.length := by
  induction n generalizing s values with
  | zero =>
    obtain rfl := Option.some.inj h
    exact Nat.zero_le _
  | succ n ih =>
    cases hs : strtok 44 s with
    | mk token rest =>
      rw [hs, genres] at h
      obtain ⟨t, rfl, h⟩ := Option.bind_eq_some_iff.1 h
      obtain ⟨values', hvalues, h⟩ := Option.bind_eq_some_iff.1 h
      obtain rfl := Option.some.inj h
      obtain ⟨hle, hlt⟩ := length_strtok hs
      have hih : ([44].intercalate values').length ≤ rest.length := ih hvalues
      cases values' with
      | nil => simpa using hle
      | cons v vs =>
        -- a value after this one was read from what is left
        have hrest : rest ≠ [] := by
          rintro rfl
          cases n with
          | zero => cases hvalues
          | succ n => cases hvalues
        have hlt' := hlt hrest
        rw [List.intercalate_cons_cons, List.length_append, List.length_append,
          List.length_singleton]
        omega

end Genres

/-! ## One request -/

namespace RequestText

variable {r : RequestText} {rest : Bytes}

theorem numerals_ne_nil (r : RequestText) : r.numerals ≠ [] :=
  List.ne_nil_of_length_pos (by rw [r.length]; decide)

theorem genresText_ne (r : RequestText) : r.genresText ≠ [] := by
  intro hnil
  obtain ⟨s, l, hl⟩ := List.exists_cons_of_ne_nil r.numerals_ne_nil
  have hs := r.numerals_ne s (by rw [hl]; exact List.mem_cons_self)
  rw [genresText, hl] at hnil
  cases l with
  | nil => exact hs (by simpa using hnil)
  | cons s' l =>
    rw [List.intercalate_cons_cons, List.append_assoc] at hnil
    exact hs (List.append_eq_nil_iff.1 hnil).1

theorem genresText_chars (r : RequestText) : ∀ c ∈ r.genresText, isspace c = false ∧ c ≠ 0 := by
  intro c hc
  rcases mem_intercalate hc with rfl | ⟨s, hs, hc⟩
  · decide
  · exact ⟨(r.numerals_chars s hs c hc).1, (r.numerals_chars s hs c hc).2.2⟩

/-- A string of a word without `NUL`. -/
theorem cstring_take {word : Bytes} (h : ∀ c ∈ word, c ≠ 0) (n : ℕ) :
    cstring (word.take n) = word.take n :=
  List.takeWhile_eq_self_iff.2 fun c hc => decide_eq_true (h c (List.mem_of_mem_take hc))

theorem head?_append_of_ne {b : Bytes} (hb : b ≠ [] ∧ ∀ c ∈ b, isspace c) (s : Bytes) :
    ∀ c ∈ (b ++ s).head?, isspace c := by
  obtain ⟨c, b, rfl⟩ := List.exists_cons_of_ne_nil hb.1
  rintro c' hc'
  obtain rfl : c = c' := by simpa using hc'
  exact hb.2 c List.mem_cons_self

/-- What is read before the genres. -/
theorem read_request_keywords (r : RequestText) (rest : Bytes) :
    read_request (r.text ++ rest) =
      (scanWord 254 (r.keywords.drop 254 ++ (r.beforeGenres ++ (r.genresText ++ rest)))).bind
        fun p => (genres NUM_OF_GENRE (strtok 44 (cstring p.1)).1 (strtok 44 (cstring p.1)).2).map
          fun values => (⟨r.id, r.keywords.take 254, values⟩, p.2) := by
  obtain ⟨hid, hkeywords, hgenres⟩ :
      (r.beforeId ≠ [] ∧ ∀ c ∈ r.beforeId, isspace c) ∧
      (r.beforeKeywords ≠ [] ∧ ∀ c ∈ r.beforeKeywords, isspace c) ∧
      (r.beforeGenres ≠ [] ∧ ∀ c ∈ r.beforeGenres, isspace c) := by
    simpa using r.blanks
  have hdigit : ∀ c ∈ (r.beforeKeywords ++ (r.keywords ++ (r.beforeGenres ++
      (r.genresText ++ rest)))).head?, isdigit c = false := fun c hc =>
    isdigit_of_isspace (head?_append_of_ne hkeywords _ c hc)
  have htext : r.text ++ rest = r.beforeId ++ (r.idText ++ (r.beforeKeywords ++
      (r.keywords ++ (r.beforeGenres ++ (r.genresText ++ rest))))) := by
    simp [text]
  have hstore : storeU r.id = r.id := by
    have hint := r.isInt
    unfold IsInt at hint
    rw [storeU, if_pos (by omega), int32_eq r.isInt]
  unfold read_request
  rw [htext, scanNumber_numeral hid.2 r.numeral hdigit]
  simp only [Option.bind_eq_bind, Option.bind_some]
  rw [scanWord_word 254 hkeywords.2 r.keywords_ne (fun c hc => (r.keywords_chars c hc).1)
    (head?_append_of_ne hgenres _)]
  simp only [Option.bind_some, cstring_take fun c hc => (r.keywords_chars c hc).2, hstore,
    Option.map_eq_bind]
  rfl

/-- A request whose keywords are not too long. -/
theorem read_request_genres (hfits : r.keywords.length ≤ 254)
    (hrest : ∀ c ∈ rest.head?, isspace c) :
    read_request (r.text ++ rest) =
      (genres NUM_OF_GENRE (strtok 44 (r.genresText.take 254)).1
        (strtok 44 (r.genresText.take 254)).2).map fun values =>
          (⟨r.id, r.keywords, values⟩, r.genresText.drop 254 ++ rest) := by
  have hgenres : ∀ c ∈ r.beforeGenres, isspace c := (r.blanks r.beforeGenres (by simp)).2
  rw [read_request_keywords, List.drop_eq_nil_of_le hfits, List.nil_append,
    scanWord_word 254 hgenres r.genresText_ne (fun c hc => (r.genresText_chars c hc).1) hrest,
    Option.bind_some, List.take_of_length_le hfits]
  simp only [cstring_take fun c hc => (r.genresText_chars c hc).2]

/-- A request that fits is read back. -/
theorem read_request_fits (hfits : r.Fits) (hrest : ∀ c ∈ rest.head?, isspace c) :
    read_request (r.text ++ rest) = some (r.asked, rest) := by
  have hgenres := genres_eq r.numerals_ne_nil r.numerals_ne
    fun s hs h => (r.numerals_chars s hs _ h).2.1 rfl
  rw [r.length] at hgenres
  rw [read_request_genres hfits.1 hrest, List.take_of_length_le hfits.2,
    List.drop_eq_nil_of_le hfits.2, genresText, hgenres]
  rfl

/-- A request that is read back fits. -/
theorem fits_of_read_request {s : Bytes} (hrest : ∀ c ∈ rest.head?, isspace c)
    (h : read_request (r.text ++ rest) = some (r.asked, s)) : r.Fits := by
  have hkeywords : r.keywords.length ≤ 254 := by
    rw [read_request_keywords] at h
    obtain ⟨p, -, hp⟩ := Option.bind_eq_some_iff.1 h
    obtain ⟨values, -, heq⟩ := Option.map_eq_some_iff.1 hp
    have htake : r.keywords.take 254 = r.keywords :=
      congrArg Asked.keywords (Prod.mk.inj heq).1
    rw [← htake, List.length_take]
    exact Nat.min_le_left _ _
  refine ⟨hkeywords, ?_⟩
  rw [read_request_genres hkeywords hrest] at h
  obtain ⟨values, hvalues, heq⟩ := Option.map_eq_some_iff.1 h
  obtain rfl : values = r.numerals := congrArg Asked.values (Prod.mk.inj heq).1
  have hlength := length_genres hvalues
  rw [List.length_take] at hlength
  exact hlength.trans (Nat.min_le_left _ _)

theorem text_head? (r : RequestText) (rest : Bytes) : ∀ c ∈ (r.text ++ rest).head?, isspace c := by
  rw [text, List.append_assoc]
  exact head?_append_of_ne (r.blanks r.beforeId (by simp)) _

end RequestText

/-! ## All requests -/

section Requests

variable {rs : List RequestText} {tail : Bytes}

/-- The requests, and what stands after them. -/
def requestsText (rs : List RequestText) (tail : Bytes) : Bytes :=
  (rs.map RequestText.text).flatten ++ tail

theorem requestsText_cons (r : RequestText) (rs : List RequestText) (tail : Bytes) :
    requestsText (r :: rs) tail = r.text ++ requestsText rs tail := by
  simp [requestsText]

theorem requestsText_head? (htail : ∀ c ∈ tail.head?, isspace c) (rs : List RequestText) :
    ∀ c ∈ (requestsText rs tail).head?, isspace c := by
  cases rs with
  | nil => exact htail
  | cons r rs =>
    rw [requestsText_cons]
    exact r.text_head? _

theorem readRequests_iff (htail : ∀ c ∈ tail.head?, isspace c) (rs : List RequestText) :
    readRequests rs.length (requestsText rs tail) = some (rs.map RequestText.asked) ↔
      ∀ r ∈ rs, r.Fits := by
  induction rs with
  | nil => simp [readRequests]
  | cons r rs ih =>
    have hrest := requestsText_head? htail rs
    rw [requestsText_cons, List.length_cons, readRequests, List.map_cons, List.forall_mem_cons,
      ← ih]
    constructor
    · intro h
      obtain ⟨⟨a, s⟩, hr, h⟩ := Option.bind_eq_some_iff.1 h
      obtain ⟨reqs, hreqs, h⟩ := Option.bind_eq_some_iff.1 h
      obtain ⟨rfl, rfl⟩ := List.cons.inj (Option.some.inj h)
      have hfits := RequestText.fits_of_read_request hrest hr
      obtain ⟨-, rfl⟩ := Prod.mk.inj
        (Option.some.inj (hr.symm.trans (RequestText.read_request_fits hfits hrest)))
      exact ⟨hfits, hreqs⟩
    · rintro ⟨hfits, hreqs⟩
      rw [RequestText.read_request_fits hfits hrest]
      simp only [Option.bind_eq_bind, Option.bind_some, hreqs]

/-- The requests are read back, in order and with nothing else, exactly if no keywords and no
genres of theirs have more than `254` characters, whatever blanks and newlines stand between the
parts. -/
theorem requests_read_back_iff {count : Bytes} (hcount : Numeral count rs.length)
    (hmax : rs.length ≤ MAX_REQ) (htail : ∀ c ∈ tail.head?, isspace c) :
    initializeRequests (count ++ requestsText rs tail) = some (rs.map RequestText.asked) ↔
      ∀ r ∈ rs, r.keywords.length ≤ 254 ∧ r.genresText.length ≤ 254 := by
  have hnumber : scanNumber (count ++ requestsText rs tail) =
      some ((rs.length : ℤ), requestsText rs tail) := by
    exact @scanNumber_numeral [] count _ _ (by simp) hcount fun c hc =>
      isdigit_of_isspace (requestsText_head? htail rs c hc)
  have hstore : storeD rs.length = rs.length := by
    unfold MAX_REQ at hmax
    rw [storeD, int32_eq (by unfold IsInt; omega)]
    omega
  unfold initializeRequests
  rw [hnumber]
  simp only [hstore]
  rw [if_pos (by omega), Int.toNat_natCast]
  exact readRequests_iff htail rs

end Requests

theorem length_zeros : (List.replicate 19 [(48 : UInt8)]).length = NUM_OF_GENRE :=
  rfl

theorem zeros_ne : ∀ s ∈ List.replicate 19 [(48 : UInt8)], s ≠ [] := by
  decide

/-- A request for all movies, with no genre. -/
def anyMovie (keywords : ℕ) : RequestText where
  idText := [55]
  id := 7
  keywords := List.replicate (keywords + 1) 42
  numerals := List.replicate 19 [48]
  beforeId := [10]
  beforeKeywords := [32]
  beforeGenres := [32]
  numeral := @Numeral.plain [55] (by decide) (by simp [isdigit])
  isInt := by decide
  keywords_ne := by simp
  keywords_chars c hc := by
    rw [List.eq_of_mem_replicate hc]
    decide
  length := length_zeros
  numerals_ne := zeros_ne
  numerals_chars s hs c hc := by
    rw [List.eq_of_mem_replicate hs, List.mem_singleton] at hc
    rw [hc]
    decide
  blanks := by simp [isspace]

theorem requests_read_back_two :
    initializeRequests ([50] ++ requestsText [anyMovie 0, anyMovie 2] [10]) =
        some [(anyMovie 0).asked, (anyMovie 2).asked] ∧
      initializeRequests ([50] ++ requestsText [anyMovie 254, anyMovie 0] [10]) ≠
        some [(anyMovie 254).asked, (anyMovie 0).asked] := by
  have hcount : Numeral [50] 2 := @Numeral.plain [50] (by decide) (by simp [isdigit])
  have htail : ∀ c ∈ [(10 : UInt8)].head?, isspace c := by simp [isspace]
  refine ⟨(@requests_read_back_iff [anyMovie 0, anyMovie 2] [10] [50] hcount (by decide)
    htail).2 (by decide), fun h => ?_⟩
  have hfits := (@requests_read_back_iff [anyMovie 254, anyMovie 0] [10] [50] hcount (by decide)
    htail).1 h (anyMovie 254) List.mem_cons_self
  have hlength : (anyMovie 254).keywords.length = 255 := List.length_replicate
  omega

end SP2022.Recommendation
