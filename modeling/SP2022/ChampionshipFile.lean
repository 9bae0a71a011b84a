import Mathlib.Data.Vector.Basic
import Mathlib.Data.List.Infix
import SP2022.Libc

/-!
# Reading a player's line

A player reads `player_status.txt` byte by byte into `buf`, one line over the other, up to its
own. `read` leaves the byte under `ptr` alone at the end of the file, so a last line without
a newline stops only at one that `buf` had before (`scan_eof`). What `buf` had is `stale`, from
the lines before and the first contents, and `status_line_iff` says when the line is read.
-/

namespace SP2022.Championship

/-- The characters of `player_status.txt` that are still unread, and `buf`. -/
structure Reader where
  file : Bytes
  buf : Vector UInt8 80

/-- `read(fd, ptr, 1)`, which reads nothing at the end of the file. A pointer that has left
`buf` is `none`. -/
def Reader.read (r : Reader) (ptr : ℕ) : Option Reader :=
  if h : ptr < 80 then
    match r.file with
    | [] => some r
    | c :: file => some ⟨file, r.buf.set ptr c⟩
  else none

/-- The loop to the newline, from `ptr` on, and the `NUL` after it. -/
def Reader.scan (r : Reader) (ptr : ℕ) : Option Reader :=
  if h : ptr < 80 then
    if r.buf[ptr] ≠ 10 then
      (r.read (ptr + 1)).bind fun r => r.scan (ptr + 1)
    else if h : ptr + 1 < 80 then some { r with buf := r.buf.set (ptr + 1) 0 }
    else none
  else none
termination_by 80 - ptr

/-- A turn of the loop over `i`. -/
def Reader.readLine (r : Reader) : Option Reader :=
  (r.read 0).bind fun r => r.scan 0

/-- The loop over `i`, from `i` turns before its end. -/
def Reader.readLines (r : Reader) : ℕ → Option Reader
  | 0 => some r
  | i + 1 => r.readLine.bind fun r => r.readLines i

theorem readLines_one (r : Reader) : r.readLines 1 = r.readLine := by
  simp [Reader.readLines]

/-! ## `buf` -/

/-- `buf` with some bytes over its start. -/
def typed (b : Vector UInt8 80) (s : Bytes) : Vector UInt8 80 :=
  Vector.ofFn fun q : Fin 80 => s[q.1]?.getD b[q]

section Typed

variable {b : Vector UInt8 80} {s l : Bytes} {c : UInt8}

theorem getElem_typed {q : ℕ} (h : q < 80) : (typed b s)[q] = s[q]?.getD b[q] := by
  simp [typed]

theorem typed_nil : typed b [] = b := by
  ext q h
  simp [getElem_typed h]

theorem typed_set (h : s.length < 80) : (typed b s).set s.length c = typed b (s ++ [c]) := by
  ext q hq
  rw [Vector.getElem_set, getElem_typed hq, getElem_typed hq]
  rcases lt_trichotomy q s.length with hlt | rfl | hgt
  · rw [if_neg (by omega), List.getElem?_append_left hlt]
  · simp
  · rw [if_neg (by omega), List.getElem?_eq_none (by omega), List.getElem?_eq_none (by simp; omega)]

end Typed

/-- The line is in `buf`, with its newline and a `NUL`, or with a `NUL`. -/
structure Holds (b : Vector UInt8 80) (text : Bytes) : Prop where
  characters : ∀ (q : ℕ) (h : q < text.length), b[q]? = some text[q]
  terminator : (b[text.length]? = some 10 ∧ b[text.length + 1]? = some 0) ∨
    b[text.length]? = some 0

/-! ## Lines of the file -/

section Scan

variable {b : Vector UInt8 80} {file s l : Bytes} {r : Reader}

/-- The characters before the newline. -/
theorem read_scan_chars (hl : 10 ∉ l) (hfit : s.length + l.length < 80) :
    ((Reader.mk (l ++ file) (typed b s)).read s.length).bind (·.scan s.length) =
      ((Reader.mk file (typed b (s ++ l))).read (s ++ l).length).bind
        (·.scan (s ++ l).length) := by
  induction l generalizing s with
  | nil => simp
  | cons c l ih =>
    obtain ⟨hc, hl⟩ := not_or.1 (mt List.mem_cons.2 hl)
    simp only [List.length_cons] at hfit
    have hscan : Reader.scan ⟨l ++ file, typed b (s ++ [c])⟩ s.length =
        ((Reader.mk (l ++ file) (typed b (s ++ [c]))).read (s ++ [c]).length).bind
          (·.scan (s ++ [c]).length) := by
      rw [Reader.scan, dif_pos (by omega), if_pos]
      · simp
      · rw [getElem_typed]
        simpa using Ne.symm hc
    have hread : (Reader.mk (c :: l ++ file) (typed b s)).read s.length =
        some ⟨l ++ file, typed b (s ++ [c])⟩ := by
      rw [Reader.read, dif_pos (by omega)]
      simp only [List.cons_append, typed_set (by omega : s.length < 80)]
    rw [hread, Option.bind_some, hscan, ih hl (by simp; omega)]
    simp

/-- A line that ends with a newline. -/
theorem readLine_newline (hl : 10 ∉ l) (hfit : l.length ≤ 77) :
    (Reader.mk (l ++ 10 :: file) b).readLine = some ⟨file, typed b (l ++ [10, 0])⟩ := by
  have hchars := @read_scan_chars b (10 :: file) [] l hl (by simp; omega)
  rw [typed_nil] at hchars
  have hread : (Reader.mk (10 :: file) (typed b l)).read l.length =
      some ⟨file, typed b (l ++ [10])⟩ := by
    rw [Reader.read, dif_pos (by omega)]
    simp only [typed_set (by omega : l.length < 80)]
  refine hchars.trans ?_
  simp only [List.nil_append, hread, Option.bind_some]
  rw [Reader.scan, dif_pos (by omega), if_neg, dif_pos (by omega)]
  · have hset := @typed_set b (l ++ [10]) 0 (by simp; omega)
    simp only [List.length_append, List.length_singleton, List.append_assoc] at hset
    simp only [hset]
    rfl
  · rw [getElem_typed]
    simp

/-- At the end of the file nothing more is read. -/
theorem read_scan_eof (ptr : ℕ) :
    ((Reader.mk [] b).read ptr).bind (·.scan ptr) = Reader.scan ⟨[], b⟩ ptr := by
  rw [Reader.read]
  split_ifs with h
  · rfl
  · rw [Reader.scan, dif_neg h]
    rfl

/-- The loop goes on to the next newline that `buf` has. -/
theorem scan_eof {ptr : ℕ} : Reader.scan ⟨[], b⟩ ptr = some r ↔
    ∃ p, ptr ≤ p ∧ (∀ q, ptr ≤ q → q < p → b[q]? ≠ some 10) ∧ b[p]? = some 10 ∧
      ∃ h : p + 1 < 80, r = ⟨[], b.set (p + 1) 0⟩ := by
  induction hn : 80 - ptr generalizing ptr with
  | zero =>
    rw [Reader.scan, dif_neg (by omega)]
    constructor
    · intro h
      cases h
    · rintro ⟨p, hp, -, -, h, -⟩
      omega
  | succ n ih =>
    have hptr : ptr < 80 := by omega
    have hget : b[ptr]? = some b[ptr] := Vector.getElem?_eq_getElem hptr
    rw [Reader.scan, dif_pos hptr]
    by_cases hten : b[ptr] = 10
    · rw [if_neg (not_not.2 hten)]
      constructor
      · intro h
        split_ifs at h with hroom
        exact ⟨ptr, le_rfl, fun q hq hq' => by omega, hget.trans (congrArg some hten), hroom,
          (Option.some.inj h).symm⟩
      · rintro ⟨p, hp, hbefore, -, hroom, rfl⟩
        obtain rfl : p = ptr := by
          by_contra hne
          exact hbefore ptr le_rfl (by omega) (hget.trans (congrArg some hten))
        rw [dif_pos hroom]
    · rw [if_pos hten, read_scan_eof, ih (by omega)]
      constructor
      · rintro ⟨p, hp, hbefore, h⟩
        refine ⟨p, by omega, fun q hq hq' => ?_, h⟩
        rcases eq_or_lt_of_le hq with rfl | hlt
        · rw [hget]
          exact mt Option.some.inj hten
        · exact hbefore q hlt hq'
      · rintro ⟨p, hp, hbefore, hp', h⟩
        have hne : p ≠ ptr := by
          rintro rfl
          exact hten (Option.some.inj (hget.symm.trans hp'))
        exact ⟨p, by omega, fun q hq => hbefore q (by omega), hp', h⟩

/-- The last line, without a newline. -/
theorem readLine_eof (hl : 10 ∉ l) (hfit : l.length ≤ 77) :
    (Reader.mk l b).readLine = Reader.scan ⟨[], typed b l⟩ l.length := by
  have hchars := @read_scan_chars b [] [] l hl (by simp; omega)
  rw [typed_nil, List.append_nil, List.nil_append, read_scan_eof] at hchars
  exact hchars

/-- `buf` after some lines that end with a newline. -/
def overlay (b : Vector UInt8 80) (lines : List Bytes) : Vector UInt8 80 :=
  lines.foldl (fun b text => typed b (text ++ [10, 0])) b

theorem readLines_newline (lines : List Bytes) (hlines : ∀ l ∈ lines, 10 ∉ l ∧ l.length ≤ 77)
    (i : ℕ) (b : Vector UInt8 80) :
    Reader.readLines ⟨(lines.map (· ++ [10])).flatten ++ file, b⟩ (lines.length + i) =
      Reader.readLines ⟨file, overlay b lines⟩ i := by
  induction lines generalizing b with
  | nil => simp [overlay]
  | cons text lines ih =>
    obtain ⟨hl, hfit⟩ := hlines text List.mem_cons_self
    rw [List.length_cons, Nat.add_right_comm, Reader.readLines, List.map_cons, List.flatten_cons,
      List.append_assoc, List.append_assoc, List.singleton_append, readLine_newline hl hfit,
      Option.bind_some, ih fun l h => hlines l (List.mem_cons_of_mem text h), overlay, overlay,
      List.foldl_cons]

end Scan

/-! ## The last line -/

/-- What some lines leave at a place of `buf` : the last one that reaches it, with its newline
and its `NUL`, has put a byte there, or none has. -/
def stale (b : Vector UInt8 80) (lines : List Bytes) (q : ℕ) : Option UInt8 :=
  match lines.reverse.find? fun text => q < text.length + 2 with
  | some text => (text ++ [10, 0])[q]?
  | none => b[q]?

theorem getElem?_overlay (b : Vector UInt8 80) (lines : List Bytes) {q : ℕ} (h : q < 80) :
    (overlay b lines)[q]? = stale b lines q := by
  induction lines using List.reverseRecOn with
  | nil => rfl
  | append_singleton lines text ih =>
    have hlast : overlay b (lines ++ [text]) = typed (overlay b lines) (text ++ [10, 0]) := by
      simp [overlay]
    rw [Vector.getElem?_eq_getElem h] at ih ⊢
    simp only [hlast, getElem_typed h, stale, List.reverse_append, List.reverse_singleton,
      List.singleton_append, List.find?_cons]
    by_cases hq : q < text.length + 2
    · rw [List.getElem?_eq_getElem (by simpa using hq)]
      simp [hq]
    · rw [List.getElem?_eq_none (by simpa using hq)]
      simpa [hq, stale] using ih

/-- The contents of `player_status.txt`. -/
def contents (lines : List Bytes) (ended : Bool) : Bytes :=
  let file := (lines.map (· ++ [10])).flatten
  if ended then file else file.dropLast

/-- The loops end with `ptr` in `buf` and the line in it. -/
def Reads (file : Bytes) (player_ID : ℕ) (b : Vector UInt8 80) (text : Bytes) : Prop :=
  ∃ r, Reader.readLines ⟨file, b⟩ (player_ID + 1) = some r ∧ Holds r.buf text

/-- `buf` has a newline behind the last line, at its end or after a `NUL` there. -/
def StaleNewline (b : Vector UInt8 80) (earlier : List Bytes) (text : Bytes) : Prop :=
  stale b earlier text.length = some 10 ∨
    (stale b earlier text.length = some 0 ∧
      ∃ p ≤ 78, text.length < p ∧ stale b earlier p = some 10)

instance (b : Vector UInt8 80) (earlier : List Bytes) (text : Bytes) :
    Decidable (StaleNewline b earlier text) :=
  inferInstanceAs (Decidable (_ ∨ (_ ∧ _)))

section Last

variable {b : Vector UInt8 80} {earlier : List Bytes} {text : Bytes}

theorem getElem?_typed_line {q : ℕ} (hq : q < text.length) (h : text.length ≤ 80) :
    (typed b text)[q]? = some text[q] := by
  rw [Vector.getElem?_eq_getElem (by omega), getElem_typed, List.getElem?_eq_getElem hq]
  rfl

theorem getElem?_typed_rest {q : ℕ} (hq : text.length ≤ q) : (typed b text)[q]? = b[q]? := by
  rcases Nat.lt_or_ge q 80 with h | h
  · rw [Vector.getElem?_eq_getElem h, Vector.getElem?_eq_getElem h, getElem_typed,
      List.getElem?_eq_none hq]
    rfl
  · rw [Vector.getElem?_eq_none h, Vector.getElem?_eq_none h]

/-- The line is in `buf` if the loop ends at a newline, its first one from the end of the line
on. -/
theorem holds_set_iff {p : ℕ} (hp : text.length ≤ p) (hroom : p + 1 < 80)
    (hbefore : ∀ q, text.length ≤ q → q < p → b[q]? ≠ some 10) (hten : b[p]? = some 10) :
    Holds ((typed b text).set (p + 1) 0) text ↔
      b[text.length]? = some 10 ∨ b[text.length]? = some 0 := by
  have hcharacters : ∀ (q : ℕ) (h : q < text.length),
      ((typed b text).set (p + 1) 0)[q]? = some text[q] := fun q h => by
    rw [Vector.getElem?_set_ne hroom (by omega), getElem?_typed_line h (by omega)]
  have hend : ((typed b text).set (p + 1) 0)[text.length]? = b[text.length]? := by
    rw [Vector.getElem?_set_ne hroom (by omega), getElem?_typed_rest le_rfl]
  rcases eq_or_lt_of_le hp with rfl | hlt
  · refine ⟨fun _ => Or.inl hten, fun _ => ⟨hcharacters, Or.inl ⟨hend.trans hten, ?_⟩⟩⟩
    exact Vector.getElem?_set_self hroom
  · have hne := hbefore text.length le_rfl hlt
    constructor
    · intro h
      rcases h.terminator with ⟨h, -⟩ | h
      · exact absurd (hend.symm.trans h) hne
      · exact Or.inr (hend.symm.trans h)
    · rintro (h | h)
      · exact absurd h hne
      · exact ⟨hcharacters, Or.inr (hend.trans h)⟩

/-- The first newline of `buf` from a place on, with room for a `NUL` behind it. -/
theorem exists_first_newline {n : ℕ} (h : ∃ p, n ≤ p ∧ p ≤ 78 ∧ b[p]? = some 10) :
    ∃ p, n ≤ p ∧ p ≤ 78 ∧ b[p]? = some 10 ∧ ∀ q, n ≤ q → q < p → b[q]? ≠ some 10 := by
  classical
  obtain ⟨hp, hp', hten⟩ := Nat.find_spec h
  exact ⟨Nat.find h, hp, hp', hten, fun q hq hq' h10 =>
    Nat.find_min h hq' ⟨hq, by omega, h10⟩⟩

/-- The loop at the end of the file keeps the line if and only if `buf` has a newline to stop
at. -/
theorem scan_holds_iff (hfit : text.length ≤ 77) :
    (∃ r, Reader.scan ⟨[], typed b text⟩ text.length = some r ∧ Holds r.buf text) ↔
    b[text.length]? = some 10 ∨
      (b[text.length]? = some 0 ∧ ∃ p ≤ 78, text.length < p ∧ b[p]? = some 10) := by
  have hrest : ∀ q, text.length ≤ q → (typed b text)[q]? = b[q]? :=
    fun q => getElem?_typed_rest
  constructor
  · rintro ⟨r, hr, hholds⟩
    obtain ⟨p, hp, hbefore, hten, hroom, rfl⟩ := scan_eof.1 hr
    rw [hrest p hp] at hten
    have hbefore' : ∀ q, text.length ≤ q → q < p → b[q]? ≠ some 10 := fun q hq hq' => by
      rw [← hrest q hq]
      exact hbefore q hq hq'
    refine ((holds_set_iff hp hroom hbefore' hten).1 hholds).imp_right fun h => ?_
    refine ⟨h, p, by omega, lt_of_le_of_ne hp ?_, hten⟩
    rintro rfl
    exact absurd (h.symm.trans hten) (by decide)
  · intro hstop
    have hex : ∃ p, text.length ≤ p ∧ p ≤ 78 ∧ b[p]? = some 10 := by
      rcases hstop with h | ⟨-, p, hp, hlt, h⟩
      · exact ⟨text.length, le_rfl, by omega, h⟩
      · exact ⟨p, hlt.le, hp, h⟩
    obtain ⟨p, hp, hp', hten, hbefore⟩ := exists_first_newline hex
    have hroom : p + 1 < 80 := by omega
    refine ⟨⟨[], (typed b text).set (p + 1) 0⟩, ?_, ?_⟩
    · refine scan_eof.2 ⟨p, hp, fun q hq hq' => ?_, ?_, hroom, rfl⟩
      · rw [hrest q hq]
        exact hbefore q hq hq'
      · rw [hrest p hp, hten]
    · exact (holds_set_iff hp hroom hbefore hten).2 (hstop.imp_right And.left)

/-- A last line without a newline is read if and only if `buf` has one to stop at. -/
theorem reads_eof_iff (hearlier : ∀ l ∈ earlier, 10 ∉ l ∧ l.length ≤ 77) (htext : 10 ∉ text)
    (hfit : text.length ≤ 77) :
    Reads ((earlier.map (· ++ [10])).flatten ++ text) earlier.length b text ↔
      StaleNewline b earlier text := by
  have hstale : ∀ q ≤ 78, (overlay b earlier)[q]? = stale b earlier q := fun q hq =>
    getElem?_overlay b earlier (by omega)
  unfold Reads StaleNewline
  rw [readLines_newline earlier hearlier, readLines_one, readLine_eof htext hfit,
    scan_holds_iff hfit, hstale _ (by omega)]
  refine or_congr_right (and_congr_right fun _ => exists_congr fun p => ?_)
  exact and_congr_right fun hp => by rw [hstale p hp]

/-- A line that ends with a newline is read. -/
theorem reads_newline {file : Bytes} (hearlier : ∀ l ∈ earlier, 10 ∉ l ∧ l.length ≤ 77)
    (htext : 10 ∉ text) (hfit : text.length ≤ 77) :
    Reads ((earlier.map (· ++ [10])).flatten ++ (text ++ 10 :: file)) earlier.length b text := by
  refine ⟨⟨file, typed (overlay b earlier) (text ++ [10, 0])⟩, ?_, fun q hq => ?_, Or.inl ⟨?_, ?_⟩⟩
  · rw [readLines_newline earlier hearlier, Reader.readLines, readLine_newline htext hfit]
    rfl
  · rw [getElem?_typed_line (by simp; omega) (by simp; omega), List.getElem_append_left hq]
  · rw [getElem?_typed_line (by simp) (by simp; omega)]
    simp
  · rw [getElem?_typed_line (by simp) (by simp; omega)]
    simp

end Last

/-- When the loops end with the line of the player in `buf` : the line has a newline, or `buf`
has one in the right place from earlier lines or from before them. -/
theorem status_line_iff {lines : List Bytes} (hlines : ∀ l ∈ lines, 10 ∉ l ∧ l.length ≤ 77)
    (ended : Bool) {player_ID : ℕ} (h : player_ID < lines.length) (b : Vector UInt8 80) :
    Reads (contents lines ended) player_ID b lines[player_ID] ↔
      player_ID + 1 < lines.length ∨ ended = true ∨
        StaleNewline b (lines.take player_ID) lines[player_ID] := by
  obtain ⟨htext, hfit⟩ := hlines _ (List.getElem_mem h)
  have hearlier : ∀ l ∈ lines.take player_ID, 10 ∉ l ∧ l.length ≤ 77 :=
    fun l hl => hlines l (List.mem_of_mem_take hl)
  have hlength : (lines.take player_ID).length = player_ID := by simp; omega
  have hsplit : lines = lines.take player_ID ++ lines[player_ID] :: lines.drop (player_ID + 1) := by
    simp
  have hfile : (lines.map (· ++ [10])).flatten =
      ((lines.take player_ID).map (· ++ [10])).flatten ++ (lines[player_ID] ++
        10 :: ((lines.drop (player_ID + 1)).map (· ++ [10])).flatten) := by
    conv_lhs => rw [hsplit]
    rw [List.map_append, List.flatten_append, List.map_cons, List.flatten_cons, List.append_assoc,
      List.singleton_append]
  have hnewline : ∀ file, Reads (((lines.take player_ID).map (· ++ [10])).flatten ++
      (lines[player_ID] ++ 10 :: file)) player_ID b lines[player_ID] := fun file => by
    have hreads := @reads_newline b _ _ file hearlier htext hfit
    rwa [hlength] at hreads
  unfold contents
  rw [hfile]
  cases ended with
  | true =>
    simp only [if_true, true_or, or_true, iff_true]
    exact hnewline _
  | false =>
    simp only [Bool.false_eq_true, if_false, false_or]
    rw [List.dropLast_append_of_ne_nil (by simp), List.dropLast_append_of_ne_nil (by simp)]
    rcases Nat.lt_or_ge (player_ID + 1) lines.length with hlt | hge
    · have hne : ((lines.drop (player_ID + 1)).map (· ++ [(10 : UInt8)])).flatten ≠ [] := by
        rw [List.drop_eq_getElem_cons hlt, List.map_cons, List.flatten_cons]
        exact List.append_ne_nil_of_left_ne_nil (by simp) _
      rw [List.dropLast_cons_of_ne_nil hne]
      exact iff_of_true (hnewline _) (Or.inl hlt)
    · rw [List.drop_eq_nil_of_le hge]
      have hiff := @reads_eof_iff b _ _ hearlier htext hfit
      rw [hlength] at hiff
      simpa [hge.not_gt] using hiff

/-- The first two lines of the shipped file. -/
def firstLines : List Bytes :=
  [[55, 32, 50, 32, 70, 73, 82, 69, 32, 71, 32, 48],
    [56, 32, 51, 32, 71, 82, 65, 83, 83, 32, 71, 32, 48]]

theorem status_line_second : Reads (contents firstLines true) 1 (Vector.replicate 80 7)
    [56, 32, 51, 32, 71, 82, 65, 83, 83, 32, 71, 32, 48] :=
  (@status_line_iff firstLines (by decide) true 1 (by decide) _).2 (Or.inr (Or.inl rfl))

/-- Without the last newline the loop runs out of `buf`. -/
theorem status_line_lost : ¬Reads (contents firstLines false) 1 (Vector.replicate 80 0)
    [56, 32, 51, 32, 71, 82, 65, 83, 83, 32, 71, 32, 48] := by
  intro h
  have hstop := (@reads_eof_iff (Vector.replicate 80 0)
    [[55, 32, 50, 32, 70, 73, 82, 69, 32, 71, 32, 48]] _ (by decide) (by decide) (by decide)).1 h
  exact absurd hstop (by decide +kernel)

end SP2022.Championship
