import SP2022.BookingTable

/-!
# Line framing

`handle_read` takes what one `read` gives for one line. It keeps nothing for the next read,
drops what follows the first line, and ends the process if there is no line
(`server_eq_none_iff`). A stream of lines comes through exactly if it is cut after the lines
(`Whole`), but for one place : the `CR` of an empty line may arrive behind the line before
it, where it is dropped (`framing_iff`). Two ways of cutting a stream are not told apart
exactly if both are such (`segmentation_iff`).
-/

namespace SP2022.Booking

/-! ## One read -/

/-- A line without the `CR` of its terminator. -/
def chomp (s : Bytes) : Bytes :=
  if s.getLast? = some 13 then s.dropLast else s

theorem strstr_lf {u : Bytes} (hu : 10 ∉ u) (v : Bytes) :
    strstr [10] (u ++ 10 :: v) = some u.length := by
  induction u with
  | nil => simp [strstr]
  | cons c u ih =>
    obtain ⟨hc, hu⟩ := not_or.1 fun h => hu (List.mem_cons.2 h)
    rw [List.cons_append, strstr, ih hu]
    simp [List.isPrefixOf, hc]

theorem strstr_crlf {u v : Bytes} (hu : 10 ∉ u) (hv : 10 ∉ v) : strstr [13, 10] (u ++ 10 :: v) =
    if u.getLast? = some 13 then some (u.length - 1) else none := by
  induction u with
  | nil =>
    have hnone : strstr [13, 10] v = none := Option.not_isSome_iff_eq_none.1 fun h =>
      hv (((strstr_isSome_iff _ _).1 h).subset (by simp))
    simp [strstr, List.isPrefixOf, hnone]
  | cons c u ih =>
    obtain ⟨hc, hu⟩ := not_or.1 fun h => hu (List.mem_cons.2 h)
    rw [List.cons_append, strstr, ih hu]
    cases u with
    | nil =>
      by_cases h13 : c = 13
      · subst h13
        rfl
      · simp [List.isPrefixOf, h13, Ne.symm h13]
    | cons d u =>
      obtain ⟨hd, -⟩ := not_or.1 fun h => hu (List.mem_cons.2 h)
      rw [List.getLast?_cons_cons]
      simp [List.isPrefixOf, hd]

/-- A read with one `LF` gives the line before it. -/
theorem handle_read_line {u v : Bytes} (hu : 10 ∉ u) (hv : 10 ∉ v) (h0 : 0 ∉ u ++ 10 :: v) :
    handle_read (some (u ++ 10 :: v)) = .line (chomp u) := by
  have hbuf : cstring (u ++ 10 :: v) = u ++ 10 :: v := List.append_nil (u ++ 10 :: v) ▸
    cstring_append h0 []
  have hne : ∃ c cs, u ++ 10 :: v = c :: cs := by
    cases u with
    | nil => exact ⟨_, _, rfl⟩
    | cons c u => exact ⟨_, _, rfl⟩
  obtain ⟨c, cs, hcs⟩ := hne
  rw [hcs] at hbuf ⊢
  unfold handle_read chomp
  simp only [hbuf]
  rw [← hcs, strstr_crlf hu hv, strstr_lf hu]
  by_cases h13 : u.getLast? = some 13
  · simp only [if_pos h13]
    rw [List.take_append_of_le_length (Nat.sub_le _ _), List.dropLast_eq_take]
  · simp only [if_neg h13]
    rw [List.take_left]

/-- What gives a line has an `LF`. -/
theorem lf_mem_of_line {c buf : Bytes} (h : handle_read (some c) = .line buf) : 10 ∈ c := by
  have hsub : ∀ {pat : Bytes} {p}, strstr pat (cstring c) = some p → 10 ∈ pat → 10 ∈ c :=
    fun hp h10 => List.takeWhile_subset _
      (((strstr_isSome_iff _ _).1 (Option.isSome_of_eq_some hp)).subset h10)
  unfold handle_read at h
  split at h
  · cases h
  · cases h
  · rename_i heq
    obtain rfl := Option.some.inj heq
    simp only at h
    split at h
    · rename_i hp
      exact hsub hp (by simp)
    · split at h
      · rename_i hp
        exact hsub hp (by simp)
      · split_ifs at h

theorem handle_read_ne_failed (c : Bytes) : handle_read (some c) ≠ .failed := by
  unfold handle_read
  split
  · rename_i heq
    cases heq
  · simp
  · simp only
    split
    · simp
    · split
      · simp
      · split_ifs <;> simp

/-- A line has no `NUL`. -/
theorem zero_notMem_line {chunk : Option Bytes} {buf : Bytes} (h : handle_read chunk = .line buf) :
    0 ∉ buf := by
  unfold handle_read at h
  split at h
  · simp at h
  · simp at h
  · simp only at h
    split at h
    · obtain rfl := ReadResult.line.inj h
      exact fun h0 => zero_notMem_cstring _ (List.mem_of_mem_take h0)
    · split at h
      · obtain rfl := ReadResult.line.inj h
        exact fun h0 => zero_notMem_cstring _ (List.mem_of_mem_take h0)
      · split_ifs at h

/-! ## What `main` does with it -/

/-- A line goes to the request logic. -/
theorem handle_line {kind : Kind} {setlk : Flock → Bool} {file : File} {s : Server} {i : ℕ}
    {chunk : Option Bytes} {buf : Bytes} {o : Outcome} (hline : handle_read chunk = .line buf)
    (h : handle kind setlk file (.read i chunk) s = some o) :
    o = line kind setlk file i (s.noteLine i buf) := by
  unfold handle at h
  simp only at h
  split_ifs at h
  rw [hline] at h
  exact (Option.some.inj h).symm

/-- The request logic does not end the process. -/
theorem isSome_line (kind : Kind) (setlk : Flock → Bool) (file : File) (i : ℕ) (s : Server) :
    (line kind setlk file i s).server.isSome := by
  cases kind with
  | read =>
    unfold line
    simp only
    split_ifs <;> rfl
  | write =>
    unfold line
    simp only
    split_ifs
    · rfl
    · unfold command
      dsimp only
      split
      · rfl
      · split <;> rfl

/-- A read ends the process exactly if it has no line in it and is no `Ctrl-C`. -/
theorem server_eq_none_iff {kind : Kind} {setlk : Flock → Bool} {file : File} {s : Server}
    {i : ℕ} {chunk : Option Bytes} {o : Outcome}
    (h : handle kind setlk file (.read i chunk) s = some o) :
    o.server = none ↔ handle_read chunk = .exit := by
  cases hread : handle_read chunk with
  | line buf =>
    have hsome := isSome_line kind setlk file i (s.noteLine i buf)
    rw [← handle_line hread h] at hsome
    simp [Option.isSome_iff_ne_none.1 hsome]
  | failed | eof | exit =>
    unfold handle at h
    simp only [hread] at h
    split_ifs at h
    obtain rfl := Option.some.inj h
    simp

/-! ## The reads of a connection -/

/-- What `main` makes of the reads of a connection : the lines that the request logic gets, and
whether the process ends. -/
def framing : List Bytes → List Bytes × Bool
  | [] => ([], false)
  | c :: cs =>
    match handle_read (some c) with
    | .line buf => (buf :: (framing cs).1, (framing cs).2)
    | .failed => framing cs
    | .eof => ([], false)
    | .exit => ([], true)

/-- A complete line of a stream, with `CR LF` or `LF` behind it. -/
structure Line where
  body : Bytes
  crlf : Bool
  no_lf : 10 ∉ body
  no_nul : 0 ∉ body
  no_cr : crlf = false → body.getLast? ≠ some 13

namespace Line

/-- The line before its `LF`. -/
def text (l : Line) : Bytes :=
  if l.crlf then l.body ++ [13] else l.body

/-- The bytes that are sent. -/
def bytes (l : Line) : Bytes :=
  l.text ++ [10]

theorem lf_notMem_text (l : Line) : 10 ∉ l.text := by
  unfold text
  split_ifs
  · simp [l.no_lf]
  · exact l.no_lf

theorem chomp_text (l : Line) : chomp l.text = l.body := by
  unfold text chomp
  cases hcr : l.crlf with
  | true => simp
  | false => simp [l.no_cr hcr]

end Line

/-- The bytes of these lines. -/
def stream (ls : List Line) : Bytes :=
  (ls.map Line.bytes).flatten

theorem zero_notMem_stream (ls : List Line) : 0 ∉ stream ls := by
  intro h
  obtain ⟨s, hs, h0⟩ := List.mem_flatten.1 h
  obtain ⟨l, -, rfl⟩ := List.mem_map.1 hs
  unfold Line.bytes Line.text at h0
  split_ifs at h0 <;> simp [l.no_nul] at h0

theorem stream_cons (l : Line) (ls : List Line) :
    stream (l :: ls) = l.text ++ 10 :: stream ls := by
  simp [stream, Line.bytes]

theorem count_stream (ls : List Line) : (stream ls).count 10 = ls.length := by
  induction ls with
  | nil => rfl
  | cons l ls ih =>
    rw [stream_cons, List.count_append, List.count_eq_zero.2 l.lf_notMem_text,
      List.count_cons_self, ih, List.length_cons, zero_add]

/-- A way of cutting a stream into reads of `1` to `511` bytes. -/
structure Cut (s : Bytes) (cs : List Bytes) : Prop where
  flatten : cs.flatten = s
  size : ∀ c ∈ cs, 1 ≤ c.length ∧ c.length ≤ 511

/-- Every read ends behind its only `LF`, or a byte later, at the `CR` of an empty line. -/
def Whole : List Bytes → Prop
  | [] => True
  | c :: cs => (c.dropWhile (· ≠ 10) = [10] ∨
      c.dropWhile (· ≠ 10) = [10, 13] ∧ cs.flatten.head? = some 10) ∧ Whole cs

instance decidableWhole : (cs : List Bytes) → Decidable (Whole cs)
  | [] => inferInstanceAs (Decidable True)
  | _ :: cs =>
    have := decidableWhole cs
    inferInstanceAs (Decidable (_ ∧ _))

/-- The lines that come through are no more than the `LF`s. -/
theorem length_framing_le (cs : List Bytes) : (framing cs).1.length ≤ cs.flatten.count 10 := by
  induction cs with
  | nil => exact le_rfl
  | cons c cs ih =>
    rw [List.flatten_cons, List.count_append, framing]
    cases hread : handle_read (some c) with
    | line buf =>
      have hpos := List.count_pos_iff.2 (lf_mem_of_line hread)
      simp only [List.length_cons]
      omega
    | failed =>
      simp only
      omega
    | eof => exact Nat.zero_le _
    | exit => exact Nat.zero_le _

theorem length_framing_cons_le (c : Bytes) (cs : List Bytes) :
    (framing (c :: cs)).1.length ≤ (framing cs).1.length + 1 := by
  rw [framing]
  cases handle_read (some c) with
  | line buf => exact le_rfl
  | failed => exact Nat.le_succ _
  | eof => exact Nat.zero_le _
  | exit => exact Nat.zero_le _

/-- A carried `CR` is lost without harm before an empty line only. -/
theorem chomp_append_iff (p u : Bytes) :
    chomp u = chomp (p ++ u) ↔ p = [] ∨ p = [13] ∧ u = [] := by
  rcases List.eq_nil_or_concat u with rfl | ⟨u, c, rfl⟩
  · rcases List.eq_nil_or_concat p with rfl | ⟨p, d, rfl⟩
    · simp
    · by_cases hd : d = 13
      · simp [chomp, hd]
      · have hne : p ++ [d] ≠ [13] := fun h => hd (by simpa using congrArg List.getLast? h)
        simp [chomp, hd, hne]
  · by_cases hc : c = 13
    · simp [chomp, hc, ← List.append_assoc]
    · simp [chomp, hc, ← List.append_assoc]

theorem dropWhile_lf {u : Bytes} (hu : 10 ∉ u) (v : Bytes) :
    (u ++ 10 :: v).dropWhile (· ≠ 10) = 10 :: v := by
  have hne : ∀ c ∈ u, decide (c ≠ 10) = true := fun c hc => decide_eq_true fun h => hu (h ▸ hc)
  rw [List.dropWhile_append_of_pos hne]
  rfl

/-- There is one way to end a string at its first `LF`. -/
theorem append_lf_inj {u u' v v' : Bytes} (hu : 10 ∉ u) (hu' : 10 ∉ u')
    (h : u ++ 10 :: v = u' ++ 10 :: v') : u = u' ∧ v = v' := by
  have hdrop := congrArg (List.dropWhile (· ≠ 10)) h
  rw [dropWhile_lf hu, dropWhile_lf hu'] at hdrop
  rw [hdrop] at h
  exact ⟨List.append_cancel_right h, List.tail_eq_of_cons_eq hdrop⟩

/-- A stream whose first bytes `p`, no complete line, were read before. -/
theorem framing_carry {cs : List Bytes} (hcs : ∀ c ∈ cs, c ≠ []) {p : Bytes} (hp : 10 ∉ p)
    {ls : List Line} (h : p ++ cs.flatten = stream ls) :
    framing cs = (ls.map Line.body, false) ↔
      (p = [] ∨ p = [13] ∧ cs.flatten.head? = some 10) ∧ Whole cs := by
  induction cs generalizing p ls with
  | nil =>
    rw [List.flatten_nil, List.append_nil] at h
    have hls : ls = [] := by
      rw [← List.length_eq_zero_iff, ← count_stream, ← h]
      exact List.count_eq_zero.2 hp
    subst hls
    exact iff_of_true rfl ⟨Or.inl h, trivial⟩
  | cons c cs ih =>
    obtain ⟨hc, htail⟩ := List.forall_mem_cons.1 hcs
    rw [List.flatten_cons] at h
    have h0 : 0 ∉ c := fun h0 => zero_notMem_stream ls (h ▸ by simp [h0])
    cases ls with
    | nil =>
      have hnil : p ++ (c ++ cs.flatten) = [] := h
      simp [hc] at hnil
    | cons l ls =>
      rw [stream_cons] at h
      by_cases hlf : 10 ∈ c
      · obtain ⟨u, v, rfl, hu⟩ := List.eq_append_cons_of_mem hlf
        have hpu : 10 ∉ p ++ u := fun h => (List.mem_append.1 h).elim hp hu
        obtain ⟨htext, hrest⟩ := append_lf_inj (v := v ++ cs.flatten) hpu l.lf_notMem_text
          (by rw [← h]; simp)
        rw [Whole, dropWhile_lf hu]
        by_cases hv : 10 ∈ v
        · -- two `LF`s in one read : one line too few comes through
          refine iff_of_false (fun heq => ?_) ?_
          · have hle := length_framing_le cs
            have hlen := congrArg (fun r => r.1.length) heq
            have hcount := congrArg (List.count 10) hrest
            have hpos := List.count_pos_iff.2 hv
            rw [count_stream, List.count_append] at hcount
            have hcons := length_framing_cons_le (u ++ 10 :: v) cs
            simp only [List.length_map, List.length_cons] at hlen
            omega
          · rintro ⟨-, h | h, -⟩
            · simp [(List.cons.inj h).2] at hv
            · simp [(List.cons.inj h.1).2] at hv
        · have hhead : ((u ++ 10 :: v) :: cs).flatten.head? = some 10 ↔ u = [] := by
            cases u with
            | nil => simp
            | cons d u => simpa [eq_comm] using fun hd : d = 10 => hu (hd ▸ List.mem_cons_self)
          rw [hhead, ← chomp_append_iff, htext, l.chomp_text, framing, handle_read_line hu hv h0]
          have hih := ih htail hv hrest
          simp only [List.map_cons, Prod.mk.injEq, List.cons.injEq, true_and]
          rw [and_assoc, ← Prod.mk.injEq, hih]
      · refine iff_of_false (fun heq => ?_) fun hwhole => ?_
        · rw [framing] at heq
          cases hread : handle_read (some c) with
          | line buf => exact hlf (lf_mem_of_line hread)
          | failed => exact handle_read_ne_failed c hread
          | eof => simp [hread] at heq
          | exit => simp [hread] at heq
        · have hnil : c.dropWhile (· ≠ 10) = [] :=
            List.dropWhile_eq_nil_iff.2 fun d hd => decide_eq_true fun h => hlf (h ▸ hd)
          rw [Whole, hnil] at hwhole
          simp at hwhole

/-- A way of cutting a stream of lines lets all of them come through, and the process goes on,
exactly if every read ends with its line. -/
theorem framing_iff {ls : List Line} {cs : List Bytes} (h : Cut (stream ls) cs) :
    framing cs = (ls.map Line.body, false) ↔ Whole cs := by
  have hne : ∀ c ∈ cs, c ≠ [] := fun c hc hnil => by
    have := (h.size c hc).1
    simp [hnil] at this
  have hiff := framing_carry hne (p := []) (by simp) h.flatten
  rw [hiff]
  simp

/-- Two ways of cutting a stream of lines give the same lines, those of the stream, and the
process goes on, exactly if in both every read ends with its line. -/
theorem segmentation_iff {ls : List Line} {cs cs' : List Bytes} (h : Cut (stream ls) cs)
    (h' : Cut (stream ls) cs') :
    ((framing cs).1 = (framing cs').1 ∧ (framing cs).1 = ls.map Line.body ∧
        (framing cs).2 = false ∧ (framing cs').2 = false) ↔ Whole cs ∧ Whole cs' := by
  rw [← framing_iff h, ← framing_iff h', Prod.ext_iff, Prod.ext_iff]
  constructor
  · rintro ⟨heq, hbody, hgo, hgo'⟩
    exact ⟨⟨hbody, hgo⟩, heq ▸ hbody, hgo'⟩
  · rintro ⟨⟨hbody, hgo⟩, hbody', hgo'⟩
    exact ⟨hbody.trans hbody'.symm, hbody, hgo, hgo'⟩

/-- The line `902003`, with `LF`. -/
def idOnly : Line :=
  ⟨[57, 48, 50, 48, 48, 51], false, by decide, by decide, by decide⟩

/-- Two lines and an empty one with `CR LF`, in reads of whole lines and with the `CR` of the
last line in the second read. -/
theorem segmentation_three :
    ((framing [idOnly.bytes, idOnly.bytes, [13, 10]]).1 =
          (framing [idOnly.bytes, idOnly.bytes ++ [13], [10]]).1 ∧
        (framing [idOnly.bytes, idOnly.bytes, [13, 10]]).1 = [idOnly.body, idOnly.body, []] ∧
        (framing [idOnly.bytes, idOnly.bytes, [13, 10]]).2 = false ∧
        (framing [idOnly.bytes, idOnly.bytes ++ [13], [10]]).2 = false) ↔
      Whole [idOnly.bytes, idOnly.bytes, [13, 10]] ∧
        Whole [idOnly.bytes, idOnly.bytes ++ [13], [10]] :=
  @segmentation_iff [idOnly, idOnly, ⟨[], true, by decide, by decide, by decide⟩] _ _
    ⟨by decide, by decide⟩ ⟨by decide, by decide⟩

/-- A line in two reads ends the process, and of two lines in one read one is lost. -/
theorem segmentation_seen :
    Cut (stream [idOnly, idOnly]) [[57, 48, 50], [48, 48, 51, 10] ++ idOnly.bytes] ∧
    framing [[57, 48, 50], [48, 48, 51, 10] ++ idOnly.bytes] = ([], true) ∧
    Cut (stream [idOnly, idOnly]) [idOnly.bytes ++ idOnly.bytes] ∧
    framing [idOnly.bytes ++ idOnly.bytes] = ([idOnly.body], false) :=
  ⟨⟨by decide, by decide⟩, by decide, ⟨by decide, by decide⟩, by decide⟩

end SP2022.Booking
