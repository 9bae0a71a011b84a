import SP2022.BookingCommand
import SP2022.BookingNumbers

/-!
# The slots of `input`

`sscanf` writes the words of a command line into slots of eight bytes, one after the other,
and a slot is then read up to the next `NUL`. A word of at most seven characters is read as
itself. A longer one fills its slot, the next word takes the place of the rest, and its slot
is read on into the next one (`slot_scan`). So a server carries out the command that the words
of a line are, for all words of given lengths, exactly if the first two have at most seven
characters (`command_own_iff`).

Slots without a word keep the bytes of earlier commands. A command line does not depend on
them exactly if it has three words or one that is rejected (`command_fresh_iff`).
-/

namespace SP2022.Booking

/-! ## Memory -/

theorem getElem?_store (mem : Bytes) (addr : ℕ) (word : Bytes) (i : ℕ) :
    (store mem addr word)[i]? =
      if addr ≤ i ∧ i ≤ addr + word.length then
        mem[i]?.map fun _ => (word ++ [0]).getD (i - addr) 0
      else mem[i]? := by
  unfold store
  rw [List.getElem?_mapIdx]
  by_cases hi : i < mem.length
  · rw [List.getElem?_eq_getElem hi]
    split_ifs with h
    · have hlt : i - addr < (word ++ [0]).length := by
        rw [List.length_append, List.length_singleton]
        omega
      simp only [Option.map_some, List.getD_eq_getElem?_getD,
        List.getElem?_eq_getElem hlt, Option.getD_some]
    · simp only [Option.map_some]
  · simp [List.getElem?_eq_none (not_lt.1 hi)]

theorem length_store (mem : Bytes) (addr : ℕ) (word : Bytes) :
    (store mem addr word).length = mem.length :=
  List.length_mapIdx

/-- The words from the slot `k` on. -/
def scanFrom (k : ℕ) (ws : List Bytes) (mem : Bytes) : Bytes :=
  (ws.zipIdx k).foldl (fun mem w => store mem (8 * w.2) w.1) mem

theorem scanFrom_cons (k : ℕ) (w : Bytes) (ws : List Bytes) (mem : Bytes) :
    scanFrom k (w :: ws) mem = scanFrom (k + 1) ws (store mem (8 * k) w) :=
  rfl

theorem scan_eq (buf input : Bytes) :
    scan buf input = scanFrom 0 ((words buf).take OBJ_NUM) input :=
  rfl

theorem length_scanFrom (ws : List Bytes) : ∀ (k : ℕ) (mem : Bytes),
    (scanFrom k ws mem).length = mem.length := by
  induction ws with
  | nil => exact fun _ _ => rfl
  | cons w ws ih =>
    intro k mem
    rw [scanFrom_cons, ih, length_store]

/-- The words from the slot `k` on leave the slots before it. -/
theorem scanFrom_before (ws : List Bytes) : ∀ (k : ℕ) (mem : Bytes) {i : ℕ}, i < 8 * k →
    (scanFrom k ws mem)[i]? = mem[i]? := by
  induction ws with
  | nil => exact fun _ _ _ _ => rfl
  | cons w ws ih =>
    intro k mem i hi
    rw [scanFrom_cons, ih (k + 1) _ (by omega), getElem?_store, if_neg (by omega)]

/-- Short words leave the slots behind them. -/
theorem scanFrom_after (ws : List Bytes) : ∀ (k : ℕ) (mem : Bytes) {i : ℕ},
    (∀ w ∈ ws, w.length ≤ 7) → 8 * (k + ws.length) ≤ i → (scanFrom k ws mem)[i]? = mem[i]? := by
  induction ws with
  | nil => exact fun _ _ _ _ _ => rfl
  | cons w ws ih =>
    intro k mem i hshort hi
    rw [List.length_cons] at hi
    have hw := hshort w List.mem_cons_self
    rw [scanFrom_cons, ih (k + 1) _ (fun v hv => hshort v (List.mem_cons_of_mem w hv)) (by omega),
      getElem?_store, if_neg (by omega)]

/-- A slot starts with the first eight bytes of its word and the `NUL`. -/
theorem scanFrom_word (ws : List Bytes) : ∀ (k j : ℕ) (mem : Bytes) {w : Bytes} {i : ℕ},
    ws[j]? = some w → i < 8 → i ≤ w.length → 8 * (k + j) + i < mem.length →
    (scanFrom k ws mem)[8 * (k + j) + i]? = (w ++ [0])[i]? := by
  induction ws with
  | nil =>
    intro k j mem w i hw
    simp at hw
  | cons v ws ih =>
    intro k j mem w i hw hi hle hmem
    rw [scanFrom_cons]
    cases j with
    | zero =>
      obtain rfl := Option.some.inj hw
      have hlt : i < (v ++ [0]).length := by
        rw [List.length_append, List.length_singleton]
        omega
      have hidx : 8 * (k + 0) + i - 8 * k = i := by omega
      rw [scanFrom_before ws (k + 1) _ (by omega), getElem?_store, if_pos (by omega),
        List.getElem?_eq_getElem hmem, Option.map_some, hidx, List.getD_eq_getElem?_getD,
        List.getElem?_eq_getElem hlt, Option.getD_some]
    | succ j =>
      have hidx : 8 * (k + (j + 1)) + i = 8 * (k + 1 + j) + i := by omega
      rw [hidx] at hmem ⊢
      exact ih (k + 1) j _ hw hi hle (by rwa [length_store])

/-! ## Slots -/

/-- What is read from a slot with a word of a line, if `next` is what is read from the next
slot : a word of eight characters or more is cut, and read on there. -/
def readOn (word next : Bytes) : Bytes :=
  if word.length < 8 then word else word.take 8 ++ next

/-- The strings in the slots after the words `t`. -/
def overrun (t : Fin OBJ_NUM → Bytes) : Fin OBJ_NUM → Bytes :=
  ![readOn (t 0) (readOn (t 1) (t 2)), readOn (t 1) (t 2), t 2]

/-- `sscanf` writes no word of the line behind the end of `input`. -/
def FitsInput (line : Bytes) : Prop :=
  ∀ w ∈ ((words line).take OBJ_NUM).zipIdx, 8 * w.2 + w.1.length + 1 ≤ 24

instance (line : Bytes) : Decidable (FitsInput line) :=
  inferInstanceAs (Decidable (∀ w ∈ ((words line).take OBJ_NUM).zipIdx, _))

section Scan

variable {buf input : Bytes}

theorem slot_eq (mem : Bytes) (j : Fin OBJ_NUM) : slot mem j = cstring (mem.drop (8 * j)) :=
  rfl

/-- A word in a slot is read as itself, or read on in the next slot. -/
theorem cstring_scan (hinput : input.length = sizeofInput) (hbuf : 0 ∉ buf) {j : ℕ} {w : Bytes}
    (hw : ((words buf).take OBJ_NUM)[j]? = some w) :
    cstring ((scan buf input).drop (8 * j)) =
      readOn w (cstring ((scan buf input).drop (8 * (j + 1)))) := by
  have hmem : w ∈ words buf := List.mem_of_mem_take (List.mem_of_getElem? hw)
  have hnul : 0 ∉ w := fun h0 => hbuf (mem_of_mem_words hmem h0)
  have hj : j < OBJ_NUM := by
    have := (List.getElem?_eq_some_iff.1 hw).1
    rw [List.length_take] at this
    omega
  have hread : ∀ i, i < 8 → i ≤ w.length →
      ((scan buf input).drop (8 * j))[i]? = (w ++ [0])[i]? := by
    intro i hi hle
    have hbyte := scanFrom_word _ 0 j input hw hi hle (by
      rw [hinput]
      unfold sizeofInput
      omega)
    rw [zero_add] at hbyte
    rw [List.getElem?_drop, scan_eq, hbyte]
  unfold readOn
  split_ifs with hlen
  · have hpre : (w ++ [0]) <+: (scan buf input).drop (8 * j) := by
      refine List.prefix_iff_getElem?.2 fun i hi => ?_
      rw [List.length_append, List.length_singleton] at hi
      rw [hread i (by omega) (by omega), List.getElem?_eq_getElem]
    obtain ⟨rest, hrest⟩ := hpre
    rw [← hrest, List.append_assoc]
    exact cstring_append_zero hnul rest
  · have hpre : w.take 8 <+: (scan buf input).drop (8 * j) := by
      refine List.prefix_iff_getElem?.2 fun i hi => ?_
      rw [List.length_take] at hi
      rw [hread i (by omega) (by omega), List.getElem?_append_left (by omega),
        List.getElem_take, List.getElem?_eq_getElem]
    obtain ⟨rest, hrest⟩ := hpre
    have hlen8 : (w.take 8).length = 8 := by
      rw [List.length_take]
      omega
    have hdrop : rest = (scan buf input).drop (8 * (j + 1)) := by
      rw [show 8 * (j + 1) = 8 * j + 8 by omega, ← List.drop_drop, ← hrest,
        List.drop_left' hlen8]
    rw [← hrest, cstring_append fun h0 => hnul (List.mem_of_mem_take h0), hdrop]

/-- The strings in the slots. -/
theorem slot_scan {t : Fin OBJ_NUM → Bytes} (hinput : input.length = sizeofInput)
    (hbuf : 0 ∉ buf) (hwords : (words buf).take OBJ_NUM = List.ofFn t)
    (hfits : (t 2).length ≤ 7) (j : Fin OBJ_NUM) : slot (scan buf input) j = overrun t j := by
  have hword : ∀ j : Fin OBJ_NUM, ((words buf).take OBJ_NUM)[(j : ℕ)]? = some (t j) := by
    intro j
    rw [hwords, List.getElem?_ofFn, dif_pos j.isLt]
  have h2 : slot (scan buf input) 2 = t 2 := by
    rw [slot_eq, cstring_scan hinput hbuf (hword 2), readOn, if_pos (by omega)]
  have h1 : slot (scan buf input) 1 = readOn (t 1) (t 2) := by
    rw [slot_eq, cstring_scan hinput hbuf (hword 1)]
    exact congrArg _ h2
  have h0 : slot (scan buf input) 0 = readOn (t 0) (readOn (t 1) (t 2)) := by
    rw [slot_eq, cstring_scan hinput hbuf (hword 0)]
    exact congrArg _ h1
  match j with
  | 0 => exact h0
  | 1 => exact h1
  | 2 => exact h2

/-- A slot behind the words keeps what it holds. -/
theorem slot_behind (hshort : ∀ w ∈ words buf, w.length ≤ 7) {j : Fin OBJ_NUM}
    (hj : (words buf).length ≤ j) : slot (scan buf input) j = slot input j := by
  rw [slot_eq, slot_eq]
  refine congrArg cstring (List.ext_getElem? fun i => ?_)
  rw [List.getElem?_drop, List.getElem?_drop, scan_eq]
  refine scanFrom_after _ 0 input (fun w hw => hshort w (List.mem_of_mem_take hw)) ?_
  rw [List.length_take]
  omega

/-- A short word is what its slot holds. -/
theorem slot_word (hinput : input.length = sizeofInput) (hbuf : 0 ∉ buf)
    (hshort : ∀ w ∈ words buf, w.length ≤ 7) {j : Fin OBJ_NUM} (hj : j < (words buf).length) :
    slot (scan buf input) j = (words buf)[(j : ℕ)] := by
  have hw : ((words buf).take OBJ_NUM)[(j : ℕ)]? = some (words buf)[(j : ℕ)] := by
    rw [List.getElem?_take_of_lt j.isLt]
    exact List.getElem?_eq_getElem hj
  have hlen := hshort _ (List.getElem_mem hj)
  rw [slot_eq, cstring_scan hinput hbuf hw, readOn, if_pos (Nat.lt_succ_of_le hlen)]

end Scan

/-! ## The parameters of a command line -/

/-- The parameters that the words of a line ask for, unless one is rejected. -/
def ownParams (t : Fin OBJ_NUM → Bytes) : Option Counts :=
  if ∀ j, convert (t j) ≠ ERROR_NUM then some fun j => convert (t j) else none

theorem overrun_short {t : Fin OBJ_NUM → Bytes} (h : ∀ j, (t j).length ≤ 7) : overrun t = t := by
  have hread : ∀ j next, readOn (t j) next = t j := fun j next =>
    if_pos (Nat.lt_succ_of_le (h j))
  funext j
  match j with
  | 0 => exact hread 0 _
  | 1 => exact hread 1 _
  | 2 => rfl

theorem params_scan {buf input : Bytes} {t : Fin OBJ_NUM → Bytes}
    (hinput : input.length = sizeofInput) (hbuf : 0 ∉ buf) (hlast : (t 2).length ≤ 7)
    (hwords : (words buf).take OBJ_NUM = List.ofFn t) :
    params (scan buf input) = ownParams (overrun t) := by
  unfold params ownParams
  simp only [slot_scan hinput hbuf hwords hlast]

/-- What a command line does but for the server's memory. -/
def Outcome.seen (o : Outcome) : File × List Reply × List (ℤ × Counts) :=
  (o.file, o.replies, o.applied)

/-- What a command line with the words `t` should do to the record `k` : it is rejected if one
of the words is, and otherwise their three numbers are checked and added. -/
def ownCommand (file : File) (k : ℤ) (t : Fin OBJ_NUM → Bytes) :
    File × List Reply × List (ℤ × Counts) :=
  match ownParams t with
  | none => (file, [.failed], [])
  | some param =>
    match check param (file k).bookingState with
    | .error r => (file, [r], [])
    | .ok new => (fileAfter file k (.ok new), .updated (902001 + k) :: bookedLines new,
        [(k, param)])

section Own

variable {s : Server} {i : ℕ} {k : ℤ} {file : File} {t : Fin OBJ_NUM → Bytes}

/-- A server whose parameters are the numbers of the words does what it should. -/
theorem command_own (hid : (s.requestP i).id = 902001 + k)
    (h : params (scan (s.requestP i).buf s.input) = ownParams t) :
    (command file i s).seen = ownCommand file k t := by
  obtain ⟨-, hfile, hreplies⟩ := @command_eq file i s k hid
  have happlied := @command_applied file i s k hid
  rw [h] at hfile hreplies happlied
  unfold Outcome.seen ownCommand
  rw [hfile, hreplies, happlied]
  cases ownParams t with
  | none => rfl
  | some param =>
    simp only [result]
    cases check param (file k).bookingState <;> rfl

/-- What a command adds are the numbers in its slots. -/
theorem params_of_applied {param : Counts} (hid : (s.requestP i).id = 902001 + k)
    (h : (command file i s).applied = [(k, param)]) :
    params (scan (s.requestP i).buf s.input) = some param := by
  rw [command_applied hid] at h
  cases hparam : params (scan (s.requestP i).buf s.input) with
  | none => simp [hparam] at h
  | some param' =>
    simp only [hparam] at h
    split at h
    · simp at h
    · simpa using h

end Own

/-! ## Words that are misread -/

/-- Words of these lengths that are misread : a word of zeros only, in front of a `1`. -/
def misread (n : Fin OBJ_NUM → ℕ) : Fin OBJ_NUM → Bytes :=
  ![List.replicate (n 0) 48,
    if n 1 ≤ 7 then List.replicate (n 1 - 1) 48 ++ [49] else List.replicate (n 1) 48,
    List.replicate (n 2 - 1) 48 ++ [49]]

/-- The line of these words. -/
def misreadLine (n : Fin OBJ_NUM → ℕ) : Bytes :=
  misread n 0 ++ 32 :: (misread n 1 ++ 32 :: misread n 2)

theorem convert_zeros (m : ℕ) : convert (List.replicate m 48) = 0 := by
  have hdecimal := decimal_zeros m []
  rw [List.append_nil] at hdecimal
  rw [convert_of_digits fun c hc => by rw [List.eq_of_mem_replicate hc]; decide, hdecimal]
  decide

theorem convert_one (m : ℕ) : convert (List.replicate m 48 ++ [49]) = 1 := by
  rw [convert_of_digits fun c hc => ?_, decimal_zeros]
  · decide
  · rcases List.mem_append.1 hc with hc | hc
    · rw [List.eq_of_mem_replicate hc]
      decide
    · rw [List.mem_singleton.1 hc]
      decide

section Misread

variable {n : Fin OBJ_NUM → ℕ}

theorem mem_misread (j : Fin OBJ_NUM) : ∀ c ∈ misread n j, c = 48 ∨ c = 49 := by
  intro c hc
  match j with
  | 0 => exact Or.inl (List.eq_of_mem_replicate hc)
  | 1 =>
    have hc' : c ∈ if n 1 ≤ 7 then List.replicate (n 1 - 1) 48 ++ [49]
        else List.replicate (n 1) 48 := hc
    split_ifs at hc'
    · exact (List.mem_append.1 hc').imp List.eq_of_mem_replicate List.mem_singleton.1
    · exact Or.inl (List.eq_of_mem_replicate hc')
  | 2 => exact (List.mem_append.1 hc).imp List.eq_of_mem_replicate List.mem_singleton.1

theorem length_misread (hn : ∀ j, 0 < n j) (j : Fin OBJ_NUM) : (misread n j).length = n j := by
  have hlast : ∀ j, (List.replicate (n j - 1) (48 : UInt8) ++ [49]).length = n j := fun j => by
    have := hn j
    rw [List.length_append, List.length_replicate, List.length_singleton]
    omega
  match j with
  | 0 => exact List.length_replicate
  | 1 =>
    show (if n 1 ≤ 7 then List.replicate (n 1 - 1) 48 ++ [49] else List.replicate (n 1) 48).length
      = n 1
    split_ifs
    · exact hlast 1
    · exact List.length_replicate
  | 2 => exact hlast 2

theorem words_misreadLine (hn : ∀ j, 0 < n j) :
    (words (misreadLine n)).take OBJ_NUM = List.ofFn (misread n) := by
  have hne : ∀ j, misread n j ≠ [] := fun j =>
    List.ne_nil_of_length_pos ((length_misread hn j).symm ▸ hn j)
  have hblank : ∀ j, ∀ c ∈ misread n j, isspace c = false := fun j c hc => by
    rcases mem_misread j c hc with rfl | rfl <;> decide
  rw [misreadLine, words_append (hne 0) (hblank 0) (by decide),
    words_append (hne 1) (hblank 1) (by decide), words_single (hne 2) (hblank 2)]
  rfl

theorem zero_notMem_misreadLine : 0 ∉ misreadLine n := by
  have hno : ∀ j, (0 : UInt8) ∉ misread n j := fun j h0 => by
    rcases mem_misread j 0 h0 with h | h <;> exact absurd h (by decide)
  simp [misreadLine, hno]

/-- Eight zeros and the `1` of the next slot are read from the slot of a long word. -/
theorem convert_overrun_misread (hn : ¬(n 0 ≤ 7 ∧ n 1 ≤ 7)) :
    ∃ j, convert (overrun (misread n) j) ≠ convert (misread n j) := by
  have hlong : ∀ {m : ℕ} {next : Bytes}, 7 < m →
      readOn (List.replicate m 48) next = List.replicate 8 48 ++ next := by
    intro m next hm
    rw [readOn, if_neg (by rw [List.length_replicate]; omega), List.take_replicate,
      min_eq_left (by omega)]
  have hone : ∀ m, convert (List.replicate 8 48 ++ (List.replicate m 48 ++ [49])) = 1 := by
    intro m
    rw [← List.append_assoc, List.replicate_append_replicate]
    exact convert_one _
  by_cases h1 : n 1 ≤ 7
  · have h0 : 7 < n 0 := by omega
    have hword : misread n 1 = List.replicate (n 1 - 1) 48 ++ [49] := if_pos h1
    refine ⟨0, ?_⟩
    show convert (readOn (List.replicate (n 0) 48) (readOn (misread n 1) (misread n 2))) ≠
      convert (List.replicate (n 0) 48)
    have hshort : readOn (misread n 1) (misread n 2) = misread n 1 := by
      refine if_pos ?_
      rw [hword, List.length_append, List.length_replicate, List.length_singleton]
      omega
    rw [hlong h0, hshort, hword, hone, convert_zeros]
    decide
  · refine ⟨1, ?_⟩
    have hword : misread n 1 = List.replicate (n 1) 48 := if_neg h1
    show convert (readOn (misread n 1) (List.replicate (n 2 - 1) 48 ++ [49])) ≠ _
    rw [hword, hlong (by omega), hone, convert_zeros]
    decide

/-- In an empty record they are a command that passes the checks. -/
theorem ownCommand_misread (k : ℤ) :
    (ownCommand (fun k => ⟨902001 + k, fun _ => 0⟩) k (misread n)).2.2 =
      [(k, fun j => convert (misread n j))] := by
  have h0 : convert (misread n 0) = 0 := convert_zeros _
  have h1 : convert (misread n 1) = 0 ∨ convert (misread n 1) = 1 := by
    show convert (if n 1 ≤ 7 then _ else _) = 0 ∨ convert (if n 1 ≤ 7 then _ else _) = 1
    split_ifs
    · exact Or.inr (convert_one _)
    · exact Or.inl (convert_zeros _)
  have h2 : convert (misread n 2) = 1 := convert_one _
  have hown : ownParams (misread n) = some fun j => convert (misread n j) := by
    refine if_pos fun j => ?_
    match j with
    | 0 => rw [h0]; decide
    | 1 => rcases h1 with h1 | h1 <;> rw [h1] <;> decide
    | 2 => rw [h2]; decide
  have hparam : (fun j => convert (misread n j)) = ![0, 0, 1] ∨
      (fun j => convert (misread n j)) = ![0, 1, 1] := by
    refine h1.imp (fun h1 => funext fun j => ?_) fun h1 => funext fun j => ?_ <;>
    · match j with
      | 0 => exact h0
      | 1 => exact h1
      | 2 => exact h2
  obtain ⟨new, hcheck⟩ : ∃ new, check (fun j => convert (misread n j)) (fun _ => 0) = .ok new := by
    rcases hparam with h | h <;> rw [h] <;>
      exact ⟨_, check_eq_ok.2 ⟨by decide, by decide, rfl⟩⟩
  unfold ownCommand
  rw [hown]
  simp only [hcheck]

end Misread

/-- A write server with a client of the record `902003` that has sent this line. -/
def sentLine (line : Bytes) : Server :=
  { Server.boot 3 8 (List.replicate 24 0) with
    requestP := fun _ => ⟨4, line, line.length, 902003⟩ }

/-- A server carries out the command that the first three words of a line are, for all words of
given lengths that fit in `input`, exactly if the first two have at most seven characters. -/
theorem command_own_iff {n : Fin OBJ_NUM → ℕ}
    (hn : ∀ j, 0 < n j ∧ 8 * j + n j + 1 ≤ sizeofInput) :
    (∀ (file : File) (i : ℕ) (s : Server) (k : ℤ) (t : Fin OBJ_NUM → Bytes),
        s.input.length = sizeofInput → (s.requestP i).id = 902001 + k → 0 ∉ (s.requestP i).buf →
        (words (s.requestP i).buf).take OBJ_NUM = List.ofFn t → (∀ j, (t j).length = n j) →
        (command file i s).seen = ownCommand file k t) ↔ n 0 ≤ 7 ∧ n 1 ≤ 7 := by
  have h2 : n 2 ≤ 7 := by
    have hlast : 8 * 2 + n 2 + 1 ≤ 24 := (hn 2).2
    omega
  constructor
  · intro h
    by_contra hlong
    have hlen := length_misread fun j => (hn j).1
    have hwords := words_misreadLine fun j => (hn j).1
    have hseen := h (fun k => ⟨902001 + k, fun _ => 0⟩) 4 (sentLine (misreadLine n)) 2 (misread n)
      rfl rfl zero_notMem_misreadLine hwords hlen
    -- the words ask for their own numbers, the slots for others
    have happlied := (congrArg (fun o => o.2.2) hseen).trans (ownCommand_misread 2)
    have hscan : params (scan ((sentLine (misreadLine n)).requestP 4).buf
        (sentLine (misreadLine n)).input) = ownParams (overrun (misread n)) :=
      params_scan rfl zero_notMem_misreadLine ((hlen 2).trans_le h2) hwords
    have hparams := hscan.symm.trans (params_of_applied (k := 2) rfl happlied)
    obtain ⟨j, hj⟩ := convert_overrun_misread hlong
    unfold ownParams at hparams
    split_ifs at hparams
    exact hj (congrFun (Option.some.inj hparams) j)
  · rintro ⟨h0, h1⟩ file i s k t hinput hid hbuf hwords hlen
    have hshort : ∀ j, (t j).length ≤ 7 := by
      intro j
      rw [hlen]
      match j with
      | 0 => exact h0
      | 1 => exact h1
      | 2 => exact h2
    refine command_own hid ?_
    rw [params_scan hinput hbuf (hshort 2) hwords, overrun_short hshort]

/-- `1 2 3`. -/
def shortLine : Bytes :=
  [49, 32, 50, 32, 51]

/-- `0 21474836 47`. -/
def wrapLine : Bytes :=
  [48, 32, 50, 49, 52, 55, 52, 56, 51, 54, 32, 52, 55]

/-- `1 2 3` is carried out as it is. -/
theorem command_own_short :
    (command (fun k => ⟨902001 + k, fun _ => 0⟩) 4 (sentLine shortLine)).seen =
      ownCommand (fun k => ⟨902001 + k, fun _ => 0⟩) 2 ![[49], [50], [51]] :=
  (command_own_iff (n := fun _ => 1) (by decide)).2 (by decide) _ 4 (sentLine shortLine) 2 _ rfl
    rfl (by decide) (by decide +kernel) (by decide)

/-- Of `0 21474836 47` the second word is read as `2147483647`, which is what is added. -/
theorem command_overrun : FitsInput wrapLine ∧
    (words wrapLine).take OBJ_NUM =
      List.ofFn ![[48], [50, 49, 52, 55, 52, 56, 51, 54], [52, 55]] ∧
    (command (fun k => ⟨902001 + k, fun _ => 0⟩) 4 (sentLine wrapLine)).applied =
      [(2, ![0, 2147483647, 47])] ∧
    (command (fun k => ⟨902001 + k, fun _ => 0⟩) 4 (sentLine wrapLine)).seen ≠
      ownCommand (fun k => ⟨902001 + k, fun _ => 0⟩) 2
        ![[48], [50, 49, 52, 55, 52, 56, 51, 54], [52, 55]] := by
  refine ⟨by decide +kernel, by decide +kernel, by decide +kernel, fun h => ?_⟩
  have happlied := congrArg (fun o => o.2.2) h
  revert happlied
  decide +kernel

/-! ## What is left of earlier commands -/

section Fresh

variable {s : Server} {i : ℕ} {input : Bytes}

theorem command_refused {file : File} (h : params (scan (s.requestP i).buf s.input) = none) :
    (command file i s).seen = (file, [.failed], []) := by
  unfold command
  simp only [h]
  rfl

/-- A command that is not rejected has another answer. -/
theorem command_passes {file : File} {param : Counts}
    (h : params (scan (s.requestP i).buf s.input) = some param) :
    (command file i s).replies ≠ [.failed] := by
  unfold command
  simp only [h]
  rw [check_eq]
  split_ifs <;> simp

theorem command_congr {file : File} {a b : Bytes}
    (h : params (scan (s.requestP i).buf a) = params (scan (s.requestP i).buf b)) :
    (command file i { s with input := a }).seen = (command file i { s with input := b }).seen := by
  unfold command Outcome.seen
  simp only [h]
  cases params (scan (s.requestP i).buf b) with
  | none => rfl
  | some param =>
    simp only
    cases check param (file ((s.requestP i).id - 902000 - 1)).bookingState <;> rfl

/-- A rejected word rejects the line. -/
theorem params_refused (hinput : input.length = sizeofInput) {buf : Bytes} (hbuf : 0 ∉ buf)
    (hshort : ∀ w ∈ words buf, w.length ≤ 7) (hfew : (words buf).length < OBJ_NUM) {w : Bytes}
    (hw : w ∈ words buf) (hbad : convert w = ERROR_NUM) : params (scan buf input) = none := by
  obtain ⟨j, hj, rfl⟩ := List.getElem_of_mem hw
  refine if_neg fun h => h ⟨j, hj.trans hfew⟩ ?_
  rw [slot_word hinput hbuf hshort hj]
  exact hbad

/-- A command line with words of at most seven characters has the same outcome whatever
earlier commands have left in `input` if and only if it has three words or one that is
rejected. -/
theorem command_fresh_iff (file : File) (i : ℕ) (s : Server) (hbuf : 0 ∉ (s.requestP i).buf)
    (hshort : ∀ w ∈ words (s.requestP i).buf, w.length ≤ 7) :
    (∀ a b : Bytes, a.length = sizeofInput → b.length = sizeofInput →
        (command file i { s with input := a }).seen =
          (command file i { s with input := b }).seen) ↔
      OBJ_NUM ≤ (words (s.requestP i).buf).length ∨
        ∃ w ∈ words (s.requestP i).buf, convert w = ERROR_NUM := by
  constructor
  · intro hsame
    by_contra hnot
    obtain ⟨hfew, hgood⟩ := not_or.1 hnot
    have hfew : (words (s.requestP i).buf).length < OBJ_NUM := not_le.1 hfew
    -- zeros are read as the number 0, a letter is rejected
    have hzeros : ∀ j : Fin OBJ_NUM, convert (slot (List.replicate 24 0) j) ≠ ERROR_NUM := by
      decide
    have hletters : ∀ j : Fin OBJ_NUM, convert (slot (List.replicate 24 120) j) = ERROR_NUM := by
      decide
    have hzero : params (scan (s.requestP i).buf (List.replicate 24 0)) ≠ none := by
      unfold params
      rw [if_pos fun j => ?_]
      · simp
      · by_cases hj : (j : ℕ) < (words (s.requestP i).buf).length
        · rw [slot_word rfl hbuf hshort hj]
          exact fun hbad => hgood ⟨_, List.getElem_mem hj, hbad⟩
        · rw [slot_behind hshort (not_lt.1 hj)]
          exact hzeros j
    have hletter : params (scan (s.requestP i).buf (List.replicate 24 120)) = none := by
      refine if_neg fun h => h ⟨_, hfew⟩ ?_
      rw [slot_behind hshort le_rfl]
      exact hletters _
    obtain ⟨param, hparam⟩ := Option.ne_none_iff_exists'.1 hzero
    have heq := hsame (List.replicate 24 0) (List.replicate 24 120) rfl rfl
    rw [command_refused (s := { s with input := List.replicate 24 120 }) hletter] at heq
    exact command_passes (s := { s with input := List.replicate 24 0 }) hparam
      (congrArg (fun o => o.2.1) heq)
  · rintro h a b ha hb
    refine command_congr ?_
    by_cases hfew : (words (s.requestP i).buf).length < OBJ_NUM
    · obtain ⟨w, hw, hbad⟩ := h.resolve_left (not_le.2 hfew)
      rw [params_refused ha hbuf hshort hfew hw hbad, params_refused hb hbuf hshort hfew hw hbad]
    · have hslot : ∀ j, slot (scan (s.requestP i).buf a) j =
          slot (scan (s.requestP i).buf b) j := by
        intro j
        have hj : (j : ℕ) < (words (s.requestP i).buf).length := by omega
        rw [slot_word ha hbuf hshort hj, slot_word hb hbuf hshort hj]
      unfold params
      simp only [hslot]

end Fresh

theorem command_fresh_short :
    (command (fun k => ⟨902001 + k, fun _ => 0⟩) 4
        { sentLine shortLine with input := List.replicate 24 0 }).seen =
      (command (fun k => ⟨902001 + k, fun _ => 0⟩) 4
        { sentLine shortLine with input := List.replicate 24 120 }).seen :=
  (command_fresh_iff _ 4 (sentLine shortLine) (by decide) (by decide +kernel)).2
    (Or.inl (by decide +kernel)) _ _ rfl rfl

/-- The line `1` after a line `1 2 3` books three objects. -/
theorem command_stale : (∀ w ∈ words [49], w.length ≤ 7) ∧
    (command (fun k => ⟨902001 + k, fun _ => 0⟩) 4
      { sentLine [49] with input := List.replicate 24 0 }).applied = [(2, ![1, 0, 0])] ∧
    (command (fun k => ⟨902001 + k, fun _ => 0⟩) 4
      { sentLine [49] with input := scan shortLine (List.replicate 24 0) }).applied =
        [(2, ![1, 2, 3])] ∧
    ¬∀ a b : Bytes, a.length = sizeofInput → b.length = sizeofInput →
      (command (fun k => ⟨902001 + k, fun _ => 0⟩) 4 { sentLine [49] with input := a }).seen =
        (command (fun k => ⟨902001 + k, fun _ => 0⟩) 4 { sentLine [49] with input := b }).seen := by
  refine ⟨by decide +kernel, by decide +kernel, by decide +kernel, fun h => ?_⟩
  have heq := congrArg (fun o => o.2.2)
    (h (List.replicate 24 0) (scan shortLine (List.replicate 24 0)) rfl rfl)
  revert heq
  decide +kernel

end SP2022.Booking
