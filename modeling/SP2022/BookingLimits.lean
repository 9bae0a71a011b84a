import SP2022.BookingInput
import SP2022.BookingWorld

/-!
# Booking limits

A record is in its limits if its counts are not negative and their exact total is at most
`15`. `main` adds the three new counts in an `int`. A command that passes the checks with a
total from `2 ^ 31` on (`Wraps`) takes the record out of its limits, and nothing else does :
a run keeps every record in its limits exactly if it has no such command
(`limits_kept_iff`). One parameter of ten digits is enough, and a word of eight digits in
the second slot, which the third one continues, makes such a parameter
(`limits_exceeded`).
-/

namespace SP2022.Booking

open Server

/-- Every record of the file has counts that are not negative, with a total of at most
`15`. -/
def InLimits (file : File) : Prop :=
  ∀ k, 0 ≤ k → k < 20 →
    (∀ j, 0 ≤ (file k).bookingState j) ∧ ∑ j, (file k).bookingState j ≤ 15

section Limits

variable {ι : Type*} [Fintype ι] [DecidableEq ι] (kind : ι → Kind)

omit [Fintype ι] [DecidableEq ι] in
/-- The event is no command whose exact total wraps around. -/
def World.Tame (e : ι × Event) (W : World ι) : Prop :=
  ∀ c ∈ W.command? kind e, ¬Wraps c.2 (W.file c.1).bookingState

variable {kind} {W W' : World ι}

/-- The file after an event. -/
theorem World.step_file {e : ι × Event} (hstep : World.step kind e W = some W') :
    W'.file = match W.command? kind e with
      | none => W.file
      | some (k, param) => fileAfter W.file k (check param (W.file k).bookingState) := by
  rcases World.step_books hstep with ⟨k, param, new, ⟨hc, hcheck⟩, hfile, -, -⟩ | ⟨hno, hfile, -⟩
  · simp only [hc, hcheck, fileAfter_ok]
    exact hfile
  · cases hc : W.command? kind e with
    | none => exact hfile
    | some c =>
      obtain ⟨k, param⟩ := c
      simp only
      cases hcheck : check param (W.file k).bookingState with
      | error r => exact hfile
      | ok new => exact absurd ⟨hc, hcheck⟩ (hno k param new)

omit [Fintype ι] [DecidableEq ι] in
/-- A command is about one of the twenty records, and its parameters are `int`s. -/
theorem Shared.of_command (h : Shared kind W) {e : ι × Event} {k : ℤ} {param : Counts}
    (hc : W.command? kind e = some (k, param)) : 0 ≤ k ∧ k < 20 ∧ ∀ j, IsInt (param j) := by
  obtain ⟨p, ev⟩ := e
  unfold World.command? at hc
  cases ev with
  | accept fd => simp at hc
  | acceptFailed again => simp at hc
  | read i chunk =>
    cases hs : W.proc p with
    | none => simp [hs] at hc
    | some s =>
      cases hread : handle_read chunk with
      | line buf =>
        simp only [hs, hread] at hc
        split_ifs at hc with hid
        obtain ⟨param', hparam, heq⟩ := Option.map_eq_some_iff.1 hc
        obtain ⟨rfl, rfl⟩ := Prod.mk.inj heq
        have hrange := ((h.table p s hs).ids i).resolve_left hid.2
        exact ⟨by omega, by omega, params_isInt hparam⟩
      | eof => simp [hs, hread] at hc
      | failed => simp [hs, hread] at hc
      | exit => simp [hs, hread] at hc

/-- From a file in its limits, an event leads out of them exactly if it is a command whose
total wraps around. -/
theorem limits_step_iff (h : Shared kind W) (hin : InLimits W.file) {e : ι × Event}
    (hstep : World.step kind e W = some W') : InLimits W'.file ↔ W.Tame kind e := by
  have hfile := World.step_file hstep
  unfold World.Tame
  cases hc : W.command? kind e with
  | none =>
    rw [hc] at hfile
    refine iff_of_true ?_ fun c hmem => by simp at hmem
    rw [hfile]
    exact hin
  | some c =>
    obtain ⟨k, param⟩ := c
    rw [hc] at hfile
    simp only at hfile
    obtain ⟨hk0, hk, hparam⟩ := h.of_command hc
    obtain ⟨h0, hsum⟩ := hin k hk0 hk
    have hold : ∀ j, IsInt ((W.file k).bookingState j) := fun j => by
      have hle := Finset.single_le_sum (fun i _ => h0 i) (Finset.mem_univ j)
      have hj := h0 j
      unfold IsInt
      omega
    have hcheck := fun new => @check_iff param (W.file k).bookingState new hparam hold h0
    have hupdated : ∀ new, InLimits (fileAfter W.file k (.ok new)) ↔
        (∀ j, 0 ≤ new j) ∧ ∑ j, new j ≤ 15 := by
      intro new
      rw [fileAfter_ok]
      constructor
      · intro hlim
        have hnew := hlim k hk0 hk
        rw [Function.update_self] at hnew
        exact hnew
      · intro hnew m hm0 hm
        rw [Function.update_apply]
        split_ifs with hmk
        · exact hnew
        · exact hin m hm0 hm
    have htame : (∀ c ∈ some (k, param), ¬Wraps c.2 (W.file c.1).bookingState) ↔
        ¬Wraps param (W.file k).bookingState := by simp
    rw [htame]
    by_cases hw : Wraps param (W.file k).bookingState
    · rw [(hcheck _).2 ⟨Or.inr hw, rfl⟩] at hfile
      rw [hfile, hupdated]
      refine iff_of_false (fun hlim => ?_) (not_not.2 hw)
      have hbig := hw.2.1
      have hsmall := hlim.2
      omega
    · refine iff_of_true ?_ hw
      cases hres : check param (W.file k).bookingState with
      | error r =>
        rw [hres] at hfile
        rw [hfile]
        exact hin
      | ok new =>
        rw [hres] at hfile
        obtain ⟨hor, rfl⟩ := (hcheck new).1 hres
        rw [hfile, hupdated]
        exact hor.resolve_right hw

/-- A run without a command whose total wraps around ends in the limits. -/
theorem inLimits_of_tame {file : File} (hfile : InLimits file) {W₀ : World ι}
    (h₀ : (servers kind file).init W₀) {es : List (ι × Event)}
    (hrun : (servers kind file).run es W₀ = some W)
    (htame : (servers kind file).EachStep (fun e V => V.Tame kind e) es W₀) : InLimits W.file := by
  refine (System.eachStep_invariant (I := fun V => Shared kind V ∧ InLimits V.file)
    (fun e V V' hV hstep htame =>
      ⟨hV.1.step hstep, (limits_step_iff hV.1 hV.2 hstep).2 htame⟩)
    es ⟨shared_of_reachable (.of_init h₀), ?_⟩ hrun htame).2
  rw [h₀.2.1]
  exact hfile

/-- From a file in its limits, a run of any servers keeps every record in its limits in
every state exactly if it has no command whose three new counts are right but whose exact
total wraps around. -/
theorem limits_kept_iff {file : File} (hfile : InLimits file) {W₀ : World ι}
    (h₀ : (servers kind file).init W₀) {es : List (ι × Event)}
    (hrun : (servers kind file).run es W₀ = some W) :
    (servers kind file).Throughout (fun V => InLimits V.file) es W₀ ↔
      (servers kind file).EachStep (fun e V => V.Tame kind e) es W₀ := by
  refine System.throughout_iff_eachStep (G := fun V => Shared kind V ∧ InLimits V.file)
    (fun V hV => hV.2) (fun e V V' hV hstep => limits_step_iff hV.1 hV.2 hstep)
    (fun e V V' hV hstep htame => ⟨hV.1.step hstep, (limits_step_iff hV.1 hV.2 hstep).2 htame⟩)
    es ⟨shared_of_reachable (.of_init h₀), ?_⟩ hrun
  rw [h₀.2.1]
  exact hfile

end Limits

/-- A file without bookings. -/
def emptyFile : File :=
  fun k => ⟨902001 + k, fun _ => 0⟩

theorem inLimits_emptyFile : InLimits emptyFile :=
  fun _ _ _ => ⟨fun _ => le_rfl, by simp [emptyFile]⟩

/-- The run in which one server books `1 2 3` stays in the limits exactly if no command of
it wraps around. -/
theorem limits_kept_two : ∃ W, (servers (fun _ : Bool => .write) emptyFile).run bookingEvents
      (twoServers emptyFile) = some W ∧
    ((servers (fun _ : Bool => .write) emptyFile).Throughout (fun V => InLimits V.file)
      bookingEvents (twoServers emptyFile) ↔
    (servers (fun _ : Bool => .write) emptyFile).EachStep (fun e V => V.Tame (fun _ => .write) e)
      bookingEvents (twoServers emptyFile)) := by
  refine ⟨_, (Option.some_get (by decide +kernel)).symm, ?_⟩
  exact limits_kept_iff inLimits_emptyFile
    ⟨fun _ => ⟨3, 8, List.replicate 24 0, rfl, rfl⟩, rfl, rfl, rfl⟩
    (Option.some_get (by decide +kernel)).symm

/-- A client logs in and sends `0 21474836 47`. -/
def wrapEvents : List (Unit × Event) :=
  [((), .accept 4), ((), .read 4 (some idLine)), ((), .read 4 (some (wrapLine ++ [10])))]

/-- Booked from an empty file, the second parameter is `2147483647`, the third `47`, and
their sum is negative. -/
theorem limits_exceeded : InLimits emptyFile ∧ FitsInput wrapLine ∧ ∃ W,
    (servers (fun _ : Unit => .write) emptyFile).run wrapEvents
      ⟨fun _ => some (boot 3 8 (List.replicate 24 0)), emptyFile, [], []⟩ = some W ∧
    (W.file 2).bookingState = ![0, 2147483647, 47] ∧ ¬InLimits W.file := by
  refine ⟨inLimits_emptyFile, by decide +kernel, _, (Option.some_get (by decide +kernel)).symm,
    by decide +kernel, fun hlim => ?_⟩
  have htotal := (hlim 2 (by decide) (by decide)).2
  revert htotal
  decide +kernel

end SP2022.Booking
