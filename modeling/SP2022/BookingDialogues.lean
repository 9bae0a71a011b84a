import SP2022.BookingFraming
import SP2022.BookingServers

/-!
# What a client says and hears

The lines and the messages on a connection follow a protocol (`Stage.Says`). A client is asked
for its id, and is refused or is shown its record. The client of a write server then sends its
command, hears that it is wrong or the counts that it makes of those it was shown, and is
disconnected.

Whatever calls the servers make in whatever order, every connection follows the protocol, with the
lines that its client sent, and is where the tables of its server say. A client that was shown its
record was shown the counts which the file still has (`dialogues`).
-/

set_option linter.unusedSectionVars false

namespace SP2022.Booking

open Server

/-- Where a connection is : closed, asked for an id, or shown these counts of the record `k`. -/
inductive Stage
  | closed
  | asked
  | shown (k : ℤ) (c : Counts)

/-- A line of the client, and what the server had in `input` when it came. -/
structure Said where
  line : Bytes
  input : Bytes

/-- What the client says, what it hears next, and where that leaves the connection. -/
inductive Stage.Says (kind : Kind) : Stage → List Said → List Reply → Stage → Prop
  | connect : Says kind .closed [] [.prompt] .asked
  | refuse {a : Said} (hid : ¬∃ k, 0 ≤ k ∧ k < 20 ∧ convert a.line = 902001 + k) :
      Says kind .asked [a] [.failed] .closed
  | locked {a : Said} {k : ℤ} (h0 : 0 ≤ k) (hk : k < 20) (hid : convert a.line = 902001 + k) :
      Says kind .asked [a] [.locked] .closed
  | welcome {a : Said} {k : ℤ} {c : Counts} (h0 : 0 ≤ k) (hk : k < 20)
      (hid : convert a.line = 902001 + k) :
      Says kind .asked [a] (bookedLines c ++ [lastReply kind]) (.shown k c)
  | reject {a : Said} {k : ℤ} {c : Counts} {r : Reply} (hkind : kind = .write)
      (hresult : result (params (scan a.line a.input)) c = .error r) :
      Says kind (.shown k c) [a] [r] .closed
  | book {a : Said} {k : ℤ} {c new : Counts} (hkind : kind = .write)
      (hresult : result (params (scan a.line a.input)) c = .ok new) :
      Says kind (.shown k c) [a] (.updated (902001 + k) :: bookedLines new) .closed
  | ignore {a : Said} {k : ℤ} {c : Counts} (hkind : kind = .read) (hline : a.line ≠ exitLine) :
      Says kind (.shown k c) [a] [] (.shown k c)
  | exit {a : Said} {k : ℤ} {c : Counts} (hkind : kind = .read) (hline : a.line = exitLine) :
      Says kind (.shown k c) [a] [] .closed
  | leave {st : Stage} : Says kind st [] [] .closed

/-- The lines and the messages on a connection, one client after the other. -/
inductive Dialogue (kind : Kind) : List Said → List Reply → Stage → Prop
  | nil : Dialogue kind [] [] .closed
  | next {ls said : List Said} {rs replies : List Reply} {st st' : Stage} :
      Dialogue kind ls rs st → st.Says kind said replies st' →
      Dialogue kind (ls ++ said) (rs ++ replies) st'

/-- The line that an event brings. -/
def Event.lines : Event → List Bytes
  | .read _ chunk =>
    match handle_read chunk with
    | .line buf => [buf]
    | _ => []
  | _ => []

/-- What is said to a server with an event. -/
def Server.hears (s : Server) (e : Event) : List Said :=
  e.lines.map fun line => ⟨line, s.input⟩

/-- Where a connection is by the tables of the server and by the file. -/
def Server.stage (s : Server) (file : File) (i : ℕ) : Stage :=
  if s.isOpen i then
    if (s.requestP i).id = 0 then .asked
    else .shown ((s.requestP i).id - 902001) (file ((s.requestP i).id - 902001)).bookingState
  else .closed

/-- The lines of the client of a connection. -/
def linesOf {ι : Type*} [DecidableEq ι] (p : ι) (i : ℕ) (gs : List (ι × Event)) : List Bytes :=
  gs.flatMap fun e => if e.1 = p ∧ e.2.fd = i then e.2.lines else []

/-- What is said to a connection in a run of the servers. -/
def World.said {ι : Type*} [Fintype ι] [DecidableEq ι] (kind : ι → Kind) (p : ι) (i : ℕ) :
    List (ι × Event) → World ι → List Said
  | [], _ => []
  | e :: gs, W =>
    (if e.1 = p ∧ e.2.fd = i then (W.proc p).elim [] fun s => s.hears e.2 else []) ++
      (World.step kind e W).elim [] (World.said kind p i gs)

/-- What has been written to a connection. -/
def World.heard {ι : Type*} [DecidableEq ι] (W : World ι) (p : ι) (i : ℕ) : List Reply :=
  ((W.sent.filter fun e => e.1 = p).filter fun e => e.2.1 = i).map fun e => e.2.2

/-- What a process has written to a connection. -/
def Process.heard (x : Process) (i : ℕ) : List Reply :=
  (x.sent.filter fun e => e.1 = i).map Prod.snd

/-! ## One event -/

section Event

variable {kind : Kind} {setlk : Flock → Bool} {file file' : File} {s t : Server} {i j : ℕ}
  {e : Event} {o : Outcome}

theorem stage_congr (hopen : t.isOpen j = s.isOpen j) (hid : (t.requestP j).id = (s.requestP j).id)
    (hfile : s.isOpen j → (s.requestP j).id ≠ 0 →
      file' ((s.requestP j).id - 902001) = file ((s.requestP j).id - 902001)) :
    t.stage file' j = s.stage file j := by
  unfold Server.stage
  rw [hopen, hid]
  split_ifs with hj h0
  · rfl
  · rw [hfile hj h0]
  · rfl

theorem Same.stage (h : Same s t) (file : File) (j : ℕ) : t.stage file j = s.stage file j :=
  stage_congr (h.isOpen j) (h.id j) fun _ _ => rfl

@[simp] theorem stage_disconnect (s : Server) (i : ℕ) (lock : Bool) (file : File) :
    (s.disconnect i lock).stage file i = .closed := by
  simp [Server.stage, isOpen_disconnect]

theorem stage_boot (listen_fd maxfd : ℕ) (input : Bytes) (file : File) (i : ℕ) :
    (boot listen_fd maxfd input).stage file i = .closed := by
  have hclosed : (boot listen_fd maxfd input).isOpen i = false := by
    by_cases hi : i = listen_fd <;> simp [Server.isOpen, boot, hi]
  rw [Server.stage, hclosed]
  rfl

theorem stage_asked (hopen : s.isOpen i) (hid : (s.requestP i).id = 0) :
    s.stage file i = .asked := by
  simp [Server.stage, hopen, hid]

theorem stage_shown {k : ℤ} (hopen : s.isOpen i) (hid : (s.requestP i).id = 902001 + k)
    (h0 : 0 ≤ k) : s.stage file i = .shown k (file k).bookingState := by
  have hk : (902001 + k) - 902001 = k := by omega
  unfold Server.stage
  rw [if_pos hopen, hid, if_neg (by omega), hk]

theorem said_login (h : Table kind s) (hopen : s.isOpen i) (hid : (s.requestP i).id = 0)
    (ht : (login kind setlk file i (lastReply kind) s).server = some t) :
    (s.stage file i).Says kind [⟨(s.requestP i).buf, s.input⟩]
      (login kind setlk file i (lastReply kind) s).replies (t.stage file i) := by
  rw [stage_asked hopen hid]
  unfold login at ht ⊢
  rcases initializeClient_cases (i := i) h setlk file with
    ⟨heq, hline⟩ | ⟨k, h0, hk, hline, ⟨heq, -⟩ | ⟨heq, -⟩⟩
  · rw [heq] at ht ⊢
    rw [← Option.some.inj ht, stage_disconnect]
    exact .refuse hline
  · rw [heq] at ht ⊢
    rw [← Option.some.inj ht, stage_disconnect]
    exact .locked h0 hk hline
  · have hstage : (s.register kind i k).stage file i = .shown k (file k).bookingState :=
      stage_shown hopen (by simp [register, setId]) h0
    rw [heq] at ht ⊢
    rw [← Option.some.inj ht, hstage]
    exact .welcome h0 hk hline

theorem said_command {k : ℤ} (hopen : s.isOpen i) (hid : (s.requestP i).id = 902001 + k)
    (h0 : 0 ≤ k) (ht : (command file i s).server = some t) :
    (s.stage file i).Says .write [⟨(s.requestP i).buf, s.input⟩] (command file i s).replies
      (t.stage file' i) := by
  obtain ⟨hserver, -, hreplies⟩ := @command_eq file i s k hid
  rw [hserver] at ht
  rw [stage_shown hopen hid h0, hreplies, ← Option.some.inj ht, stage_disconnect]
  cases hresult : result (params (scan (s.requestP i).buf s.input)) (file k).bookingState with
  | error r => exact .reject rfl hresult
  | ok new => exact .book rfl hresult

theorem said_line (h : Table kind s) (hopen : s.isOpen i)
    (ht : (line kind setlk file i s).server = some t) :
    (s.stage file i).Says kind [⟨(s.requestP i).buf, s.input⟩]
      (line kind setlk file i s).replies (t.stage (line kind setlk file i s).file i) := by
  have hshown : (s.requestP i).id ≠ 0 → ∃ k, 0 ≤ k ∧ (s.requestP i).id = 902001 + k := fun hid => by
    have hrange := (h.ids i).resolve_left hid
    exact ⟨(s.requestP i).id - 902001, by omega⟩
  unfold line at ht ⊢
  cases kind with
  | read =>
    simp only at ht ⊢
    split_ifs at ht ⊢ with hid hbuf
    · exact said_login h hopen hid ht
    · obtain ⟨k, h0, hk⟩ := hshown hid
      rw [← Option.some.inj ht, stage_shown hopen hk h0]
      exact .ignore rfl hbuf
    · obtain ⟨k, h0, hk⟩ := hshown hid
      rw [← Option.some.inj ht, stage_disconnect, stage_shown hopen hk h0]
      exact .exit rfl (not_not.1 hbuf)
  | write =>
    simp only at ht ⊢
    split_ifs at ht ⊢ with hid
    · exact said_login h hopen hid ht
    · obtain ⟨k, h0, hk⟩ := hshown hid
      exact said_command hopen hk h0 ht

/-- An event of a connection is a step of the protocol, or says nothing and leaves the
connection where it is. -/
theorem handle_said (h : Table kind s) (hstep : handle kind setlk file e s = some o)
    (ht : o.server = some t) :
    (s.hears e = [] ∧ o.replies = [] ∧ t.stage o.file e.fd = s.stage file e.fd) ∨
      (s.stage file e.fd).Says kind (s.hears e) o.replies (t.stage o.file e.fd) := by
  unfold handle at hstep
  cases e with
  | accept fd =>
    simp only at hstep
    by_cases hfd : fd < s.maxfd ∧ fd ≠ s.listen_fd ∧ s.master_set fd = false
    · rw [if_pos hfd] at hstep
      obtain rfl := Option.some.inj hstep
      obtain rfl := Option.some.inj ht
      obtain ⟨hlt, hlisten, hset⟩ := hfd
      have hnew : s.isOpen fd = false := by simp [Server.isOpen, hset]
      have hid := h.closed fd hnew
      simp only [Function.update_self, hid, if_true, Event.fd]
      rw [stage_asked (by simp [Server.isOpen, hlt, hlisten]) (by simp),
        Server.stage, hnew]
      exact .inr .connect
    · rw [if_neg hfd] at hstep
      cases hstep
  | acceptFailed again =>
    obtain rfl := Option.some.inj hstep
    cases again
    · cases ht
    · exact .inl ⟨rfl, rfl, by rw [← Option.some.inj ht]⟩
  | read i chunk =>
    simp only at hstep
    split_ifs at hstep with hi
    obtain ⟨hopen, -⟩ := hi
    have hlines : ∀ r, handle_read chunk = r → s.hears (.read i chunk) =
        match r with
        | .line buf => [⟨buf, s.input⟩]
        | _ => [] := by
      rintro r rfl
      simp only [Server.hears, Event.lines]
      cases handle_read chunk <;> rfl
    cases hread : handle_read chunk with
    | failed =>
      rw [hread] at hstep
      obtain rfl := Option.some.inj hstep
      exact .inl ⟨hlines _ hread, rfl, by rw [← Option.some.inj ht]⟩
    | eof =>
      rw [hread] at hstep
      obtain rfl := Option.some.inj hstep
      obtain rfl := Option.some.inj ht
      have hstage := stage_disconnect s i (decide ((s.requestP i).id ≠ 0)) file
      rw [hlines _ hread]
      exact .inr (hstage ▸ .leave)
    | exit =>
      rw [hread] at hstep
      obtain rfl := Option.some.inj hstep
      cases ht
    | line buf =>
      rw [hread] at hstep
      have hline : line kind setlk file i (s.noteLine i buf) = o := Option.some.inj hstep
      have hsame := same_noteLine s i buf
      subst hline
      have hsaid := said_line (hsame.table h) ((hsame.isOpen i).trans hopen) ht
      rw [hsame.stage, requestP_noteLine] at hsaid
      rw [hlines _ hread]
      exact .inr hsaid

/-- A process exits without a message, and without a line. -/
theorem Handled.replies_of_exit (h : Handled kind setlk file s e o) (ho : o.server = none) :
    o.replies = [] := by
  cases h with
  | exited => rfl
  | _ => cases ho

theorem hears_of_exit (hstep : handle kind setlk file e s = some o) (ho : o.server = none) :
    s.hears e = [] := by
  cases e with
  | read i chunk =>
    have hread := (server_eq_none_iff hstep).1 ho
    simp only [Server.hears, Event.lines, hread, List.map_nil]
  | _ => rfl

/-- An event leaves the other connections open, and their ids. -/
theorem Handled.other (h : Handled kind setlk file s e o) (ht : o.server = some t)
    (hj : j ≠ e.fd) :
    t.isOpen j = s.isOpen j ∧ (t.requestP j).id = (s.requestP j).id := by
  -- a connection that is closed is the one of the event
  have hclosed : ∀ {s' : Server} {i : ℕ} {lock : Bool}, Same s s' → j ≠ i →
      (s'.disconnect i lock).isOpen j = s.isOpen j ∧
        ((s'.disconnect i lock).requestP j).id = (s.requestP j).id := by
    intro s' i lock hsame hne
    rw [isOpen_disconnect, id_disconnect, if_neg hne, hsame.isOpen, hsame.id]
    simp [hne]
  cases h with
  | @opened fd s' replies hnew hopen hid =>
    obtain rfl := Option.some.inj ht
    refine ⟨?_, hid j⟩
    rw [hopen j, decide_eq_false (show ¬j = fd from hj), Bool.or_false]
  | kept hsame =>
    obtain rfl := Option.some.inj ht
    exact ⟨hsame.isOpen j, hsame.id j⟩
  | exited => cases ht
  | closed hopen hsame =>
    obtain rfl := Option.some.inj ht
    exact hclosed hsame hj
  | @admitted i chunk s' k hopen hsame =>
    obtain rfl := Option.some.inj ht
    have hne : j ≠ i := hj
    refine ⟨hsame.isOpen j, ?_⟩
    show (Function.update s'.requestP i _ j).id = _
    rw [Function.update_of_ne hne, hsame.id]
  | updated hopen hsame =>
    obtain rfl := Option.some.inj ht
    exact hclosed hsame hj

end Event

/-! ## Every run -/

section Runs

variable {ι : Type*} [Fintype ι] [DecidableEq ι] {kind : ι → Kind} {content : ℤ → UInt8}
  {W W' : World ι} {m u : Machine ι} {p : ι} {i : ℕ} {es : List (ι × Act)}

/-- Every connection has followed the protocol in the run `gs` from `W₀`. -/
def Spoken (kind : ι → Kind) (gs : List (ι × Event)) (W₀ W : World ι) : Prop :=
  ∀ p i, ∃ st, Dialogue (kind p) (World.said kind p i gs W₀) (W.heard p i) st ∧
    ∀ s, W.proc p = some s → st = s.stage W.file i

theorem World.said_snoc {file : File} {e : ι × Event} : ∀ {gs : List (ι × Event)} {W₀ W : World ι},
    (servers kind file).run gs W₀ = some W → World.said kind p i (gs ++ [e]) W₀ =
      World.said kind p i gs W₀ ++
        if e.1 = p ∧ e.2.fd = i then (W.proc p).elim [] fun s => s.hears e.2 else []
  | [], W₀, W, hrun => by
    obtain rfl : W₀ = W := by simpa using hrun
    cases hstep : World.step kind e W₀ <;> simp [World.said, hstep]
  | f :: gs, W₀, W, hrun => by
    obtain ⟨V, hstep, hrest⟩ := System.run_cons _ |>.1 hrun
    have hstep' : World.step kind f W₀ = some V := hstep
    simp only [List.cons_append, World.said, hstep', Option.elim_some, World.said_snoc hrest,
      List.append_assoc]

/-- What is said to a connection are the lines of its client. -/
theorem World.map_line_said {file : File} : ∀ {gs : List (ι × Event)} {W₀ W : World ι},
    (servers kind file).run gs W₀ = some W →
      (World.said kind p i gs W₀).map Said.line = linesOf p i gs
  | [], _, _, _ => rfl
  | e :: gs, W₀, W, hrun => by
    obtain ⟨V, hstep, hrest⟩ := System.run_cons _ |>.1 hrun
    obtain ⟨s, hs, -⟩ := Option.bind_eq_some_iff.1 hstep
    have hstep' : World.step kind e W₀ = some V := hstep
    have ih := World.map_line_said hrest
    simp only [World.said, linesOf, hstep', Option.elim_some, List.map_append, List.flatMap_cons]
    refine congrArg₂ _ ?_ ih
    split_ifs with hpi
    · obtain ⟨rfl, -⟩ := hpi
      simp [hs, Server.hears, Function.comp_def]
    · rfl

/-- They depend on the events of the process only. -/
theorem linesOf_filter (p : ι) (i : ℕ) (gs : List (ι × Event)) :
    linesOf p i (gs.filter fun e => e.1 = p) = linesOf p i gs := by
  induction gs with
  | nil => rfl
  | cons e gs ih =>
    unfold linesOf at ih ⊢
    by_cases hp : e.1 = p
    · rw [List.filter_cons_of_pos (by simpa using hp), List.flatMap_cons, List.flatMap_cons, ih]
    · rw [List.filter_cons_of_neg (by simpa using hp), List.flatMap_cons, ih,
        if_neg fun h => hp h.1, List.nil_append]

theorem World.heard_append {e : ι × Event} {replies : List Reply}
    (hsent : W'.sent = W.sent ++ replies.map fun r => (e.1, e.2.fd, r)) (p : ι) (i : ℕ) :
    W'.heard p i = W.heard p i ++ if e.1 = p ∧ e.2.fd = i then replies else [] := by
  unfold World.heard
  rw [hsent, List.filter_append, List.filter_append, List.map_append]
  congr 1
  by_cases hp : e.1 = p <;> by_cases hi : e.2.fd = i <;>
    simp [hp, hi, List.filter_map, Function.comp_def]

/-- A connection that an event is not about stays where it is. -/
theorem Shared.stage_other (h : Shared kind W) {e : ι × Event}
    (hstep : World.step kind e W = some W') (hne : ¬(e.1 = p ∧ e.2.fd = i)) {t : Server}
    (ht : W'.proc p = some t) :
    ∃ s, W.proc p = some s ∧ t.stage W'.file i = s.stage W.file i := by
  obtain ⟨s, o, hs, hh, hproc, -⟩ := World.step_cases h hstep
  have hsame : ∃ s, W.proc p = some s ∧ t.isOpen i = s.isOpen i ∧
      (t.requestP i).id = (s.requestP i).id := by
    rw [hproc] at ht
    by_cases hp : p = e.1
    · subst hp
      rw [Function.update_self] at ht
      exact ⟨s, hs, hh.other ht fun hi => hne ⟨rfl, hi.symm⟩⟩
    · rw [Function.update_of_ne hp] at ht
      exact ⟨t, ht, rfl, rfl⟩
  obtain ⟨s', hs', hopen, hid⟩ := hsame
  refine ⟨s', hs', stage_congr hopen hid fun hopen' hne' => ?_⟩
  have hk : (s'.requestP i).id = 902001 + ((s'.requestP i).id - 902001 : ℤ) := by omega
  exact h.shown_stays hstep (p := p) (i := i) ⟨s', hs', hopen', hne', hk⟩
    ⟨t, ht, hopen.trans hopen', by rwa [hid], by rwa [hid]⟩

theorem Spoken.step {file : File} {gs : List (ι × Event)} {W₀ : World ι}
    (hspoken : Spoken kind gs W₀ W) (hrun : (servers kind file).run gs W₀ = some W)
    (h : Shared kind W) {e : ι × Event} (hstep : World.step kind e W = some W') :
    Spoken kind (gs ++ [e]) W₀ W' := by
  intro p i
  obtain ⟨st, hdialogue, hstage⟩ := hspoken p i
  obtain ⟨s, hs, hmap⟩ := Option.bind_eq_some_iff.1 hstep
  obtain ⟨o, ho, hW'⟩ := Option.map_eq_some_iff.1 hmap
  have hheard : W'.heard p i =
      W.heard p i ++ if e.1 = p ∧ e.2.fd = i then o.replies else [] :=
    World.heard_append (by rw [← hW']) p i
  have hsaid := World.said_snoc (e := e) (p := p) (i := i) hrun
  have hproc : W'.proc = Function.update W.proc e.1 o.server := by rw [← hW']
  have hfile : W'.file = o.file := by rw [← hW']
  by_cases hpi : e.1 = p ∧ e.2.fd = i
  · rw [if_pos hpi] at hheard hsaid
    obtain ⟨rfl, rfl⟩ := hpi
    have htable := h.table _ s hs
    rw [hs, Option.elim_some] at hsaid
    rw [hproc, Function.update_self, hfile, hheard, hsaid]
    cases hserver : o.server with
    | none =>
      rw [(handle_spec htable ho).replies_of_exit hserver, hears_of_exit ho hserver,
        List.append_nil, List.append_nil]
      exact ⟨st, hdialogue, nofun⟩
    | some t =>
      rw [hstage s hs] at hdialogue
      refine ⟨t.stage o.file e.2.fd, ?_, fun t' ht' => by rw [Option.some.inj ht']⟩
      rcases handle_said htable ho hserver with ⟨hnone, hnil, hsame⟩ | hsays
      · rw [hnone, hnil, List.append_nil, List.append_nil, hsame]
        exact hdialogue
      · exact .next hdialogue hsays
  · rw [if_neg hpi, List.append_nil] at hheard hsaid
    rw [hheard, hsaid]
    refine ⟨st, hdialogue, fun t ht => ?_⟩
    obtain ⟨s', hs', hsame⟩ := h.stage_other hstep hpi ht
    rw [hsame, hstage s' hs']

theorem spoken_of_run {file : File} {gs : List (ι × Event)} {W₀ : World ι}
    (h₀ : (servers kind file).init W₀) (hrun : (servers kind file).run gs W₀ = some W) :
    Spoken kind gs W₀ W := by
  induction gs using List.reverseRecOn generalizing W with
  | nil =>
    obtain rfl : W₀ = W := by simpa using hrun
    intro p i
    obtain ⟨hproc, -, -, hsent⟩ := h₀
    obtain ⟨listen_fd, maxfd, input, -, hp⟩ := hproc p
    refine ⟨.closed, ?_, fun s hs => ?_⟩
    · rw [World.heard, hsent]
      exact .nil
    · obtain rfl := Option.some.inj (hp.symm.trans hs)
      exact (stage_boot _ _ _ _ _).symm
  | append_singleton gs e ih =>
    obtain ⟨V, hV, hstep⟩ := System.run_snoc _ |>.1 hrun
    exact (ih hV).step hV (shared_of_reachable ⟨W₀, gs, h₀, hV⟩) hstep

theorem Matches.heard (h : Matches m W) (p : ι) (i : ℕ) :
    W.heard p i = (m.process p).heard i := by
  unfold World.heard Process.heard
  rw [← h.sent p, List.filter_map, List.map_map]
  rfl

/-- What has been written stays written. -/
theorem sent_step {e : ι × Act} (hstep : m.step kind e = some u) (p : ι) :
    (m.process p).sent <+: (u.process p).sent := by
  obtain ⟨q, a⟩ := e
  obtain ⟨y, hy, rfl⟩ := Machine.step_eq_some.1 hstep
  by_cases hp : p = q
  · subst hp
    simp only [Function.update_self]
    have hnext : ∀ c : Call, (m.process p).sent <+: nextSent (m.process p).sent c := fun c => by
      cases c with
      | send i r => exact List.prefix_append _ _
      | _ => exact List.prefix_rfl
    cases Process.steps hy with
    | event => rw [sent_resume]
    | call =>
      rw [sent_resume]
      exact hnext _
    | _ => exact List.prefix_rfl
  · simp only [Function.update_of_ne hp]
    exact List.prefix_rfl

theorem heard_prefix (hrun : (machines kind content).run es m = some u) (p : ι) (i : ℕ) :
    (m.process p).heard i <+: (u.process p).heard i := by
  have hsent : (m.process p).sent <+: (u.process p).sent :=
    System.run_invariant (I := fun t => (m.process p).sent <+: (t.process p).sent)
      (fun _ _ _ h hstep => h.trans (sent_step hstep p)) es List.prefix_rfl hrun
  exact (hsent.filter _).map _

/-- Every connection follows the protocol, whatever calls the servers make in whatever order. The
events that were begun can be put in one order, which keeps those of each server, so that on every
connection the lines that its client sent and the messages make up a dialogue. The client has heard
a beginning of it. When no server is busy with an event it has heard all of it, and the connection
is where the tables say : a client that is still there has been shown the counts which the file
has. -/
theorem dialogues {m₀ : Machine ι} (h₀ : (machines kind content).init m₀)
    (hrun : (machines kind content).run es m₀ = some m) :
    ∃ gs W₀ W, (servers kind (records content)).init W₀ ∧
      (servers kind (records content)).run gs W₀ = some W ∧
      (∀ p, gs.filter (fun e => e.1 = p) = (begun es).filter fun e => e.1 = p) ∧
      ∀ p i, ∃ st, Dialogue (kind p) (World.said kind p i gs W₀) (W.heard p i) st ∧
        (World.said kind p i gs W₀).map Said.line = linesOf p i (begun es) ∧
        (m.process p).heard i <+: W.heard p i ∧
        (m.AtRest → (m.process p).heard i = W.heard p i ∧
          ∀ s, (m.process p).server = some s → st = s.stage (records m.content) i) := by
  obtain ⟨fs, u, hcalls, hnil, hrun', hrest⟩ := exists_atRest ⟨m₀, es, h₀, hrun⟩
  obtain ⟨gs, W₀, W, hinit, hW, hmatch, hsame⟩ := exists_matching h₀
    (System.run_append_eq_some _ |>.2 ⟨m, hrun, hrun'⟩) hrest
  rw [begun_append, begun_calls hcalls, List.append_nil] at hsame
  refine ⟨gs, W₀, W, hinit, hW, hsame, fun p i => ?_⟩
  obtain ⟨st, hdialogue, hstage⟩ := spoken_of_run hinit hW p i
  refine ⟨st, hdialogue, ?_, ?_, fun hm => ?_⟩
  · rw [World.map_line_said hW, ← linesOf_filter, hsame, linesOf_filter]
  · rw [hmatch.heard]
    exact heard_prefix hrun' p i
  · have hfs := hnil hm
    subst hfs
    obtain rfl : m = u := by simpa using hrun'
    refine ⟨(hmatch.heard p i).symm, fun s hs => ?_⟩
    rw [← hmatch.file]
    exact hstage s ((hmatch.proc p).trans hs)

end Runs

/-- A client connects to one of two servers, and books `1 2 3`. -/
def bookingActs : List (Bool × Act) :=
  connectActs true ++ List.replicate 7 (true, .call) ++ List.replicate 4 (true, .skip) ++
    (true, .select (· = 4)) :: List.replicate 4 (true, .skip) ++
    (true, .event (.read 4 (some [49, 32, 50, 32, 51, 10]))) :: List.replicate 9 (true, .call)

/-- It hears the counts that its line makes of those it was shown. -/
theorem dialogues_two : ∃ m, (machines (fun _ : Bool => .write) fun _ => 0).run bookingActs
    (twoMachines fun _ => 0) = some m ∧
    (m.process true).heard 4 = .prompt :: bookedLines (fun _ => 0) ++
      .modify :: .updated 902003 :: bookedLines ![1, 2, 3] ∧
    ∃ ls st, Dialogue .write ls ((m.process true).heard 4) st ∧
      ls.map Said.line = [[57, 48, 50, 48, 48, 51], [49, 32, 50, 32, 51]] := by
  obtain ⟨m, hrun, hheard, hrest⟩ : ∃ m, (machines (fun _ : Bool => .write) fun _ => 0).run
      bookingActs (twoMachines fun _ => 0) = some m ∧
      (m.process true).heard 4 = .prompt :: bookedLines (fun _ => 0) ++
        .modify :: .updated 902003 :: bookedLines ![1, 2, 3] ∧
      ∀ p, (m.process p).busy = false :=
    ⟨_, (Option.some_get (by decide +kernel)).symm, by decide +kernel, by decide +kernel⟩
  refine ⟨m, hrun, hheard, ?_⟩
  obtain ⟨gs, W₀, W, -, -, -, hall⟩ := @dialogues Bool _ _ (fun _ => .write) (fun _ => 0) m
    bookingActs (twoMachines fun _ => 0) ⟨fun _ => ⟨3, 8, _, rfl, rfl⟩, rfl⟩ hrun
  obtain ⟨st, hdialogue, hlines, -, hwhole⟩ := hall true 4
  rw [← (hwhole hrest).1] at hdialogue
  refine ⟨_, st, hdialogue, hlines.trans ?_⟩
  decide +kernel

end SP2022.Booking
