import Mathlib.Data.List.Basic
import SP2022.NetworkRuns

/-!
# The championship

`battle.c`, `player.c`, `graph.c` and `log.c`. A process is named by the forks that led to
it (`Pid`), the last one first, so `x :: p` is the child that `p` forks for its side `x`, and
`[]` is `battle A 0`. The processes form a network (`network`) : the pipes of a child are its
`stdin` and `stdout`, a `fork` and `execl` is the command line that the parent writes to
`fork (x :: p)`, and the flags are what `open` of a FIFO and `wait` block on. The log files
are left out.

Numbers are exact. `Setup` holds what the run depends on : the lines of
`player_status.txt`, and what `stat1` and `stat2` hold before a battle writes to them.
-/

namespace SP2022.Championship

/-- `Attribute`. -/
inductive Attribute
  | FIRE
  | GRASS
  | WATER
  deriving DecidableEq, Repr

/-- `Status`. -/
structure Status where
  real_player_id : ℤ
  HP : ℤ
  ATK : ℤ
  attr : Attribute
  current_battle_id : Char
  battle_ended_flag : ℤ
  deriving DecidableEq, Repr

/-! ## `graph.c` -/

/-- `Node`. -/
structure Node where
  left_player : Bool
  right_player : Bool
  left : List Char
  right : List Char
  parent : List Char
  attr : Attribute
  loser : ℤ
  loser_parent : Char

/-- `graph`, after `init`. -/
def graph : Char → Node
  | 'A' => ⟨false, false, ['B'], ['C'], [' '], .FIRE, -1, ' '⟩
  | 'B' => ⟨false, false, ['D'], ['E'], ['A'], .GRASS, 14, 'C'⟩
  | 'C' => ⟨false, true, ['F'], ['1', '4'], ['A'], .WATER, -1, ' '⟩
  | 'D' => ⟨false, false, ['G'], ['H'], ['B'], .WATER, 10, 'K'⟩
  | 'E' => ⟨false, false, ['I'], ['J'], ['B'], .FIRE, 13, 'L'⟩
  | 'F' => ⟨false, false, ['K'], ['L'], ['C'], .FIRE, -1, ' '⟩
  | 'G' => ⟨true, true, ['0'], ['1'], ['D'], .FIRE, 8, 'M'⟩
  | 'H' => ⟨true, true, ['2'], ['3'], ['D'], .GRASS, 11, 'N'⟩
  | 'I' => ⟨true, true, ['4'], ['5'], ['E'], .WATER, 9, 'M'⟩
  | 'J' => ⟨true, true, ['6'], ['7'], ['E'], .GRASS, 12, 'N'⟩
  | 'K' => ⟨false, true, ['M'], ['1', '0'], ['F'], .GRASS, -1, ' '⟩
  | 'L' => ⟨false, true, ['N'], ['1', '3'], ['F'], .GRASS, -1, ' '⟩
  | 'M' => ⟨true, true, ['8'], ['9'], ['K'], .FIRE, -1, ' '⟩
  | 'N' => ⟨true, true, ['1', '1'], ['1', '2'], ['L'], .WATER, -1, ' '⟩
  | _ => ⟨false, false, [], [], [], .FIRE, 0, '\x00'⟩

/-- The two children of a battle. -/
inductive Side
  | left
  | right
  deriving DecidableEq, Repr

/-- The other side. -/
def Side.other : Side → Side
  | .left => .right
  | .right => .left

/-- The program and the first argument of an `execl`. -/
inductive Command
  | battle (argv1 : List Char)
  | player (argv1 : List Char)

/-- What a battle starts on a side. -/
def Node.command (n : Node) : Side → Command
  | .left => if n.left_player then .player n.left else .battle n.left
  | .right => if n.right_player then .player n.right else .battle n.right

/-! ## A round -/

/-- `compare`. -/
def compare (stat1 stat2 : Status) : Bool :=
  stat1.HP < stat2.HP ||
    (stat1.HP = stat2.HP && stat1.real_player_id < stat2.real_player_id)

/-- `battleEnd`. -/
def battleEnd (stat1 stat2 : Status) : Status × Status × Bool :=
  if stat1.HP ≤ 0 ∨ stat2.HP ≤ 0 then
    ({ stat1 with battle_ended_flag := 1 }, { stat2 with battle_ended_flag := 1 }, true)
  else (stat1, stat2, false)

/-- `Battle`. -/
def Battle (stat1 stat2 : Status) (battle_ID : Char) : Status × Status :=
  let atk1 := if (graph battle_ID).attr = stat1.attr then stat1.ATK * 2 else stat1.ATK
  let atk2 := if (graph battle_ID).attr = stat2.attr then stat2.ATK * 2 else stat2.ATK
  let stat2 := { stat2 with HP := stat2.HP - atk1 }
  match battleEnd stat1 stat2 with
  | (stat1, stat2, true) => (stat1, stat2)
  | (stat1, stat2, false) =>
    let stat1 := { stat1 with HP := stat1.HP - atk2 }
    let (stat1, stat2, _) := battleEnd stat1 stat2
    (stat1, stat2)

/-- The loop of the playing mode, between the reads and the writes. -/
def playRound (battle_ID : Char) (stat1 stat2 : Status) : Status × Status :=
  let stat1 := { stat1 with current_battle_id := battle_ID }
  let stat2 := { stat2 with current_battle_id := battle_ID }
  if compare stat1 stat2 then Battle stat1 stat2 battle_ID else (Battle stat2 stat1 battle_ID).swap

/-! ## Processes -/

/-- A process, by the forks that led to it. -/
abbrev Pid :=
  List Side

/-- Pipes, by the child they belong to, FIFOs by their number, and the command line of a
process that is forked. -/
inductive Chan
  | fork (p : Pid)
  | stdin (p : Pid)
  | stdout (p : Pid)
  | fifo (n : ℤ)
  | terminal
  deriving DecidableEq

/-- What is written to a channel. -/
abbrev Chan.Value : Chan → Type
  | .fork _ => Command
  | .stdin _ => Status
  | .stdout _ => Status
  | .fifo _ => Status
  | .terminal => String

/-- What the system calls wait for. -/
inductive Flag
  | exited (p : Pid)
  | openRead (n : ℤ)
  | openWrite (n : ℤ)
  deriving DecidableEq

/-- Where a process is, with its variables. -/
inductive Local
  | unforked
  /-- `battle` before the `fork` of a side. -/
  | forking (battle_ID : Char) (x : Side)
  /-- The playing mode, before `readLog` from a child. -/
  | playRead (battle_ID : Char) (x : Side) (stat1 stat2 : Status)
  /-- The playing mode, before `writeLog` to a child. -/
  | playWrite (battle_ID : Char) (x : Side) (stat1 stat2 : Status)
  /-- Before the first `wait`. -/
  | waitLoser (battle_ID : Char) (stat1 stat2 : Status)
  /-- The passing mode, before `readLog` from the child that won. -/
  | passRead (battle_ID : Char) (won : Side) (stat : Status)
  /-- Before `writeLog` to the parent. -/
  | passUp (battle_ID : Char) (won : Side) (stat : Status)
  /-- Before `readLog` from the parent. -/
  | passBack (battle_ID : Char) (won : Side) (stat : Status)
  /-- Before `writeLog` to the child. -/
  | passDown (battle_ID : Char) (won : Side) (stat : Status)
  /-- Before the champion is printed. -/
  | print (winner : ℤ)
  /-- Before the last `wait`. -/
  | waitWinner
  /-- `player` before `writeLog` and before `readLog`. -/
  | playerWrite (player_ID originHP : ℤ) (status : Status)
  | playerRead (player_ID originHP : ℤ) (status : Status)
  /-- `openFIFO`, until it blocks, while it does, and the `write`. -/
  | openFIFO (n : ℤ) (status : Status)
  | blockedFIFO (n : ℤ) (status : Status)
  | writeFIFO (n : ℤ) (status : Status)
  /-- `createFIFO`, until it blocks, while it does, and the `read`. -/
  | createFIFO (player_ID : ℤ)
  | blockedAgent (player_ID : ℤ)
  | readFIFO (player_ID : ℤ)
  /-- Before `exit`. -/
  | exiting
  | exited

/-- A line of `player_status.txt`, as `sscanf` reads it. -/
structure Entry where
  HP : ℤ
  ATK : ℤ
  attr : List Char
  current_battle_id : Char
  battle_ended_flag : ℤ

/-- `file n` is the line of the player `n`. -/
structure Setup where
  file : ℤ → Entry
  stat1 : Pid → Status
  stat2 : Pid → Status

/-! ## `player.c` -/

/-- `translate`. -/
def translate (attr : List Char) : Attribute :=
  if attr = ['F', 'I', 'R', 'E'] then .FIRE
  else if attr = ['G', 'R', 'A', 'S', 'S'] then .GRASS
  else .WATER

/-- `atoi` of digits. -/
def atoi (s : List Char) : ℤ :=
  (s.takeWhile Char.isDigit).foldl (fun n c => 10 * n + (c.toNat - 48 : ℤ)) 0

/-- The playing mode, from the test of the inner loop on. -/
def playing (player_ID originHP : ℤ) (status : Status) : Local :=
  if status.battle_ended_flag ≠ 1 then .playerWrite player_ID originHP status
  else if status.current_battle_id = 'A' then .exiting
  else if 0 < status.HP then
    .playerWrite player_ID originHP { status with
      HP := status.HP + (originHP - status.HP).tdiv 2
      battle_ended_flag := 0 }
  else if 0 ≤ player_ID ∧ player_ID ≤ 7 then
    .openFIFO (graph status.current_battle_id).loser { status with
      HP := originHP
      battle_ended_flag := 0 }
  else .exiting

/-- `main` of `player`, up to its first read or write. -/
def playerMain (S : Setup) (player_ID : ℤ) : Local :=
  if 0 ≤ player_ID ∧ player_ID ≤ 7 then
    let e := S.file player_ID
    playing player_ID e.HP
      ⟨player_ID, e.HP, e.ATK, translate e.attr, e.current_battle_id, e.battle_ended_flag⟩
  else .createFIFO player_ID

/-! ## `battle.c` -/

/-- The playing mode, from the test of the loop on. -/
def playLoop (battle_ID : Char) (stat1 stat2 : Status) : Local :=
  if stat1.battle_ended_flag ≠ 1 then .playRead battle_ID .left stat1 stat2
  else .waitLoser battle_ID stat1 stat2

/-- The passing mode, from the test of the loop on. -/
def passLoop (battle_ID : Char) (won : Side) (stat : Status) : Local :=
  if 0 < stat.HP then .passRead battle_ID won stat else .waitWinner

/-- After the first `wait`. The `parent_pid` of the process `[]` is 0. -/
def afterBattle (p : Pid) (battle_ID : Char) (stat1 stat2 : Status) : Local :=
  let flag := stat1.HP ≤ 0
  let won := if flag then Side.right else Side.left
  let stat := if flag then stat2 else stat1
  if p ≠ [] then passLoop battle_ID won stat else .print stat.real_player_id

/-- The line of the champion. -/
def champion (winner : ℤ) : String :=
  s!"Champion is P{winner}\n"

/-- `wait`, for the `n`-th time. -/
def waited (p : Pid) (n : ℕ) (flag : Flag → Bool) : Bool :=
  n ≤ (flag (.exited (.left :: p))).toNat + (flag (.exited (.right :: p))).toNat

/-- The start of a program. -/
def execl (S : Setup) : Command → Local
  | .battle argv1 => .forking (argv1.headD '\x00') .left
  | .player argv1 => playerMain S (atoi argv1)

/-- What the process `p` does next. -/
def op (S : Setup) (p : Pid) : Local → Op Chan Flag Chan.Value Local
  | .unforked => .read (.fork p) (execl S)
  | .forking battle_ID .left =>
    .write (.fork (.left :: p)) ((graph battle_ID).command .left) (.forking battle_ID .right)
  | .forking battle_ID .right =>
    .write (.fork (.right :: p)) ((graph battle_ID).command .right)
      (playLoop battle_ID (S.stat1 p) (S.stat2 p))
  | .playRead battle_ID .left _ stat2 =>
    .read (.stdout (.left :: p)) fun stat1 => .playRead battle_ID .right stat1 stat2
  | .playRead battle_ID .right stat1 _ =>
    .read (.stdout (.right :: p)) fun stat2 =>
      let (stat1, stat2) := playRound battle_ID stat1 stat2
      .playWrite battle_ID .left stat1 stat2
  | .playWrite battle_ID .left stat1 stat2 =>
    .write (.stdin (.left :: p)) stat1 (.playWrite battle_ID .right stat1 stat2)
  | .playWrite battle_ID .right stat1 stat2 =>
    .write (.stdin (.right :: p)) stat2 (playLoop battle_ID stat1 stat2)
  | .waitLoser battle_ID stat1 stat2 =>
    .await (waited p 1) (afterBattle p battle_ID stat1 stat2)
  | .passRead battle_ID won _ =>
    .read (.stdout (won :: p)) fun stat => .passUp battle_ID won stat
  | .passUp battle_ID won stat => .write (.stdout p) stat (.passBack battle_ID won stat)
  | .passBack battle_ID won _ => .read (.stdin p) fun stat => .passDown battle_ID won stat
  | .passDown battle_ID won stat =>
    .write (.stdin (won :: p)) stat
      (if stat.current_battle_id = 'A' ∧ stat.battle_ended_flag ≠ 0 then .waitWinner
      else passLoop battle_ID won stat)
  | .print winner => .write .terminal (champion winner) .waitWinner
  | .waitWinner => .await (waited p 2) .exiting
  | .playerWrite player_ID originHP status =>
    .write (.stdout p) status (.playerRead player_ID originHP status)
  | .playerRead player_ID originHP _ => .read (.stdin p) (playing player_ID originHP)
  | .openFIFO n status => .raise (.openWrite n) (.blockedFIFO n status)
  | .blockedFIFO n status => .await (· (.openRead n)) (.writeFIFO n status)
  | .writeFIFO n status => .write (.fifo n) status .exiting
  | .createFIFO player_ID => .raise (.openRead player_ID) (.blockedAgent player_ID)
  | .blockedAgent player_ID => .await (· (.openWrite player_ID)) (.readFIFO player_ID)
  | .readFIFO player_ID =>
    .read (.fifo player_ID) fun status => playing player_ID status.HP status
  | .exiting => .raise (.exited p) .exited
  | .exited => .halt

/-- Pipes have one reader and one writer. -/
def reader : Chan → Option Pid
  | .fork p => some p
  | .stdin p => some p
  | .stdout p => some p.tail
  | .fifo _ => none
  | .terminal => none

/-- Anybody may be the one that writes to a FIFO. -/
def writer : Chan → Option Pid
  | .fork _ => none
  | .stdin p => some p.tail
  | .stdout p => some p
  | .fifo _ => none
  | .terminal => none

/-- The processes, their channels and what was written. -/
abbrev State :=
  Config Pid Chan Flag Chan.Value Local

/-- `battle A 0` is started. -/
def start (S : Setup) : State where
  proc p := if p = [] then execl S (.battle ['A']) else .unforked
  sent _ := []
  got _ := 0
  flag _ := false

theorem reader_of_read {S : Setup} {p q : Pid} {l : Local} {c : Chan} {k : c.Value → Local}
    (hop : op S p l = .read c k) (hr : reader c = some q) : q = p := by
  cases l
  case forking battle_ID x => cases x <;> cases hop
  case playRead battle_ID x stat1 stat2 => cases x <;> cases hop <;> exact (Option.some.inj hr).symm
  case playWrite battle_ID x stat1 stat2 => cases x <;> cases hop
  case readFIFO player_ID => cases hop; cases hr
  all_goals first
    | cases hop; done
    | cases hop; exact (Option.some.inj hr).symm

theorem writer_of_write {S : Setup} {p q : Pid} {l l' : Local} {c : Chan} {v : c.Value}
    (hop : op S p l = .write c v l') (hw : writer c = some q) : q = p := by
  cases l
  case forking battle_ID x => cases x <;> cases hop <;> cases hw
  case playRead battle_ID x stat1 stat2 => cases x <;> cases hop
  case playWrite battle_ID x stat1 stat2 =>
    cases x <;> cases hop <;> exact (Option.some.inj hw).symm
  case print winner => cases hop; cases hw
  case writeFIFO n status => cases hop; cases hw
  all_goals first
    | cases hop; done
    | cases hop; exact (Option.some.inj hw).symm

theorem waited_mono {p : Pid} {n : ℕ} {f g : Flag → Bool} (hfg : ∀ x, f x = true → g x = true)
    (hf : waited p n f = true) : waited p n g = true := by
  have hle : ∀ x, (f x).toNat ≤ (g x).toNat := fun x => by
    cases hx : f x
    · exact Nat.zero_le _
    · rw [hfg x hx]
  have hl := hle (.exited (.left :: p))
  have hr := hle (.exited (.right :: p))
  unfold waited at *
  rw [decide_eq_true_iff] at *
  omega

theorem op_steady (S : Setup) (p : Pid) (l : Local) : (op S p l).Steady := by
  cases l
  case forking battle_ID x => cases x <;> trivial
  case playRead battle_ID x stat1 stat2 => cases x <;> trivial
  case playWrite battle_ID x stat1 stat2 => cases x <;> trivial
  case waitLoser battle_ID stat1 stat2 => exact fun f g hfg => waited_mono hfg
  case waitWinner => exact fun f g hfg => waited_mono hfg
  case blockedFIFO n status => exact fun f g hfg => hfg _
  case blockedAgent player_ID => exact fun f g hfg => hfg _
  all_goals trivial

/-- The championship. -/
def network (S : Setup) : Network Pid Chan Flag Chan.Value Local where
  start := start S
  op := op S
  reader := reader
  writer := writer
  reads := reader_of_read
  writes := writer_of_write
  steady := op_steady S

end SP2022.Championship
