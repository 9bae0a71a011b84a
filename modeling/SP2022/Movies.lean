import Mathlib.Order.Defs.LinearOrder
import SP2022.Libc
import SP2022.Merging

/-!
# The movie recommendation server

`lib.c` and the two builds of `server.c`. A score is a value of any linear order with a
zero and `-1.0` below it (`Score`), and a movie's score for a request is `Dot`, of any two
profiles.

Strings live in memory that forked processes share (`slots`, one for each entry of
`filter` in the PROCESS build) or on the heap of one process. `fork` copies the heap, so
of what a child does only its writes to slots and to `pts` are left when it exits. A step
that the C code does not survive (a failed assertion, an index `-1`, a string that does not
fit into `MAX_LEN` bytes) is `none`.

The threads of the THREAD build and the children of the PROCESS build work on separate
parts of the arrays, so they are run one after the other.
-/

namespace SP2022.Recommendation

/-- `MAX_LEN`. -/
def MAX_LEN : ℕ :=
  255

/-- `depth`. -/
def depth : ℕ :=
  5

/-- `mergeThread`. -/
def mergeThread : ℕ :=
  32

/-- The suffix `"\t[It's top secret.]"`. -/
def key : Bytes :=
  [9, 91, 73, 116, 39, 115, 32, 116, 111, 112, 32, 115, 101, 99, 114, 101, 116, 46, 93]

/-- The keyword `"*"`. -/
def star : Bytes :=
  [42]

/-- Scores that are not `NaN`. -/
class Score (S : Type) extends LinearOrder S, Zero S where
  /-- `-1.0`. -/
  minusOne : S
  minusOne_lt : minusOne < 0

/-- `movie_profile`. -/
structure Movie (P : Type*) where
  movieId : ℕ
  title : Bytes
  profile : P

/-- `request`. -/
structure Request (P : Type*) where
  id : ℤ
  keywords : Bytes
  profile : P

/-- `strcmp`. The order of bytes is that of `unsigned char`. -/
def strcmp : Bytes → Bytes → ℤ
  | [], [] => 0
  | [], _ :: _ => -1
  | _ :: _, [] => 1
  | a :: s, b :: t => if a < b then -1 else if b < a then 1 else strcmp s t

/-- The test on a movie in the filter loop. -/
def Request.wants {P : Type*} (req : Request P) (m : Movie P) : Bool :=
  (strstr req.keywords m.title).isSome || strcmp req.keywords star = 0

/-! ## Memory -/

/-- A `char *`, to a shared slot or to the heap. -/
inductive Ptr
  | slot (n : ℕ)
  | heap (n : ℕ)
  deriving DecidableEq, Repr

/-- The strings in shared memory and on the heap of a process. -/
structure Mem where
  slots : List Bytes
  heap : List Bytes

namespace Mem

/-- The string at a pointer. -/
def str (mem : Mem) : Ptr → Bytes
  | .slot n => mem.slots.getD n []
  | .heap n => mem.heap.getD n []

/-- Store a string. -/
def store (mem : Mem) (s : Bytes) : Ptr → Mem
  | .slot n => { mem with slots := mem.slots.set n s }
  | .heap n => { mem with heap := mem.heap.set n s }

/-- `malloc`, and the string that is then stored there. -/
def malloc (mem : Mem) (s : Bytes) : Mem × Ptr :=
  ({ mem with heap := mem.heap ++ [s] }, .heap mem.heap.length)

/-- `strcpy` to a place of `MAX_LEN` bytes. -/
def strcpy (mem : Mem) (dst src : Ptr) : Option Mem :=
  if (mem.str src).length < MAX_LEN then some (mem.store (mem.str src) dst) else none

end Mem

section Scores

variable {S : Type} [Score S]

/-! ## `lib.c` -/

/-- The loop body of `argmax`. -/
def argmaxStep (src : List S) (movie : List Bytes) (best : ℕ × S) (i : ℕ) : ℕ × S :=
  if best.2 < src.getD i 0 then (i, src.getD i 0)
  else if src.getD i 0 = best.2 then
    if 0 < strcmp (movie.getD best.1 []) (movie.getD i []) then (i, best.2) else best
  else best

/-- `argmax`. -/
def argmax (src : List S) (movie : List Bytes) (start stop : ℕ) : Option ℕ :=
  let best := (List.range' start (stop - start)).foldl (argmaxStep src movie)
    (start, Score.minusOne)
  if 0 ≤ best.2 then some best.1 else none

/-- `add_secret`. -/
def add_secret (mem : Mem) (s : Ptr) : Option (Mem × Ptr) :=
  if (mem.str s).length < MAX_LEN then some (mem.malloc (mem.str s ++ key)) else none

/-- `movies[i] = add_secret(movies[i], strlen(movies[i]))`. -/
def secretAt (mem : Mem) (movies : List Ptr) (i : ℕ) : Option (Mem × List Ptr) := do
  let s ← movies[i]?
  let (mem, s) ← add_secret mem s
  some (mem, movies.set i s)

/-- The loop body of `sort`. -/
def sortStep (st : Mem × List Ptr × List S) (i : ℕ) : Option (Mem × List Ptr × List S) := do
  let (mem, movies, pts) := st
  let idx ← argmax pts (movies.map mem.str) i movies.length
  if idx < movies.length then
    let (mem, movies) ← secretAt mem (swapAt movies i idx) i
    some (mem, movies, swapAt pts i idx)
  else none

/-- `sort`, with `size` the length of the arrays. -/
def sort (num_of_movies : ℕ) (mem : Mem) (movies : List Ptr) (pts : List S) :
    Option (Mem × List Ptr × List S) :=
  if movies.length ≤ num_of_movies ∧ movies ≠ [] then do
    let (mem, movies, pts) ←
      (List.range (movies.length - 1)).foldlM sortStep (mem, movies, pts)
    let (mem, movies) ← secretAt mem movies (movies.length - 1)
    some (mem, movies, pts)
  else none

/-! ## The merge loops -/

/-- The test of the merge loop. -/
def better (str : Ptr → Bytes) (a b : Ptr × S) : Prop :=
  b.2 < a.2 ∨ a.2 = b.2 ∧ strcmp (str a.1) (str b.1) < 0

instance (str : Ptr → Bytes) : DecidableRel (better (S := S) str) :=
  fun a b => inferInstanceAs (Decidable (b.2 < a.2 ∨ a.2 = b.2 ∧ strcmp (str a.1) (str b.1) < 0))

/-- The three loops that fill `tmp_movies` and `tmp_pts`. -/
def mergeLoops (mem : Mem) (movies : List Ptr) (pts : List S) (mid : ℕ) : List Ptr × List S :=
  let tmp := mergeBy (better mem.str) ((movies.zip pts).take mid) ((movies.zip pts).drop mid)
  (tmp.map Prod.fst, tmp.map Prod.snd)

/-! ## The THREAD build -/

/-- `mergeSort` of the THREAD build. The first argument is the number of levels below, that
is `depth - 1 - Input -> depth`. -/
def mergeSortT (num_of_movies : ℕ) :
    ℕ → Mem → List Ptr → List S → Option (Mem × List Ptr × List S)
  | 0, mem, movies, pts => do
    let mid := movies.length / 2
    let (mem, movies₁, pts₁) ← sort num_of_movies mem (movies.take mid) (pts.take mid)
    let (mem, movies₂, pts₂) ← sort num_of_movies mem (movies.drop mid) (pts.drop mid)
    let (movies, pts) := mergeLoops mem (movies₁ ++ movies₂) (pts₁ ++ pts₂) mid
    some (mem, movies, pts)
  | levels + 1, mem, movies, pts => do
    let mid := movies.length / 2
    let (mem, movies₁, pts₁) ← mergeSortT num_of_movies levels mem (movies.take mid) (pts.take mid)
    let (mem, movies₂, pts₂) ← mergeSortT num_of_movies levels mem (movies.drop mid) (pts.drop mid)
    let (movies, pts) := mergeLoops mem (movies₁ ++ movies₂) (pts₁ ++ pts₂) mid
    some (mem, movies, pts)

variable {P : Type*} (Dot : P → P → S)

/-- `Recommend` of the THREAD build : the lines it writes. The heap holds the titles of all
movies. -/
def Recommend (movies : List (Movie P)) (req : Request P) : Option (List Bytes) := do
  let found := movies.zipIdx.filter fun m => req.wants m.1
  let mem : Mem := ⟨[], movies.map Movie.title⟩
  let filter := found.map fun m => Ptr.heap m.2
  let pts := found.map fun m => Dot req.profile m.1.profile
  let (mem, filter, _) ←
    if filter.length < mergeThread then sort movies.length mem filter pts
    else mergeSortT movies.length (depth - 1) mem filter pts
  some (filter.map mem.str)

/-! ## The PROCESS build -/

/-- `strcpy(dst[i], src[i])` for all `i`, in order. -/
def copyBack : List Ptr → List Ptr → Mem → Option Mem
  | dst :: dsts, src :: srcs, mem => (mem.strcpy dst src).bind (copyBack dsts srcs)
  | _, _, mem => some mem

/-- `cpy_movies[i] = malloc(MAX_LEN); strcpy(cpy_movies[i], src[i])` for all `i`, in order. -/
def copyOut : List Ptr → Mem → Option (Mem × List Ptr)
  | [], mem => some (mem, [])
  | src :: srcs, mem => do
    let (mem, dst) := mem.malloc []
    let mem ← mem.strcpy dst src
    let (mem, dsts) ← copyOut srcs mem
    some (mem, dst :: dsts)

/-- `mergeSort` of the PROCESS build. `Input -> movies` is only read. At a leaf the pointers
are copied and the copies sorted. Above, two children sort the halves in shared memory, each
with a copy of the heap that is lost when it exits. -/
def mergeSortP (num_of_movies : ℕ) : ℕ → Mem → List Ptr → List S → Option (Mem × List S)
  | 0, mem, movies, pts => do
    let mid := movies.length / 2
    let (mem, cpy₁, pts₁) ← sort num_of_movies mem (movies.take mid) (pts.take mid)
    let (mem, cpy₂, pts₂) ← sort num_of_movies mem (movies.drop mid) (pts.drop mid)
    let (tmp, pts) := mergeLoops mem (cpy₁ ++ cpy₂) (pts₁ ++ pts₂) mid
    let mem ← copyBack movies tmp mem
    some (mem, pts)
  | levels + 1, mem, movies, pts => do
    let mid := movies.length / 2
    let (child₁, pts₁) ← mergeSortP num_of_movies levels mem (movies.take mid) (pts.take mid)
    let mem := { mem with slots := child₁.slots }
    let (child₂, pts₂) ← mergeSortP num_of_movies levels mem (movies.drop mid) (pts.drop mid)
    let mem := { mem with slots := child₂.slots }
    let (mem, cpy) ← copyOut movies mem
    let (tmp, pts) := mergeLoops mem cpy (pts₁ ++ pts₂) mid
    let mem ← copyBack movies tmp mem
    some (mem, pts)

/-- `strcpy(filter[len], title)` into a new slot. -/
def shareTitle (slots : List Bytes) (title : Bytes) : Option (List Bytes) :=
  if title.length < MAX_LEN then some (slots ++ [title]) else none

/-- `main` of the PROCESS build, after reading the movies and the request : the lines it
writes. -/
def mainP (movies : List (Movie P)) (req : Request P) : Option (List Bytes) := do
  let found := movies.filter req.wants
  let slots ← (found.map Movie.title).foldlM shareTitle []
  let mem : Mem := ⟨slots, movies.map Movie.title⟩
  let filter := (List.range found.length).map Ptr.slot
  let pts := found.map fun m => Dot req.profile m.profile
  if found.length < mergeThread then do
    let (mem, filter, _) ← sort movies.length mem filter pts
    some (filter.map mem.str)
  else do
    let (mem, _) ← mergeSortP movies.length (depth - 1) mem filter pts
    some (filter.map mem.str)

end Scores

end SP2022.Recommendation
