import Rebuild.FileId

/-!
The order in which files are compiled: dependencies first, as far as cycles allow. Files are
given out in blocks. A block is the frontier, all files whose dependencies are done, or, when
there is none, the files of a small cycle.
-/
namespace Rebuild.Build.Order

/-- The direct dependencies of a file among the remaining ones, itself excepted. -/
def successors (dependencies : FileId → List FileId) (remaining : List FileId) (file : FileId) :
    List FileId :=
  (dependencies file).filter fun d => d ≠ file ∧ d ∈ remaining

/-- The files without dependencies among the remaining ones. -/
def frontier (dependencies : FileId → List FileId) (remaining : List FileId) : List FileId :=
  remaining.filter fun file => successors dependencies remaining file = []

/-! ## Cycles -/

/-- A file that a search has reached, and the files on the way to it, last first. -/
structure Trail where
  file : FileId
  back : List FileId

namespace Trail

/-- The way in the order in which it was gone. -/
def toList (t : Trail) : List FileId := (t.file :: t.back).reverse

end Trail

/-- Follows the edges from the end of a trail. Yields nothing if one leads to `seed`; otherwise
the trails to files not visited before, and the files visited now. -/
def scan (seed : FileId) (trail : Trail) :
    List FileId → List FileId → Option (List Trail × List FileId)
  | [], visited => some ([], visited)
  | next :: rest, visited =>
    if next = seed then none
    else if next ∈ visited then scan seed trail rest visited
    else (scan seed trail rest (next :: visited)).map fun (trails, visited) =>
      (⟨next, trail.file :: trail.back⟩ :: trails, visited)

/-- Breadth-first search back to `seed`, for at most `n` files. -/
def search (edges : FileId → List FileId) (seed : FileId) :
    (n : Nat) → List Trail → List FileId → Option (List FileId)
  | 0, _, _ => none
  | _ + 1, [], _ => none
  | n + 1, trail :: queue, visited =>
    match scan seed trail (edges trail.file) visited with
    | none => some trail.toList
    | some (trails, visited) => search edges seed n (queue ++ trails) visited

/-- A shortest cycle through `seed` within the remaining files. -/
def shortestCycleThrough? (dependencies : FileId → List FileId) (remaining : List FileId)
    (seed : FileId) : Option (List FileId) :=
  search (successors dependencies remaining) seed (remaining.length + 1) [⟨seed, []⟩] [seed]

/-- The first shortest of the given cycle and the cycles through the seeds. A cycle of two
files ends the search, for there is no shorter one. -/
def bestCycle? (cycleThrough? : FileId → Option (List FileId)) :
    List FileId → Option (List FileId) → Option (List FileId)
  | [], best => best
  | seed :: seeds, best =>
    match cycleThrough? seed with
    | none => bestCycle? cycleThrough? seeds best
    | some cycle =>
      let shorter := match best with
        | some b => if cycle.length < b.length then cycle else b
        | none => cycle
      if shorter.length ≤ 2 then some shorter
      else bestCycle? cycleThrough? seeds (some shorter)

/-- Follows first edges until a file comes again, for at most `n` steps; yields the files from
its first visit on. -/
def walk (edges : FileId → List FileId) : (n : Nat) → Trail → List FileId
  | 0, _ => []
  | n + 1, trail =>
    match edges trail.file with
    | [] => []
    | next :: _ =>
      if next ∈ trail.file :: trail.back then
        next :: ((trail.file :: trail.back).takeWhile (· ≠ next)).reverse
      else walk edges n ⟨next, trail.file :: trail.back⟩

/-- A smallest cycle through one of the first `probeLimit` remaining files, and at least the
first is tried. If no cycle goes through them, some cycle that is reached from the first. -/
def smallestCycle (dependencies : FileId → List FileId) (probeLimit : Nat)
    (remaining : List FileId) : List FileId :=
  let seeds := remaining.take (max probeLimit 1)
  match bestCycle? (shortestCycleThrough? dependencies remaining) seeds none with
  | some cycle => cycle
  | none => match remaining with
    | [] => []
    | first :: _ =>
      walk (successors dependencies remaining) (remaining.length + 1) ⟨first, []⟩

/-! ## Blocks -/

/-- The next files to give out, in the order of the remaining ones. -/
def nextBlock (dependencies : FileId → List FileId) (probeLimit : Nat)
    (remaining : List FileId) : List FileId :=
  match frontier dependencies remaining with
  | [] =>
    let cycle := smallestCycle dependencies probeLimit remaining
    remaining.filter (· ∈ cycle)
  | files => files

/-- Why no order was found: all of this many files are blocked, and no cycle explains it. -/
structure NoCycle where
  blocked : Nat
  deriving DecidableEq, Repr

/-- The blocks of the remaining files, at most `n` of them. -/
def blocks (dependencies : FileId → List FileId) (probeLimit : Nat) :
    (n : Nat) → List FileId → Except NoCycle (List (List FileId))
  | _, [] => .ok []
  | 0, remaining => .error ⟨remaining.length⟩
  | n + 1, remaining =>
    match nextBlock dependencies probeLimit remaining with
    | [] => .error ⟨remaining.length⟩
    | block =>
      (blocks dependencies probeLimit n (remaining.filter (· ∉ block))).map (block :: ·)

/-- The given files without repetition, so that each comes after its dependencies where cycles
allow it. Dependencies on other files do not count. -/
def topological (nodes : List FileId) (dependencies : FileId → List FileId)
    (probeLimit : Nat) : Except NoCycle (List FileId) :=
  let remaining := nodes.eraseDups
  (blocks dependencies probeLimit remaining.length remaining).map List.flatten

end Rebuild.Build.Order
