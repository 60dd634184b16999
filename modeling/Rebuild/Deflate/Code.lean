/-!
The lengths of the words of a prefix code: short words for frequent symbols, and no word longer
than a limit.
-/
namespace Rebuild.Deflate

/-- A subtree of a code: the sum of the frequencies of its symbols, and their depths in it. -/
structure Subtree where
  weight : Nat
  depths : List Nat

namespace Subtree

def join (a b : Subtree) : Subtree := ⟨a.weight + b.weight, (a.depths ++ b.depths).map (· + 1)⟩

/-- Puts a subtree behind all that weigh no more. -/
def insert (t : Subtree) : List Subtree → List Subtree
  | [] => [t]
  | u :: rest => if t.weight < u.weight then t :: u :: rest else u :: insert t rest

theorem length_insert (t : Subtree) (ts : List Subtree) : (insert t ts).length = ts.length + 1 := by
  induction ts with
  | nil => rfl
  | cons u rest ih =>
    unfold insert
    split
    · rfl
    · exact congrArg Nat.succ ih

/-- The depths in the tree that comes from joining the two lightest subtrees again and again. -/
def mergedDepths : List Subtree → List Nat
  | [] => []
  | [t] => t.depths
  | a :: b :: rest => mergedDepths (insert (a.join b) rest)
termination_by ts => ts.length
decreasing_by simp only [length_insert, List.length_cons]; omega

end Subtree

/-! ## The limit -/

/-- How many words there are of each length, from the longest to the shortest. Words beyond the
limit count as words of that length. -/
def lengthCounts (limit : Nat) (depths : List Nat) : List Nat :=
  (List.range limit).map fun i =>
    depths.countP fun d => if i = 0 then limit ≤ d else d = limit - i

/-- The share of all words of length `limit` that the words of the counted lengths take. -/
def share (counts : List Nat) : Nat :=
  (counts.zipIdx.map fun c => c.1 * Nat.pow 2 c.2).foldr (· + ·) 0

/-- The longest word that is shorter than the limit makes room for two that are one bit longer. -/
def splitWord : List Nat → List Nat
  | longer :: (n + 1) :: rest => (longer + 2) :: n :: rest
  | longer :: rest => longer :: splitWord rest
  | [] => []

/-- Makes room for words of the limit's length, one after the other: each takes the place of one
of the two that a shorter word makes room for. -/
def makeRoom : (excess : Nat) → List Nat → List Nat
  | excess + 1, longest :: rest => makeRoom excess (splitWord ((longest - 1) :: rest))
  | _, counts => counts

/-- The lengths of the words for symbols with some frequencies. Those that do not occur have no
word, a single one has a word of one bit. -/
def wordLengths (limit : Nat) (frequencies : List Nat) : List Nat :=
  let used := (frequencies.zipIdx.filter fun f => f.1 ≠ 0).mergeSort fun a b => a.1 ≤ b.1
  let depths := (Subtree.mergedDepths (used.map fun f => ⟨f.1, [0]⟩)).map (max 1)
  let counts := lengthCounts limit depths
  let counts := makeRoom (share counts - Nat.pow 2 limit) counts
  let lengths := counts.zipIdx.flatMap fun c => List.replicate c.1 (limit - c.2)
  let words := (used.map (·.2)).zip lengths
  (List.range frequencies.length).map fun symbol => (words.lookup symbol).getD 0

end Rebuild.Deflate
