/-!
Data as literal bytes and copies of earlier bytes. Copies are found by a bounded search along
chains of positions, and a copy waits for one byte whether the next position has a longer one.
-/
namespace Rebuild.Deflate

/-- A byte as it is, or `length` bytes that stand `distance` bytes earlier too. -/
inductive Token where
  | literal (byte : UInt8)
  | copy (length distance : Nat)
  deriving DecidableEq, Repr

/-- Data, and for each position the latest earlier one in the same bucket. A zero ends the chain,
so that no copy starts at the very front. -/
structure Window where
  data : Array UInt8
  earlier : Array Nat

namespace Window

/-- The number of buckets. -/
def buckets : Nat := 32768

/-- The bucket of a position by its three bytes. -/
def bucket (a b c : UInt8) : Nat := (a.toNat <<< 10 ^^^ b.toNat <<< 5 ^^^ c.toNat) % buckets

/-- The links of the chains from a position on. The last two positions are in no bucket. -/
def chain : (position : Nat) → (latest : Array Nat) → List UInt8 → List Nat
  | position, latest, a :: b :: c :: rest =>
    let i := bucket a b c
    latest.getD i 0 :: chain (position + 1) (latest.setIfInBounds i position) (b :: c :: rest)
  | _, _, rest => rest.map fun _ => 0

def ofData (data : List UInt8) : Window :=
  ⟨data.toArray, (chain 0 (Array.replicate buckets 0) data).toArray⟩

/-- How many bytes, at most `n`, agree from two positions on. -/
def agreeing (w : Window) : (n : Nat) → Nat → Nat → Nat
  | 0, _, _ => 0
  | n + 1, p, q => if w.data[p]? = w.data[q]? then w.agreeing n (p + 1) (q + 1) + 1 else 0

structure Match where
  length : Nat
  distance : Nat
  deriving DecidableEq, Repr

/-- The longest copy. -/
def maxLength : Nat := 258

/-- How far back a copy may start, with `left` bytes to come. -/
def reach (position left : Nat) : Nat := min position (32768 - left)

/-- The next link of a chain, if it is within reach of a position. -/
def link? (w : Window) (position left place : Nat) : Option Nat :=
  let next := w.earlier.getD place 0
  if next = 0 || position - next > reach position left then none else some next

/-- Follows a chain for up to `n` links to a place where a match could be longer than `length`:
the two bytes where such a match would end agree. Tells where it stopped and whether it is such a
place, or nothing at the end of the chain. -/
def candidate? (w : Window) (position left length : Nat) : (n : Nat) → Nat → Option (Nat × Bool)
  | 0, place => some (place, false)
  | n + 1, place => (w.link? position left place).bind fun next =>
    if w.agreeing 2 (next + length - 1) (position + length - 1) = 2 then some (next, true)
    else w.candidate? position left length n next

/-- The best match after some rounds of up to three links each. A round ends with its first
candidate, and the search ends when no match can be longer. -/
def search (w : Window) (position left : Nat) : (rounds : Nat) → Nat → Match → Match
  | 0, _, best => best
  | rounds + 1, place, best =>
    match w.candidate? position left best.length 3 place with
    | none => best
    | some (next, false) => w.search position left rounds next best
    | some (next, true) =>
      let length := w.agreeing left next position
      if length ≤ best.length then w.search position left rounds next best
      else if length = left then ⟨length, position - next⟩
      else w.search position left rounds next ⟨length, position - next⟩

/-- A match that is longer than `known`. The more is known, the shorter is the search. A copy of
three bytes from far away does not pay. -/
def longer? (w : Window) (position known : Nat) : Option Match :=
  let left := min maxLength (w.data.size - position)
  if left ≤ known then none
  else
    let best := w.search position left (if known < 32 then 43 else 11) position ⟨known, 0⟩
    if best.distance = 0 || (best.length = 3 && best.distance ≥ 8192) then none else some best

/-- A match of at least this length does not wait for a longer one. -/
def longEnough : Nat := 128

/-- The tokens from a position on. The match of the byte before may wait: it is taken unless there
is a longer one here, and otherwise that byte is a literal. Every step takes at least one of the
`n` bytes that are left. -/
def tokensFrom (w : Window) : (n position : Nat) → (waiting : Option Match) → List Token
  | 0, _, _ => []
  | n + 1, position, waiting =>
    match w.data[position]? with
    | none => []
    | some byte =>
      match waiting, w.longer? position ((waiting.map (·.length)).getD 2) with
      | none, none => .literal byte :: w.tokensFrom n (position + 1) none
      | some m, none =>
        .copy m.length m.distance :: w.tokensFrom n (position + m.length - 1) none
      | waiting, some m =>
        let before := match waiting with
          | some _ => [.literal (w.data.getD (position - 1) 0)]
          | none => []
        before ++
          if m.length ≥ longEnough then
            .copy m.length m.distance :: w.tokensFrom n (position + m.length) none
          else w.tokensFrom n (position + 1) (some m)

end Window

def tokens (data : List UInt8) : List Token := (Window.ofData data).tokensFrom data.length 0 none

end Rebuild.Deflate
