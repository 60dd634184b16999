import Rebuild.Deflate.Code
import Rebuild.Deflate.Token

/-!
How many bytes data take when they are compressed into one block: stored as they are, with the
fixed codes, or with codes made for them.
-/
namespace Rebuild.Deflate

/-! ## Symbols -/

/-- A symbol, and the number of bits that follow its word. -/
structure Symbol where
  index : Nat
  extra : Nat
  deriving DecidableEq, Repr

/-- The symbol of a number: numbers with the same highest bit and the same next `m` bits share
one, and the bits below follow it. -/
def Symbol.ofNumber (m n : Nat) : Symbol :=
  let extra := n.log2 - m
  ⟨Nat.pow 2 m * extra + n / Nat.pow 2 extra, extra⟩

/-- The symbol that ends a block. -/
def endOfBlock : Nat := 256

/-- The symbol of a copy's length. The longest has one of its own. -/
def lengthSymbol (length : Nat) : Symbol :=
  if length = Window.maxLength then ⟨285, 0⟩
  else
    let s := Symbol.ofNumber 2 (length - 3)
    ⟨endOfBlock + 1 + s.index, s.extra⟩

def distanceSymbol (distance : Nat) : Symbol := Symbol.ofNumber 1 (distance - 1)

namespace Token

/-- A literal, or the length of a copy. -/
def primary : Token → Symbol
  | literal byte => ⟨byte.toNat, 0⟩
  | copy length _ => lengthSymbol length

def distance? : Token → Option Symbol
  | literal _ => none
  | copy _ distance => some (distanceSymbol distance)

end Token

/-! ## Blocks -/

/-- The bits of some symbols, with a word of each and the bits that follow it. -/
def symbolBits (lengths : List Nat) (symbols : List Symbol) : Nat :=
  (symbols.map fun s => lengths.getD s.index 0 + s.extra).foldr (· + ·) 0

/-- The lengths of the words in the fixed code for literals and lengths. -/
def fixedPrimary : List Nat :=
  List.replicate 144 8 ++ List.replicate 112 9 ++ List.replicate 24 7 ++ List.replicate 8 8

/-- The lengths of the words in the fixed code for distances. -/
def fixedDistance : List Nat := List.replicate 30 5

/-- How often the symbols below `n` occur. -/
def frequencies (n : Nat) (symbols : List Symbol) : List Nat :=
  (List.range n).map fun i => symbols.countP (·.index = i)

/-- The first `least` entries, and those up to the last that is not zero. -/
def trimZeros (least : Nat) (entries : List Nat) : List Nat :=
  entries.take (max least (entries.reverse.dropWhile (· = 0)).length)

/-- The symbols for a run of one word length. Zeros come up to 138 at a time, repetitions of
another length up to six at a time; less than three are written out. -/
def runSymbols (length count : Nat) : List Symbol :=
  if length = 0 then
    let rest := count % 138
    List.replicate (count / 138) ⟨18, 7⟩ ++
      if rest < 3 then List.replicate rest ⟨0, 0⟩ else if rest ≤ 10 then [⟨17, 3⟩] else [⟨18, 7⟩]
  else
    let again := count - 1
    let rest := again % 6
    ⟨length, 0⟩ :: List.replicate (again / 6) ⟨16, 2⟩ ++
      if rest < 3 then List.replicate rest ⟨length, 0⟩ else [⟨16, 2⟩]

/-- The order in which a block tells the words for word lengths. -/
def headerOrder : List Nat := [16, 17, 18, 0, 8, 7, 9, 6, 10, 5, 11, 4, 12, 3, 13, 2, 14, 1, 15]

/-- The bits with which a block tells its two codes: how many words there are, and the lengths of
the words in a third code, of which three bits each tell the words. -/
def headerBits (primary distance : List Nat) : Nat :=
  let lengths := trimZeros (endOfBlock + 1) primary ++ trimZeros 1 distance
  let symbols := (lengths.splitBy (· == ·)).flatMap fun run => runSymbols (run.headD 0) run.length
  let words := wordLengths 7 (frequencies 19 symbols)
  14 + 3 * (trimZeros 4 (headerOrder.map fun i => words.getD i 0)).length + symbolBits words symbols

/-- The bits of a block behind its type. Little data take the fixed codes. -/
def blockBits (size : Nat) (tokens : List Token) : Nat :=
  let primary := tokens.map (·.primary) ++ [⟨endOfBlock, 0⟩]
  let distance := tokens.filterMap (·.distance?)
  if size < 48 then symbolBits fixedPrimary primary + symbolBits fixedDistance distance
  else
    let primaryWords := wordLengths 15 (frequencies 286 primary)
    let distanceWords := wordLengths 15 (frequencies 30 distance)
    headerBits primaryWords distanceWords + symbolBits primaryWords primary +
      symbolBits distanceWords distance

/-- The bytes of the compressed data. Data of more than 32 bytes of which compression would save
nothing are stored, with five bytes in front. -/
def size (data : List UInt8) : Nat :=
  let bits := 3 + blockBits data.length (tokens data)
  if data.length > 32 && bits / 8 + 1 ≥ data.length then data.length + 5 else (bits + 7) / 8

end Rebuild.Deflate
