/-!
Blank characters and letters.
-/
namespace Rebuild.Text

/-- The characters with Unicode's `White_Space` property. -/
def isBlank (c : Char) : Bool :=
  let n := c.toNat
  (9 ≤ n && n ≤ 13) || n == 0x20 || n == 0x85 || n == 0xA0 || n == 0x1680 ||
    (0x2000 ≤ n && n ≤ 0x200A) || n == 0x2028 || n == 0x2029 || n == 0x202F ||
    n == 0x205F || n == 0x3000

/-- Drops the characters with property `p` at both ends. -/
def dropEnds (p : Char → Bool) (cs : List Char) : List Char :=
  ((cs.dropWhile p).reverse.dropWhile p).reverse

/-- Drops blank characters at both ends. -/
def trim (s : String) : String := String.ofList (dropEnds isBlank s.toList)

/-- ASCII letters in lower case, everything else unchanged. -/
def asciiLower (s : String) : String := String.ofList (s.toList.map Char.toLower)

end Rebuild.Text
