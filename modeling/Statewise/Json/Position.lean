/-!
# Positions in a text

A position in a text is a line and a column, both counted from 1; columns count bytes. `Position.offset`
is the number of bytes before it. Lines, columns and offsets are 64-bit words.
-/

namespace Statewise

structure Position where
  line : UInt64
  column : UInt64
deriving DecidableEq, Repr

namespace Position

/-- The number of bytes in each line, its newline included. -/
def lineSizes : List Char → List Nat
  | [] => []
  | c :: cs =>
    if c = '\n' then 1 :: lineSizes cs
    else match lineSizes cs with
      | [] => [c.utf8Size]
      | n :: ns => (c.utf8Size + n) :: ns

/-- The number of bytes in the lines above the position. -/
def bytesAbove (p : Position) (text : String) : Nat :=
  ((lineSizes text.toList).take (p.line.toNat - 1)).foldl (· + ·) 0

/-- The number of bytes before the position, at most those of the whole text. A column so large that the
sum exceeds a word starts again from 0. -/
def offset (p : Position) (text : String) : Nat :=
  let sum := UInt64.ofNat (p.bytesAbove text) + UInt64.ofNat (p.column.toNat - 1)
  Nat.min sum.toNat text.utf8ByteSize

end Position

end Statewise
