/-!
# Edit distance

The least number of deletions, insertions, substitutions and swaps of neighbours that turn one
text into another, where no character is edited twice.

The distances of one text to all ends of another form a row.  A row is computed from the rows of
the text without its first character and without its first two.

The distances of all fronts of one text to all fronts of another make up a table.  Its rows stand
one behind the other in a list of cells, and every cell is computed from cells above it and to its
left. A place outside the texts or the table, or a place before the first one, gives no distance.

## Main definitions

* `editRows` — the rows of a text and of the text without its first character
* `editDistance` — the distance of two texts
* `EditTable` — a table of numbers, row by row
* `EditTable.fillCell?` — the table with the distance of one more pair of fronts
* `tableDistance?` — the distance of two texts, by the table
-/

namespace Morphology

/-! ## Rows of distances -/

/-- The lengths of the ends of a text, the longest first. -/
def endLengths : List Char → List Nat
  | [] => [0]
  | _ :: bs => (bs.length + 1) :: endLengths bs

/-- The row of `a :: as`, from the row `below` of `as` and the row `second` of `as` without its
first character. -/
def editRow (a : Char) (as : List Char) (below second : List Nat) : List Char → List Nat
  | [] => [as.length + 1]
  | b :: bs =>
    let right := editRow a as below.tail second.tail bs
    let deleted := below.headD 0 + 1
    let inserted := right.headD 0 + 1
    let kept := below.tail.headD 0 + if a = b then 0 else 1
    let best := min (min deleted inserted) kept
    let swaps := as.head? = some b ∧ bs.head? = some a
    (if swaps then min best (second.tail.tail.headD 0 + 1) else best) :: right

/-- The row of a text against the ends of `bs`, and that of the text without its first
character. -/
def editRows (bs : List Char) : List Char → List Nat × List Nat
  | [] => (endLengths bs, [])
  | a :: as =>
    let (below, second) := editRows bs as
    (editRow a as below second bs, below)

/-- The least number of edits that turn one text into the other. -/
def editDistance (as bs : List Char) : Nat :=
  (editRows bs as).1.headD 0

/-! ## The table -/

/-- What is left of a number when another is taken away, unless that is greater. -/
def difference? (a b : Nat) : Option Nat :=
  if b ≤ a then some (a - b) else none

/-- A table of numbers, row by row. -/
structure EditTable where
  /-- The number of columns. -/
  width : Nat
  cells : Array Nat
  deriving Repr, DecidableEq, Inhabited

namespace EditTable

/-- A table of zeros. -/
def zeros (rows width : Nat) : EditTable :=
  ⟨width, Array.replicate (rows * width) 0⟩

/-- The table with a number in a cell, if there is such a cell. -/
def put? (t : EditTable) (place n : Nat) : Option EditTable :=
  if place < t.cells.size then some { t with cells := t.cells.setIfInBounds place n } else none

/-- The table with the distances to the empty front, in its first column and its first row. -/
def borders? (t : EditTable) (rows columns : Nat) : Option EditTable := do
  let t ← (List.range (rows + 1)).foldlM (fun t i => t.put? (i * t.width) i) t
  (List.range (columns + 1)).foldlM (fun t j => t.put? j j) t

/-- The least of a number and the edits that end with a swap of `a` and `b`, the last characters of
two fronts, if these are the last two characters of both in opposite order. -/
def swapped? (as bs : Array Char) (t : EditTable) (i j : Nat) (a b : Char) (best : Nat) :
    Option Nat :=
  if 1 < i && 1 < j then do
    let a' ← as[← difference? i 2]?
    let b' ← bs[← difference? j 2]?
    if a = b' ∧ a' = b then
      let row ← difference? i 2
      let before ← t.cells[← difference? (row * t.width + j) 2]?
      return min best (before + 1)
    else return best
  else some best

/-- The table with the distance of the fronts of `i` and `j` characters, of which there is one at
least. -/
def fillCell? (as bs : Array Char) (t : EditTable) (i j : Nat) : Option EditTable := do
  let above ← difference? i 1
  let a ← as[above]?
  let b ← bs[← difference? j 1]?
  let deleted ← t.cells[above * t.width + j]?
  let inserted ← t.cells[← difference? (i * t.width + j) 1]?
  let kept ← t.cells[← difference? (above * t.width + j) 1]?
  let best := min (min (deleted + 1) (inserted + 1)) (kept + if a = b then 0 else 1)
  t.put? (i * t.width + j) (← t.swapped? as bs i j a b best)

/-- The table with one more row. -/
def fillRow? (as bs : Array Char) (t : EditTable) (i : Nat) : Option EditTable :=
  (List.range' 1 bs.size).foldlM (fun t j => t.fillCell? as bs i j) t

end EditTable

/-- The least number of edits that turn one text into the other, read from the last cell of a
table. -/
def tableDistance? (as bs : Array Char) : Option Nat :=
  if as.isEmpty then some bs.size
  else if bs.isEmpty then some as.size
  else do
    let t ← (EditTable.zeros (as.size + 1) (bs.size + 1)).borders? as.size bs.size
    let t ← (List.range' 1 as.size).foldlM (fun t i => t.fillRow? as bs i) t
    t.cells[as.size * t.width + bs.size]?

end Morphology
