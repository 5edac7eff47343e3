import Morphology.Pattern.Footprint
import Morphology.Pattern.Program
import Morphology.Pattern.Reader

/-!
# Searching a text

The ways to match are followed side by side, the preferred ones first.  Of two ways to the same
instruction at the same place only the preferred one is kept, so a search takes at most as many
steps as the program has instructions, for each character.

## Main definitions

* `Pattern` — a pattern with its text and its program
* `Thread` — an instruction reached, with the places remembered on the way
* `Program.follow` — the threads behind the next character
* `Pattern.read?`, `Pattern.isMatch`, `Pattern.findAll` — reading a pattern and searching a text
* `PatternEngine` — reading and searching for patterns of any kind
-/

namespace Morphology.Pattern

/-! ## Threads -/

/-- An instruction reached, with the places remembered on the way there, the latest first. -/
structure Thread where
  address : Nat
  marks : List (Nat × Nat)
  deriving Repr, DecidableEq, Inhabited

namespace Program

/-- The threads behind the next character, and the thread that accepts, if one does.  Those to which
it is preferred end with it.  No instruction is followed twice: those in `seen` are done with.  Each
instruction has at most two ways on, so the number of threads and twice that of instructions is
enough `fuel`. -/
def follow (p : Program) (place : Place) (pos : Nat) : (fuel : Nat) → (seen : Array Bool) →
    (onward : List Thread) → List Thread → List Thread × Option Thread
  | _, _, onward, [] => (onward.reverse, none)
  | 0, _, onward, _ => (onward.reverse, none)
  | fuel + 1, seen, onward, t :: rest =>
    if seen.getD t.address true then follow p place pos fuel seen onward rest
    else
      let seen := seen.setIfInBounds t.address true
      match p.code.getD t.address .accept with
      | .one s next =>
        follow p place pos fuel seen
          (if place.after.any s.contains then { t with address := next } :: onward else onward) rest
      | .assert a next =>
        follow p place pos fuel seen onward
          (if a.holds place then { t with address := next } :: rest else rest)
      | .mark slot next =>
        follow p place pos fuel seen onward (⟨next, (slot, pos) :: t.marks⟩ :: rest)
      | .fork first second =>
        follow p place pos fuel seen onward
          ({ t with address := first } :: { t with address := second } :: rest)
      | .accept => (onward.reverse, some t)

/-- The threads behind the character after a place, and the thread that accepts there. -/
def advance (p : Program) (place : Place) (pos : Nat) (ts : List Thread) :
    List Thread × Option Thread :=
  p.follow place pos (ts.length + 2 * p.code.size) (Array.replicate p.code.size false) [] ts

end Program

/-! ## Matches -/

/-- A match in a text: its ends, and the places remembered in it, the latest first. -/
structure Match where
  first : Nat
  last : Nat
  marks : List (Nat × Nat)
  deriving Repr, DecidableEq, Inhabited

/-- The text between two places. -/
def slice (text : List Char) (first last : Nat) : List Char :=
  (text.drop first).take (last - first)

/-- The text of a numbered group; group `0` is the whole match. -/
def Match.group? (m : Match) (text : List Char) (i : Nat) : Option (List Char) :=
  if i = 0 then some (slice text m.first m.last)
  else return slice text (← m.marks.lookup (2 * i)) (← m.marks.lookup (2 * i + 1))

namespace Program

/-- The number under which the place where a match begins is remembered. -/
def startSlot : Nat := 0

/-- The match of a thread that ends at a place. -/
def toMatch (last : Nat) (t : Thread) : Match :=
  ⟨(t.marks.lookup startSlot).getD last, last, t.marks⟩

/-- The threads behind the next character, and the match so far.  A thread begins here while there
is no match; a match gives way to one of a thread that is preferred to it. -/
def stepFrom (p : Program) (place : Place) (pos : Nat) (found : Option Match) (ts : List Thread) :
    List Thread × Option Match :=
  let started := if found.isNone then ts ++ [⟨p.entry, [(startSlot, pos)]⟩] else ts
  let (onward, accepted) := p.advance place pos started
  (onward, accepted.map (toMatch pos) <|> found)

/-- The preferred match of the threads and of those that begin in the rest of the text. -/
def searchFrom (p : Program) (before : Option Char) (pos : Nat) (found : Option Match)
    (ts : List Thread) : List Char → Option Match
  | [] => (p.stepFrom ⟨before, none⟩ pos found ts).2
  | c :: rest =>
    let (onward, found) := p.stepFrom ⟨before, some c⟩ pos found ts
    if onward.isEmpty && found.isSome then found
    else searchFrom p (some c) (pos + 1) found onward rest

/-- The first match that begins at a place or behind it. -/
def matchFrom? (p : Program) (text : List Char) (pos : Nat) : Option Match :=
  if pos ≤ text.length then
    p.searchFrom (if pos = 0 then none else text[pos - 1]?) pos none [] (text.drop pos)
  else none

/-- The matches from a place on.  An empty match right behind the last one does not count.  Every
step moves on or ends the matches, or is followed by one that does. -/
def matchesFrom (p : Program) (text : List Char) :
    (fuel : Nat) → (pos : Nat) → (lastEnd : Option Nat) → List Match
  | 0, _, _ => []
  | fuel + 1, pos, lastEnd =>
    match p.matchFrom? text pos with
    | none => []
    | some m =>
      -- The search goes on behind the next character.
      if m.first = m.last && some m.last == lastEnd then matchesFrom p text fuel (pos + 1) lastEnd
      else m :: matchesFrom p text fuel m.last (some m.last)

end Program

end Pattern

/-- A pattern with the text it was read from and the program that matches it. -/
structure Pattern where
  text : String
  expr : Pattern.Expr
  program : Pattern.Program
  program_eq : program = .ofExpr expr := by rfl
  /-- The numbers of the named groups. -/
  names : List (String × Nat)
  deriving Repr, DecidableEq

/-- The pattern that matches the empty text. -/
instance : Inhabited Pattern :=
  ⟨{ text := "", expr := .empty, program := .ofExpr .empty, names := [] }⟩

namespace Pattern

/-- The pattern that a text stands for, if its automata are not too large. -/
def read? (text : String) : Option Pattern := do
  let (expr, names) ← (Token.scan text.toList).bind Reading.start.finish?
  if expr.isTooLarge then none
  else return { text, expr, program := .ofExpr expr, names }

/-- Whether the pattern matches anywhere in a text. -/
def isMatch (p : Pattern) (text : String) : Bool :=
  (p.program.matchFrom? text.toList 0).isSome

/-- All matches in a text, from left to right, without overlaps. -/
def findAll (p : Pattern) (text : List Char) : List Match :=
  p.program.matchesFrom text (2 * text.length + 2) 0 none

end Pattern

/-! ## Other kinds of patterns -/

/-- A kind of patterns: which of them texts stand for, and where they are found. -/
class PatternEngine (P : Type) where
  /-- The pattern that a text stands for, if it is one. -/
  read? : String → Option P
  /-- Whether the pattern matches anywhere in a text. -/
  isMatch : P → String → Bool

instance : PatternEngine Pattern where
  read? := Pattern.read?
  isMatch := Pattern.isMatch

end Morphology
