import Morphology.Pattern.CharSet

/-!
# Search patterns

A pattern is built up by constructors that keep it simple: parts one after another have no
empty parts among them and their characters are joined to literal text, a choice among sets is
a set, and what all alternatives begin with is said once.  Patterns that differ in such things
only are equal.

## Main definitions

* `Place`, `Assertion` — a place in a text and a condition on it
* `Expr` — a pattern
* `Expr.sequence`, `Expr.choice`, `Expr.repeated` — patterns made of patterns
* `Expr.shortest?`, `Expr.longest?` — how many characters a pattern matches
-/

namespace Morphology.Pattern

/-! ## Places in a text -/

/-- A place between two characters of a text, or at one of its ends. -/
structure Place where
  before : Option Char
  after : Option Char
  deriving Repr, DecidableEq, Inhabited

/-- A condition on a place in a text. -/
inductive Assertion
  | textStart
  | textEnd
  | lineStart
  | lineEnd
  /-- A line starts here, and a carriage return ends lines as well. -/
  | lineStartCRLF
  | lineEndCRLF
  /-- A word starts or ends here. -/
  | wordEdge
  | noWordEdge
  | wordStart
  | wordEnd
  /-- No word goes on from before. -/
  | wordStartHalf
  /-- No word goes on from here. -/
  | wordEndHalf
  deriving Repr, DecidableEq, Inhabited

/-- Whether the condition holds at a place. -/
def Assertion.holds (a : Assertion) (p : Place) : Bool :=
  let wordBefore := p.before.any isWordChar
  let wordAfter := p.after.any isWordChar
  match a with
  | .textStart => p.before.isNone
  | .textEnd => p.after.isNone
  | .lineStart => p.before.isNone || p.before == some '\n'
  | .lineEnd => p.after.isNone || p.after == some '\n'
  -- The two characters of one line end are not taken apart.
  | .lineStartCRLF => p.before.isNone || p.before == some '\n' ||
      (p.before == some '\r' && p.after != some '\n')
  | .lineEndCRLF => p.after.isNone || p.after == some '\r' ||
      (p.after == some '\n' && p.before != some '\r')
  | .wordEdge => wordBefore != wordAfter
  | .noWordEdge => wordBefore == wordAfter
  | .wordStart => !wordBefore && wordAfter
  | .wordEnd => wordBefore && !wordAfter
  | .wordStartHalf => !wordBefore
  | .wordEndHalf => !wordAfter

/-! ## Patterns -/

/-- A pattern.  Of two ways to match, the first alternative and, of a greedy loop, one more turn
are preferred. -/
inductive Expr
  | empty
  | literal (s : List Char)
  | one (s : CharSet)
  | assert (a : Assertion)
  | seq (p q : Expr)
  | alt (p q : Expr)
  /-- From `least` to `most` turns; no bound when `most` is absent. -/
  | loop (least : Nat) (most : Option Nat) (greedy : Bool) (p : Expr)
  /-- A part whose place in the text is remembered under a number. -/
  | group (index : Nat) (p : Expr)
  deriving Repr, DecidableEq, Inhabited

namespace Expr

/-- The parts of a sequence; other patterns are their own only part. -/
def parts : Expr → List Expr
  | .empty => []
  | .seq p q => p :: parts q
  | p => [p]

/-- The alternatives of a choice; other patterns are their own only alternative. -/
def alternatives : Expr → List Expr
  | .alt p q => p :: alternatives q
  | p => [p]

/-- The least number of characters that the pattern matches, unless a part of it matches
nothing at all. -/
def shortest? : Expr → Option Nat
  | .empty => some 0
  | .literal s => some s.length
  | .one s => if s.spans.isEmpty then none else some 1
  | .assert _ => some 0
  | .seq p q => return (← shortest? p) + (← shortest? q)
  | .alt p q => return min (← shortest? p) (← shortest? q)
  | .loop least _ _ p => (shortest? p).map (least * ·)
  | .group _ p => shortest? p

/-- The greatest number of characters that the pattern matches, if there is one, unless a part
of it matches nothing at all. -/
def longest? : Expr → Option Nat
  | .empty => some 0
  | .literal s => some s.length
  | .one s => if s.spans.isEmpty then none else some 1
  | .assert _ => some 0
  | .seq p q => return (← longest? p) + (← longest? q)
  | .alt p q => return max (← longest? p) (← longest? q)
  | .loop _ most _ p => return (← most) * (← longest? p)
  | .group _ p => longest? p

/-! ## Making patterns -/

/-- A character of a set. -/
def ofSet (s : CharSet) : Expr :=
  match s.only? with
  | some c => .literal [c]
  | none => .one s

/-- A part in front of others; literal text is joined to literal text. -/
def cons : Expr → List Expr → List Expr
  | .literal s, .literal t :: rest => .literal (s ++ t) :: rest
  | p, rest => p :: rest

/-- Parts one after another. -/
def sequence (ps : List Expr) : Expr :=
  match ((ps.flatMap parts).foldr cons []).reverse with
  | [] => .empty
  | last :: rest => rest.foldl (fun q p => .seq p q) last

/-- The set of characters that some alternatives stand for, if each is one character or each
is a set. -/
def asSet? (ps : List Expr) : Option CharSet :=
  let char? : Expr → Option Char
    | .literal [c] => some c
    | _ => none
  let set? : Expr → Option CharSet
    | .one s => some s
    | _ => none
  (ps.mapM char?).map CharSet.ofChars <|>
    (ps.mapM set?).map (·.foldl CharSet.union .empty)

/-- Alternatives, the first with the highest preference, when they have no beginning in
common. -/
def anyOf (ps : List Expr) : Expr :=
  let ps := ps.flatMap alternatives
  match ps.reverse with
  | [] => .one .empty
  | [p] => p
  | last :: rest =>
    match asSet? ps with
    | some s => ofSet s
    | none => rest.foldl (fun q p => .alt p q) last

/-- The parts that two sequences begin with. -/
def commonParts : List Expr → List Expr → List Expr
  | p :: ps, q :: qs => if p = q then p :: commonParts ps qs else []
  | _, _ => []

/-- The parts that all alternatives begin with, if each is a sequence. -/
def commonFront (ps : List Expr) : List Expr :=
  match ps.map parts with
  | [] => []
  | front :: rest =>
    if (front :: rest).all (2 ≤ ·.length) then rest.foldl commonParts front else []

/-- Alternatives, the first with the highest preference. -/
def choice (ps : List Expr) : Expr :=
  match anyOf ps with
  | .alt p q =>
    let ps := (Expr.alt p q).alternatives
    match commonFront ps with
    | [] => .alt p q
    | front => sequence (front ++ [anyOf (ps.map fun p => sequence (p.parts.drop front.length))])
  | p => p

/-- The pattern from `least` to `most` times.  Where it matches no character, a second turn
would change nothing. -/
def repeated (least : Nat) (most : Option Nat) (greedy : Bool) (p : Expr) : Expr :=
  let (least, most) :=
    if p.longest? = some 0 then (min least 1, some (min (most.getD 1) 1)) else (least, most)
  if most = some 0 then .empty
  else if least = 1 && most = some 1 then p
  else .loop least most greedy p

end Expr

end Morphology.Pattern
