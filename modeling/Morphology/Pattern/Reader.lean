import Morphology.Pattern.Token

/-!
# Reading pattern text

The tokens of a text are put together from left to right; groups that are still open are kept
in a list.  A text that nests more than `greatestDepth` levels is refused, and so is one with a part
that `Token.scan` does not know.

## Main definitions

* `Modes` — the switches in force at a place
* `Part` — a part of a text that is read
* `Draft` — what is read of the innermost open group
* `Reading` — the state of reading between two tokens
* `Reading.finish?` — the pattern that the remaining tokens complete
-/

namespace Morphology.Pattern

/-- The switches in force at a place. -/
structure Modes where
  ignoreCase : Bool
  multiLine : Bool
  dotAll : Bool
  /-- Repetitions are reluctant unless a question mark makes them greedy. -/
  swapGreed : Bool
  /-- A carriage return ends lines as well. -/
  crlf : Bool
  deriving Repr, DecidableEq, Inhabited

/-- The switches in force after some are turned. -/
def Modes.turn (m : Modes) (s : Switches) : Modes where
  ignoreCase := s.ignoreCase.getD m.ignoreCase
  multiLine := s.multiLine.getD m.multiLine
  dotAll := s.dotAll.getD m.dotAll
  swapGreed := s.swapGreed.getD m.swapGreed
  crlf := s.crlf.getD m.crlf

namespace Modes

/-- What a dot stands for. -/
def dot (m : Modes) : CharSet :=
  if m.dotAll then .any else if m.crlf then .inLineCRLF else .inLine

/-- What a caret stands for. -/
def caret (m : Modes) : Assertion :=
  if m.multiLine then if m.crlf then .lineStartCRLF else .lineStart else .textStart

/-- What a dollar sign stands for. -/
def dollar (m : Modes) : Assertion :=
  if m.multiLine then if m.crlf then .lineEndCRLF else .lineEnd else .textEnd

end Modes

/-! ## Parts -/

/-- A part of a text. -/
structure Part where
  /-- What it means; switches are a part without a meaning, and cannot be repeated. -/
  expr : Option Expr
  /-- How deep it is nested.  Repetitions, groups, sets in brackets, and lists of two or more parts
  or alternatives are one level each. -/
  depth : Nat
  deriving Repr, DecidableEq, Inhabited

/-- The greatest depth of a text that is read. -/
def greatestDepth : Nat := 250

/-- The part, unless it is nested too deep. -/
def Part.bounded? (p : Part) : Option Part :=
  if p.depth ≤ greatestDepth then some p else none

/-- The depth of a list of parts. -/
def Part.depthOfList : List Part → Nat
  | [] => 0
  | [p] => p.depth
  | ps => (ps.map Part.depth).foldl max 0 + 1

/-- A character that stands for itself. -/
def Modes.char (m : Modes) (c : Char) : Expr :=
  if m.ignoreCase then .ofSet (.ofChars (caseVariants c)) else .literal [c]

/-- The part of a token that stands for itself. -/
def Modes.atom? (m : Modes) : Token → Option Part
  | .char c => some ⟨some (m.char c), 0⟩
  | .set s => some ⟨some (.ofSet s), 0⟩
  | .bracket s => some ⟨some (.ofSet (s.toSet m.ignoreCase)), s.depth⟩
  | .assertion a => some ⟨some (.assert a), 0⟩
  | .dot => some ⟨some (.one m.dot), 0⟩
  | .caret => some ⟨some (.assert m.caret), 0⟩
  | .dollar => some ⟨some (.assert m.dollar), 0⟩
  | _ => none

/-! ## Groups that are being read -/

/-- What is read of a group. -/
structure Draft where
  /-- The complete alternatives, last first. -/
  alternatives : List Part
  /-- The parts of the current alternative, last first. -/
  parts : List Part
  modes : Modes
  deriving Inhabited

namespace Draft

/-- The current alternative. -/
def current (d : Draft) : Part :=
  ⟨some (Expr.sequence (d.parts.reverse.filterMap Part.expr)), Part.depthOfList d.parts⟩

/-- All of the group. -/
def whole (d : Draft) : Part :=
  let alternatives := d.current :: d.alternatives
  ⟨some (Expr.choice (alternatives.reverse.filterMap Part.expr)), Part.depthOfList alternatives⟩

/-- A further part. -/
def push (d : Draft) (p : Part) : Draft :=
  { d with parts := p :: d.parts }

end Draft

/-- The state of reading between two tokens. -/
structure Reading where
  innermost : Draft
  /-- The open groups from the inside out: their numbers, if any, and the text around them. -/
  outer : List (Option Nat × Draft)
  /-- The number of numbered groups so far. -/
  groups : Nat
  names : List (String × Nat)
  deriving Inhabited

namespace Reading

/-- Nothing is read yet. -/
def start : Reading := ⟨⟨[], [], default⟩, [], 0, []⟩

/-- A group begins. -/
def open? (r : Reading) : Opening → Option Reading
  | .plain s =>
    some { r with
      innermost := ⟨[], [], r.innermost.modes.turn s⟩
      outer := (none, r.innermost) :: r.outer }
  | .capture name =>
    let index := r.groups + 1
    let inside : Draft := ⟨[], [], r.innermost.modes⟩
    let outer := (some index, r.innermost) :: r.outer
    match name with
    | none => some ⟨inside, outer, index, r.names⟩
    | some name =>
      if (r.names.lookup name).isSome then none
      else some ⟨inside, outer, index, (name, index) :: r.names⟩

/-- The innermost group ends. -/
def close? (r : Reading) : Option Reading :=
  match r.outer with
  | [] => none
  | (index, around) :: outer =>
    let inside := r.innermost.whole
    let part : Part := match index with
      | some i => ⟨inside.expr.map (.group i), inside.depth + 1⟩
      | none => { inside with depth := inside.depth + 1 }
    part.bounded?.map fun part => { r with innermost := around.push part, outer }

/-- The last part is repeated. -/
def repeat? (r : Reading) (greedy : Bool) (least : Nat) (most : Option Nat) : Option Reading :=
  match r.innermost.parts with
  | ⟨some p, depth⟩ :: before =>
    let greedy := greedy != r.innermost.modes.swapGreed
    let part : Part := ⟨some (p.repeated least most greedy), depth + 1⟩
    part.bounded?.map fun part =>
      { r with innermost := { r.innermost with parts := part :: before } }
  | _ => none

/-- The state after one more token, if it may come here. -/
def next? (r : Reading) : Token → Option Reading
  | .opening o => r.open? o
  | .closing => r.close?
  | .repetition greedy least most => r.repeat? greedy least most
  | .bar =>
    let d := r.innermost
    some { r with innermost := { d with alternatives := d.current :: d.alternatives, parts := [] } }
  | .switch s =>
    let d := r.innermost
    some { r with innermost := { d with modes := d.modes.turn s, parts := ⟨none, 0⟩ :: d.parts } }
  | token =>
    (r.innermost.modes.atom? token).map fun p => { r with innermost := r.innermost.push p }

/-- The pattern that the remaining tokens complete, with the names of its groups. -/
def finish? (r : Reading) : List Token → Option (Expr × List (String × Nat))
  | [] =>
    if r.outer.isEmpty then (r.innermost.whole.bounded?.bind Part.expr).map (·, r.names) else none
  | token :: rest =>
    match r.next? token with
    | some r => r.finish? rest
    | none => none

end Reading

end Morphology.Pattern
