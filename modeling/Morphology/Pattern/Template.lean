import Morphology.Pattern.Search

/-!
# Replacing matches

A replacement text may refer to the groups of a match: `$1` and `$name`, or `${1}` and
`${name}` where more letters follow.  `$$` is a dollar sign.

## Main definitions

* `Template` — a replacement text, divided into literal text and references
* `Pattern.replaceAll` — a text with every match replaced
-/

namespace Morphology.Pattern

/-- A piece of a replacement text. -/
inductive Piece
  | literal (s : List Char)
  | numbered (group : Nat)
  | named (group : String)
  deriving Repr, DecidableEq, Inhabited

/-- A replacement text. -/
abbrev Template := List Piece

namespace Template

/-- The number that a reference may be written as: digits with at most one plus sign in front, if
the number fits a 64-bit word. -/
def number? (s : List Char) : Option Nat :=
  let digits := match s with
    | '+' :: rest => rest
    | rest => rest
  if digits.isEmpty || !digits.all Char.isDigit then none
  else
    let n := digits.foldl (fun n d => 10 * n + (d.toNat - '0'.toNat)) 0
    if n < UInt64.size then some n else none

/-- A reference by number or by name. -/
def reference (s : List Char) : Piece :=
  match number? s with
  | some n => .numbered n
  | none => .named (String.ofList s)

/-- Whether a reference without braces goes on with the character. -/
def isNameChar (c : Char) : Bool :=
  c.isAlphanum || c == '_'

/-- A reference behind a dollar sign, and the text behind it. -/
def reference? : List Char → Option (Piece × List Char)
  | '\x7b' :: rest =>
    match rest.span (· != '\x7d') with
    | (name, _ :: rest) => some (reference name, rest)
    | (_, []) => none
  | rest =>
    match rest.span isNameChar with
    | ([], _) => none
    | (name, rest) => some (reference name, rest)

/-- The pieces of a text.  Each has a character, so the text's length is enough `fuel`. -/
def readFrom : (fuel : Nat) → List Char → Template
  | 0, _ => []
  | _, [] => []
  | fuel + 1, '$' :: rest =>
    match rest with
    | '$' :: rest => .literal ['$'] :: readFrom fuel rest
    | rest =>
      match reference? rest with
      | some (piece, rest) => piece :: readFrom fuel rest
      | none => .literal ['$'] :: readFrom fuel rest
  | fuel + 1, c :: rest => .literal [c] :: readFrom fuel rest

/-- The pieces of a replacement text. -/
def read (s : String) : Template :=
  readFrom s.length s.toList

/-- The text of a piece for a match; a group that took no part is empty. -/
def pieceText (p : Pattern) (text : List Char) (m : Match) : Piece → List Char
  | .literal s => s
  | .numbered i => (m.group? text i).getD []
  | .named name => ((p.names.lookup name).bind (m.group? text)).getD []

/-- The replacement of a match. -/
def expand (t : Template) (p : Pattern) (text : List Char) (m : Match) : List Char :=
  t.flatMap (pieceText p text m)

end Template

/-- The text from a place on, with the given matches replaced. -/
def replaceFrom (p : Pattern) (t : Template) (text : List Char) (pos : Nat) :
    List Match → List Char
  | [] => text.drop pos
  | m :: rest =>
    slice text pos m.first ++ t.expand p text m ++ replaceFrom p t text m.last rest

/-- A text with every match replaced. -/
def replaceAll (p : Pattern) (t : Template) (text : String) : String :=
  let chars := text.toList
  String.ofList (replaceFrom p t chars 0 (p.findAll chars))

end Morphology.Pattern
