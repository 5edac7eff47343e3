import Morphology.Pattern.Basic
import Morphology.Pattern.CharSet
import Morphology.Pattern.NameChars
import Morphology.Text.Basic

/-!
# Tokens of pattern text

Read are literal characters and their escapes, the sets `\w`, `\d`, `\s` and their complements,
brackets with ranges, named classes such as `[:alpha:]`, nesting and set operations, anchors and
edges of words of every kind, groups with or without a number, a name and the switches `i`, `m`,
`s`, `U`, `R` and `u`, alternatives and repetitions.

Some that a full engine knows are refused, as if they were no patterns: properties (`\p{..}`,
`\pL`), the switch `x`, and the switch `u` turned off.

## Main definitions

* `Token` — a character, a set, an assertion, a parenthesis, a bar or a repetition
* `Token.scan` — the tokens of a pattern text, if it consists of tokens
-/

namespace Morphology.Pattern

/-- Switches for the rest of a group; an absent one stays as it is. -/
structure Switches where
  ignoreCase : Option Bool
  multiLine : Option Bool
  dotAll : Option Bool
  swapGreed : Option Bool
  crlf : Option Bool
  /-- Sets are those of Unicode, which they are in any case. -/
  unicode : Option Bool
  deriving Repr, DecidableEq, Inhabited

/-- How a group begins. -/
inductive Opening
  /-- The group is numbered, and perhaps named. -/
  | capture (name : Option String)
  /-- The group is not numbered and has switches of its own. -/
  | plain (switches : Switches)
  deriving Repr, DecidableEq, Inhabited

/-- A lexical unit of a pattern text. -/
inductive Token
  | char (c : Char)
  /-- A set with a name. -/
  | set (s : CharSet)
  /-- A set in brackets. -/
  | bracket (s : SetExpr)
  | assertion (a : Assertion)
  /-- `.`, whose meaning depends on a switch. -/
  | dot
  /-- `^`, whose meaning depends on a switch. -/
  | caret
  /-- `$`, whose meaning depends on a switch. -/
  | dollar
  | opening (o : Opening)
  | closing
  | bar
  /-- Switches for the rest of the group. -/
  | switch (s : Switches)
  | repetition (greedy : Bool) (least : Nat) (most : Option Nat)
  deriving Repr, DecidableEq, Inhabited

namespace Token

/-! ## Escapes -/

/-- The number of some digits in base sixteen. -/
def hexNumber? (digits : List Char) : Option Nat :=
  if digits.isEmpty then none
  else digits.foldlM (fun n d =>
    if '0' ≤ d && d ≤ '9' then some (16 * n + (d.toNat - '0'.toNat))
    else if 'a' ≤ d && d ≤ 'f' then some (16 * n + (d.toNat - 'a'.toNat + 10))
    else if 'A' ≤ d && d ≤ 'F' then some (16 * n + (d.toNat - 'A'.toNat + 10))
    else none) 0

/-- The character with a given code point. -/
def charOf? (n : Nat) : Option Char :=
  if n < 0xD800 || (0xE000 ≤ n && n < 0x110000) then some (Char.ofNat n) else none

/-- The character whose code point is written in braces or in `width` digits, and the text
behind it. -/
def hexEscape? (width : Nat) (s : List Char) : Option (Char × List Char) :=
  match s with
  | '\x7b' :: rest =>
    match rest.span (· != '\x7d') with
    | (digits, _ :: rest) => ((hexNumber? digits).bind charOf?).map (·, rest)
    | (_, []) => none
  | s =>
    if s.length < width then none
    else ((hexNumber? (s.take width)).bind charOf?).map (·, s.drop width)

/-- The kind of an edge of words that a name stands for. -/
def edgeKind? (name : String) : Option Assertion :=
  match name with
  | "start" => some .wordStart
  | "end" => some .wordEnd
  | "start-half" => some .wordStartHalf
  | "end-half" => some .wordEndHalf
  | _ => none

/-- The edge of words that may have its kind in braces, and the text behind it.  Braces without a
letter or hyphen in front are none of a kind. -/
def wordEdge? (s : List Char) : Option (Assertion × List Char) :=
  match s with
  | '\x7b' :: inside =>
    match inside.span fun c => c.isAlpha || c == '-' with
    | ([], _) => some (.wordEdge, s)
    | (kind, '\x7d' :: rest) => (edgeKind? (String.ofList kind)).map (·, rest)
    | _ => none
  | _ => some (.wordEdge, s)

/-- What follows a backslash, and the text behind it. -/
def escape? : List Char → Option (Token × List Char)
  | [] => none
  | c :: rest =>
    match c with
    | 'w' => some (.set .word, rest)
    | 'W' => some (.set (.compl .word), rest)
    | 'd' => some (.set .decimal, rest)
    | 'D' => some (.set (.compl .decimal), rest)
    | 's' => some (.set .blank, rest)
    | 'S' => some (.set (.compl .blank), rest)
    | 'b' => (wordEdge? rest).map fun (a, rest) => (.assertion a, rest)
    | 'B' => some (.assertion .noWordEdge, rest)
    | '<' => some (.assertion .wordStart, rest)
    | '>' => some (.assertion .wordEnd, rest)
    | 'A' => some (.assertion .textStart, rest)
    | 'z' => some (.assertion .textEnd, rest)
    | 'a' => some (.char '\x07', rest)
    | 'f' => some (.char '\x0c', rest)
    | 'n' => some (.char '\n', rest)
    | 'r' => some (.char '\r', rest)
    | 't' => some (.char '\t', rest)
    | 'v' => some (.char '\x0b', rest)
    | 'x' => (hexEscape? 2 rest).map fun (c, rest) => (.char c, rest)
    | 'u' => (hexEscape? 4 rest).map fun (c, rest) => (.char c, rest)
    | 'U' => (hexEscape? 8 rest).map fun (c, rest) => (.char c, rest)
    | c => if c.toNat < 128 && !c.isAlphanum then some (.char c, rest) else none

/-! ## Sets in brackets -/

/-- One member of a bracketed set: a character or a named set, and the text behind it. -/
def setMember? : List Char → Option (Token × List Char)
  | [] => none
  | '\\' :: rest =>
    match escape? rest with
    | some (.assertion _, _) => none
    | r => r
  | c :: rest => some (.char c, rest)

/-- The characters of a member. -/
def memberSet : Token → SetExpr
  | .char c => .char c
  | .set s => .named s
  | _ => .nothing

/-- A member, or the two ends of a span, and the text behind. -/
def memberOrSpan? (s : List Char) : Option (SetExpr × List Char) := do
  let (member, rest) ← setMember? s
  match rest with
  -- A hyphen in front of the closing bracket, or of another hyphen, makes no span.
  | '-' :: ']' :: _ => return (memberSet member, rest)
  | '-' :: '-' :: _ => return (memberSet member, rest)
  | '-' :: rest =>
    let (last, rest) ← setMember? rest
    match member, last with
    | .char first, .char last => if first ≤ last then return (.span first last, rest) else none
    | _, _ => none
  | rest => return (memberSet member, rest)

/-- Hyphens at the front of a bracketed set stand for themselves. -/
def leadingHyphens (done : SetExpr) : List Char → SetExpr × List Char
  | '-' :: rest => leadingHyphens (done.add (.char '-')) rest
  | rest => (done, rest)

/-- The front of a bracketed set: whether it is negated, and the characters that stand for
themselves only there. -/
def setFront (s : List Char) : Bool × SetExpr × List Char :=
  let (negated, s) := match s with
    | '^' :: rest => (true, rest)
    | rest => (false, rest)
  match leadingHyphens .nothing s with
  | (.nothing, ']' :: rest) => (negated, .char ']', rest)
  | (front, rest) => (negated, front, rest)

/-- An operation on sets, and the text behind it. -/
def setOperation? : List Char → Option (SetOperation × List Char)
  | '&' :: '&' :: rest => some (.inter, rest)
  | '-' :: '-' :: rest => some (.diff, rest)
  | '~' :: '~' :: rest => some (.symmDiff, rest)
  | _ => none

/-- The ASCII characters of a named set. -/
def asciiSpans? (name : String) : Option (List (Char × Char)) :=
  match name with
  | "alnum" => some [('0', '9'), ('A', 'Z'), ('a', 'z')]
  | "alpha" => some [('A', 'Z'), ('a', 'z')]
  | "ascii" => some [('\x00', '\x7f')]
  | "blank" => some [('\t', '\t'), (' ', ' ')]
  | "cntrl" => some [('\x00', '\x1f'), ('\x7f', '\x7f')]
  | "digit" => some [('0', '9')]
  | "graph" => some [('!', '~')]
  | "lower" => some [('a', 'z')]
  | "print" => some [(' ', '~')]
  | "punct" => some [('!', '/'), (':', '@'), ('[', '\x60'), ('\x7b', '~')]
  | "space" => some [('\t', '\r'), (' ', ' ')]
  | "upper" => some [('A', 'Z')]
  | "word" => some [('0', '9'), ('A', 'Z'), ('_', '_'), ('a', 'z')]
  | "xdigit" => some [('0', '9'), ('A', 'F'), ('a', 'f')]
  | _ => none

/-- The named set of ASCII up to the next colon, and the text behind the bracket after it. -/
def asciiNamed? (negated : Bool) (s : List Char) : Option (SetExpr × List Char) :=
  match s.span (· != ':') with
  | (name, ':' :: ']' :: rest) =>
    (asciiSpans? (String.ofList name)).map fun spans =>
      (.ascii negated (spans.foldl (fun s (first, last) => s.union (.span first last)) .empty),
        rest)
  | _ => none

/-- A named set of ASCII such as `[:alpha:]` or `[:^alpha:]`, its opening bracket being read, and
the text behind it. -/
def asciiSet? : List Char → Option (SetExpr × List Char)
  | ':' :: '^' :: rest => asciiNamed? true rest
  | ':' :: rest => asciiNamed? false rest
  | _ => none

/-- The members before an operation, if there is one, joined to those behind it. -/
def completed (left : Option (SetOperation × SetExpr)) (members : SetExpr) : SetExpr :=
  match left with
  | none => members
  | some (op, left) => .operation op left members

/-- The members of a bracketed set up to its closing bracket, and the text behind the bracket.
An operation takes all that comes before it on its `left`; `done` has the members since then.
Each step reads a character, so the text's length is enough `fuel`. -/
def members? : (fuel : Nat) → (left : Option (SetOperation × SetExpr)) → (done : SetExpr) →
    List Char → Option (SetExpr × List Char)
  | 0, _, _, _ => none
  | fuel + 1, left, done, s =>
    match s with
    | [] => none
    | ']' :: rest => some (completed left done, rest)
    | '[' :: rest =>
      match asciiSet? rest with
      | some (named, rest) => members? fuel left (done.add named) rest
      | none =>
        let (negated, front, rest) := setFront rest
        (members? fuel none front rest).bind fun (inner, rest) =>
          members? fuel left (done.add (.bracket negated inner)) rest
    | s =>
      match setOperation? s with
      | some (op, rest) => members? fuel (some (op, completed left done)) .nothing rest
      | none =>
        (memberOrSpan? s).bind fun (member, rest) => members? fuel left (done.add member) rest

/-- The set in brackets, its opening bracket being read, and the text behind it. -/
def bracketed? (s : List Char) : Option (SetExpr × List Char) :=
  let (negated, front, rest) := setFront s
  (members? (s.length + 1) none front rest).map fun (inner, rest) =>
    (.bracket negated inner, rest)

/-! ## Groups -/

/-- Whether a group's name may begin with the character. -/
def startsName (c : Char) : Bool :=
  c == '_' || isAlphabetic c

/-- Whether a group's name may go on with the character. -/
def continuesName (c : Char) : Bool :=
  c == '_' || c == '.' || c == '[' || c == ']' || isAlphabetic c || isNumber c

/-- The name of a group, closed by `>`, and the text behind it. -/
def groupName? (s : List Char) : Option (String × List Char) :=
  match s.span (· != '>') with
  | (c :: name, _ :: rest) =>
    if startsName c && name.all continuesName then some (String.ofList (c :: name), rest) else none
  | _ => none

/-- One more letter of a list of switches; no letter may come twice. -/
def setSwitch? (s : Switches) (value : Bool) : Char → Option Switches
  | 'i' => if s.ignoreCase.isSome then none else some { s with ignoreCase := some value }
  | 'm' => if s.multiLine.isSome then none else some { s with multiLine := some value }
  | 's' => if s.dotAll.isSome then none else some { s with dotAll := some value }
  | 'U' => if s.swapGreed.isSome then none else some { s with swapGreed := some value }
  | 'R' => if s.crlf.isSome then none else some { s with crlf := some value }
  | 'u' => if s.unicode.isSome || !value then none else some { s with unicode := some value }
  | _ => none

/-- The switches that some letters turn on and, after a hyphen, off. -/
def switches? (letters : List Char) : Option Switches :=
  let on := letters.takeWhile (· != '-')
  match letters.dropWhile (· != '-') with
  | [] => on.foldlM (setSwitch? · true ·) default
  | [_] => none
  | _ :: off => do
    let s ← on.foldlM (setSwitch? · true ·) default
    off.foldlM (setSwitch? · false ·) s

/-- What follows an opening parenthesis, and the text behind it. -/
def group? : List Char → Option (Token × List Char)
  | '?' :: 'P' :: '<' :: rest =>
    (groupName? rest).map fun (name, rest) => (.opening (.capture (some name)), rest)
  | '?' :: '<' :: rest =>
    (groupName? rest).map fun (name, rest) => (.opening (.capture (some name)), rest)
  | '?' :: rest =>
    match rest.span fun c => c != ')' && c != ':' with
    | (letters, ':' :: rest) => (switches? letters).map fun s => (.opening (.plain s), rest)
    | (letters, ')' :: rest) =>
      if letters.isEmpty then none else (switches? letters).map fun s => (.switch s, rest)
    | _ => none
  | rest => some (.opening (.capture none), rest)

/-! ## Repetitions -/

/-- Whether a question mark follows, which makes a repetition reluctant. -/
def greedy (s : List Char) : Bool × List Char :=
  match s with
  | '?' :: rest => (false, rest)
  | rest => (true, rest)

/-- A decimal number that fits a 32-bit word, which white space may surround. -/
def count? (s : List Char) : Option Nat :=
  let digits := Text.trimBoth Text.isBlank s
  if digits.isEmpty || !digits.all Char.isDigit then none
  else
    let n := digits.foldl (fun n d => 10 * n + (d.toNat - '0'.toNat)) 0
    if n < UInt32.size then some n else none

/-- The bounds of a counted repetition, its opening brace being read, and the text behind it. -/
def bounds? (s : List Char) : Option (Nat × Option Nat × List Char) :=
  match s.span (· != '\x7d') with
  | (inside, _ :: rest) =>
    match inside.span (· != ',') with
    | (least, []) => (count? least).map fun n => (n, some n, rest)
    | (least, _ :: most) => do
      let n ← count? least
      if most.isEmpty then return (n, none, rest)
      let m ← count? most
      if m < n then none else return (n, some m, rest)
  | (_, []) => none

/-! ## All tokens -/

/-- The first token of a text that is not empty, and the text behind it. -/
def first? : List Char → Option (Token × List Char)
  | [] => none
  | c :: rest =>
    match c with
    | '\\' => escape? rest
    | '[' => (bracketed? rest).map fun (members, rest) => (.bracket members, rest)
    | '(' => group? rest
    | ')' => some (.closing, rest)
    | '|' => some (.bar, rest)
    | '.' => some (.dot, rest)
    | '^' => some (.caret, rest)
    | '$' => some (.dollar, rest)
    | '*' => let (g, rest) := greedy rest; some (.repetition g 0 none, rest)
    | '+' => let (g, rest) := greedy rest; some (.repetition g 1 none, rest)
    | '?' => let (g, rest) := greedy rest; some (.repetition g 0 (some 1), rest)
    | '\x7b' =>
      (bounds? rest).map fun (least, most, rest) =>
        let (g, rest) := greedy rest
        (.repetition g least most, rest)
    | c => some (.char c, rest)

/-- The tokens of a text, those read so far in `done`, last first.  Each has a character, so the
text's length is enough `fuel`. -/
def scanFrom (done : List Token) : (fuel : Nat) → List Char → Option (List Token)
  | _, [] => some done.reverse
  | 0, _ => none
  | fuel + 1, s =>
    (first? s).bind fun (token, rest) => scanFrom (token :: done) fuel rest

/-- The tokens of a pattern text. -/
def scan (s : List Char) : Option (List Token) :=
  scanFrom [] s.length s

end Token

end Morphology.Pattern
