import Morphology.Json.Basic

/-!
# Reading JSON text

The tokens of a text are put together from left to right.  Arrays and objects that are still
open are kept in a list, so nesting may be of any depth.

## Main definitions

* `Token` — brackets, separators and scalars
* `Token.scan` — the tokens of a text, if it consists of tokens and white space
* `Pending` — the arrays and objects that are open, and what may follow
* `Value.read?` — the value that a text stands for
-/

namespace Morphology.Json

/-! ## Tokens -/

/-- A bracket, a separator or a scalar. -/
inductive Token
  | openArray
  | closeArray
  | openObject
  | closeObject
  | comma
  | colon
  | text (s : Option String)
  /-- A number or one of the three words. -/
  | scalar (v : Value)
  deriving Inhabited

namespace Token

/-! ### Strings -/

/-- The value of a digit in base sixteen. -/
def hexDigit? (c : Char) : Option Nat :=
  if '0' ≤ c && c ≤ '9' then some (c.toNat - '0'.toNat)
  else if 'a' ≤ c && c ≤ 'f' then some (c.toNat - 'a'.toNat + 10)
  else if 'A' ≤ c && c ≤ 'F' then some (c.toNat - 'A'.toNat + 10)
  else none

/-- The code unit that four digits in base sixteen stand for. -/
def codeUnit? (a b c d : Char) : Option Nat := do
  let a ← hexDigit? a
  let b ← hexDigit? b
  let c ← hexDigit? c
  let d ← hexDigit? d
  return ((a * 16 + b) * 16 + c) * 16 + d

/-- The character that a one-letter escape stands for. -/
def shortEscape? : Char → Option Char
  | '"' => some '"'
  | '\\' => some '\\'
  | '/' => some '/'
  | 'b' => some '\x08'
  | 'f' => some '\x0c'
  | 'n' => some '\n'
  | 'r' => some '\r'
  | 't' => some '\t'
  | _ => none

/-- The code points and escaped code units up to the closing quote, last first in `done`, and the
text behind the quote. -/
def stringUnits (done : List Nat) : List Char → Option (List Nat × List Char)
  | [] => none
  | '"' :: rest => some (done.reverse, rest)
  | '\\' :: 'u' :: a :: b :: c :: d :: rest =>
    match codeUnit? a b c d with
    | some u => stringUnits (u :: done) rest
    | none => none
  | '\\' :: e :: rest =>
    match shortEscape? e with
    | some c => stringUnits (c.toNat :: done) rest
    | none => none
  | c :: rest => if c.toNat < 0x20 then none else stringUnits (c.toNat :: done) rest

/-- The text of code points and code units, unless half of a surrogate pair stands alone.  The
characters read so far are in `done`, last first. -/
def decodeUnits (done : List Char) : List Nat → Option String
  | [] => some (String.ofList done.reverse)
  | high :: low :: rest =>
    -- A high surrogate needs a low one behind it.
    if 0xD800 ≤ high && high < 0xDC00 then
      if 0xDC00 ≤ low && low < 0xE000 then
        decodeUnits (Char.ofNat (0x10000 + (high - 0xD800) * 0x400 + (low - 0xDC00)) :: done) rest
      else none
    else if 0xDC00 ≤ high && high < 0xE000 then none
    else decodeUnits (Char.ofNat high :: done) (low :: rest)
  | [u] =>
    if 0xD800 ≤ u && u < 0xE000 then none
    else some (String.ofList (Char.ofNat u :: done).reverse)

/-! ### Numbers -/

/-- At least one digit, and the text behind the digits. -/
def digits? (s : List Char) : Option (List Char × List Char) :=
  match s.span Char.isDigit with
  | ([], _) => none
  | (ds, rest) => some (ds, rest)

/-- An exponent, if one follows. -/
def exponent? : List Char → Option (Option (Bool × List Char) × List Char)
  | c :: rest =>
    if c == 'e' || c == 'E' then
      let (isNegative, rest) := match rest with
        | '-' :: rest => (true, rest)
        | '+' :: rest => (false, rest)
        | rest => (false, rest)
      (digits? rest).map fun (ds, rest) => (some (isNegative, ds), rest)
    else some (none, c :: rest)
  | [] => some (none, [])

/-- A fraction, if one follows. -/
def fraction? : List Char → Option (Option (List Char) × List Char)
  | '.' :: rest => (digits? rest).map fun (ds, rest) => (some ds, rest)
  | rest => some (none, rest)

/-- A number at the front of a text.  Its whole part has no needless zero in front. -/
def numeral? (s : List Char) : Option (Numeral × List Char) := do
  let (negative, s) := match s with
    | '-' :: rest => (true, rest)
    | rest => (false, rest)
  let (whole, s) ← digits? s
  -- A zero in front of further digits is no number.
  if whole.length > 1 && whole.head? == some '0' then none
  let (fraction, s) ← fraction? s
  let (exponent, s) ← exponent? s
  return (⟨negative, whole, fraction, exponent⟩, s)

/-! ### All tokens -/

/-- The first token of a text that starts with one, and the text behind it. -/
def first? : List Char → Option (Token × List Char)
  | '[' :: rest => some (.openArray, rest)
  | ']' :: rest => some (.closeArray, rest)
  | '\x7b' :: rest => some (.openObject, rest)
  | '\x7d' :: rest => some (.closeObject, rest)
  | ',' :: rest => some (.comma, rest)
  | ':' :: rest => some (.colon, rest)
  | '"' :: rest => (stringUnits [] rest).map fun (units, rest) => (.text (decodeUnits [] units), rest)
  | 'n' :: 'u' :: 'l' :: 'l' :: rest => some (.scalar .null, rest)
  | 't' :: 'r' :: 'u' :: 'e' :: rest => some (.scalar (.bool true), rest)
  | 'f' :: 'a' :: 'l' :: 's' :: 'e' :: rest => some (.scalar (.bool false), rest)
  | rest => (numeral? rest).map fun (n, rest) => (.scalar (.num n), rest)

/-- The characters that may stand between tokens. -/
def isGap (c : Char) : Bool :=
  c == ' ' || c == '\n' || c == '\t' || c == '\r'

/-- The tokens of a text, those read so far in `done`, last first.  A text has no more tokens than
characters, so its length is enough `fuel`. -/
def scanFrom (done : List Token) : (fuel : Nat) → List Char → Option (List Token)
  | 0, s => if s.all isGap then some done.reverse else none
  | fuel + 1, s =>
    match s.dropWhile isGap with
    | [] => some done.reverse
    | s =>
      match first? s with
      | some (token, rest) => scanFrom (token :: done) fuel rest
      | none => none

/-- The tokens of a text. -/
def scan (s : List Char) : Option (List Token) :=
  scanFrom [] s.length s

end Token

/-! ## Values -/

/-- An array or object that is not closed yet, its members last first. -/
inductive OpenPart
  | arr (items : List Value)
  /-- The key is the one whose value is being read. -/
  | obj (members : List (Option String × Value)) (key : Option String)

/-- What may come next. -/
inductive Awaited
  | value
  | valueOrClose
  | key
  | keyOrClose
  | colon
  /-- A comma, or the end of the innermost open part. -/
  | separator

/-- The state of reading between two tokens. -/
structure Pending where
  parts : List OpenPart
  awaited : Awaited
  /-- The whole value, once complete. -/
  result : Option Value

namespace Pending

/-- Nothing is read yet. -/
def start : Pending := ⟨[], .value, none⟩

/-- A value is complete and goes into the innermost open part. -/
def complete (v : Value) : List OpenPart → Pending
  | [] => ⟨[], .separator, some v⟩
  | .arr items :: outer => ⟨.arr (v :: items) :: outer, .separator, none⟩
  | .obj members key :: outer => ⟨.obj ((key, v) :: members) none :: outer, .separator, none⟩

/-- The state after one more token, if it may come here. -/
def next? (p : Pending) (token : Token) : Option Pending :=
  match p.awaited, token, p.parts with
  | .value, .openArray, parts | .valueOrClose, .openArray, parts =>
    some ⟨.arr [] :: parts, .valueOrClose, none⟩
  | .value, .openObject, parts | .valueOrClose, .openObject, parts =>
    some ⟨.obj [] none :: parts, .keyOrClose, none⟩
  | .value, .text s, parts | .valueOrClose, .text s, parts => some (complete (.str s) parts)
  | .value, .scalar v, parts | .valueOrClose, .scalar v, parts => some (complete v parts)
  | .valueOrClose, .closeArray, .arr items :: outer => some (complete (.arr items.reverse) outer)
  | .key, .text s, .obj members _ :: outer | .keyOrClose, .text s, .obj members _ :: outer =>
    some ⟨.obj members s :: outer, .colon, none⟩
  | .keyOrClose, .closeObject, .obj members _ :: outer =>
    some (complete (.obj members.reverse) outer)
  | .colon, .colon, parts => some ⟨parts, .value, none⟩
  | .separator, .comma, .arr items :: outer => some ⟨.arr items :: outer, .value, none⟩
  | .separator, .comma, .obj members key :: outer => some ⟨.obj members key :: outer, .key, none⟩
  | .separator, .closeArray, .arr items :: outer => some (complete (.arr items.reverse) outer)
  | .separator, .closeObject, .obj members _ :: outer =>
    some (complete (.obj members.reverse) outer)
  | _, _, _ => none

/-- The value that the remaining tokens complete. -/
def finish? (p : Pending) : List Token → Option Value
  | [] => p.result
  | token :: rest =>
    match p.next? token with
    | some p => p.finish? rest
    | none => none

end Pending

/-- The value that a text stands for; the text must be one value and white space around it. -/
def Value.read? (s : String) : Option Value :=
  (Token.scan s.toList).bind Pending.start.finish?

end Morphology.Json
