import Morphology.Text.Basic
import Morphology.Text.Charset

/-!
# The flex notation

A flex is the form of an inflexion: affixes around stem boundaries.  It is read one character at
a time; the state of reading is the item that is not complete yet.

| notation    | meaning                                        |
|-------------|------------------------------------------------|
| `.`  `[.]`  | stem boundary, forced stem boundary            |
| `text`      | affix; `0` in it has no surface                |
| `\|`        | end of an affix                                |
| `<x>`       | infix                                          |
| `x~`  `~x`  | reduplicant on the right, on the left          |
| `[x]`       | specifier of the stem's gloss                  |
| `<.>`       | continuation in a further inflexion            |
| `<+>`       | place of an incorporated stem                  |
| `[self]`    | at the front: the inflexion precedes its stem  |

## Main definitions

* `Role`, `FlexPart` — the parts of a flex
* `Flex.read` — the parts that a flex stands for
* `Flex.assignGlosses` — the parts with the slices of a gloss
-/

namespace Morphology

/-! ## Parts -/

/-- What a part of a flex does. -/
inductive Role
  /-- Nothing: it has neither surface nor gloss. -/
  | empty
  | affix
  /-- An affix inside a stem. -/
  | inner
  /-- A reduplicant on the right of the stem. -/
  | reduplRight
  /-- A reduplicant on the left of the stem. -/
  | reduplLeft
  | stem
  | forcedStem
  /-- A specifier of the stem's gloss. -/
  | stemSpec
  /-- The place of a further inflexion. -/
  | continuation
  /-- The place of an incorporated stem. -/
  | incorporation
  /-- The sign that the inflexion may precede its stem. -/
  | startWithSelf
  deriving Repr, DecidableEq, Inhabited

namespace Role

/-- Whether the part is a stem boundary. -/
def isBoundary : Role → Bool
  | .stem | .forcedStem => true
  | _ => false

/-- Whether the part stands for material that is not its own. -/
def isMarker : Role → Bool
  | .stem | .forcedStem | .continuation | .incorporation | .startWithSelf => true
  | _ => false

/-- Whether the part gets a slice of the inflexion's gloss. -/
def takesGloss : Role → Bool
  | .affix | .inner | .reduplRight | .reduplLeft => true
  | _ => false

end Role

/-- A part of a flex. -/
structure FlexPart where
  /-- The characters it has in words. -/
  surface : List Char
  /-- What a segmented form shows. -/
  glossed : String
  gloss : String
  role : Role
  deriving Repr, DecidableEq, Inhabited

namespace FlexPart

/-- A part without text. -/
def marker (role : Role) : FlexPart := ⟨[], "", "", role⟩

/-- A part with text; a zero in it has no surface. -/
def affix (text : List Char) (role : Role) : FlexPart :=
  ⟨text.filter (· != '0'), String.ofList text, "", role⟩

/-- A specifier of the stem's gloss. -/
def stemSpec (text : List Char) : FlexPart :=
  ⟨[], String.ofList text, String.ofList text, .stemSpec⟩

end FlexPart

/-! ## Reading -/

/-- What is wrong with a flex. -/
inductive FlexFault
  | unclosedBracket
  | emptyBrackets
  | emptyReduplicant
  | unbalancedBracket
  deriving Repr, DecidableEq, Inhabited

/-- The fault in words. -/
def FlexFault.message : FlexFault → String
  | .unclosedBracket => "unclosed bracket"
  | .emptyBrackets => "empty brackets"
  | .emptyReduplicant => "empty reduplicant"
  | .unbalancedBracket => "unbalanced bracket"

namespace Flex

/-- The item that is not complete yet, with its text so far. -/
inductive Pending
  /-- Plain text; no text at all between two items. -/
  | plain (text : List Char)
  /-- What follows `[`. -/
  | square (text : List Char)
  /-- What follows `<`. -/
  | angle (text : List Char)
  /-- What follows `~`, no plain text being in front of it. -/
  | redupl (text : List Char)
  deriving Repr, DecidableEq, Inhabited

/-- Plain text as parts: at most one affix. -/
def plainParts (text : List Char) : List FlexPart :=
  if text.isEmpty then [] else [.affix text .affix]

/-- The part in square brackets. -/
def squarePart (text : List Char) : FlexPart :=
  if text = ['.'] then .marker .forcedStem else .stemSpec text

/-- The part in angle brackets. -/
def anglePart (text : List Char) : FlexPart :=
  if text = ['.'] then .marker .continuation
  else if text = ['+'] then .marker .incorporation
  else .affix text .inner

/-- One more character behind plain text: the parts that are now complete, and the item that is
not. -/
def plainStep (text : List Char) (c : Char) : Except FlexFault (List FlexPart × Pending) :=
  match c with
  | '.' => .ok (plainParts text ++ [.marker .stem], .plain [])
  | '|' => .ok (plainParts text, .plain [])
  | '[' => .ok (plainParts text, .square [])
  | '<' => .ok (plainParts text, .angle [])
  | '~' =>
    if text.isEmpty then .ok ([], .redupl [])
    else .ok ([.affix text .reduplRight], .plain [])
  | ']' | '>' => .error .unbalancedBracket
  | c => .ok ([], .plain (text ++ [c]))

/-- Whether the character ends plain text. -/
def endsText (c : Char) : Bool :=
  ".|[<~]>".toList.contains c

/-- One more character: the parts that are now complete, and the item that is not. -/
def step : Pending → Char → Except FlexFault (List FlexPart × Pending)
  | .plain text, c => plainStep text c
  | .square text, c =>
    if c = ']' then
      if text.isEmpty then .error .emptyBrackets else .ok ([squarePart text], .plain [])
    else .ok ([], .square (text ++ [c]))
  | .angle text, c =>
    if c = '>' then
      if text.isEmpty then .error .emptyBrackets else .ok ([anglePart text], .plain [])
    else .ok ([], .angle (text ++ [c]))
  | .redupl text, c =>
    if endsText c then
      if text.isEmpty then .error .emptyReduplicant
      else do
        let (parts, pending) ← plainStep [] c
        return (.affix text .reduplLeft :: parts, pending)
    else .ok ([], .redupl (text ++ [c]))

/-- The parts that the end of the flex completes. -/
def finish : Pending → Except FlexFault (List FlexPart)
  | .plain text => .ok (plainParts text)
  | .square _ | .angle _ => .error .unclosedBracket
  | .redupl text =>
    if text.isEmpty then .error .emptyReduplicant else .ok [.affix text .reduplLeft]

/-- The parts that the rest of a flex completes. -/
def scan (pending : Pending) : List Char → Except FlexFault (List FlexPart)
  | [] => finish pending
  | c :: rest => do
    let (parts, pending) ← step pending c
    let more ← scan pending rest
    return parts ++ more

/-- What a flex has at the front when the inflexion may precede its stem. -/
def selfMark : List Char := "[self]".toList

/-- The parts as written, the sign at the front included. -/
def writtenParts (flex : List Char) : Except FlexFault (List FlexPart) :=
  if selfMark.isPrefixOf flex then do
    let parts ← scan (.plain []) (flex.drop selfMark.length)
    return .marker .startWithSelf :: parts
  else scan (.plain []) flex

/-- The parts with a stem boundary: without one the flex is a suffix, and one is put in front,
behind the sign for preceding the stem. -/
def withBoundary (parts : List FlexPart) : List FlexPart :=
  if parts.any (·.role.isBoundary) then parts
  else
    match parts with
    | p :: rest =>
      if p.role = .startWithSelf then p :: .marker .stem :: rest else .marker .stem :: p :: rest
    | [] => [.marker .stem]

/-- The parts that a flex stands for. -/
def read (flex : String) : Except FlexFault (List FlexPart) :=
  (writtenParts flex.toList).map withBoundary

/-! ## Glosses -/

/-- Parts with the slices of a gloss, in order.  A part that is left without a slice and has no
surface becomes empty. -/
def distribute : List FlexPart → List String → List FlexPart
  | [], _ => []
  | p :: rest, slices =>
    if p.role.takesGloss then
      match slices with
      | s :: slices => { p with gloss := s } :: distribute rest slices
      | [] =>
        let p := if p.surface.isEmpty then { p with role := .empty, glossed := "" } else p
        p :: distribute rest []
    else p :: distribute rest slices

/-- Parts with one more, in front of the first continuation or at the end. -/
def insertAffix (x : FlexPart) : List FlexPart → List FlexPart
  | [] => [x]
  | p :: rest => if p.role = .continuation then x :: p :: rest else p :: insertAffix x rest

/-- The parts with the slices of a gloss, which bars divide.  A gloss that no part can take gets
an affix without surface. -/
def assignGlosses (parts : List FlexPart) (gloss : String) : List FlexPart :=
  if gloss.isEmpty then distribute parts []
  else if parts.any (·.role.takesGloss) then distribute parts (Text.splitAt '|' gloss)
  else insertAffix { FlexPart.affix [] .affix with gloss := gloss } parts

end Flex

end Morphology
