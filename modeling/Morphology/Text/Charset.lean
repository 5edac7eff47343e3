import Morphology.Text.Basic

/-!
# Characters of stems, flexes and tokens

Stems are written with two marks: a boundary `.`, where inflexions attach, and a morpheme
break `&`.  Everything else that is not notation is literal, that is, appears in words.

## Main definitions

* `boundary`, `morphBreak`, `wildcard` — the characters with a role of their own
* `isLiteral`, `isPlaceholder` — the classes of characters in stems and flexes
* `literalKey?` — where a stem pattern has its first run of literal characters
* `withoutBreaks`, `showBreaks`, `literalText` — what words and glosses show of a stem
* `cleanToken`, `isPunctuation` — tokens as they come from running text
-/

namespace Morphology

/-! ## Stems and flexes -/

/-- The mark of the place where inflexions attach. -/
def boundary : Char := '.'

/-- The mark of a morpheme break inside a stem. -/
def morphBreak : Char := '&'

/-- Stands in a corrected word for a character that is not known.  It agrees with every
character. -/
def wildcard : Char := '•'

/-- Shown in a segmented form for an affix without a surface. -/
def emptyMark : String := "∅"

/-- Whether a character of a stem appears in words. -/
def isLiteral (c : Char) : Bool :=
  !" .()[]<>|~&".toList.contains c

/-- Whether a character of a flex may stay unused at the end of a word. -/
def isPlaceholder (c : Char) : Bool :=
  ".<>[]~|".toList.contains c

/-- Offset and length of the first run of literal characters, at most `limit` long. -/
def literalKey? (pattern : List Char) (limit : Nat) : Option (Nat × Nat) :=
  (pattern.findIdx? isLiteral).map fun offset =>
    (offset, (((pattern.drop offset).take limit).takeWhile isLiteral).length)

/-- A stem as it is spelled in words, its boundaries left in place. -/
def withoutBreaks (s : List Char) : List Char :=
  s.filter (· != morphBreak)

/-- A stem as a segmented form shows it: breaks become hyphens. -/
def showBreaks (s : List Char) : List Char :=
  s.map fun c => if c == morphBreak then '-' else c

/-- The literal characters of a stem. -/
def literalText (s : List Char) : List Char :=
  s.filter isLiteral

/-! ## Tokens -/

/-- Whether a character is dropped at both ends of a token. -/
def isTokenEdge (c : Char) : Bool :=
  "-=<>[]/():;.,_!?*".toList.contains c

/-- A token without the characters that only surround it. -/
def cleanToken (token : String) : String :=
  String.ofList (Text.trimBoth isTokenEdge token.toList)

/-- Whether a token consists of punctuation marks and has at least one. -/
def isPunctuation (token : String) : Bool :=
  !token.isEmpty &&
    token.toList.all (".,:;!?-–—()[]\"'«»„“”…/".toList.contains ·)

end Morphology
