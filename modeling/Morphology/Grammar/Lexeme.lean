import Morphology.Arena
import Morphology.Pattern.Template
import Morphology.Text.Basic
import Morphology.Text.Charset

/-!
# Lexemes

A lexeme has one or several stems, written in numbered slots.  Every stem in every paradigm of the
lexeme is a sub-lexeme.  A stem conversion fills empty stem slots with changed stems of one slot.

## Main definitions

* `Slots.read`, `Slots.merge` — the slots of a written stem, and the stems with their slots
* `stemPattern` — a stem as it is matched
* `SubLexeme`, `Lexeme` — a stem in a paradigm, and a dictionary entry
* `Replacement` — a pattern with the text that replaces its matches
* `StemConversion` — the base slot and the slots to be filled
* `StemConversion.convert` — the slots after conversion
-/

namespace Morphology

/-! ## Sets of numbers -/

/-- An ascending list without repetitions, with one more number. -/
def insertNumber (n : Nat) : List Nat → List Nat
  | [] => [n]
  | m :: rest =>
    if n < m then n :: m :: rest
    else if n = m then m :: rest
    else m :: insertNumber n rest

/-- The given numbers in ascending order, each once. -/
def numberSet (ns : List Nat) : List Nat :=
  ns.foldl (fun set n => insertNumber n set) []

/-- Whether two lists of numbers have one in common. -/
def shareNumber (ms ns : List Nat) : Bool :=
  ms.any ns.contains

/-! ## Stem slots -/

/-- The stems of each slot, in order. -/
abbrev Slots := List (List String)

namespace Slots

/-- The slots of a written stem: `//` is between slots and `|` between the stems of a slot. -/
def read (stem : String) : Slots :=
  (Text.splitOn "//".toList stem.toList).map fun slot =>
    ((Text.splitOn ['|'] slot).map fun s => String.ofList (Text.trimBoth Text.isBlank s)).filter
      (!·.isEmpty)

/-- A stem's entry with one more slot, or a new entry at the end. -/
def mergeStem (slot : Nat) (stem : String) :
    List (String × List Nat) → List (String × List Nat)
  | [] => [(stem, [slot])]
  | (s, slots) :: rest =>
    if s = stem then (s, insertNumber slot slots) :: rest
    else (s, slots) :: mergeStem slot stem rest

/-- The distinct stems in the order in which they first come, each with its slots. -/
def merge (slots : Slots) : List (String × List Nat) :=
  slots.zipIdx.foldl
    (fun merged (stems, slot) => stems.foldl (fun merged s => mergeStem slot s merged) merged) []

end Slots

/-- A stem as it is matched: it has a boundary, at the end if none is written. -/
def stemPattern (stem : String) : List Char :=
  let chars := stem.toList
  if chars.contains boundary then chars else chars ++ [boundary]

/-! ## Lexemes -/

/-- What a sub-lexeme looks like inside another word. -/
structure IncorporationForm where
  stem : String
  gramm : String
  gloss : String
  deriving Repr, DecidableEq, Inhabited

/-- A stem of a lexeme in one of its paradigms. -/
structure SubLexeme where
  lexeme : Handle
  /-- The stem as written. -/
  stem : String
  /-- The stem as it is matched. -/
  pattern : List Char
  paradigm : Handle
  /-- The slots that the stem fills. -/
  stemNums : List Nat
  gloss : String
  gramm : String
  noIncorporation : Bool
  incorporation : Option IncorporationForm
  deriving Repr, DecidableEq, Inhabited

/-- Whether the stem begins with a boundary. -/
def SubLexeme.startsWithBoundary (sub : SubLexeme) : Bool :=
  sub.pattern.head? == some boundary

/-- A dictionary entry. -/
structure Lexeme where
  headword : String
  subs : List SubLexeme
  otherData : List (String × String)
  /-- The number of slots. -/
  numStems : Nat
  deriving Repr, DecidableEq, Inhabited

/-- The values of a further field, in order. -/
def Lexeme.other (lexeme : Lexeme) (field : String) : List String :=
  (lexeme.otherData.filter (·.1 == field)).map (·.2)

/-- The address of a sub-lexeme. -/
structure SubLexemeId where
  lexeme : Handle
  index : Nat
  deriving Repr, DecidableEq, Inhabited

/-! ## Stem conversions -/

/-- A pattern with the text that replaces its matches. -/
structure Replacement where
  pattern : Pattern
  /-- The replacement as written. -/
  text : String
  deriving Repr, DecidableEq, Inhabited

/-- A stem with every match replaced. -/
def Replacement.apply (r : Replacement) (stem : String) : String :=
  r.pattern.replaceAll (Pattern.Template.read r.text) stem

/-- The slots to be filled from a base slot, each with replacements to be made in order. -/
structure StemConversion where
  name : String
  base : Nat
  targets : List (Nat × List Replacement)
  deriving Repr, DecidableEq, Inhabited

namespace StemConversion

/-- The slots with one slot filled, unless it has stems.  A slot number that a document gives is a
machine word: `StemConversionEntry.shape` and `NewStemEntry.shape` read it with `Shape.word`, which
refuses what is not below `2 ^ 64`.  Here it may be any number. -/
def fill (base : List String) (slots : Slots) (target : Nat × List Replacement) : Slots :=
  let (slot, replacements) := target
  -- Slots up to the target come into being, empty unless they are targets too.
  let slots := slots ++ List.replicate (slot + 1 - slots.length) []
  if (slots[slot]?).any (·.isEmpty) then
    slots.set slot (base.map fun stem => replacements.foldl (fun s r => r.apply s) stem)
  else slots

/-- The slots after conversion: those with stems stay, and the lowest slots are filled first.
Without stems in the base slot nothing is done. -/
def convert (c : StemConversion) (slots : Slots) : Slots :=
  match slots[c.base]? with
  | none | some [] => slots
  | some base => (c.targets.mergeSort fun s t => s.1 ≤ t.1).foldl (fill base) slots

end StemConversion

end Morphology
