import Morphology.Grammar.FieldTest
import Morphology.Grammar.Paradigm
import Morphology.Json.Basic

/-!
# Grammar documents

A grammar is written as a document of entries.  Entries refer to each other by name, and their
flexes and patterns are plain text.

## Main definitions

* `InflexionEntry`, `ParadigmEntry`, `DerivationEntry`, `LexemeEntry`, `CliticEntry`,
  `StemConversionEntry`, `LexRuleEntry` — the entries
* `GrammarDocument` — a whole document
-/

namespace Morphology

/-- A test of a field. -/
structure TestEntry where
  field : String
  pattern : String
  deriving Repr, DecidableEq, Inhabited

/-- An inflexion. -/
structure InflexionEntry where
  flex : String
  gramm : String
  gloss : String
  stemNums : Option (List Nat)
  tests : List TestEntry
  lemmaChanger : Option InflexionEntry
  position : Position
  /-- The paradigms that continuations lead to. -/
  paradigms : List String
  replaceGrammar : Bool
  keepOtherData : Bool
  deriving Repr, Inhabited

/-- The use of a derivation by a paradigm. -/
structure DerivationLink where
  derivation : String
  /-- Derivations of a class may be followed by those of lower classes only. -/
  recursClass : Nat
  /-- The paradigms of the derived stem, if they are not those of the derivation. -/
  paradigms : List String
  deriving Repr, DecidableEq, Inhabited

/-- A paradigm. -/
structure ParadigmEntry where
  name : String
  inflexions : List InflexionEntry
  derivations : List DerivationLink
  deriving Repr, Inhabited

/-- A derivation. -/
structure DerivationEntry where
  name : String
  inflexions : List InflexionEntry
  /-- The paradigms of the derived stem; the paradigm it is used by when there are none. -/
  paradigms : List String
  deriving Repr, Inhabited

/-- What a lexeme looks like inside another word. -/
structure IncorporationEntry where
  stem : String
  gramm : Option String
  gloss : Option String
  deriving Repr, DecidableEq, Inhabited

/-- A lexeme. -/
structure LexemeEntry where
  headword : String
  /-- Stems, with `//` between slots and `|` between the stems of a slot. -/
  stem : String
  paradigms : List String
  gramm : String
  gloss : String
  otherData : List (String × String)
  stemConversion : Option String
  noIncorporation : Bool
  incorporation : Option IncorporationEntry
  deriving Repr, DecidableEq, Inhabited

/-- A clitic. -/
structure CliticEntry where
  stem : String
  side : CliticSide
  headword : String
  gramm : String
  gloss : String
  otherData : List (String × String)
  hostPatterns : List String
  tests : List TestEntry
  deriving Repr, DecidableEq, Inhabited

/-- A replacement in a stem. -/
structure ReplacementEntry where
  pattern : String
  text : String
  deriving Repr, DecidableEq, Inhabited

/-- A slot to be filled by a stem conversion. -/
structure NewStemEntry where
  slot : Nat
  replacements : List ReplacementEntry
  deriving Repr, DecidableEq, Inhabited

/-- A stem conversion. -/
structure StemConversionEntry where
  name : String
  base : Nat
  newStems : List NewStemEntry
  deriving Repr, DecidableEq, Inhabited

/-- A lexical rule. -/
structure LexRuleEntry where
  headword : Option String
  stem : Option String
  tests : List TestEntry
  newLemma : Option String
  gramm : String
  gloss : Option String
  otherData : List (String × String)
  mode : RuleMode
  deriving Repr, DecidableEq, Inhabited

/-- A whole grammar. -/
structure GrammarDocument where
  stemConversions : List StemConversionEntry
  paradigms : List ParadigmEntry
  derivations : List DerivationEntry
  lexemes : List LexemeEntry
  clitics : List CliticEntry
  lexRules : List LexRuleEntry
  badAnalyses : Option Json.Value
  categories : Option Json.Value
  deriving Repr, Inhabited

namespace GrammarDocument

/-- The document without entries. -/
def empty : GrammarDocument := ⟨[], [], [], [], [], [], none, none⟩

end GrammarDocument

end Morphology
