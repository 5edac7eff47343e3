import Morphology.Grammar.BadAnalysis
import Morphology.Grammar.FieldTest
import Morphology.Grammar.Lexeme
import Morphology.Grammar.Paradigm

/-!
# Grammars

## Main definitions

* `GrammarConfig` — the limits of a grammar
* `Grammar` — paradigms, lexemes, clitics and rules
-/

namespace Morphology

/-- The limits of a grammar. -/
structure GrammarConfig where
  /-- How often an inflexion or a derivation may be used in a word. -/
  recursLimit : Nat
  /-- How many derivational paradigms may be used in a word. -/
  maxDerivations : Nat
  /-- Whether only inflexions with few characters are widened. -/
  partialCompile : Bool
  /-- The number of characters from which on an inflexion is not widened. -/
  minFlexLength : Nat
  /-- After how many paradigms the time for widening is up, if it is up before the last one. -/
  widenedParadigms : Option Nat
  deriving Repr, DecidableEq

instance : Inhabited GrammarConfig := ⟨⟨2, 2, true, 1, none⟩⟩

/-- Paradigms, lexemes, clitics and rules. -/
structure Grammar where
  config : GrammarConfig
  paradigms : Paradigms
  lexemes : Arena Lexeme
  clitics : List Clitic
  stemConversions : Table String StemConversion
  badAnalyses : BadAnalyses Pattern
  /-- The rules that name a stem, by stem. -/
  rulesByStem : Table String (List LexRule)
  /-- The rules that name a lemma and no stem, by lemma. -/
  rulesByLemma : Table String (List LexRule)
  /-- The category of each tag. -/
  categories : Table String String
  deriving Inhabited

namespace Grammar

/-- The paradigm under a handle. -/
def paradigm? (g : Grammar) (h : Handle) : Option Paradigm := g.paradigms.get? h

/-- The inflexion with an address. -/
def inflexion? (g : Grammar) (id : InflexionId) : Option Inflexion := g.paradigms.inflexion? id

/-- The lexeme under a handle. -/
def lexeme? (g : Grammar) (h : Handle) : Option Lexeme := g.lexemes.get? h

/-- The sub-lexeme with an address. -/
def subLexeme? (g : Grammar) (id : SubLexemeId) : Option SubLexeme :=
  (g.lexeme? id.lexeme).bind (·.subs[id.index]?)

/-- The addresses of all sub-lexemes, with the sub-lexemes. -/
def subLexemes (g : Grammar) : List (SubLexemeId × SubLexeme) :=
  g.lexemes.toList.flatMap fun (h, lexeme) =>
    lexeme.subs.zipIdx.map fun (sub, i) => (⟨h, i⟩, sub)

/-- The rules under a stem. -/
def rulesForStem (g : Grammar) (stem : String) : List LexRule :=
  (g.rulesByStem.get? stem).getD []

/-- The rules under a lemma. -/
def rulesForLemma (g : Grammar) (headword : String) : List LexRule :=
  (g.rulesByLemma.get? headword).getD []

/-- Whether there are lexical rules. -/
def hasRules (g : Grammar) : Bool :=
  g.rulesByStem.size != 0 || g.rulesByLemma.size != 0

end Grammar

end Morphology
