import Morphology.Grammar.Flex
import Morphology.Text.Quoted

/-!
# Faults of a grammar

A fault in a definition drops the definition and is reported; only a document that cannot be read
at all ends the loading.

## Main definitions

* `Origin` — the definition that a fault is in
* `GrammarError` — a fault
* `GrammarError.message` — a fault in words
-/

namespace Morphology

open Text (quoted)

/-- The definition that a fault is in. -/
inductive Origin
  | inflexion (flex paradigm : String)
  | lexeme (headword : String)
  | clitic (stem : String)
  | stemConversion (name : String)
  | lexRule
  | badAnalyses
  deriving Repr, DecidableEq, Inhabited

/-- The definition in words. -/
def Origin.text : Origin → String
  | .inflexion flex paradigm => "inflexion " ++ quoted flex ++ " of " ++ paradigm
  | .lexeme headword => "lexeme " ++ quoted headword
  | .clitic stem => "clitic " ++ quoted stem
  | .stemConversion name => "stem conversion " ++ quoted name
  | .lexRule => "lexical rule"
  | .badAnalyses => "bad analyses"

/-- A text that should be a JSON document. -/
inductive DocumentKind
  | grammar
  | badAnalyses
  | categories
  deriving Repr, DecidableEq, Inhabited

/-- The document in words. -/
def DocumentKind.text : DocumentKind → String
  | .grammar => "grammar"
  | .badAnalyses => "bad analyses"
  | .categories => "categories"

/-- A fault of a grammar. -/
inductive GrammarError
  | malformedFlex (flex : String) (fault : FlexFault)
  | duplicateParadigm (name : String)
  | unknownParadigm (name : String) (origin : Origin)
  | unknownDerivation (name paradigm : String)
  | unknownStemConversion (name headword : String)
  | missingSubsequent (flex paradigm : String)
  | emptyStem (headword : String)
  | noParadigm (headword : String)
  | stemNumberOutOfRange (headword flex : String) (num numStems : Nat)
  | invalidPattern (pattern : String) (origin : Origin)
  | ruleWithoutTrigger
  | unreadable (kind : DocumentKind)
  deriving Repr, DecidableEq, Inhabited

/-- The fault in words. -/
def GrammarError.message : GrammarError → String
  | .malformedFlex flex fault => "malformed flex " ++ quoted flex ++ ": " ++ fault.message
  | .duplicateParadigm name => "duplicate paradigm " ++ quoted name
  | .unknownParadigm name origin =>
    "unknown paradigm " ++ quoted name ++ " referenced from " ++ origin.text
  | .unknownDerivation name paradigm =>
    "unknown derivation " ++ quoted name ++ " linked from paradigm " ++ quoted paradigm
  | .unknownStemConversion name headword =>
    "unknown stem conversion " ++ quoted name ++ " in lexeme " ++ quoted headword
  | .missingSubsequent flex paradigm =>
    "inflexion " ++ quoted flex ++ " of " ++ paradigm ++
      " continues with <.> but names no subsequent paradigm"
  | .emptyStem headword => "lexeme " ++ quoted headword ++ " has no stem"
  | .noParadigm headword => "lexeme " ++ quoted headword ++ " has no paradigm"
  | .stemNumberOutOfRange headword flex num numStems =>
    "stem number " ++ toString num ++ " of inflexion " ++ quoted flex ++
      " is out of range for lexeme " ++ quoted headword ++ " with " ++ toString numStems ++ " stems"
  | .invalidPattern pattern origin =>
    "invalid regex " ++ quoted pattern ++ " in " ++ origin.text
  | .ruleWithoutTrigger => "lexical rule names neither a lemma nor a stem"
  | .unreadable kind => "invalid JSON in " ++ kind.text

end Morphology
