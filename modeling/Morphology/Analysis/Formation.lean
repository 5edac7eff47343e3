import Morphology.Analysis.Weaving
import Morphology.Grammar.Basic

/-!
# Forming wordforms

A chain of inflexions, each standing in the continuation of the one before, is merged into one
inflexion, which is then woven into a stem.

## Main definitions

* `ChainLink`, `Grammar.mergeChain?` — a chain, and the inflexion it merges into
* `Grammar.buildWordform?` — the wordform of a sub-lexeme with an inflexion, if they fit
* `Grammar.generateWordforms` — the wordforms of a sub-lexeme with single inflexions
-/

namespace Morphology

/-! ## One inflexion -/

/-- Whether an inflexion's restriction to stem slots admits a sub-lexeme.  With a single slot there
is nothing to restrict. -/
def Inflexion.admits (i : Inflexion) (sub : SubLexeme) (lexeme : Lexeme) : Bool :=
  match i.stemNums with
  | none => true
  | some ns =>
    lexeme.numStems ≤ 1 || (ns.all (· < lexeme.numStems) && shareNumber ns sub.stemNums)

/-- The stem pattern that an inflexion is woven into.  One that may precede its stem needs a
boundary in front. -/
def Inflexion.patternFor (i : Inflexion) (sub : SubLexeme) : List Char :=
  if i.startWithSelf && !sub.startsWithBoundary then boundary :: sub.pattern else sub.pattern

/-- A sub-lexeme with an inflexion, if they fit. -/
def Inflexion.fit? (i : Inflexion) (sub : SubLexeme) (lexeme : Lexeme) : Option Joined :=
  if i.admits sub lexeme && i.tests.all (·.holdsForStem sub lexeme) then
    some (joinStemFlex (i.patternFor sub) sub.gloss i.parts)
  else none

/-- The sub-lexemes that a lemma changer may be used with. -/
def Inflexion.changerSubs (changer : Inflexion) (lexeme : Lexeme) : List SubLexeme :=
  let subs := lexeme.subs.filter fun sub =>
    changer.stemNums.all fun ns => shareNumber ns sub.stemNums
  if subs.isEmpty && lexeme.numStems == 1 then lexeme.subs else subs

/-- The lemma that a lemma changer makes, or that of the lexeme if the changer does not fit. -/
def Inflexion.changedLemma (changer : Inflexion) (lexeme : Lexeme) : String :=
  match (changer.changerSubs lexeme).head?.bind fun sub => changer.fit? sub lexeme with
  | some joined => joined.wf
  | none => lexeme.headword

namespace Grammar

/-- The wordform of a sub-lexeme with an inflexion, if they fit. -/
def buildWordform? (g : Grammar) (id : SubLexemeId) (i : Inflexion) : Option Wordform := do
  let lexeme ← g.lexeme? id.lexeme
  let sub ← lexeme.subs[id.index]?
  let joined ← i.fit? sub lexeme
  return {
    wf := joined.wf
    glossed := joined.glossed
    gloss := joined.gloss
    headword := i.lemmaChanger.elim lexeme.headword (·.changedLemma lexeme)
    gramm := if i.replaceGrammar then i.gramm else joinTags sub.gramm i.gramm
    stem := sub.stem
    otherData := if i.keepOtherData then lexeme.otherData else []
    subwords := [] }

/-- The wordforms of a sub-lexeme with those inflexions of its paradigm that stand alone. -/
def generateWordforms (g : Grammar) (id : SubLexemeId) : List Wordform :=
  match (g.subLexeme? id).bind fun sub => g.paradigm? sub.paradigm with
  | none => []
  | some p =>
    (p.inflexions.filter fun i => !i.isLink && !i.continues && !i.incorporates).filterMap
      (g.buildWordform? id)

end Grammar

/-! ## Chains -/

/-- A sub-lexeme in a place for an incorporated stem. -/
structure Incorporated where
  /-- The place: a part of the inflexion. -/
  part : Nat
  sub : SubLexemeId
  deriving Repr, DecidableEq, Inhabited

/-- An inflexion in a chain, with the stems incorporated in it. -/
structure ChainLink where
  inflexion : InflexionId
  incorporated : List Incorporated
  deriving Repr, DecidableEq, Inhabited

namespace Grammar

/-- An inflexion with a stem in one of its places. -/
def incorporate? (g : Grammar) (i : Inflexion) (inc : Incorporated) : Option Inflexion := do
  let lexeme ← g.lexeme? inc.sub.lexeme
  let form ← (g.subLexeme? inc.sub).bind (·.incorporation)
  let stem := form.stem.toList
  let part : FlexPart :=
    ⟨withoutBreaks stem, String.ofList (showBreaks stem), form.gloss, .affix⟩
  if inc.part < i.parts.length then
    return { i with
      parts := i.parts.set inc.part part
      gramm := joinTags i.gramm (marker lexeme.headword form.gramm) }
  else none

/-- The inflexion of a link, the incorporated stems in their places. -/
def filled? (g : Grammar) (link : ChainLink) : Option Inflexion := do
  let i ← g.inflexion? link.inflexion
  link.incorporated.foldlM g.incorporate? i

/-- The inflexion that a chain merges into: each inflexion takes the merged rest of the chain into
its continuation. -/
def mergeChain? (g : Grammar) : List ChainLink → Option Inflexion
  | [] => none
  | [link] => g.filled? link
  | link :: next :: rest => do
    let child ← g.mergeChain? (next :: rest)
    let i ← g.filled? link
    i.join? child

end Grammar

end Morphology
