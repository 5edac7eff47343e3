import Morphology.Analysis.Matcher
import Morphology.Grammar.Error
import Morphology.Transducer.Builder

/-!
# Analyzing words

A word is first looked for as it stands.  Only if no acceptable analysis is found, it is looked for
with corrections.

## Main definitions

* `ParserConfig` — limits and switches
* `ParserError` — why there is no parser
* `Analyzer` — a grammar made ready for analyzing
* `Analyzer.build` — the analyzer of a grammar
* `Analyzer.pass` — the analyses with a given number of edits
* `Analyzer.analyze` — the analyses of a word without clitics
-/

namespace Morphology

/-! ## Settings -/

/-- Limits and switches of a parser. -/
structure ParserConfig where
  /-- The length above which a token is not analyzed at all. -/
  maxTokenLength : Nat
  /-- The greatest length of a stem's key in the index. -/
  maxStemStartLen : Nat
  /-- How many inflexions without characters may continue in a word. -/
  maxEmptyInflexions : Nat
  /-- The least length of the matched part of a stem that is corrected. -/
  minReplacementStemLen : Nat
  /-- The least length of a word that is corrected. -/
  minReplacementWordLen : Nat
  /-- The number of search steps for one token. -/
  maxStepsPerToken : Nat
  /-- Whether a session keeps what it has parsed. -/
  rememberParses : Bool
  /-- How many tokens a session keeps. -/
  cacheCapacity : Nat
  /-- A pattern for words that are never corrected. -/
  noReplacements : Option String
  deriving Repr, DecidableEq

instance : Inhabited ParserConfig := ⟨⟨512, 6, 2, 5, 6, 200000, false, 65536, none⟩⟩

/-- Why there is no parser. -/
inductive ParserError
  /-- The grammar cannot be read. -/
  | grammar (e : GrammarError)
  /-- An index refuses a key. -/
  | index (e : Transducer.BuildError)
  /-- The pattern for words that are never corrected is none. -/
  | invalidPattern (pattern : String)
  deriving Repr, DecidableEq, Inhabited

/-- The error in words. -/
def ParserError.message : ParserError → String
  | .grammar e => e.message
  | .index e => "failed to build index: " ++ e.message
  | .invalidPattern pattern => "invalid no-replacement pattern " ++ Text.quoted pattern

/-! ## Analyzers -/

/-- A grammar made ready for analyzing. -/
structure Analyzer where
  matcher : Matcher
  stems : StemIndex
  /-- The wordforms of stems without literal characters. -/
  pregenerated : List Wordform
  /-- The least length of the matched part of a stem that is corrected. -/
  minReplacementStemLen : Nat
  /-- A pattern for words that are never corrected. -/
  noReplacements : Option Pattern

namespace Analyzer

/-! ### Building -/

/-- A pattern that may be absent, or the text that is none. -/
def readPattern : Option String → Except ParserError (Option Pattern)
  | none => .ok none
  | some text =>
    match Pattern.read? text with
    | some p => .ok (some p)
    | none => .error (.invalidPattern text)

/-- The analyzer of a grammar. -/
def build (g : Grammar) (config : ParserConfig) : Except ParserError Analyzer := do
  let stems ← (StemIndex.build g config.maxStemStartLen).mapError .index
  let affixes ← (AffixIndex.build g).mapError .index
  let incorporations ← (IncorporationIndex.build g).mapError .index
  let noReplacements ← readPattern config.noReplacements
  return {
    matcher := .ofIndices g affixes incorporations
      ⟨config.maxEmptyInflexions, config.minReplacementWordLen⟩
    stems := stems
    pregenerated := stems.keyless.flatMap g.generateWordforms
    minReplacementStemLen := config.minReplacementStemLen
    noReplacements := noReplacements }

/-- The grammar that is analyzed with. -/
def grammar (a : Analyzer) : Grammar := a.matcher.grammar

/-! ### Passes -/

/-- The placement of a stem that the index finds in a word. -/
def placement? (a : Analyzer) (word : List Char) (m : StemMatch) : Option Placement :=
  (a.grammar.subLexeme? m.entry.sub).map fun sub => {
    word := if m.edits.isEmpty then word else m.correctedWord word
    sub := m.entry.sub
    pattern := sub.pattern
    wordStart := m.start
    patternStart := m.entry.offset
    length := m.segment.length }

/-- The placements of all stems in a word.  Short stems are not corrected. -/
def placements (a : Analyzer) (word : List Char) (maxEdits : Nat) : List Placement :=
  ((a.stems.lookup word maxEdits).filter fun m =>
    maxEdits == 0 || a.minReplacementStemLen ≤ m.segment.length).filterMap (a.placement? word)

/-- The wordforms that some placements lead to, and the budget left.  Once the budget is exhausted,
the rest is not tried. -/
def runAll (m : Matcher) (host : List Char) (maxEdits : Nat) :
    List Placement → Budget → List Wordform × Budget
  | [], budget => ([], budget)
  | p :: rest, budget =>
    let (found, budget) := m.run host maxEdits p budget
    if budget.exhausted then (found, budget)
    else
      let (more, budget) := runAll m host maxEdits rest budget
      (found ++ more, budget)

/-- The analyses with at most `maxEdits` edits, and the budget left. -/
def pass (a : Analyzer) (word : List Char) (maxEdits : Nat) (budget : Budget) :
    List Wordform × Budget :=
  runAll a.matcher word maxEdits (a.placements word maxEdits) budget

/-! ### Analyses -/

/-- The pregenerated wordforms with a given surface. -/
def generated (a : Analyzer) (host : String) : List Wordform :=
  a.pregenerated.filter (·.wf == host)

/-- Whether one of the analyses found is not to be dropped. -/
def anyAcceptable (a : Analyzer) (found : List Wordform) : Bool :=
  (List.range found.length).any fun i => !a.grammar.badAnalyses.isBad found i

/-- Whether a word may be corrected. -/
def mayCorrect (a : Analyzer) (host : String) : Bool :=
  a.matcher.limits.minReplacementWordLen ≤ host.length && !a.noReplacements.any (·.isMatch host)

/-- The analyses of a word without clitics, and the budget left. -/
def analyze (a : Analyzer) (host : String) (maxEdits : Nat) (budget : Budget) :
    List Wordform × Budget :=
  let (exact, budget) := a.pass host.toList 0 budget
  let found := exact ++ a.generated host
  -- Corrected analyses replace what was found, which would be dropped anyway.
  if maxEdits != 0 && !a.anyAcceptable found && !budget.exhausted && a.mayCorrect host then
    a.pass host.toList maxEdits budget
  else (found, budget)

end Analyzer

end Morphology
