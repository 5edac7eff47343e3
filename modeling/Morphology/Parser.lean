import Morphology.Analysis.Analyzer
import Morphology.Grammar.Basic
import Morphology.Grammar.Draft
import Morphology.Grammar.FieldTest
import Morphology.Table
import Morphology.Tree
import Morphology.Wordform

/-!
# Parsing tokens

A token is a host between proclitics and enclitics.  It is split in every way that the clitics
allow, each host is analyzed, and the clitics come back to the analyses of the host.  What is found
so is filtered, enriched by lexical rules, and cleared of markers and repetitions.

A session parses one token after another and may remember what it has parsed.

## Main definitions

* `Split` — clitics with the host between them
* `hosts` — the splits of a token
* `attachClitics` — the analyses of a host with the clitics of a split
* `Grammar.applyRules` — the analyses with what lexical rules make of them
* `dedup` — a list without repetitions
* `Grammar.postprocess` — all that is done with the analyses found
* `Parser`, `Parser.ofGrammar` — a grammar with its indices and settings
* `Parser.parse` — the analyses of a token
* `ParseCache` — the analyses of tokens that were parsed before
* `ParseCache.store` — one more token; a cache that is full starts over
* `Session` — a parser with a cache, if it keeps one
* `Session.parse`, `Session.parseTree` — the analyses of a token, and of nested groups of tokens
-/

namespace Morphology

/-! ## Clitics and hosts -/

/-- Clitics in the order of the token, with the host that is left. -/
structure Split where
  clitics : List Clitic
  host : String
  deriving Repr, DecidableEq, Inhabited

/-! ### Splitting -/

/-- The word without the clitic at its edge, if the clitic may stand there. -/
def Clitic.strip? (c : Clitic) (encliticsOnly : Bool) (word : List Char) : Option (List Char) :=
  let stem := c.surface
  if stem.isEmpty || word.length ≤ stem.length then none
  else
    let host := match c.side with
      | .enclitic =>
        if stem.isSuffixOf word then some (word.take (word.length - stem.length)) else none
      | .proclitic =>
        if !encliticsOnly && stem.isPrefixOf word then some (word.drop stem.length) else none
      | .other => none
    host.filter c.acceptsHost

/-- A split with one more clitic, which stands outside all others on its side. -/
def Split.around (c : Clitic) (s : Split) : Split :=
  match c.side with
  | .proclitic => { s with clitics := c :: s.clitics }
  | .enclitic | .other => { s with clitics := s.clitics ++ [c] }

/-- The splits of a word with at least one clitic.  A word of `fuel` characters has at most as many
clitics.  Behind an enclitic only enclitics are looked for, so proclitics are stripped first. -/
def cliticSplits (clitics : List Clitic) :
    (fuel : Nat) → (encliticsOnly : Bool) → List Char → List Split
  | 0, _, _ => []
  | fuel + 1, encliticsOnly, word =>
    clitics.flatMap fun c =>
      match c.strip? encliticsOnly word with
      | none => []
      | some host =>
        let inner :=
          -- A host of one character has no room for a further clitic.
          if host.length ≤ 1 then []
          else cliticSplits clitics fuel (encliticsOnly || c.side = .enclitic) host
        ⟨[c], String.ofList host⟩ :: inner.map (Split.around c)

/-- The splits of a token, the whole token first. -/
def hosts (clitics : List Clitic) (token : String) : List Split :=
  ⟨[], token⟩ :: cliticSplits clitics token.length false token.toList

/-! ### Attaching -/

/-- An analysis of the host with clitics: the proclitics from the inside out, then the others. -/
def attachAll (clitics : List Clitic) (w : Wordform) : Wordform :=
  let (front, back) := clitics.partition (·.side = .proclitic)
  back.foldl (fun w c => c.attach w) (front.reverse.foldl (fun w c => c.attach w) w)

/-- The analyses of a host with the clitics of a split.  An analysis stays if all clitics accept
it, and then stands for the whole token. -/
def attachClitics (token : String) (clitics : List Clitic) (analyses : List Wordform) :
    List Wordform :=
  if clitics.isEmpty then analyses
  else
    (analyses.filter fun w => clitics.all (·.accepts w)).map fun w =>
      attachAll clitics { w with wf := token }

/-! ## From matches to analyses -/

universe u

/-! ### Lexical rules -/

namespace Grammar

/-- The rules for an analysis: those for its lemma, then those for its stem. -/
def rulesFor (g : Grammar) (w : Wordform) : List LexRule :=
  g.rulesForLemma w.headword ++ (g.rulesForStem w.stem).filter fun r => r.headword.all (· == w.headword)

/-- What the rules make of an analysis.  It stays itself unless a rule replaces it. -/
def enrich (g : Grammar) (w : Wordform) : List Wordform :=
  let made := (g.rulesFor w).filterMap fun r => (r.enrich? w).map fun w => (r.mode, w)
  let replaced := made.any fun (mode, _) => mode = .replace
  (if replaced then [] else [w]) ++ made.map (·.2)

/-- The analyses with what lexical rules make of them. -/
def applyRules (g : Grammar) (analyses : List Wordform) : List Wordform :=
  if g.hasRules then analyses.flatMap g.enrich else analyses

end Grammar

/-! ### Repetitions -/

/-- The items that are not in `seen`, each at its first place only. -/
def dedupFrom {α : Type u} [BEq α] (seen : List α) : List α → List α
  | [] => []
  | x :: rest => if seen.contains x then dedupFrom seen rest else x :: dedupFrom (x :: seen) rest

/-- The items, each at its first place only. -/
def dedup {α : Type u} [BEq α] (xs : List α) : List α :=
  dedupFrom [] xs

/-! ### The whole chain -/

/-- The analyses of a host that is searched. -/
def Grammar.postprocess (g : Grammar) (analyses : List Wordform) : List Wordform :=
  dedup ((g.applyRules (g.badAnalyses.filter analyses)).map (·.expandMarkers))

/-! ## Parsers -/

/-- A grammar with its indices and settings. -/
structure Parser where
  analyzer : Analyzer
  config : ParserConfig

namespace Parser

/-- The parser of a grammar. -/
def ofGrammar (g : Grammar) (config : ParserConfig) : Except ParserError Parser :=
  (Analyzer.build g config).map (⟨·, config⟩)

/-- The grammar that is parsed with. -/
def grammar (p : Parser) : Grammar := p.analyzer.grammar

/-- The analyses that the splits of a token have, and the budget left.  The splits share the budget;
once it is exhausted, no split behind one with analyses is tried. -/
def parseSplits (p : Parser) (token : String) (maxEdits : Nat) :
    List Split → Budget → List Wordform × Budget
  | [], budget => ([], budget)
  | s :: rest, budget =>
    let (found, budget) := p.analyzer.analyze s.host maxEdits budget
    -- Without analyses an exhausted budget does not end the loop: later splits may still have
    -- pregenerated wordforms.
    if found.isEmpty then p.parseSplits token maxEdits rest budget
    else
      let here := attachClitics token s.clitics (p.grammar.postprocess found)
      if budget.exhausted then (here, budget)
      else
        let (more, budget) := p.parseSplits token maxEdits rest budget
        (here ++ more, budget)

/-- The analyses of a token with at most `maxEdits` edits.  A token without analyses has a
placeholder, and one that is too long has nothing. -/
def parse (p : Parser) (raw : String) (maxEdits : Nat) : List Wordform :=
  let token := cleanToken raw
  if token.isEmpty then [.placeholder raw]
  else if p.config.maxTokenLength < token.length then []
  else
    let budget := Budget.fresh p.config.maxStepsPerToken
    let (analyses, _) := p.parseSplits token maxEdits (hosts p.grammar.clitics token) budget
    if analyses.isEmpty then [.placeholder token] else analyses

end Parser

/-! ## Remembered parses -/

/-- The analyses of tokens, by the token and the number of edits allowed. -/
structure ParseCache where
  /-- The greatest number of entries. -/
  capacity : Nat
  entries : Table (String × Nat) (List Wordform)
  deriving Repr, DecidableEq

namespace ParseCache

/-- A cache without entries. -/
def empty (capacity : Nat) : ParseCache := ⟨capacity, .empty⟩

instance : Inhabited ParseCache := ⟨empty 65536⟩

/-- The number of entries. -/
def size (c : ParseCache) : Nat := c.entries.size

/-- Whether there are no entries. -/
def isEmpty (c : ParseCache) : Bool := c.size == 0

/-- The cache without its entries. -/
def clear (c : ParseCache) : ParseCache := { c with entries := .empty }

/-- The analyses of a token, if it is remembered. -/
def get? (c : ParseCache) (token : String) (maxEdits : Nat) : Option (List Wordform) :=
  c.entries.get? (token, maxEdits)

/-- The cache with one more token.  A full cache loses its entries first, and a cache without
capacity keeps nothing. -/
def store (c : ParseCache) (token : String) (maxEdits : Nat) (analyses : List Wordform) :
    ParseCache :=
  if c.capacity = 0 then c
  else
    -- Nothing is known about which entries will be asked for again, so all go.
    let c := if c.capacity ≤ c.size then c.clear else c
    { c with entries := c.entries.insert (token, maxEdits) analyses }

end ParseCache

/-! ## Sessions -/

/-- A parser with what it has parsed. -/
structure Session where
  parser : Parser
  cache : Option ParseCache

namespace Session

/-- The session of a parser in which nothing is parsed yet. -/
def start (p : Parser) : Session :=
  ⟨p, if p.config.rememberParses then some (.empty p.config.cacheCapacity) else none⟩

/-- The analyses of a token, and the session behind it. -/
def parse (s : Session) (maxEdits : Nat) (token : String) : Session × List Wordform :=
  match s.cache with
  | none => (s, s.parser.parse token maxEdits)
  | some cache =>
    match cache.get? token maxEdits with
    | some analyses => (s, analyses)
    | none =>
      let analyses := s.parser.parse token maxEdits
      ({ s with cache := some (cache.store token maxEdits analyses) }, analyses)

/-- The analyses of nested groups of tokens, parsed from left to right. -/
def parseTree (s : Session) (maxEdits : Nat) (tokens : Tree String) :
    Session × Tree (List Wordform) :=
  tokens.traverse (fun s token => s.parse maxEdits token) s

end Session

end Morphology
