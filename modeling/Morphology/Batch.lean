import Morphology.FreqList
import Morphology.Parser

/-!
# Parsing frequency lists

The entries of a list are divided among workers, each with a session of its own.

## Main definitions

* `BatchOptions` — how a list is parsed
* `BatchReport` — the analyses of the entries, with the share of occurrences that have any
* `chunks?`, `BatchOptions.divide?` — the entries divided among workers
* `Parser.parseEntries?`, `Parser.parseFreqList?` — the report on some entries, and on a list
-/

namespace Morphology

universe u

/-! ## Options and results -/

/-- How a list is parsed. -/
structure BatchOptions where
  /-- The number of workers; none means as many as there are processors. -/
  workers : Nat
  maxEdits : Nat
  /-- The number of entries to be parsed, from the top of the list. -/
  maxLines : Option Nat
  deriving Repr, DecidableEq, Inhabited

/-- An entry with the analyses of its token. -/
structure TokenResult where
  entry : FreqEntry
  analyses : List Wordform
  deriving Repr, DecidableEq, Inhabited

/-- Whether the token has an analysis that is not a placeholder. -/
def TokenResult.isParsed (r : TokenResult) : Bool :=
  r.analyses.any (·.isAnalyzed)

/-- The results of a list, the most frequent tokens first. -/
structure BatchReport where
  results : List TokenResult
  deriving Repr, DecidableEq, Inhabited

/-- The sum of the counts of some results, in 64 bits. -/
def occurrences (results : List TokenResult) : UInt64 :=
  results.foldl (fun sum r => sum + r.entry.count) 0

namespace BatchReport

/-- The results with analyses. -/
def parsed (r : BatchReport) : List TokenResult :=
  r.results.filter (·.isParsed)

/-- The results without analyses. -/
def unparsed (r : BatchReport) : List TokenResult :=
  r.results.filter (!·.isParsed)

/-- The share of occurrences that have analyses. -/
def parsedFraction (r : BatchReport) : Float :=
  -- A list without occurrences has no share to speak of.
  let total := occurrences r.results
  if total = 0 then 0 else (occurrences r.parsed).toFloat / total.toFloat

end BatchReport

/-- Why there is no report. -/
inductive BatchError
  | freqList (fault : FreqList.Fault)
  deriving Repr, DecidableEq, Inhabited

/-- The error in words. -/
def BatchError.message : BatchError → String
  | .freqList fault => "malformed frequency list: " ++ fault.message

/-! ## Workers -/

/-- A quotient rounded up; there is none by zero. -/
def divCeil? (n d : Nat) : Option Nat :=
  if d = 0 then none else some (n / d + if n % d = 0 then 0 else 1)

/-- A list in pieces of `size` items, the last of which may be shorter; there are none of no items.
-/
def chunks? {α : Type u} (size : Nat) (xs : List α) : Option (List (List α)) :=
  if size = 0 then none else some (pieces (size - 1) xs)
where
  /-- Pieces of one item and up to `more` items behind it. -/
  pieces (more : Nat) : List α → List (List α)
    | [] => []
    | x :: rest => (x :: rest.take more) :: pieces more (rest.drop more)
  termination_by xs => xs.length
  decreasing_by simp only [List.length_cons, List.length_drop]; omega

namespace BatchOptions

/-- The number of workers for `count` entries: no more than there are entries, but at least one. -/
def workersFor (o : BatchOptions) (processors count : Nat) : Nat :=
  max (min (if o.workers = 0 then processors else o.workers) count) 1

/-- The entries of each worker, given the number of processors. -/
def divide? (o : BatchOptions) (processors : Nat) (entries : List FreqEntry) :
    Option (List (List FreqEntry)) := do
  let size ← divCeil? entries.length (o.workersFor processors entries.length)
  chunks? (max size 1) entries

end BatchOptions

namespace Parser

/-- The analyses of the tokens of one worker. -/
def parseChunk (p : Parser) (maxEdits : Nat) (entries : List FreqEntry) : List (List Wordform) :=
  go (.start p) entries
where
  /-- The analyses of tokens that are parsed in a session. -/
  go (s : Session) : List FreqEntry → List (List Wordform)
    | [] => []
    | e :: rest =>
      let (s, analyses) := s.parse maxEdits e.token
      analyses :: go s rest

/-- The report on some entries, given the number of processors. -/
def parseEntries? (p : Parser) (processors : Nat) (o : BatchOptions) (entries : List FreqEntry) :
    Option BatchReport := do
  let entries := FreqList.sort (o.maxLines.elim entries entries.take)
  let pieces ← o.divide? processors entries
  -- The workers are joined in their order, so that the analyses come in that of the entries.
  let analyses := pieces.flatMap (p.parseChunk o.maxEdits)
  return ⟨List.zipWith TokenResult.mk entries analyses⟩

/-- The report on a frequency list, given the number of processors. -/
def parseFreqList? (p : Parser) (processors : Nat) (o : BatchOptions) (text separator : String) :
    Option (Except BatchError BatchReport) :=
  match FreqList.read separator text with
  | .error fault => some (.error (.freqList fault))
  | .ok entries => (p.parseEntries? processors o entries).map .ok

end Parser

end Morphology
