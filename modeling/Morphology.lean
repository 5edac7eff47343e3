import Morphology.Analysis.Analyzer
import Morphology.Analysis.Formation
import Morphology.Analysis.Index
import Morphology.Analysis.Matcher
import Morphology.Analysis.SearchState
import Morphology.Analysis.Weaving
import Morphology.Arena
import Morphology.Batch
import Morphology.Disambiguation
import Morphology.EditDistance
import Morphology.FreqList
import Morphology.Grammar.BadAnalysis
import Morphology.Grammar.Basic
import Morphology.Grammar.Compilation
import Morphology.Grammar.Document
import Morphology.Grammar.Document.Reader
import Morphology.Grammar.Draft
import Morphology.Grammar.Error
import Morphology.Grammar.Expansion
import Morphology.Grammar.FieldTest
import Morphology.Grammar.Flex
import Morphology.Grammar.Lexeme
import Morphology.Grammar.Paradigm
import Morphology.Json.Basic
import Morphology.Json.Reader
import Morphology.Parser
import Morphology.Pattern.Basic
import Morphology.Pattern.CaseFold
import Morphology.Pattern.CharSet
import Morphology.Pattern.Footprint
import Morphology.Pattern.NameChars
import Morphology.Pattern.Program
import Morphology.Pattern.Reader
import Morphology.Pattern.Search
import Morphology.Pattern.Template
import Morphology.Pattern.Token
import Morphology.Pattern.WordChars
import Morphology.Proofs.Alignment
import Morphology.Proofs.Disambiguation.Cohorts
import Morphology.Proofs.Disambiguation.Pieces
import Morphology.Proofs.Disambiguation.Restriction
import Morphology.Proofs.Disambiguation.RoundTrip
import Morphology.Proofs.Disambiguation.Rows
import Morphology.Proofs.EditDistance
import Morphology.Proofs.EditTable
import Morphology.Proofs.Grammar.Accounting
import Morphology.Proofs.Grammar.Associativity
import Morphology.Proofs.Grammar.BadAnalyses
import Morphology.Proofs.Grammar.Closure
import Morphology.Proofs.Grammar.CompiledInflexions
import Morphology.Proofs.Grammar.Entries
import Morphology.Proofs.Grammar.FlexNotation
import Morphology.Proofs.Grammar.Forks
import Morphology.Proofs.Grammar.Joins
import Morphology.Proofs.Grammar.Lexicon
import Morphology.Proofs.Grammar.Links
import Morphology.Proofs.Grammar.Names
import Morphology.Proofs.Grammar.Occurrence
import Morphology.Proofs.Grammar.Rules
import Morphology.Proofs.Grammar.Siblings
import Morphology.Proofs.Grammar.Spelling
import Morphology.Proofs.Grammar.Stages
import Morphology.Proofs.Grammar.StemSlots
import Morphology.Proofs.Grammar.WholeFields
import Morphology.Proofs.Grammar.Widening
import Morphology.Proofs.Outcome
import Morphology.Proofs.Parsing.Attachment
import Morphology.Proofs.Parsing.Batches
import Morphology.Proofs.Parsing.Occurrences
import Morphology.Proofs.Parsing.Repetitions
import Morphology.Proofs.Parsing.Replacements
import Morphology.Proofs.Parsing.Sessions
import Morphology.Proofs.Parsing.Splits
import Morphology.Proofs.Parsing.Surfaces
import Morphology.Proofs.Pattern.Anchors
import Morphology.Proofs.Pattern.Language
import Morphology.Proofs.Pattern.Meaning
import Morphology.Proofs.Pattern.Programs
import Morphology.Proofs.Pattern.Reading
import Morphology.Proofs.Pattern.Sets
import Morphology.Proofs.Pattern.Substitution
import Morphology.Proofs.Pattern.Threads
import Morphology.Proofs.Pattern.Tokens
import Morphology.Proofs.Search.Analyses
import Morphology.Proofs.Search.Budget
import Morphology.Proofs.Search.Chains
import Morphology.Proofs.Search.Closure
import Morphology.Proofs.Search.Completeness
import Morphology.Proofs.Search.CorrectedWords
import Morphology.Proofs.Search.Derivations
import Morphology.Proofs.Search.ExactIndices
import Morphology.Proofs.Search.Incorporation
import Morphology.Proofs.Search.Indices
import Morphology.Proofs.Search.KeyFilter
import Morphology.Proofs.Search.KeyReading
import Morphology.Proofs.Search.Levels
import Morphology.Proofs.Search.Lexicon
import Morphology.Proofs.Search.Moves
import Morphology.Proofs.Search.Positions
import Morphology.Proofs.Search.Soundness
import Morphology.Proofs.Search.SpelledWords
import Morphology.Proofs.Search.Stretches
import Morphology.Proofs.Search.SubWords
import Morphology.Proofs.Search.Termination
import Morphology.Proofs.Search.Track
import Morphology.Proofs.Search.Typos
import Morphology.Proofs.Search.Widening
import Morphology.Proofs.Text.Markers
import Morphology.Proofs.Text.Markup
import Morphology.Proofs.Text.Replacement
import Morphology.Proofs.Transducer.Building
import Morphology.Proofs.Transducer.Corrections
import Morphology.Proofs.Transducer.EditedLookup
import Morphology.Proofs.Transducer.ExactLookup
import Morphology.Proofs.Transducer.ExactMatches
import Morphology.Proofs.Transducer.Independence
import Morphology.Proofs.Transducer.Locality
import Morphology.Proofs.Transducer.Reading
import Morphology.Proofs.Transducer.Traversal
import Morphology.Proofs.Transducer.Trie
import Morphology.Proofs.Trees
import Morphology.Proofs.Weaving.Glosses
import Morphology.Proofs.Weaving.Interleaving
import Morphology.Table
import Morphology.Text.Basic
import Morphology.Text.Charset
import Morphology.Text.Quoted
import Morphology.Transducer.Builder
import Morphology.Transducer.Traversal
import Morphology.Tree
import Morphology.Wordform
