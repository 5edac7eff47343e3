import Morphology.Grammar.Document.Reader
import Morphology.Grammar.Expansion

/-!
# Grammars in the making

A draft collects entries and is then compiled, in the order in which parts depend on each other:
stem conversions, paradigms, derivations, lexemes, clitics and lexical rules.

## Main definitions

* `GrammarDraft` — the entries collected so far
* `GrammarDraft.add`, `GrammarDraft.loadBadAnalyses`, `GrammarDraft.loadCategories` — more entries
* `GrammarDraft.compile` — the grammar of a draft, and the faults of the entries dropped
* `Grammar.ofText` — the grammar that a text stands for
-/

namespace Morphology

open Json (Value)

/-- A grammar with the faults of the entries that are not in it, in the order of discovery. -/
structure CompiledGrammar where
  grammar : Grammar
  diagnostics : List GrammarError
  deriving Inhabited

/-- The entries collected so far. -/
structure GrammarDraft where
  config : GrammarConfig
  /-- The entries; its free-form parts are not used. -/
  entries : GrammarDocument
  badAnalyses : BadAnalyses Pattern
  categories : Table String String
  diagnostics : List GrammarError
  deriving Inhabited

namespace GrammarDraft

/-! ## Collecting entries -/

/-- No entries. -/
def start (config : GrammarConfig) : GrammarDraft :=
  ⟨config, .empty, .empty, .empty, []⟩

/-- The draft with the templates of a document, and the number of them. -/
def addBadAnalyses (d : GrammarDraft) (v : Value) : GrammarDraft × Nat :=
  let (templates, errors) := BadAnalyses.ofValue v
  ({ d with
      badAnalyses := d.badAnalyses.append templates
      diagnostics := d.diagnostics ++ errors },
    templates.unconditional.length + templates.conditional.length)

/-- Categories with those of one member of a document: a tag with its category, or a category with
its tags. -/
def addCategory (categories : Table String String) : Option String × Value → Table String String
  | (some tag, .str (some category)) => categories.insert tag category
  | (some category, .arr tags) =>
    (tags.filterMap Value.text?).foldl (fun cs tag => cs.insert tag category) categories
  | _ => categories

/-- The draft with the categories of a document, and the number of tags that had none. -/
def addCategories (d : GrammarDraft) : Value → GrammarDraft × Nat
  | .obj members =>
    let categories := members.foldl addCategory d.categories
    ({ d with categories := categories }, categories.size - d.categories.size)
  | _ => (d, 0)

/-- The draft with the entries of a document. -/
def add (d : GrammarDraft) (doc : GrammarDocument) : GrammarDraft :=
  let e := d.entries
  let d := { d with entries := { e with
    stemConversions := e.stemConversions ++ doc.stemConversions
    paradigms := e.paradigms ++ doc.paradigms
    derivations := e.derivations ++ doc.derivations
    lexemes := e.lexemes ++ doc.lexemes
    clitics := e.clitics ++ doc.clitics
    lexRules := e.lexRules ++ doc.lexRules } }
  let d := doc.badAnalyses.elim d fun v => (d.addBadAnalyses v).1
  doc.categories.elim d fun v => (d.addCategories v).1

/-- The draft with the templates of a JSON text, and the number of them. -/
def loadBadAnalyses (d : GrammarDraft) (text : String) : Except GrammarError (GrammarDraft × Nat) :=
  (readFree .badAnalyses text).map d.addBadAnalyses

/-- The draft with the categories of a JSON text, and the number of tags that had none. -/
def loadCategories (d : GrammarDraft) (text : String) : Except GrammarError (GrammarDraft × Nat) :=
  (readFree .categories text).map d.addCategories

/-! ## Compiling -/

/-- Paradigms without inflexions yet for the entries with new names, these entries, and the faults
of the others. -/
def declareParadigms (ps : Paradigms) :
    List ParadigmEntry → Paradigms × List ParadigmEntry × List GrammarError
  | [] => (ps, [], [])
  | e :: rest =>
    if (ps.find? e.name).isSome then
      let (ps, accepted, errors) := declareParadigms ps rest
      (ps, accepted, .duplicateParadigm e.name :: errors)
    else
      let (_, ps) := ps.add ⟨e.name, [], none⟩
      let (ps, accepted, errors) := declareParadigms ps rest
      (ps, e :: accepted, errors)

/-- The paradigms with the inflexions of their entries, and the faults of those. -/
def fillParadigms (ps : Paradigms) : List ParadigmEntry → Paradigms × List GrammarError
  | [] => (ps, [])
  | e :: rest =>
    let (inflexions, errors) := collect (Inflexion.ofEntry ps.find? e.name) e.inflexions
    let ps := match ps.find? e.name with
      | some h => ps.modifyInflexions h fun _ => inflexions
      | none => ps
    let (ps, more) := fillParadigms ps rest
    (ps, errors ++ more)

/-- The lexemes of some entries, and the faults of the entries. -/
def addLexemes (conversions : Table String StemConversion) (ps : Paradigms)
    (lexemes : Arena Lexeme) : List LexemeEntry → Arena Lexeme × List GrammarError
  | [] => (lexemes, [])
  | e :: rest =>
    let (made, errors) := Lexeme.ofEntry conversions ps e
    let lexemes := made.elim lexemes fun make => (lexemes.allocWith make).2
    let (lexemes, more) := addLexemes conversions ps lexemes rest
    (lexemes, errors ++ more)

/-- Rules found by name, with one more under its name. -/
def fileRule (rules : Table String (List LexRule)) (name : String) (r : LexRule) :
    Table String (List LexRule) :=
  rules.alter name fun before => before.getD [] ++ [r]

/-- The rules that name a stem, by stem, and the others, by lemma. -/
def fileRules (rules : List LexRule) :
    Table String (List LexRule) × Table String (List LexRule) :=
  rules.foldl
    (fun (byStem, byLemma) r =>
      match r.stem, r.headword with
      | some stem, _ => (fileRule byStem stem r, byLemma)
      | none, some headword => (byStem, fileRule byLemma headword r)
      | none, none => (byStem, byLemma))
    (.empty, .empty)

/-- The grammar of a draft, and the faults of the entries that are not in it. -/
def compile (d : GrammarDraft) : CompiledGrammar :=
  let e := d.entries
  let (conversions, conversionErrors) := collect StemConversion.ofEntry e.stemConversions
  let conversions := conversions.foldl (fun t c => t.insert c.name c) .empty
  -- All names are known before the first inflexion, so that paradigms may lead to later ones.
  let (ps, accepted, duplicateErrors) := declareParadigms .empty e.paradigms
  let (ps, inflexionErrors) := fillParadigms ps accepted
  let (ps, derivationErrors) := ps.expand e.derivations accepted
  -- Derivations come first: an inflexion that leads to a fork is not widened.
  let ps := ps.widen d.config
  let (lexemes, lexemeErrors) := addLexemes conversions ps (.empty 1) e.lexemes
  let (clitics, cliticErrors) := collect Clitic.ofEntry e.clitics
  let (rules, ruleErrors) := collect LexRule.ofEntry e.lexRules
  let (byStem, byLemma) := fileRules rules
  { grammar := {
      config := d.config
      paradigms := ps
      lexemes := lexemes
      clitics := clitics
      stemConversions := conversions
      badAnalyses := d.badAnalyses
      rulesByStem := byStem
      rulesByLemma := byLemma
      categories := d.categories }
    diagnostics := d.diagnostics ++ conversionErrors ++ duplicateErrors ++ inflexionErrors ++
      derivationErrors ++ lexemeErrors ++ cliticErrors ++ ruleErrors }

end GrammarDraft

/-- The grammar of a document. -/
def Grammar.ofDocument (config : GrammarConfig) (doc : GrammarDocument) : CompiledGrammar :=
  ((GrammarDraft.start config).add doc).compile

/-- The grammar that a text stands for. -/
def Grammar.ofText (config : GrammarConfig) (text : String) :
    Except GrammarError CompiledGrammar :=
  (GrammarDocument.read text).map (Grammar.ofDocument config)

end Morphology
