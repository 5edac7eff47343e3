import Morphology.Grammar.Basic
import Morphology.Grammar.Document

/-!
# Compiling entries

An entry becomes a part of a grammar once its flexes and patterns are read and the paradigms it
names are found.

## Main definitions

* `FieldTest.ofEntries`, `Inflexion.ofEntry`, `StemConversion.ofEntry`, `Clitic.ofEntry`,
  `LexRule.ofEntry` — the parts that entries become, or the first fault of each
* `Lexeme.ofEntry` — the lexeme that an entry becomes, if any, and all its faults
* `collect` — the parts of several entries, and the faults of those that become none
-/

namespace Morphology

universe u v

/-! ## Several entries -/

/-- The parts that entries become, and the faults of those that become none, both in order. -/
def collect {ε : Type u} {α : Type v} (make : ε → Except GrammarError α) :
    List ε → List α × List GrammarError
  | [] => ([], [])
  | e :: rest =>
    let (parts, errors) := collect make rest
    match make e with
    | .ok part => (part :: parts, errors)
    | .error error => (parts, error :: errors)

/-! ## Patterns -/

/-- The pattern that a text stands for. -/
def readPattern (origin : Origin) (text : String) : Except GrammarError Pattern :=
  match Pattern.read? text with
  | some p => .ok p
  | none => .error (.invalidPattern text origin)

/-- The tests that some entries stand for. -/
def FieldTest.ofEntries (origin : Origin) (tests : List TestEntry) :
    Except GrammarError (List FieldTest) :=
  tests.mapM fun t => (readPattern origin t.pattern).map (⟨Field.read t.field, ·⟩)

/-! ## Inflexions -/

/-- The handles of named paradigms. -/
def resolveParadigms (find? : String → Option Handle) (origin : Origin) (names : List String) :
    Except GrammarError (List Handle) :=
  names.mapM fun name =>
    match find? name with
    | some h => .ok h
    | none => .error (.unknownParadigm name origin)

/-- The inflexion that an entry of a paradigm becomes. -/
def Inflexion.ofEntry (find? : String → Option Handle) (paradigm : String) :
    InflexionEntry → Except GrammarError Inflexion
  | ⟨flex, gramm, gloss, stemNums, tests, lemmaChanger, position, paradigms, replaceGrammar,
      keepOtherData⟩ => do
    let origin := Origin.inflexion flex paradigm
    let inflexion ← match Inflexion.ofFlex flex gloss gramm with
      | .ok i => .ok i
      | .error fault => .error (.malformedFlex flex fault)
    let tests ← FieldTest.ofEntries origin tests
    let lemmaChanger ← changer lemmaChanger
    let subsequent ← resolveParadigms find? origin paradigms
    if inflexion.continues && subsequent.isEmpty then
      .error (.missingSubsequent flex paradigm)
    else
      .ok { inflexion with
        stemNums := stemNums.map numberSet
        tests := tests
        lemmaChanger := lemmaChanger
        position := position
        subsequent := subsequent
        replaceGrammar := replaceGrammar
        keepOtherData := keepOtherData }
where
  /-- The inflexion that a lemma changer becomes. -/
  changer : Option InflexionEntry → Except GrammarError (Option Inflexion)
    | none => .ok none
    | some e => (Inflexion.ofEntry find? paradigm e).map some

/-! ## Stem conversions, clitics and rules -/

/-- The stem conversion that an entry becomes. -/
def StemConversion.ofEntry (e : StemConversionEntry) : Except GrammarError StemConversion := do
  let targets ← e.newStems.mapM fun new => do
    let replacements ← new.replacements.mapM fun r =>
      (readPattern (.stemConversion e.name) r.pattern).map (⟨·, r.text⟩)
    return (new.slot, replacements)
  return ⟨e.name, e.base, targets⟩

/-- The clitic that an entry becomes. -/
def Clitic.ofEntry (e : CliticEntry) : Except GrammarError Clitic := do
  let origin := Origin.clitic e.stem
  let hostPatterns ← e.hostPatterns.mapM (readPattern origin)
  let tests ← FieldTest.ofEntries origin e.tests
  return {
    stem := e.stem
    side := e.side
    headword := e.headword
    gramm := e.gramm
    gloss := e.gloss
    otherData := e.otherData
    hostPatterns := hostPatterns
    tests := tests }

/-- The rule that an entry becomes; it has to name a lemma or a stem. -/
def LexRule.ofEntry (e : LexRuleEntry) : Except GrammarError LexRule :=
  if e.headword.isNone && e.stem.isNone then .error .ruleWithoutTrigger
  else do
    let tests ← FieldTest.ofEntries .lexRule e.tests
    return {
      headword := e.headword
      stem := e.stem
      tests := tests
      newLemma := e.newLemma
      gramm := e.gramm
      gloss := e.gloss
      otherData := e.otherData
      mode := e.mode }

/-! ## Lexemes -/

/-- What a stem of a lexeme looks like inside another word. -/
def LexemeEntry.incorporationForm? (e : LexemeEntry) (stem : String) : Option IncorporationForm :=
  if e.noIncorporation then none
  else
    let form : IncorporationForm := match e.incorporation with
      | some i => ⟨i.stem, i.gramm.getD e.gramm, i.gloss.getD e.gloss⟩
      | none => ⟨String.ofList (literalText stem.toList), e.gramm, e.gloss⟩
    if form.stem.isEmpty then none else some form

/-- The slots of a lexeme's stem after conversion, and the fault if there is no such
conversion. -/
def LexemeEntry.slots (e : LexemeEntry) (conversions : Table String StemConversion) :
    Slots × List GrammarError :=
  let slots := Slots.read e.stem
  match e.stemConversion with
  | none => (slots, [])
  | some name =>
    match conversions.get? name with
    | some c => (c.convert slots, [])
    | none => (slots, [.unknownStemConversion name e.headword])

/-- The paradigms of a lexeme, and the faults of the names of none. -/
def LexemeEntry.resolve (e : LexemeEntry) (ps : Paradigms) : List Handle × List GrammarError :=
  collect
    (fun name =>
      match ps.find? name with
      | some h => .ok h
      | none => .error (.unknownParadigm name (.lexeme e.headword)))
    e.paradigms

/-- The faults of inflexions that ask for slots which a lexeme with several slots does not
have. -/
def LexemeEntry.slotFaults (e : LexemeEntry) (ps : Paradigms) (paradigms : List Handle)
    (numStems : Nat) : List GrammarError :=
  if numStems ≤ 1 then []
  else
    paradigms.flatMap fun h =>
      ((ps.get? h).elim [] (·.inflexions)).filterMap fun i =>
        (i.stemNums.bind (·.find? (numStems ≤ ·))).map fun n =>
          .stemNumberOutOfRange e.headword i.flex n numStems

/-- The sub-lexemes of a lexeme: every stem in every paradigm. -/
def LexemeEntry.subLexemes (e : LexemeEntry) (lexeme : Handle) (slots : Slots)
    (paradigms : List Handle) : List SubLexeme :=
  (Slots.merge slots).flatMap fun (stem, stemNums) =>
    paradigms.map fun paradigm => {
      lexeme := lexeme
      stem := stem
      pattern := stemPattern stem
      paradigm := paradigm
      stemNums := stemNums
      gloss := e.gloss
      gramm := e.gramm
      noIncorporation := e.noIncorporation
      incorporation := e.incorporationForm? stem }

/-- The lexeme that an entry becomes, given its own handle, and the faults of the entry.  Without a
stem or a paradigm there is no lexeme. -/
def Lexeme.ofEntry (conversions : Table String StemConversion) (ps : Paradigms)
    (e : LexemeEntry) : Option (Handle → Lexeme) × List GrammarError :=
  if (Slots.read e.stem).all (·.isEmpty) then (none, [.emptyStem e.headword])
  else
    -- An unknown conversion is reported, and the slots stay as they are.
    let (slots, slotErrors) := e.slots conversions
    let (paradigms, nameErrors) := e.resolve ps
    let errors := slotErrors ++ nameErrors
    if paradigms.isEmpty then
      (none, errors ++ if e.paradigms.isEmpty then [.noParadigm e.headword] else [])
    else
      (some fun h => ⟨e.headword, e.subLexemes h slots paradigms, e.otherData, slots.length⟩,
        errors ++ e.slotFaults ps paradigms slots.length)

end Morphology
