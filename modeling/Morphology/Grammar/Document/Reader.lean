import Morphology.Grammar.Document
import Morphology.Grammar.Error
import Morphology.Json.Reader

/-!
# Reading grammar documents

A document is read against the shapes that its parts must have.  A record is written as an
object, whose unknown members are passed over, or as an array of its fields in order.  Arrays and
objects may be nested to a bounded depth, except inside members that are passed over.

Numbers are machine words: `Shape.word` refuses what takes more than sixty-four bits, so the limits
and the slot numbers of a document that is read are all below `2 ^ 64`.

## Main definitions

* `Shape` — the reading of a part: a function of the depth still allowed and the value
* `Shape.list`, `Shape.optional`, `Shape.oneOf`, `Shape.oneOrMany`, … — the shapes of fields
* `Record.fields?`, `Record.required`, `Record.withDefault` — the fields of a record
* `Shape.free` — values of any shape
* `GrammarDocument.shape` — the shape of a whole document
* `GrammarDocument.read` — the document that a text stands for
* `readFree` — a free-form document
-/

namespace Morphology

/-! ## Shapes -/

open Json (Value)

universe u

/-- The reading of a value in which arrays and objects may be nested to the given depth. -/
abbrev Shape (α : Type u) := (depth : Nat) → Value → Option α

namespace Shape

variable {α : Type u}

/-! ### Scalars -/

/-- A text. -/
def text : Shape String
  | _, .str s => s
  | _, _ => none

/-- A truth value. -/
def bool : Shape Bool
  | _, .bool b => some b
  | _, _ => none

/-- A natural number below a bound. -/
def number (bound : Nat) : Shape Nat
  | _, .num n => n.toNat?.filter (· < bound)
  | _, _ => none

/-- A number that fits a 64-bit word. -/
def word : Shape Nat := number UInt64.size

/-! ### Composed shapes -/

/-- An array. -/
def list (item : Shape α) : Shape (List α)
  | depth + 1, .arr items => items.mapM (item depth)
  | _, _ => none

/-- `null`, or a value. -/
def optional (shape : Shape α) : Shape (Option α)
  | _, .null => some none
  | depth, v => (shape depth v).map some

/-- A pair of texts, as an array. -/
def pair : Shape (String × String)
  | _ + 1, .arr [.str (some s), .str (some t)] => some (s, t)
  | _, _ => none

/-- One text, or an array of texts. -/
def oneOrMany : Shape (List String)
  | _, .str (some s) => some [s]
  | depth, v => list text depth v

/-- One of several names, alone or as the only member of an object, with the value `null`. -/
def oneOf (names : List (String × α)) : Shape α
  | _, .str (some s) => names.lookup s
  | _ + 1, .obj [(some s, .null)] => names.lookup s
  | _, _ => none

/-! ### Values of any shape -/

/-- Members in the order of their keys; of two with one key the later stays. -/
def sortMembers (members : List (Option String × Value)) : List (Option String × Value) :=
  let distinct : List (Option String × Value) :=
    members.foldl (fun done m => done.filter (·.1 != m.1) ++ [m]) []
  distinct.mergeSort fun a b => (compare (a.1.getD "") (b.1.getD "")).isLE

/-- A value of any shape, the members of its objects in the order of their keys.  All strings must
stand for texts, and all numbers must fit doubles. -/
def free : Shape Value
  | _, .null => some .null
  | _, .bool b => some (.bool b)
  | _, .num n => if n.isFinite then some (.num n) else none
  | _, .str s => s.map .ofString
  | depth + 1, .arr items => (items.mapM (free depth)).map .arr
  | depth + 1, .obj members =>
    (members.mapM fun (m : Option String × Value) => do
      let key ← m.1
      let v ← free depth m.2
      return (some key, v)).map fun members => .obj (sortMembers members)
  | 0, .arr _ | 0, .obj _ => none

end Shape

/-! ### Records -/

namespace Record

/-- The fields found so far, with one more member of an object.  No field may come twice. -/
def addMember (names : List (List String)) (found : List (Option Value))
    (member : Option String × Value) : Option (List (Option Value)) := do
  let key ← member.1
  match names.findIdx? (·.contains key) with
  -- An unknown member is passed over, whatever its value is.
  | none => some found
  | some i =>
    if (found[i]?.join).isSome then none else some (found.set i (some member.2))

/-- The fields of a record, given the names of each, with the depth allowed in them. -/
def fields? (names : List (List String)) : Shape (Nat × List (Option Value))
  | depth + 1, .obj members =>
    (members.foldlM (addMember names) (names.map fun _ => none)).map (depth, ·)
  | depth + 1, .arr items =>
    if items.length ≤ names.length then
      some (depth, items.map some ++ List.replicate (names.length - items.length) none)
    else none
  | _, _ => none

variable {α : Type u}

/-- A field that must be there. -/
def required (shape : Shape α) (fields : Nat × List (Option Value)) (i : Nat) : Option α :=
  fields.2[i]?.join.bind (shape fields.1)

/-- A field with a value when it is not there. -/
def withDefault (shape : Shape α) (value : α) (fields : Nat × List (Option Value)) (i : Nat) :
    Option α :=
  match fields.2[i]?.join with
  | none => some value
  | some v => shape fields.1 v

end Record

/-! ## Documents -/

open Shape (text bool word list optional pair oneOrMany oneOf free)
open Record (fields? required withDefault)

/-! ### Entries -/

/-- The shape of a test. -/
def TestEntry.shape : Shape TestEntry := fun depth v => do
  let r ← fields? [["field"], ["pattern"]] depth v
  return ⟨← required text r 0, ← required text r 1⟩

/-- The names of positions. -/
def Position.names : List (String × Position) :=
  [("non_final", .nonFinal), ("final", .final), ("both", .both)]

/-- The shape of an inflexion.  Lemma changers are inflexions, so they may be nested. -/
def InflexionEntry.shape : Shape InflexionEntry
  | 0, _ => none
  | depth + 1, v => do
    let r ← fields? [["flex"], ["gramm"], ["gloss"], ["stem_num"], ["tests"], ["lemma_changer"],
      ["position"], ["paradigms"], ["replace_grammar"], ["keep_other_data"]] (depth + 1) v
    let changer ← match r.2[5]?.join with
      | none | some Json.Value.null => some none
      | some v => (InflexionEntry.shape depth v).map some
    return {
      flex := ← required text r 0
      gramm := ← withDefault text "" r 1
      gloss := ← withDefault text "" r 2
      stemNums := ← withDefault (optional (list word)) none r 3
      tests := ← withDefault (list TestEntry.shape) [] r 4
      lemmaChanger := changer
      position := ← withDefault (oneOf Position.names) .both r 6
      paradigms := ← withDefault oneOrMany [] r 7
      replaceGrammar := ← withDefault bool false r 8
      keepOtherData := ← withDefault bool true r 9 }

/-- The shape of a paradigm's use of a derivation. -/
def DerivationLink.shape : Shape DerivationLink := fun depth v => do
  let r ← fields? [["derivation"], ["recurs_class"], ["paradigms"]] depth v
  return {
    derivation := ← required text r 0
    recursClass := ← withDefault (Shape.number UInt32.size) 0 r 1
    paradigms := ← withDefault oneOrMany [] r 2 }

/-- The shape of a paradigm. -/
def ParadigmEntry.shape : Shape ParadigmEntry := fun depth v => do
  let r ← fields? [["name"], ["inflexions"], ["derivations"]] depth v
  return {
    name := ← required text r 0
    inflexions := ← withDefault (list InflexionEntry.shape) [] r 1
    derivations := ← withDefault (list DerivationLink.shape) [] r 2 }

/-- The shape of a derivation. -/
def DerivationEntry.shape : Shape DerivationEntry := fun depth v => do
  let r ← fields? [["name"], ["inflexions"], ["paradigms"]] depth v
  return {
    name := ← required text r 0
    inflexions := ← withDefault (list InflexionEntry.shape) [] r 1
    paradigms := ← withDefault oneOrMany [] r 2 }

/-- The shape of a lexeme's incorporated form. -/
def IncorporationEntry.shape : Shape IncorporationEntry := fun depth v => do
  let r ← fields? [["stem"], ["gramm"], ["gloss"]] depth v
  return {
    stem := ← required text r 0
    gramm := ← withDefault (optional text) none r 1
    gloss := ← withDefault (optional text) none r 2 }

/-- The shape of a lexeme. -/
def LexemeEntry.shape : Shape LexemeEntry := fun depth v => do
  let r ← fields? [["lemma"], ["stem"], ["paradigms", "paradigm"], ["gramm"], ["gloss"],
    ["other_data"], ["stem_conversion"], ["no_incorporation"], ["incorporation"]] depth v
  return {
    headword := ← required text r 0
    stem := ← required text r 1
    paradigms := ← required oneOrMany r 2
    gramm := ← withDefault text "" r 3
    gloss := ← withDefault text "" r 4
    otherData := ← withDefault (list pair) [] r 5
    stemConversion := ← withDefault (optional text) none r 6
    noIncorporation := ← withDefault bool false r 7
    incorporation := ← withDefault (optional IncorporationEntry.shape) none r 8 }

/-- The names of the sides of clitics. -/
def CliticSide.names : List (String × CliticSide) :=
  [("proclitic", .proclitic), ("enclitic", .enclitic), ("other", .other)]

/-- The shape of a clitic. -/
def CliticEntry.shape : Shape CliticEntry := fun depth v => do
  let r ← fields? [["stem"], ["side"], ["lemma"], ["gramm"], ["gloss"], ["other_data"],
    ["host_regex"], ["tests"]] depth v
  return {
    stem := ← required text r 0
    side := ← required (oneOf CliticSide.names) r 1
    headword := ← withDefault text "" r 2
    gramm := ← withDefault text "" r 3
    gloss := ← withDefault text "" r 4
    otherData := ← withDefault (list pair) [] r 5
    hostPatterns := ← withDefault (list text) [] r 6
    tests := ← withDefault (list TestEntry.shape) [] r 7 }

/-- The shape of a replacement. -/
def ReplacementEntry.shape : Shape ReplacementEntry := fun depth v => do
  let r ← fields? [["from"], ["to"]] depth v
  return ⟨← required Shape.text r 0, ← required Shape.text r 1⟩

/-- The shape of a slot to be filled. -/
def NewStemEntry.shape : Shape NewStemEntry := fun depth v => do
  let r ← fields? [["stem"], ["replace"]] depth v
  return ⟨← required word r 0, ← required (list ReplacementEntry.shape) r 1⟩

/-- The shape of a stem conversion. -/
def StemConversionEntry.shape : Shape StemConversionEntry := fun depth v => do
  let r ← fields? [["name"], ["base"], ["new_stems"]] depth v
  return ⟨← required text r 0, ← required word r 1, ← required (list NewStemEntry.shape) r 2⟩

/-- The names of rule modes. -/
def RuleMode.names : List (String × RuleMode) :=
  [("augment", .augment), ("replace", .replace)]

/-- The shape of a lexical rule. -/
def LexRuleEntry.shape : Shape LexRuleEntry := fun depth v => do
  let r ← fields? [["lemma"], ["stem"], ["tests"], ["new_lemma"], ["gramm"], ["gloss"],
    ["other_data"], ["mode"]] depth v
  return {
    headword := ← withDefault (optional text) none r 0
    stem := ← withDefault (optional text) none r 1
    tests := ← withDefault (list TestEntry.shape) [] r 2
    newLemma := ← withDefault (optional text) none r 3
    gramm := ← withDefault text "" r 4
    gloss := ← withDefault (optional text) none r 5
    otherData := ← withDefault (list pair) [] r 6
    mode := ← withDefault (oneOf RuleMode.names) .augment r 7 }

/-! ### Documents -/

/-- The shape of a whole document. -/
def GrammarDocument.shape : Shape GrammarDocument := fun depth v => do
  let r ← fields? [["stem_conversions"], ["paradigms"], ["derivations"], ["lexemes"], ["clitics"],
    ["lex_rules"], ["bad_analyses"], ["categories"]] depth v
  return {
    stemConversions := ← withDefault (list StemConversionEntry.shape) [] r 0
    paradigms := ← withDefault (list ParadigmEntry.shape) [] r 1
    derivations := ← withDefault (list DerivationEntry.shape) [] r 2
    lexemes := ← withDefault (list LexemeEntry.shape) [] r 3
    clitics := ← withDefault (list CliticEntry.shape) [] r 4
    lexRules := ← withDefault (list LexRuleEntry.shape) [] r 5
    badAnalyses := ← withDefault (optional free) none r 6
    categories := ← withDefault (optional free) none r 7 }

/-- How deep arrays and objects may be nested in a document. -/
def documentDepth : Nat := 127

/-- The document that a value stands for. -/
def GrammarDocument.ofValue (v : Json.Value) : Except GrammarError GrammarDocument :=
  match GrammarDocument.shape documentDepth v with
  | some d => .ok d
  | none => .error (.unreadable .grammar)

/-- The document that a text stands for. -/
def GrammarDocument.read (text : String) : Except GrammarError GrammarDocument :=
  match Json.Value.read? text with
  | some v => GrammarDocument.ofValue v
  | none => .error (.unreadable .grammar)

/-- The free-form document that a text stands for. -/
def readFree (kind : DocumentKind) (text : String) : Except GrammarError Json.Value :=
  match (Json.Value.read? text).bind (free documentDepth) with
  | some v => .ok v
  | none => .error (.unreadable kind)

end Morphology
