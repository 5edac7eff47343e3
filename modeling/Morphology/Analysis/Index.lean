import Morphology.Analysis.Formation
import Morphology.Transducer.Traversal

/-!
# Indices of a grammar

## Main definitions

* `StemIndex` — sub-lexemes by the first literal characters of their stems
* `AffixIndex` — the inflexions of each paradigm by the characters they begin with
* `IncorporationIndex` — sub-lexemes by their incorporated form
-/

namespace Morphology

open Transducer (BuildError)

/-! ## Stems -/

/-- A sub-lexeme with the place in its pattern where its key begins. -/
structure StemEntry where
  sub : SubLexemeId
  offset : Nat
  deriving Repr, DecidableEq, Inhabited

/-- A stem placed in a word. -/
structure StemMatch where
  entry : StemEntry
  start : Nat
  stop : Nat
  /-- The word between `start` and `stop` after corrections, as long as the key. -/
  segment : List Char
  edits : List Edit
  deriving Repr, DecidableEq, Inhabited

/-- The word with the matched part corrected. -/
def StemMatch.correctedWord (m : StemMatch) (word : List Char) : List Char :=
  word.take m.start ++ m.segment ++ word.drop m.stop

/-- Sub-lexemes by the first literal characters of their stems. -/
structure StemIndex where
  keys : Transducer StemEntry
  /-- The sub-lexemes whose stems have no literal characters. -/
  keyless : List SubLexemeId
  deriving Inhabited

namespace StemIndex

/-- The key of a sub-lexeme with its entry, if the stem has literal characters. -/
def keyOf? (limit : Nat) (id : SubLexemeId) (sub : SubLexeme) : Option (List Char × StemEntry) :=
  (literalKey? sub.pattern limit).map fun (offset, length) =>
    ((sub.pattern.drop offset).take length, ⟨id, offset⟩)

/-- The index of a grammar, with keys of at most `limit` characters. -/
def build (g : Grammar) (limit : Nat) : Except BuildError StemIndex := do
  let keys ← Transducer.ofList false (g.subLexemes.filterMap fun (id, sub) => keyOf? limit id sub)
  let keyless := g.subLexemes.filterMap fun (id, sub) =>
    if (keyOf? limit id sub).isNone then some id else none
  return ⟨keys, keyless⟩

/-- The places of all stems in a word, with at most `maxEdits` edits. -/
def lookup (index : StemIndex) (word : List Char) (maxEdits : Nat) : List StemMatch :=
  (index.keys.lookup word maxEdits).filterMap fun m =>
    (index.keys.values[m.value]?).map fun entry => ⟨entry, m.start, m.stop, m.segment, m.edits⟩

end StemIndex

/-! ## Affixes -/

/-- The inflexions of a paradigm, by number. -/
structure AffixTable where
  /-- By what they begin with, the stem being behind. -/
  anchored : Transducer Nat
  /-- By what they begin with, the stem being still ahead. -/
  slot : Transducer Nat
  deriving Inhabited

/-- The inflexions of each paradigm by the characters they begin with. -/
structure AffixIndex where
  tables : Table Handle AffixTable
  deriving Inhabited

namespace AffixIndex

/-- The table of some inflexions. -/
def tableOf (inflexions : List Inflexion) : Except BuildError AffixTable := do
  let anchored ← Transducer.ofList true (inflexions.zipIdx.map fun (i, n) => (i.anchoredKey, n))
  let slot ← Transducer.ofList true (inflexions.zipIdx.map fun (i, n) => (i.slotKey, n))
  return ⟨anchored, slot⟩

/-- The index of a grammar. -/
def build (g : Grammar) : Except BuildError AffixIndex := do
  let tables ← g.paradigms.arena.toList.mapM fun (h, p) => do
    let table ← tableOf p.inflexions
    return (h, table)
  return ⟨⟨tables⟩⟩

/-- The inflexions of a paradigm that a word may have at a place, in the order of the paradigm.
With `slot` the stem is still ahead. -/
def candidates (index : AffixIndex) (paradigm : Handle) (word : List Char) (pos : Nat)
    (slot : Bool) : List InflexionId :=
  match index.tables.get? paradigm with
  | none => []
  | some table =>
    let keys := if slot then table.slot else table.anchored
    (numberSet (keys.valuesAt word pos)).map (⟨paradigm, ·⟩)

end AffixIndex

/-! ## Incorporated stems -/

/-- Sub-lexemes by their incorporated form, with its length. -/
structure IncorporationIndex where
  keys : Transducer (SubLexemeId × Nat)
  deriving Inhabited

namespace IncorporationIndex

/-- The incorporated form of a sub-lexeme as a key, with its entry. -/
def keyOf? (id : SubLexemeId) (sub : SubLexeme) : Option (List Char × SubLexemeId × Nat) :=
  if sub.noIncorporation then none
  else
    sub.incorporation.bind fun form =>
      let key := form.stem.toList
      if key.isEmpty then none else some (key, id, key.length)

/-- The index of a grammar. -/
def build (g : Grammar) : Except BuildError IncorporationIndex := do
  let keys ← Transducer.ofList false (g.subLexemes.filterMap fun (id, sub) => keyOf? id sub)
  return ⟨keys⟩

/-- The sub-lexemes that a word may have at a place, with their lengths. -/
def at? (index : IncorporationIndex) (word : List Char) (pos : Nat) : List (SubLexemeId × Nat) :=
  index.keys.valuesAt word pos

end IncorporationIndex

end Morphology
