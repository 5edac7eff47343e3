import Morphology.Grammar.Lexeme
import Morphology.Pattern.Search
import Morphology.Wordform

/-!
# Tests of fields

Inflexions, clitics and lexical rules apply only where the fields of a sub-lexeme or wordform
match given patterns.  A clitic leans on a host that passes; a lexical rule enriches the analyses
that have a given lemma or stem and pass.

## Main definitions

* `Field` — what can be tested
* `FieldTest` — a pattern that a field has to match
* `FieldTest.holdsFor`, `FieldTest.holdsForStem` — whether a wordform or a sub-lexeme passes
* `CliticSide`, `Clitic` — a word part that leans on a host
* `Clitic.attach` — an analysis of the host with the clitic
* `LexRule`, `RuleMode` — a rule, and what becomes of the analysis it is applied to
* `LexRule.enrich?` — the analysis that a rule makes
-/

namespace Morphology

/-! ## Fields -/

/-- What can be tested. -/
inductive Field
  | wf
  | glossed
  | headword
  | gramm
  | gloss
  | stem
  /-- The paradigm, on which every test fails. -/
  | paradigm
  /-- A further field of the lexeme. -/
  | other (name : String)
  deriving Repr, DecidableEq, Inhabited

namespace Field

/-- The field that a name stands for; some fields have several names. -/
def read (name : String) : Field :=
  if name = "wf" then .wf
  else if name = "wfGlossed" ∨ name = "wf_glossed" ∨ name = "parts" then .glossed
  else if name = "lex" ∨ name = "lemma" then .headword
  else if name = "gramm" ∨ name = "gr" then .gramm
  else if name = "gloss" then .gloss
  else if name = "stem" ∨ name = "prev" then .stem
  else if name = "paradigm" then .paradigm
  else .other name

/-- The name of a field. -/
def name : Field → String
  | .wf => "wf"
  | .glossed => "wf_glossed"
  | .headword => "lemma"
  | .gramm => "gramm"
  | .gloss => "gloss"
  | .stem => "stem"
  | .paradigm => "paradigm"
  | .other name => name

/-- The value of a field that has just one. -/
def value? (w : Wordform) : Field → Option String
  | .wf => some w.wf
  | .glossed => some w.glossed
  | .headword => some w.headword
  | .gramm => some w.gramm
  | .gloss => some w.gloss
  | .stem => some w.stem
  | .paradigm | .other _ => none

end Field

/-! ## Tests -/

/-- A pattern that a field has to match somewhere. -/
structure FieldTest where
  field : Field
  pattern : Pattern
  deriving Repr, DecidableEq, Inhabited

namespace FieldTest

/-- The test of a named field, if the pattern is one. -/
def read? (field pattern : String) : Option FieldTest :=
  (Pattern.read? pattern).map (⟨Field.read field, ·⟩)

/-- Whether there are values and the pattern matches them all. -/
def matchesAll (pattern : Pattern) (values : List String) : Bool :=
  !values.isEmpty && values.all pattern.isMatch

/-- Whether a wordform passes. -/
def holdsFor (t : FieldTest) (w : Wordform) : Bool :=
  match t.field.value? w with
  | some value => t.pattern.isMatch value
  | none => if t.field = .paradigm then false else matchesAll t.pattern (w.other t.field.name)

/-- Whether a sub-lexeme passes.  It has no surface yet; where a test asks for one, further fields
of that name are looked at. -/
def holdsForStem (t : FieldTest) (sub : SubLexeme) (lexeme : Lexeme) : Bool :=
  match t.field with
  | .stem => t.pattern.isMatch sub.stem
  | .headword => t.pattern.isMatch lexeme.headword
  | .gramm => t.pattern.isMatch sub.gramm
  | .gloss => t.pattern.isMatch sub.gloss
  | .paradigm => false
  | field => matchesAll t.pattern (lexeme.other field.name)

end FieldTest

/-! ## Clitics -/

/-- The side of the host that a clitic is on. -/
inductive CliticSide
  | proclitic
  | enclitic
  /-- The clitic is recorded and never looked for. -/
  | other
  deriving Repr, DecidableEq, Inhabited

/-- A word part that leans on a host. -/
structure Clitic where
  stem : String
  side : CliticSide
  headword : String
  gramm : String
  gloss : String
  otherData : List (String × String)
  /-- The patterns that the host has to match. -/
  hostPatterns : List Pattern
  /-- The tests that the host's analysis has to pass. -/
  tests : List FieldTest
  deriving Repr, DecidableEq, Inhabited

namespace Clitic

/-- The clitic in words. -/
def surface (c : Clitic) : List Char := withoutBreaks c.stem.toList

/-- The clitic in segmented forms. -/
def glossed (c : Clitic) : String := String.ofList (showBreaks c.stem.toList)

/-- Whether a text may be the host. -/
def acceptsHost (c : Clitic) (host : List Char) : Bool :=
  c.hostPatterns.all (·.isMatch (String.ofList host))

/-- Whether an analysis may be that of the host. -/
def accepts (c : Clitic) (w : Wordform) : Bool :=
  c.tests.all (·.holdsFor w)

/-- An analysis of the host with the clitic; the surface stays as it is. -/
def attach (c : Clitic) (w : Wordform) : Wordform :=
  let w := { w.addTags c.gramm with
    headword := if c.headword.isEmpty then w.headword else w.headword ++ "+" ++ c.headword
    otherData := w.otherData ++ c.otherData }
  match c.side with
  | .proclitic =>
    { w with gloss := c.gloss ++ "=" ++ w.gloss, glossed := c.glossed ++ "=" ++ w.glossed }
  | .enclitic | .other =>
    { w with gloss := w.gloss ++ "=" ++ c.gloss, glossed := w.glossed ++ "=" ++ c.glossed }

end Clitic

/-! ## Lexical rules -/

/-- What becomes of an analysis that a rule is applied to. -/
inductive RuleMode
  /-- It stays beside the new one. -/
  | augment
  /-- It gives way to the new one. -/
  | replace
  deriving Repr, DecidableEq, Inhabited

/-- A rule for the analyses with a given lemma or stem. -/
structure LexRule where
  headword : Option String
  stem : Option String
  tests : List FieldTest
  newLemma : Option String
  /-- Further tags. -/
  gramm : String
  gloss : Option String
  otherData : List (String × String)
  mode : RuleMode
  deriving Repr, DecidableEq, Inhabited

/-- The analysis that a rule makes, if the given one passes its tests. -/
def LexRule.enrich? (r : LexRule) (w : Wordform) : Option Wordform :=
  if r.tests.all (·.holdsFor w) then
    some { w.addTags r.gramm with
      headword := r.newLemma.getD w.headword
      gloss := r.gloss.getD w.gloss
      otherData := w.otherData ++ r.otherData }
  else none

end Morphology
