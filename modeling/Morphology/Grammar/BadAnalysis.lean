import Morphology.Grammar.Error
import Morphology.Grammar.FieldTest
import Morphology.Json.Basic

/-!
# Bad analyses

Templates describe analyses that are dropped, some of them only beside analyses of another kind.
Their patterns may be of any kind that can be read and searched for.

## Main definitions

* `BadTemplate` — patterns that the fields of an analysis have to match
* `BadAnalyses` — unconditional templates, and pairs of a template and a condition
* `BadAnalyses.ofValue` — the templates of a JSON document
* `BadAnalyses.isBad`, `BadAnalyses.filter` — which analyses are dropped
-/

namespace Morphology

open Json (Value)

/-! ## Templates -/

/-- Patterns that the fields of an analysis have to match. -/
structure BadTemplate (P : Type) where
  fields : List (Field × P)
  deriving Repr, DecidableEq, Inhabited

namespace BadTemplate

variable {P : Type} [PatternEngine P]

/-- Whether an analysis matches all patterns; of a field that may come several times, one value
has to match. -/
def conforms (t : BadTemplate P) (w : Wordform) : Bool :=
  t.fields.all fun (field, pattern) =>
    match field.value? w with
    | some value => PatternEngine.isMatch pattern value
    | none => (w.other field.name).any (PatternEngine.isMatch pattern)

/-- The pattern text with an anchor at both ends instead of those written. -/
def anchored (pattern : String) : String :=
  "^" ++ String.ofList (Text.trimBoth (fun c => c == '^' || c == '$') pattern.toList) ++ "$"

/-- The template of an object: its members with text are patterns for the fields they are named
for. -/
def ofMembers : List (Option String × Value) → Except GrammarError (BadTemplate P)
  | [] => .ok ⟨[]⟩
  | (some name, .str (some pattern)) :: rest =>
    match PatternEngine.read? (anchored pattern) with
    | none => .error (.invalidPattern pattern .badAnalyses)
    | some p => (ofMembers rest).map fun t => ⟨(Field.read name, p) :: t.fields⟩
  | _ :: rest => ofMembers rest

end BadTemplate

/-! ## Filters -/

/-- Unconditional templates, and templates for analyses that are dropped beside an analysis that
conforms to another template. -/
structure BadAnalyses (P : Type) where
  unconditional : List (BadTemplate P)
  conditional : List (BadTemplate P × BadTemplate P)
  deriving Repr, DecidableEq, Inhabited

namespace BadAnalyses

variable {P : Type} [PatternEngine P]

/-- No templates. -/
def empty : BadAnalyses P := ⟨[], []⟩

/-- The templates of both. -/
def append (a b : BadAnalyses P) : BadAnalyses P :=
  ⟨a.unconditional ++ b.unconditional, a.conditional ++ b.conditional⟩

/-- Whether there are no templates. -/
def isEmpty (a : BadAnalyses P) : Bool :=
  a.unconditional.isEmpty && a.conditional.isEmpty

/-- The templates of an entry of a document. -/
def ofEntry (members : List (Option String × Value)) : Except GrammarError (BadAnalyses P) :=
  let entry := Value.obj members
  match entry.member? "remove", entry.member? "if_exists" with
  | some (.obj remove), some (.obj condition) => do
    let remove ← BadTemplate.ofMembers remove
    let condition ← BadTemplate.ofMembers condition
    return ⟨[], [(remove, condition)]⟩
  | _, _ => (BadTemplate.ofMembers members).map fun t => ⟨[t], []⟩

/-- The templates of the entries of a document, and the faults of those that have none.  Entries
that are not objects are passed over. -/
def ofEntries : List Value → BadAnalyses P × List GrammarError
  | [] => (empty, [])
  | .obj members :: rest =>
    let (templates, errors) := ofEntries rest
    match ofEntry members with
    | .ok entry => (entry.append templates, errors)
    | .error e => (templates, e :: errors)
  | _ :: rest => ofEntries rest

/-- The templates of a document, which is an array or has none. -/
def ofValue : Value → BadAnalyses P × List GrammarError
  | .arr entries => ofEntries entries
  | _ => (empty, [])

/-- Whether one of the analyses is dropped, given all of them. -/
def isBad (b : BadAnalyses P) (analyses : List Wordform) (index : Nat) : Bool :=
  match analyses[index]? with
  | none => false
  | some w =>
    b.unconditional.any (·.conforms w) ||
      b.conditional.any fun (remove, condition) =>
        remove.conforms w &&
          analyses.zipIdx.any fun (other, i) => i != index && condition.conforms other

/-- The analyses that stay.  Which are dropped is decided before any is. -/
def filter (b : BadAnalyses P) (analyses : List Wordform) : List Wordform :=
  (analyses.zipIdx.filter fun (_, i) => !b.isBad analyses i).map (·.1)

end BadAnalyses

end Morphology
