import Morphology.Analysis.Formation

/-!
# States of the search

A stem is placed in a word, and inflexions are tried around it.  A state of this search says how
much of the word, of the stem and of each inflexion is matched.

## Main definitions

* `Placement` — a stem in a word
* `Level` — an inflexion that is being matched
* `SearchState` — what is matched so far
-/

namespace Morphology

/-- A stem in a word.  A stretch of the two is known to agree. -/
structure Placement where
  /-- The word, perhaps after corrections. -/
  word : List Char
  sub : SubLexemeId
  /-- The stem as it is matched. -/
  pattern : List Char
  /-- Where the stretch begins in the word. -/
  wordStart : Nat
  /-- Where the stretch begins in the stem. -/
  patternStart : Nat
  /-- The length of the stretch. -/
  length : Nat
  deriving Repr, DecidableEq, Inhabited

namespace Placement

/-- Whether a place in the stem lies in the stretch that is known to agree. -/
def covers (p : Placement) (stemPos : Nat) : Bool :=
  p.patternStart ≤ stemPos && stemPos < p.patternStart + p.length

/-- Whether the stem begins with a boundary. -/
def startsWithBoundary (p : Placement) : Bool :=
  p.pattern.head? == some boundary

/-- Whether the stem ends with a boundary. -/
def endsWithBoundary (p : Placement) : Bool :=
  p.pattern.getLast? == some boundary

end Placement

/-- An inflexion that is being matched, with the stems incorporated in it so far. -/
structure Level where
  link : ChainLink
  /-- The part that is matched next. -/
  part : Nat
  /-- The number of characters of this part that are matched. -/
  consumed : Nat
  deriving Repr, DecidableEq, Inhabited

namespace Level

/-- The level of an inflexion of which nothing is matched. -/
def start (id : InflexionId) : Level := ⟨⟨id, []⟩, 0, 0⟩

/-- The level behind its current part. -/
def nextPart (l : Level) : Level := { l with part := l.part + 1, consumed := 0 }

/-- The level behind its current part, in which a stem is incorporated. -/
def incorporate (l : Level) (sub : SubLexemeId) : Level :=
  let incorporated := l.link.incorporated ++ [⟨l.part, sub⟩]
  { l.nextPart with link := { l.link with incorporated := incorporated } }

end Level

/-- What is matched so far. -/
structure SearchState where
  placement : Placement
  /-- The level that is matched next; the stem, if there is none. -/
  current : Option Nat
  /-- The number of characters of the stem that are matched. -/
  stemPos : Nat
  /-- The number of characters of the word that are matched. -/
  pos : Nat
  /-- The inflexions, each standing in the continuation of the one before. -/
  levels : List Level
  /-- The derivational paradigms used so far. -/
  derivations : List Handle
  /-- Whether inflexions that precede the stem have been tried. -/
  selfTried : Bool
  deriving Repr, DecidableEq, Inhabited

namespace SearchState

/-- Nothing is matched yet. -/
def start (p : Placement) : SearchState := ⟨p, none, 0, 0, [], [], false⟩

/-- Whether the whole word is matched. -/
def wordDone (st : SearchState) : Bool :=
  st.placement.word.length ≤ st.pos

/-- The next character of the word. -/
def wordChar? (st : SearchState) : Option Char :=
  st.placement.word[st.pos]?

/-- The next character of the stem. -/
def stemChar? (st : SearchState) : Option Char :=
  st.placement.pattern[st.stemPos]?

/-- How many levels have an inflexion. -/
def uses (st : SearchState) (id : InflexionId) : Nat :=
  st.levels.countP (·.link.inflexion == id)

/-- The state with one level changed. -/
def modifyLevel (st : SearchState) (level : Nat) (f : Level → Level) : SearchState :=
  { st with levels := st.levels.modify level f }

/-- The state in which the level above a given one comes next; above the first is the stem. -/
def leave (st : SearchState) (level : Nat) : SearchState :=
  { st with current := if level = 0 then none else some (level - 1) }

/-- The state with one more level, which comes next. -/
def push (st : SearchState) (id : InflexionId) (derivation : Option Handle) : SearchState :=
  { st with
    current := some st.levels.length
    levels := st.levels ++ [.start id]
    derivations := st.derivations ++ derivation.toList }

end SearchState

end Morphology
