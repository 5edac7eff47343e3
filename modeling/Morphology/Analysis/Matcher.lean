import Morphology.Analysis.Index
import Morphology.Analysis.SearchState
import Morphology.EditDistance

/-!
# Matching stems and inflexions

A step of the search matches a character or hands over between the stem and the inflexions.  Where
there is a choice, a step has several outcomes.  The states still to be looked at are kept on a
stack, and a budget bounds the number of states looked at.

## Main definitions

* `Matcher` — a grammar with what may be tried where
* `Matcher.mayFollow` — the inflexions of a paradigm that may be tried next
* `Matcher.step` — the states one step further
* `Matcher.accept?` — the wordform of a finished state
* `Budget` — the steps that are left
* `Matcher.run` — the wordforms that a placement leads to
-/

namespace Morphology

/-- The limits of the search that are not the grammar's own. -/
structure SearchLimits where
  /-- How many inflexions without characters may continue in a word. -/
  maxEmptyInflexions : Nat
  /-- The least length of words of which a corrected form is accepted. -/
  minReplacementWordLen : Nat
  deriving Repr, DecidableEq, Inhabited

/-- A grammar with what may be tried where. -/
structure Matcher where
  grammar : Grammar
  /-- The inflexions of a paradigm that a word may have at a place; the flag says that the stem is
  still ahead. -/
  candidates : Handle → List Char → Nat → Bool → List InflexionId
  /-- The sub-lexemes that a word may have incorporated at a place, with their lengths. -/
  incorporations : List Char → Nat → List (SubLexemeId × Nat)
  limits : SearchLimits

/-- The matcher of a grammar with its indices. -/
def Matcher.ofIndices (g : Grammar) (affixes : AffixIndex) (incorporations : IncorporationIndex)
    (limits : SearchLimits) : Matcher :=
  ⟨g, affixes.candidates, incorporations.at?, limits⟩

/-- Whether two characters agree. -/
def agree (a b : Char) : Bool :=
  a == b || a == wildcard || b == wildcard

namespace Matcher

/-! ## Levels -/

/-- The inflexion of a level. -/
def inflexionOf? (m : Matcher) (l : Level) : Option Inflexion :=
  m.grammar.inflexion? l.link.inflexion

/-- The part of a level that is matched next. -/
def partOf? (m : Matcher) (l : Level) : Option FlexPart :=
  (m.inflexionOf? l).bind (·.parts[l.part]?)

/-- The state with one more level. -/
def openLevel (m : Matcher) (st : SearchState) (id : InflexionId) : SearchState :=
  let derivational := (m.grammar.paradigm? id.paradigm).any (·.isDerivational)
  st.push id (if derivational then some id.paradigm else none)

/-! ## Inflexions that may follow -/

/-- The number of levels whose inflexion has no characters and continues. -/
def emptyDepth (m : Matcher) (st : SearchState) : Nat :=
  (st.levels.filterMap m.inflexionOf?).countP fun i => i.literalLength == 0 && i.continues

/-- Whether a paradigm may be used after the derivational paradigms used so far. -/
def admitsParadigm (m : Matcher) (used : List Handle) (p : Paradigm) : Bool :=
  !p.isDerivational ||
    (used.length < m.grammar.config.maxDerivations &&
      p.derivation.all fun info =>
        let earlier := used.filterMap m.grammar.paradigm?
        !earlier.any (·.restricts info.derivation) &&
          earlier.countP (fun q => q.derivation.any (·.derivation == info.derivation)) <
            m.grammar.config.recursLimit)

/-- The inflexions of a paradigm that may be tried next, with those that links lead to in place of
the links.  At most `depth` paradigms are looked through one behind the other. -/
def reachable (m : Matcher) (st : SearchState) (slot : Bool) :
    (depth : Nat) → Handle → List InflexionId
  | 0, _ => []
  | depth + 1, h =>
    match m.grammar.paradigm? h with
    | none => []
    | some p =>
      if m.admitsParadigm st.derivations p then
        (m.candidates h st.placement.word st.pos slot).flatMap fun id =>
          match m.grammar.inflexion? id with
          | none => []
          | some i =>
            if m.grammar.config.recursLimit ≤ st.uses id then []
            -- A link is no level of its own: what it leads to takes its place.
            else if i.isLink then i.subsequent.flatMap (m.reachable st slot depth)
            else [id]
      else []

/-- The inflexions of a paradigm that may be tried next.  With `slot` the stem is still ahead. -/
def mayFollow (m : Matcher) (st : SearchState) (slot : Bool) (h : Handle) : List InflexionId :=
  m.reachable st slot (m.limits.maxEmptyInflexions + 1 - m.emptyDepth st) h

/-! ## Steps in the stem -/

/-- The state behind a character of the stem, if the word has it too. -/
def stepStemChar (st : SearchState) (c : Char) : List SearchState :=
  let next := { st with stemPos := st.stemPos + 1 }
  if c = morphBreak then [next]
  else
    let p := st.placement
    let matched :=
      -- In the stretch that is known to agree only the place has to be right.
      if p.covers st.stemPos then st.pos == p.wordStart + st.stemPos - p.patternStart
      else st.wordChar?.any (agree c)
    if matched then [{ next with pos := st.pos + 1 }] else []

/-- The states behind a boundary of the stem: the first boundary opens a level. -/
def stepStemBoundary (m : Matcher) (st : SearchState) (paradigm : Handle) : List SearchState :=
  let next := { st with stemPos := st.stemPos + 1 }
  if next.levels.isEmpty then
    -- Nothing is behind a boundary at the front of a stem but the stem.
    (m.mayFollow next (st.stemPos == 0) paradigm).map (m.openLevel next)
  else [{ next with current := some 0 }]

/-- The states in which an inflexion precedes the stem. -/
def stepSelf (m : Matcher) (st : SearchState) (paradigm : Handle) : List SearchState :=
  ((m.mayFollow st true paradigm).filter fun id =>
    (m.grammar.inflexion? id).any (·.startWithSelf)).map (m.openLevel st)

/-- The states one step further, the stem being matched next. -/
def stepStem (m : Matcher) (st : SearchState) : List SearchState :=
  match st.stemChar?, m.grammar.subLexeme? st.placement.sub with
  | some c, some sub =>
    if c = boundary then m.stepStemBoundary st sub.paradigm
    else if st.stemPos = 0 && st.levels.isEmpty && !st.selfTried then
      -- Once is enough: the state comes back here when the inflexions in front are tried.
      let st := { st with selfTried := true }
      match m.stepSelf st sub.paradigm with
      | [] => stepStemChar st c
      | states => states ++ [st]
    else stepStemChar st c
  | _, _ => []

/-! ## Steps in an inflexion -/

/-- Whether a boundary of an inflexion hands over to the level above.  At the front of an inflexion
it does not, for there the level above has been left already; only the first level, or an
inflexion that precedes its stem, hands back to a stem that begins with a boundary. -/
def handsOver (st : SearchState) (level part : Nat) (i : Inflexion) : Bool :=
  let atStemFront := st.stemPos < 2 && st.placement.startsWithBoundary
  if i.startWithSelf then 1 < part || atStemFront
  else part != 0 || (level == 0 && atStemFront)

/-- The states behind a continuation: the level below, or new levels. -/
def stepContinuation (m : Matcher) (st : SearchState) (level : Nat) (i : Inflexion) :
    List SearchState :=
  let st := st.modifyLevel level (·.nextPart)
  -- A second continuation goes on with the inflexion that stands in the first.
  if level + 1 < st.levels.length then [{ st with current := some (level + 1) }]
  else i.subsequent.flatMap fun h => (m.mayFollow st false h).map (m.openLevel st)

/-- The states behind an incorporated stem. -/
def stepIncorporation (m : Matcher) (st : SearchState) (level : Nat) : List SearchState :=
  (m.incorporations st.placement.word st.pos).map fun (sub, length) =>
    { st.modifyLevel level (·.incorporate sub) with pos := st.pos + length }

/-- The state behind a character of a part, if the word has it too, or behind a part that is
matched to its end. -/
def stepSurface (st : SearchState) (level : Nat) (l : Level) (part : FlexPart) :
    List SearchState :=
  match part.surface[l.consumed]? with
  | none => [st.modifyLevel level (·.nextPart)]
  | some c =>
    if st.wordChar?.any (agree c) then
      let st := st.modifyLevel level fun l => { l with consumed := l.consumed + 1 }
      [{ st with pos := st.pos + 1 }]
    else []

/-- The states one step further, a level being matched next. -/
def stepLevel (m : Matcher) (st : SearchState) (level : Nat) : List SearchState :=
  match st.levels[level]? with
  | none => []
  | some l =>
    match m.inflexionOf? l with
    | none => []
    | some i =>
      match i.parts[l.part]? with
      | none => [st.leave level]
      | some part =>
        match part.role with
        | .stem | .forcedStem =>
          let next := st.modifyLevel level (·.nextPart)
          [if handsOver st level l.part i then next.leave level else next]
        -- The sign has done its work when the level was opened.
        | .startWithSelf => [st.modifyLevel level (·.nextPart)]
        | .continuation => m.stepContinuation st level i
        | .incorporation => m.stepIncorporation st level
        | _ => stepSurface st level l part

/-! ## Search -/

/-- The states one step further, those to be tried first in front. -/
def step (m : Matcher) (st : SearchState) : List SearchState :=
  match st.current with
  | none => m.stepStem st
  | some level => m.stepLevel st level

/-- Whether there is a step to be made before the state can be accepted or given up. -/
def canContinue (m : Matcher) (st : SearchState) : Bool :=
  if st.wordDone then
    match st.levels.getLast? with
    | none => st.stemChar?.all fun c => c == boundary || c == morphBreak
    | some last =>
      match m.partOf? last with
      | none => false
      | some part =>
        match part.role with
        -- The rest of the stem may be nothing but breaks and boundaries.
        | .stem | .forcedStem | .startWithSelf =>
          st.stemPos < st.placement.pattern.length || st.placement.endsWithBoundary
        | .continuation | .incorporation => true
        | _ => part.surface.length ≤ last.consumed
  else true

/-! ## Acceptance -/

/-- Whether a part needs no characters of the word. -/
def mayRemain (p : FlexPart) : Bool :=
  match p.role with
  | .stem | .forcedStem | .startWithSelf | .continuation => true
  | .incorporation => false
  | _ => p.surface.isEmpty

/-- Whether all characters of a level are matched. -/
def isFinished (m : Matcher) (l : Level) : Bool :=
  match m.inflexionOf? l with
  | none => false
  | some i =>
    match i.parts.drop l.part with
    | [] => true
    | part :: rest =>
      (mayRemain part ||
        (part.role ≠ .incorporation && part.surface.length ≤ l.consumed)) &&
      rest.all mayRemain

/-- Whether the last inflexion of a chain may end a word. -/
def mayEnd (i : Inflexion) : Bool :=
  !i.continues || i.position = .nonFinal

/-- Whether the stem and all levels are matched to their ends. -/
def isComplete (m : Matcher) (st : SearchState) : Bool :=
  st.wordDone &&
    ((st.placement.pattern.drop st.stemPos).all fun c => c == boundary || c == morphBreak) &&
    ((st.levels.getLast?.bind m.inflexionOf?).any mayEnd) &&
    st.levels.all m.isFinished

/-- Whether a wordform with the given surface answers to a host, of which at most `maxEdits`
characters may be wrong. -/
def answers (m : Matcher) (host : List Char) (maxEdits : Nat) (surface : List Char) : Bool :=
  surface == host ||
    (maxEdits != 0 && m.limits.minReplacementWordLen ≤ surface.length &&
      m.limits.minReplacementWordLen ≤ host.length && editDistance surface host ≤ maxEdits)

/-- The wordform of a finished state, if it answers to the host. -/
def accept? (m : Matcher) (host : List Char) (maxEdits : Nat) (st : SearchState) :
    Option Wordform :=
  if m.isComplete st then do
    let i ← m.grammar.mergeChain? (st.levels.map (·.link))
    let w ← m.grammar.buildWordform? st.placement.sub i
    if m.answers host maxEdits w.wf.toList then some w else none
  else none

end Matcher

/-! ## The loop -/

/-- The steps that are left. -/
structure Budget where
  remaining : Nat
  /-- Whether a step could not be made for want of budget. -/
  exhausted : Bool
  deriving Repr, DecidableEq, Inhabited

/-- A budget of which nothing is spent. -/
def Budget.fresh (steps : Nat) : Budget := ⟨steps, false⟩

namespace Matcher

/-- The wordforms that the states on a stack lead to, behind those of `found`, which are last
first; the remaining steps, and whether they sufficed. -/
def explore (m : Matcher) (host : List Char) (maxEdits : Nat) :
    (steps : Nat) → (found : List Wordform) → List SearchState → List Wordform × Nat × Bool
  | steps, found, [] => (found.reverse, steps, true)
  | 0, found, _ :: _ => (found.reverse, 0, false)
  | steps + 1, found, st :: stack =>
    -- The search is depth first: new states are looked at before those that wait.
    if m.canContinue st then m.explore host maxEdits steps found (m.step st ++ stack)
    else
      m.explore host maxEdits steps ((m.accept? host maxEdits st).toList ++ found) stack

/-- The wordforms that a placement leads to, and the budget left. -/
def run (m : Matcher) (host : List Char) (maxEdits : Nat) (p : Placement) (budget : Budget) :
    List Wordform × Budget :=
  let (found, remaining, sufficed) := m.explore host maxEdits budget.remaining [] [.start p]
  (found, ⟨remaining, budget.exhausted || !sufficed⟩)

end Matcher

end Morphology
