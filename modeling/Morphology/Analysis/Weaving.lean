import Morphology.Grammar.Paradigm

/-!
# Stems woven into flexes

A stem pattern falls into chunks of text between boundaries, a flex into parts.  Chunks and parts
are used in turn: a boundary on one side hands over to the other.

## Main definitions

* `Chunk`, `stemChunks` — the chunks of a stem pattern
* `weave` — the surface, the segmented form and the gloss of chunks and parts used in turn
* `tidy` — a segmented form without needless separators
* `joinStemFlex` — a stem pattern with the parts of an inflexion
-/

namespace Morphology

/-! ## Chunks -/

/-- A piece of a stem pattern. -/
inductive Chunk
  | boundary
  | text (s : List Char)
  deriving Repr, DecidableEq, Inhabited

/-- Text as chunks: at most one. -/
def textChunk (s : List Char) : List Chunk :=
  if s.isEmpty then [] else [.text s]

/-- The chunks of the rest of a stem pattern, `done` being the text in front of it. -/
def chunksFrom (done : List Char) : List Char → List Chunk
  | [] => textChunk done
  | c :: rest =>
    if c = boundary then textChunk done ++ .boundary :: chunksFrom [] rest
    else chunksFrom (done ++ [c]) rest

/-- The chunks of a stem pattern. -/
def stemChunks (pattern : List Char) : List Chunk :=
  chunksFrom [] pattern

/-! ## Separators -/

/-- Whether hyphens behind the character are needless. -/
def absorbsHyphens (c : Char) : Bool :=
  c == '>' || c == '~' || c == '-'

/-- The text without hyphens behind a separator; `last` is the character in front of the text. -/
def collapseFrom (last : Option Char) : List Char → List Char
  | [] => []
  | c :: rest =>
    if c = '-' && last.any absorbsHyphens then collapseFrom last rest
    else c :: collapseFrom (some c) rest

/-- The text without hyphens in front of an opening separator at its end. -/
def closeEnd (s : List Char) : List Char :=
  match s.reverse with
  | c :: rest => if c = '<' || c = '~' then (c :: rest.dropWhile (· == '-')).reverse else s
  | [] => s

/-- A segmented form without needless separators. -/
def tidy (s : String) : String :=
  let trim := Text.trimBoth fun c => c == '-' || c == '~'
  String.ofList (trim (closeEnd (trim (collapseFrom none s.toList))))

/-! ## Weaving -/

/-- The surface, the segmented form and the gloss of a stem with an inflexion. -/
structure Joined where
  wf : String
  glossed : String
  gloss : String
  deriving Repr, DecidableEq, Inhabited

/-- What is woven so far. -/
structure Woven where
  wf : List Char
  glossed : String
  /-- The glosses of the affixes in front of the stem. -/
  front : String
  /-- The glosses of the affixes inside the stem. -/
  inner : String
  /-- The glosses of the stem and what follows it. -/
  main : String
  /-- Whether affixes no longer stand in front of the stem. -/
  stemStarted : Bool
  deriving Repr, DecidableEq, Inhabited

namespace Woven

/-- Nothing is woven yet. -/
def start : Woven := ⟨[], "", "", "", "", false⟩

/-- One more chunk of text, glossed with the given text. -/
def addText (w : Woven) (stemGloss : String) (s : List Char) : Woven :=
  { w with
    wf := w.wf ++ withoutBreaks s
    glossed := w.glossed ++ String.ofList (showBreaks s)
    main := w.main ++ stemGloss
    stemStarted := true }

/-- What a segmented form shows of a part: an affix without text has a sign of its own. -/
def shown (p : FlexPart) : String :=
  if p.glossed.isEmpty && p.role ≠ .empty then emptyMark else p.glossed

/-- One more part that is not a boundary. -/
def addPart (w : Woven) (p : FlexPart) : Woven :=
  let w := { w with wf := w.wf ++ p.surface }
  match p.role with
  | .affix =>
    let gloss := "-" ++ p.gloss ++ "-"
    let w := { w with glossed := w.glossed ++ "-" ++ shown p ++ "-" }
    -- An affix in front of the stem is glossed there, wherever the stem's gloss comes.
    if w.stemStarted then { w with main := w.main ++ gloss } else { w with front := w.front ++ gloss }
  | .inner =>
    { w with
      inner := w.inner ++ "<" ++ p.gloss ++ ">"
      glossed := w.glossed ++ "<" ++ shown p ++ ">" }
  | .reduplRight =>
    { w with
      stemStarted := true
      main := w.main ++ "-" ++ p.gloss ++ "~"
      glossed := w.glossed ++ "-" ++ shown p ++ "~" }
  | .reduplLeft =>
    { w with
      main := w.main ++ "~" ++ p.gloss ++ "-"
      glossed := w.glossed ++ "~" ++ shown p ++ "-" }
  | .stemSpec => { w with glossed := w.glossed ++ p.glossed }
  | .empty => { w with stemStarted := true, glossed := w.glossed ++ p.glossed }
  | _ => w

/-- The finished forms. -/
def finish (w : Woven) : Joined :=
  ⟨String.ofList w.wf, tidy w.glossed, tidy (w.front ++ w.inner ++ w.main)⟩

end Woven

/-- The side that is used next. -/
inductive Side
  | stem
  | flex
  deriving Repr, DecidableEq, Inhabited

/-- The side that follows a part.  A boundary hands over to the stem, except the boundary at the
front of a flex: it does so only if just one chunk is used, `used` being the number of chunks used
before. -/
def sideAfter (used : Nat) (atFront : Bool) (p : FlexPart) : Side :=
  if p.role.isBoundary && !(atFront && used != 1) then .stem else .flex

/-- Chunks and parts used in turn.  When one side is used up, the other goes on. -/
def weave (stemGloss : String) (w : Woven) (used : Nat) (atFront : Bool) :
    Side → List Chunk → List FlexPart → Woven
  | _, [], [] => w
  | .stem, .boundary :: cs, ps => weave stemGloss w (used + 1) atFront .flex cs ps
  | .stem, .text s :: cs, ps =>
    weave stemGloss (w.addText stemGloss s) (used + 1) atFront .stem cs ps
  -- The parts are used up: the rest of the stem follows.
  | .flex, .boundary :: cs, [] => weave stemGloss w (used + 1) atFront .flex cs []
  | .flex, .text s :: cs, [] =>
    weave stemGloss (w.addText stemGloss s) (used + 1) atFront .stem cs []
  -- The chunks are used up: the rest of the flex follows.
  | .stem, [], p :: ps =>
    weave stemGloss (if p.role.isBoundary then w else w.addPart p) used false
      (sideAfter used atFront p) [] ps
  | .flex, cs, p :: ps =>
    weave stemGloss (if p.role.isBoundary then w else w.addPart p) used false
      (sideAfter used atFront p) cs ps
termination_by _ cs ps => cs.length + ps.length

/-- The gloss of a stem with the specifiers that an inflexion has for it. -/
def specifiedGloss (stemGloss : String) (parts : List FlexPart) : String :=
  stemGloss ++ String.join ((parts.filter (·.role = .stemSpec)).map fun p => "." ++ p.gloss)

/-- A stem pattern with the parts of an inflexion. -/
def joinStemFlex (pattern : List Char) (stemGloss : String) (parts : List FlexPart) : Joined :=
  (weave (specifiedGloss stemGloss parts) .start 0 true .stem (stemChunks pattern) parts).finish

end Morphology
