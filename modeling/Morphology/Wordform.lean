import Morphology.Json.Basic
import Morphology.Text.Basic

/-!
# Wordforms

A wordform is one analysis of a token.  A token without analyses has a placeholder, a wordform
without a lemma.

## Main definitions

* `Wordform`, `SubWord` — an analysis, and a word it contains
* `Wordform.placeholder` — what stands for a token without analyses
* `Wordform.tags`, `Wordform.addTags` — the grammatical tags
* `Wordform.expandMarkers` — markers of contained words moved out of the tags
* `ViewOptions` — what is shown, and how contained words are
* `WordformView` — what is shown of a wordform
* `WordformView.markup`, `WordformView.members` — a view as an element, or as the members of an
  object
* `Wordform.json` — an object that shows a wordform
* `tokenMarkup` — a token with its analyses as an element
-/

namespace Morphology

/-- A word that a wordform contains. -/
structure SubWord where
  headword : String
  gramm : String
  deriving Repr, DecidableEq, Inhabited

/-- One analysis of a token. -/
structure Wordform where
  /-- The surface. -/
  wf : String
  /-- The surface divided into morphemes. -/
  glossed : String
  /-- The gloss of each morpheme. -/
  gloss : String
  headword : String
  /-- Grammatical tags, with commas between them. -/
  gramm : String
  /-- The stem as written in the grammar. -/
  stem : String
  /-- Further fields of the lexeme; a field may come several times. -/
  otherData : List (String × String)
  subwords : List SubWord
  deriving Repr, DecidableEq, Inhabited

/-! ## Tags -/

/-- The tags of a comma-separated text, empty ones left out. -/
def splitTags (gramm : String) : List String :=
  (Text.splitAt ',' gramm).filter (!·.isEmpty)

/-- Two comma-separated tag texts as one. -/
def joinTags (left right : String) : String :=
  if left.isEmpty then right
  else if right.isEmpty then left
  else left ++ "," ++ right

/-- What a tag begins with that stands for a contained word.  The lemma follows, then after a
colon the word's own tags, with semicolons between them. -/
def markerFront : String := "LEX:"

/-- The tag that stands for a contained word. -/
def marker (headword gramm : String) : String :=
  markerFront ++ headword ++ ":" ++ Text.replaceAll "," ";" gramm

/-- The word that a tag stands for. -/
def subWord? (tag : String) : Option SubWord :=
  let chars := tag.toList
  let front := markerFront.toList
  if front.isPrefixOf chars then
    let rest := chars.drop front.length
    let (headword, gramm) := (Text.cutAt [':'] rest).getD (rest, [])
    some ⟨String.ofList headword, Text.replaceAll ";" "," (String.ofList gramm)⟩
  else none

namespace Wordform

/-- What stands for a token without analyses. -/
def placeholder (surface : String) : Wordform :=
  { wf := surface, glossed := "", gloss := "", headword := "", gramm := "", stem := "",
    otherData := [], subwords := [] }

/-- Whether the wordform is an analysis rather than a placeholder. -/
def isAnalyzed (w : Wordform) : Bool := !w.headword.isEmpty

/-- The grammatical tags. -/
def tags (w : Wordform) : List String := splitTags w.gramm

/-- The wordform with further tags. -/
def addTags (w : Wordform) (tags : String) : Wordform :=
  { w with gramm := joinTags w.gramm tags }

/-- The values of a further field, in order. -/
def other (w : Wordform) (field : String) : List String :=
  (w.otherData.filter (·.1 == field)).map (·.2)

/-- The wordform with the markers among its tags made into contained words. -/
def expandMarkers (w : Wordform) : Wordform :=
  let tags := Text.splitAt ',' w.gramm
  { w with
    gramm := String.intercalate "," (tags.filter fun t => (subWord? t).isNone)
    subwords := w.subwords ++ tags.filterMap subWord? }

end Wordform

/-! ## Views -/

/-- What is shown of a wordform. -/
structure ViewOptions where
  /-- Whether the division into morphemes and their glosses are shown. -/
  glossing : Bool
  /-- Whether contained words go into the lemma and the tags instead of standing for
  themselves. -/
  flattenSubwords : Bool
  /-- The further fields that are shown. -/
  fields : List String
  deriving Repr, DecidableEq

/-- The further fields that are shown unless others are named. -/
def ViewOptions.defaultFields : List String :=
  ["trans_ru", "trans_en", "trans_de", "lex2", "gramm2", "trans_ru2", "trans_en2", "trans_de2",
    "root"]

instance : Inhabited ViewOptions := ⟨⟨true, false, ViewOptions.defaultFields⟩⟩

/-- A contained word as shown. -/
structure SubWordView where
  headword : String
  tags : List String
  deriving Repr, DecidableEq, Inhabited

/-- What is shown of a wordform. -/
structure WordformView where
  headword : String
  tags : List String
  /-- The division into morphemes and their glosses. -/
  glossing : Option (String × String)
  extra : List (String × String)
  subwords : List SubWordView
  deriving Repr, DecidableEq, Inhabited

/-- What is shown of a wordform. -/
def Wordform.view (w : Wordform) (o : ViewOptions) : WordformView where
  headword :=
    if o.flattenSubwords then w.subwords.foldl (fun headword s => headword ++ "+" ++ s.headword) w.headword
    else w.headword
  tags :=
    if o.flattenSubwords then w.tags ++ w.subwords.flatMap fun s => splitTags s.gramm
    else w.tags
  glossing := if o.glossing && !w.glossed.isEmpty then some (w.glossed, w.gloss) else none
  extra := o.fields.filterMap fun field =>
    match w.other field with
    | [] => none
    | values => some (field, String.intercalate "|" values)
  subwords :=
    if o.flattenSubwords then [] else w.subwords.map fun s => ⟨s.headword, splitTags s.gramm⟩

/-! ### Markup -/

/-- An attribute with a space in front. -/
def attr (name value : String) : String :=
  " " ++ name ++ "=\"" ++ Text.escapeMarkup value ++ "\""

/-- The attributes that every analysis has. -/
def mainAttributes (headword : String) (tags : List String) : String :=
  attr "lex" headword ++ attr "gr" (String.intercalate "," tags)

/-- A contained word as an element. -/
def SubWordView.markup (s : SubWordView) : String :=
  "<ana" ++ mainAttributes s.headword s.tags ++ "></ana>"

/-- A wordform as an element, which the contained words are inside. -/
def WordformView.markup (v : WordformView) : String :=
  let glossing := match v.glossing with
    | some (parts, gloss) => attr "parts" parts ++ attr "gloss" gloss
    | none => ""
  "<ana" ++ mainAttributes v.headword v.tags ++ glossing ++
    String.join (v.extra.map fun (name, value) => attr name value) ++ ">" ++
    String.join (v.subwords.map (·.markup)) ++ "</ana>"

/-- The texts without those equal to their left neighbour. -/
def dropRepeats : List String → List String
  | [] => []
  | [s] => [s]
  | s :: t :: rest => if s = t then dropRepeats (t :: rest) else s :: dropRepeats (t :: rest)

/-- A token with its analyses, each rendering once and in order, as an element. -/
def tokenMarkup (token : String) (analyses : List Wordform) (o : ViewOptions) : String :=
  let rendered := (analyses.filter (·.isAnalyzed)).map fun w => (w.view o).markup
  let sorted := rendered.mergeSort fun a b => (compare a b).isLE
  "<w>" ++ String.join (dropRepeats sorted) ++ Text.escapeMarkup token ++ "</w>"

/-! ### Objects -/

open Json (Value)

/-- The members that every analysis has. -/
def mainMembers (headword : String) (tags : List String) : List (String × Value) :=
  [("lemma", .ofString headword), ("gramm", .ofString (String.intercalate "," tags))]

/-- The members of a view. -/
def WordformView.members (v : WordformView) : List (String × Value) :=
  mainMembers v.headword v.tags ++
    (match v.glossing with
      | some (parts, gloss) => [("wfGlossed", .ofString parts), ("gloss", .ofString gloss)]
      | none => []) ++
    v.extra.map (fun (field, value) => (field, .ofString value)) ++
    if v.subwords.isEmpty then []
    else [("subwords", .arr (v.subwords.map fun s => .ofMembers (mainMembers s.headword s.tags)))]

/-- A wordform as an object. -/
def Wordform.json (w : Wordform) (o : ViewOptions) : Value :=
  .ofMembers ((w.view o).members ++ [("wf", .ofString w.wf)])

end Morphology
