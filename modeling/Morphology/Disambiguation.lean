import Morphology.Pattern.WordChars
import Morphology.Text.Basic
import Morphology.Tree
import Morphology.Wordform

/-!
# Disambiguation

Analyses are handed to a disambiguator as text.  Every token is a cohort: its surface on a line, and
below it a line for each analysis, with the analysis's number.

A disambiguator gives back the cohorts of a stream, with readings removed and with tags removed or
added.  Cohorts belong to tokens by their order, and readings to analyses by their numbers.

## Main definitions

* `cohort` — a token with its analyses
* `Tree.cohortStream` — nested groups of tokens, each group closed by a cohort of its own
* `ReturnedCohort`, `returnedCohorts` — the cohorts in a text
* `ReturnedCohort.readings` — the numbers of the readings kept, with their tags
* `Tree.applyStream` — analyses restricted to the readings kept
* `Tree.disambiguate` — analyses as an external disambiguator leaves them
-/

namespace Morphology

/-! ## Streams for a disambiguator -/

namespace Cohort

/-- The surface of the cohort that closes a group. -/
def groupEnd : String := "SENT_BOUNDARY"

/-- A text inside a cohort: it has no markup and stays on its line. -/
def escape (s : String) : String :=
  Text.replaceAll "\n" "\\n" (Text.escapeMarkup s)

/-- The first line of a cohort. -/
def headLine (surface : String) : String :=
  "\"<" ++ surface ++ ">\"\n"

/-- Whether a surface has no character of words. -/
def isMark (surface : String) : Bool :=
  !surface.isEmpty && surface.toList.all (!Pattern.isWordChar ·)

/-- The line of an analysis. -/
def readingLine (w : Wordform) (number : Nat) : String :=
  let tags := w.tags.map fun t => Text.escapeMarkup (Text.trimBlanks t)
  "\t\"" ++ escape w.headword ++ "\" <ana_" ++ toString number ++ ">" ++
    String.join (tags.map (" " ++ ·)) ++ "\n"

end Cohort

open Cohort

/-- A token with its analyses.  A placeholder has no line of its own, unless it is a punctuation
mark; a token without even a placeholder is left out. -/
def cohort : List Wordform → String
  | [] => ""
  | [w] =>
    let surface := escape w.wf
    if w.isAnalyzed then headLine surface ++ readingLine w 0
    else if isMark w.wf then headLine surface ++ "\t\"" ++ surface ++ "\" punct\n"
    else headLine surface
  | w :: ws =>
    headLine (escape w.wf) ++ String.join ((w :: ws).zipIdx.map fun (w, i) => readingLine w i)

namespace Tree

/-- A tree inside a group: a group that has items is followed by a cohort that closes it. -/
def cohortsInside : Tree (List Wordform) → String
  | .leaf analyses => cohort analyses
  | .group [] => ""
  | .group (t :: rest) =>
    t.cohortsInside ++ cohortsOf rest ++ headLine groupEnd
where
  /-- Several trees inside a group. -/
  cohortsOf : List (Tree (List Wordform)) → String
    | [] => ""
    | t :: rest => t.cohortsInside ++ cohortsOf rest

/-- A tree as it is handed to a disambiguator.  The outermost group is not closed. -/
def cohortStream : Tree (List Wordform) → String
  | .leaf analyses => cohort analyses
  | .group items => cohortsInside.cohortsOf items

end Tree

/-! ## What a disambiguator returns -/

/-! ### Cohorts -/

/-- A cohort in a text: the surface between the angle brackets, and the lines below. -/
structure ReturnedCohort where
  surface : List Char
  lines : List (List Char)
  deriving Repr, DecidableEq, Inhabited

/-- The rest of a surface behind its opening bracket, and the text behind the first line. -/
def surfaceEnd? : List Char → Option (List Char × List Char)
  | '>' :: '"' :: '\n' :: rest => some ([], rest)
  | '<' :: _ | '>' :: _ | [] => none
  | c :: rest => (surfaceEnd? rest).map fun (surface, rest) => (c :: surface, rest)

/-- The lines at the front of a text that begin with a tab, without it, and the text behind
them. -/
def tabbedLines : List Char → List (List Char) × List Char
  | '\t' :: text =>
    match h : Text.cutAt ['\n'] text with
    | some (line, rest) =>
      have : rest.length < text.length + 1 := by
        rw [Text.append_of_cutAt h]; simp; omega
      let (lines, rest) := tabbedLines rest
      (line :: lines, rest)
    | none => ([], '\t' :: text)
  | text => ([], text)
termination_by text => text.length

/-- The cohort at the front of a text, and the text behind it. -/
def cohortAt? : List Char → Option (ReturnedCohort × List Char)
  | '"' :: '<' :: text =>
    (surfaceEnd? text).map fun (surface, rest) =>
      let (lines, rest) := tabbedLines rest
      (⟨surface, lines⟩, rest)
  | _ => none

private theorem length_of_surfaceEnd? {text surface rest : List Char}
    (h : surfaceEnd? text = some (surface, rest)) : rest.length < text.length := by
  fun_induction surfaceEnd? text generalizing surface with
  | case1 rest' => simp at h; obtain ⟨-, rfl⟩ := h; simp; omega
  | case2 => simp at h
  | case3 => simp at h
  | case4 => simp at h
  | case5 c rest' _ _ _ ih =>
    obtain ⟨⟨s, r⟩, hr, heq⟩ := Option.map_eq_some_iff.1 h
    simp only [Prod.mk.injEq] at heq
    obtain ⟨-, rfl⟩ := heq
    have := ih hr
    simp; omega

private theorem length_of_tabbedLines (text : List Char) :
    (tabbedLines text).2.length ≤ text.length := by
  fun_induction tabbedLines text with
  | case1 text line rest h this lines rest' heq ih =>
    simp only [heq] at ih
    simp; omega
  | case2 => simp
  | case3 => simp

private theorem length_of_cohortAt? {text rest : List Char} {c : ReturnedCohort}
    (h : cohortAt? text = some (c, rest)) : rest.length < text.length := by
  unfold cohortAt? at h
  split at h
  · next text =>
    obtain ⟨⟨s, r⟩, hr, heq⟩ := Option.map_eq_some_iff.1 h
    simp only [Prod.mk.injEq] at heq
    obtain ⟨-, rfl⟩ := heq
    have h₁ := length_of_surfaceEnd? hr
    have h₂ := length_of_tabbedLines r
    simp; omega
  · simp at h

/-- The cohorts in a text; what is between them is passed over. -/
def returnedCohorts : List Char → List ReturnedCohort
  | [] => []
  | c :: text =>
    match h : cohortAt? (c :: text) with
    | some (block, rest) =>
      have : rest.length < text.length + 1 := length_of_cohortAt? h
      block :: returnedCohorts rest
    | none => returnedCohorts text
termination_by text => text.length

/-! ### Readings -/

namespace ReturnedCohort

/-- The reading that begins with the given text: a number between `<ana_` and a closing bracket,
then tags. -/
def readingAt? (text : List Char) : Option (Nat × List String) :=
  let front := "<ana_".toList
  if front.isPrefixOf text then
    let text := text.drop front.length
    let digits := text.takeWhile Char.isDigit
    match text.dropWhile Char.isDigit with
    | '>' :: rest =>
      if digits.isEmpty then none
      -- Numbers beyond those of the analyses do no harm: nothing has them.
      else
        let number : Nat := digits.foldl (fun n d => 10 * n + (d.toNat - '0'.toNat)) 0
        let tags := (Text.splitAt ' ' (String.ofList rest)).filter (!·.isEmpty)
        some (number, tags.map Text.unescapeMarkup)
    | _ => none
  else none

/-- The first reading in a line. -/
def reading? : List Char → Option (Nat × List String)
  | [] => none
  | c :: line => (readingAt? (c :: line)).orElse fun _ => reading? line

/-- The texts in which readings are looked for. -/
def rows (c : ReturnedCohort) : List (List Char) :=
  ('<' :: c.surface ++ ['>', '"']) :: c.lines

/-- The numbers of the readings kept, with their tags. -/
def readings (c : ReturnedCohort) : List (Nat × List String) :=
  c.rows.filterMap reading?

/-- Whether the cohort is that of a punctuation mark. -/
def isPunctuation (c : ReturnedCohort) : Bool :=
  c.rows.any (Text.hasInfix "\" punct".toList)

/-- Whether the cohort closes a group. -/
def closesGroup (c : ReturnedCohort) : Bool :=
  c.surface == Cohort.groupEnd.toList

/-- A list with further items, those left out that it has already. -/
def extend (tags further : List String) : List String :=
  further.foldl (fun tags t => if tags.contains t then tags else tags ++ [t]) tags

/-- An analysis with the tags of its reading, its own in front. -/
def retag (w : Wordform) (returned : List String) : Wordform :=
  let own := (w.tags.map Text.trimBlanks).filter returned.contains
  { w with gramm := String.intercalate "," (extend own returned) }

/-- The analyses whose readings are kept, with their tags; if none is kept, a placeholder. -/
def restrict (c : ReturnedCohort) (analyses : List Wordform) : List Wordform :=
  match analyses with
  | [] => []
  | first :: _ =>
    if c.isPunctuation then analyses
    else
      let readings := c.readings
      let kept := analyses.zipIdx.filterMap fun (w, i) => (readings.lookup i).map (retag w)
      if kept.isEmpty then [.placeholder first.wf] else kept

end ReturnedCohort

/-! ### Trees -/

/-- The cohorts that a disambiguator returns for tokens. -/
def tokenCohorts (stream : String) : List ReturnedCohort :=
  let text := Text.replaceAll "\n\n" "\n" (Text.replaceAll "\r" "\n" stream)
  (returnedCohorts text.toList).filter (!·.closesGroup)

/-- The analyses of a token restricted to the next cohort, and the cohorts behind it.  A token
without analyses takes none. -/
def takeCohort (cohorts : List ReturnedCohort) (analyses : List Wordform) :
    List ReturnedCohort × List Wordform :=
  if analyses.isEmpty then (cohorts, analyses)
  else
    match cohorts with
    | [] => ([], analyses)
    | c :: rest => (rest, c.restrict analyses)

namespace Tree

/-- The analyses restricted to the readings that a disambiguator returns. -/
def applyStream (t : Tree (List Wordform)) (stream : String) : Tree (List Wordform) :=
  (t.traverse takeCohort (tokenCohorts stream)).2

/-- The analyses as an external disambiguator leaves them, and whether it was successful.  It is not
asked when there is nothing to be said. -/
def disambiguate (run : String → Option String) (t : Tree (List Wordform)) :
    Bool × Tree (List Wordform) :=
  let stream := t.cohortStream
  if stream.isEmpty then (true, t)
  else
    match run stream with
    | some returned => (true, t.applyStream returned)
    | none => (false, t)

end Tree

end Morphology
