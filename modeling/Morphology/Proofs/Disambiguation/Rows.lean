import Mathlib.Data.List.TakeWhile
import Morphology.Proofs.Disambiguation.Cohorts
import Morphology.Proofs.Text.Markup

/-!
# Readings found in the lines of a cohort

A line has a reading where an opening bracket stands.  The texts of a cohort have none of their own,
so that the line of an analysis gives back its number and its tags.  The first line is looked at
as well, between its brackets; there a surface may look like a number.

## Main definitions

* `surfaceNumber?` — the number of a surface that looks like one
* `rowOf` — the line of an analysis as it is found again

## Main statements

* `reading?_rowOf` — the line of an analysis gives its number and its tags
* `reading?_head` — the first line gives a reading if its surface looks like a number
* `toList_eq_of_shown` — a surface is known from what its cohort shows, unless that has escapes
* `hasInfix_rowOf` — a line looks like that of a punctuation mark only by its lemma
-/

namespace Morphology

open Cohort

/-! ## Escaped texts -/

namespace Cohort

/-- What stands for a character inside a cohort. -/
def shownChar (c : Char) : List Char :=
  if c = '\n' then ['\\', 'n'] else Text.written c

/-- Whether a character stands for itself and has no part in what stands for another. -/
def isPlain (c : Char) : Bool :=
  !('\\' :: '\n' :: Text.markupChars).contains c

theorem toList_escape (s : String) : (escape s).toList = s.toList.flatMap shownChar := by
  rw [escape, Text.toList_replaceAll, Text.toList_escapeMarkup]
  -- First the markup is escaped, and then every line break of what is there.
  refine (Text.replaced_singleton '\n' ['\\', 'n'] _).trans ?_
  rw [List.flatMap_assoc]
  congr 1
  funext c
  by_cases hc : c ∈ '\n' :: Text.markupChars
  · revert c
    decide
  · rw [List.mem_cons, not_or] at hc
    rw [shownChar, if_neg hc.1, Text.written_of_not_mem hc.2]
    simp [hc.1]

theorem isPlain_iff {c : Char} :
    isPlain c = true ↔ c ≠ '\\' ∧ c ≠ '\n' ∧ c ∉ Text.markupChars := by
  simp [isPlain]

theorem isPlain_of_isDigit {c : Char} (h : c.isDigit = true) : isPlain c = true := by
  have hall : ∀ c ∈ '\\' :: '\n' :: Text.markupChars, c.isDigit = false := by decide
  cases hplain : isPlain c with
  | true => rfl
  | false =>
    have hc : c ∈ '\\' :: '\n' :: Text.markupChars := by
      simpa only [isPlain, Bool.not_eq_false', List.contains_eq_mem, decide_eq_true_eq] using hplain
    rw [hall c hc] at h
    cases h

theorem shownChar_of_isPlain {c : Char} (h : isPlain c = true) : shownChar c = [c] := by
  obtain ⟨-, hbreak, hmarkup⟩ := isPlain_iff.1 h
  rw [shownChar, if_neg hbreak, Text.written_of_not_mem hmarkup]

/-- An ampersand or a backslash begins what stands for a character that is not plain. -/
theorem shownChar_of_not_isPlain {c : Char} (h : isPlain c = false) :
    (∃ d shown, shownChar c = d :: shown ∧ isPlain d = false) ∧
      ∀ d ∈ shownChar c, d ∉ ['<', '>', '"', '\n', '\r'] := by
  -- Only a few characters are not plain, and each is written with none of these.
  have hall : ∀ c ∈ '\\' :: '\n' :: Text.markupChars,
      (shownChar c).head?.any (!isPlain ·) = true ∧
        ∀ d ∈ shownChar c, d ∉ ['<', '>', '"', '\n', '\r'] := by
    decide
  have hc : c ∈ '\\' :: '\n' :: Text.markupChars := by
    simpa only [isPlain, Bool.not_eq_false', List.contains_eq_mem, decide_eq_true_eq] using h
  obtain ⟨hhead, hrest⟩ := hall c hc
  refine ⟨?_, hrest⟩
  obtain ⟨d, hd, hplain⟩ := (Option.any_eq_true _ _).1 hhead
  exact ⟨d, _, List.eq_cons_of_mem_head? hd, by simpa using hplain⟩

/-- An escaped text has no markup and no line break. -/
theorem not_mem_escape (s : String) : ∀ c ∈ ['<', '>', '"', '\n'], c ∉ (escape s).toList := by
  intro c hc hmem
  rw [toList_escape] at hmem
  obtain ⟨d, -, hd⟩ := List.mem_flatMap.1 hmem
  cases hplain : isPlain d with
  -- A plain character stands for itself, and none of these is plain.
  | true =>
    rw [shownChar_of_isPlain hplain, List.mem_singleton] at hd
    have hall : ∀ c ∈ ['<', '>', '"', '\n'], isPlain c = false := by decide
    rw [← hd, hall c hc] at hplain
    cases hplain
  | false =>
    have hall : ∀ c ∈ ['<', '>', '"', '\n'], c ∈ ['<', '>', '"', '\n', '\r'] := by decide
    exact (shownChar_of_not_isPlain hplain).2 c hd (hall c hc)

/-- Carriage returns of an escaped text are those of the text itself. -/
theorem carriageReturn_not_mem_escape {s : String} (h : '\r' ∉ s.toList) :
    '\r' ∉ (escape s).toList := by
  intro hmem
  rw [toList_escape] at hmem
  obtain ⟨d, hmem, hd⟩ := List.mem_flatMap.1 hmem
  cases hplain : isPlain d with
  | true =>
    rw [shownChar_of_isPlain hplain, List.mem_singleton] at hd
    exact h (hd ▸ hmem)
  | false => exact (shownChar_of_not_isPlain hplain).2 '\r' hd (by decide)

/-- An escaped text begins with plain characters as the text itself does. -/
theorem isPrefixOf_escape {front : List Char} (hfront : front.all isPlain = true) (s : String) :
    front.isPrefixOf (escape s).toList = front.isPrefixOf s.toList := by
  rw [toList_escape]
  generalize s.toList = s
  induction front generalizing s with
  | nil => simp
  | cons c front ih =>
    rw [List.all_cons, Bool.and_eq_true] at hfront
    obtain ⟨hc, hfront⟩ := hfront
    -- The front is plain, so it does not begin with what is not.
    have hne {d : Char} (hd : isPlain d = false) : (c == d) = false := by
      rw [beq_eq_false_iff_ne]
      rintro rfl
      rw [hc] at hd
      cases hd
    cases s with
    | nil => rfl
    | cons d s =>
      rw [List.flatMap_cons]
      cases hd : isPlain d with
      -- A plain character of the text has to be that of the front.
      | true =>
        rw [shownChar_of_isPlain hd, List.singleton_append, List.isPrefixOf, List.isPrefixOf,
          ih hfront]
      | false =>
        -- Any other begins, escaped, with a character that the front has not.
        obtain ⟨e, shown, heq, he⟩ := (shownChar_of_not_isPlain hd).1
        rw [heq, List.cons_append, List.isPrefixOf, List.isPrefixOf, hne hd, hne he,
          Bool.false_and, Bool.false_and]

/-- A text is known from its escaped form, if that is plain. -/
theorem escape_of_isPlain {s : String} (h : ∀ c ∈ (escape s).toList, isPlain c = true) :
    (escape s).toList = s.toList := by
  rw [toList_escape] at h ⊢
  have hplain : ∀ c ∈ s.toList, isPlain c = true := by
    intro c hc
    cases hplain : isPlain c with
    | true => rfl
    | false =>
      -- What stands for it would have a character that is not plain.
      obtain ⟨e, shown, heq, he⟩ := (shownChar_of_not_isPlain hplain).1
      rw [h e (List.mem_flatMap.2 ⟨c, hc, by simp [heq]⟩)] at he
      cases he
  rw [List.flatMap_congr fun c hc => shownChar_of_isPlain (hplain c hc), List.flatMap_singleton']

end Cohort

/-! ## What a cohort shows of a surface -/

/-- A surface as it is found again. -/
def shown (surface : String) : List Char :=
  normal (escape surface).toList

theorem not_mem_shown (surface : String) : ∀ c ∈ ['<', '>', '"'], c ∉ shown surface := by
  intro c hc hmem
  have hall : ∀ c ∈ ['<', '>', '"'], c ≠ '\n' ∧ c ∈ ['<', '>', '"', '\n'] := by decide
  obtain ⟨hbreak, hc⟩ := hall c hc
  exact not_mem_escape surface c hc (mem_of_mem_normal hmem hbreak)

/-- A surface is known from what its cohort shows, if that is plain. -/
theorem toList_eq_of_shown {surface : String} (h : ∀ c ∈ shown surface, isPlain c = true) :
    surface.toList = shown surface := by
  -- A carriage return would be shown as a line break, which is not plain.
  have hreturn : '\r' ∉ (escape surface).toList := by
    intro hmem
    have hbreak : '\n' ∈ shown surface := mem_normal_iff.2 ⟨'\r', hmem, if_pos rfl⟩
    exact absurd (h '\n' hbreak) (by decide)
  have hbreak : '\n' ∉ (escape surface).toList := not_mem_escape surface '\n' (by simp)
  have hshown : shown surface = (escape surface).toList := normal_of_not_mem hbreak hreturn
  rw [hshown] at h
  rw [hshown, escape_of_isPlain h]

/-! ## The first line -/

/-- The number of a surface that looks like one. -/
def surfaceNumber? (surface : List Char) : Option Nat :=
  let front := "ana_".toList
  let digits := surface.drop front.length
  if front.isPrefixOf surface && !digits.isEmpty && digits.all Char.isDigit then
    some (Nat.ofDigitChars 10 digits 0)
  else none

namespace ReturnedCohort

theorem reading?_of_not_mem {line : List Char} (h : '<' ∉ line) : reading? line = none := by
  induction line with
  | nil => rfl
  | cons c line ih =>
    rw [List.mem_cons, not_or] at h
    have hat : readingAt? (c :: line) = none := by simp [readingAt?, List.isPrefixOf, h.1]
    rw [reading?, hat, ih h.2]
    rfl

/-- A reading begins with an opening bracket. -/
theorem reading?_append_of_not_mem {front : List Char} (h : '<' ∉ front) (line : List Char) :
    reading? (front ++ line) = reading? line := by
  induction front with
  | nil => rfl
  | cons c front ih =>
    rw [List.mem_cons, not_or] at h
    -- No reading begins at a character that is no opening bracket.
    have hat : readingAt? (c :: (front ++ line)) = none := by
      simp [readingAt?, List.isPrefixOf, h.1]
    rw [List.cons_append, reading?, hat, ih h.2]
    rfl

/-- What stands behind the front of a reading. -/
theorem readingAt?_append (text : List Char) :
    readingAt? ("<ana_".toList ++ text) =
      match text.dropWhile Char.isDigit with
      | '>' :: rest =>
        if (text.takeWhile Char.isDigit).isEmpty then none
        else some (Nat.ofDigitChars 10 (text.takeWhile Char.isDigit) 0,
          ((Text.splitAt ' ' (String.ofList rest)).filter (!·.isEmpty)).map Text.unescapeMarkup)
      | _ => none := by
  have hprefix : "<ana_".toList.isPrefixOf ("<ana_".toList ++ text) = true := by
    rw [List.isPrefixOf_iff_prefix]
    exact List.prefix_append _ _
  rw [readingAt?, if_pos hprefix, List.drop_left]
  rfl

/-- A number in front of a closing bracket is a reading, with the tags behind. -/
theorem readingAt?_digits {digits : List Char} (hdigits : ∀ c ∈ digits, c.isDigit = true)
    (hne : digits ≠ []) (rest : List Char) :
    readingAt? ("<ana_".toList ++ (digits ++ '>' :: rest)) =
      some (Nat.ofDigitChars 10 digits 0,
        ((Text.splitAt ' ' (String.ofList rest)).filter (!·.isEmpty)).map Text.unescapeMarkup) := by
  -- The digits reach to the bracket.
  have htake : (digits ++ '>' :: rest).takeWhile Char.isDigit = digits := by
    rw [List.takeWhile_append_of_pos hdigits]
    simp [List.takeWhile]
  have hdrop : (digits ++ '>' :: rest).dropWhile Char.isDigit = '>' :: rest := by
    rw [List.dropWhile_append_of_pos hdigits]
    simp [List.dropWhile]
  rw [readingAt?_append, htake, hdrop]
  simp only [List.isEmpty_iff, hne, if_false]

/-- Other text behind the front of a reading makes none. -/
theorem readingAt?_of_not_digits {text : List Char} (hdigits : text.all Char.isDigit = false)
    (hc : '>' ∉ text) (rest : List Char) :
    readingAt? ("<ana_".toList ++ (text ++ rest)) = none := by
  rw [readingAt?_append]
  split
  · rename_i behind heq
    rw [List.dropWhile_append] at heq
    split at heq
    · rename_i hall
      -- The text would be nothing but digits.
      rw [List.isEmpty_iff, List.dropWhile_eq_nil_iff, ← List.all_eq_true, hdigits] at hall
      cases hall
    · rename_i hne
      -- The digits end inside the text, which has no closing bracket.
      obtain ⟨c, tail, hdrop⟩ := List.exists_cons_of_ne_nil (mt List.isEmpty_iff.2 hne)
      rw [hdrop, List.cons_append] at heq
      obtain ⟨rfl, -⟩ := List.cons_eq_cons.1 heq
      exact absurd ((List.dropWhile_suffix _).subset (hdrop ▸ List.mem_cons_self)) hc
  · rfl

/-- The first line gives a reading if its surface looks like a number.  Its only tag is the quote
behind the surface. -/
theorem reading?_head {surface : List Char} (ho : '<' ∉ surface) (hc : '>' ∉ surface) :
    reading? ('<' :: surface ++ ['>', '"']) =
      (surfaceNumber? surface).map fun n => (n, ["\""]) := by
  -- Behind the opening bracket there is none, so a reading could only begin at it.
  have hrest : reading? (surface ++ ['>', '"']) = none := by
    rw [reading?_append_of_not_mem ho]
    rfl
  have hat : reading? ('<' :: surface ++ ['>', '"']) =
      readingAt? ('<' :: surface ++ ['>', '"']) := by
    rw [List.cons_append, reading?, hrest]
    cases readingAt? ('<' :: (surface ++ ['>', '"'])) <;> rfl
  rw [hat]
  cases hfront : "ana_".toList.isPrefixOf surface with
  | false =>
    -- The surface does not begin as a number does, and the bracket behind it does not change that.
    have hno : "<ana_".toList.isPrefixOf ('<' :: surface ++ ['>', '"']) = false := by
      refine Eq.trans ?_ hfront
      exact Text.isPrefixOf_append_cons (by decide : '>' ∉ "ana_".toList) surface ['"']
    rw [readingAt?, hno, surfaceNumber?, hfront]
    rfl
  | true =>
    obtain ⟨digits, rfl⟩ := List.isPrefixOf_iff_prefix.1 hfront
    have hassoc : '<' :: ("ana_".toList ++ digits) ++ ['>', '"'] =
        "<ana_".toList ++ (digits ++ ['>', '"']) := by
      rw [← List.append_assoc]
      rfl
    rw [hassoc, surfaceNumber?, hfront, List.drop_left]
    cases hdigits : digits.all Char.isDigit with
    | false =>
      -- Something stands between the front and the bracket that is no digit.
      rw [readingAt?_of_not_digits hdigits fun hmem => hc (List.mem_append_right _ hmem)]
      simp
    | true =>
      by_cases hne : digits = []
      · -- Without a digit there is no number.
        subst hne
        rfl
      · -- The quotation mark behind the surface is taken for a tag.
        have htags : ((Text.splitAt ' ' (String.ofList ['"'])).filter (!·.isEmpty)).map
            Text.unescapeMarkup = ["\""] := by
          decide
        rw [readingAt?_digits (List.all_eq_true.1 hdigits) hne, htags]
        simp [hne]

end ReturnedCohort

/-! ## The line of an analysis -/

/-- The tags of an analysis inside a cohort, each behind a blank. -/
def tagsText (w : Wordform) : List Char :=
  w.tags.flatMap fun t => ' ' :: (Text.escapeMarkup (Text.trimBlanks t)).toList

/-- The line of an analysis as it is found again. -/
def rowOf (w : Wordform) (number : Nat) : List Char :=
  '"' :: (escape w.headword).toList ++ ['"', ' '] ++
    ("<ana_".toList ++ (Nat.toDigits 10 number ++ '>' :: tagsText w))

theorem toList_readingLine (w : Wordform) (number : Nat) :
    (readingLine w number).toList = '\t' :: (rowOf w number ++ ['\n']) := by
  simp [readingLine, rowOf, tagsText, String.toList_join, List.flatMap_map]

/-- Whether the tags of a wordform have no white space. -/
def Wordform.HasPlainTags (w : Wordform) : Prop :=
  ∀ t ∈ w.tags, ∀ c ∈ t.toList, Text.isBlank c = false

theorem trimBlanks_of_not_blank {t : String} (h : ∀ c ∈ t.toList, Text.isBlank c = false) :
    Text.trimBlanks t = t := by
  have hdrop {s : List Char} (hs : ∀ c ∈ s, Text.isBlank c = false) :
      s.dropWhile Text.isBlank = s := by
    cases s with
    | nil => rfl
    | cons c s => rw [List.dropWhile_cons_of_neg (by simp [hs c List.mem_cons_self])]
  rw [Text.trimBlanks, Text.trimBoth, hdrop h, hdrop (by simpa using h), List.reverse_reverse,
    String.ofList_toList]

/-- Tags without white space come back from behind their blanks. -/
theorem map_unescapeMarkup_tagsText {w : Wordform} (h : w.HasPlainTags) :
    ((Text.splitAt ' ' (String.ofList (tagsText w))).filter (!·.isEmpty)).map Text.unescapeMarkup =
      w.tags := by
  have hpieces : tagsText w =
      (w.tags.map fun t => (Text.escapeMarkup t).toList).flatMap (' ' :: ·) := by
    rw [tagsText, List.flatMap_map]
    exact List.flatMap_congr fun t ht => by rw [trimBlanks_of_not_blank (h t ht)]
  -- The tags have no blanks, so the text is cut between them only.
  have hblank : ∀ p ∈ w.tags.map fun t => (Text.escapeMarkup t).toList, ' ' ∉ p := by
    intro p hp hmem
    obtain ⟨t, ht, rfl⟩ := List.mem_map.1 hp
    rcases (Text.mem_escapeMarkup hmem).2 with hmem | hmem
    · exact absurd (h t ht ' ' hmem) (by decide)
    · exact absurd hmem (by decide)
  -- Escaping leaves no tag empty.
  have hne : ∀ t ∈ w.tags, (!(Text.escapeMarkup t).isEmpty) = true := by
    intro t ht
    have htag : (!t.isEmpty) = true := (List.mem_filter.1 ht).2
    cases hempty : (Text.escapeMarkup t).isEmpty with
    | false => rfl
    | true =>
      rw [← Text.unescapeMarkup_escapeMarkup t, String.isEmpty_iff.1 hempty] at htag
      exact absurd htag (by decide)
  rw [hpieces, Text.splitAt, String.toList_ofList, Text.splitOn_join hblank]
  simp only [List.map_cons, List.map_map, Function.comp_def, String.ofList_toList]
  rw [List.filter_cons_of_neg (by decide), List.filter_eq_self.2, List.map_map]
  · simp [Function.comp_def, Text.unescapeMarkup_escapeMarkup]
  · simpa using hne

theorem not_mem_tagsText (w : Wordform) : ∀ c ∈ ['<', '"'], c ∉ tagsText w := by
  intro c hc hmem
  obtain ⟨t, -, hmem⟩ := List.mem_flatMap.1 hmem
  rcases List.mem_cons.1 hmem with rfl | hmem
  · exact absurd hc (by decide)
  · have hall : ∀ c ∈ ['<', '"'], c ∈ ['<', '>', '"', '\''] := by decide
    exact (Text.mem_escapeMarkup hmem).1 (hall c hc)

/-- The line of an analysis gives its number and its tags. -/
theorem reading?_rowOf {w : Wordform} (h : w.HasPlainTags) (number : Nat) :
    ReturnedCohort.reading? (rowOf w number) = some (number, w.tags) := by
  -- In front of the number there is no opening bracket.
  have hfront : '<' ∉ '"' :: (escape w.headword).toList ++ ['"', ' '] := by
    simpa using not_mem_escape w.headword '<' (by decide)
  have hdigits : ∀ c ∈ Nat.toDigits 10 number, c.isDigit = true := fun c hc =>
    Nat.isDigit_of_mem_toDigits (by decide) (by decide) hc
  have hat := ReturnedCohort.readingAt?_digits hdigits Nat.toDigits_ne_nil (tagsText w)
  rw [Nat.ofDigitChars_ten_toDigits, map_unescapeMarkup_tagsText h] at hat
  rw [rowOf, ReturnedCohort.reading?_append_of_not_mem hfront]
  exact (congrArg (Option.orElse · _) hat).trans rfl

/-- Whether an analysis is taken for a punctuation mark: a lemma stands behind a quote, as the tag
of a mark does. -/
def Wordform.isTakenForMark (w : Wordform) : Bool :=
  " punct".toList.isPrefixOf w.headword.toList

/-- The line of an analysis looks like that of a punctuation mark only by its lemma. -/
theorem hasInfix_rowOf (w : Wordform) (number : Nat) :
    Text.hasInfix "\" punct".toList (rowOf w number) = w.isTakenForMark := by
  have hquote : '"' ∉ (escape w.headword).toList := not_mem_escape w.headword '"' (by decide)
  have hpunct : "\" punct".toList = '"' :: " punct".toList := rfl
  -- Behind the lemma stands the number; in front of it is the only other quote.
  have hbehind : Text.hasInfix ('"' :: " punct".toList) ('"' :: ' ' :: '<' :: ("ana_".toList ++
      (Nat.toDigits 10 number ++ '>' :: tagsText w))) = false := by
    -- Behind the lemma no quote follows, neither in the number nor in the tags.
    have hdigits : '"' ∉ Nat.toDigits 10 number := fun hmem =>
      absurd (Nat.isDigit_of_mem_toDigits (by decide) (by decide) hmem) (by decide)
    have hnone : '"' ∉ ' ' :: '<' ::
        ("ana_".toList ++ (Nat.toDigits 10 number ++ '>' :: tagsText w)) := by
      simpa [hdigits] using not_mem_tagsText w '"' (by decide)
    rw [Text.hasInfix_cons, Text.hasInfix_of_not_mem hnone]
    rfl
  have hassoc : rowOf w number = '"' :: ((escape w.headword).toList ++ '"' :: ' ' :: '<' ::
      ("ana_".toList ++ (Nat.toDigits 10 number ++ '>' :: tagsText w))) := by
    simp [rowOf]
  rw [hpunct, hassoc, Text.hasInfix_cons, Text.hasInfix_append_of_not_mem hquote, hbehind,
    Bool.or_false, List.isPrefixOf, beq_self_eq_true, Bool.true_and,
    Text.isPrefixOf_append_cons (by decide), isPrefixOf_escape (by decide),
    Wordform.isTakenForMark]

/-- The first line of a token does not look like that of a punctuation mark. -/
theorem hasInfix_head (surface : String) :
    Text.hasInfix "\" punct".toList ('<' :: shown surface ++ ['>', '"']) = false := by
  have hpunct : "\" punct".toList = '"' :: " punct".toList := rfl
  have hassoc : '<' :: shown surface ++ ['>', '"'] = ('<' :: shown surface ++ ['>']) ++ ['"'] := by
    simp
  have hquote : '"' ∉ '<' :: shown surface ++ ['>'] := by
    simpa using not_mem_shown surface '"' (by decide)
  rw [hpunct, hassoc, Text.hasInfix_append_of_not_mem hquote]
  rfl

/-- The line of an analysis stays a line. -/
theorem not_mem_rowOf {w : Wordform} (h : w.HasPlainTags) (hw : '\r' ∉ w.headword.toList)
    (number : Nat) : ∀ c ∈ ['\n', '\r'], c ∉ rowOf w number := by
  intro c hc
  have hlemma : c ∉ (escape w.headword).toList := by
    -- The lemma is escaped, and its carriage returns are ruled out by `hw`.
    rcases List.mem_pair.1 hc with rfl | rfl
    · exact not_mem_escape w.headword '\n' (by decide)
    · exact carriageReturn_not_mem_escape hw
  have hnumber : c ∉ Nat.toDigits 10 number := by
    have hall : ∀ c ∈ ['\n', '\r'], c.isDigit = false := by decide
    intro hmem
    have hdigit := Nat.isDigit_of_mem_toDigits (by decide) (by decide) hmem
    rw [hall c hc] at hdigit
    cases hdigit
  have htags : c ∉ tagsText w := by
    have hall : ∀ c ∈ ['\n', '\r'],
        c ≠ ' ' ∧ Text.isBlank c = true ∧ c ∉ "&ampltgquo#x27;".toList := by
      decide
    obtain ⟨hblank, hwhite, hentity⟩ := hall c hc
    -- A tag has no white space, and what stands for markup has neither.
    intro hmem
    obtain ⟨t, ht, hmem⟩ := List.mem_flatMap.1 hmem
    rcases List.mem_cons.1 hmem with heq | hmem
    · exact hblank heq
    · rw [trimBlanks_of_not_blank (h t ht)] at hmem
      rcases (Text.mem_escapeMarkup hmem).2 with hmem | hmem
      · rw [h t ht c hmem] at hwhite
        cases hwhite
      · exact hentity hmem
  have hmarks : ∀ c ∈ ['\n', '\r'], c ∉ '"' :: ' ' :: '>' :: "<ana_".toList := by decide
  have hmarks := hmarks c hc
  simp only [List.mem_cons, not_or] at hmarks
  simp only [rowOf, List.mem_append, List.mem_cons, List.not_mem_nil, not_or, hlemma, hnumber, htags,
    hmarks, not_false_eq_true, and_self]

end Morphology
