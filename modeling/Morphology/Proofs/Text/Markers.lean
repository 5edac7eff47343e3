import Mathlib.Data.List.Infix
import Morphology.Proofs.Text.Replacement
import Morphology.Wordform

/-!
# Markers among tags

A marker stands for a contained word among the tags of a text.  Tags are joined with commas, which a
marker has none of; so the markers of joined tags are those of the parts, and a marker is read back
as the word that it was written for.

## Main definitions

* `markersIn` — the words that the tags of a text stand for

## Main statements

* `markersIn_joinTags` — joined tags have the markers of both
* `markersIn_marker` — a marker is read back
* `markersIn_of_hasInfix` — a text in which no marker begins has none
* `Wordform.markersIn_expandMarkers` — no marker is left
-/

namespace Morphology

namespace Text

variable {c : Char} {s piece : List Char}

/-! ## Pieces between commas -/

/-- A text with a separator falls apart there. -/
theorem splitOn_append_cons (c : Char) (s t : List Char) :
    splitOn [c] (s ++ c :: t) = splitOn [c] s ++ splitOn [c] t := by
  induction s with
  | nil => exact splitOn_append_of_isPrefix (by simp) t
  | cons d s ih =>
    by_cases hd : d = c
    · subst hd
      have hfront (rest : List Char) : splitOn [d] (d :: rest) = [] :: splitOn [d] rest :=
        splitOn_append_of_isPrefix (by simp) rest
      rw [List.cons_append, hfront, hfront, ih, List.cons_append]
    · have hfront (rest : List Char) :
          splitOn [c] (d :: rest) = (splitOn [c] rest).modifyHead (d :: ·) :=
        splitOn_cons (by simpa using Ne.symm hd)
      rw [List.cons_append, hfront, hfront, ih]
      obtain ⟨part, parts, hparts⟩ := List.exists_cons_of_ne_nil (splitOn_ne_nil [c] s)
      simp [hparts]

/-- The pieces are parts of the text, the first at its front, and have no separator. -/
theorem of_mem_splitOn (c : Char) (s : List Char) :
    (∀ piece ∈ (splitOn [c] s).head?, piece <+: s) ∧
      ∀ piece ∈ splitOn [c] s, piece <:+: s ∧ c ∉ piece := by
  induction s with
  | nil => simp [splitOn_nil]
  | cons d s ih =>
    obtain ⟨hhead, hpieces⟩ := ih
    -- A separator ends an empty piece; any other character joins the first piece behind it.
    by_cases hd : d = c
    · subst hd
      have hfront : splitOn [d] (d :: s) = [] :: splitOn [d] s :=
        splitOn_append_of_isPrefix (by simp) s
      rw [hfront]
      refine ⟨by simp, List.forall_mem_cons.2 ⟨⟨List.nil_infix, List.not_mem_nil⟩, ?_⟩⟩
      exact fun piece hpiece =>
        ⟨(hpieces piece hpiece).1.trans (List.suffix_cons d s).isInfix, (hpieces piece hpiece).2⟩
    · obtain ⟨part, parts, hparts⟩ := List.exists_cons_of_ne_nil (splitOn_ne_nil [c] s)
      have hfront : splitOn [c] (d :: s) = (d :: part) :: parts := by
        rw [splitOn_cons (by simpa using Ne.symm hd), hparts]
        rfl
      rw [hparts] at hhead hpieces
      rw [hfront]
      obtain ⟨hpart, hrest⟩ := List.forall_mem_cons.1 hpieces
      have hstart : d :: part <+: d :: s := by simpa using hhead
      refine ⟨by simpa using hhead, List.forall_mem_cons.2 ⟨⟨hstart.isInfix, ?_⟩, ?_⟩⟩
      · -- The piece in front has one more character, which is no separator.
        simpa [List.mem_cons, Ne.symm hd] using hpart.2
      · exact fun piece hpiece =>
          ⟨(hrest piece hpiece).1.trans (List.suffix_cons d s).isInfix, (hrest piece hpiece).2⟩

theorem splitOn_eq_singleton_of_not_mem (h : c ∉ piece) : splitOn [c] piece = [piece] :=
  splitOn_eq_singleton fun hc => h (hc.subset (List.mem_singleton_self c))

/-- Pieces without the separator come back from a text in which it stands between them. -/
theorem splitOn_intercalate {pieces : List (List Char)} (hne : pieces ≠ [])
    (h : ∀ piece ∈ pieces, c ∉ piece) : splitOn [c] ([c].intercalate pieces) = pieces := by
  induction pieces with
  | nil => exact absurd rfl hne
  | cons first rest ih =>
    obtain ⟨hfirst, hrest⟩ := List.forall_mem_cons.1 h
    cases rest with
    | nil => rw [List.intercalate_singleton, splitOn_eq_singleton_of_not_mem hfirst]
    | cons next rest =>
      rw [List.intercalate_cons_cons, List.append_assoc, List.singleton_append, splitOn_append_cons,
        splitOn_eq_singleton_of_not_mem hfirst, ih (by simp) hrest]
      rfl

theorem not_mem_of_mem_splitAt {text tag : String} (h : tag ∈ splitAt c text) : c ∉ tag.toList := by
  obtain ⟨piece, hpiece, rfl⟩ := List.mem_map.1 h
  rw [String.toList_ofList]
  exact ((of_mem_splitOn c text.toList).2 piece hpiece).2

theorem hasInfix_of_infix {sep : List Char} (h : sep <:+: s) : hasInfix sep s = true := by
  induction s with
  | nil =>
    obtain rfl := List.infix_nil.1 h
    rfl
  | cons d s ih =>
    rw [hasInfix_cons, Bool.or_eq_true, List.isPrefixOf_iff_prefix]
    exact (List.infix_cons_iff.1 h).imp_right ih

end Text

/-! ## Markers -/

/-- The words that the tags of a text stand for. -/
def markersIn (gramm : String) : List SubWord :=
  (Text.splitAt ',' gramm).filterMap subWord?

@[simp] theorem markersIn_empty : markersIn "" = [] := by
  decide

/-- Joined tags have the markers of both. -/
@[simp] theorem markersIn_joinTags (left right : String) :
    markersIn (joinTags left right) = markersIn left ++ markersIn right := by
  unfold joinTags
  split
  · rename_i hleft
    rw [String.isEmpty_iff.1 hleft, markersIn_empty, List.nil_append]
  · split
    · rename_i hright
      rw [String.isEmpty_iff.1 hright, markersIn_empty, List.append_nil]
    · have hpieces : Text.splitAt ',' (left ++ "," ++ right) =
          Text.splitAt ',' left ++ Text.splitAt ',' right := by
        have htext : (left ++ "," ++ right).toList = left.toList ++ ',' :: right.toList := by simp
        rw [Text.splitAt, htext, Text.splitOn_append_cons, List.map_append]
        rfl
      rw [markersIn, hpieces, List.filterMap_append]
      rfl

/-- A text in which no marker begins has none. -/
theorem markersIn_of_hasInfix {gramm : String}
    (h : Text.hasInfix markerFront.toList gramm.toList = false) : markersIn gramm = [] := by
  refine List.filterMap_eq_nil_iff.2 fun tag htag => ?_
  obtain ⟨piece, hpiece, rfl⟩ := List.mem_map.1 htag
  unfold subWord?
  refine if_neg fun hstart => ?_
  -- A tag that begins like a marker would be a place in the text where one begins.
  rw [String.toList_ofList, List.isPrefixOf_iff_prefix] at hstart
  have hinfix := hstart.isInfix.trans ((Text.of_mem_splitOn ',' gramm.toList).2 piece hpiece).1
  exact absurd ((Text.hasInfix_of_infix hinfix).symm.trans h) (by decide)

theorem toList_marker (headword gramm : String) : (marker headword gramm).toList =
    markerFront.toList ++ (headword.toList ++ ':' :: Text.replaced [','] [';'] gramm.toList) := by
  simp [marker, Text.toList_replaceAll]

/-- Tags without semicolons come back when commas were exchanged for them. -/
theorem replaced_replaced_comma {s : List Char} (h : ';' ∉ s) :
    Text.replaced [';'] [','] (Text.replaced [','] [';'] s) = s := by
  rw [Text.replaced_singleton, Text.replaced_singleton, List.flatMap_assoc]
  conv_rhs => rw [← List.flatMap_singleton' s]
  refine List.flatMap_congr fun d hd => ?_
  by_cases hcomma : d = ','
  · simp [hcomma]
  · have hsemicolon : d ≠ ';' := fun heq => h (heq ▸ hd)
    simp [hcomma, hsemicolon]

theorem subWord?_marker {headword gramm : String} (hheadword : ':' ∉ headword.toList)
    (hgramm : ';' ∉ gramm.toList) : subWord? (marker headword gramm) = some ⟨headword, gramm⟩ := by
  have hback : Text.replaceAll ";" "," (String.ofList (Text.replaced [','] [';'] gramm.toList)) =
      gramm := by
    rw [← String.toList_inj]
    simpa [Text.toList_replaceAll] using replaced_replaced_comma hgramm
  have hstart (rest : List Char) :
      markerFront.toList.isPrefixOf (markerFront.toList ++ rest) = true :=
    List.isPrefixOf_iff_prefix.2 (List.prefix_append ..)
  simp only [subWord?, toList_marker, hstart, if_true, List.drop_left,
    Text.cutAt_of_not_mem hheadword, Option.getD_some, hback, String.ofList_toList]

theorem comma_not_mem_marker {headword : String} (hheadword : ',' ∉ headword.toList)
    (gramm : String) : ',' ∉ (marker headword gramm).toList := by
  rw [toList_marker, List.mem_append, List.mem_append, List.mem_cons, Text.replaced_singleton,
    List.mem_flatMap]
  rintro (hfront | hheadword' | hcolon | ⟨d, -, hd⟩)
  · exact absurd hfront (by decide)
  · exact hheadword hheadword'
  · exact absurd hcolon (by decide)
  · split at hd
    · exact absurd hd (by decide)
    · rename_i hne
      exact hne (List.mem_singleton.1 hd).symm

/-- A marker is read back. -/
theorem markersIn_marker {headword gramm : String} (hcomma : ',' ∉ headword.toList)
    (hcolon : ':' ∉ headword.toList) (hgramm : ';' ∉ gramm.toList) :
    markersIn (marker headword gramm) = [⟨headword, gramm⟩] := by
  rw [markersIn, Text.splitAt,
    Text.splitOn_eq_singleton_of_not_mem (comma_not_mem_marker hcomma gramm)]
  simp [subWord?_marker hcolon hgramm]

namespace Wordform

theorem subwords_expandMarkers (w : Wordform) :
    w.expandMarkers.subwords = w.subwords ++ markersIn w.gramm := rfl

theorem gramm_expandMarkers (w : Wordform) : w.expandMarkers.gramm =
    String.intercalate "," ((Text.splitAt ',' w.gramm).filter fun tag => (subWord? tag).isNone) := by
  rw [expandMarkers]

/-- No marker is left: what `expandMarkers` keeps of the tags is cut at the same places again, and
none of it is a marker. -/
theorem markersIn_expandMarkers (w : Wordform) : markersIn w.expandMarkers.gramm = [] := by
  rw [gramm_expandMarkers]
  generalize hkept : (Text.splitAt ',' w.gramm).filter (fun tag => (subWord? tag).isNone) = kept
  -- If no tag is kept the text is empty, which has no marker either.
  by_cases hnil : kept = []
  · rw [hnil]
    exact markersIn_empty
  · have hpieces : Text.splitAt ',' (String.intercalate "," kept) = kept := by
      have hcomma : ∀ piece ∈ kept.map String.toList, ',' ∉ piece := by
        -- A kept tag was a piece between commas and has none itself.
        intro piece hpiece
        obtain ⟨tag, htag, rfl⟩ := List.mem_map.1 hpiece
        exact Text.not_mem_of_mem_splitAt (List.mem_of_mem_filter (hkept ▸ htag))
      have htext : (String.intercalate "," kept).toList =
          [','].intercalate (kept.map String.toList) := by
        simp
      rw [Text.splitAt, htext, Text.splitOn_intercalate (by simpa using hnil) hcomma, List.map_map]
      exact List.map_id'' (fun _ => String.ofList_toList) _
    rw [markersIn, hpieces]
    refine List.filterMap_eq_nil_iff.2 fun tag htag => ?_
    rw [← hkept] at htag
    exact Option.isNone_iff_eq_none.1 (List.mem_filter.1 htag).2

end Wordform

end Morphology
