import Mathlib.Data.List.Basic
import Morphology.Analysis.Weaving

/-!
# What weaving keeps

A stem pattern and the parts of an inflexion are walked along in turn, however many boundaries there
are on either side.  The walk comes to an end, and every character of the stem and of the parts is
in the word once, those of either side in their order.

## Main definitions

* `Interleaves` — a list made of two others, each kept in its order
* `Walk`, `Walk.turn`, `Walk.Ends` — the walk, one turn at a time
* `Chunk.letters`, `FlexPart.letters` — the characters that come into a word

## Main statements

* `Walk.exists_ends` — the walk ends, with what is woven
* `exists_interleaves_wf_weave` — the characters of chunks and parts are interleaved
* `joinStemFlex_interleaves` — the surface of a stem with an inflexion
-/

namespace Morphology

universe u

/-! ## Interleaving -/

/-- The last list is made of the first two: each keeps its order, and each item is used once. -/
inductive Interleaves {α : Type u} : List α → List α → List α → Prop
  | nil : Interleaves [] [] []
  | left {xs ys zs : List α} (x : α) : Interleaves xs ys zs → Interleaves (x :: xs) ys (x :: zs)
  | right {xs ys zs : List α} (y : α) : Interleaves xs ys zs → Interleaves xs (y :: ys) (y :: zs)

namespace Interleaves

variable {α : Type u} {xs ys zs : List α}

/-- A list goes in front if it goes in front of the first of the two. -/
theorem append_left (front : List α) (h : Interleaves xs ys zs) :
    Interleaves (front ++ xs) ys (front ++ zs) := by
  induction front with
  | nil => exact h
  | cons x front ih => exact .left x ih

theorem append_right (front : List α) (h : Interleaves xs ys zs) :
    Interleaves xs (front ++ ys) (front ++ zs) := by
  induction front with
  | nil => exact h
  | cons y front ih => exact .right y ih

/-- There is one way to interleave a list with nothing. -/
theorem eq_of_nil (h : Interleaves [] ys zs) : zs = ys := by
  generalize hxs : ([] : List α) = xs at h
  induction h with
  | nil => rfl
  | left => exact absurd hxs (List.cons_ne_nil _ _).symm
  | right y _ ih => rw [ih hxs]

end Interleaves

/-! ## The walk, one turn at a time -/

/-- A place in the walk along the chunks of a stem and the parts of a flex. -/
structure Walk where
  woven : Woven
  /-- The number of chunks used. -/
  used : Nat
  /-- Whether no part is used yet. -/
  atFront : Bool
  /-- The side whose turn it is. -/
  side : Side
  chunks : List Chunk
  parts : List FlexPart

namespace Walk

/-- The walk along a pattern and the parts of a flex begins with the stem. -/
def start (pattern : List Char) (parts : List FlexPart) : Walk :=
  ⟨.start, 0, true, .stem, stemChunks pattern, parts⟩

/-- One turn, if anything is left: the next chunk or part of the side whose turn it is, or only a
change of sides if it has none. -/
def turn (stemGloss : String) (s : Walk) : Option Walk :=
  match s.side, s.chunks, s.parts with
  | _, [], [] => none
  | .stem, [], _ :: _ => some { s with side := .flex }
  | .flex, _ :: _, [] => some { s with side := .stem }
  | .stem, .boundary :: chunks, _ =>
    some { s with used := s.used + 1, side := .flex, chunks := chunks }
  | .stem, .text text :: chunks, _ =>
    some { s with
      woven := s.woven.addText stemGloss text
      used := s.used + 1
      chunks := chunks }
  | .flex, _, p :: parts =>
    some { s with
      woven := if p.role.isBoundary then s.woven else s.woven.addPart p
      atFront := false
      side := sideAfter s.used s.atFront p
      parts := parts }

/-- The walk ends after a number of turns, with what is woven then. -/
inductive Ends (stemGloss : String) : Nat → Walk → Woven → Prop
  | over {s : Walk} : s.turn stemGloss = none → Ends stemGloss 0 s s.woven
  | turn {n : Nat} {s next : Walk} {w : Woven} :
    s.turn stemGloss = some next → Ends stemGloss n next w → Ends stemGloss (n + 1) s w

/-- A side that is used up gives the turn to the other one, which is not, so that every second turn
at least uses something. -/
theorem exists_ends (stemGloss : String) (w : Woven) (used : Nat) (atFront : Bool) (side : Side)
    (chunks : List Chunk) (parts : List FlexPart) :
    ∃ n ≤ 2 * (chunks.length + parts.length),
      Ends stemGloss n ⟨w, used, atFront, side, chunks, parts⟩
        (weave stemGloss w used atFront side chunks parts) := by
  fun_induction weave stemGloss w used atFront side chunks parts with
  -- Both sides are used up.
  | case1 w used atFront side => exact ⟨0, by omega, .over rfl⟩
  | case2 w used atFront chunks parts ih =>
    obtain ⟨n, hn, hends⟩ := ih
    exact ⟨n + 1, by simp only [List.length_cons]; omega, .turn rfl hends⟩
  | case3 w used atFront text chunks parts ih =>
    obtain ⟨n, hn, hends⟩ := ih
    exact ⟨n + 1, by simp only [List.length_cons]; omega, .turn rfl hends⟩
  -- The chunks left with no parts: the turn first comes back to the stem, then a chunk is used.
  | case4 w used atFront chunks ih =>
    obtain ⟨n, hn, hends⟩ := ih
    exact ⟨n + 2, by simp only [List.length_cons]; omega, .turn rfl (.turn rfl hends)⟩
  | case5 w used atFront text chunks ih =>
    obtain ⟨n, hn, hends⟩ := ih
    exact ⟨n + 2, by simp only [List.length_cons]; omega, .turn rfl (.turn rfl hends)⟩
  -- And the other way round with parts and no chunks.
  | case6 w used atFront p parts ih =>
    obtain ⟨n, hn, hends⟩ := ih
    exact ⟨n + 2, by simp only [List.length_cons]; omega, .turn rfl (.turn rfl hends)⟩
  | case7 w used atFront chunks p parts ih =>
    obtain ⟨n, hn, hends⟩ := ih
    -- Which side has the next turn does not depend on the chunks that are left.
    refine ⟨n + 1, by simp only [List.length_cons]; omega, .turn ?_ hends⟩
    cases chunks <;> rfl

end Walk

/-! ## Characters of words -/

/-- The characters that a chunk brings into a word. -/
def Chunk.letters : Chunk → List Char
  | .boundary => []
  | .text s => withoutBreaks s

/-- The characters that a part brings into a word; a boundary is only a place. -/
def FlexPart.letters (p : FlexPart) : List Char :=
  if p.role.isBoundary then [] else p.surface

theorem flatMap_letters_textChunk (s : List Char) :
    (textChunk s).flatMap Chunk.letters = withoutBreaks s := by
  unfold textChunk
  split
  · rename_i hs
    rw [List.isEmpty_iff.1 hs]
    rfl
  · simp [Chunk.letters]

theorem flatMap_letters_chunksFrom (done pattern : List Char) :
    (chunksFrom done pattern).flatMap Chunk.letters =
      withoutBreaks done ++ pattern.filter fun c => c != boundary && c != morphBreak := by
  induction pattern generalizing done with
  | nil => rw [chunksFrom, flatMap_letters_textChunk, List.filter_nil, List.append_nil]
  | cons c pattern ih =>
    rw [chunksFrom]
    -- At a boundary the text so far becomes a chunk of its own.
    split
    · rename_i hc
      rw [List.flatMap_append, flatMap_letters_textChunk, List.flatMap_cons, ih,
        List.filter_cons_of_neg (by simp [hc])]
      rfl
    · rename_i hc
      rw [ih, withoutBreaks, List.filter_append, List.append_assoc, ← withoutBreaks]
      congr 1
      -- A break is left out of both, any other character is in both.
      by_cases hbreak : c = morphBreak <;> simp [hc, hbreak]

/-- A pattern brings all its characters into a word but boundaries and breaks. -/
theorem flatMap_letters_stemChunks (pattern : List Char) :
    (stemChunks pattern).flatMap Chunk.letters =
      pattern.filter fun c => c != boundary && c != morphBreak :=
  flatMap_letters_chunksFrom [] pattern

/-- Where boundaries have no characters, the parts bring all of theirs into a word. -/
theorem flatMap_letters_eq {parts : List FlexPart}
    (h : ∀ p ∈ parts, p.role.isBoundary = true → p.surface = []) :
    parts.flatMap FlexPart.letters = parts.flatMap (·.surface) := by
  apply List.flatMap_congr
  intro p hp
  unfold FlexPart.letters
  split
  · rename_i hrole
    exact (h p hp hrole).symm
  · rfl

theorem Woven.wf_addPart (w : Woven) (p : FlexPart) : (w.addPart p).wf = w.wf ++ p.surface := by
  unfold addPart
  cases p.role <;> simp only
  split <;> rfl

theorem Woven.wf_use (w : Woven) (p : FlexPart) :
    (if p.role.isBoundary = true then w else w.addPart p).wf = w.wf ++ p.letters := by
  unfold FlexPart.letters
  split
  · rw [List.append_nil]
  · exact w.wf_addPart p

/-- What weaving adds to a word interleaves the characters of the chunks and of the parts. -/
theorem exists_interleaves_wf_weave (stemGloss : String) (w : Woven) (used : Nat) (atFront : Bool)
    (side : Side) (chunks : List Chunk) (parts : List FlexPart) :
    ∃ added, (weave stemGloss w used atFront side chunks parts).wf = w.wf ++ added ∧
      Interleaves (chunks.flatMap Chunk.letters) (parts.flatMap FlexPart.letters) added := by
  fun_induction weave stemGloss w used atFront side chunks parts with
  | case1 w => exact ⟨[], (List.append_nil _).symm, .nil⟩
  -- A boundary and a change of sides add nothing.
  | case2 _ _ _ _ _ ih | case4 _ _ _ _ ih => exact ih
  -- A text goes in front of what is added behind it, on the side of the chunks.
  | case3 w _ _ text _ _ ih | case5 w _ _ text _ ih =>
    obtain ⟨added, hadded, hboth⟩ := ih
    refine ⟨withoutBreaks text ++ added, ?_, hboth.append_left _⟩
    rw [hadded, ← List.append_assoc]
    rfl
  -- A part does on the side of the parts.
  | case6 w _ _ p _ ih | case7 w _ _ _ p _ ih =>
    obtain ⟨added, hadded, hboth⟩ := ih
    simp only [dite_eq_ite] at hadded
    refine ⟨p.letters ++ added, ?_, hboth.append_right _⟩
    rw [hadded, Woven.wf_use, List.append_assoc]

/-- When the chunks are used up, the parts follow. -/
theorem wf_weave_of_no_chunks (stemGloss : String) (w : Woven) (used : Nat) (atFront : Bool)
    (side : Side) (parts : List FlexPart) :
    (weave stemGloss w used atFront side [] parts).wf =
      w.wf ++ parts.flatMap FlexPart.letters := by
  obtain ⟨added, hadded, hboth⟩ :=
    exists_interleaves_wf_weave stemGloss w used atFront side [] parts
  rw [hadded, hboth.eq_of_nil]

theorem chunksFrom_append_boundary {stem : List Char} (h : boundary ∉ stem) (done : List Char) :
    chunksFrom done (stem ++ [boundary]) = textChunk (done ++ stem) ++ [.boundary] := by
  induction stem generalizing done with
  | nil => simp [chunksFrom, textChunk]
  | cons c stem ih =>
    obtain ⟨hc, hstem⟩ := not_or.1 (mt List.mem_cons.2 h)
    rw [List.cons_append, chunksFrom, if_neg (Ne.symm hc), ih hstem, List.append_assoc,
      List.singleton_append]

/-- A stem whose only boundary is at its end comes before all parts. -/
theorem wf_joinStemFlex_of_suffix {stem : List Char} (hstem : boundary ∉ stem) (stemGloss : String)
    (parts : List FlexPart) :
    (joinStemFlex (stem ++ [boundary]) stemGloss parts).wf.toList =
      withoutBreaks stem ++ parts.flatMap FlexPart.letters := by
  rw [joinStemFlex, stemChunks, chunksFrom_append_boundary hstem, List.nil_append, Woven.finish,
    String.toList_ofList, textChunk]
  -- The stem may be empty, and then has no chunk of text.
  split
  · rename_i hnil
    rw [List.isEmpty_iff.1 hnil, List.nil_append, weave, wf_weave_of_no_chunks]
    rfl
  · rw [List.singleton_append, weave, weave, wf_weave_of_no_chunks]
    rfl

/-- **Weaving loses and invents nothing.**  The walk along a pattern and the parts of a flex `Ends`
after two turns for each chunk and part at most.  The surface of `joinStemFlex` interleaves the
characters of the pattern, boundaries and breaks left out, with the `FlexPart.letters` of the parts;
a boundary has no surface in the flexes that are read.  Where the pattern has its only boundary at
the end and the flex its only one at the front, the surface is the stem with the parts behind it. -/
theorem joinStemFlex_interleaves (pattern : List Char) (stemGloss : String)
    (parts : List FlexPart) :
    (∃ n ≤ 2 * ((stemChunks pattern).length + parts.length), ∃ woven,
      Walk.Ends (specifiedGloss stemGloss parts) n (.start pattern parts) woven ∧
        joinStemFlex pattern stemGloss parts = woven.finish) ∧
    Interleaves (pattern.filter fun c => c != boundary && c != morphBreak)
      (parts.flatMap FlexPart.letters) (joinStemFlex pattern stemGloss parts).wf.toList ∧
    ((∀ p ∈ parts, p.role.isBoundary = true → p.surface = []) →
      Interleaves (pattern.filter fun c => c != boundary && c != morphBreak)
        (parts.flatMap (·.surface)) (joinStemFlex pattern stemGloss parts).wf.toList) ∧
    (∀ stem first rest, pattern = stem ++ [boundary] → boundary ∉ stem → parts = first :: rest →
      first.role.isBoundary = true → (∀ p ∈ rest, p.role.isBoundary = false) →
        (joinStemFlex pattern stemGloss parts).wf.toList =
          withoutBreaks stem ++ rest.flatMap (·.surface)) := by
  have hboth : Interleaves (pattern.filter fun c => c != boundary && c != morphBreak)
      (parts.flatMap FlexPart.letters) (joinStemFlex pattern stemGloss parts).wf.toList := by
    obtain ⟨added, hadded, hboth⟩ := exists_interleaves_wf_weave (specifiedGloss stemGloss parts)
      .start 0 true .stem (stemChunks pattern) parts
    rw [flatMap_letters_stemChunks] at hboth
    rw [joinStemFlex, Woven.finish, String.toList_ofList, hadded]
    exact hboth
  refine ⟨?_, hboth, fun hempty => flatMap_letters_eq hempty ▸ hboth, ?_⟩
  · obtain ⟨n, hn, hends⟩ := Walk.exists_ends (specifiedGloss stemGloss parts) .start 0 true .stem
      (stemChunks pattern) parts
    exact ⟨n, hn, _, hends, rfl⟩
  · -- The boundary in front of the flex has no letters, and the parts behind it have all of theirs.
    rintro stem first rest rfl hstem rfl hfirst hrest
    have hletters : (first :: rest).flatMap FlexPart.letters = rest.flatMap (·.surface) := by
      rw [List.flatMap_cons, FlexPart.letters, if_pos hfirst, List.nil_append,
        flatMap_letters_eq fun p hp hrole => absurd ((hrest p hp).symm.trans hrole) (by simp)]
    rw [wf_joinStemFlex_of_suffix hstem, hletters]

/-- A plural suffix. -/
def samplePlural : List FlexPart :=
  [.marker .stem, .affix "s".toList .affix]

theorem joinStemFlex_interleaves_sampleCompound :
    (∀ p ∈ samplePlural, p.role.isBoundary = true → p.surface = []) ∧
    Interleaves "handbook".toList "s".toList
      (joinStemFlex "hand&book.".toList "book" samplePlural).wf.toList ∧
    (joinStemFlex "hand&book.".toList "book" samplePlural).wf.toList = "handbooks".toList := by
  have hempty : ∀ p ∈ samplePlural, p.role.isBoundary = true → p.surface = [] := by decide
  obtain ⟨-, -, hboth, hsuffix⟩ :=
    joinStemFlex_interleaves "hand&book.".toList "book" samplePlural
  exact ⟨hempty, hboth hempty, hsuffix "hand&book".toList _ _ rfl (by decide) rfl rfl (by decide)⟩

end Morphology
