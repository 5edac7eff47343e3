import Mathlib.Algebra.Order.Ring.Nat
import Mathlib.Data.List.Basic
import Morphology.Analysis.Weaving
import Morphology.Proofs.Outcome

/-!
# Glosses of woven words

The gloss of a word, cut at its marks, has the gloss of each affix, infix and reduplicant once.  The
gloss of the stem comes once for each piece of text that the boundaries of the stem leave, and
copies between which no affix is glossed run together.

## Main definitions

* `glossPieces` — what stands between the marks of a gloss
* `IsGloss` — a text that is one piece
* `stemPieces` — the number of pieces of text in a stem pattern

## Main statements

* `glossPieces_tidy` — removing needless marks changes no piece
* `exists_stemRuns` — the pieces of the gloss of a stem with an inflexion
* `glossPieces_joinStemFlex` — when the gloss of the stem comes once
-/

namespace Morphology

/-! ## Pieces of a gloss -/

/-- Whether the character divides glosses. -/
def isGlossMark (c : Char) : Bool :=
  c == '-' || c == '~' || c == '<' || c == '>'

/-- What stands between the marks of a gloss. -/
def glossPieces (s : List Char) : List (List Char) :=
  (s.splitOnP isGlossMark).filter (!·.isEmpty)

/-- A text that is one piece: it is not empty and has no marks. -/
def IsGloss (s : String) : Prop :=
  s.toList ≠ [] ∧ ∀ c ∈ s.toList, isGlossMark c = false

instance (s : String) : Decidable (IsGloss s) :=
  inferInstanceAs (Decidable (_ ∧ _))

@[simp] theorem glossPieces_nil : glossPieces [] = [] := by
  simp [glossPieces]

/-- A mark belongs to no piece and divides what is in front of it from what is behind. -/
theorem glossPieces_append_cons {c : Char} (hc : isGlossMark c = true) (s t : List Char) :
    glossPieces (s ++ c :: t) = glossPieces s ++ glossPieces t := by
  rw [glossPieces, List.splitOnP_append_cons s t hc, List.filter_append]
  rfl

theorem glossPieces_of_isGloss {s : String} (h : IsGloss s) :
    glossPieces s.toList = [s.toList] := by
  rw [glossPieces, List.splitOnP_eq_singleton h.2]
  simpa using h.1

theorem glossPieces_append_of_marks {back : List Char} (h : ∀ c ∈ back, isGlossMark c = true)
    (s : List Char) : glossPieces (s ++ back) = glossPieces s := by
  induction back generalizing s with
  | nil => rw [List.append_nil]
  | cons c back ih =>
    obtain ⟨hc, hback⟩ := List.forall_mem_cons.1 h
    have hnone : glossPieces back = [] := by
      simpa using ih hback []
    rw [glossPieces_append_cons hc, hnone, List.append_nil]

theorem glossPieces_of_marks_append {front : List Char} (h : ∀ c ∈ front, isGlossMark c = true)
    (s : List Char) : glossPieces (front ++ s) = glossPieces s := by
  induction front with
  | nil => rfl
  | cons c front ih =>
    obtain ⟨hc, hfront⟩ := List.forall_mem_cons.1 h
    have hcut := glossPieces_append_cons hc [] (front ++ s)
    simp only [List.nil_append, glossPieces_nil] at hcut
    rw [List.cons_append, hcut, ih hfront]

/-! ## Needless marks -/

theorem isGlossMark_of_absorbsHyphens {c : Char} (h : absorbsHyphens c = true) :
    isGlossMark c = true := by
  simp only [absorbsHyphens, Bool.or_eq_true, beq_iff_eq] at h
  rcases h with (rfl | rfl) | rfl <;> decide

theorem glossPieces_dropWhile {p : Char → Bool} (hp : ∀ c, p c = true → isGlossMark c = true)
    (s : List Char) : glossPieces (s.dropWhile p) = glossPieces s := by
  conv_rhs => rw [← List.takeWhile_append_dropWhile (p := p) (l := s)]
  rw [glossPieces_of_marks_append fun c hc => hp c (List.all_eq_true.1 List.all_takeWhile c hc)]

/-- Marks at the end are taken off without loss. -/
theorem glossPieces_dropWhile_reverse {p : Char → Bool}
    (hp : ∀ c, p c = true → isGlossMark c = true) {back : List Char}
    (hback : ∀ c ∈ back, isGlossMark c = true) (s : List Char) :
    glossPieces ((s.dropWhile p).reverse ++ back) = glossPieces s.reverse := by
  have hsplit : s.reverse = (s.dropWhile p).reverse ++ (s.takeWhile p).reverse := by
    rw [← List.reverse_append, List.takeWhile_append_dropWhile]
  rw [hsplit, glossPieces_append_of_marks hback, glossPieces_append_of_marks]
  intro c hc
  exact hp c (List.all_eq_true.1 List.all_takeWhile c (List.mem_reverse.1 hc))

theorem glossPieces_trimBoth {p : Char → Bool} (hp : ∀ c, p c = true → isGlossMark c = true)
    (s : List Char) : glossPieces (Text.trimBoth p s) = glossPieces s := by
  have hend : glossPieces (((s.dropWhile p).reverse.dropWhile p).reverse ++ []) =
      glossPieces (s.dropWhile p).reverse.reverse := glossPieces_dropWhile_reverse hp (by simp) _
  rw [List.append_nil, List.reverse_reverse] at hend
  rw [Text.trimBoth, hend, glossPieces_dropWhile hp]

/-- A hyphen behind a mark is dropped; the mark stays and divides as before. -/
theorem glossPieces_append_collapseFrom (front : List Char) {last : Option Char}
    (hlast : ∀ c ∈ last, ∃ before, front = before ++ [c]) (s : List Char) :
    glossPieces (front ++ collapseFrom last s) = glossPieces (front ++ s) := by
  induction s generalizing front last with
  | nil => rfl
  | cons c s ih =>
    rw [collapseFrom]
    split
    · rename_i hdrop
      simp only [Bool.and_eq_true, decide_eq_true_eq] at hdrop
      obtain ⟨rfl, habsorbs⟩ := hdrop
      -- The hyphen is dropped only behind a mark, and there it divides nothing.
      obtain ⟨d, rfl, hd⟩ : ∃ d, last = some d ∧ absorbsHyphens d = true := by
        simpa [Option.any_eq_true] using habsorbs
      obtain ⟨before, rfl⟩ := hlast d rfl
      have hmark := isGlossMark_of_absorbsHyphens hd
      have hhyphen : glossPieces ('-' :: s) = glossPieces s :=
        glossPieces_of_marks_append (by decide : ∀ c ∈ ['-'], isGlossMark c = true) s
      rw [ih _ hlast, List.append_assoc, List.append_assoc, List.singleton_append,
        List.singleton_append, glossPieces_append_cons hmark, glossPieces_append_cons hmark,
        hhyphen]
    · -- Any other character stays and is the last one from here on.
      have hkeep : glossPieces (front ++ [c] ++ collapseFrom (some c) s) =
          glossPieces (front ++ [c] ++ s) := ih _ (by simp)
      rwa [List.append_assoc, List.append_assoc] at hkeep

theorem glossPieces_closeEnd (s : List Char) : glossPieces (closeEnd s) = glossPieces s := by
  unfold closeEnd
  split
  · rename_i c rest heq
    split
    · rename_i hmark
      simp only [Bool.or_eq_true, decide_eq_true_eq] at hmark
      have hback : ∀ d ∈ [c], isGlossMark d = true := by
        rcases hmark with rfl | rfl <;> decide
      have hs : s = rest.reverse ++ [c] := by
        rw [← List.reverse_cons, ← heq, List.reverse_reverse]
      rw [List.reverse_cons, glossPieces_dropWhile_reverse (by simp [isGlossMark]) hback, hs,
        glossPieces_append_of_marks hback]
    · rfl
  · rfl

/-- Only marks are removed, and none that stands alone between two glosses. -/
theorem glossPieces_tidy (s : String) : glossPieces (tidy s).toList = glossPieces s.toList := by
  have htrim : ∀ c, (c == '-' || c == '~') = true → isGlossMark c = true := by
    intro c hc
    simp only [Bool.or_eq_true, beq_iff_eq] at hc
    rcases hc with rfl | rfl <;> decide
  have hcollapse : glossPieces (collapseFrom none s.toList) = glossPieces s.toList :=
    glossPieces_append_collapseFrom [] (by simp) s.toList
  simp only [tidy, String.toList_ofList]
  rw [glossPieces_trimBoth htrim, glossPieces_closeEnd, glossPieces_trimBoth htrim, hcollapse]

/-! ## Closed texts -/

/-- Whatever is put behind the text, no piece runs over its end. -/
def IsClosed (s : List Char) : Prop :=
  ∀ t, glossPieces (s ++ t) = glossPieces s ++ glossPieces t

theorem isClosed_nil : IsClosed [] := fun t => by simp

theorem isClosed_concat {c : Char} (hc : isGlossMark c = true) (s : List Char) :
    IsClosed (s ++ [c]) := by
  intro t
  rw [List.append_assoc, List.singleton_append, glossPieces_append_cons hc,
    glossPieces_append_of_marks (by simpa using hc)]

/-- A text with a gloss between two marks behind it. -/
def withGloss (s : List Char) (opening : Char) (gloss : String) (closing : Char) : List Char :=
  s ++ opening :: (gloss.toList ++ [closing])

section withGloss

variable {opening closing : Char} {gloss : String}

theorem isClosed_withGloss (hclosing : isGlossMark closing = true) (s : List Char) :
    IsClosed (withGloss s opening gloss closing) := by
  have := isClosed_concat hclosing (s ++ opening :: gloss.toList)
  rwa [List.append_assoc, List.cons_append] at this

theorem glossPieces_withGloss (hopening : isGlossMark opening = true)
    (hclosing : isGlossMark closing = true) (hgloss : IsGloss gloss) (s : List Char) :
    glossPieces (withGloss s opening gloss closing) = glossPieces s ++ [gloss.toList] := by
  rw [withGloss, glossPieces_append_cons hopening,
    glossPieces_append_of_marks (by simpa using hclosing), glossPieces_of_isGloss hgloss]

end withGloss

/-! ## Copies of the stem's gloss -/

/-- A number of copies of a gloss, run together. -/
def copies (gloss : String) (n : Nat) : List Char :=
  (List.replicate n gloss.toList).flatten

theorem copies_succ (gloss : String) (n : Nat) :
    copies gloss (n + 1) = copies gloss n ++ gloss.toList := by
  simp [copies, List.replicate_succ']

@[simp] theorem length_copies (gloss : String) (n : Nat) :
    (copies gloss n).length = n * gloss.toList.length := by
  simp [copies]

theorem glossPieces_copies {gloss : String} (h : IsGloss gloss) {n : Nat} (hn : n ≠ 0) :
    glossPieces (copies gloss n) = [copies gloss n] := by
  have hone : IsGloss (String.ofList (copies gloss n)) := by
    rw [IsGloss, String.toList_ofList]
    constructor
    · rw [← List.length_pos_iff, length_copies]
      exact Nat.mul_pos (Nat.pos_of_ne_zero hn) (List.length_pos_iff.2 h.1)
    · intro c hc
      obtain ⟨s, hs, hcs⟩ := List.mem_flatten.1 hc
      rw [List.eq_of_mem_replicate hs] at hcs
      exact h.2 c hcs
  simpa using glossPieces_of_isGloss hone

/-! ## Weaving -/

/-- The glosses of the affixes, infixes and reduplicants among some parts. -/
def affixGlosses (parts : List FlexPart) : List (List Char) :=
  (parts.filter (·.role.takesGloss)).map (·.gloss.toList)

/-- The three texts of a gloss consist of some affix glosses and of runs of copies of the stem's
gloss, `n` copies in all.  The last run is still open: further copies may join it. -/
structure Glossed (stemGloss : String) (front inner main : List Char) (n : Nat)
    (affixes : List (List Char)) : Prop where
  frontClosed : IsClosed front
  innerClosed : IsClosed inner
  runs : ∃ (settled : List Char) (runs : List Nat) (last : Nat),
    main = settled ++ copies stemGloss last ∧ IsClosed settled ∧
    (∀ k ∈ runs, k ≠ 0) ∧ runs.sum + last = n ∧
    (glossPieces front ++ (glossPieces inner ++ glossPieces settled)).Perm
      (runs.map (copies stemGloss) ++ affixes)

namespace Glossed

variable {stemGloss gloss : String} {front inner main : List Char} {n : Nat}
  {affixes : List (List Char)} {opening closing : Char}

theorem start (stemGloss : String) : Glossed stemGloss [] [] [] 0 [] where
  frontClosed := isClosed_nil
  innerClosed := isClosed_nil
  runs := ⟨[], [], 0, by simp [copies], isClosed_nil, by simp, rfl, by simp⟩

/-- In which order the affix glosses are named does not matter. -/
theorem perm (h : Glossed stemGloss front inner main n affixes) {affixes' : List (List Char)}
    (hperm : affixes.Perm affixes') : Glossed stemGloss front inner main n affixes' where
  frontClosed := h.frontClosed
  innerClosed := h.innerClosed
  runs := by
    obtain ⟨settled, runs, last, hmain, hsettled, hruns, hsum, hpieces⟩ := h.runs
    exact ⟨settled, runs, last, hmain, hsettled, hruns, hsum, hpieces.trans (hperm.append_left _)⟩

/-- A piece of the stem adds a copy to the last run. -/
theorem addText (h : Glossed stemGloss front inner main n affixes) :
    Glossed stemGloss front inner (main ++ stemGloss.toList) (n + 1) affixes where
  frontClosed := h.frontClosed
  innerClosed := h.innerClosed
  runs := by
    obtain ⟨settled, runs, last, rfl, hsettled, hruns, hsum, hperm⟩ := h.runs
    refine ⟨settled, runs, last + 1, ?_, hsettled, hruns, by omega, hperm⟩
    rw [copies_succ, List.append_assoc]

/-- The open run, if there is one, is settled by a mark behind it. -/
theorem settle (hstem : IsGloss stemGloss) (h : Glossed stemGloss front inner main n affixes) :
    ∃ runs : List Nat, (∀ k ∈ runs, k ≠ 0) ∧ runs.sum = n ∧
      (glossPieces front ++ (glossPieces inner ++ glossPieces main)).Perm
        (runs.map (copies stemGloss) ++ affixes) := by
  obtain ⟨settled, runs, last, rfl, hsettled, hruns, hsum, hperm⟩ := h.runs
  by_cases hlast : last = 0
  · refine ⟨runs, hruns, by omega, ?_⟩
    simpa [hlast, copies] using hperm
  · refine ⟨last :: runs, by simpa [hlast] using hruns, by rw [List.sum_cons]; omega, ?_⟩
    rw [hsettled, glossPieces_copies hstem hlast, ← List.append_assoc, ← List.append_assoc,
      List.map_cons, List.cons_append, List.append_assoc (glossPieces front)]
    exact (hperm.append_right _).trans (List.perm_append_singleton ..)

variable (hopening : isGlossMark opening = true) (hclosing : isGlossMark closing = true)
  (hgloss : IsGloss gloss)

include hopening hclosing hgloss

theorem addMain (hstem : IsGloss stemGloss) (h : Glossed stemGloss front inner main n affixes) :
    Glossed stemGloss front inner (withGloss main opening gloss closing) n
      (gloss.toList :: affixes) where
  frontClosed := h.frontClosed
  innerClosed := h.innerClosed
  runs := by
    obtain ⟨runs, hruns, hsum, hperm⟩ := h.settle hstem
    refine ⟨withGloss main opening gloss closing, runs, 0, by simp [copies],
      isClosed_withGloss hclosing main, hruns, hsum, ?_⟩
    rw [glossPieces_withGloss hopening hclosing hgloss, ← List.append_assoc, ← List.append_assoc,
      List.append_assoc (glossPieces front)]
    exact (hperm.append_right _).trans
      ((List.perm_append_singleton ..).trans List.perm_middle.symm)

theorem addFront (h : Glossed stemGloss front inner main n affixes) :
    Glossed stemGloss (withGloss front opening gloss closing) inner main n
      (gloss.toList :: affixes) where
  frontClosed := isClosed_withGloss hclosing front
  innerClosed := h.innerClosed
  runs := by
    obtain ⟨settled, runs, last, hmain, hsettled, hruns, hsum, hperm⟩ := h.runs
    refine ⟨settled, runs, last, hmain, hsettled, hruns, hsum, ?_⟩
    rw [glossPieces_withGloss hopening hclosing hgloss, List.append_assoc, List.singleton_append]
    exact List.perm_middle.trans ((hperm.cons _).trans List.perm_middle.symm)

theorem addInner (h : Glossed stemGloss front inner main n affixes) :
    Glossed stemGloss front (withGloss inner opening gloss closing) main n
      (gloss.toList :: affixes) where
  frontClosed := h.frontClosed
  innerClosed := isClosed_withGloss hclosing inner
  runs := by
    obtain ⟨settled, runs, last, hmain, hsettled, hruns, hsum, hperm⟩ := h.runs
    refine ⟨settled, runs, last, hmain, hsettled, hruns, hsum, ?_⟩
    rw [glossPieces_withGloss hopening hclosing hgloss, List.append_assoc, List.singleton_append,
      ← List.append_assoc]
    refine List.perm_middle.trans (List.Perm.trans ?_ List.perm_middle.symm)
    rw [List.append_assoc]
    exact hperm.cons _

end Glossed

theorem affixGlosses_cons (p : FlexPart) (parts : List FlexPart) :
    affixGlosses (p :: parts) =
      (if p.role.takesGloss then [p.gloss.toList] else []) ++ affixGlosses parts := by
  unfold affixGlosses
  rw [List.filter_cons]
  split
  · rw [List.map_cons, List.singleton_append]
  · rw [List.nil_append]

/-- The texts of a gloss that are woven so far. -/
def Woven.Glosses (stemGloss : String) (w : Woven) (n : Nat) (affixes : List (List Char)) : Prop :=
  Glossed stemGloss w.front.toList w.inner.toList w.main.toList n affixes

/-- A part that takes a gloss adds it, as `withGloss` writes it, to one of the texts. -/
theorem Woven.Glosses.addPart {stemGloss : String} {w : Woven} {n : Nat}
    {affixes : List (List Char)} {p : FlexPart} (hstem : IsGloss stemGloss)
    (hgloss : p.role.takesGloss = true → IsGloss p.gloss) (h : w.Glosses stemGloss n affixes) :
    (w.addPart p).Glosses stemGloss n
      ((if p.role.takesGloss then [p.gloss.toList] else []) ++ affixes) := by
  unfold Woven.Glosses at h ⊢
  unfold Woven.addPart
  have hhyphen : isGlossMark '-' = true := by decide
  have htilde : isGlossMark '~' = true := by decide
  have hopen : isGlossMark '<' = true := by decide
  have hclose : isGlossMark '>' = true := by decide
  -- The role decides which text takes the gloss and between which marks.
  cases hrole : p.role with
  | affix =>
    have hp := hgloss (by rw [hrole]; rfl)
    cases hstarted : w.stemStarted with
    | true =>
      have := h.addMain hhyphen hhyphen hp hstem
      simpa [withGloss, Role.takesGloss] using this
    | false =>
      have := h.addFront hhyphen hhyphen hp
      simpa [withGloss, Role.takesGloss] using this
  | inner =>
    have := h.addInner hopen hclose (hgloss (by rw [hrole]; rfl))
    simpa [withGloss, Role.takesGloss] using this
  | reduplRight =>
    have := h.addMain hhyphen htilde (hgloss (by rw [hrole]; rfl)) hstem
    simpa [withGloss, Role.takesGloss] using this
  | reduplLeft =>
    have := h.addMain htilde hhyphen (hgloss (by rw [hrole]; rfl)) hstem
    simpa [withGloss, Role.takesGloss] using this
  | empty | stem | forcedStem | stemSpec | continuation | incorporation | startWithSelf => exact h

/-- Whether the chunk is text. -/
def Chunk.isText : Chunk → Bool
  | .boundary => false
  | .text _ => true

/-- Each chunk of text adds a copy of the stem's gloss, and each part of `affixGlosses` its own. -/
theorem Woven.Glosses.weave {stemGloss : String} {w : Woven} {n : Nat}
    {affixes : List (List Char)} (used : Nat) (atFront : Bool) (side : Side) (chunks : List Chunk)
    {parts : List FlexPart} (hstem : IsGloss stemGloss)
    (hparts : ∀ p ∈ parts, p.role.takesGloss = true → IsGloss p.gloss)
    (h : w.Glosses stemGloss n affixes) :
    (weave stemGloss w used atFront side chunks parts).Glosses stemGloss
      (n + chunks.countP Chunk.isText) (affixGlosses parts ++ affixes) := by
  -- Text is the stem's own, so it adds a copy of the stem's gloss.
  have htext (w : Woven) {n : Nat} {affixes : List (List Char)} (h : w.Glosses stemGloss n affixes)
      (s : List Char) : (w.addText stemGloss s).Glosses stemGloss (n + 1) affixes := by
    have := Glossed.addText h
    unfold Woven.Glosses
    rwa [← String.toList_append] at this
  -- A boundary adds nothing, and takes no gloss either.
  have huse (w : Woven) {n : Nat} {affixes : List (List Char)} (h : w.Glosses stemGloss n affixes)
      {p : FlexPart} (hp : p.role.takesGloss = true → IsGloss p.gloss) :
      (if p.role.isBoundary = true then w else w.addPart p).Glosses stemGloss n
        ((if p.role.takesGloss then [p.gloss.toList] else []) ++ affixes) := by
    split
    · rename_i hrole
      have hnone : p.role.takesGloss = false := by
        cases hr : p.role <;> simp_all [Role.isBoundary, Role.takesGloss]
      rw [if_neg (by simp [hnone])]
      exact h
    · exact h.addPart hstem hp
  fun_induction Morphology.weave stemGloss w used atFront side chunks parts
    generalizing n affixes with
  | case1 => exact h
  | case2 _ _ _ _ _ ih => exact ih hparts h
  | case4 _ _ _ _ ih => exact ih hparts h
  | case3 w _ _ text chunks _ ih | case5 w _ _ text chunks ih =>
    rw [List.countP_cons_of_pos rfl, Nat.add_comm (chunks.countP _), ← Nat.add_assoc]
    exact ih hparts (htext w h text)
  -- A part is used up: its gloss joins those behind it, and their order does not matter.
  | case6 w _ _ p _ ih | case7 w _ _ _ p _ ih =>
    obtain ⟨hp, hparts⟩ := List.forall_mem_cons.1 hparts
    simp only [dite_eq_ite] at ih
    have hall := ih hparts (huse w h hp)
    refine hall.perm ?_
    rw [affixGlosses_cons, ← List.append_assoc]
    exact List.perm_append_comm.append_right _

/-! ## The gloss of a stem with an inflexion -/

/-- The number of pieces of text that boundaries leave of a stem pattern. -/
def stemPieces (pattern : List Char) : Nat :=
  (stemChunks pattern).countP Chunk.isText

theorem countP_isText_textChunk {s : List Char} (h : s ≠ []) :
    (textChunk s).countP Chunk.isText = 1 := by
  rw [textChunk, if_neg (by simpa using h)]
  rfl

theorem countP_isText_chunksFrom_pos {done pattern : List Char}
    (h : done ≠ [] ∨ ∃ c ∈ pattern, c ≠ boundary) :
    0 < (chunksFrom done pattern).countP Chunk.isText := by
  induction pattern generalizing done with
  | nil =>
    have hdone : done ≠ [] := h.resolve_right (by simp)
    rw [chunksFrom, countP_isText_textChunk hdone]
    exact Nat.one_pos
  | cons c pattern ih =>
    rw [chunksFrom]
    split
    · rename_i hc
      rw [List.countP_append]
      -- The character is a boundary: the literal one is in the text before it or behind it.
      rcases h with h | ⟨d, hd, hne⟩
      · rw [countP_isText_textChunk h]
        omega
      · have hd : d ∈ pattern := (List.mem_cons.1 hd).resolve_left fun heq => hne (heq.trans hc)
        have hrest : 0 < (chunksFrom [] pattern).countP Chunk.isText := ih (.inr ⟨d, hd, hne⟩)
        rw [List.countP_cons]
        omega
    · exact ih (.inl (by simp))

/-- A stem pattern with a literal character has a piece of text. -/
theorem stemPieces_pos {pattern : List Char} (h : ∃ c ∈ pattern, isLiteral c = true) :
    0 < stemPieces pattern := by
  obtain ⟨c, hc, hliteral⟩ := h
  refine countP_isText_chunksFrom_pos (.inr ⟨c, hc, ?_⟩)
  rintro rfl
  exact absurd hliteral (by decide)

theorem specifiedGloss_eq {stemGloss : String} {parts : List FlexPart}
    (h : ∀ p ∈ parts, p.role ≠ .stemSpec) : specifiedGloss stemGloss parts = stemGloss := by
  have hnone : parts.filter (·.role = .stemSpec) = [] := by
    simpa [List.filter_eq_nil_iff] using h
  simp [specifiedGloss, hnone]

/-- The pieces of the gloss of a stem with an inflexion: the glosses of the parts, and runs of
copies of the stem's gloss, one copy for each piece of the stem. -/
theorem exists_stemRuns (pattern : List Char) {stemGloss : String} {parts : List FlexPart}
    (hstem : IsGloss stemGloss) (hspec : ∀ p ∈ parts, p.role ≠ .stemSpec)
    (hparts : ∀ p ∈ parts, p.role.takesGloss = true → IsGloss p.gloss) :
    ∃ runs : List Nat, (∀ k ∈ runs, k ≠ 0) ∧ runs.sum = stemPieces pattern ∧
      (glossPieces (joinStemFlex pattern stemGloss parts).gloss.toList).Perm
        (runs.map (copies stemGloss) ++ affixGlosses parts) := by
  have hstart : Woven.start.Glosses stemGloss 0 [] := Glossed.start stemGloss
  have hwoven := hstart.weave 0 true .stem (stemChunks pattern) hstem hparts
  rw [List.append_nil, Nat.zero_add] at hwoven
  obtain ⟨runs, hruns, hsum, hperm⟩ := hwoven.settle hstem
  refine ⟨runs, hruns, hsum, ?_⟩
  rw [joinStemFlex, specifiedGloss_eq hspec, Woven.finish, glossPieces_tidy, String.toList_append,
    String.toList_append, List.append_assoc, hwoven.frontClosed, hwoven.innerClosed]
  exact hperm

/-- The number of characters in all pieces. -/
private theorem sum_length_copies (stemGloss : String) (runs : List Nat) :
    ((runs.map (copies stemGloss)).map List.length).sum =
      runs.sum * stemGloss.toList.length := by
  induction runs with
  | nil => simp
  | cons n runs ih =>
    rw [List.map_cons, List.map_cons, List.sum_cons, ih, length_copies, List.sum_cons, Nat.add_mul]

/-- Numbers that are not zero and add up to one are a single one. -/
private theorem eq_singleton_of_sum_eq_one {runs : List Nat} (hruns : ∀ k ∈ runs, k ≠ 0)
    (hsum : runs.sum = 1) : runs = [1] := by
  cases runs with
  | nil => simp at hsum
  | cons n runs =>
    obtain ⟨hn, hruns⟩ := List.forall_mem_cons.1 hruns
    rw [List.sum_cons] at hsum
    cases runs with
    | nil =>
      obtain rfl : n = 1 := by simpa using hsum
      rfl
    | cons m runs =>
      have hm := hruns m (List.mem_cons_self ..)
      rw [List.sum_cons] at hsum
      omega

/-- **The stem and the affixes in a gloss.**  The `glossPieces` are those of `affixGlosses`, each
once, and runs of `copies` of the stem's gloss, with one copy for each of the `stemPieces`. So the
gloss of the stem comes once if and only if the stem is in one piece. -/
theorem glossPieces_joinStemFlex {pattern : List Char} {stemGloss : String} {parts : List FlexPart}
    (hliteral : ∃ c ∈ pattern, isLiteral c = true) (hstem : IsGloss stemGloss)
    (hspec : ∀ p ∈ parts, p.role ≠ .stemSpec)
    (hparts : ∀ p ∈ parts, p.role.takesGloss = true → IsGloss p.gloss) :
    (∃ runs : List Nat, runs ≠ [] ∧ (∀ k ∈ runs, k ≠ 0) ∧ runs.sum = stemPieces pattern ∧
      (glossPieces (joinStemFlex pattern stemGloss parts).gloss.toList).Perm
        (runs.map (copies stemGloss) ++ affixGlosses parts)) ∧
    ((glossPieces (joinStemFlex pattern stemGloss parts).gloss.toList).Perm
      (stemGloss.toList :: affixGlosses parts) ↔ stemPieces pattern = 1) := by
  obtain ⟨runs, hruns, hsum, hperm⟩ := exists_stemRuns pattern hstem hspec hparts
  have hpos := stemPieces_pos hliteral
  refine ⟨⟨runs, ?_, hruns, hsum, hperm⟩, fun honce => ?_, fun hone => ?_⟩
  · -- There is a copy at least, so there is a run.
    rintro rfl
    rw [← hsum] at hpos
    exact absurd hpos (by simp)
  · -- All copies together are as long as one.
    have hlength := ((hperm.symm.trans honce).map List.length).sum_nat
    rw [List.map_append, List.sum_append, sum_length_copies, List.map_cons, List.sum_cons,
      hsum] at hlength
    have hgloss : 0 < stemGloss.toList.length := List.length_pos_iff.2 hstem.1
    have : stemPieces pattern * stemGloss.toList.length = 1 * stemGloss.toList.length := by omega
    exact Nat.eq_of_mul_eq_mul_right hgloss this
  · rw [eq_singleton_of_sum_eq_one hruns (hsum.trans hone)] at hperm
    simpa [copies] using hperm

/-- A prefix and a suffix around a stem. -/
def sampleCircumfix : List FlexPart :=
  [⟨"ge".toList, "ge", "PFV", .affix⟩, .marker .stem, ⟨"t".toList, "t", "PTCP", .affix⟩]

theorem glossPieces_joinStemFlex_sampleCircumfix :
    (∃ c ∈ ".sag.".toList, isLiteral c = true) ∧ IsGloss "say" ∧
    (∀ p ∈ sampleCircumfix, p.role ≠ .stemSpec) ∧
    (∀ p ∈ sampleCircumfix, p.role.takesGloss = true → IsGloss p.gloss) ∧
    (glossPieces (joinStemFlex ".sag.".toList "say" sampleCircumfix).gloss.toList).Perm
      ["say".toList, "PFV".toList, "PTCP".toList] := by
  have hliteral : ∃ c ∈ ".sag.".toList, isLiteral c = true := ⟨'s', by decide, by decide⟩
  have hspec : ∀ p ∈ sampleCircumfix, p.role ≠ .stemSpec := by decide
  have hparts : ∀ p ∈ sampleCircumfix, p.role.takesGloss = true → IsGloss p.gloss := by decide
  have hone : stemPieces ".sag.".toList = 1 := by decide
  exact ⟨hliteral, by decide, hspec, hparts,
    (glossPieces_joinStemFlex hliteral (by decide) hspec hparts).2.2 hone⟩

/-- An infix between two boundaries. -/
def sampleInfix : List FlexPart :=
  [.marker .stem, ⟨"e".toList, "e", "INF", .inner⟩, .marker .stem]

/-- A stem that an infix interrupts is glossed twice, and the two copies run together, although the
infix is glossed in front of the stem. -/
theorem not_once_interruptedStem :
    (∃ i, Inflexion.ofFlex ".<e>." "INF" "" = .ok i ∧ i.parts = sampleInfix) ∧
    (∃ c ∈ "t.st".toList, isLiteral c = true) ∧ IsGloss "STEM" ∧
    (∀ p ∈ sampleInfix, p.role ≠ .stemSpec) ∧
    (∀ p ∈ sampleInfix, p.role.takesGloss = true → IsGloss p.gloss) ∧
    (joinStemFlex "t.st".toList "STEM" sampleInfix).gloss = "<INF>STEMSTEM" ∧
    ¬ (glossPieces (joinStemFlex "t.st".toList "STEM" sampleInfix).gloss.toList).Perm
      ("STEM".toList :: affixGlosses sampleInfix) := by
  have hread : ((Inflexion.ofFlex ".<e>." "INF" "").toOption.any
      fun i => decide (i.parts = sampleInfix)) = true := by
    decide +kernel
  obtain ⟨i, hi, hparts⟩ := exists_eq_ok_of_any hread
  refine ⟨⟨i, hi, of_decide_eq_true hparts⟩, ⟨'t', by decide, by decide⟩, by decide, by decide,
    by decide, by decide +kernel, by decide +kernel⟩

end Morphology
