import Morphology.Disambiguation
import Morphology.Proofs.Text.Replacement

/-!
# Cohorts found in a text

Before cohorts are looked for, every carriage return is made a line break, and of two line breaks
in a row one is left.  A text that is put together from pieces is read piece by piece, as long as
each piece begins with a quote: what is in front of it ends there.

## Main definitions

* `joinBreaks`, `normal` — a text as it is before cohorts are looked for
* `tokensIn` — the cohorts of tokens in a text
* `Fresh`, `Reads` — a piece of a stream, and the cohorts it stands for

## Main statements

* `Reads.append` — pieces are read one after the other
* `returnedCohorts_head` — a first line begins a cohort
* `tabbedLines_flatMap`, `exists_tabbedLines` — the lines of a cohort, and what is passed over
-/

namespace Morphology

/-! ## Line breaks -/

/-- A text with one line break in place of every two in a row. -/
def joinBreaks : List Char → List Char
  | '\n' :: '\n' :: s => '\n' :: joinBreaks s
  | c :: s => c :: joinBreaks s
  | [] => []

/-- A text as it is before cohorts are looked for. -/
def normal (s : List Char) : List Char :=
  joinBreaks (s.map fun c => if c = '\r' then '\n' else c)

theorem joinBreaks_cons {c : Char} (h : c ≠ '\n') (s : List Char) :
    joinBreaks (c :: s) = c :: joinBreaks s := by
  rw [joinBreaks]
  rintro s rfl
  exact absurd rfl h

/-- A line break before another character stays. -/
theorem joinBreaks_break {s : List Char} (h : s.head? ≠ some '\n') :
    joinBreaks ('\n' :: s) = '\n' :: joinBreaks s := by
  rw [joinBreaks]
  rintro s - rfl
  exact h rfl

/-- Texts are joined where no run of line breaks reaches across. -/
theorem joinBreaks_append (s : List Char) {t : List Char} (h : t.head? ≠ some '\n') :
    joinBreaks (s ++ t) = joinBreaks s ++ joinBreaks t := by
  fun_induction joinBreaks s with
  | case1 s ih => simp only [List.cons_append, joinBreaks, ih]
  | case2 c s hne ih =>
    rw [List.cons_append, List.cons_append, ← ih]
    -- A single line break stays, as none follows it.
    by_cases hc : c = '\n'
    · subst hc
      refine joinBreaks_break ?_
      cases s with
      | nil => exact h
      | cons d s =>
        rintro hd
        exact hne s rfl (by simpa using hd)
    · exact joinBreaks_cons hc _
  | case3 => rfl

theorem replaced_breaks (s : List Char) :
    Text.replaced ['\n', '\n'] ['\n'] s = joinBreaks s := by
  fun_induction joinBreaks s with
  | case1 s ih =>
    exact (Text.replaced_append_of_isPrefix (by simp) ['\n'] s).trans (by rw [ih]; rfl)
  | case2 c s hne ih =>
    rw [Text.replaced_cons, ih]
    rintro ⟨t, ht⟩
    simp only [List.cons_append, List.nil_append, List.cons.injEq] at ht
    exact hne t ht.1.symm ht.2.symm
  | case3 => exact Text.replaced_nil _ _

theorem mem_joinBreaks_iff {c : Char} {s : List Char} : c ∈ joinBreaks s ↔ c ∈ s := by
  fun_induction joinBreaks s with
  | case1 s ih => simp [ih]
  | case2 d s _ ih => simp [ih]
  | case3 => rfl

theorem mem_normal_iff {c : Char} {s : List Char} :
    c ∈ normal s ↔ ∃ d ∈ s, (if d = '\r' then '\n' else d) = c :=
  mem_joinBreaks_iff.trans List.mem_map

/-- No character appears but line breaks. -/
theorem mem_of_mem_normal {c : Char} {s : List Char} (h : c ∈ normal s) (hc : c ≠ '\n') :
    c ∈ s := by
  obtain ⟨d, hd, heq⟩ := mem_normal_iff.1 h
  split at heq
  · exact absurd heq.symm hc
  · exact heq ▸ hd

theorem normal_nil : normal [] = [] := rfl

theorem normal_cons {c : Char} (hn : c ≠ '\n') (hr : c ≠ '\r') (s : List Char) :
    normal (c :: s) = c :: normal s := by
  rw [normal, List.map_cons, if_neg hr, joinBreaks_cons hn, normal]

/-- Characters that are no line breaks stay. -/
theorem normal_append_of_not_mem {front : List Char} (hn : '\n' ∉ front) (hr : '\r' ∉ front)
    (s : List Char) : normal (front ++ s) = front ++ normal s := by
  induction front with
  | nil => rfl
  | cons c front ih =>
    rw [List.mem_cons, not_or] at hn hr
    rw [List.cons_append, normal_cons (Ne.symm hn.1) (Ne.symm hr.1), ih hn.2 hr.2, List.cons_append]

theorem normal_of_not_mem {s : List Char} (hn : '\n' ∉ s) (hr : '\r' ∉ s) : normal s = s := by
  simpa [normal_nil] using normal_append_of_not_mem hn hr []

/-- Texts are joined where a character stands that is no line break. -/
theorem normal_append (s : List Char) {c : Char} {t : List Char} (hn : c ≠ '\n') (hr : c ≠ '\r') :
    normal (s ++ c :: t) = normal s ++ normal (c :: t) := by
  rw [normal, List.map_append, joinBreaks_append]
  · rfl
  · simp [hr, hn]

/-- A text that does not begin with a line break. -/
def Unbroken (text : List Char) : Prop :=
  ∀ c ∈ text.head?, c ≠ '\n' ∧ c ≠ '\r'

/-- A line break before such a text stays. -/
theorem normal_break {text : List Char} (h : Unbroken text) :
    normal ('\n' :: text) = '\n' :: normal text := by
  cases text with
  | nil => rfl
  | cons c text => exact normal_append ['\n'] (h c rfl).1 (h c rfl).2

/-! ## Pieces of a stream -/

/-- The cohorts of tokens in a text. -/
def tokensIn (text : List Char) : List ReturnedCohort :=
  (returnedCohorts (normal text)).filter (!·.closesGroup)

theorem tokenCohorts_eq (stream : String) : tokenCohorts stream = tokensIn stream.toList := by
  have hnormal : (Text.replaceAll "\n\n" "\n" (Text.replaceAll "\r" "\n" stream)).toList =
      normal stream.toList := by
    rw [Text.toList_replaceAll, Text.toList_replaceAll]
    refine (replaced_breaks _).trans ?_
    rw [normal, show "\r".toList = ['\r'] from rfl, Text.replaced_singleton, List.map_eq_flatMap]
    congr 2
    funext c
    split <;> rfl
  rw [tokenCohorts, hnormal, tokensIn]

/-- A text that begins with a quote, if there is any. -/
def Fresh (text : List Char) : Prop :=
  ∀ c ∈ text.head?, c = '"'

/-- A piece of a stream stands for some cohorts, whatever comes behind it. -/
structure Reads (text : List Char) (cohorts : List ReturnedCohort) : Prop where
  fresh : Fresh text
  reads : ∀ rest, Fresh rest → tokensIn (text ++ rest) = cohorts ++ tokensIn rest

theorem Fresh.normal {text : List Char} (h : Fresh text) : Fresh (normal text) := by
  cases text with
  | nil => exact h
  | cons c text =>
    obtain rfl := h c rfl
    rw [normal_cons (by decide) (by decide)]
    exact fun _ hc => (Option.some.inj hc).symm

theorem Fresh.head?_ne {text : List Char} (h : Fresh text) : text.head? ≠ some '\t' :=
  fun heq => absurd (h '\t' heq) (by decide)

theorem Fresh.unbroken {text : List Char} (h : Fresh text) : Unbroken text := by
  intro c hc
  rw [h c hc]
  decide

theorem Reads.nil : Reads [] [] where
  fresh := by simp [Fresh]
  reads _ _ := rfl

/-- Pieces are read one after the other. -/
theorem Reads.append {front back : List Char} {cs ds : List ReturnedCohort} (hf : Reads front cs)
    (hb : Reads back ds) : Reads (front ++ back) (cs ++ ds) where
  fresh := by
    -- The first of the pieces with any text begins with a quote.
    cases front with
    | nil => exact hb.fresh
    | cons c front => exact hf.fresh
  reads rest hrest := by
    -- What comes behind the first piece begins with a quote too, or is nothing.
    have hfresh : Fresh (back ++ rest) := by
      cases back with
      | nil => exact hrest
      | cons c back => exact hb.fresh
    rw [List.append_assoc, hf.reads _ hfresh, hb.reads rest hrest, List.append_assoc]

/-! ## First lines -/

theorem surfaceEnd?_append {surface : List Char} (ho : '<' ∉ surface) (hc : '>' ∉ surface)
    (rest : List Char) :
    surfaceEnd? (surface ++ '>' :: '"' :: '\n' :: rest) = some (surface, rest) := by
  induction surface with
  | nil => rfl
  | cons c surface ih =>
    rw [List.mem_cons, not_or] at ho hc
    rw [List.cons_append, surfaceEnd?, ih ho.2 hc.2]
    · -- No character of the surface ends it or breaks it off.
      rfl
    · rintro text rfl
      exact absurd rfl hc.1
    · rintro rfl
      exact absurd rfl ho.1
    · rintro rfl
      exact absurd rfl hc.1

/-- A first line begins a cohort; its lines are those with a tab. -/
theorem returnedCohorts_head {surface : List Char} (ho : '<' ∉ surface) (hc : '>' ∉ surface)
    {rest behind : List Char} {rows : List (List Char)}
    (hrest : tabbedLines rest = (rows, behind)) :
    returnedCohorts ('"' :: '<' :: (surface ++ '>' :: '"' :: '\n' :: rest)) =
      ⟨surface, rows⟩ :: returnedCohorts behind := by
  have hat : cohortAt? ('"' :: '<' :: (surface ++ '>' :: '"' :: '\n' :: rest)) =
      some (⟨surface, rows⟩, behind) := by
    rw [cohortAt?, surfaceEnd?_append ho hc]
    simp [hrest]
  rw [returnedCohorts]
  -- A cohort is found at once.
  split
  · rename_i heq
    rw [hat] at heq
    obtain ⟨rfl, rfl⟩ := Prod.mk.inj (Option.some.inj heq)
    rfl
  · rename_i heq
    rw [hat] at heq
    cases heq

/-! ## Lines below -/

theorem tabbedLines_of_head? {text : List Char} (h : text.head? ≠ some '\t') :
    tabbedLines text = ([], text) := by
  rw [tabbedLines.eq_def]
  split
  · exact absurd rfl h
  · rfl

theorem tabbedLines_cons {line rest : List Char} (h : '\n' ∉ line) :
    tabbedLines ('\t' :: (line ++ '\n' :: rest)) =
      (line :: (tabbedLines rest).1, (tabbedLines rest).2) := by
  have hcut := Text.cutAt_of_not_mem h rest
  rw [tabbedLines]
  split
  · rename_i heq
    rw [hcut] at heq
    obtain ⟨rfl, rfl⟩ := Prod.mk.inj (Option.some.inj heq)
    rfl
  · rename_i heq
    rw [hcut] at heq
    cases heq

/-- Lines with a tab come back, if what is behind them has none. -/
theorem tabbedLines_flatMap {rows : List (List Char)} (h : ∀ r ∈ rows, '\n' ∉ r) {rest : List Char}
    (hrest : rest.head? ≠ some '\t') :
    tabbedLines (rows.flatMap (fun r => '\t' :: (r ++ ['\n'])) ++ rest) = (rows, rest) := by
  induction rows with
  | nil => exact tabbedLines_of_head? hrest
  | cons row rows ih =>
    obtain ⟨hrow, hrows⟩ := List.forall_mem_cons.1 h
    have hassoc : (row :: rows).flatMap (fun r => '\t' :: (r ++ ['\n'])) ++ rest =
        '\t' :: (row ++ '\n' :: (rows.flatMap (fun r => '\t' :: (r ++ ['\n'])) ++ rest)) := by
      simp
    rw [hassoc, tabbedLines_cons hrow, ih hrows]

/-- Lines with a tab are as they were written. -/
theorem normal_flatMap {rows : List (List Char)} (h : ∀ r ∈ rows, '\n' ∉ r ∧ '\r' ∉ r)
    {rest : List Char} (hrest : Fresh rest) :
    normal (rows.flatMap (fun r => '\t' :: (r ++ ['\n'])) ++ rest) =
        rows.flatMap (fun r => '\t' :: (r ++ ['\n'])) ++ normal rest ∧
      Unbroken (rows.flatMap (fun r => '\t' :: (r ++ ['\n'])) ++ rest) := by
  induction rows with
  | nil => exact ⟨rfl, hrest.unbroken⟩
  | cons row rows ih =>
    obtain ⟨hrow, hrows⟩ := List.forall_mem_cons.1 h
    obtain ⟨heq, hunbroken⟩ := ih hrows
    have hassoc (rest : List Char) :
        (row :: rows).flatMap (fun r => '\t' :: (r ++ ['\n'])) ++ rest =
        '\t' :: (row ++ '\n' :: (rows.flatMap (fun r => '\t' :: (r ++ ['\n'])) ++ rest)) := by
      simp
    rw [hassoc, hassoc]
    refine ⟨?_, by simp [Unbroken]⟩
    -- The line keeps its characters, and the break behind it stays before a tab or a quote.
    rw [normal_cons (by decide) (by decide), normal_append_of_not_mem hrow.1 hrow.2,
      normal_break hunbroken, heq]

/-! ## What is passed over -/

/-- Text without an opening bracket has no cohort. -/
theorem returnedCohorts_append_of_not_mem {text : List Char} (h : '<' ∉ text)
    (hlast : text.getLast? ≠ some '"') (rest : List Char) :
    returnedCohorts (text ++ rest) = returnedCohorts rest := by
  induction text with
  | nil => rfl
  | cons c text ih =>
    rw [List.mem_cons, not_or] at h
    -- A cohort begins with a quote and an opening bracket, and the text has no bracket.
    have hnone : cohortAt? (c :: (text ++ rest)) = none := by
      rw [cohortAt?]
      intro behind heq
      obtain ⟨rfl, hopen⟩ := List.cons_eq_cons.1 heq
      -- Behind the text there may be one, but its last character is no quote.
      cases text with
      | nil => exact hlast rfl
      | cons d text =>
        obtain ⟨rfl, -⟩ := List.cons_eq_cons.1 hopen
        exact h.2 List.mem_cons_self
    have hrest : returnedCohorts (text ++ rest) = returnedCohorts rest := by
      refine ih h.2 ?_
      cases text with
      | nil => simp
      | cons d text => simpa using hlast
    rw [List.cons_append, returnedCohorts]
    split
    · rename_i heq
      rw [hnone] at heq
      cases heq
    · exact hrest

/-- Lines without an opening bracket are lines of a cohort as far as they have tabs; the others are
passed over. -/
theorem exists_tabbedLines {text : List Char} (h : '<' ∉ text)
    (hend : ∀ c ∈ text.getLast?, c = '\n') :
    ∃ rows passed, (∀ r ∈ rows, '<' ∉ r) ∧ ∀ rest : List Char, rest.head? ≠ some '\t' →
      tabbedLines (text ++ rest) = (rows, passed ++ rest) ∧
        returnedCohorts (passed ++ rest) = returnedCohorts rest := by
  induction hlength : text.length using Nat.strongRecOn generalizing text with
  | ind n ih =>
    by_cases htab : text.head? = some '\t'
    · -- The line ends inside the text, so that its remainder is again such a text.
      obtain ⟨text, rfl⟩ : ∃ tail, text = '\t' :: tail :=
        ⟨text.tail, List.eq_cons_of_mem_head? htab⟩
      have hmem : '\n' ∈ text := by
        cases hlast : text.getLast? with
        | none =>
          rw [List.getLast?_eq_none_iff] at hlast
          subst hlast
          exact absurd (hend '\t' rfl) (by decide)
        | some c =>
          have hc := hend c (by rw [List.getLast?_cons, hlast]; rfl)
          exact hc ▸ List.mem_of_getLast? hlast
      obtain ⟨line, behind, rfl, hline⟩ := List.eq_append_cons_of_mem hmem
      simp only [List.mem_cons, List.mem_append, not_or] at h
      have hend : ∀ c ∈ behind.getLast?, c = '\n' := by
        intro c hc
        refine hend c ?_
        rw [Option.mem_def] at hc ⊢
        simp [List.getLast?_cons, List.getLast?_append, hc]
      have hshorter : behind.length < n := by
        rw [← hlength]
        simp
        omega
      obtain ⟨rows, passed, hrows, hread⟩ := ih _ hshorter h.2.2.2 hend rfl
      refine ⟨line :: rows, passed, List.forall_mem_cons.2 ⟨h.2.1, hrows⟩, fun rest hrest => ?_⟩
      obtain ⟨hlines, hpassed⟩ := hread rest hrest
      refine ⟨?_, hpassed⟩
      rw [List.cons_append, List.append_assoc, List.cons_append, tabbedLines_cons hline, hlines]
    · -- Without a tab no line of the text belongs to the cohort.
      refine ⟨[], text, by simp, fun rest hrest => ⟨tabbedLines_of_head? ?_, ?_⟩⟩
      · cases text with
        | nil => exact hrest
        | cons c text => exact htab
      · -- It ends in a line break, and so not in a quote.
        refine returnedCohorts_append_of_not_mem h ?_ rest
        intro hquote
        exact absurd (hend _ hquote) (by decide)

/-! ## Pieces with a first line -/

/-- A first line stands for a cohort with what is below it, if that is read to its end. -/
theorem Reads.of_head {surface body : List Char} {rows : List (List Char)}
    (ho : '<' ∉ normal surface) (hc : '>' ∉ normal surface)
    (hbody : ∀ rest, Fresh rest → Unbroken (body ++ rest) ∧
      ∃ behind, tabbedLines (normal (body ++ rest)) = (rows, behind) ∧
        returnedCohorts behind = returnedCohorts (normal rest)) :
    Reads ('"' :: '<' :: (surface ++ '>' :: '"' :: '\n' :: body))
      ([⟨normal surface, rows⟩].filter (!·.closesGroup)) where
  fresh := by simp [Fresh]
  reads rest hrest := by
    obtain ⟨hunbroken, behind, hrows, hbehind⟩ := hbody rest hrest
    -- The marks around the surface are no line breaks; the break behind it stays.
    have hnormal : normal ('"' :: '<' :: (surface ++ '>' :: '"' :: '\n' :: body) ++ rest) =
        '"' :: '<' :: (normal surface ++ '>' :: '"' :: '\n' :: normal (body ++ rest)) := by
      simp only [List.cons_append, List.append_assoc]
      rw [normal_cons (by decide) (by decide), normal_cons (by decide) (by decide),
        normal_append surface (by decide) (by decide), normal_cons (by decide) (by decide),
        normal_cons (by decide) (by decide), normal_break hunbroken]
    rw [tokensIn, tokensIn, hnormal, returnedCohorts_head ho hc hrows, hbehind,
      ← List.filter_append]
    rfl

/-- A first line with the lines of analyses. -/
theorem Reads.of_rows {surface : List Char} {rows : List (List Char)}
    (ho : '<' ∉ normal surface) (hc : '>' ∉ normal surface)
    (hrows : ∀ r ∈ rows, '\n' ∉ r ∧ '\r' ∉ r) :
    Reads ('"' :: '<' :: (surface ++ '>' :: '"' :: '\n' ::
        rows.flatMap fun r => '\t' :: (r ++ ['\n'])))
      ([⟨normal surface, rows⟩].filter (!·.closesGroup)) := by
  refine Reads.of_head ho hc fun rest hrest => ?_
  obtain ⟨hnormal, hunbroken⟩ := normal_flatMap hrows hrest
  refine ⟨hunbroken, normal rest, ?_, rfl⟩
  rw [hnormal, tabbedLines_flatMap (fun r hr => (hrows r hr).1) hrest.normal.head?_ne]

end Morphology
