import Mathlib.Tactic.Common
import Morphology.Analysis.Formation
import Morphology.Proofs.Grammar.CompiledInflexions
import Morphology.Proofs.Weaving.Interleaving

/-!
# What chains of inflexions spell

Where every stem ends with its only boundary and every inflexion begins with its only boundary, a
wordform is the stem with the characters of the chain behind it, each inflexion enclosing the next
in its continuation.

## Main definitions

* `spell` — the characters of parts with a text in place of the continuation
* `Grammar.chainText` — the characters of a chain
* `Grammar.Suffixing` — the grammars in which inflexions only follow stems

## Main statements

* `Grammar.Suffixing.wf_of_buildWordform?` — the surface of a wordform with a chain
* `Inflexion.exists_spell_eq` — an inflexion spells its key first
-/

namespace Morphology

/-! ## Spelling -/

/-- The characters of parts with a text in place of each continuation. -/
def spell (inner : List Char) (parts : List FlexPart) : List Char :=
  parts.flatMap fun p => if p.role = .continuation then inner else p.surface

theorem spell_cons (inner : List Char) (p : FlexPart) (parts : List FlexPart) :
    spell inner (p :: parts) =
      (if p.role = .continuation then inner else p.surface) ++ spell inner parts := rfl

theorem spell_append (inner : List Char) (parts parts' : List FlexPart) :
    spell inner (parts ++ parts') = spell inner parts ++ spell inner parts' :=
  List.flatMap_append

/-- Without a continuation, parts spell their own characters. -/
theorem spell_of_closed {parts : List FlexPart} (h : ∀ p ∈ parts, p.role ≠ .continuation)
    (inner : List Char) : spell inner parts = parts.flatMap (·.surface) := by
  induction parts with
  | nil => rfl
  | cons p parts ih =>
    rw [spell_cons, if_neg (h p (List.mem_cons_self ..)), List.flatMap_cons,
      ih fun q hq => h q (List.mem_cons_of_mem _ hq)]

/-- A continuation has no characters of its own. -/
theorem spell_empty {parts : List FlexPart} (h : ∀ p ∈ parts, p.Spelled) :
    spell [] parts = parts.flatMap (·.surface) := by
  induction parts with
  | nil => rfl
  | cons p parts ih =>
    obtain ⟨hp, hparts⟩ := List.forall_mem_cons.1 h
    rw [spell_cons, List.flatMap_cons, ih hparts]
    split
    · rename_i hrole
      rw [hp (.inr (by rw [hrole]; rfl))]
    · rfl

namespace Inflexion

variable {i child joined : Inflexion}

/-- What is spelled in place of a single continuation is what is spliced in there. -/
theorem flatMap_splice {inserted parts : List FlexPart}
    (hcont : parts.countP (·.role = .continuation) = 1) :
    (splice inserted parts).flatMap (·.surface) =
      spell (inserted.flatMap (·.surface)) parts := by
  induction parts with
  | nil => simp at hcont
  | cons p parts ih =>
    rw [splice, spell_cons]
    split
    · rename_i hrole
      -- This is the only continuation, so what is behind it spells itself.
      have hclosed : ∀ q ∈ parts, q.role ≠ .continuation := by
        have hzero : parts.countP (·.role = .continuation) = 0 := by
          rw [List.countP_cons_of_pos (by simpa using hrole)] at hcont
          omega
        intro q hq
        simpa using List.countP_eq_zero.1 hzero q hq
      rw [List.flatMap_append, spell_of_closed hclosed]
    · rename_i hrole
      rw [List.countP_cons_of_neg (by simpa using hrole)] at hcont
      rw [List.flatMap_cons, ih hcont]

/-- Boundaries and the sign for preceding the stem, which are left out, have no characters. -/
theorem flatMap_innerParts (h : i.WellFormed) :
    i.innerParts.flatMap (·.surface) = i.parts.flatMap (·.surface) := by
  have hspelled := h.spelled
  unfold innerParts
  generalize i.parts = parts at hspelled ⊢
  induction parts with
  | nil => rfl
  | cons p parts ih =>
    obtain ⟨hp, hparts⟩ := List.forall_mem_cons.1 hspelled
    rw [List.filter_cons, List.flatMap_cons]
    split
    · rw [List.flatMap_cons, ih hparts]
    · rename_i hkeep
      rw [ih hparts]
      have hsurface : p.surface = [] := by
        apply hp
        right
        cases hrole : p.role <;> simp_all [Role.isBoundary, Role.isMarker]
      rw [hsurface, List.nil_append]

theorem parts_of_join? (h : i.join? child = some joined) :
    i.continues = true ∧ joined.parts = splice child.innerParts i.parts ∧
      joined.startWithSelf = i.startWithSelf := by
  unfold join? at h
  split at h
  · rename_i hcont
    obtain rfl := Option.some.inj h
    exact ⟨hcont, rfl, rfl⟩
  · exact absurd h (by simp)

/-- Parts that are passed over in front of a key have no characters. -/
theorem spell_dropWhile {skip : Role → Bool} {parts : List FlexPart}
    (hskip : ∀ r, skip r = true → r = .empty ∨ r.isMarker = true)
    (hcont : skip .continuation = false) (h : ∀ p ∈ parts, p.Spelled) (inner : List Char) :
    spell inner (parts.dropWhile fun p => skip p.role) = spell inner parts := by
  induction parts with
  | nil => rfl
  | cons p parts ih =>
    obtain ⟨hp, hparts⟩ := List.forall_mem_cons.1 h
    by_cases hs : skip p.role = true
    · have hne : p.role ≠ .continuation := by
        intro heq
        rw [heq, hcont] at hs
        exact Bool.false_ne_true hs
      simp only [List.dropWhile_cons, hs, if_true]
      rw [ih hparts, spell_cons, if_neg hne, hp (hskip p.role hs), List.nil_append]
    · simp only [List.dropWhile_cons, hs, if_false, Bool.false_eq_true]

/-- An inflexion spells its key first. -/
theorem exists_spell_eq (h : i.WellFormed) (inner : List Char) :
    ∃ more, spell inner i.parts = i.anchoredKey ++ more := by
  have hskip : ∀ r : Role, (r = .empty || r = .startWithSelf || r.isBoundary) = true →
      r = .empty ∨ r.isMarker = true := by
    intro r
    cases r <;> simp [Role.isMarker, Role.isBoundary]
  rw [anchoredKey, keyFrom, ← spell_dropWhile hskip (by decide) h.spelled inner]
  generalize List.dropWhile _ i.parts = parts
  refine ⟨spell inner (parts.dropWhile fun p => !p.role.isMarker), ?_⟩
  have hclosed : ∀ p ∈ parts.takeWhile fun p => !p.role.isMarker, p.role ≠ .continuation := by
    intro p hp heq
    have := List.all_eq_true.1 List.all_takeWhile p hp
    simp [heq, Role.isMarker] at this
  rw [← spell_of_closed hclosed inner, ← spell_append, List.takeWhile_append_dropWhile]

end Inflexion

/-! ## Suffixing grammars -/

/-- A stem ends with its only boundary, and has a literal character. -/
def StemPattern.IsPlain (pattern : List Char) : Prop :=
  ∃ stem, pattern = stem ++ [boundary] ∧ boundary ∉ stem ∧ ∃ c ∈ stem, isLiteral c = true

/-- An inflexion begins with its only boundary, continues at one place at most, and neither
incorporates stems nor precedes its own. -/
structure Inflexion.IsSuffix (i : Inflexion) : Prop where
  first : ∃ p ∈ i.parts.head?, p.role.isBoundary = true
  only : ∀ p ∈ i.parts.tail, p.role.isBoundary = false
  continuations : i.continuations ≤ 1
  incorporates : i.incorporates = false
  self : ∀ p ∈ i.parts, p.role ≠ .startWithSelf

-- A search for the literal in the pattern: the quantifier over its characters would go through all
-- characters there are.
instance (pattern : List Char) : Decidable (StemPattern.IsPlain pattern) :=
  decidable_of_iff (pattern.getLast? = some boundary ∧ boundary ∉ pattern.dropLast ∧
      pattern.dropLast.any isLiteral = true) (by
    constructor
    · rintro ⟨hlast, hplain, hliteral⟩
      obtain ⟨stem, rfl⟩ := List.getLast?_eq_some_iff.1 hlast
      rw [List.dropLast_concat] at hplain hliteral
      exact ⟨stem, rfl, hplain, List.any_eq_true.1 hliteral⟩
    · rintro ⟨stem, rfl, hplain, hliteral⟩
      rw [List.dropLast_concat]
      exact ⟨List.getLast?_concat, hplain, List.any_eq_true.2 hliteral⟩)

instance (i : Inflexion) : Decidable i.IsSuffix :=
  decidable_of_iff ((∃ p ∈ i.parts.head?, p.role.isBoundary = true) ∧
      (∀ p ∈ i.parts.tail, p.role.isBoundary = false) ∧ i.continuations ≤ 1 ∧
      i.incorporates = false ∧ ∀ p ∈ i.parts, p.role ≠ .startWithSelf)
    ⟨fun ⟨hfirst, honly, hcont, hinc, hself⟩ => ⟨hfirst, honly, hcont, hinc, hself⟩,
      fun h => ⟨h.first, h.only, h.continuations, h.incorporates, h.self⟩⟩

theorem Inflexion.parts_of_isLink {i : Inflexion} (h : i.isLink = true) : i.parts = [] := by
  have := (Bool.and_eq_true_iff.1 h).1
  simpa using this

theorem Inflexion.WellFormed.startWithSelf_eq_false {i : Inflexion} (h : i.WellFormed)
    (hself : ∀ p ∈ i.parts, p.role ≠ .startWithSelf) : i.startWithSelf = false := by
  by_contra htrue
  rw [Bool.not_eq_false] at htrue
  obtain ⟨part, hpart, hrole⟩ := Option.map_eq_some_iff.1 (h.self htrue)
  exact hself part (List.mem_of_mem_head? hpart) hrole

namespace Grammar

/-- Inflexions only follow stems. -/
structure Suffixing (g : Grammar) : Prop where
  stem : ∀ id sub, g.subLexeme? id = some sub → StemPattern.IsPlain sub.pattern
  suffix : ∀ id i, g.inflexion? id = some i → i.isLink = false → i.IsSuffix

variable {g : Grammar} {chain : List InflexionId} {i : Inflexion}

/-- The parts of an inflexion. -/
def partsOf (g : Grammar) (id : InflexionId) : List FlexPart :=
  ((g.inflexion? id).map (·.parts)).getD []

theorem partsOf_eq {id : InflexionId} (h : g.inflexion? id = some i) : g.partsOf id = i.parts := by
  simp [partsOf, h]

/-- The characters of a chain, each inflexion enclosing the rest of the chain. -/
def chainText (g : Grammar) : List InflexionId → List Char
  | [] => []
  | id :: rest => spell (g.chainText rest) (g.partsOf id)

/-- A chain merges into an inflexion with its characters. -/
theorem flatMap_surface_of_mergeChain?
    (hwf : ∀ id i, g.inflexion? id = some i → i.WellFormed)
    (hself : ∀ id ∈ chain, ∀ i, g.inflexion? id = some i →
      i.continuations ≤ 1 ∧ i.startWithSelf = false)
    (h : g.mergeChain? (chain.map (⟨·, []⟩)) = some i) :
    i.WellFormed ∧ i.startWithSelf = false ∧ i.parts.flatMap (·.surface) = g.chainText chain := by
  induction chain generalizing i with
  | nil => exact absurd h (by simp [mergeChain?])
  | cons id rest ih =>
    cases rest with
    | nil =>
      have hi : g.inflexion? id = some i := by
        simpa [mergeChain?, filled?] using h
      have hspelled := hwf id i hi
      refine ⟨hspelled, (hself id (List.mem_singleton_self _) i hi).2, ?_⟩
      rw [chainText, chainText, partsOf_eq hi, spell_empty hspelled.spelled]
    | cons next rest =>
      simp only [List.map_cons, mergeChain?, Option.bind_eq_bind, Option.bind_eq_some_iff] at h
      obtain ⟨child, hchild, j, hj, hjoin⟩ := h
      have hj : g.inflexion? id = some j := by simpa [filled?] using hj
      obtain ⟨hcwf, -, hctext⟩ := ih (fun x hx => hself x (List.mem_cons_of_mem _ hx)) hchild
      have hjwf := hwf id j hj
      obtain ⟨hone, hjself⟩ := hself id (List.mem_cons_self ..) j hj
      obtain ⟨hcont, hparts, hjoined⟩ := Inflexion.parts_of_join? hjoin
      -- The enclosing inflexion has a continuation, and no second one.
      have hexact : j.parts.countP (·.role = .continuation) = 1 := by
        have hpos : 0 < j.parts.countP (·.role = .continuation) := by
          rw [List.countP_pos_iff]
          simpa [Inflexion.continues] using hcont
        have hle : j.parts.countP (·.role = .continuation) ≤ 1 := hone
        omega
      refine ⟨Inflexion.isInvariant_wellFormed.join j child i hjwf hcwf hjoin,
        hjoined.trans hjself, ?_⟩
      rw [hparts, Inflexion.flatMap_splice hexact, Inflexion.flatMap_innerParts hcwf, hctext,
        chainText.eq_2 g id, partsOf_eq hj]

end Grammar

/-! ## Weaving -/

/-- A boundary has no characters. -/
theorem FlexPart.Spelled.surface_eq_nil {p : FlexPart} (h : p.Spelled)
    (hrole : p.role.isBoundary = true) : p.surface = [] := by
  apply h
  right
  cases hr : p.role <;> simp_all [Role.isBoundary, Role.isMarker]

/-- A wordform with a chain is the stem with the characters of the chain behind it. -/
theorem Grammar.Suffixing.wf_of_buildWordform? {g : Grammar} (hg : g.Suffixing)
    {id : SubLexemeId} {i : Inflexion} {w : Wordform} (hi : i.WellFormed)
    (hself : i.startWithSelf = false) (h : g.buildWordform? id i = some w) :
    ∃ sub stem, g.subLexeme? id = some sub ∧ sub.pattern = stem ++ [boundary] ∧
      boundary ∉ stem ∧ (∃ c ∈ stem, isLiteral c = true) ∧
      w.wf.toList = withoutBreaks stem ++ i.parts.flatMap (·.surface) := by
  simp only [buildWordform?, Option.bind_eq_bind, Option.bind_eq_some_iff] at h
  obtain ⟨lexeme, hlexeme, sub, hsub, joined, hjoined, hw⟩ := h
  have hid : g.subLexeme? id = some sub := by simp [subLexeme?, hlexeme, hsub]
  obtain ⟨stem, hpattern, hboundary, hliteral⟩ := hg.stem id sub hid
  refine ⟨sub, stem, hid, hpattern, hboundary, hliteral, ?_⟩
  have hwf : w.wf = joined.wf := by
    rw [← Option.some.inj hw]
  -- Without the sign for preceding the stem, the pattern is joined as it is.
  unfold Inflexion.fit? at hjoined
  split at hjoined
  · rw [hwf, ← Option.some.inj hjoined, Inflexion.patternFor, hself, Bool.false_and,
      if_neg Bool.false_ne_true, hpattern, wf_joinStemFlex_of_suffix hboundary,
      flatMap_letters_eq fun p hp => (hi.spelled p hp).surface_eq_nil]
  · exact absurd hjoined (by simp)

end Morphology
