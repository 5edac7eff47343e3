import Morphology.Proofs.Search.Budget
import Morphology.Proofs.Search.Soundness
import Morphology.Proofs.Text.Markers

/-!
# Contained words

A stem that is incorporated leaves a marker among the tags of its inflexion, from which the
contained word is read when the wordform is done.  The marker is lost if an inflexion further down
the chain replaces the tags of those before it: the incorporated stem stays in the word, but is not
among the contained words.

## Main definitions

* `Grammar.subWordOf?` — the contained word that an incorporated stem stands for
* `Grammar.keptIncorporations` — the incorporated stems of a chain whose markers are not replaced
* `Grammar.MarksClearly` — texts of a grammar among which its markers can be told apart
* `Grammar.ReplacesNone` — no tags of an inflexion with incorporated stems are replaced

## Main statements

* `Grammar.markersIn_mergeChain` — the markers that a chain leaves
* `Matcher.Move.forall_levels` — what is kept of every level by matching it
* `Matcher.subwords_of_accepted` — the contained words of every state that is accepted
* `Analyzer.not_subwords_of_accepted` — a contained word that is lost
-/

namespace Morphology

/-! ## Chains -/

namespace Grammar

/-- The contained word that an incorporated stem stands for. -/
def subWordOf? (g : Grammar) (inc : Incorporated) : Option SubWord := do
  let lexeme ← g.lexeme? inc.sub.lexeme
  let form ← (g.subLexeme? inc.sub).bind (·.incorporation)
  return ⟨lexeme.headword, form.gramm⟩

/-- Whether the inflexion of a link replaces the tags of those before it. -/
def replacesTags (g : Grammar) (link : ChainLink) : Bool :=
  (g.inflexion? link.inflexion).any (·.replaceGrammar)

/-- The incorporated stems of a chain whose tags no inflexion further down replaces. -/
def keptIncorporations (g : Grammar) : List ChainLink → List Incorporated
  | [] => []
  | link :: rest =>
    if rest.any g.replacesTags then g.keptIncorporations rest
    else link.incorporated ++ g.keptIncorporations rest

/-- No tags of an inflexion with incorporated stems are replaced. -/
def ReplacesNone (g : Grammar) (chain : List ChainLink) : Prop :=
  chain.Pairwise fun link later => link.incorporated ≠ [] → g.replacesTags later = false

instance (g : Grammar) (chain : List ChainLink) : Decidable (g.ReplacesNone chain) :=
  inferInstanceAs (Decidable (chain.Pairwise _))

/-- Then no incorporated stem is lost. -/
theorem ReplacesNone.keptIncorporations_eq {g : Grammar} {chain : List ChainLink}
    (h : g.ReplacesNone chain) : g.keptIncorporations chain = chain.flatMap (·.incorporated) := by
  induction chain with
  | nil => rfl
  | cons link rest ih =>
    obtain ⟨hlink, hrest⟩ := List.pairwise_cons.1 h
    rw [keptIncorporations, List.flatMap_cons, ih hrest]
    split
    · rename_i hreplaces
      obtain ⟨later, hlater, hreplaces⟩ := List.any_eq_true.1 hreplaces
      -- A later inflexion replaces the tags, so there was nothing incorporated here.
      have hnone : link.incorporated = [] := by
        by_contra hne
        exact absurd ((hlink later hlater hne).symm.trans hreplaces) (by decide)
      rw [hnone, List.nil_append]
    · rfl

/-- A text in which no marker begins. -/
def IsUnmarked (gramm : String) : Prop :=
  Text.hasInfix markerFront.toList gramm.toList = false

instance (gramm : String) : Decidable (IsUnmarked gramm) :=
  inferInstanceAs (Decidable (_ = false))

/-- Texts of a grammar among which its markers can be told apart: lemmas without commas and colons,
forms of incorporated stems with tags without semicolons, and no markers written as tags. -/
structure MarksClearly (g : Grammar) : Prop where
  headwords : ∀ e ∈ g.lexemes.toList, ',' ∉ e.2.headword.toList ∧ ':' ∉ e.2.headword.toList
  forms : ∀ e ∈ g.lexemes.toList, ∀ sub ∈ e.2.subs, ∀ form ∈ sub.incorporation,
    ';' ∉ form.gramm.toList
  stems : ∀ e ∈ g.lexemes.toList, ∀ sub ∈ e.2.subs, IsUnmarked sub.gramm
  inflexions : ∀ e ∈ g.paradigms.arena.toList, ∀ i ∈ e.2.inflexions, IsUnmarked i.gramm

theorem marksClearly_iff {g : Grammar} : g.MarksClearly ↔
    (∀ e ∈ g.lexemes.toList, (',' ∉ e.2.headword.toList ∧ ':' ∉ e.2.headword.toList) ∧
      ∀ sub ∈ e.2.subs, (∀ form ∈ sub.incorporation, ';' ∉ form.gramm.toList) ∧
        IsUnmarked sub.gramm) ∧
    ∀ e ∈ g.paradigms.arena.toList, ∀ i ∈ e.2.inflexions, IsUnmarked i.gramm := by
  constructor
  · intro h
    exact ⟨fun e he => ⟨h.headwords e he, fun sub hsub =>
      ⟨h.forms e he sub hsub, h.stems e he sub hsub⟩⟩, h.inflexions⟩
  · rintro ⟨hlexemes, hinflexions⟩
    exact {
      headwords := fun e he => (hlexemes e he).1
      forms := fun e he sub hsub => ((hlexemes e he).2 sub hsub).1
      stems := fun e he sub hsub => ((hlexemes e he).2 sub hsub).2
      inflexions := hinflexions }

instance (g : Grammar) : Decidable g.MarksClearly :=
  decidable_of_iff' _ marksClearly_iff

variable {g : Grammar} {i i' : Inflexion} {link : ChainLink} {chain : List ChainLink}
  {inc : Incorporated}

namespace MarksClearly

/-- The marker of an incorporated stem is read as the contained word. -/
theorem markersIn_marker (h : g.MarksClearly) {lexeme : Lexeme} {form : IncorporationForm}
    (hlexeme : g.lexeme? inc.sub.lexeme = some lexeme)
    (hform : (g.subLexeme? inc.sub).bind (·.incorporation) = some form) :
    (markersIn (marker lexeme.headword form.gramm)).map some = [g.subWordOf? inc] := by
  -- The form is one of a sub-lexeme that the lexeme has, so neither text has separators of its own.
  have hmem := Arena.mem_toList_iff.2 hlexeme
  obtain ⟨sub, hsub, hincorporation⟩ := Option.bind_eq_some_iff.1 hform
  obtain ⟨lexeme', hlexeme', hget⟩ := Option.bind_eq_some_iff.1 hsub
  obtain rfl : lexeme = lexeme' := Option.some.inj (hlexeme.symm.trans hlexeme')
  obtain ⟨hcomma, hcolon⟩ := h.headwords _ hmem
  have hsemicolon := h.forms _ hmem sub (List.mem_of_getElem? hget) form hincorporation
  rw [Morphology.markersIn_marker hcomma hcolon hsemicolon]
  simp [subWordOf?, hlexeme, hform]

theorem markersIn_inflexion (h : g.MarksClearly) {id : InflexionId}
    (hi : g.inflexion? id = some i) :
    markersIn i.gramm = [] := by
  obtain ⟨p, hp, hget⟩ := paradigm?_of_inflexion? hi
  exact markersIn_of_hasInfix
    (h.inflexions (id.paradigm, p) (Arena.mem_toList_iff.2 hp) i (List.mem_of_getElem? hget))

end MarksClearly

/-- An incorporated stem leaves a marker. -/
theorem markersIn_incorporate (hclear : g.MarksClearly) (h : g.incorporate? i inc = some i') :
    (markersIn i'.gramm).map some = (markersIn i.gramm).map some ++ [g.subWordOf? inc] ∧
      i'.replaceGrammar = i.replaceGrammar := by
  simp only [incorporate?, Option.bind_eq_bind, Option.bind_eq_some_iff] at h
  obtain ⟨lexeme, hlexeme, form, hform, h⟩ := h
  split at h
  · obtain rfl := Option.some.inj h
    -- The marker stands behind the tags that are there.
    refine ⟨?_, rfl⟩
    rw [markersIn_joinTags, List.map_append, hclear.markersIn_marker hlexeme
      (Option.bind_eq_some_iff.2 hform)]
  · exact absurd h (by simp)

/-- So does each of several, in their order. -/
theorem markersIn_incorporateAll (hclear : g.MarksClearly) {incs : List Incorporated}
    (h : incs.foldlM g.incorporate? i = some i') :
    (markersIn i'.gramm).map some = (markersIn i.gramm).map some ++ incs.map g.subWordOf? ∧
      i'.replaceGrammar = i.replaceGrammar := by
  induction incs generalizing i with
  | nil =>
    obtain rfl := Option.some.inj h
    exact ⟨by simp, rfl⟩
  | cons inc incs ih =>
    rw [List.foldlM_cons, Option.bind_eq_bind, Option.bind_eq_some_iff] at h
    obtain ⟨i₁, h₁, h⟩ := h
    obtain ⟨hfirst, hsame⟩ := markersIn_incorporate hclear h₁
    obtain ⟨hrest, hsame'⟩ := ih h
    exact ⟨by rw [hrest, hfirst, List.append_assoc, List.map_cons, List.singleton_append],
      hsame'.trans hsame⟩

/-- The inflexion of a link has the markers of its incorporated stems. -/
theorem markersIn_filled (hclear : g.MarksClearly) (h : g.filled? link = some i) :
    (markersIn i.gramm).map some = link.incorporated.map g.subWordOf? ∧
      i.replaceGrammar = g.replacesTags link := by
  rw [filled?, Option.bind_eq_bind, Option.bind_eq_some_iff] at h
  obtain ⟨own, hown, h⟩ := h
  obtain ⟨hmarkers, hsame⟩ := markersIn_incorporateAll hclear h
  rw [hclear.markersIn_inflexion hown] at hmarkers
  exact ⟨hmarkers, by rw [hsame, replacesTags, hown, Option.any_some]⟩

/-- A chain leaves the markers of the incorporated stems that are kept, in the order of the chain.
-/
theorem markersIn_mergeChain (hclear : g.MarksClearly) (h : g.mergeChain? chain = some i) :
    (markersIn i.gramm).map some = (g.keptIncorporations chain).map g.subWordOf? ∧
      i.replaceGrammar = chain.any g.replacesTags := by
  induction chain using mergeChain?.induct generalizing i with
  | case1 => exact absurd h (by simp [mergeChain?])
  | case2 link =>
    obtain ⟨hmarkers, hreplaces⟩ := markersIn_filled hclear h
    exact ⟨by simpa [keptIncorporations] using hmarkers, by simpa using hreplaces⟩
  | case3 link next rest ih =>
    simp only [mergeChain?, Option.bind_eq_bind, Option.bind_eq_some_iff] at h
    obtain ⟨child, hchild, own, hown, h⟩ := h
    obtain ⟨hmarkers, hreplaces⟩ := ih hchild
    obtain ⟨hmarkers', hreplaces'⟩ := markersIn_filled hclear hown
    unfold Inflexion.join? at h
    split at h
    · obtain rfl := Option.some.inj h
      refine ⟨?_, by rw [List.any_cons, ← hreplaces, ← hreplaces']⟩
      -- The tags of the chain behind the link replace its own, or stand behind them.
      rw [keptIncorporations, ← hreplaces]
      dsimp only
      split
      · exact hmarkers
      · rw [markersIn_joinTags, List.map_append, List.map_append, hmarkers, hmarkers']
    · exact absurd h (by simp)

/-- The stem adds no markers, so that those of its inflexion are read. -/
theorem subwords_buildWordform (hclear : g.MarksClearly) {id : SubLexemeId} {w : Wordform}
    (h : g.buildWordform? id i = some w) : w.expandMarkers.subwords = markersIn i.gramm := by
  simp only [buildWordform?, Option.bind_eq_bind, Option.bind_eq_some_iff] at h
  obtain ⟨lexeme, hlexeme, sub, hsub, joined, -, h⟩ := h
  obtain rfl := Option.some.inj h
  -- The tags of the stem have no marker in them.
  have hstem := markersIn_of_hasInfix (hclear.stems (id.lexeme, lexeme)
    (Arena.mem_toList_iff.2 hlexeme) sub (List.mem_of_getElem? hsub))
  rw [Wordform.subwords_expandMarkers]
  dsimp only
  rw [List.nil_append]
  split
  · rfl
  · rw [markersIn_joinTags, hstem, List.nil_append]

end Grammar

/-! ## Levels -/

namespace Matcher

variable {m : Matcher} {st st' : SearchState}

theorem forall_levels_modifyLevel {P : Level → Prop} {f : Level → Level} (hf : ∀ l, P l → P (f l))
    (h : ∀ l ∈ st.levels, P l) (level : Nat) : ∀ l ∈ (st.modifyLevel level f).levels, P l := by
  intro l hl
  obtain ⟨n, hn⟩ := List.getElem?_of_mem hl
  obtain ⟨l₀, hl₀, rfl⟩ := SearchState.getElem?_modifyLevel.1 hn
  have hold := h l₀ (List.mem_of_getElem? hl₀)
  split
  · exact hf l₀ hold
  · exact hold

theorem forall_levels_openLevel (m : Matcher) {P : Level → Prop} (h : ∀ l ∈ st.levels, P l)
    {id : InflexionId} (hstart : P (.start id)) : ∀ l ∈ (m.openLevel st id).levels, P l := by
  intro l hl
  rcases List.mem_append.1 hl with hl | hl
  · exact h l hl
  · exact List.mem_singleton.1 hl ▸ hstart

/-- What a level has at its beginning, and keeps when it is matched, all levels have. -/
theorem Move.forall_levels {P : Level → Prop} (hstart : ∀ id, P (.start id))
    (hnext : ∀ l, P l → P l.nextPart) (hincorporate : ∀ l sub, P l → P (l.incorporate sub))
    (hread : ∀ l, P l → P { l with consumed := l.consumed + 1 }) (hmove : Move m st st')
    (h : ∀ l ∈ st.levels, P l) : ∀ l ∈ st'.levels, P l := by
  cases hmove with
  -- To read the stem opens no level.
  | stemChar _ _ _ hread =>
    obtain ⟨pos, rfl⟩ := eq_of_mem_stepStemChar hread
    exact h
  | firstChar _ _ _ _ hread =>
    obtain ⟨pos, rfl⟩ := eq_of_mem_stepStemChar hread
    exact h
  | openFront => exact forall_levels_openLevel m h (hstart _)
  | passFront => exact h
  | openStem => exact forall_levels_openLevel m h (hstart _)
  | enterFirst => exact h
  | leaveLevel => exact h
  -- A level that is matched further is the same but for its place.
  | handOver | passMark | enterNext | endPart => exact forall_levels_modifyLevel hnext h _
  | openNext =>
    exact forall_levels_openLevel m (forall_levels_modifyLevel hnext h _) (hstart _)
  | incorporate => exact forall_levels_modifyLevel (fun l => hincorporate l _) h _
  | readChar => exact forall_levels_modifyLevel hread h _

/-- The stems incorporated in a level stand in the order of its parts. -/
structure InOrder (l : Level) : Prop where
  ascending : l.link.incorporated.Pairwise (·.part < ·.part)
  behind : ∀ inc ∈ l.link.incorporated, inc.part < l.part

-- A stem is incorporated at the current part, which is passed with it.
theorem InOrder.incorporate {l : Level} (h : InOrder l) (sub : SubLexemeId) :
    InOrder (l.incorporate sub) where
  ascending := by
    refine List.pairwise_append.2
      ⟨h.ascending, List.pairwise_singleton .., fun inc hinc new hnew => ?_⟩
    rw [List.mem_singleton.1 hnew]
    exact h.behind inc hinc
  behind := by
    intro inc hinc
    rcases List.mem_append.1 hinc with hinc | hinc
    · exact Nat.lt_succ_of_lt (h.behind inc hinc)
    · rw [List.mem_singleton.1 hinc]
      exact Nat.lt_succ_self _

theorem Reaches.inOrder {p : Placement} (hreach : m.Reaches (.start p) st) :
    ∀ l ∈ st.levels, InOrder l := by
  refine hreach.keeps (P := fun st => ∀ l ∈ st.levels, InOrder l) (fun _ _ h hmove => ?_)
    fun l hl => absurd hl List.not_mem_nil
  refine hmove.forall_levels (fun _ => ⟨List.Pairwise.nil, fun _ h => absurd h List.not_mem_nil⟩)
    (fun l h => ⟨h.ascending, fun inc hinc => Nat.lt_succ_of_lt (h.behind inc hinc)⟩)
    (fun l sub h => h.incorporate sub) (fun l h => ⟨h.ascending, h.behind⟩) h

/-- **Contained words.**  A wordform that is accepted contains, behind `Wordform.expandMarkers`, a
word for each stem that its levels have incorporated, in the order of levels and parts, unless an
inflexion further down replaces the tags (`Grammar.keptIncorporations`); and no marker is left among
its tags. -/
theorem subwords_of_accepted (hclear : m.grammar.MarksClearly) {p : Placement}
    (hreach : m.Reaches (.start p) st) {host : List Char} {maxEdits : Nat} {w : Wordform}
    (hacc : m.accept? host maxEdits st = some w) :
    w.expandMarkers.subwords.map some =
      (m.grammar.keptIncorporations (st.levels.map (·.link))).map m.grammar.subWordOf? ∧
    markersIn w.expandMarkers.gramm = [] ∧
    (∀ l ∈ st.levels, l.link.incorporated.Pairwise (·.part < ·.part)) ∧
    (m.grammar.ReplacesNone (st.levels.map (·.link)) →
      w.expandMarkers.subwords.map some =
        (st.levels.flatMap (·.link.incorporated)).map m.grammar.subWordOf?) := by
  obtain ⟨-, -, i, hi, hbuilt⟩ := of_accept?_eq_some hacc
  have hkept : w.expandMarkers.subwords.map some =
      (m.grammar.keptIncorporations (st.levels.map (·.link))).map m.grammar.subWordOf? := by
    rw [Grammar.subwords_buildWordform hclear hbuilt]
    exact (Grammar.markersIn_mergeChain hclear hi).1
  refine ⟨hkept, w.markersIn_expandMarkers, fun l hl => (hreach.inOrder l hl).ascending,
    fun hnone => ?_⟩
  rw [hkept, hnone.keptIncorporations_eq, List.flatMap_map]

end Matcher

namespace Analyzer

/-- Verbs that take in a noun, with a tense that may replace the tags. -/
def sampleHunting (replaces : Bool) : GrammarDraft :=
  (GrammarDraft.start default).add { GrammarDocument.empty with
    paradigms := [
      ⟨"Verb", [.ofFlex ".o<+><.>" "inc" "INC" ["Tense"]], []⟩,
      ⟨"Tense", [⟨".s", "prs", "PRS", none, [], none, .both, [], replaces, true⟩], []⟩,
      ⟨"Noun", [.ofFlex "." "sg" "" []], []⟩]
    lexemes := [⟨"hunt", "hunt.", ["Verb"], "V", "hunt", [], none, false, none⟩,
      ⟨"deer", "deer.", ["Noun"], "N,anim", "deer", [], none, false,
        some ⟨"deer", none, none⟩⟩] }

/-- A word with its verb at the front. -/
def sampleVerbAt (word : List Char) : Placement :=
  ⟨word, ⟨⟨1, 0⟩, 0⟩, "hunt.".toList, 0, 0, 4⟩

/-- The states that are accepted on the way from a placement, with their wordforms. -/
def accepted (m : Matcher) (p : Placement) : List (SearchState × Wordform) :=
  (m.visit 50 [.start p]).1.filterMap fun st => (m.accept? p.word 0 st).map (st, ·)

theorem of_mem_accepted {m : Matcher} {p : Placement} {st : SearchState} {w : Wordform}
    (h : (st, w) ∈ accepted m p) : m.Reaches (.start p) st ∧ m.accept? p.word 0 st = some w := by
  obtain ⟨st', hst', haccepted⟩ := List.mem_filterMap.1 h
  obtain ⟨w', hw', heq⟩ := Option.map_eq_some_iff.1 haccepted
  obtain ⟨rfl, rfl⟩ := Prod.mk.inj heq
  obtain ⟨first, hfirst, hreach⟩ := Matcher.exists_reaches_of_mem_visit hst'
  obtain rfl := List.mem_singleton.1 hfirst
  exact ⟨hreach, hw'⟩

theorem subwords_of_accepted_sampleHunting :
    ∃ a st w, build (sampleHunting false).compile.grammar default = .ok a ∧
      a.matcher.Reaches (.start (sampleVerbAt "huntodeers".toList)) st ∧
      a.matcher.accept? "huntodeers".toList 0 st = some w ∧
      w.expandMarkers.subwords = [⟨"deer", "N,anim"⟩] ∧
      w.expandMarkers.subwords.map some =
        (st.levels.flatMap (·.link.incorporated)).map a.matcher.grammar.subWordOf? := by
  have hfound : ((build (sampleHunting false).compile.grammar default).toOption.any fun a =>
      decide a.matcher.grammar.MarksClearly &&
        (accepted a.matcher (sampleVerbAt "huntodeers".toList)).any fun (st, w) =>
          decide (a.matcher.grammar.ReplacesNone (st.levels.map (·.link)) ∧
            w.expandMarkers.subwords = [⟨"deer", "N,anim"⟩])) = true := by
    decide +kernel
  obtain ⟨a, hbuild, htests⟩ := exists_eq_ok_of_any hfound
  obtain ⟨hclear, hany⟩ := Bool.and_eq_true_iff.1 htests
  obtain ⟨⟨st, w⟩, hmem, htest⟩ := List.any_eq_true.1 hany
  obtain ⟨hnone, hsubwords⟩ := of_decide_eq_true htest
  obtain ⟨hreach, hacc⟩ := of_mem_accepted hmem
  exact ⟨a, st, w, hbuild, hreach, hacc, hsubwords,
    (Matcher.subwords_of_accepted (of_decide_eq_true hclear) hreach hacc).2.2.2 hnone⟩

/-- A contained word may be lost though its stem is in the word: the tense replaces the tags of the
inflexion that the stem is incorporated in. -/
theorem not_subwords_of_accepted :
    ¬ ∀ (d : GrammarDraft) (config : ParserConfig) (a : Analyzer) (start : Placement)
      (st : SearchState) (host : List Char) (maxEdits : Nat) (w : Wordform),
      build d.compile.grammar config = .ok a → a.matcher.grammar.MarksClearly →
        a.matcher.Reaches (.start start) st → a.matcher.accept? host maxEdits st = some w →
          w.expandMarkers.subwords.map some =
            (st.levels.flatMap (·.link.incorporated)).map a.matcher.grammar.subWordOf? := by
  intro h
  have hfound : ((build (sampleHunting true).compile.grammar default).toOption.any fun a =>
      decide a.matcher.grammar.MarksClearly &&
        (accepted a.matcher (sampleVerbAt "huntodeers".toList)).any fun (st, w) =>
          w.expandMarkers.subwords == [] &&
            (st.levels.flatMap (·.link.incorporated)).map a.matcher.grammar.subWordOf? ==
              [some ⟨"deer", "N,anim"⟩]) = true := by
    decide +kernel
  obtain ⟨a, hbuild, htests⟩ := exists_eq_ok_of_any hfound
  obtain ⟨hclear, hany⟩ := Bool.and_eq_true_iff.1 htests
  obtain ⟨⟨st, w⟩, hmem, htest⟩ := List.any_eq_true.1 hany
  obtain ⟨hlost, hincorporated⟩ := Bool.and_eq_true_iff.1 htest
  obtain ⟨hreach, hacc⟩ := of_mem_accepted hmem
  -- All conditions hold here, but the word is not among the contained ones.
  have hall := h _ _ a _ st _ _ w hbuild (of_decide_eq_true hclear) hreach hacc
  rw [eq_of_beq hlost, eq_of_beq hincorporated] at hall
  exact absurd hall (by simp)

end Analyzer

end Morphology
