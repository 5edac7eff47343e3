import Morphology.Proofs.Grammar.Closure
import Morphology.Proofs.Search.Budget
import Morphology.Proofs.Search.Derivations

/-!
# Searches of closed grammars

A search asks for the inflexions of the paradigms that its stem and its inflexions lead to, and in
the end merges the inflexions of its levels.  Either may fail: there may be no paradigm or no table
of its inflexions, and an inflexion may have no continuation for the next one.  In a closed grammar
neither ever does.

## Main definitions

* `Matcher.reachable?` — the inflexions that may be tried next, unless something is missing
* `Matcher.NothingMissing` — a state in which neither asking nor merging fails

## Main statements

* `Grammar.exists_mergeChain?` — a chain whose inflexions continue merges
* `Analyzer.nothing_missing_of_compile` — compiled grammars are closed, and no state that a search
  of one comes to fails
-/

namespace Morphology

/-! ## Asking for inflexions -/

namespace Matcher

variable {m : Matcher} {tables : Table Handle AffixTable} {st : SearchState} {slot : Bool}
  {depth : Nat} {h : Handle}

/-- The inflexions of a paradigm that may be tried next, with those that links lead to in place of
the links; nothing at all if a paradigm that is asked for is unknown or has no table. -/
def reachable? (m : Matcher) (tables : Table Handle AffixTable) (st : SearchState) (slot : Bool) :
    (depth : Nat) → Handle → Option (List InflexionId)
  | 0, _ => some []
  | depth + 1, h =>
    match m.grammar.paradigm? h with
    | none => none
    | some p =>
      if m.admitsParadigm st.derivations p then
        if tables.contains h then
          ((m.candidates h st.placement.word st.pos slot).mapM fun id =>
            match m.grammar.inflexion? id with
            | none => some []
            | some i =>
              if m.grammar.config.recursLimit ≤ st.uses id then some []
              else if i.isLink then
                (i.subsequent.mapM (m.reachable? tables st slot depth)).map List.flatten
              else some [id]).map List.flatten
        else none
      else some []

/-- Whatever the state, asking for the inflexions of a paradigm does not fail. -/
def Answers (m : Matcher) (tables : Table Handle AffixTable) (h : Handle) : Prop :=
  ∀ st slot depth, m.reachable? tables st slot depth h = some (m.reachable st slot depth h)

/-- In a closed grammar with a table for every paradigm, every known paradigm answers. -/
theorem answers_of_closed (hg : m.grammar.Closed)
    (htables : ∀ h, m.grammar.paradigms.Known h → tables.contains h = true)
    (hknown : m.grammar.paradigms.Known h) : m.Answers tables h := by
  intro st slot depth
  induction depth generalizing h with
  | zero => rfl
  -- The induction is on the depth: a link asks for other paradigms with less of it.
  | succ depth ih =>
    obtain ⟨p, hp⟩ := Option.isSome_iff_exists.1 hknown
    have hp' : m.grammar.paradigm? h = some p := hp
    rw [reachable?, reachable, hp']
    dsimp only
    split
    · rw [if_pos (htables h hknown), List.flatMap_def]
      change _ = Option.map List.flatten (some _)
      refine congrArg _ (mapM_eq_some_map fun id _ => ?_)
      cases hi : m.grammar.inflexion? id with
      | none => rfl
      | some i =>
        dsimp only
        split
        · rfl
        · split
          · -- What a link leads to is known, and is asked for with less depth.
            have hsubsequent := (hg.inflexions id i hi).own.2
            rw [mapM_eq_some_map fun next hnext => ih (hsubsequent next hnext)]
            rfl
          · rfl
    · rfl

end Matcher

/-! ## Merging chains -/

namespace Grammar

variable {g : Grammar} {i : Inflexion}

/-- A stem that other words may contain finds its place. -/
theorem exists_incorporate? {inc : Incorporated} (hsub : g.MayBeIncorporated inc.sub)
    (hpart : inc.part < i.parts.length) :
    ∃ i', g.incorporate? i inc = some i' ∧ i'.parts.length = i.parts.length := by
  obtain ⟨sub, hsub, -, hform⟩ := hsub
  obtain ⟨lexeme, hlexeme, -⟩ := Option.bind_eq_some_iff.1 hsub
  obtain ⟨form, hform⟩ := Option.isSome_iff_exists.1 hform
  simp [incorporate?, hlexeme, hsub, hform, hpart]

theorem exists_foldlM_incorporate? {incs : List Incorporated}
    (hincs : ∀ inc ∈ incs, g.MayBeIncorporated inc.sub ∧ inc.part < i.parts.length) :
    ∃ i', incs.foldlM g.incorporate? i = some i' := by
  induction incs generalizing i with
  | nil => exact ⟨i, rfl⟩
  | cons inc incs ih =>
    obtain ⟨⟨hsub, hpart⟩, hincs⟩ := List.forall_mem_cons.1 hincs
    obtain ⟨i', hi', hlength⟩ := exists_incorporate? hsub hpart
    obtain ⟨last, hlast⟩ := ih (i := i') fun inc hinc => ⟨(hincs inc hinc).1,
      hlength ▸ (hincs inc hinc).2⟩
    exact ⟨last, by rw [List.foldlM_cons, hi']; exact hlast⟩

/-- Incorporated stems take no continuation away: `filled?` answers, and what it gives continues as
before. -/
theorem exists_filled? {link : ChainLink} (hi : g.inflexion? link.inflexion = some i)
    (hlink : ∀ inc ∈ link.incorporated, g.MayIncorporate link.inflexion inc) :
    ∃ i', g.filled? link = some i' ∧ (i.continues = true → i'.continues = true) := by
  -- What is filled is a place for a stem.
  have hplace {inc : Incorporated} (hinc : inc ∈ link.incorporated) :
      ∃ part, i.parts[inc.part]? = some part ∧ part.role = .incorporation := by
    obtain ⟨-, i₀, part, hi₀, hpart⟩ := hlink inc hinc
    obtain rfl : i = i₀ := Option.some.inj (hi.symm.trans hi₀)
    exact ⟨part, hpart⟩
  obtain ⟨i', hi'⟩ := exists_foldlM_incorporate? (i := i) fun inc hinc => by
    obtain ⟨part, hpart, -⟩ := hplace hinc
    exact ⟨(hlink inc hinc).1, (List.getElem?_eq_some_iff.1 hpart).1⟩
  refine ⟨i', by rw [filled?, hi]; exact hi', fun hcont => ?_⟩
  obtain ⟨p, hp, hrole⟩ := List.any_eq_true.1 hcont
  obtain ⟨n, hn⟩ := List.getElem?_of_mem hp
  have hkept : i'.parts[n]? = some p := by
    refine getElem?_of_foldlM_incorporate? hn (fun inc hinc heq => ?_) hi'
    -- A continuation is no place for a stem.
    obtain ⟨part, hpart, hplace⟩ := hplace hinc
    obtain rfl : p = part := Option.some.inj (hn.symm.trans (heq ▸ hpart))
    simp [hplace] at hrole
  exact List.any_eq_true.2 ⟨p, List.mem_of_getElem? hkept, hrole⟩

/-- `mergeChain?` answers if all inflexions of the chain but the last continue. -/
theorem exists_mergeChain? {links : List ChainLink} (hne : links ≠ [])
    (hknown : ∀ link ∈ links, ∃ i, g.inflexion? link.inflexion = some i)
    (hcont : ∀ link ∈ links.dropLast, ∀ i, g.inflexion? link.inflexion = some i →
      i.continues = true)
    (hlinks : ∀ link ∈ links, ∀ inc ∈ link.incorporated, g.MayIncorporate link.inflexion inc) :
    ∃ i, g.mergeChain? links = some i := by
  induction links with
  | nil => exact absurd rfl hne
  | cons link rest ih =>
    obtain ⟨⟨i, hi⟩, hknown⟩ := List.forall_mem_cons.1 hknown
    obtain ⟨hlink, hlinks⟩ := List.forall_mem_cons.1 hlinks
    obtain ⟨i', hi', hkeeps⟩ := exists_filled? hi hlink
    cases rest with
    | nil => exact ⟨i', hi'⟩
    | cons next rest =>
      -- The first inflexion has others behind it, so it continues and takes their join.
      obtain ⟨hfirst, hcont⟩ := List.forall_mem_cons.1 hcont
      obtain ⟨child, hchild⟩ := ih (by simp) hknown hcont hlinks
      have hjoin := hkeeps (hfirst i hi)
      simp [mergeChain?, hchild, hi', Inflexion.join?, hjoin]

end Grammar

/-! ## States of a search -/

namespace Matcher

variable {m : Matcher} {start : Placement} {st : SearchState}

/-- Asking for the inflexions of the stem's paradigm or of those that an inflexion continues in does
not fail, and the levels merge. -/
structure NothingMissing (m : Matcher) (tables : Table Handle AffixTable) (st : SearchState) :
    Prop where
  stem : ∀ sub c, AtStem m st sub c → m.Answers tables sub.paradigm
  continuation : ∀ level l i part, AtPart m st level l i part → part.role = .continuation →
    ∀ h ∈ i.subsequent, m.Answers tables h
  merges : st.levels ≠ [] → ∃ i, m.grammar.mergeChain? (st.levels.map (·.link)) = some i

/-- The levels of every state that a search `Reaches` merge, if there are any. -/
theorem exists_mergeChain?_of_reaches (hown : m.CandidatesOwned)
    (hinc : ∀ word pos sub length, (sub, length) ∈ m.incorporations word pos →
      m.grammar.MayBeIncorporated sub)
    (hreach : m.Reaches (.start start) st) (hne : st.levels ≠ []) :
    ∃ i, m.grammar.mergeChain? (st.levels.map (·.link)) = some i := by
  have hchain : st.chain = (st.levels.map (·.link)).map (·.inflexion) := List.map_map.symm
  have hne' : st.chain ≠ [] := by simpa [SearchState.chain] using hne
  have hsound : m.Sound start st := .of_reaches hown hinc hreach
  obtain ⟨sub, -, hlicensed⟩ := exists_licensed_of_reaches hown hinc hreach hne'
  refine Grammar.exists_mergeChain? (by simpa using hne) (fun link hlink => ?_)
    (fun link hlink i hi => ?_) (fun link hlink => ?_)
  · -- The inflexions of a licensed chain are all known.
    have hid : link.inflexion ∈ st.chain := hchain ▸ List.mem_map_of_mem hlink
    obtain ⟨i, hi, -⟩ := hlicensed.proper _ hid
    exact ⟨i, hi⟩
  · -- All but the last continue, by the rule for chains.
    have hid : link.inflexion ∈ st.chain.dropLast := by
      rw [hchain, ← List.map_dropLast]
      exact List.mem_map_of_mem hlink
    obtain ⟨i', hi', hcont⟩ := hlicensed.continued _ hid
    obtain rfl : i = i' := Option.some.inj (hi.symm.trans hi')
    exact hcont
  · -- What was incorporated was allowed at its place.
    obtain ⟨l, hl, rfl⟩ := List.mem_map.1 hlink
    exact hsound.incorporates l hl

end Matcher

/-- Every paradigm of a grammar has a table in its index. -/
theorem AffixIndex.contains_of_known {g : Grammar} {index : AffixIndex}
    (hbuild : AffixIndex.build g = .ok index) {h : Handle} (hknown : g.paradigms.Known h) :
    index.tables.contains h = true := by
  obtain ⟨p, hp⟩ := Option.isSome_iff_exists.1 hknown
  obtain ⟨table, htable, -⟩ := tables_of_build hbuild hp
  rw [Table.contains, htable]
  rfl

namespace Analyzer

/-- **Nothing is missing in a compiled grammar.**  A compiled grammar is `Closed`, and
`AffixIndex.build` makes a table for every paradigm of it. So no search of it, from whatever
placement, comes to a state in which it asks for a paradigm that is unknown or without a table, or
in which the levels do not merge: `NothingMissing` holds of all that it `Reaches`. -/
theorem nothing_missing_of_compile (d : GrammarDraft) :
    d.compile.grammar.Closed ∧
    (∀ index, AffixIndex.build d.compile.grammar = .ok index →
      ∀ h, d.compile.grammar.paradigms.Known h → index.tables.contains h = true) ∧
    ∀ config a, build d.compile.grammar config = .ok a →
      ∃ index, AffixIndex.build d.compile.grammar = .ok index ∧
        a.matcher.candidates = index.candidates ∧
        ∀ start st, a.matcher.Reaches (.start start) st →
          a.matcher.NothingMissing index.tables st := by
  have hclosed := d.closed_compile
  refine ⟨hclosed, fun _ hindex _ hknown => AffixIndex.contains_of_known hindex hknown,
    fun config a hbuild => ?_⟩
  obtain ⟨_, index, _, -, hindex, -, -, hmatcher, -⟩ := build_eq_ok hbuild
  have hcandidates : a.matcher.candidates = index.candidates := by
    rw [hmatcher]
    rfl
  have hgrammar := grammar_of_build hbuild
  have hanswers {h : Handle} (hknown : d.compile.grammar.paradigms.Known h) :
      a.matcher.Answers index.tables h := by
    rw [← hgrammar] at hknown hclosed hindex
    exact Matcher.answers_of_closed hclosed
      (fun _ hother => AffixIndex.contains_of_known hindex hother) hknown
  refine ⟨index, hindex, hcandidates, fun start st hreach => ⟨?_, ?_, ?_⟩⟩
  · -- The paradigm of a stem form is known, as the grammar is closed.
    intro sub c hat
    have hsub := hat.sub
    rw [hgrammar] at hsub
    obtain ⟨lexeme, hlexeme, hget⟩ := Option.bind_eq_some_iff.1 hsub
    exact hanswers
      (hclosed.lexemes _ lexeme hlexeme sub (List.mem_of_getElem? hget)).paradigm_known
  · -- So are the paradigms that an inflexion leads to.
    intro level l i part hat _ h hh
    have hi := hat.inflexion
    rw [Matcher.inflexionOf?, hgrammar] at hi
    exact hanswers ((hclosed.inflexions _ i hi).own.2 h hh)
  · exact Matcher.exists_mergeChain?_of_reaches (candidatesOwned_of_build hbuild)
      (mayBeIncorporated_of_build hbuild) hreach

theorem nothing_missing_of_compile_sampleDerivations :
    ∃ a st index, build ((GrammarDraft.start default).add sampleDerivations).compile.grammar
        default = .ok a ∧
      a.matcher.Reaches (.start ⟨"koba".toList, ⟨⟨1, 0⟩, 0⟩, "ko.".toList, 0, 0, 2⟩) st ∧
      st.levels.length = 3 ∧
      AffixIndex.build ((GrammarDraft.start default).add sampleDerivations).compile.grammar =
        .ok index ∧
      index.tables.entries.length = 4 ∧ a.matcher.NothingMissing index.tables st := by
  have hfound : ((build ((GrammarDraft.start default).add sampleDerivations).compile.grammar
      default).toOption.any fun a =>
        (a.matcher.visit 50 [.start ⟨"koba".toList, ⟨⟨1, 0⟩, 0⟩, "ko.".toList, 0, 0, 2⟩]).1.any
          fun st => st.levels.length == 3) = true := by
    decide +kernel
  have htables : ((AffixIndex.build
      ((GrammarDraft.start default).add sampleDerivations).compile.grammar).toOption.any
        fun index => index.tables.entries.length == 4) = true := by
    decide +kernel
  obtain ⟨a, hbuild, hvisited⟩ := exists_eq_ok_of_any hfound
  obtain ⟨st, hst, hlength⟩ := List.any_eq_true.1 hvisited
  obtain ⟨first, hfirst, hreach⟩ := Matcher.exists_reaches_of_mem_visit hst
  obtain rfl := List.mem_singleton.1 hfirst
  obtain ⟨index, hindex, hsize⟩ := exists_eq_ok_of_any htables
  obtain ⟨-, -, hsearch⟩ :=
    nothing_missing_of_compile ((GrammarDraft.start default).add sampleDerivations)
  obtain ⟨index', hindex', -, hnothing⟩ := hsearch default a hbuild
  obtain rfl : index = index' := Except.ok.inj (hindex.symm.trans hindex')
  exact ⟨a, st, index, hbuild, hreach, beq_iff_eq.1 hlength, hindex, beq_iff_eq.1 hsize,
    hnothing _ _ hreach⟩

end Analyzer

end Morphology
