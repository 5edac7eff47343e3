import Morphology.Proofs.Parsing.Replacements
import Morphology.Proofs.Search.Completeness
import Morphology.Proofs.Search.CorrectedWords
import Morphology.Proofs.Transducer.EditedLookup
import Morphology.Proofs.Transducer.ExactMatches

/-!
# Typing errors in stems

A word that has no acceptable analysis is looked for with a correction.  If only its stem is
mistyped, within the characters that the stem is looked up by, the correction finds every wordform
that is found from this stem in the right word; where the stem and the inflexions have their
boundaries does not matter.  If a typing error leaves nothing of a word, there is no place where a
stem is looked up, and nothing is found.

## Main definitions

* `Mistyped` — a text is another one with a typing error
* `Analyzer.FindsFrom` — a wordform is found in its own surface from a stem
* `Analyzer.Recovers` — a wordform is found with a correction in a word without analyses

## Main statements

* `Analyzer.exists_mem_pass_iff_findsFrom` — what is found from stems is what a pass finds
* `StemIndex.exists_mem_lookup_of_mistyped` — the index finds a stem whose key is mistyped
* `Analyzer.recovers_of_mem_placements` — what a placement with a correction leads to is found
* `Analyzer.recovers_of_mistyped` — a mistyped word is corrected
* `Analyzer.not_recovers_empty` — but not if nothing is left of it
-/

namespace Morphology

/-! ## Typing errors -/

/-- A text is another one with a typing error: a wrong character, a missing one, two in the wrong
order, or one too many between two others. -/
inductive Mistyped : (typed key : List Char) → Prop
  | substituted (front back : List Char) {a b : Char} (hne : a ≠ b) :
      Mistyped (front ++ a :: back) (front ++ b :: back)
  | missing (front back : List Char) (b : Char) : Mistyped (front ++ back) (front ++ b :: back)
  | swapped (front back : List Char) {a b : Char} (hne : a ≠ b) :
      Mistyped (front ++ a :: b :: back) (front ++ b :: a :: back)
  | extra {front back : List Char} (a : Char) (hfront : front ≠ []) (hback : back ≠ []) :
      Mistyped (front ++ a :: back) (front ++ back)

namespace Mistyped

variable {typed key : List Char}

theorem key_ne_nil (h : Mistyped typed key) : key ≠ [] := by
  cases h with
  | substituted | missing | swapped => simp
  | extra _ hfront => simp [hfront]

/-- A typing error is one step of an alignment that is `Trimmed`: it is no deletion at an end. -/
theorem exists_aligns (h : Mistyped typed key) : ∃ steps kind,
    Aligns steps typed key ∧ Trimmed steps ∧ editKinds steps = [kind] := by
  -- Around the step all characters are kept.
  have haround (front back : List Char) {s : AlignStep} {kind : EditKind} (hs : s.Proper)
      (hkind : s.kind? = some kind) (hends : s.isDeletion = true → front ≠ [] ∧ back ≠ [])
      (htyped : front ++ s.source ++ back = typed) (hkey : front ++ s.target ++ back = key) :
      ∃ steps kind, Aligns steps typed key ∧ Trimmed steps ∧ editKinds steps = [kind] := by
    subst htyped hkey
    refine ⟨alignAround front s back, kind, aligns_alignAround front back hs,
      trimmed_alignAround hends, ?_⟩
    rw [editKinds_alignAround, hkind]
    rfl
  cases h with
  | @substituted front back a b hne =>
    exact haround front back (s := .substitute a b) hne rfl (fun h => absurd h Bool.false_ne_true)
      (by simp [AlignStep.source]) (by simp [AlignStep.target])
  | missing front back b =>
    exact haround front back (s := .insert b) trivial rfl (fun h => absurd h Bool.false_ne_true)
      (by simp [AlignStep.source]) (by simp [AlignStep.target])
  | @swapped front back a b hne =>
    exact haround front back (s := .transpose a b) hne rfl (fun h => absurd h Bool.false_ne_true)
      (by simp [AlignStep.source]) (by simp [AlignStep.target])
  | @extra front back a hfront hback =>
    exact haround front back (s := .delete a) trivial rfl (fun _ => ⟨hfront, hback⟩)
      (by simp [AlignStep.source]) (by simp [AlignStep.target])

/-- The error is made with one edit. -/
theorem edits (h : Mistyped typed key) : Edits key typed 1 := by
  have hsame (cs : List Char) : Edits cs cs 0 := .refl cs
  cases h with
  | substituted front back => exact (hsame front).append (.substitute (hsame back))
  | missing front back => exact (hsame front).append (.delete (hsame back))
  | swapped front back => exact (hsame front).append (.swap (hsame back))
  | @extra front back => exact (hsame front).append (.insert (hsame back))

theorem editDistance_append_le (h : Mistyped typed key) (rest : List Char) :
    editDistance (key ++ rest) (typed ++ rest) ≤ 1 :=
  editDistance_le_iff.2 ⟨1, Nat.le_refl 1, h.edits.append (.refl rest)⟩

end Mistyped

/-! ## Keys of stems -/

/-- A text without wildcards begins with the characters of a key that it has. -/
theorem KeyAt.eq_append {key text : List Char} (h : KeyAt key text) (hplain : wildcard ∉ text) :
    text = key ++ text.drop key.length := by
  induction key generalizing text with
  | nil => rfl
  | cons c key ih =>
    cases text with
    | nil => exact h.elim
    | cons d text =>
      obtain ⟨hd, hkey⟩ := h
      rw [List.mem_cons, not_or] at hplain
      obtain rfl := hd.resolve_right (Ne.symm hplain.1)
      rw [List.length_cons, List.drop_succ_cons, List.cons_append, ← ih hkey hplain.2]

namespace StemIndex

variable {g : Grammar} {limit : Nat} {index : StemIndex} {id : SubLexemeId} {sub : SubLexeme}
  {key typed rest text : List Char} {entry : StemEntry}

/-- A key is a literal part of the stem. -/
theorem of_keyOf?_eq_some (h : keyOf? limit id sub = some (key, entry)) :
    entry.sub = id ∧ key = (sub.pattern.drop entry.offset).take key.length ∧
      ∀ c ∈ key, isLiteral c = true := by
  obtain ⟨⟨offset, length⟩, hliteral, heq⟩ := Option.map_eq_some_iff.1 h
  obtain ⟨rfl, rfl⟩ := Prod.mk.inj heq
  obtain ⟨offset', -, hlength⟩ := Option.map_eq_some_iff.1 hliteral
  obtain ⟨rfl, rfl⟩ := Prod.mk.inj hlength
  have hprefix : ((sub.pattern.drop offset').take limit).takeWhile isLiteral <+:
      sub.pattern.drop offset' :=
    (List.takeWhile_prefix _).trans (List.take_prefix ..)
  have hkey := List.prefix_iff_eq_take.1 hprefix
  rw [← hkey]
  exact ⟨rfl, hkey, List.all_eq_true.1 List.all_takeWhile⟩

theorem wellNumbered_keys (hbuild : build g limit = .ok index) : index.keys.WellNumbered := by
  unfold build at hbuild
  obtain ⟨keys, hkeys, h⟩ := bind_eq_ok_iff.1 hbuild
  obtain rfl := Except.ok.inj h
  exact Transducer.wellNumbered_ofList hkeys

/-- The key of a stem is among those that are stored. -/
theorem mem_entries (hsub : g.subLexeme? id = some sub)
    (hkey : keyOf? limit id sub = some (key, entry)) :
    (key, entry) ∈ g.subLexemes.filterMap fun (id, sub) => keyOf? limit id sub :=
  List.mem_filterMap.2 ⟨(id, sub), Grammar.mem_subLexemes_iff.2 hsub, hkey⟩

/-- What the index finds says truly how a part of the text is made into the key of a stem. -/
theorem corrects_of_mem_lookup (hbuild : build g limit = .ok index) {maxEdits : Nat}
    {found : StemMatch} (hfound : found ∈ index.lookup text maxEdits) :
    ∃ sub key value, g.subLexeme? found.entry.sub = some sub ∧
      keyOf? limit found.entry.sub sub = some (key, found.entry) ∧
        (⟨found.start, found.stop, value, found.segment, found.edits⟩ : KeyMatch).Corrects text
          maxEdits key := by
  obtain ⟨m, hm, hvalue⟩ := List.mem_filterMap.1 hfound
  obtain ⟨entry, hentry, rfl⟩ := Option.map_eq_some_iff.1 hvalue
  have hs := stores_keys hbuild
  obtain ⟨key, x, hkey, hcorrects⟩ := hs.corrects_of_mem_matchesOf (wellNumbered_keys hbuild)
    (Transducer.isStart_search maxEdits 0 text) hm
  rw [hs.getElem?_values, hkey] at hentry
  obtain rfl : x = entry := Option.some.inj hentry
  obtain ⟨⟨id, sub⟩, hsub, hkeyOf⟩ := List.mem_filterMap.1 (List.mem_of_getElem? hkey)
  obtain ⟨rfl, -⟩ := of_keyOf?_eq_some hkeyOf
  exact ⟨sub, key, m.value, Grammar.mem_subLexemes_iff.1 hsub, hkeyOf, hcorrects⟩

/-- A stem that is found without edits is where the text has its key. -/
theorem key_of_mem_lookup (hbuild : build g limit = .ok index) {found : StemMatch}
    (hfound : found ∈ index.lookup text 0) : ∃ sub key, g.subLexeme? found.entry.sub = some sub ∧
      keyOf? limit found.entry.sub sub = some (key, found.entry) ∧
        found.segment.length = key.length ∧ KeyAt key (text.drop found.start) := by
  obtain ⟨sub, key, value, hsub, hkey, hcorrects⟩ := corrects_of_mem_lookup hbuild hfound
  have hnone : found.edits = [] := List.length_eq_zero_iff.1 (Nat.le_zero.1 hcorrects.edits_le)
  have hsegment := hcorrects.segment
  refine ⟨sub, key, hsub, hkey, hsegment.length_eq, ?_⟩
  rw [hcorrects.plain hnone, List.extract_eq_take_drop] at hsegment
  exact keyAt_of_forall₂_take hsegment

/-- `lookup` finds a stem whose key is `Mistyped` at the front of a word. The `correctedWord` has as
many characters in place of the key as the key has. -/
theorem exists_mem_lookup_of_mistyped (hbuild : build g limit = .ok index)
    (hsub : g.subLexeme? id = some sub) (hkey : keyOf? limit id sub = some (key, entry))
    (htyped : Mistyped typed key) (hne : typed ++ rest ≠ []) (hplain : wildcard ∉ typed ++ rest)
    (hcompletes : index.completes (typed ++ rest) 1 = true) :
    ∃ found ∈ index.lookup (typed ++ rest) 1, found.entry = entry ∧ found.start = 0 ∧
      found.segment.length = key.length ∧
        (if found.edits.isEmpty then typed ++ rest else found.correctedWord (typed ++ rest)) =
          found.segment ++ rest := by
  have hs := stores_keys hbuild
  obtain ⟨n, hn⟩ := List.getElem?_of_mem (mem_entries hsub hkey)
  obtain ⟨steps, kind, haligns, htrimmed, hkinds⟩ := htyped.exists_aligns
  have hpart : (typed ++ rest).extract 0 typed.length = typed := by
    rw [List.extract_eq_take_drop, List.drop_zero, Nat.sub_zero, List.take_left]
  rw [← hpart] at haligns
  obtain ⟨m, hm, rfl, hfirst, hstop⟩ := hs.exists_mem_lookup_of_trimmed (wellNumbered_keys hbuild)
    hplain hcompletes hn (List.length_pos_iff.2 hne) (Nat.zero_le _) (by simp) haligns htrimmed
    (by simp [hkinds]) (by simp [hkinds])
  obtain ⟨key', x, hentry, hcorrects⟩ := hs.corrects_of_mem_matchesOf (wellNumbered_keys hbuild)
    (Transducer.isStart_search 1 0 (typed ++ rest)) hm
  obtain ⟨rfl, -⟩ := Prod.mk.inj (Option.some.inj (hentry.symm.trans hn))
  refine ⟨⟨entry, m.start, m.stop, m.segment, m.edits⟩, ?_, rfl, hfirst,
    hcorrects.segment.length_eq, ?_⟩
  · -- The match is one of those that `lookup` returns, with the entry of the key.
    refine List.mem_filterMap.2 ⟨m, hm, ?_⟩
    rw [hs.getElem?_values, hn]
    rfl
  · show (if m.edits.isEmpty then typed ++ rest
      else (typed ++ rest).take m.start ++ m.segment ++ (typed ++ rest).drop m.stop) = _
    rw [hfirst, hstop, List.take_zero, List.nil_append, List.drop_left]
    split
    · -- Without edits the segment is what was typed.
      rename_i hedits
      have hsegment := hcorrects.plain (List.isEmpty_iff.1 hedits)
      rw [hfirst, hstop, Traversal.search, hpart] at hsegment
      rw [hsegment]
    · rfl

end StemIndex

/-! ## Words with corrections -/

namespace Analyzer

variable {g : Grammar} {config : ParserConfig} {a : Analyzer} {host : String} {w : Wordform}
  {id : SubLexemeId} {sub : SubLexeme} {key typed : List Char}

/-- A wordform is found in its own surface from a stem of a sub-lexeme. -/
def FindsFrom (a : Analyzer) (id : SubLexemeId) (w : Wordform) : Prop :=
  ∃ p ∈ a.placements w.wf.toList 0, p.sub = id ∧
    ∃ budget, w ∈ (a.matcher.run w.wf.toList 0 p budget).1

/-- With enough steps, a wordform is found with a correction, if no analysis without one stays when
the bad ones are dropped. -/
def Recovers (a : Analyzer) (host : String) (w : Wordform) : Prop :=
  ∃ n, ∀ budget : Budget, budget.exhausted = false → n ≤ budget.remaining →
    a.grammar.badAnalyses.filter (a.analyze host 0 budget).1 = [] → w ∈ (a.analyze host 1 budget).1

/-- A pass leaves as many steps as are wanted, if there are enough. -/
theorem exists_pass_leaves (a : Analyzer) (word : List Char) (maxEdits wanted : Nat) :
    ∃ n, ∀ budget : Budget, budget.exhausted = false → n ≤ budget.remaining →
      (a.pass word maxEdits budget).2.exhausted = false ∧
        wanted ≤ (a.pass word maxEdits budget).2.remaining := by
  have hsearches := a.searches_pass word maxEdits
  obtain ⟨n, hends⟩ := (hsearches.onlyCut _).ends
  obtain ⟨hexhausted, -⟩ := hends n (Nat.le_refl n)
  have hpass : a.pass word maxEdits (.fresh n) = ((a.pass word maxEdits (.fresh n)).1,
      .fresh (a.pass word maxEdits (.fresh n)).2.remaining) := by
    rw [← Budget.eq_fresh hexhausted]
  refine ⟨n + wanted, fun budget hbudget hle => ?_⟩
  obtain ⟨more, hmore⟩ := Nat.exists_eq_add_of_le ((Nat.le_add_right n wanted).trans hle)
  rw [Budget.eq_fresh hbudget, hmore, hsearches.add hpass more]
  refine ⟨rfl, ?_⟩
  show wanted ≤ _ + more
  omega

theorem anyAcceptable_eq_false {found : List Wordform}
    (h : a.grammar.badAnalyses.filter found = []) :
    a.anyAcceptable found = false := by
  rw [Bool.eq_false_iff, ne_eq, anyAcceptable_iff, Grammar.postprocess_ne_nil_iff,
    ← BadAnalyses.filter_ne_nil_iff]
  exact fun hne => hne h

/-- What a placement with a correction leads to is found. -/
theorem recovers_of_mem_placements (hcorrect : a.mayCorrect host = true) {p : Placement}
    (hp : p ∈ a.placements host.toList 1) (hyields : a.matcher.Yields host.toList 1 (.start p) w) :
    a.Recovers host w := by
  obtain ⟨wanted, hpass⟩ := exists_pass a host.toList 1
  obtain ⟨n, hleaves⟩ := exists_pass_leaves a host.toList 0 wanted
  refine ⟨n, fun budget hbudget hn hnone => ?_⟩
  obtain ⟨hexhausted, hleft⟩ := hleaves budget hbudget hn
  have hbad := anyAcceptable_eq_false hnone
  rw [analyze_zero] at hbad
  -- The pass with a correction takes the place of the one without.
  have hanalyze : a.analyze host 1 budget =
      a.pass host.toList 1 (a.pass host.toList 0 budget).2 := by
    simp [analyze, hbad, hexhausted, hcorrect]
  rw [hanalyze]
  exact (hpass _ hexhausted hleft w).2 ⟨p, hp, hyields⟩

/-- A stem that is placed without edits is where the word has its key: `KeyAt` holds of it there. -/
theorem key_of_mem_placements (hbuild : build g config = .ok a) {word : List Char} {p : Placement}
    (hp : p ∈ a.placements word 0) : ∃ sub key, g.subLexeme? p.sub = some sub ∧
      StemIndex.keyOf? config.maxStemStartLen p.sub sub = some (key, ⟨p.sub, p.patternStart⟩) ∧
        KeyAt key (word.drop p.wordStart) ∧
          p = ⟨word, p.sub, sub.pattern, p.wordStart, p.patternStart, key.length⟩ := by
  have hgrammar := grammar_of_build hbuild
  obtain ⟨stems, affixes, incorporations, hstems, -, -, heq, -⟩ := build_eq_ok hbuild
  obtain ⟨found, hfound, hplace⟩ := List.mem_filterMap.1 hp
  obtain ⟨hlookup, -⟩ := List.mem_filter.1 hfound
  obtain ⟨sub, hsub, rfl⟩ := Option.map_eq_some_iff.1 hplace
  rw [heq] at hlookup
  obtain ⟨hedits, -⟩ := StemIndex.exact_of_mem_lookup hstems hlookup
  obtain ⟨sub', key, hsub', hkey, hlength, hat⟩ := StemIndex.key_of_mem_lookup hstems hlookup
  have hsub : g.subLexeme? found.entry.sub = some sub := by rwa [grammar, hgrammar] at hsub
  obtain rfl : sub' = sub := Option.some.inj (hsub'.symm.trans hsub)
  -- Without edits the word of the placement is the word itself.
  refine ⟨sub', key, hsub, hkey, hat, ?_⟩
  simp only [hedits, hlength]
  rfl

/-- If `FindsFrom` leads to a wordform from a stem whose pattern begins with its key, the wordform
begins with the key, and the stem stands at its front. -/
theorem FindsFrom.exists_placement (h : a.FindsFrom id w) (hbuild : build g config = .ok a)
    (hnone : g.NoneInFront) (hsub : g.subLexeme? id = some sub)
    (hkey : StemIndex.keyOf? config.maxStemStartLen id sub = some (key, ⟨id, 0⟩)) (hne : key ≠ [])
    (hplain : wildcard ∉ w.wf.toList) :
    w.wf.toList = key ++ w.wf.toList.drop key.length ∧
      a.matcher.Yields w.wf.toList 0
        (.start ⟨w.wf.toList, id, sub.pattern, 0, 0, key.length⟩) w := by
  obtain ⟨p, hp, rfl, budget, hw⟩ := h
  have hyields := Matcher.yields_of_mem_run hw
  obtain ⟨sub', key', hsub', hkey', hat, hplace⟩ := key_of_mem_placements hbuild hp
  obtain rfl : sub' = sub := Option.some.inj (hsub'.symm.trans hsub)
  obtain ⟨rfl, hentry⟩ := Prod.mk.inj (Option.some.inj (hkey'.symm.trans hkey))
  have hoffset : p.patternStart = 0 := congrArg StemEntry.offset hentry
  rw [hoffset] at hplace
  rw [hplace] at hyields
  -- The search reads the first character of the key before anything else.
  obtain ⟨-, hpattern, hliteral⟩ := StemIndex.of_keyOf?_eq_some hkey
  have hlength := List.length_pos_iff.2 hne
  have hc : sub'.pattern[0]? = some key'[0] := by
    rw [List.drop_zero] at hpattern
    rw [← List.getElem?_take_of_lt hlength, ← hpattern]
    exact List.getElem?_eq_getElem hlength
  -- Nothing comes in front of the stem, so it stands at the front of the word.
  have hnone' : a.matcher.grammar.NoneInFront := by
    rw [grammar_of_build hbuild]
    exact hnone
  have hstart : p.wordStart = 0 := hyields.wordStart_eq_zero hnone' rfl hlength hc
    (hliteral _ (List.getElem_mem hlength))
  rw [hstart] at hat hyields
  exact ⟨hat.eq_append hplain, hyields⟩

/-- With enough steps, a pass finds in a host the wordforms that are found from its stems. -/
theorem exists_mem_pass_iff_findsFrom (a : Analyzer) (host : String) :
    ∃ n, ∀ budget : Budget, budget.exhausted = false → n ≤ budget.remaining → ∀ w, w.wf = host →
      (w ∈ (a.pass host.toList 0 budget).1 ↔ ∃ id, a.FindsFrom id w) := by
  obtain ⟨n, hpass⟩ := exists_pass a host.toList 0
  refine ⟨n, fun budget hbudget hn w hwf => ?_⟩
  rw [hpass budget hbudget hn w]
  subst hwf
  constructor
  · rintro ⟨p, hp, hyields⟩
    obtain ⟨n, hrun⟩ := Matcher.exists_run a.matcher w.wf.toList 0 p
    exact ⟨p.sub, p, hp, rfl, .fresh n, ((hrun (.fresh n) (Nat.le_refl n)).2 w).2 hyields⟩
  · rintro ⟨id, p, hp, -, budget, hw⟩
    exact ⟨p, hp, Matcher.yields_of_mem_run hw⟩

/-- **A mistyped stem is recovered.**  A word whose stem is `Mistyped`, within the key, is
corrected: if the wordform is found when it is typed rightly (`FindsFrom`), it is found for what was
typed (`Recovers`). -/
theorem recovers_of_mistyped {d : GrammarDraft} (hbuild : build d.compile.grammar config = .ok a)
    (hself : ∀ id i, d.compile.grammar.inflexion? id = some i → i.isLink = false →
      ∀ p ∈ i.parts, p.role ≠ .startWithSelf)
    (hsub : d.compile.grammar.subLexeme? id = some sub)
    (hkey : StemIndex.keyOf? config.maxStemStartLen id sub = some (key, ⟨id, 0⟩))
    (hlong : config.minReplacementStemLen ≤ key.length) (hfinds : a.FindsFrom id w)
    (htyped : Mistyped typed key) (hhost : host.toList = typed ++ w.wf.toList.drop key.length)
    (hne : host ≠ "") (hplain : wildcard ∉ w.wf.toList) (hplain' : wildcard ∉ host.toList)
    (hword : config.minReplacementWordLen ≤ w.wf.length)
    (hword' : config.minReplacementWordLen ≤ host.length)
    (hfree : a.noReplacements.any (·.isMatch host) = false)
    (hcompletes : a.stems.completes host.toList 1 = true) : a.Recovers host w := by
  have hnone : d.compile.grammar.NoneInFront := fun id i hi hlink =>
    (d.wellFormed_of_compile hi).startWithSelf_eq_false (hself id i hi hlink)
  have hgrammar := grammar_of_build hbuild
  have hlimits := limits_of_build hbuild
  obtain ⟨hwf, hyields⟩ :=
    hfinds.exists_placement hbuild hnone hsub hkey htyped.key_ne_nil hplain
  generalize hrest : w.wf.toList.drop key.length = rest at hwf hhost
  -- The stem is looked up in what was typed, and its placement there is that of the right word.
  obtain ⟨stems, -, -, hstems, -, -, hindex, -⟩ := build_eq_ok hbuild
  have hnonempty : host.toList ≠ [] := fun hnil => hne (String.toList_eq_nil_iff.1 hnil)
  rw [hhost] at hnonempty hplain' hcompletes
  rw [hindex] at hcompletes
  obtain ⟨found, hfound, hentry, hstart, hlength, hcorrected⟩ :=
    StemIndex.exists_mem_lookup_of_mistyped hstems hsub hkey htyped hnonempty hplain' hcompletes
  obtain ⟨-, hpattern, hliteral⟩ := StemIndex.of_keyOf?_eq_some hkey
  have hp : (⟨found.segment ++ rest, id, sub.pattern, 0, 0, key.length⟩ : Placement) ∈
      a.placements host.toList 1 := by
    refine List.mem_filterMap.2 ⟨found, List.mem_filter.2 ⟨?_, ?_⟩, ?_⟩
    · -- The placement is found by the look-up with one edit.
      rw [hhost, hindex]
      exact hfound
    · rw [minReplacementStemLen_of_build hbuild, hlength]
      simpa using hlong
    · rw [placement?, grammar, hgrammar, hentry, hsub, hhost]
      simp only [Option.map_some, hcorrected, hstart, hlength]
  -- It differs from the placement in the right word only in the characters of the key.
  have hmirrors : (⟨found.segment ++ rest, id, sub.pattern, 0, 0, key.length⟩ : Placement).Mirrors
      ⟨w.wf.toList, id, sub.pattern, 0, 0, key.length⟩ := {
    sub := rfl
    pattern := rfl
    length := rfl
    front := ⟨rfl, rfl, rfl⟩
    literal := by
      show ∀ c ∈ sub.pattern.take key.length, isLiteral c = true
      rwa [← List.drop_zero (l := sub.pattern), ← hpattern]
    word := by
      show AgreeFrom key.length w.wf.toList (found.segment ++ rest)
      rw [hwf]
      exact .of_append hlength rest }
  have hanswers : a.matcher.answers host.toList 1 w.wf.toList = true := by
    have hdistance := htyped.editDistance_append_le rest
    rw [← hhost, ← hwf] at hdistance
    rw [← String.length_toList] at hword hword'
    simp [Matcher.answers, hlimits, hword, hword', hdistance]
  -- The pass with one edit is made, and finds what is placed there.
  refine recovers_of_mem_placements ?_ hp ?_
  · simp [mayCorrect, hlimits, hword', hfree]
  · refine hyields.placedAt (looksAhead_of_build hbuild) ?_ hmirrors rfl ?_ hanswers
    · rw [hgrammar]
      exact hnone
    · exact .within rfl rfl rfl (List.length_pos_iff.2 htyped.key_ne_nil)

/-- Settings with which words and stems of any length are corrected. -/
def correctingAll : ParserConfig :=
  { (default : ParserConfig) with minReplacementStemLen := 0, minReplacementWordLen := 0 }

theorem recovers_of_mistyped_sampleNouns :
    ∃ a w, build ((GrammarDraft.start default).add sampleNouns).compile.grammar correctingAll =
        .ok a ∧ w.wf = "catsm" ∧ a.FindsFrom ⟨⟨1, 0⟩, 0⟩ w ∧ a.Recovers "actsm" w ∧
          (∀ budget, (a.analyze "actsm" 0 budget).1 = []) ∧ a.Recovers "casm" w := by
  let g := ((GrammarDraft.start default).add sampleNouns).compile.grammar
  have hfound : ((build g correctingAll).toOption.any fun a =>
      (a.placements "catsm".toList 0).any (fun p => p.sub == ⟨⟨1, 0⟩, 0⟩ &&
        (a.matcher.run "catsm".toList 0 p (.fresh 100)).1.any (·.wf == "catsm")) &&
      a.noReplacements.isNone && a.stems.completes "actsm".toList 1 &&
      a.stems.completes "casm".toList 1 && a.placements "actsm".toList 0 == [] &&
      a.generated "actsm" == []) = true := by
    decide +kernel
  obtain ⟨a, hbuild, htests⟩ := exists_eq_ok_of_any hfound
  simp only [Bool.and_eq_true, List.any_eq_true, beq_iff_eq, Option.isNone_iff_eq_none] at htests
  obtain ⟨⟨⟨⟨⟨⟨p, hp, hid, w, hw, hwf⟩, hfree⟩, hswapped⟩, hmissing⟩, hplace⟩, hgenerated⟩ := htests
  have hsuffix : g.Suffixing := by decide +kernel
  have hstem : ∃ sub ∈ g.subLexeme? ⟨⟨1, 0⟩, 0⟩, StemIndex.keyOf? 6 ⟨⟨1, 0⟩, 0⟩ sub =
      some ("cat".toList, ⟨⟨⟨1, 0⟩, 0⟩, 0⟩) := by
    decide +kernel
  obtain ⟨sub, hsub, hkey⟩ := hstem
  -- The right word is found.
  have hfinds : a.FindsFrom ⟨⟨1, 0⟩, 0⟩ w := by
    refine ⟨p, ?_, hid, .fresh 100, ?_⟩ <;> rw [hwf] <;> assumption
  have hself : ∀ id i, g.inflexion? id = some i → i.isLink = false →
      ∀ p ∈ i.parts, p.role ≠ .startWithSelf :=
    fun id i hi hlink => (hsuffix.suffix id i hi hlink).self
  have hnone (host : String) : a.noReplacements.any (·.isMatch host) = false := by simp [hfree]
  have hplain : wildcard ∉ w.wf.toList := by
    rw [hwf]
    decide
  refine ⟨a, w, hbuild, hwf, hfinds, ?_, fun budget => ?_, ?_⟩
  · have htyped : Mistyped "act".toList "cat".toList := .swapped [] ['t'] (by decide)
    exact recovers_of_mistyped hbuild hself hsub hkey (Nat.zero_le _) hfinds htyped
      (by rw [hwf]; decide) (by decide) hplain (by decide) (Nat.zero_le _) (Nat.zero_le _) (hnone _)
      hswapped
  · -- Without edits nothing is found for what was typed.
    rw [analyze_zero, pass, hplace, hgenerated]
    rfl
  · have htyped : Mistyped "ca".toList "cat".toList := .missing ['c', 'a'] [] 't'
    exact recovers_of_mistyped hbuild hself hsub hkey (Nat.zero_le _) hfinds htyped
      (by rw [hwf]; decide) (by decide) hplain (by decide) (Nat.zero_le _) (Nat.zero_le _) (hnone _)
      hmissing

/-! ## The empty word -/

/-- No stem is looked up in an empty word, whatever the corrections. -/
theorem pass_nil (a : Analyzer) (maxEdits : Nat) (budget : Budget) :
    a.pass [] maxEdits budget = ([], budget) := by
  have hlookup : a.stems.lookup [] maxEdits = [] := by
    refine List.filterMap_eq_nil_iff.2 fun m hm => ?_
    obtain ⟨-, hlt, -⟩ := Transducer.start_mem_range_of_mem_matchesOf
      (Transducer.isStart_search maxEdits 0 []) hm
    exact absurd hlt (Nat.not_lt_zero m.start)
  rw [pass, placements, hlookup]
  rfl

theorem analyze_empty (h : a.generated "" = []) (maxEdits : Nat) (budget : Budget) :
    (a.analyze "" maxEdits budget).1 = [] := by
  simp [analyze, pass_nil, h]

/-- Nothing is recovered from an empty word. -/
theorem not_recovers_of_generated_eq_nil (h : a.generated "" = []) (w : Wordform) :
    ¬ a.Recovers "" w := by
  rintro ⟨n, hrecovers⟩
  have hfound := hrecovers (.fresh n) rfl (Nat.le_refl n) (by rw [analyze_empty h]; rfl)
  rw [analyze_empty h] at hfound
  exact absurd hfound List.not_mem_nil

/-- Nouns with a stem of one letter. -/
def sampleLetter : GrammarDocument :=
  { GrammarDocument.empty with
    paradigms := [⟨"Noun", [.ofFlex "." "sg" "" []], []⟩]
    lexemes := [⟨"a", "a.", ["Noun"], "N", "cut", [], none, false, none⟩] }

/-- If the only character is missing, there is no place where it could be put in. -/
theorem not_recovers_empty :
    ∃ a w, build ((GrammarDraft.start default).add sampleLetter).compile.grammar correctingAll =
        .ok a ∧ ((GrammarDraft.start default).add sampleLetter).compile.grammar.Suffixing ∧
      (∃ sub ∈ ((GrammarDraft.start default).add sampleLetter).compile.grammar.subLexeme?
          ⟨⟨1, 0⟩, 0⟩, StemIndex.keyOf? correctingAll.maxStemStartLen ⟨⟨1, 0⟩, 0⟩ sub =
        some (['a'], ⟨⟨⟨1, 0⟩, 0⟩, 0⟩)) ∧
      a.FindsFrom ⟨⟨1, 0⟩, 0⟩ w ∧ w.wf = "a" ∧ Mistyped [] ['a'] ∧
      a.noReplacements.any (·.isMatch "") = false ∧ a.stems.completes [] 1 = true ∧
      ¬ a.Recovers "" w := by
  let g := ((GrammarDraft.start default).add sampleLetter).compile.grammar
  have hfound : ((build g correctingAll).toOption.any fun a =>
      (a.placements "a".toList 0).any (fun p => p.sub == ⟨⟨1, 0⟩, 0⟩ &&
        (a.matcher.run "a".toList 0 p (.fresh 100)).1.any (·.wf == "a")) &&
      a.noReplacements.isNone && a.stems.completes [] 1 && a.generated "" == []) = true := by
    decide +kernel
  obtain ⟨a, hbuild, htests⟩ := exists_eq_ok_of_any hfound
  simp only [Bool.and_eq_true, List.any_eq_true, beq_iff_eq, Option.isNone_iff_eq_none] at htests
  obtain ⟨⟨⟨⟨p, hp, hid, w, hw, hwf⟩, hfree⟩, hcompletes⟩, hgenerated⟩ := htests
  refine ⟨a, w, hbuild, by decide +kernel, by decide +kernel, ⟨p, ?_, hid, .fresh 100, ?_⟩, hwf,
    .missing [] [] 'a', by simp [hfree], hcompletes, not_recovers_of_generated_eq_nil hgenerated w⟩
  · rw [hwf]
    exact hp
  · rw [hwf]
    exact hw

end Analyzer

end Morphology
