import Morphology.Analysis.Analyzer
import Morphology.Proofs.Grammar.StemSlots
import Morphology.Proofs.Search.Chains
import Morphology.Proofs.Transducer.ExactLookup

/-!
# What the indices of a grammar hold

The indices of an analyzer are built from its grammar: every paradigm has a table of all its
inflexions, every stem with literal characters has a key, and what may be incorporated is a
sub-lexeme with a form for it.

## Main definitions

* `AffixIndex.completes`, `StemIndex.completes` — no look-up is given up
* `Grammar.MayBeIncorporated`, `Grammar.MayIncorporate` — the sub-lexemes that other words may
  contain, and where

## Main statements

* `Analyzer.build_eq_ok` — the parts of an analyzer that is built
* `AffixIndex.tables_of_build` — the table of a paradigm
* `AffixIndex.mem_candidates` — an inflexion whose key the word has is a candidate
* `IncorporationIndex.incorporated_of_mem` — what the index of incorporated stems finds
-/

namespace Morphology

universe u

open Transducer (BuildError)

/-! ## Items of an arena -/

namespace Arena

variable {α : Type u} {a : Arena α} {h : Handle} {x : α}

/-- The items of an arena are those under its handles. -/
theorem mem_toList_iff : (h, x) ∈ a.toList ↔ a.get? h = some x := by
  obtain ⟨name, n⟩ := h
  simp only [toList, List.mem_map, get?]
  constructor
  · rintro ⟨⟨y, i⟩, hmem, heq⟩
    obtain ⟨⟨rfl, rfl⟩, rfl⟩ : (a.name = name ∧ i = n) ∧ y = x := by simpa using heq
    simpa [List.mem_zipIdx_iff_getElem?] using hmem
  · intro hget
    split at hget
    · rename_i hname
      refine ⟨(x, n), ?_, by simp [hname]⟩
      simpa [List.mem_zipIdx_iff_getElem?] using hget
    · exact absurd hget (by simp)

end Arena

/-- The sub-lexemes listed are those under their addresses. -/
theorem Grammar.mem_subLexemes_iff {g : Grammar} {id : SubLexemeId} {sub : SubLexeme} :
    (id, sub) ∈ g.subLexemes ↔ g.subLexeme? id = some sub := by
  obtain ⟨h, n⟩ := id
  simp only [subLexemes, subLexeme?, lexeme?, List.mem_flatMap, Option.bind_eq_some_iff]
  constructor
  · rintro ⟨⟨h', lexeme⟩, hmem, hsub⟩
    obtain ⟨⟨sub', i⟩, hi, heq⟩ := List.mem_map.1 hsub
    obtain ⟨⟨rfl, rfl⟩, rfl⟩ : (h' = h ∧ i = n) ∧ sub' = sub := by simpa using heq
    exact ⟨lexeme, Arena.mem_toList_iff.1 hmem, List.mem_zipIdx_iff_getElem?.1 hi⟩
  · rintro ⟨lexeme, hlexeme, hsub⟩
    exact ⟨(h, lexeme), Arena.mem_toList_iff.2 hlexeme,
      List.mem_map.2 ⟨(sub, n), List.mem_zipIdx_iff_getElem?.2 hsub, rfl⟩⟩

/-! ## Tables of inflexions -/

namespace AffixIndex

/-- The table of one paradigm under its handle. -/
private def entryOf (e : Handle × Paradigm) : Except BuildError (Handle × AffixTable) :=
  (tableOf e.2.inflexions).map fun table => (e.1, table)

private theorem lookup_of_mapM_entryOf {entries : List (Handle × Paradigm)}
    {tables : List (Handle × AffixTable)} {h : Handle} (hmap : entries.mapM entryOf = .ok tables)
    (hmem : ∃ p, (h, p) ∈ entries) :
    ∃ p table, (h, p) ∈ entries ∧ tableOf p.inflexions = .ok table ∧
      tables.lookup h = some table := by
  induction entries generalizing tables with
  | nil =>
    obtain ⟨p, hp⟩ := hmem
    exact absurd hp List.not_mem_nil
  | cons e rest ih =>
    obtain ⟨h', p'⟩ := e
    simp only [List.mapM_cons, bind_eq_ok_iff] at hmap
    obtain ⟨entry, hentry, tables', hrest, heq⟩ := hmap
    obtain ⟨table, htable, rfl⟩ := map_eq_ok_iff.1 hentry
    obtain rfl := Except.ok.inj heq
    -- The first table under a handle is found, and there is no other under it.
    by_cases heq : h = h'
    · subst heq
      exact ⟨p', table, List.mem_cons_self .., htable, by simp⟩
    · -- The table looked for is further back.
      obtain ⟨p, hp⟩ := hmem
      have hp' : (h, p) ∈ rest := by
        rcases List.mem_cons.1 hp with hp | hp
        · exact absurd (congrArg Prod.fst hp) heq
        · exact hp
      obtain ⟨p₁, table₁, hmem₁, htable₁, hlookup⟩ := ih hrest ⟨p, hp'⟩
      refine ⟨p₁, table₁, List.mem_cons_of_mem _ hmem₁, htable₁, ?_⟩
      rw [List.lookup_cons, beq_eq_false_iff_ne.2 heq]
      exact hlookup

variable {g : Grammar} {index : AffixIndex}

/-- Every paradigm has the table of its inflexions. -/
theorem tables_of_build (hbuild : build g = .ok index) {h : Handle} {p : Paradigm}
    (hp : g.paradigm? h = some p) :
    ∃ table, index.tables.get? h = some table ∧ tableOf p.inflexions = .ok table := by
  change (g.paradigms.arena.toList.mapM entryOf).map (fun tables => ⟨⟨tables⟩⟩) = .ok index
    at hbuild
  obtain ⟨tables, hmap, rfl⟩ := map_eq_ok_iff.1 hbuild
  obtain ⟨p', table, hmem, htable, hlookup⟩ :=
    lookup_of_mapM_entryOf hmap ⟨p, Arena.mem_toList_iff.2 hp⟩
  obtain rfl : p' = p := Option.some.inj ((Arena.mem_toList_iff.1 hmem).symm.trans hp)
  exact ⟨table, hlookup, htable⟩

/-- A table stores the keys of all inflexions. -/
theorem stores_tableOf {inflexions : List Inflexion} {table : AffixTable}
    (h : tableOf inflexions = .ok table) :
    table.anchored.Stores (inflexions.zipIdx.map fun (i, n) => (i.anchoredKey, n)) ∧
      table.slot.Stores (inflexions.zipIdx.map fun (i, n) => (i.slotKey, n)) := by
  unfold tableOf at h
  obtain ⟨anchored, hanchored, h⟩ := bind_eq_ok_iff.1 h
  obtain ⟨slot, hslot, h⟩ := bind_eq_ok_iff.1 h
  obtain rfl := Except.ok.inj h
  exact ⟨Transducer.stores_ofList hanchored, Transducer.stores_ofList hslot⟩

/-- Whether no look-up of the tables in a text is given up. -/
def completes (index : AffixIndex) (text : List Char) : Bool :=
  index.tables.entries.all fun (_, table) => (List.range (text.length + 1)).all fun pos =>
    table.anchored.completes (.anchored pos text) && table.slot.completes (.anchored pos text)

/-- An inflexion whose key the word has at a place, in the sense of `KeyAt`, is among the
`candidates` there. -/
theorem mem_candidates (hbuild : build g = .ok index) {word : List Char}
    (hcompletes : index.completes word = true) {id : InflexionId} {i : Inflexion}
    (hi : g.inflexion? id = some i) {pos : Nat} (hpos : pos ≤ word.length) {slot : Bool}
    (hkey : KeyAt (if slot then i.slotKey else i.anchoredKey) (word.drop pos)) :
    id ∈ index.candidates id.paradigm word pos slot := by
  -- The paradigm of the inflexion has a table that stores both keys of it.
  obtain ⟨p, hp, hget⟩ := Grammar.paradigm?_of_inflexion? hi
  obtain ⟨table, hlookup, htable⟩ := tables_of_build hbuild hp
  obtain ⟨hanchored, hslot⟩ := stores_tableOf htable
  have hentry : (id.paradigm, table) ∈ index.tables.entries := by
    obtain ⟨front, back, heq, -⟩ := List.lookup_eq_some_iff.1 hlookup
    rw [heq]
    exact List.mem_append_right _ (List.mem_cons_self ..)
  have hcomplete := List.all_eq_true.1 hcompletes (id.paradigm, table) hentry
  have hhere := List.all_eq_true.1 hcomplete pos (List.mem_range.2 (Nat.lt_succ_of_le hpos))
  obtain ⟨hcanchored, hcslot⟩ := Bool.and_eq_true_iff.1 hhere
  -- Its place in the paradigm is stored under both keys.
  have hmem : (i, id.index) ∈ p.inflexions.zipIdx := List.mem_zipIdx_iff_getElem?.2 hget
  simp only [candidates, hlookup]
  refine List.mem_map.2 ⟨id.index, mem_numberSet.2 ?_, rfl⟩
  -- With the slot taken, the key for the slot counts, otherwise the anchored one.
  cases slot with
  | false =>
    apply hanchored.mem_valuesAt (List.mem_map.2 ⟨_, hmem, rfl⟩) hcanchored hpos
    simpa using hkey
  | true =>
    apply hslot.mem_valuesAt (List.mem_map.2 ⟨_, hmem, rfl⟩) hcslot hpos
    simpa using hkey

theorem paradigm_of_mem_candidates {h : Handle} {word : List Char} {pos : Nat} {slot : Bool}
    {id : InflexionId} (hid : id ∈ index.candidates h word pos slot) : id.paradigm = h := by
  unfold candidates at hid
  split at hid
  · exact absurd hid List.not_mem_nil
  · obtain ⟨n, -, rfl⟩ := List.mem_map.1 hid
    rfl

end AffixIndex

/-! ## Stems -/

theorem withoutBreaks_append (s s' : List Char) :
    withoutBreaks (s ++ s') = withoutBreaks s ++ withoutBreaks s' :=
  List.filter_append ..

/-- Breaks are not literal. -/
theorem withoutBreaks_eq_self {s : List Char} (h : ∀ c ∈ s, isLiteral c = true) :
    withoutBreaks s = s := by
  rw [withoutBreaks, List.filter_eq_self]
  intro c hc
  rw [bne_iff_ne]
  rintro rfl
  exact absurd (h _ hc) (by decide)

namespace StemIndex

variable {g : Grammar} {limit : Nat} {index : StemIndex}

/-- Whether no look-up of the stems in a text is given up. -/
def completes (index : StemIndex) (text : List Char) (maxEdits : Nat) : Bool :=
  index.keys.completes (.search maxEdits 0 text)

/-- The index stores the keys of all sub-lexemes. -/
theorem stores_keys (hbuild : build g limit = .ok index) :
    index.keys.Stores (g.subLexemes.filterMap fun (id, sub) => keyOf? limit id sub) := by
  unfold build at hbuild
  obtain ⟨keys, hkeys, h⟩ := bind_eq_ok_iff.1 hbuild
  obtain rfl := Except.ok.inj h
  exact Transducer.stores_ofList hkeys

/-- If all stems have keys, none is left over. -/
theorem keyless_eq_nil (hbuild : build g limit = .ok index)
    (hkeys : ∀ id sub, g.subLexeme? id = some sub → (keyOf? limit id sub).isSome = true) :
    index.keyless = [] := by
  obtain ⟨keys, -, h⟩ := bind_eq_ok_iff.1 hbuild
  obtain rfl := Except.ok.inj h
  show g.subLexemes.filterMap _ = []
  rw [List.filterMap_eq_nil_iff]
  rintro ⟨id, sub⟩ hmem
  have hkey := hkeys id sub (Grammar.mem_subLexemes_iff.1 hmem)
  simp [Option.isNone_iff_eq_none, ← Option.not_isSome_iff_eq_none, hkey]

/-- The key of a stem is the first stretch of it that words have as it stands. -/
theorem exists_keyOf?_eq (limit : Nat) (id : SubLexemeId) {sub : SubLexeme} {stem : List Char}
    (hpattern : sub.pattern = stem ++ [boundary]) (hliteral : ∃ c ∈ stem, isLiteral c = true) :
    ∃ front key back, stem = front ++ key ++ back ∧ (∀ c ∈ key, isLiteral c = true) ∧
      (∃ c ∈ key ++ back, isLiteral c = true) ∧
      keyOf? limit id sub = some (key, ⟨id, front.length⟩) := by
  have hlt := List.findIdx_lt_length_of_exists hliteral
  have hget := List.findIdx_getElem (w := hlt)
  have hindex : sub.pattern.findIdx? isLiteral = some (stem.findIdx isLiteral) := by
    have hmem : ∃ c ∈ sub.pattern, isLiteral c = true := by
      obtain ⟨c, hc, hlit⟩ := hliteral
      exact ⟨c, by simp [hpattern, hc], hlit⟩
    rw [List.findIdx?_eq_some_of_exists hmem, hpattern, List.findIdx_append, if_pos hlt]
  generalize stem.findIdx isLiteral = offset at hlt hget hindex
  have hdrop : sub.pattern.drop offset = stem.drop offset ++ [boundary] := by
    rw [hpattern, List.drop_append_of_le_length (Nat.le_of_lt hlt)]
  have hkey : ∃ key, ((sub.pattern.drop offset).take limit).takeWhile isLiteral = key := ⟨_, rfl⟩
  obtain ⟨key, hkey⟩ := hkey
  have hall : ∀ c ∈ key, isLiteral c = true := by
    rw [← hkey]
    exact List.all_eq_true.1 List.all_takeWhile
  have hprefix : key <+: sub.pattern.drop offset := by
    rw [← hkey]
    exact (List.takeWhile_prefix _).trans (List.take_prefix ..)
  -- The boundary at the end is not literal, so the key ends in front of it.
  obtain ⟨back, hback⟩ : key <+: stem.drop offset := by
    have hconcat := hprefix
    rw [hdrop] at hconcat
    rcases List.prefix_concat_iff.1 hconcat with heq | hinit
    · have := hall boundary (by simp [heq])
      exact absurd this (by decide)
    · exact hinit
  refine ⟨stem.take offset, key, back, ?_, hall, ?_, ?_⟩
  · rw [List.append_assoc, hback, List.take_append_drop]
  · rw [hback]
    refine ⟨stem[offset], ?_, hget⟩
    rw [List.drop_eq_getElem_cons hlt]
    exact List.mem_cons_self ..
  · have hlen : (stem.take offset).length = offset := by
      rw [List.length_take]
      omega
    simp only [keyOf?, literalKey?, hindex, Option.map_some, hkey, hlen]
    rw [← List.prefix_iff_eq_take.1 hprefix]

/-- The index finds a stem at the front of a word, its key being where the rest puts it. -/
theorem exists_mem_lookup (hbuild : build g limit = .ok index) {id : SubLexemeId} {sub : SubLexeme}
    (hsub : g.subLexeme? id = some sub) {stem : List Char}
    (hpattern : sub.pattern = stem ++ [boundary]) (hliteral : ∃ c ∈ stem, isLiteral c = true)
    {text : List Char} (hcompletes : index.completes (withoutBreaks stem ++ text) 0 = true) :
    ∃ front key back found, stem = front ++ key ++ back ∧ (∀ c ∈ key, isLiteral c = true) ∧
      found ∈ index.lookup (withoutBreaks stem ++ text) 0 ∧ found.entry = ⟨id, front.length⟩ ∧
      found.start = (withoutBreaks front).length ∧ found.segment.length = key.length ∧
      found.edits = [] := by
  obtain ⟨front, key, back, hstem, hkey, ⟨c, hc, hlit⟩, hentry⟩ :=
    exists_keyOf?_eq limit id hpattern hliteral
  have hstores := stores_keys hbuild
  have hmem : (key, (⟨id, front.length⟩ : StemEntry)) ∈ g.subLexemes.filterMap fun (id, sub) =>
      keyOf? limit id sub :=
    List.mem_filterMap.2 ⟨(id, sub), Grammar.mem_subLexemes_iff.2 hsub, hentry⟩
  obtain ⟨n, hn⟩ := List.getElem?_of_mem hmem
  have hsplit : withoutBreaks stem = withoutBreaks front ++ withoutBreaks (key ++ back) := by
    rw [hstem, List.append_assoc, withoutBreaks_append]
  -- Something is left of the stem where the key begins.
  have hstart : (withoutBreaks front).length < (withoutBreaks stem ++ text).length := by
    have hlater : c ∈ withoutBreaks (key ++ back) := by
      refine List.mem_filter.2 ⟨hc, ?_⟩
      rw [bne_iff_ne]
      rintro rfl
      exact absurd hlit (by decide)
    have hpos := List.length_pos_of_mem hlater
    rw [hsplit, List.length_append, List.length_append]
    omega
  -- The key has no breaks, so the word has it as it is.
  have htext : KeyAt key ((withoutBreaks stem ++ text).drop (withoutBreaks front).length) := by
    rw [hsplit, List.append_assoc, List.drop_left, withoutBreaks_append,
      withoutBreaks_eq_self hkey, List.append_assoc]
    exact KeyAt.refl_append ..
  have hsearch := Transducer.isStart_search 0 0 (withoutBreaks stem ++ text)
  obtain ⟨found, hfound, hfirst, hvalue, hlength⟩ := hstores.exists_mem_matchesOf hsearch
    hcompletes hn (Nat.zero_le _) hstart (Nat.le_of_lt hstart) htext
  obtain ⟨hedits, -⟩ := hstores.exact_of_mem_matchesOf hsearch rfl hfound
  refine ⟨front, key, back,
    ⟨⟨id, front.length⟩, found.start, found.stop, found.segment, found.edits⟩, hstem, hkey, ?_,
    rfl, hfirst, hlength, hedits⟩
  refine List.mem_filterMap.2 ⟨found, hfound, ?_⟩
  rw [hstores.getElem?_values, hvalue, hn]
  rfl

/-- A stem that is found without edits lies in the word. -/
theorem exact_of_mem_lookup (hbuild : build g limit = .ok index) {text : List Char}
    {found : StemMatch} (hfound : found ∈ index.lookup text 0) :
    found.edits = [] ∧ found.stop ≤ text.length ∧
      found.stop = found.start + found.segment.length := by
  obtain ⟨m, hm, hvalue⟩ := List.mem_filterMap.1 hfound
  obtain ⟨entry, -, rfl⟩ := Option.map_eq_some_iff.1 hvalue
  obtain ⟨hedits, hstop, hlength, -⟩ := (stores_keys hbuild).exact_of_mem_matchesOf
    (Transducer.isStart_search 0 0 text) rfl hm
  exact ⟨hedits, hstop, hlength⟩

end StemIndex

/-! ## Incorporated stems -/

/-- A sub-lexeme that other words may contain has a form for it. -/
def Grammar.MayBeIncorporated (g : Grammar) (id : SubLexemeId) : Prop :=
  ∃ sub, g.subLexeme? id = some sub ∧ sub.noIncorporation = false ∧
    sub.incorporation.isSome = true

/-- What is incorporated in an inflexion is such a sub-lexeme, in a place for it. -/
def Grammar.MayIncorporate (g : Grammar) (id : InflexionId) (inc : Incorporated) : Prop :=
  g.MayBeIncorporated inc.sub ∧ ∃ i part, g.inflexion? id = some i ∧
    i.parts[inc.part]? = some part ∧ part.role = .incorporation

namespace IncorporationIndex

variable {g : Grammar} {index : IncorporationIndex}

/-- The key of a sub-lexeme is its form, unless this is empty or not to be used. -/
theorem keyOf?_eq_some_iff {id id' : SubLexemeId} {sub : SubLexeme} {key : List Char}
    {length : Nat} : keyOf? id sub = some (key, id', length) ↔
      id = id' ∧ sub.noIncorporation = false ∧ ∃ form, sub.incorporation = some form ∧
        key = form.stem.toList ∧ key ≠ [] ∧ length = key.length := by
  unfold keyOf?
  cases sub.noIncorporation with
  | true => simp
  | false =>
    cases sub.incorporation with
    | none => simp
    | some form =>
      simp only [Bool.false_eq_true, if_false, Option.bind_some, Option.ite_none_left_eq_some,
        List.isEmpty_iff, Option.some.injEq, Prod.mk.injEq, true_and, exists_eq_left']
      constructor
      · rintro ⟨hne, rfl, rfl, rfl⟩
        exact ⟨rfl, rfl, hne, rfl⟩
      · rintro ⟨rfl, rfl, hne, rfl⟩
        exact ⟨hne, rfl, rfl, rfl⟩

/-- What the index finds may be incorporated, and ends in the word. -/
theorem incorporated_of_mem (hbuild : build g = .ok index) {word : List Char} {pos : Nat}
    {id : SubLexemeId} {length : Nat} (hid : (id, length) ∈ index.at? word pos) :
    g.MayBeIncorporated id ∧ pos + length ≤ word.length := by
  unfold build at hbuild
  obtain ⟨keys, hkeys, h⟩ := bind_eq_ok_iff.1 hbuild
  obtain rfl := Except.ok.inj h
  obtain ⟨key, hentry, hend⟩ :=
    (Transducer.stores_ofList hkeys).exists_key_of_mem_valuesAt hid
  obtain ⟨⟨id', sub⟩, hsub, hkey⟩ := List.mem_filterMap.1 hentry
  obtain ⟨rfl, hno, form, hform, -, -, rfl⟩ := keyOf?_eq_some_iff.1 hkey
  exact ⟨⟨sub, Grammar.mem_subLexemes_iff.1 hsub, hno, by simp [hform]⟩, hend⟩

end IncorporationIndex

/-! ## The parts of an analyzer -/

namespace Analyzer

variable {g : Grammar} {config : ParserConfig} {a : Analyzer}

/-- An analyzer that is built has the indices of its grammar. -/
theorem build_eq_ok (h : build g config = .ok a) :
    ∃ stems affixes incorporations, StemIndex.build g config.maxStemStartLen = .ok stems ∧
      AffixIndex.build g = .ok affixes ∧ IncorporationIndex.build g = .ok incorporations ∧
      a.stems = stems ∧
      a.matcher = .ofIndices g affixes incorporations
        ⟨config.maxEmptyInflexions, config.minReplacementWordLen⟩ ∧
      a.pregenerated = stems.keyless.flatMap g.generateWordforms := by
  unfold build at h
  obtain ⟨stems, hstems, h⟩ := bind_eq_ok_iff.1 h
  obtain ⟨affixes, haffixes, h⟩ := bind_eq_ok_iff.1 h
  obtain ⟨incorporations, hinc, h⟩ := bind_eq_ok_iff.1 h
  obtain ⟨pattern, -, h⟩ := bind_eq_ok_iff.1 h
  obtain rfl := Except.ok.inj h
  exact ⟨stems, affixes, incorporations, mapError_eq_ok_iff.1 hstems,
    mapError_eq_ok_iff.1 haffixes, mapError_eq_ok_iff.1 hinc, rfl, rfl, rfl⟩

theorem grammar_of_build (h : build g config = .ok a) : a.matcher.grammar = g := by
  obtain ⟨stems, affixes, incorporations, -, -, -, -, hmatcher, -⟩ := build_eq_ok h
  rw [hmatcher]
  rfl

theorem limits_of_build (h : build g config = .ok a) :
    a.matcher.limits = ⟨config.maxEmptyInflexions, config.minReplacementWordLen⟩ := by
  obtain ⟨stems, affixes, incorporations, -, -, -, -, hmatcher, -⟩ := build_eq_ok h
  rw [hmatcher]
  rfl

theorem minReplacementStemLen_of_build (h : build g config = .ok a) :
    a.minReplacementStemLen = config.minReplacementStemLen := by
  unfold build at h
  obtain ⟨stems, -, h⟩ := bind_eq_ok_iff.1 h
  obtain ⟨affixes, -, h⟩ := bind_eq_ok_iff.1 h
  obtain ⟨incorporations, -, h⟩ := bind_eq_ok_iff.1 h
  obtain ⟨pattern, -, h⟩ := bind_eq_ok_iff.1 h
  obtain rfl := Except.ok.inj h
  rfl

theorem candidatesOwned_of_build (h : build g config = .ok a) : a.matcher.CandidatesOwned := by
  obtain ⟨stems, affixes, incorporations, -, -, -, -, hmatcher, -⟩ := build_eq_ok h
  rw [hmatcher]
  intro h' word pos slot id hid
  exact AffixIndex.paradigm_of_mem_candidates hid

theorem incorporated_of_build (h : build g config = .ok a) {word : List Char} {pos : Nat}
    {id : SubLexemeId} {length : Nat} (hid : (id, length) ∈ a.matcher.incorporations word pos) :
    g.MayBeIncorporated id ∧ pos + length ≤ word.length := by
  obtain ⟨stems, affixes, incorporations, -, -, hinc, -, hmatcher, -⟩ := build_eq_ok h
  rw [hmatcher] at hid
  exact IncorporationIndex.incorporated_of_mem hinc hid

/-- What the matcher incorporates may be incorporated. -/
theorem mayBeIncorporated_of_build (h : build g config = .ok a) :
    ∀ word pos id length, (id, length) ∈ a.matcher.incorporations word pos →
      a.matcher.grammar.MayBeIncorporated id := by
  intro word pos id length hid
  rw [grammar_of_build h]
  exact (incorporated_of_build h hid).1

end Analyzer

end Morphology
