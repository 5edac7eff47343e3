import Morphology.Proofs.Grammar.Accounting

/-!
# Compiling accounts for entries

A draft is compiled entry by entry, and every entry either becomes a part of the grammar or is
reported.  A paradigm has the inflexions of its entry, and a lexeme has sub-lexemes in all the
paradigms that it names, each but for what is reported.

## Main definitions

* `Slots.Has` — a stem stands in one of the slots
* `LexemeEntry.Lacks` — an entry has no stem, or no paradigm
* `StemConversion.IsOf` — a conversion is that of an entry
* `LexemeEntry.HasSlots` — the slots of an entry, after the conversion that it names
* `Lexeme.Represents` — a lexeme has the stems of some slots with their numbers
* `GrammarDraft.IsParadigmOf`, `GrammarDraft.IsLexemeOf` — what a compiled grammar has of an entry
* `GrammarDraft.ReportsLexeme` — why there is no lexeme of an entry
* `GrammarDraft.AccountsForEntries` — no entry is lost without a report

## Main statements

* `Slots.mem_merge_iff` — no stem of a slot is lost
* `GrammarDraft.accounted_addLexemes` — a lexeme has a handle of its own
* `GrammarDraft.lexemes_represent_slots` — the lexemes of a compiled grammar have the stems of their
  entries
* `GrammarDraft.rules_stem_fileRules`, `GrammarDraft.rules_lemma_fileRules` — where rules are filed
* `GrammarDraft.accountsForEntries` — compiling accounts for all entries
-/

namespace Morphology

universe u

/-! ## Lexemes -/

namespace Slots

variable {slots : Slots} {stem : String}

/-- A stem stands in one of the slots. -/
def Has (slots : Slots) (stem : String) : Prop :=
  ∃ stems ∈ slots, stem ∈ stems

/-- No stem of a slot is lost, and there are no other stems. -/
theorem mem_merge_iff : stem ∈ (merge slots).map (·.1) ↔ slots.Has stem := by
  rw [map_fst_merge, List.mem_eraseDups, List.mem_flatten]
  rfl

theorem not_all_isEmpty_iff : ¬ slots.all (·.isEmpty) = true ↔ ∃ stem, slots.Has stem := by
  simp only [List.all_eq_true, List.isEmpty_iff, not_forall, Has]
  constructor
  · rintro ⟨stems, hmem, hne⟩
    obtain ⟨stem, hstem⟩ := List.exists_mem_of_ne_nil stems hne
    exact ⟨stem, stems, hmem, hstem⟩
  · rintro ⟨stem, stems, hmem, hstem⟩
    exact ⟨stems, hmem, List.ne_nil_of_mem hstem⟩

end Slots

/-- A slot with stems stays as it is. -/
theorem StemConversion.has_convert {slots : Slots} {stem : String} (h : slots.Has stem)
    (c : StemConversion) : (c.convert slots).Has stem := by
  obtain ⟨stems, hmem, hstem⟩ := h
  obtain ⟨n, hn⟩ := List.getElem?_of_mem hmem
  have hkept := (c.completes_convert slots).kept n stems hn (List.ne_nil_of_mem hstem)
  exact ⟨stems, List.mem_of_getElem? hkept, hstem⟩

namespace LexemeEntry

variable {e : LexemeEntry} {conversions : Table String StemConversion} {ps : Paradigms}

theorem has_slots {stem : String} (h : (Slots.read e.stem).Has stem) :
    (e.slots conversions).1.Has stem := by
  unfold slots
  dsimp only
  split
  · exact h
  · split
    · exact StemConversion.has_convert h _
    · exact h

/-- A conversion is found, or reported. -/
theorem reported_of_slots {name : String} (hname : e.stemConversion = some name)
    (hnone : conversions.get? name = none) :
    .unknownStemConversion name e.headword ∈ (e.slots conversions).2 := by
  unfold slots
  simp only [hname, hnone]
  exact List.mem_singleton.2 rfl

/-- The names of a lexeme are found, or reported. -/
theorem accounted_resolve (e : LexemeEntry) (ps : Paradigms) :
    Accounted (fun name h => ps.find? name = some h)
      (fun name => .unknownParadigm name (.lexeme e.headword) ∈ (e.resolve ps).2)
      e.paradigms (e.resolve ps).1 := by
  refine (accounted_collect _ e.paradigms).mono (fun name _ h hmade => ?_) fun name _ hfault => ?_
  · -- A name is resolved to the handle found under it.
    cases hfind : ps.find? name with
    | none => simp [hfind] at hmade
    | some h' => simpa [hfind] using hmade
  · obtain ⟨fault, hmem, hfault⟩ := hfault
    -- A name under which nothing is found is reported as such.
    cases hfind : ps.find? name with
    | none =>
      obtain rfl : _ = fault := by simpa [hfind] using hfault
      exact hmem
    | some h => simp [hfind] at hfault

/-- Every stem in every paradigm is a sub-lexeme. -/
theorem exists_subLexeme {slots : Slots} {stem : String} (hstem : slots.Has stem) (h : Handle)
    {paradigms : List Handle} {paradigm : Handle} (hparadigm : paradigm ∈ paradigms) :
    ∃ sub ∈ e.subLexemes h slots paradigms,
      sub.lexeme = h ∧ sub.stem = stem ∧ sub.paradigm = paradigm := by
  obtain ⟨⟨stem, stemNums⟩, hmem, rfl⟩ := List.mem_map.1 (Slots.mem_merge_iff.2 hstem)
  refine ⟨_, List.mem_flatMap.2 ⟨(stem, stemNums), hmem, List.mem_map_of_mem hparadigm⟩, ?_⟩
  exact ⟨rfl, rfl, rfl⟩

end LexemeEntry

/-- An item that is stored comes behind the others. -/
theorem Arena.toList_allocWith {α : Type u} (a : Arena α) (make : Handle → α) :
    (a.allocWith make).2.toList = a.toList ++ [(a.nextHandle, make a.nextHandle)] := by
  simp [toList, allocWith, nextHandle, List.zipIdx_append]

namespace GrammarDraft

/-- The faults of all entries are reported, whether there are lexemes of them or not. -/
theorem faults_addLexemes (conversions : Table String StemConversion) (ps : Paradigms)
    (lexemes : Arena Lexeme) (entries : List LexemeEntry) :
    (addLexemes conversions ps lexemes entries).2 =
      entries.flatMap fun e => (Lexeme.ofEntry conversions ps e).2 := by
  induction entries generalizing lexemes with
  | nil => rfl
  | cons e rest ih =>
    simp only [addLexemes, List.flatMap_cons]
    rw [ih]

/-- A lexeme has a handle of its own, behind those that there were before. -/
theorem accounted_addLexemes (conversions : Table String StemConversion) (ps : Paradigms)
    (lexemes : Arena Lexeme) (entries : List LexemeEntry) :
    ∃ new, (addLexemes conversions ps lexemes entries).1.toList = lexemes.toList ++ new ∧
      Accounted
        (fun e part => (Lexeme.ofEntry conversions ps e).1.map (· part.1) = some part.2)
        (fun e => (Lexeme.ofEntry conversions ps e).1 = none) entries new := by
  induction entries generalizing lexemes with
  | nil => exact ⟨[], by simp [addLexemes], .nil⟩
  | cons e rest ih =>
    simp only [addLexemes]
    cases hmake : (Lexeme.ofEntry conversions ps e).1 with
    -- No lexeme is made, and the others have the handles that come next.
    | none =>
      obtain ⟨new, hnew, hrest⟩ := ih lexemes
      exact ⟨new, hnew, .reported hmake hrest⟩
    | some make =>
      obtain ⟨new, hnew, hrest⟩ := ih (lexemes.allocWith make).2
      -- The new lexeme has the next handle, and the others come behind it.
      refine ⟨(lexemes.nextHandle, make lexemes.nextHandle) :: new, ?_, .made ?_ hrest⟩
      · rw [Option.elim_some, hnew, Arena.toList_allocWith, List.append_assoc,
          List.singleton_append]
      · rw [hmake, Option.map_some]

end GrammarDraft

/-! ### Stem conversions -/

/-- A replacement is that of an entry. -/
structure Replacement.IsOf (r : Replacement) (e : ReplacementEntry) : Prop where
  pattern : Pattern.read? e.pattern = some r.pattern
  text : r.text = e.text

/-- A conversion is that of an entry: it has a target for every new stem of the entry, in the same
order, and a replacement for every one that is written there. -/
structure StemConversion.IsOf (c : StemConversion) (e : StemConversionEntry) : Prop where
  name : c.name = e.name
  base : c.base = e.base
  targets : List.Forall₂
    (fun (new : NewStemEntry) (target : Nat × List Replacement) => target.1 = new.slot ∧
      List.Forall₂ (fun written r => Replacement.IsOf r written) new.replacements target.2)
    e.newStems c.targets

theorem Replacement.map_readPattern_eq_ok_iff {origin : Origin} {e : ReplacementEntry}
    {r : Replacement} :
    (readPattern origin e.pattern).map (⟨·, e.text⟩) = .ok r ↔ r.IsOf e := by
  simp only [map_eq_ok_iff, readPattern_eq_ok_iff]
  constructor
  · rintro ⟨p, hp, rfl⟩
    exact ⟨hp, rfl⟩
  · intro h
    exact ⟨r.pattern, h.pattern, by rw [← h.text]⟩

/-- An entry becomes a conversion just if its patterns can be read. -/
theorem StemConversion.ofEntry_eq_ok_iff {e : StemConversionEntry} {c : StemConversion} :
    ofEntry e = .ok c ↔ c.IsOf e := by
  -- The targets come from the new stems one by one, and so do the replacements of a target.
  simp only [ofEntry, bind_eq_ok_iff, mapM_eq_ok_iff, Replacement.map_readPattern_eq_ok_iff]
  constructor
  · rintro ⟨targets, htargets, h⟩
    obtain rfl := Except.ok.inj h
    refine ⟨rfl, rfl, htargets.imp fun new target hnew => ?_⟩
    obtain ⟨replacements, hreplacements, h⟩ := hnew
    obtain rfl := Except.ok.inj h
    exact ⟨rfl, hreplacements⟩
  · intro h
    refine ⟨c.targets, h.targets.imp fun new target hnew => ?_, ?_⟩
    · exact ⟨target.2, hnew.2, by rw [← hnew.1]; rfl⟩
    · rw [← h.name, ← h.base]
      rfl

namespace StemConversion

/-- The conversion of a name; of several the last one counts. -/
def named? (conversions : List StemConversion) (name : String) : Option StemConversion :=
  conversions.reverse.find? (·.name == name)

theorem get?_foldl_insert (conversions : List StemConversion) (name : String) :
    (conversions.foldl (fun t c => t.insert c.name c) Table.empty).get? name =
      named? conversions name := by
  induction conversions using List.reverseRecOn with
  | nil => rfl
  | append_singleton rest c ih =>
    rw [List.foldl_append, List.foldl_cons, List.foldl_nil, Table.get?_insert, ih, named?, named?,
      List.reverse_append, List.reverse_singleton, List.singleton_append, List.find?_cons]
    -- The last conversion is found if it has the name; else the others decide, as they did before.
    by_cases hname : name = c.name
    · simp [hname]
    · rw [beq_eq_false_iff_ne.2 (Ne.symm hname), if_neg hname]

end StemConversion

/-! ### Stems of a lexeme -/

/-- An entry writes no stem, or names no paradigm that is found. -/
def LexemeEntry.Lacks (ps : Paradigms) (e : LexemeEntry) : Prop :=
  (∃ slots, Slots.IsOf e.stem slots ∧ slots.flatten = []) ∨ e.paradigms.filterMap ps.find? = []

/-- The slots of an entry: those that its stem writes, and if it names a conversion that there is,
what this one makes of them. -/
inductive LexemeEntry.HasSlots (find? : String → Option StemConversion) (e : LexemeEntry) :
    Slots → Prop
  | written {slots : Slots} (hnone : e.stemConversion.bind find? = none)
      (h : Slots.IsOf e.stem slots) : HasSlots find? e slots
  | converted {c : StemConversion} {written slots : Slots}
      (hconversion : e.stemConversion.bind find? = some c) (h : Slots.IsOf e.stem written)
      (hcompletes : c.Completes written slots) : HasSlots find? e slots

/-- A lexeme has the stems of an entry: there is one sub-lexeme for every distinct stem of its
slots, in the order in which the stems first come, and every paradigm that is found, and it has the
numbers of the slots in which the stem stands. -/
structure Lexeme.Represents (slots : Slots) (paradigms : List Handle) (lexeme : Lexeme) : Prop where
  numStems : lexeme.numStems = slots.length
  subs : lexeme.subs.map (fun sub => (sub.stem, sub.paradigm)) =
    slots.flatten.eraseDups.flatMap fun stem => paradigms.map fun paradigm => (stem, paradigm)
  stemNums : ∀ sub ∈ lexeme.subs, sub.stemNums.Pairwise (· < ·) ∧
    ∀ n, n ∈ sub.stemNums ↔ ∃ stems, slots[n]? = some stems ∧ sub.stem ∈ stems

namespace LexemeEntry

variable {e : LexemeEntry} {conversions : Table String StemConversion} {ps : Paradigms}

theorem slots_eq (e : LexemeEntry) (conversions : Table String StemConversion) :
    (e.slots conversions).1 =
      (e.stemConversion.bind conversions.get?).elim (Slots.read e.stem)
        (·.convert (Slots.read e.stem)) := by
  unfold slots
  cases hname : e.stemConversion with
  | none => rfl
  | some name => cases hfind : conversions.get? name <;> simp [hfind]

theorem hasSlots (e : LexemeEntry) (conversions : Table String StemConversion) :
    e.HasSlots conversions.get? (e.slots conversions).1 := by
  have hread : Slots.IsOf e.stem (Slots.read e.stem) := Slots.isOf_iff.2 rfl
  rw [slots_eq]
  cases hconversion : e.stemConversion.bind conversions.get? with
  | none => exact .written hconversion hread
  | some c => exact .converted hconversion hread (c.completes_convert _)

theorem lacks_iff : e.Lacks ps ↔
    (Slots.read e.stem).flatten = [] ∨ e.paradigms.filterMap ps.find? = [] := by
  simp only [Lacks, Slots.isOf_iff, exists_eq_left]

instance (ps : Paradigms) (e : LexemeEntry) : Decidable (e.Lacks ps) :=
  decidable_of_iff _ lacks_iff.symm

theorem resolve_eq (e : LexemeEntry) (ps : Paradigms) :
    (e.resolve ps).1 = e.paradigms.filterMap ps.find? := by
  rw [resolve, collect_eq_filterMap]
  congr 1
  funext name
  cases ps.find? name <;> rfl

theorem map_subLexemes (e : LexemeEntry) (h : Handle) (slots : Slots) (paradigms : List Handle) :
    (e.subLexemes h slots paradigms).map (fun sub => (sub.stem, sub.paradigm)) =
      slots.flatten.eraseDups.flatMap fun stem =>
        paradigms.map fun paradigm => (stem, paradigm) := by
  rw [← Slots.map_fst_merge, List.flatMap_map, subLexemes, List.map_flatMap]
  simp [Function.comp_def]

theorem stemNums_of_mem_subLexemes {h : Handle} {slots : Slots} {paradigms : List Handle}
    {sub : SubLexeme} (hsub : sub ∈ e.subLexemes h slots paradigms) :
    (sub.stem, sub.stemNums) ∈ Slots.merge slots := by
  obtain ⟨⟨stem, stemNums⟩, hmerge, hsub⟩ := List.mem_flatMap.1 hsub
  obtain ⟨paradigm, -, rfl⟩ := List.mem_map.1 hsub
  exact hmerge

end LexemeEntry

namespace Lexeme

variable {conversions : Table String StemConversion} {ps : Paradigms} {e : LexemeEntry}
  {make : Handle → Lexeme}

/-- Without a stem or a paradigm there is no lexeme. -/
theorem fst_ofEntry (conversions : Table String StemConversion) (ps : Paradigms)
    (e : LexemeEntry) : (ofEntry conversions ps e).1 =
      if e.Lacks ps then none
      else some fun h =>
        ⟨e.headword, e.subLexemes h (e.slots conversions).1 (e.paradigms.filterMap ps.find?),
          e.otherData, (e.slots conversions).1.length⟩ := by
  -- Nothing is written in the slots if there is no stem in any of them.
  have hempty : (Slots.read e.stem).all (·.isEmpty) = true ↔ (Slots.read e.stem).flatten = [] := by
    simp [List.flatten_eq_nil_iff]
  unfold ofEntry
  by_cases hstem : (Slots.read e.stem).flatten = []
  · rw [if_pos (hempty.2 hstem), if_pos (LexemeEntry.lacks_iff.2 (.inl hstem))]
  · rw [if_neg (mt hempty.1 hstem)]
    dsimp only
    rw [LexemeEntry.resolve_eq]
    split
    · -- The entry has a stem, but no paradigm that is found.
      rename_i hnone
      exact (if_pos (LexemeEntry.lacks_iff.2 (.inr (List.isEmpty_iff.1 hnone)))).symm
    · rename_i hsome
      refine (if_neg (mt LexemeEntry.lacks_iff.1 (not_or.2 ⟨hstem, ?_⟩))).symm
      exact mt List.isEmpty_iff.2 hsome

theorem represents_of_ofEntry (hmake : (ofEntry conversions ps e).1 = some make) (h : Handle) :
    ¬ e.Lacks ps ∧ ∃ slots, e.HasSlots conversions.get? slots ∧
      (make h).Represents slots (e.paradigms.filterMap ps.find?) := by
  rw [fst_ofEntry] at hmake
  split at hmake
  · exact absurd hmake (by simp)
  · rename_i hlacks
    obtain rfl := Option.some.inj hmake
    refine ⟨hlacks, (e.slots conversions).1, e.hasSlots conversions, rfl, e.map_subLexemes ..,
      fun sub hsub => ?_⟩
    exact Slots.mem_stemNums_iff (LexemeEntry.stemNums_of_mem_subLexemes hsub)

end Lexeme

/-- **Lexemes against the stems of their entries.**  The lexemes of a compiled grammar come in the
order of their entries, and each `Lexeme.Represents` the slots of its entry: those that the stem
writes, completed by the conversion that the entry names.  The conversions are those of the entries
whose patterns can be read.  Just the entries without a stem or without a paradigm have no lexeme.
-/
theorem GrammarDraft.lexemes_represent_slots (d : GrammarDraft) :
    ∃ conversions,
      Accounted (fun e c => c.IsOf e) (fun e => ∀ c, ¬ StemConversion.IsOf c e)
        d.entries.stemConversions conversions ∧
      Accounted
        (fun e part => ¬ e.Lacks d.compile.grammar.paradigms ∧
          ∃ slots, e.HasSlots (StemConversion.named? conversions) slots ∧
            part.2.Represents slots (e.paradigms.filterMap d.compile.grammar.paradigms.find?))
        (fun e => e.Lacks d.compile.grammar.paradigms)
        d.entries.lexemes d.compile.grammar.lexemes.toList := by
  refine ⟨_, accounted_collect_of_iff (fun _ _ => StemConversion.ofEntry_eq_ok_iff) _, ?_⟩
  obtain ⟨new, hnew, haccounted⟩ := accounted_addLexemes d.compile.grammar.stemConversions
    d.compile.grammar.paradigms (.empty 1) d.entries.lexemes
  obtain rfl : d.compile.grammar.lexemes.toList = new := hnew
  rw [← funext (StemConversion.get?_foldl_insert _)]
  refine haccounted.mono (fun e _ part hmade => ?_) fun e _ hnone => ?_
  · -- A lexeme was made of the entry, with its handle.
    obtain ⟨make, hmake, heq⟩ := Option.map_eq_some_iff.1 hmade
    exact heq ▸ Lexeme.represents_of_ofEntry hmake part.1
  · rw [Lexeme.fst_ofEntry] at hnone
    by_contra hsome
    rw [if_neg hsome] at hnone
    exact absurd hnone (by simp)

/-! ## Lexical rules -/

namespace GrammarDraft

theorem rules_fileRule (table : Table String (List LexRule)) (name name' : String) (r : LexRule) :
    ((fileRule table name r).get? name').getD [] =
      (table.get? name').getD [] ++ if name' = name then [r] else [] := by
  rw [fileRule, Table.alter, Table.get?_insert]
  split
  · rename_i heq
    rw [heq, Option.getD_some]
  · rw [List.append_nil]

theorem fileRules_concat (rules : List LexRule) (r : LexRule) : fileRules (rules ++ [r]) =
    match r.stem, r.headword with
    | some stem, _ => (fileRule (fileRules rules).1 stem r, (fileRules rules).2)
    | none, some headword => ((fileRules rules).1, fileRule (fileRules rules).2 headword r)
    | none, none => fileRules rules := by
  rw [fileRules, List.foldl_append]
  rfl

/-- A rule is filed under its stem, behind the rules that are there. -/
theorem rules_stem_fileRules (rules : List LexRule) (stem : String) :
    ((fileRules rules).1.get? stem).getD [] = rules.filter fun r => r.stem == some stem := by
  induction rules using List.reverseRecOn with
  | nil => rfl
  | append_singleton rest r ih =>
    rw [fileRules_concat, List.filter_append, ← ih]
    cases hstem : r.stem with
    | none => cases hlemma : r.headword <;> simp [hstem]
    -- The rule stands behind those of its own stem, and changes nothing for the others.
    | some own =>
      by_cases heq : stem = own
      · simp [hstem, rules_fileRule, heq]
      · simp [hstem, rules_fileRule, heq, Ne.symm heq]

/-- A rule that names no stem is filed under its lemma. -/
theorem rules_lemma_fileRules (rules : List LexRule) (headword : String) :
    ((fileRules rules).2.get? headword).getD [] =
      rules.filter fun r => r.stem.isNone && r.headword == some headword := by
  induction rules using List.reverseRecOn with
  | nil => rfl
  | append_singleton rest r ih =>
    rw [fileRules_concat, List.filter_append, ← ih]
    -- A rule with a stem is not filed under its lemma.
    cases hstem : r.stem with
    | some own => simp [hstem]
    | none =>
      cases hlemma : r.headword with
      | none => simp [hstem, hlemma]
      | some own =>
        by_cases heq : headword = own
        · simp [hstem, hlemma, rules_fileRule, heq]
        · simp [hstem, hlemma, rules_fileRule, heq, Ne.symm heq]

/-- A rule names a stem or a lemma, and so is filed. -/
theorem isSome_or_isSome_of_ofEntry {e : LexRuleEntry} {r : LexRule}
    (h : LexRule.ofEntry e = .ok r) : r.stem.isSome = true ∨ r.headword.isSome = true := by
  unfold LexRule.ofEntry at h
  split at h
  · exact absurd h (by simp)
  · rename_i hnamed
    obtain ⟨tests, -, h⟩ := bind_eq_ok_iff.1 h
    obtain rfl := Except.ok.inj h
    -- An entry without a stem and a lemma is refused.
    rw [Bool.and_eq_true, not_and_or, Bool.not_eq_true, Bool.not_eq_true] at hnamed
    rcases hnamed with hlemma | hstem
    · exact .inr (by simpa [Option.isSome_iff_ne_none, Option.isNone_iff_eq_none] using hlemma)
    · exact .inl (by simpa [Option.isSome_iff_ne_none, Option.isNone_iff_eq_none] using hstem)

/-! ## Compiled grammars -/

/-- A paradigm is made of an entry: it has the inflexions of the entry but for those reported, and
then links.  The inflexions stand in it, or have been widened. -/
structure IsParadigmOf (d : GrammarDraft) (source : ParadigmEntry) (h : Handle) : Prop where
  found : ∃ p, d.compile.grammar.paradigm? h = some p ∧ p.name = source.name ∧ p.derivation = none
  inflexions : ∃ own links p,
    AccountedBy (Inflexion.ofEntry d.handle? source.name) d.compile.diagnostics source.inflexions
      own ∧
    d.unwidened.compile.grammar.paradigm? h = some p ∧ p.inflexions = own ++ links ∧
    (∀ i ∈ links, i.isLink = true) ∧
    ∀ i ∈ own, d.compile.grammar.paradigms.Stands h i

/-- A lexeme is made of an entry: it has a sub-lexeme of every stem in every paradigm that the entry
names, and the names of no paradigm are reported. -/
structure IsLexemeOf (d : GrammarDraft) (e : LexemeEntry) (h : Handle) (lexeme : Lexeme) :
    Prop where
  headword : lexeme.headword = e.headword
  otherData : lexeme.otherData = e.otherData
  conversion : ∀ name, e.stemConversion = some name →
    d.compile.grammar.stemConversions.contains name = true ∨
      .unknownStemConversion name e.headword ∈ d.compile.diagnostics
  stem : ∃ stem, (e.slots d.compile.grammar.stemConversions).1.Has stem
  paradigms : ∃ paradigms,
    Accounted
      (fun name paradigm => ∃ p, d.compile.grammar.paradigms.find? name = some paradigm ∧
        d.compile.grammar.paradigm? paradigm = some p ∧ p.name = name)
      (fun name => .unknownParadigm name (.lexeme e.headword) ∈ d.compile.diagnostics)
      e.paradigms paradigms ∧
    ∀ paradigm ∈ paradigms, ∀ stem, (e.slots d.compile.grammar.stemConversions).1.Has stem →
      ∃ sub ∈ lexeme.subs, sub.lexeme = h ∧ sub.stem = stem ∧ sub.paradigm = paradigm

/-- It is reported why there is no lexeme of an entry. -/
inductive ReportsLexeme (d : GrammarDraft) (e : LexemeEntry) : Prop
  | emptyStem (h : (Slots.read e.stem).all (·.isEmpty) = true)
      (report : .emptyStem e.headword ∈ d.compile.diagnostics)
  | noParadigm (h : e.paradigms = []) (report : .noParadigm e.headword ∈ d.compile.diagnostics)
  | unknownParadigms (h : e.paradigms ≠ [])
      (report : ∀ name ∈ e.paradigms,
        .unknownParadigm name (.lexeme e.headword) ∈ d.compile.diagnostics)

/-- Every entry has become a part of the grammar of its own, or is reported. -/
structure AccountsForEntries (d : GrammarDraft) : Prop where
  paradigms : Accounted (fun e source => e = source)
    (fun e => .duplicateParadigm e.name ∈ d.compile.diagnostics) d.entries.paradigms d.sources
  sources : ∀ source ∈ d.sources, ∃ h,
    d.handle? source.name = some h ∧ d.IsParadigmOf source h
  lexemes : Accounted (fun e part => d.IsLexemeOf e part.1 part.2) d.ReportsLexeme
    d.entries.lexemes d.compile.grammar.lexemes.toList
  clitics : AccountedBy Clitic.ofEntry d.compile.diagnostics d.entries.clitics
    d.compile.grammar.clitics
  rules : ∃ rules, AccountedBy LexRule.ofEntry d.compile.diagnostics d.entries.lexRules rules ∧
    (∀ r ∈ rules, r.stem.isSome = true ∨ r.headword.isSome = true) ∧
    (∀ stem, d.compile.grammar.rulesForStem stem = rules.filter fun r => r.stem == some stem) ∧
    ∀ headword, d.compile.grammar.rulesForLemma headword =
      rules.filter fun r => r.stem.isNone && r.headword == some headword

variable {d : GrammarDraft}

theorem named_compile (d : GrammarDraft) : d.compile.grammar.paradigms.Named :=
  (Paradigms.named_expand d.named_filled _ _).of_frame d.isWidening_expanded.names
    d.isWidening_expanded.frame

theorem isParadigmOf_compile {source : ParadigmEntry} (hsource : source ∈ d.sources) :
    ∃ h, d.handle? source.name = some h ∧ d.IsParadigmOf source h := by
  obtain ⟨h, own, hname, hfilled, hown⟩ := d.exists_filled hsource
  obtain ⟨p, hp, links, hlinks, rfl⟩ :=
    Paradigms.get?_expand hfilled d.entries.derivations d.sources
  have hp' : d.expanded.get? h = some ⟨source.name, own ++ links, none⟩ := hp
  refine ⟨h, hname, ?_, own, links, _, hown, hp', rfl, hlinks, fun i hi => ?_⟩
  · -- Widening leaves the name and the kind of the paradigm as they are.
    obtain ⟨q, hq, hsame⟩ :=
      Paradigms.exists_of_frame (fun h => (d.isWidening_expanded.frame h).symm) hp'
    exact ⟨q, hq, Paradigm.name_eq_of_frame hsame, Paradigm.derivation_eq_of_frame hsame⟩
  · -- It joins inflexions in their place, or keeps them.
    exact d.isWidening_expanded.stands h i ⟨_, hp', List.mem_append_left _ hi⟩

/-- A lexeme is made of its entry, or it is reported why there is none. -/
theorem isLexemeOf_or_reports {e : LexemeEntry} (he : e ∈ d.entries.lexemes) :
    (∀ h lexeme, (Lexeme.ofEntry d.compile.grammar.stemConversions d.compile.grammar.paradigms
        e).1.map (· h) = some lexeme → d.IsLexemeOf e h lexeme) ∧
      ((Lexeme.ofEntry d.compile.grammar.stemConversions d.compile.grammar.paradigms e).1 = none →
        d.ReportsLexeme e) := by
  -- The faults of an entry are among the reports of the draft.
  have hreport (fault : GrammarError) (hfault : fault ∈ (Lexeme.ofEntry
      d.compile.grammar.stemConversions d.compile.grammar.paradigms e).2) :
      fault ∈ d.compile.diagnostics := by
    refine mem_diagnostics_compile.2 (.inr (.inr (.inr (.inr (.inr (.inl ?_))))))
    rw [faults_addLexemes]
    exact List.mem_flatMap.2 ⟨e, he, hfault⟩
  have hnames := e.accounted_resolve d.compile.grammar.paradigms
  unfold Lexeme.ofEntry at hreport ⊢
  split
  · -- There is no stem in any slot.
    rename_i hstem
    rw [if_pos hstem] at hreport
    exact ⟨nofun, fun _ => .emptyStem hstem (hreport _ (List.mem_cons_self ..))⟩
  · rename_i hstem
    rw [if_neg hstem] at hreport
    obtain ⟨stem, hstem⟩ := Slots.not_all_isEmpty_iff.1 hstem
    dsimp only at hreport ⊢
    split
    · -- None of the paradigms is found, or none is named.
      rename_i hnone
      rw [if_pos hnone] at hreport
      refine ⟨nofun, fun _ => ?_⟩
      by_cases hempty : e.paradigms = []
      · exact .noParadigm hempty (hreport _ (by simp [hempty]))
      · refine .unknownParadigms hempty fun name hname => hreport _ ?_
        have hreported := hnames.reported_of_nil (List.isEmpty_iff.1 hnone) hname
        exact List.mem_append_left _ (List.mem_append_right _ hreported)
    · -- There is a lexeme: its conversion and its paradigms are found, or reported.
      rename_i hsome
      rw [if_neg hsome] at hreport
      refine ⟨fun h lexeme hlexeme => ?_, nofun⟩
      obtain rfl := Option.some.inj hlexeme
      refine ⟨rfl, rfl, fun name hname => ?_, ⟨stem, LexemeEntry.has_slots hstem⟩,
        (e.resolve d.compile.grammar.paradigms).1, ?_, fun paradigm hparadigm stem hstem =>
          LexemeEntry.exists_subLexeme hstem h hparadigm⟩
      · cases hconversion : d.compile.grammar.stemConversions.get? name with
        | some c => exact .inl (by rw [Table.contains, hconversion]; rfl)
        | none =>
          refine .inr (hreport _ (List.mem_append_left _ (List.mem_append_left _ ?_)))
          exact LexemeEntry.reported_of_slots hname hconversion
      · refine hnames.mono (fun name _ paradigm hname => ?_) fun name _ hname => ?_
        · obtain ⟨p, hp, hpname⟩ := d.named_compile name paradigm hname
          exact ⟨p, hname, hp, hpname⟩
        · exact hreport _ (List.mem_append_left _ (List.mem_append_right _ hname))

/-- Compiling accounts for all entries. -/
theorem accountsForEntries (d : GrammarDraft) : d.AccountsForEntries where
  paradigms := by
    -- Only the first entry of a name is a source.
    refine (accounted_declareParadigms .empty _).mono (fun _ _ _ h => h) fun e _ he => ?_
    exact mem_diagnostics_compile.2 (.inr (.inr (.inl he)))
  sources := fun source hsource => d.isParadigmOf_compile hsource
  lexemes := by
    obtain ⟨new, hnew, haccounted⟩ := accounted_addLexemes d.compile.grammar.stemConversions
      d.compile.grammar.paradigms (.empty 1) d.entries.lexemes
    have hlexemes : d.compile.grammar.lexemes.toList = new := hnew
    rw [hlexemes]
    exact haccounted.mono (fun e he part => (isLexemeOf_or_reports he).1 part.1 part.2)
      fun e he => (isLexemeOf_or_reports he).2
  clitics := (accounted_collect _ _).of_subset fun fault hfault =>
    mem_diagnostics_compile.2 (.inr (.inr (.inr (.inr (.inr (.inr (.inl hfault)))))))
  rules := by
    refine ⟨(collect LexRule.ofEntry d.entries.lexRules).1,
      (accounted_collect _ _).of_subset fun fault hfault => ?_, fun r hr => ?_,
      rules_stem_fileRules _, rules_lemma_fileRules _⟩
    · exact mem_diagnostics_compile.2 (.inr (.inr (.inr (.inr (.inr (.inr (.inr hfault)))))))
    · obtain ⟨e, -, he⟩ := exists_of_mem_collect hr
      exact isSome_or_isSome_of_ofEntry he

end GrammarDraft

end Morphology
