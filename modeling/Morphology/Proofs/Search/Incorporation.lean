import Morphology.Proofs.Search.Closure
import Morphology.Proofs.Search.ExactIndices

/-!
# What incorporated stems spell

The index of incorporated stems has a stem under its form as it is written, and says how long the
form is.  The wordform has the form without its morpheme breaks.  The two are the same for the forms
that stems get by themselves, and for those written in a grammar unless these have breaks; a form
with breaks is looked for with them, and so is not found where it would be spelled.

## Main definitions

* `IncorporationForm.key`, `IncorporationForm.surface` — a form as it is looked for and as it is
  spelled
* `Grammar.incorporationForm?` — the form of a sub-lexeme
* `Grammar.Spells` — what stands in the place of a sub-lexeme that is incorporated
* `Grammar.KeysEnd` — a word or the keys come to their end before a search is given up
* `IncorporationIndex.Consumes` — in a word what is found is what is spelled

## Main statements

* `GrammarDraft.exists_subLexeme_of_form` — where the form of a sub-lexeme comes from
* `Grammar.spells_surface` — a sub-lexeme is spelled as its form without breaks
* `IncorporationIndex.mem_at?_iff_begins` — a stem is found where a word has its key
* `IncorporationIndex.consumes_of_build` — what is found and what is spelled
* `IncorporationIndex.not_consumes_brokenForm` — a form with a break is not found where it is
  spelled
-/

namespace Morphology

/-! ## Forms -/

namespace IncorporationForm

variable {form : IncorporationForm}

/-- A form as it is looked for. -/
def key (form : IncorporationForm) : List Char :=
  form.stem.toList

/-- A form as it is spelled. -/
def surface (form : IncorporationForm) : List Char :=
  withoutBreaks form.key

/-- Whether the form is spelled as it is looked for. -/
def IsUnbroken (form : IncorporationForm) : Prop :=
  morphBreak ∉ form.key

instance (form : IncorporationForm) : Decidable form.IsUnbroken :=
  inferInstanceAs (Decidable (¬ _))

theorem IsUnbroken.surface_eq (h : form.IsUnbroken) : form.surface = form.key := by
  rw [surface, withoutBreaks, List.filter_eq_self]
  intro c hc
  rw [bne_iff_ne]
  rintro rfl
  exact h hc

/-- Breaks are what makes a form longer than its surface. -/
theorem length_surface_eq_iff : form.surface.length = form.key.length ↔ form.IsUnbroken := by
  constructor
  · intro h hbreak
    have hall := List.length_filter_eq_length_iff.1 h morphBreak hbreak
    simp at hall
  · intro h
    rw [h.surface_eq]

end IncorporationForm

/-- The form of a sub-lexeme inside other words. -/
def Grammar.incorporationForm? (g : Grammar) (id : SubLexemeId) : Option IncorporationForm :=
  (g.subLexeme? id).bind (·.incorporation)

/-- The form that `incorporationForm?` gives to a stem is not empty. It is as it is written in the
entry, or else made of the literal characters of the stem. -/
theorem LexemeEntry.of_incorporationForm?_eq_some {e : LexemeEntry} {stem : String}
    {form : IncorporationForm} (h : e.incorporationForm? stem = some form) :
    e.noIncorporation = false ∧ form.stem ≠ "" ∧
      ((∃ written, e.incorporation = some written ∧ form.stem = written.stem) ∨
        form.key = literalText stem.toList) := by
  unfold incorporationForm? at h
  split at h
  · exact absurd h (by simp)
  · rename_i hmay
    obtain ⟨hne, hform⟩ : _ ∧ _ = some form := by
      simpa only [Option.ite_none_left_eq_some] using h
    obtain rfl := Option.some.inj hform
    refine ⟨by simpa using hmay, fun hstem => hne (String.isEmpty_iff.2 hstem), ?_⟩
    cases hwritten : e.incorporation with
    -- A written form is taken as it is.
    | some written => exact .inl ⟨written, rfl, rfl⟩
    | none =>
      right
      simp [IncorporationForm.key]

namespace GrammarDraft

/-- A sub-lexeme has the form that its entry gives to its stem (`incorporationForm?`). -/
theorem exists_entry_of_subLexeme? {d : GrammarDraft} {id : SubLexemeId} {sub : SubLexeme}
    (hsub : d.compile.grammar.subLexeme? id = some sub) :
    ∃ e ∈ d.entries.lexemes, sub.noIncorporation = e.noIncorporation ∧
      sub.incorporation = e.incorporationForm? sub.stem := by
  obtain ⟨lexeme, hlexeme, hget⟩ := Option.bind_eq_some_iff.1 hsub
  obtain ⟨new, hnew, haccounted⟩ := accounted_addLexemes d.compile.grammar.stemConversions
    d.compile.grammar.paradigms (.empty 1) d.entries.lexemes
  have hlexemes : d.compile.grammar.lexemes.toList = new := hnew
  have hmem : (id.lexeme, lexeme) ∈ new := hlexemes ▸ Arena.mem_toList_iff.2 hlexeme
  obtain ⟨e, he, hmade⟩ := haccounted.exists_entry hmem
  refine ⟨e, he, ?_⟩
  rw [Lexeme.fst_ofEntry] at hmade
  split at hmade
  · exact absurd hmade (by simp)
  · dsimp only [Option.map_some] at hmade
    obtain rfl := Option.some.inj hmade
    obtain ⟨⟨stem, stemNums⟩, -, hmem⟩ := List.mem_flatMap.1 (List.mem_of_getElem? hget)
    obtain ⟨paradigm, -, rfl⟩ := List.mem_map.1 hmem
    exact ⟨rfl, rfl⟩

variable {d : GrammarDraft} {id : SubLexemeId} {form : IncorporationForm}

/-- A compiled sub-lexeme with a form may be incorporated. The form is written in its entry, or
`IsUnbroken`. -/
theorem exists_subLexeme_of_form (hform : d.compile.grammar.incorporationForm? id = some form) :
    ∃ sub, d.compile.grammar.subLexeme? id = some sub ∧ sub.noIncorporation = false ∧
      sub.incorporation = some form ∧ form.stem ≠ "" ∧
      ((∃ e ∈ d.entries.lexemes, ∃ written, e.incorporation = some written ∧
        form.stem = written.stem) ∨ form.IsUnbroken) := by
  obtain ⟨sub, hsub, hform⟩ := Option.bind_eq_some_iff.1 hform
  obtain ⟨e, he, hno, hincorporation⟩ := exists_entry_of_subLexeme? hsub
  obtain ⟨hmay, hne, hmade⟩ :=
    LexemeEntry.of_incorporationForm?_eq_some (hincorporation.symm.trans hform)
  refine ⟨sub, hsub, hno.trans hmay, hform, hne, ?_⟩
  rcases hmade with ⟨written, hwritten, hstem⟩ | hliteral
  · exact .inl ⟨e, he, written, hwritten, hstem⟩
  · -- Breaks are not literal.
    right
    intro hbreak
    rw [hliteral] at hbreak
    have hlit := (List.mem_filter.1 hbreak).2
    exact absurd hlit (by decide)

end GrammarDraft

/-! ## Places -/

namespace Grammar

variable {g : Grammar} {id : SubLexemeId} {form : IncorporationForm} {i i' : Inflexion}

/-- Wherever a sub-lexeme is incorporated in a link, the stems of which stand in places for them and
in order, the merged inflexion has its surface there. -/
def Spells (g : Grammar) (id : SubLexemeId) (surface : List Char) : Prop :=
  ∀ (link : ChainLink) (part : Nat), ⟨part, id⟩ ∈ link.incorporated →
    link.incorporated.Pairwise (·.part < ·.part) →
    (∀ inc ∈ link.incorporated, g.MayIncorporate link.inflexion inc) →
      ∃ i p, g.filled? link = some i ∧ i.parts[part]? = some p ∧ p.surface = surface

/-- An incorporated stem is spelled in its place. -/
theorem surface_of_incorporate? {part : Nat} (hform : g.incorporationForm? id = some form)
    (h : g.incorporate? i ⟨part, id⟩ = some i') :
    ∃ p, i'.parts[part]? = some p ∧ p.surface = form.surface := by
  simp only [incorporate?, Option.bind_eq_bind, Option.bind_eq_some_iff] at h
  obtain ⟨lexeme, -, form', hform', h⟩ := h
  obtain rfl : form' = form := Option.some.inj ((Option.bind_eq_some_iff.2 hform').symm.trans hform)
  split at h
  · rename_i hlt
    obtain rfl := Option.some.inj h
    exact ⟨_, List.getElem?_set_self hlt, rfl⟩
  · exact absurd h (by simp)

/-- It stays there when stems are put in further places. -/
theorem surface_of_foldlM_incorporate? {incs : List Incorporated} {part : Nat}
    (hform : g.incorporationForm? id = some form) (hmem : ⟨part, id⟩ ∈ incs)
    (hordered : incs.Pairwise (·.part < ·.part)) (h : incs.foldlM g.incorporate? i = some i') :
    ∃ p, i'.parts[part]? = some p ∧ p.surface = form.surface := by
  induction incs generalizing i with
  | nil => exact absurd hmem List.not_mem_nil
  | cons inc incs ih =>
    obtain ⟨hbehind, hordered⟩ := List.pairwise_cons.1 hordered
    rw [List.foldlM_cons, Option.bind_eq_bind, Option.bind_eq_some_iff] at h
    obtain ⟨i₁, hi₁, h⟩ := h
    rcases List.mem_cons.1 hmem with rfl | hmem
    · obtain ⟨p, hp, hsurface⟩ := surface_of_incorporate? hform hi₁
      refine ⟨p, ?_, hsurface⟩
      apply getElem?_of_foldlM_incorporate? hp ?_ h
      intro inc hinc
      exact (hbehind inc hinc).ne
    · exact ih hmem hordered h

/-- A sub-lexeme is spelled as its form without breaks. -/
theorem spells_surface (hform : g.incorporationForm? id = some form) :
    g.Spells id form.surface := by
  intro link part hmem hordered hmay
  obtain ⟨-, i, -, hi, -⟩ := hmay _ hmem
  obtain ⟨i', hi', -⟩ := exists_filled? hi hmay
  have hfold := hi'
  rw [filled?, hi] at hfold
  obtain ⟨p, hp, hsurface⟩ := surface_of_foldlM_incorporate? hform hmem hordered hfold
  exact ⟨i', p, hi', hp, hsurface⟩

/-- Every key ends, or the word does, before the search for a match is given up. -/
def KeysEnd (g : Grammar) (word : List Char) : Prop :=
  ∀ id form, g.incorporationForm? id = some form →
    min form.key.length word.length + 2 < Transducer.stepLimit

theorem keysEnd_of_length {word : List Char} (h : word.length + 2 < Transducer.stepLimit) :
    g.KeysEnd word := by
  intro id form _
  omega

end Grammar

/-! ## The index -/

namespace IncorporationIndex

variable {g : Grammar} {d : GrammarDraft} {index : IncorporationIndex} {id : SubLexemeId}
  {length pos : Nat} {form : IncorporationForm} {word : List Char}

/-- What is found in a word has the length of what is spelled and agrees with the word there, and
is found wherever the word has what is spelled. -/
structure Consumes (g : Grammar) (index : IncorporationIndex) (word : List Char) : Prop where
  sound : ∀ pos id length, (id, length) ∈ index.at? word pos →
    ∃ form, g.incorporationForm? id = some form ∧ g.Spells id form.surface ∧
      form.surface.length = length ∧ KeyAt form.surface (word.drop pos)
  complete : wildcard ∉ word → ∀ pos id form, g.incorporationForm? id = some form →
    form.surface <+: word.drop pos → (id, form.surface.length) ∈ index.at? word pos

/-- What is found has the length of its form, and the word has the form there. -/
theorem form_of_mem_at? (hbuild : build g = .ok index) (hid : (id, length) ∈ index.at? word pos) :
    ∃ form, g.incorporationForm? id = some form ∧ length = form.key.length ∧
      KeyAt form.key (word.drop pos) := by
  unfold build at hbuild
  obtain ⟨keys, hkeys, h⟩ := bind_eq_ok_iff.1 hbuild
  obtain rfl := Except.ok.inj h
  obtain ⟨key, hentry, hat⟩ := (Transducer.stores_ofList hkeys).keyAt_of_mem_valuesAt
    (Transducer.wellNumbered_ofList hkeys) hid
  obtain ⟨⟨id', sub⟩, hsub, hkey⟩ := List.mem_filterMap.1 hentry
  obtain ⟨rfl, -, form, hform, rfl, -, rfl⟩ := keyOf?_eq_some_iff.1 hkey
  exact ⟨form, Option.bind_eq_some_iff.2 ⟨sub, Grammar.mem_subLexemes_iff.1 hsub, hform⟩, rfl, hat⟩

/-- No look-up is given up in a word without wildcards if all keys end (`KeysEnd`): it
`completes`. -/
theorem completes_of_keysEnd (hbuild : build g = .ok index) (hplain : wildcard ∉ word)
    (hends : g.KeysEnd word) : index.keys.completes (.anchored pos word) = true := by
  unfold build at hbuild
  obtain ⟨keys, hkeys, h⟩ := bind_eq_ok_iff.1 hbuild
  obtain rfl := Except.ok.inj h
  have hstores := Transducer.stores_ofList hkeys
  apply Transducer.completes_anchored_of_short (Transducer.wellNumbered_ofList hkeys)
    hstores.ordered hplain
  -- Either the word is short, or else all the keys are.
  by_cases hword : word.length + 2 < Transducer.stepLimit
  · omega
  · have hheight : keys.root.height ≤ Transducer.stepLimit - 3 := by
      refine Transducer.height_ofList_le hkeys fun e he => ?_
      obtain ⟨⟨id, sub⟩, hsub, hkey⟩ := List.mem_filterMap.1 he
      obtain ⟨-, -, form, hform, hlength, -⟩ := keyOf?_eq_some_iff.1 hkey
      have hend := hends id form
        (Option.bind_eq_some_iff.2 ⟨sub, Grammar.mem_subLexemes_iff.1 hsub, hform⟩)
      rw [IncorporationForm.key, ← hlength] at hend
      omega
    have hlimit : 3 ≤ Transducer.stepLimit := by decide
    omega

/-- A stem is found (`at?`) where a word without wildcards has its key. -/
theorem mem_at?_iff_begins (hbuild : build d.compile.grammar = .ok index)
    (hform : d.compile.grammar.incorporationForm? id = some form) (hplain : wildcard ∉ word)
    (hends : d.compile.grammar.KeysEnd word) :
    (id, form.key.length) ∈ index.at? word pos ↔ form.key <+: word.drop pos := by
  have hplain' : wildcard ∉ word.drop pos := fun h => hplain (List.mem_of_mem_drop h)
  constructor
  · intro hid
    obtain ⟨form', hform', -, hat⟩ := form_of_mem_at? hbuild hid
    obtain rfl : form' = form := Option.some.inj (hform'.symm.trans hform)
    exact ⟨_, (hat.eq_append hplain').symm⟩
  · rintro ⟨rest, hrest⟩
    obtain ⟨sub, hsub, hmay, hincorporation, hne, -⟩ :=
      GrammarDraft.exists_subLexeme_of_form hform
    have hkey : form.key ≠ [] := by
      rwa [IncorporationForm.key, Ne, String.toList_eq_nil_iff]
    -- The key is not empty, so that the word goes on there.
    have hpos : pos ≤ word.length := by
      by_contra hbehind
      rw [List.drop_eq_nil_of_le (by omega)] at hrest
      exact hkey (List.append_eq_nil_iff.1 hrest).1
    apply (mem_at?_iff hbuild hpos (completes_of_keysEnd hbuild hplain hends)).2
    refine ⟨sub, form.key, hsub, ?_, ?_⟩
    · exact keyOf?_eq_some_iff.2 ⟨rfl, hmay, form, hincorporation, rfl, hkey, rfl⟩
    · rw [← hrest]
      apply KeyAt.refl_append

/-- If no form has breaks, what is found is what is spelled. -/
theorem consumes_of_isUnbroken (hbuild : build d.compile.grammar = .ok index)
    (hunbroken : ∀ id form, d.compile.grammar.incorporationForm? id = some form → form.IsUnbroken)
    (hends : d.compile.grammar.KeysEnd word) : Consumes d.compile.grammar index word where
  sound := by
    intro pos id length hid
    obtain ⟨form, hform, rfl, hat⟩ := form_of_mem_at? hbuild hid
    have heq := (hunbroken id form hform).surface_eq
    refine ⟨form, hform, Grammar.spells_surface hform, by rw [heq], ?_⟩
    rw [heq]
    exact hat
  complete := by
    intro hplain pos id form hform hbegins
    rw [(hunbroken id form hform).surface_eq] at hbegins ⊢
    exact (mem_at?_iff_begins hbuild hform hplain hends).2 hbegins

/-- **Incorporated stems.**  Whatever `at?` finds in a word is spelled as its form without breaks
(`surface`), has the length of its form with breaks (`key`), and the word has the form with breaks
there; in a word without wildcards it is found wherever the word has the form with breaks, unless
that is given up. Only forms that are written in the grammar may have breaks; if none has, what is
found is what is spelled (`Consumes`). -/
theorem consumes_of_build (hbuild : build d.compile.grammar = .ok index) :
    (∀ word pos id length, (id, length) ∈ index.at? word pos →
      ∃ form, d.compile.grammar.incorporationForm? id = some form ∧
        d.compile.grammar.Spells id form.surface ∧ length = form.key.length ∧
        KeyAt form.key (word.drop pos) ∧
        (form.surface.length = length ↔ form.IsUnbroken)) ∧
    (∀ word, wildcard ∉ word → d.compile.grammar.KeysEnd word → ∀ pos id form,
      d.compile.grammar.incorporationForm? id = some form →
        ((id, form.key.length) ∈ index.at? word pos ↔ form.key <+: word.drop pos)) ∧
    (∀ id form, d.compile.grammar.incorporationForm? id = some form →
      (∃ e ∈ d.entries.lexemes, ∃ written, e.incorporation = some written ∧
        form.stem = written.stem) ∨ form.IsUnbroken) ∧
    ((∀ e ∈ d.entries.lexemes, ∀ written, e.incorporation = some written →
        morphBreak ∉ written.stem.toList) →
      ∀ word, d.compile.grammar.KeysEnd word → Consumes d.compile.grammar index word) := by
  have hwritten (id : SubLexemeId) (form : IncorporationForm)
      (hform : d.compile.grammar.incorporationForm? id = some form) :
      (∃ e ∈ d.entries.lexemes, ∃ written, e.incorporation = some written ∧
        form.stem = written.stem) ∨ form.IsUnbroken := by
    obtain ⟨sub, -, -, -, -, hor⟩ := GrammarDraft.exists_subLexeme_of_form hform
    exact hor
  refine ⟨?_, ?_, hwritten, ?_⟩
  · -- What is found is found by its key.
    intro word pos id length hid
    obtain ⟨form, hform, rfl, hat⟩ := form_of_mem_at? hbuild hid
    exact ⟨form, hform, Grammar.spells_surface hform, rfl, hat,
      IncorporationForm.length_surface_eq_iff⟩
  · intro word hplain hends pos id form hform
    exact mem_at?_iff_begins hbuild hform hplain hends
  · intro hnone word hends
    -- Where no written form has breaks, no form has, and each is spelled as its key.
    apply consumes_of_isUnbroken hbuild ?_ hends
    intro id form hform
    rcases hwritten id form hform with ⟨e, he, written, hsome, hstem⟩ | hunbroken
    · rw [IncorporationForm.IsUnbroken, IncorporationForm.key, hstem]
      exact hnone e he written hsome
    · exact hunbroken

/-- Verbs that take in a noun, with the form of the noun as it is written. -/
def sampleDeer (stem : String) : GrammarDraft :=
  (GrammarDraft.start default).add { GrammarDocument.empty with
    paradigms := [⟨"Verb", [.ofFlex ".o<+>" "inc" "INC" []], []⟩,
      ⟨"Noun", [.ofFlex "." "sg" "" []], []⟩]
    lexemes := [⟨"hunt", "hunt.", ["Verb"], "V", "hunt", [], none, false, none⟩,
      ⟨"deer", "deer.", ["Noun"], "N", "deer", [], none, false, some ⟨stem, none, none⟩⟩] }

theorem consumes_of_build_sampleDeer :
    ∃ index, build (sampleDeer "deer").compile.grammar = .ok index ∧
      Consumes (sampleDeer "deer").compile.grammar index "huntodeer".toList ∧
      (⟨⟨1, 1⟩, 0⟩, 4) ∈ index.at? "huntodeer".toList 5 := by
  have hfound : ((build (sampleDeer "deer").compile.grammar).toOption.any fun _ => true) =
      true := by
    decide +kernel
  obtain ⟨index, hbuild, -⟩ := exists_eq_ok_of_any hfound
  obtain ⟨-, -, -, hconsumes⟩ := consumes_of_build hbuild
  have hword := hconsumes (by decide) "huntodeer".toList (Grammar.keysEnd_of_length (by decide))
  have hform : (sampleDeer "deer").compile.grammar.incorporationForm? ⟨⟨1, 1⟩, 0⟩ =
      some ⟨"deer", "N", "deer"⟩ := by
    decide +kernel
  exact ⟨index, hbuild, hword, hword.complete (by decide) 5 _ _ hform ⟨[], rfl⟩⟩

/-- A form with a break is looked for with the break and spelled without it. -/
theorem not_consumes_brokenForm :
    ¬ ∀ (d : GrammarDraft) (index : IncorporationIndex) (word : List Char),
      build d.compile.grammar = .ok index → d.compile.grammar.KeysEnd word →
        Consumes d.compile.grammar index word := by
  intro h
  have hfound : ((build (sampleDeer "de&er").compile.grammar).toOption.any fun index =>
      (index.at? "huntodeer".toList 5).isEmpty) = true := by
    decide +kernel
  obtain ⟨index, hbuild, hempty⟩ := exists_eq_ok_of_any hfound
  have hword := h _ index "huntodeer".toList hbuild (Grammar.keysEnd_of_length (by decide))
  have hform : (sampleDeer "de&er").compile.grammar.incorporationForm? ⟨⟨1, 1⟩, 0⟩ =
      some ⟨"de&er", "N", "deer"⟩ := by
    decide +kernel
  have hmem := hword.complete (by decide) 5 _ _ hform ⟨[], by decide⟩
  rw [List.isEmpty_iff.1 hempty] at hmem
  exact List.not_mem_nil hmem

end IncorporationIndex

end Morphology
