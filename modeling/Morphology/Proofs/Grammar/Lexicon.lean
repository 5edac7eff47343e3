import Morphology.Analysis.Formation
import Morphology.Grammar.Draft

/-!
# Lexemes behind the others

A document with a lexeme more compiles to the same grammar with that lexeme behind the others, under
a handle of its own.  Nothing is formed differently of the lexemes that were there before.

## Main definitions

* `GrammarDocument.addLexeme`, `Grammar.addLexeme` — one more lexeme
* `Grammar.subLexemesOf` — the sub-lexemes that come with it
* `Grammar.AgreeOn` — grammars that differ in their lexemes only, and not in some of them

## Main statements

* `Grammar.ofDocument_addLexeme` — a lexeme may be added before or after compiling
* `Grammar.agreeOn_addLexeme` — the lexemes that were there before stay as they are
* `Grammar.AgreeOn.mergeChain?_eq`, `Grammar.AgreeOn.buildWordform?_eq` — what is formed of lexemes
  that two grammars agree on is the same in both
-/

namespace Morphology

/-! ## One more lexeme -/

/-- The document with one more lexeme, behind the others. -/
def GrammarDocument.addLexeme (doc : GrammarDocument) (e : LexemeEntry) : GrammarDocument :=
  { doc with lexemes := doc.lexemes ++ [e] }

namespace Grammar

/-- The grammar with one more lexeme, unless its entry has no stem or no paradigm. -/
def addLexeme (g : Grammar) (e : LexemeEntry) : Grammar :=
  { g with
    lexemes := (Lexeme.ofEntry g.stemConversions g.paradigms e).1.elim g.lexemes
      fun make => (g.lexemes.allocWith make).2 }

/-- The sub-lexemes that come with one more lexeme. -/
def subLexemesOf (g : Grammar) (e : LexemeEntry) : List SubLexemeId :=
  (Lexeme.ofEntry g.stemConversions g.paradigms e).1.elim [] fun make =>
    (List.range (make g.lexemes.nextHandle).subs.length).map (⟨g.lexemes.nextHandle, ·⟩)

end Grammar

namespace GrammarDraft

/-- The lexemes of entries one behind the other are added one after the other. -/
theorem addLexemes_append (conversions : Table String StemConversion) (ps : Paradigms)
    (lexemes : Arena Lexeme) (es es' : List LexemeEntry) :
    (addLexemes conversions ps lexemes (es ++ es')).1 =
      (addLexemes conversions ps (addLexemes conversions ps lexemes es).1 es').1 := by
  induction es generalizing lexemes with
  | nil => rfl
  | cons e es ih =>
    simp only [List.cons_append, addLexemes]
    exact ih _

/-- The draft with one more lexeme, behind the others. -/
def addLexeme (d : GrammarDraft) (e : LexemeEntry) : GrammarDraft :=
  { d with entries := d.entries.addLexeme e }

/-- What comes before the lexemes is compiled without them, and what comes behind does not refer to
them. -/
theorem compile_addLexeme (d : GrammarDraft) (e : LexemeEntry) :
    (d.addLexeme e).compile.grammar = d.compile.grammar.addLexeme e := by
  simp only [compile, addLexeme, GrammarDocument.addLexeme, addLexemes_append]
  simp only [addLexemes, Grammar.addLexeme]

/-- The draft with the free-form parts of a document. -/
private def addFree (d : GrammarDraft) (badAnalyses categories : Option Json.Value) :
    GrammarDraft :=
  let d := badAnalyses.elim d fun v => (d.addBadAnalyses v).1
  categories.elim d fun v => (d.addCategories v).1

private theorem addFree_addLexeme (d : GrammarDraft) (badAnalyses categories : Option Json.Value)
    (e : LexemeEntry) : (d.addLexeme e).addFree badAnalyses categories =
      (d.addFree badAnalyses categories).addLexeme e := by
  have hbad (d : GrammarDraft) (v : Json.Value) :
      ((d.addLexeme e).addBadAnalyses v).1 = (d.addBadAnalyses v).1.addLexeme e := rfl
  have hcategories (d : GrammarDraft) (v : Json.Value) :
      ((d.addLexeme e).addCategories v).1 = (d.addCategories v).1.addLexeme e := by
    cases v <;> rfl
  cases badAnalyses <;> cases categories <;> simp [addFree, hbad, hcategories]

/-- The lexeme may be added behind the free-form parts of the document, which have nothing to do
with it. -/
theorem add_addLexeme (d : GrammarDraft) (doc : GrammarDocument) (e : LexemeEntry) :
    d.add (doc.addLexeme e) = (d.add doc).addLexeme e := by
  -- The free-form parts come last in a draft, so the lexeme is first added before them.
  let entries : GrammarDraft :=
    d.add { doc with badAnalyses := none, categories := none }
  have hentries : d.add { doc.addLexeme e with badAnalyses := none, categories := none } =
      entries.addLexeme e := by
    simp [entries, add, addLexeme, GrammarDocument.addLexeme]
  calc d.add (doc.addLexeme e)
      = (d.add { doc.addLexeme e with badAnalyses := none, categories := none }).addFree
          doc.badAnalyses doc.categories := rfl
    _ = (entries.addFree doc.badAnalyses doc.categories).addLexeme e := by
        rw [hentries, addFree_addLexeme]
    _ = (d.add doc).addLexeme e := rfl

end GrammarDraft

namespace Grammar

/-- Only the lexemes of a grammar depend on those of its document. -/
theorem ofDocument_addLexeme (config : GrammarConfig) (doc : GrammarDocument) (e : LexemeEntry) :
    (ofDocument config (doc.addLexeme e)).grammar =
      (ofDocument config doc).grammar.addLexeme e := by
  rw [ofDocument, GrammarDraft.add_addLexeme, GrammarDraft.compile_addLexeme, ofDocument]

variable {g g' : Grammar} {e : LexemeEntry} {h : Handle} {id : SubLexemeId} {sub : SubLexeme}

theorem lexeme?_nextHandle (g : Grammar) : g.lexeme? g.lexemes.nextHandle = none := by
  simp [lexeme?, Arena.get?, Arena.nextHandle]

/-- A sub-lexeme that was there before is not one of the next lexeme. -/
theorem ne_nextHandle_of_subLexeme? (hsub : g.subLexeme? id = some sub) :
    id.lexeme ≠ g.lexemes.nextHandle := by
  intro heq
  rw [subLexeme?, heq, lexeme?_nextHandle] at hsub
  exact absurd hsub (by simp)

theorem lexeme?_addLexeme (g : Grammar) (e : LexemeEntry) (h : Handle) :
    (g.addLexeme e).lexeme? h =
      if h = g.lexemes.nextHandle then
        (Lexeme.ofEntry g.stemConversions g.paradigms e).1.map (· g.lexemes.nextHandle)
      else g.lexeme? h := by
  unfold addLexeme lexeme?
  cases (Lexeme.ofEntry g.stemConversions g.paradigms e).1 with
  | none =>
    split
    · rename_i heq
      rw [heq]
      exact g.lexeme?_nextHandle
    · rfl
  | some make => exact Arena.get?_alloc g.lexemes make h

/-- The sub-lexemes under the next handle are those that come with the lexeme. -/
theorem mem_subLexemesOf_iff : id ∈ g.subLexemesOf e ↔
    id.lexeme = g.lexemes.nextHandle ∧ ∃ sub, (g.addLexeme e).subLexeme? id = some sub := by
  obtain ⟨h, n⟩ := id
  by_cases hh : h = g.lexemes.nextHandle
  · subst hh
    simp only [subLexemesOf, subLexeme?, lexeme?_addLexeme, if_true, true_and]
    cases (Lexeme.ofEntry g.stemConversions g.paradigms e).1 with
    | none => simp
    | some make =>
      have hlt (subs : List SubLexeme) : n < subs.length ↔ ∃ sub, subs[n]? = some sub :=
        ⟨fun hn => ⟨_, List.getElem?_eq_getElem hn⟩,
          fun ⟨_, hsub⟩ => (List.getElem?_eq_some_iff.1 hsub).1⟩
      simpa using hlt _
  · -- No sub-lexeme that comes with the lexeme is under another handle.
    have hnone : ⟨h, n⟩ ∉ g.subLexemesOf e := by
      unfold subLexemesOf
      cases (Lexeme.ofEntry g.stemConversions g.paradigms e).1 with
      | none => simp
      | some make => simp [Ne.symm hh]
    simp [hnone, hh]

/-! ## Lexemes that stay -/

/-- Two grammars differ in their lexemes only, and not in those under some handles. -/
structure AgreeOn (kept : Handle → Prop) (g g' : Grammar) : Prop where
  others : g' = { g with lexemes := g'.lexemes }
  lexeme?_eq : ∀ h, kept h → g'.lexeme? h = g.lexeme? h

/-- The lexemes that were there before stay as they are. -/
theorem agreeOn_addLexeme (g : Grammar) (e : LexemeEntry) :
    AgreeOn (· ≠ g.lexemes.nextHandle) g (g.addLexeme e) where
  others := by simp only [addLexeme]
  lexeme?_eq := by
    intro h hne
    rw [lexeme?_addLexeme, if_neg hne]

namespace AgreeOn

variable {kept : Handle → Prop}

theorem symm (hagree : AgreeOn kept g g') : AgreeOn kept g' g where
  others := by rw [hagree.others]
  lexeme?_eq := fun h hkept => (hagree.lexeme?_eq h hkept).symm

theorem paradigms_eq (hagree : AgreeOn kept g g') : g'.paradigms = g.paradigms := by
  rw [hagree.others]

theorem inflexion?_eq (hagree : AgreeOn kept g g') (id : InflexionId) :
    g'.inflexion? id = g.inflexion? id := by
  rw [inflexion?, hagree.paradigms_eq, inflexion?]

theorem subLexeme?_eq (hagree : AgreeOn kept g g') (hkept : kept id.lexeme) :
    g'.subLexeme? id = g.subLexeme? id := by
  rw [subLexeme?, hagree.lexeme?_eq _ hkept, subLexeme?]

/-! ### What is formed of them -/

theorem buildWordform?_eq (hagree : AgreeOn kept g g') (hkept : kept id.lexeme) (i : Inflexion) :
    g'.buildWordform? id i = g.buildWordform? id i := by
  rw [buildWordform?, hagree.lexeme?_eq _ hkept, buildWordform?]

theorem generateWordforms_eq (hagree : AgreeOn kept g g') (hkept : kept id.lexeme) :
    g'.generateWordforms id = g.generateWordforms id := by
  have hbuild : g'.buildWordform? id = g.buildWordform? id :=
    funext (hagree.buildWordform?_eq hkept)
  simp only [generateWordforms, hagree.subLexeme?_eq hkept, hbuild, paradigm?,
    hagree.paradigms_eq]

theorem incorporate?_eq (hagree : AgreeOn kept g g') {inc : Incorporated}
    (hkept : kept inc.sub.lexeme) (i : Inflexion) :
    g'.incorporate? i inc = g.incorporate? i inc := by
  rw [incorporate?, hagree.lexeme?_eq _ hkept, hagree.subLexeme?_eq hkept, incorporate?]

theorem filled?_eq (hagree : AgreeOn kept g g') {link : ChainLink}
    (hkept : ∀ inc ∈ link.incorporated, kept inc.sub.lexeme) :
    g'.filled? link = g.filled? link := by
  -- Each stem changes the inflexion that the next one goes into.
  have hfold (incs : List Incorporated) (hincs : ∀ inc ∈ incs, kept inc.sub.lexeme)
      (i : Inflexion) : incs.foldlM g'.incorporate? i = incs.foldlM g.incorporate? i := by
    induction incs generalizing i with
    | nil => rfl
    | cons inc incs ih =>
      obtain ⟨hinc, hincs⟩ := List.forall_mem_cons.1 hincs
      rw [List.foldlM_cons, List.foldlM_cons, hagree.incorporate?_eq hinc]
      exact congrArg _ (funext fun j => ih hincs j)
  rw [filled?, hagree.inflexion?_eq, filled?]
  exact congrArg _ (funext fun i => hfold _ hkept i)

/-- A chain merges into the same inflexion if it incorporates nothing but what is kept. -/
theorem mergeChain?_eq (hagree : AgreeOn kept g g') {chain : List ChainLink}
    (hkept : ∀ link ∈ chain, ∀ inc ∈ link.incorporated, kept inc.sub.lexeme) :
    g'.mergeChain? chain = g.mergeChain? chain := by
  induction chain with
  | nil => rfl
  | cons link rest ih =>
    obtain ⟨hlink, hrest⟩ := List.forall_mem_cons.1 hkept
    -- A link alone is not joined with anything.
    cases rest with
    | nil => exact hagree.filled?_eq hlink
    | cons next rest => rw [mergeChain?, mergeChain?, ih hrest, hagree.filled?_eq hlink]

end AgreeOn

end Grammar

end Morphology
