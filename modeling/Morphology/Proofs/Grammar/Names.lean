import Morphology.Proofs.Grammar.Links

/-!
# Names of paradigms

A paradigm is found by its name.  A written paradigm of a name that is taken is reported, and a fork
of such a name is not made.  The paradigm that leads to all forks of a source gets its name without
a look at the others, so that it may take the name of a written paradigm or of a fork away.

## Main definitions

* `Paradigms.FindsLast` — every name is that of the last paradigm that has it
* `Paradigms.NamesUnique` — every name is that of the one paradigm that has it
* `Paradigm.IsUnifiedOf` — a paradigm leads to the forks of a source
* `Paradigms.Extends` — the paradigms after the derivations of some sources
* `ParadigmEntry.UnifiedApart` — no written paradigm and no fork has the name of such a paradigm

## Main statements

* `Paradigms.FindsLast.find?_eq_some_iff` — which paradigm is found by a name
* `Paradigms.Extends.addUnified` — the one step that may take a name away
* `GrammarDraft.paradigms_of_names` — which paradigms of a compiled grammar share a name, and that
  names are unique where those made for sources are apart
* `GrammarDraft.not_namesUnique_maskedPlural` — a written paradigm is lost without a report
-/

namespace Morphology

namespace Paradigms

variable {ps ps' : Paradigms} {h h' : Handle} {p p' : Paradigm} {name : String}

/-! ## Handles in order -/

/-- The next handle is behind all handles of paradigms. -/
theorem index_lt_nextHandle (hp : ps.get? h = some p) : h.index < ps.arena.nextHandle.index := by
  simp only [get?, Arena.get?] at hp
  split at hp
  · exact (Array.getElem?_eq_some_iff.1 hp).1
  · exact absurd hp (by simp)

/-- All handles of paradigms are of the same arena. -/
theorem eq_of_index_eq (hp : ps.get? h = some p) (hp' : ps.get? h' = some p')
    (hindex : h.index = h'.index) : h = h' := by
  simp only [get?, Arena.get?] at hp hp'
  split at hp
  · rename_i harena
    split at hp'
    · rename_i harena'
      obtain ⟨n, i⟩ := h
      obtain ⟨n', i'⟩ := h'
      rw [Handle.mk.injEq]
      exact ⟨harena.trans harena'.symm, hindex⟩
    · exact absurd hp' (by simp)
  · exact absurd hp (by simp)

/-! ## What names stand for -/

/-- Every name is that of the last paradigm that has it. -/
structure FindsLast (ps : Paradigms) : Prop where
  named : ps.Named
  last : ∀ h p, ps.get? h = some p → ∃ own, ps.find? p.name = some own ∧ h.index ≤ own.index

/-- Every name is that of the one paradigm that has it. -/
structure NamesUnique (ps : Paradigms) : Prop where
  distinct : ∀ h h' p p', ps.get? h = some p → ps.get? h' = some p' → p.name = p'.name → h = h'
  found : ∀ name h, ps.find? name = some h ↔ ∃ p, ps.get? h = some p ∧ p.name = name

theorem get?_empty (h : Handle) : Paradigms.empty.get? h = none := by
  simp [Paradigms.empty, get?, Arena.get?, Arena.empty]

namespace FindsLast

theorem empty : Paradigms.empty.FindsLast where
  named := .empty
  last := fun h _ hp => absurd ((get?_empty h).symm.trans hp) (by simp)

/-- One more paradigm is the last one. -/
theorem add (hps : ps.FindsLast) (p : Paradigm) : (ps.add p).2.FindsLast where
  named := hps.named.add p
  last := by
    intro h q hq
    rw [get?_add] at hq
    rw [find?_add]
    split at hq
    · rename_i heq
      obtain rfl := Option.some.inj hq
      exact ⟨_, if_pos rfl, heq ▸ Nat.le_refl _⟩
    · by_cases hname : q.name = p.name
      · exact ⟨_, if_pos hname, (index_lt_nextHandle hq).le⟩
      · rw [if_neg hname]
        exact hps.last h q hq

theorem of_frame (hps : ps.FindsLast) (hnames : ps'.names = ps.names)
    (hframe : ∀ h, (ps'.get? h).map Paradigm.frame = (ps.get? h).map Paradigm.frame) :
    ps'.FindsLast where
  named := hps.named.of_frame hnames hframe
  last := by
    intro h p' hp'
    obtain ⟨p, hp, hsame⟩ := exists_of_frame hframe hp'
    rw [find?, hnames, ← Paradigm.name_eq_of_frame hsame]
    exact hps.last h p hp

/-- A name that is not found is that of no paradigm. -/
theorem name_ne (hps : ps.FindsLast) (hnone : ps.find? name = none) (hp : ps.get? h = some p) :
    p.name ≠ name := by
  rintro rfl
  obtain ⟨own, hown, -⟩ := hps.last h p hp
  exact absurd (hnone.symm.trans hown) (by simp)

/-- By a name the last paradigm is found that has it. -/
theorem find?_eq_some_iff (hps : ps.FindsLast) : ps.find? name = some h ↔
    (∃ p, ps.get? h = some p ∧ p.name = name) ∧
      ∀ h' p, ps.get? h' = some p → p.name = name → h'.index ≤ h.index := by
  constructor
  · refine fun hname => ⟨hps.named name h hname, ?_⟩
    rintro h' p hp rfl
    obtain ⟨own, hown, hle⟩ := hps.last h' p hp
    rwa [Option.some.inj (hown.symm.trans hname)] at hle
  · rintro ⟨⟨p, hp, rfl⟩, hlast⟩
    obtain ⟨own, hown, hle⟩ := hps.last h p hp
    obtain ⟨q, hq, hname⟩ := hps.named p.name own hown
    rw [hown, eq_of_index_eq hq hp (Nat.le_antisymm (hlast own q hq hname) hle)]

/-- Where no two paradigms have the same name, the last one of a name is the only one. -/
theorem namesUnique (hps : ps.FindsLast) (hdistinct : ∀ h h' p p', ps.get? h = some p →
    ps.get? h' = some p' → p.name = p'.name → h = h') : ps.NamesUnique where
  distinct := hdistinct
  found := by
    intro name h
    rw [hps.find?_eq_some_iff]
    refine and_iff_left_of_imp ?_
    rintro ⟨p, hp, rfl⟩ h' p' hp' hname
    exact (congrArg Handle.index (hdistinct h' h p' p hp' hp hname)).le

end FindsLast

/-! ## Written paradigms -/

/-- A paradigm of a name that is not found leaves names unique. -/
theorem NamesUnique.add (hlast : ps.FindsLast) (hps : ps.NamesUnique)
    (hnew : ps.find? p.name = none) : (ps.add p).2.NamesUnique := by
  refine (hlast.add p).namesUnique fun h h' q q' hq hq' hname => ?_
  rw [get?_add] at hq hq'
  split at hq
  · rename_i heq
    obtain rfl := Option.some.inj hq
    split at hq'
    · rename_i heq'
      exact heq.trans heq'.symm
    · exact absurd hname.symm (hlast.name_ne hnew hq')
  · split at hq'
    · obtain rfl := Option.some.inj hq'
      exact absurd hname (hlast.name_ne hnew hq)
    · exact hps.distinct h h' q q' hq hq' hname

end Paradigms

namespace GrammarDraft

variable {ps : Paradigms} {d : GrammarDraft} {h : Handle} {p : Paradigm}

/-- A written paradigm of a name that is taken is not declared. -/
theorem namesUnique_declareParadigms (hlast : ps.FindsLast) (hps : ps.NamesUnique)
    (entries : List ParadigmEntry) :
    (declareParadigms ps entries).1.FindsLast ∧ (declareParadigms ps entries).1.NamesUnique := by
  induction entries generalizing ps with
  | nil => exact ⟨hlast, hps⟩
  | cons e rest ih =>
    simp only [declareParadigms]
    split
    · exact ih hlast hps
    · rename_i hnew
      exact ih (hlast.add _) (hps.add hlast (Option.not_isSome_iff_eq_none.1 hnew))

theorem namesUnique_declared (d : GrammarDraft) :
    d.declared.FindsLast ∧ d.declared.NamesUnique := by
  refine namesUnique_declareParadigms .empty (Paradigms.FindsLast.empty.namesUnique ?_) _
  intro h _ p _ hp
  exact absurd ((Paradigms.get?_empty h).symm.trans hp) (by simp)

/-- A written paradigm has the name of a source. -/
theorem exists_source_of_declared (hp : d.declared.get? h = some p) :
    ∃ s ∈ d.sources, s.name = p.name := by
  obtain ⟨own, hown, -⟩ := d.namesUnique_declared.1.last h p hp
  by_contra hnone
  have hfree : d.declared.find? p.name = none :=
    find?_declareParadigms_of_ne rfl fun s hs heq => hnone ⟨s, hs, heq⟩
  exact absurd (hfree.symm.trans hown) (by simp)

theorem frame_fillParadigms (ps : Paradigms) (entries : List ParadigmEntry) (h : Handle) :
    ((fillParadigms ps entries).1.get? h).map Paradigm.frame = (ps.get? h).map Paradigm.frame := by
  induction entries generalizing ps with
  | nil => rfl
  | cons e rest ih =>
    simp only [fillParadigms]
    rw [ih]
    split
    · exact Paradigms.frame_modifyInflexions ..
    · rfl

end GrammarDraft

/-! ## Derivations -/

/-- A paradigm leads to the forks of a source that uses derivations. -/
structure Paradigm.IsUnifiedOf (source : ParadigmEntry) (p : Paradigm) : Prop where
  name : p.name = unifiedName source.name
  derivation : p.derivation = none
  derivations : source.derivations ≠ []

theorem Paradigm.IsUnifiedOf.of_frame {source : ParadigmEntry} {p p' : Paradigm}
    (h : p.IsUnifiedOf source) (hsame : p.frame = p'.frame) : p'.IsUnifiedOf source where
  name := Paradigm.name_eq_of_frame hsame ▸ h.name
  derivation := Paradigm.derivation_eq_of_frame hsame ▸ h.derivation
  derivations := h.derivations

namespace Paradigms

variable {ps ps' written : Paradigms} {done : List ParadigmEntry} {h h' : Handle}
  {p p' : Paradigm} {source : ParadigmEntry}

/-- The written paradigms, with those that derivations have made for the sources done.  Two of the
same name are a written one or a fork, and behind it the one that leads to the forks of a source. -/
structure Extends (written : Paradigms) (done : List ParadigmEntry) (ps : Paradigms) : Prop where
  finds : ps.FindsLast
  keeps : ∀ h p, written.get? h = some p → ∃ q, ps.get? h = some q ∧ q.name = p.name
  origin : ∀ h p, ps.get? h = some p →
    written.Known h ∨ p.derivation.isSome = true ∨ ∃ s ∈ done, p.IsUnifiedOf s
  clash : ∀ h h' p p', ps.get? h = some p → ps.get? h' = some p' → p.name = p'.name →
    h.index < h'.index → (written.Known h ∨ p.derivation.isSome = true) ∧
      ¬ written.Known h' ∧ ∃ s ∈ done, p'.IsUnifiedOf s

namespace Extends

theorem of_namesUnique (hlast : written.FindsLast) (hunique : written.NamesUnique) :
    written.Extends [] written where
  finds := hlast
  keeps := fun _ p hp => ⟨p, hp, rfl⟩
  origin := fun _ _ hp => .inl (Option.isSome_iff_exists.2 ⟨_, hp⟩)
  clash := fun _ _ _ _ hp hp' hname hlt =>
    absurd (congrArg Handle.index (hunique.distinct _ _ _ _ hp hp' hname)) (Nat.ne_of_lt hlt)

theorem mono (hps : written.Extends done ps) {done' : List ParadigmEntry}
    (hdone : ∀ s ∈ done, s ∈ done') : written.Extends done' ps where
  finds := hps.finds
  keeps := hps.keeps
  origin := fun h p hp =>
    (hps.origin h p hp).imp_right (.imp_right fun ⟨s, hs, hp⟩ => ⟨s, hdone s hs, hp⟩)
  clash := by
    intro h h' p p' hp hp' hname hlt
    obtain ⟨hfirst, hnew, s, hs, hunified⟩ := hps.clash h h' p p' hp hp' hname hlt
    exact ⟨hfirst, hnew, s, hdone s hs, hunified⟩

/-- Inflexions do not matter: `Extends` speaks of the frames of paradigms only. -/
theorem of_frame (hps : written.Extends done ps) (hnames : ps'.names = ps.names)
    (hframe : ∀ h, (ps'.get? h).map Paradigm.frame = (ps.get? h).map Paradigm.frame) :
    written.Extends done ps' where
  finds := hps.finds.of_frame hnames hframe
  keeps := by
    intro h p hp
    obtain ⟨q, hq, hname⟩ := hps.keeps h p hp
    obtain ⟨q', hq', hsame⟩ := exists_of_frame (fun h => (hframe h).symm) hq
    exact ⟨q', hq', (Paradigm.name_eq_of_frame hsame).trans hname⟩
  origin := by
    intro h p' hp'
    obtain ⟨p, hp, hsame⟩ := exists_of_frame hframe hp'
    rw [← Paradigm.derivation_eq_of_frame hsame]
    -- A unified paradigm is known by its name and by its having no derivation.
    refine (hps.origin h p hp).imp_right (.imp_right ?_)
    rintro ⟨s, hs, hunified⟩
    exact ⟨s, hs, hunified.of_frame hsame⟩
  clash := by
    intro h h' q q' hq hq' heq hlt
    obtain ⟨p, hp, hsame⟩ := exists_of_frame hframe hq
    obtain ⟨p', hp', hsame'⟩ := exists_of_frame hframe hq'
    have hnames : p.name = p'.name := (Paradigm.name_eq_of_frame hsame).trans
      (heq.trans (Paradigm.name_eq_of_frame hsame').symm)
    obtain ⟨hfirst, hnew, s, hs, hunified⟩ := hps.clash h h' p p' hp hp' hnames hlt
    exact ⟨Paradigm.derivation_eq_of_frame hsame ▸ hfirst, hnew, s, hs, hunified.of_frame hsame'⟩

theorem modifyInflexions (hps : written.Extends done ps) (h : Handle)
    (f : List Inflexion → List Inflexion) : written.Extends done (ps.modifyInflexions h f) :=
  hps.of_frame rfl fun h' => frame_modifyInflexions ps h h' f

/-- One more paradigm, which is behind all others: it remains to say where it is from, and which of
the others have its name. -/
theorem add (hps : written.Extends done ps)
    (horigin : p.derivation.isSome = true ∨ ∃ s ∈ done, p.IsUnifiedOf s)
    (hclash : ∀ h q, ps.get? h = some q → q.name = p.name →
      (written.Known h ∨ q.derivation.isSome = true) ∧ ∃ s ∈ done, p.IsUnifiedOf s) :
    written.Extends done (ps.add p).2 where
  finds := hps.finds.add p
  keeps := by
    intro h q hq
    obtain ⟨q', hq', hname⟩ := hps.keeps h q hq
    exact ⟨q', get?_add_of_some hq' p, hname⟩
  origin := by
    intro h q hq
    rw [get?_add] at hq
    -- The new paradigm has the origin given.
    split at hq
    · obtain rfl := Option.some.inj hq
      exact .inr horigin
    · exact hps.origin h q hq
  clash := by
    intro h h' q q' hq hq' hname hlt
    rw [get?_add] at hq hq'
    split at hq'
    · -- The later one is new, and the earlier one was there before.
      rename_i hnext
      obtain rfl := Option.some.inj hq'
      rw [if_neg (by rintro rfl; exact absurd (hnext ▸ hlt) (Nat.lt_irrefl _))] at hq
      obtain ⟨hfirst, hunified⟩ := hclash h q hq hname
      refine ⟨hfirst, fun hknown => ?_, hunified⟩
      obtain ⟨q, hq⟩ := Option.isSome_iff_exists.1 hknown
      obtain ⟨q', hq', -⟩ := hps.keeps h' q hq
      rw [hnext, get?_nextHandle] at hq'
      exact absurd hq' (by simp)
    · -- Nothing comes behind the new one.
      rw [if_neg] at hq
      · exact hps.clash h h' q q' hq hq' hname hlt
      · rintro rfl
        exact absurd (index_lt_nextHandle hq') (Nat.lt_asymm hlt)

/-- The paradigm that leads to the forks of a source takes no name away but those of a written
paradigm or of a fork. -/
theorem addUnified (hps : written.Extends done ps) (hdone : ∀ s ∈ done, s.name ≠ source.name)
    (hsource : source.derivations ≠ []) (inflexions : List Inflexion) :
    written.Extends (done ++ [source]) (ps.add ⟨unifiedName source.name, inflexions, none⟩).2 := by
  have hunified : ∃ s ∈ done ++ [source],
      Paradigm.IsUnifiedOf s ⟨unifiedName source.name, inflexions, none⟩ :=
    ⟨source, by simp, rfl, rfl, hsource⟩
  refine (hps.mono fun s hs => List.mem_append_left _ hs).add (.inr hunified) ?_
  intro h q hq hname
  refine ⟨?_, hunified⟩
  rcases hps.origin h q hq with hknown | hfork | ⟨s, hs, hother⟩
  · exact .inl hknown
  · exact .inr hfork
  · exact absurd (unifiedName_inj.1 (hother.name.symm.trans hname)) (hdone s hs)

end Extends

end Paradigms

namespace Forking

variable {f : Forking} {written : Paradigms} {done : List ParadigmEntry} {source : String}
  {lower restricted : List String}

/-- A fork of a name that is taken is not made. -/
theorem extends_addFork (hf : written.Extends done f.paradigms) (link : ResolvedLink) :
    written.Extends done (f.addFork source lower restricted link).1.paradigms := by
  simp only [addFork]
  split
  · exact hf
  · rename_i hnew
    dsimp only
    refine (hf.add (.inl rfl) fun h q hq hname => ?_).modifyInflexions _ _
    exact absurd hname (hf.finds.name_ne (Option.not_isSome_iff_eq_none.1 hnew) hq)

theorem extends_addClass (hf : written.Extends done f.paradigms) (links : List ResolvedLink) :
    written.Extends done (f.addClass source lower restricted links).1.paradigms := by
  induction links generalizing f with
  | nil => exact hf
  | cons link rest ih => exact ih (extends_addFork hf link)

theorem extends_addClasses (hf : written.Extends done f.paradigms) (links : List ResolvedLink)
    (classes : List (Nat × List ResolvedLink)) :
    written.Extends done (f.addClasses source links lower classes).paradigms := by
  induction classes generalizing f lower with
  | nil => exact hf
  | cons c rest ih =>
    obtain ⟨c, ofClass⟩ := c
    exact ih (extends_addClass hf ofClass)

end Forking

namespace Paradigms

variable {ps written : Paradigms} {done : List ParadigmEntry} {source : ParadigmEntry}

/-- A source without links has no forks. -/
theorem forks_forking_of_nil (hsource : source.derivations = [])
    (derivations : List DerivationEntry) : (ps.forking derivations source).forks = [] := by
  have hlinks : resolveLinks derivations source = ([], []) := by
    rw [resolveLinks, hsource]
    rfl
  rw [forking, hlinks]
  rfl

/-- One source more is done: what `expandSource` adds are forks and the paradigm that unifies
them. -/
theorem Extends.expandSource (hps : written.Extends done ps)
    (hdone : ∀ s ∈ done, s.name ≠ source.name) (derivations : List DerivationEntry) :
    written.Extends (done ++ [source]) (ps.expandSource derivations source).1 := by
  have hmore (s : ParadigmEntry) (hs : s ∈ done) : s ∈ done ++ [source] :=
    List.mem_append_left _ hs
  cases hown : ps.find? source.name with
  -- A source that is unknown is passed over.
  | none =>
    rw [expandSource_of_unknown hown]
    exact hps.mono hmore
  | some h =>
    have hforks : written.Extends done (ps.forking derivations source).paradigms :=
      Forking.extends_addClasses hps _ _
    rw [expandSource_of_find? hown]
    dsimp only
    split
    · -- Without forks there is nothing to unify.
      exact hforks.mono hmore
    · rename_i hsome
      -- There are forks, so the source has links.
      have hlinks : source.derivations ≠ [] := fun hnil =>
        hsome (List.isEmpty_iff.2 (forks_forking_of_nil hnil derivations))
      dsimp only
      exact (hforks.addUnified hdone hlinks _).modifyInflexions _ _

/-- All sources are done one after the other. -/
theorem Extends.expand {sources : List ParadigmEntry} (hps : written.Extends done ps)
    (hnodup : ((done ++ sources).map (·.name)).Nodup) (derivations : List DerivationEntry) :
    written.Extends (done ++ sources) (ps.expand derivations sources).1 := by
  induction sources generalizing ps done with
  | nil => simpa [Paradigms.expand] using hps
  | cons source rest ih =>
    -- No two sources share a name, so none of those done makes the name for this one.
    have hdone (s : ParadigmEntry) (hs : s ∈ done) : s.name ≠ source.name := by
      rw [List.map_append, List.nodup_append] at hnodup
      exact hnodup.2.2 _ (List.mem_map_of_mem hs) _ (List.mem_map_of_mem (List.mem_cons_self ..))
    rw [List.append_cons] at hnodup ⊢
    exact ih (hps.expandSource hdone derivations) hnodup

end Paradigms

/-! ## Compiled grammars -/

/-- No written paradigm and no fork has the name of a paradigm that leads to forks. -/
def ParadigmEntry.UnifiedApart (sources : List ParadigmEntry) : Prop :=
  ∀ source ∈ sources, source.derivations ≠ [] → ∀ s ∈ sources, s.name ≠ unifiedName source.name ∧
    ∀ link ∈ s.derivations, forkName link.derivation s.name ≠ unifiedName source.name

instance (sources : List ParadigmEntry) : Decidable (ParadigmEntry.UnifiedApart sources) :=
  inferInstanceAs (Decidable (∀ source ∈ sources, source.derivations ≠ [] → ∀ s ∈ sources,
    s.name ≠ unifiedName source.name ∧
      ∀ link ∈ s.derivations, forkName link.derivation s.name ≠ unifiedName source.name))

theorem ParadigmEntry.NamesApart.unifiedApart {sources : List ParadigmEntry}
    (h : NamesApart sources) : UnifiedApart sources := by
  intro source hsource _ s hs
  refine ⟨(h.written s hs source hsource).1, fun link hlink heq => ?_⟩
  exact h.unified source hsource s hs link hlink heq.symm

namespace GrammarDraft

theorem extends_compile (d : GrammarDraft) :
    d.declared.Extends d.sources d.compile.grammar.paradigms := by
  obtain ⟨hlast, hunique⟩ := d.namesUnique_declared
  have hfilled : d.declared.Extends [] d.filled :=
    (Paradigms.Extends.of_namesUnique hlast hunique).of_frame (names_fillParadigms _ _)
      (frame_fillParadigms _ _)
  have hnodup := (nodup_declareParadigms .empty d.entries.paradigms).1
  have hexpanded : d.declared.Extends d.sources d.expanded :=
    hfilled.expand hnodup d.entries.derivations
  exact hexpanded.of_frame d.isWidening_expanded.names d.isWidening_expanded.frame

variable {d : GrammarDraft} {h h' : Handle} {p p' : Paradigm}

/-- Of two paradigms with the same name the first is a written one or a fork, and the second leads
to the forks of a source. -/
theorem unified_of_name_eq (hp : d.compile.grammar.paradigm? h = some p)
    (hp' : d.compile.grammar.paradigm? h' = some p') (hname : p.name = p'.name)
    (hlt : h.index < h'.index) :
    (d.declared.Known h ∨
      ∃ source ∈ d.sources, ∃ link, p.IsForkOf d.entries.derivations source link) ∧
    ¬ d.declared.Known h' ∧ ∃ source ∈ d.sources, p'.IsUnifiedOf source := by
  obtain ⟨hfirst, hlater⟩ := d.extends_compile.clash h h' p p' hp hp' hname hlt
  refine ⟨hfirst.imp_right fun hfork => ?_, hlater⟩
  obtain ⟨info, hinfo⟩ := Option.isSome_iff_exists.1 hfork
  exact exists_isForkOf hp hinfo

/-- Where the names made for sources are apart, no paradigm has the name of an earlier one. -/
theorem not_lt_of_unifiedApart (hapart : ParadigmEntry.UnifiedApart d.sources)
    (hp : d.compile.grammar.paradigm? h = some p)
    (hp' : d.compile.grammar.paradigm? h' = some p') (hname : p.name = p'.name) :
    ¬ h.index < h'.index := by
  intro hlt
  obtain ⟨hfirst, -, source, hsource, hunified⟩ := unified_of_name_eq hp hp' hname hlt
  have hname := hname.trans hunified.name
  -- The name of the later one is that of a source or of a fork.
  rcases hfirst with hknown | ⟨s, hs, link, hfork⟩
  · obtain ⟨q, hq⟩ := Option.isSome_iff_exists.1 hknown
    obtain ⟨p₀, hp₀, hq'⟩ := d.extends_compile.keeps h q hq
    obtain rfl := Option.some.inj (hp₀.symm.trans hp)
    obtain ⟨s, hs, hsname⟩ := exists_source_of_declared hq
    exact (hapart source hsource hunified.derivations s hs).1
      (hsname.trans (hq'.symm.trans hname))
  · obtain ⟨entry, hlink⟩ := hfork.known
    exact (hapart source hsource hunified.derivations s hs).2 link
      (Paradigms.mem_resolveLinks_iff.1 hlink).1 (hfork.name.symm.trans hname)

/-- **Names of paradigms.**  `find?` gives the last paradigm that has a name. At most two paradigms
have the same name, a written one or a fork (`IsForkOf`) and behind it the one that leads to all
forks of a source (`IsUnifiedOf`), and `NamesUnique` holds if no written paradigm and no fork has
the name of such a paradigm (`UnifiedApart`). -/
theorem paradigms_of_names (d : GrammarDraft) :
    (∀ name h, d.compile.grammar.paradigms.find? name = some h ↔
      (∃ p, d.compile.grammar.paradigm? h = some p ∧ p.name = name) ∧
        ∀ h' p, d.compile.grammar.paradigm? h' = some p → p.name = name → h'.index ≤ h.index) ∧
    (∀ h h' p p', d.compile.grammar.paradigm? h = some p →
      d.compile.grammar.paradigm? h' = some p' → p.name = p'.name → h.index < h'.index →
        (d.declared.Known h ∨
          ∃ source ∈ d.sources, ∃ link, p.IsForkOf d.entries.derivations source link) ∧
        ¬ d.declared.Known h' ∧ ∃ source ∈ d.sources, p'.IsUnifiedOf source) ∧
    (ParadigmEntry.UnifiedApart d.sources → d.compile.grammar.paradigms.NamesUnique) := by
  have hfinds := d.extends_compile.finds
  refine ⟨fun name h => hfinds.find?_eq_some_iff, fun h h' p p' => unified_of_name_eq,
    fun hapart => hfinds.namesUnique fun h h' p p' hp hp' hname => ?_⟩
  have hle : h'.index ≤ h.index := Nat.not_lt.1 (not_lt_of_unifiedApart hapart hp hp' hname)
  have hge : h.index ≤ h'.index := Nat.not_lt.1 (not_lt_of_unifiedApart hapart hp' hp hname.symm)
  exact Paradigms.eq_of_index_eq hp hp' (Nat.le_antisymm hge hle)

/-- A noun in a written paradigm that has the name made for the forks of a verb. -/
def maskedPlural : GrammarDraft :=
  (start default).add { GrammarDocument.empty with
    paradigms := [
      ⟨"V", [⟨".", "prs", "", none, [], none, .both, [], false, true⟩], [⟨"agent", 0, []⟩]⟩,
      ⟨"#deriv#paradigm#V", [⟨".s", "pl", "PL", none, [], none, .both, [], false, true⟩], []⟩]
    derivations := [
      ⟨"agent", [⟨".er", "agent", "AG", none, [], none, .both, [], false, true⟩], []⟩]
    lexemes := [
      ⟨"cat", "cat.", ["#deriv#paradigm#V"], "N", "cat", [], none, false, none⟩] }

/-- The names of the written paradigm and of the one that leads to the fork of the verb. -/
private theorem exists_masked : ∃ p p',
    maskedPlural.compile.grammar.paradigm? ⟨0, 1⟩ = some p ∧
      maskedPlural.compile.grammar.paradigm? ⟨0, 3⟩ = some p' ∧ p.name = p'.name := by
  have hnames : (maskedPlural.compile.grammar.paradigm? ⟨0, 1⟩).map (·.name) =
      some (unifiedName "V") ∧ (maskedPlural.compile.grammar.paradigm? ⟨0, 3⟩).map (·.name) =
        some (unifiedName "V") := by
    decide +kernel
  obtain ⟨⟨p, hp, hname⟩, p', hp', hname'⟩ := And.imp Option.map_eq_some_iff.1
    Option.map_eq_some_iff.1 hnames
  exact ⟨p, p', hp, hp', hname.trans hname'.symm⟩

/-- A verb without marks in its names, and the verb whose forks take the name of a written
paradigm. -/
theorem paradigms_of_names_samples :
    (∃ d : GrammarDraft, d = linkedVerb [⟨"agent", 0, ["N", "A"]⟩] ∧
      ParadigmEntry.UnifiedApart d.sources ∧ d.compile.grammar.paradigms.NamesUnique) ∧
    maskedPlural.declared.Known ⟨0, 1⟩ ∧ ¬ maskedPlural.declared.Known ⟨0, 3⟩ := by
  refine ⟨⟨linkedVerb [⟨"agent", 0, ["N", "A"]⟩], rfl, ?_⟩, ?_, ?_⟩
  · have hapart : ParadigmEntry.UnifiedApart (linkedVerb [⟨"agent", 0, ["N", "A"]⟩]).sources :=
      (ParadigmEntry.namesApart_of_unmarked (by decide +kernel) (by decide +kernel)).unifiedApart
    exact ⟨hapart, (paradigms_of_names _).2.2 hapart⟩
  · show (maskedPlural.declared.get? ⟨0, 1⟩).isSome = true
    decide +kernel
  · obtain ⟨p, p', hp, hp', hname⟩ := exists_masked
    exact ((paradigms_of_names maskedPlural).2.1 _ _ p p' hp hp' hname (by decide)).2.1

/-- Names are not unique, and nothing is reported: a noun in the written paradigm is inflected by
the derivations of the verb. -/
theorem not_namesUnique_maskedPlural :
    ¬ ∀ d : GrammarDraft, d.compile.diagnostics = [] →
      d.compile.grammar.paradigms.NamesUnique := by
  intro h
  obtain ⟨p, p', hp, hp', hname⟩ := exists_masked
  have hunique := h maskedPlural (by decide +kernel)
  exact absurd (hunique.distinct _ _ p p' hp hp' hname) (by decide)

end GrammarDraft

end Morphology
