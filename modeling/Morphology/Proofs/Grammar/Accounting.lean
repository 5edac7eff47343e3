import Morphology.Proofs.Grammar.Forks

/-!
# What becomes of entries

Of every entry there is a part of its own, or a report.  A paradigm is declared by the first entry
of its name, is then filled with the inflexions of this entry, and is extended by links to the forks
of its derivations; nothing of it is lost on the way.

## Main definitions

* `Accounted` — every entry has a part of its own, or is reported
* `GrammarDraft.handle?` — the paradigm that the first entry of a name becomes
* `GrammarDraft.declared`, `GrammarDraft.filled`, `GrammarDraft.expanded` — the stages of paradigms
* `Paradigms.Named` — a paradigm that is found by a name has it
* `Forking.Grows` — what there is before forks are made stays

## Main statements

* `accounted_collect`, `accounted_collect_of_iff` — entries that are collected are accounted for
* `GrammarDraft.exists_filled` — a source has a paradigm of its own with its inflexions
* `Paradigms.get?_expand` — paradigms that use derivations are extended by links only
-/

namespace Morphology

universe u v

/-! ## Entries and parts -/

/-- Every entry has a part of its own or is reported, and there are no other parts.  The parts come
in the order of the entries. -/
inductive Accounted {ε : Type u} {α : Type v} (Made : ε → α → Prop) (Reported : ε → Prop) :
    List ε → List α → Prop
  | nil : Accounted Made Reported [] []
  | made {e : ε} {part : α} {entries : List ε} {parts : List α} (h : Made e part)
      (rest : Accounted Made Reported entries parts) :
      Accounted Made Reported (e :: entries) (part :: parts)
  | reported {e : ε} {entries : List ε} {parts : List α} (h : Reported e)
      (rest : Accounted Made Reported entries parts) :
      Accounted Made Reported (e :: entries) parts

/-- Entries are accounted for by a way of making parts, whose faults are reported. -/
abbrev AccountedBy {ε : Type u} {α : Type v} (make : ε → Except GrammarError α)
    (reports : List GrammarError) : List ε → List α → Prop :=
  Accounted (fun e part => make e = .ok part) fun e => ∃ fault ∈ reports, make e = .error fault

section Accounted

variable {ε : Type u} {α : Type v} {Made Made' : ε → α → Prop} {Reported Reported' : ε → Prop}
  {entries : List ε} {parts : List α}

theorem Accounted.mono (h : Accounted Made Reported entries parts)
    (hmade : ∀ e ∈ entries, ∀ part, Made e part → Made' e part)
    (hreported : ∀ e ∈ entries, Reported e → Reported' e) :
    Accounted Made' Reported' entries parts := by
  induction h with
  | nil => exact .nil
  | made h _ ih =>
    obtain ⟨hfirst, hrest⟩ := List.forall_mem_cons.1 hmade
    exact .made (hfirst _ h) (ih hrest (List.forall_mem_cons.1 hreported).2)
  | reported h _ ih =>
    obtain ⟨hfirst, hrest⟩ := List.forall_mem_cons.1 hreported
    exact .reported (hfirst h) (ih (List.forall_mem_cons.1 hmade).2 hrest)

/-- Every part is made of an entry. -/
theorem Accounted.exists_entry (h : Accounted Made Reported entries parts) {part : α}
    (hpart : part ∈ parts) : ∃ e ∈ entries, Made e part := by
  induction h with
  | nil => exact absurd hpart List.not_mem_nil
  | @made e _ _ _ hmade _ ih =>
    rcases List.mem_cons.1 hpart with rfl | hpart
    · exact ⟨e, List.mem_cons_self .., hmade⟩
    · obtain ⟨e', he', hmade'⟩ := ih hpart
      exact ⟨e', List.mem_cons_of_mem _ he', hmade'⟩
  | reported _ _ ih =>
    obtain ⟨e', he', hmade'⟩ := ih hpart
    exact ⟨e', List.mem_cons_of_mem _ he', hmade'⟩

theorem Accounted.made_or_reported (h : Accounted Made Reported entries parts) {e : ε}
    (he : e ∈ entries) : (∃ part ∈ parts, Made e part) ∨ Reported e := by
  induction h with
  | nil => exact absurd he List.not_mem_nil
  | made h _ ih =>
    rcases List.mem_cons.1 he with rfl | he
    · exact .inl ⟨_, List.mem_cons_self .., h⟩
    · exact (ih he).imp_left fun ⟨part, hpart, hmade⟩ => ⟨part, List.mem_cons_of_mem _ hpart, hmade⟩
  | reported h _ ih =>
    rcases List.mem_cons.1 he with rfl | he
    · exact .inr h
    · exact ih he

/-- Where there are no parts, every entry is reported. -/
theorem Accounted.reported_of_nil (h : Accounted Made Reported entries parts) (hnil : parts = [])
    {e : ε} (he : e ∈ entries) : Reported e := by
  rcases h.made_or_reported he with ⟨part, hpart, -⟩ | hreported
  · exact absurd (hnil ▸ hpart) List.not_mem_nil
  · exact hreported

theorem AccountedBy.of_subset {make : ε → Except GrammarError α}
    {reports reports' : List GrammarError} (h : AccountedBy make reports entries parts)
    (hreports : ∀ fault ∈ reports, fault ∈ reports') : AccountedBy make reports' entries parts :=
  Accounted.mono h (fun _ _ _ h => h)
    fun _ _ ⟨fault, hfault, he⟩ => ⟨fault, hreports fault hfault, he⟩

/-- Entries that are collected are accounted for. -/
theorem accounted_collect (make : ε → Except GrammarError α) (entries : List ε) :
    AccountedBy make (collect make entries).2 entries (collect make entries).1 := by
  induction entries with
  | nil => exact .nil
  | cons e rest ih =>
    simp only [collect]
    cases hmake : make e with
    | ok part => exact .made hmake ih
    | error fault =>
      refine .reported ⟨fault, List.mem_cons_self .., hmake⟩ ?_
      exact ih.of_subset fun _ hfault => List.mem_cons_of_mem _ hfault

/-- If it is known which part an entry becomes, the parts collected are those of the entries that
become one. -/
theorem accounted_collect_of_iff {make : ε → Except GrammarError α} {IsOf : α → ε → Prop}
    (h : ∀ e part, make e = .ok part ↔ IsOf part e) (entries : List ε) :
    Accounted (fun e part => IsOf part e) (fun e => ∀ part, ¬ IsOf part e) entries
      (collect make entries).1 := by
  refine (accounted_collect make entries).mono (fun e _ part hmade => (h e part).1 hmade) ?_
  intro e _ hreported part hpart
  obtain ⟨fault, -, hfault⟩ := hreported
  exact absurd (hfault.symm.trans ((h e part).2 hpart)) nofun

/-- The parts collected are those of the entries that become one. -/
theorem collect_eq_filterMap (make : ε → Except GrammarError α) (entries : List ε) :
    (collect make entries).1 = entries.filterMap fun e => (make e).toOption := by
  induction entries with
  | nil => rfl
  | cons e rest ih =>
    rw [List.filterMap_cons, ← ih]
    cases hmake : make e with
    | error fault => simp [collect, hmake, Except.toOption]
    | ok part => simp [collect, hmake, Except.toOption]

end Accounted

theorem readPattern_eq_ok_iff {origin : Origin} {text : String} {p : Pattern} :
    readPattern origin text = .ok p ↔ Pattern.read? text = some p := by
  unfold readPattern
  cases Pattern.read? text with
  | none => exact ⟨nofun, nofun⟩
  | some q => exact ⟨fun h => congrArg _ (Except.ok.inj h), fun h => congrArg _ (Option.some.inj h)⟩

/-! ## Stages -/

namespace GrammarDraft

variable {d : GrammarDraft}

/-- The paradigms that there are before their inflexions are read. -/
def declared (d : GrammarDraft) : Paradigms :=
  (declareParadigms .empty d.entries.paradigms).1

/-- The paradigm that the first entry of a name becomes. -/
def handle? (d : GrammarDraft) : String → Option Handle :=
  d.declared.find?

/-- The paradigms with the inflexions of their entries. -/
def filled (d : GrammarDraft) : Paradigms :=
  (fillParadigms d.declared d.sources).1

/-- The paradigms with all forks. -/
def expanded (d : GrammarDraft) : Paradigms :=
  (d.filled.expand d.entries.derivations d.sources).1

theorem isWidening_expanded (d : GrammarDraft) :
    d.expanded.IsWidening d.compile.grammar.paradigms :=
  Paradigms.isWidening_widen d.expanded d.config

/-- The reports of a compiled draft are those of its stages. -/
theorem mem_diagnostics_compile {fault : GrammarError} : fault ∈ d.compile.diagnostics ↔
    fault ∈ d.diagnostics ∨ fault ∈ (collect StemConversion.ofEntry d.entries.stemConversions).2 ∨
    fault ∈ (declareParadigms .empty d.entries.paradigms).2.2 ∨
    fault ∈ (fillParadigms d.declared d.sources).2 ∨
    fault ∈ (d.filled.expand d.entries.derivations d.sources).2 ∨
    fault ∈ (addLexemes d.compile.grammar.stemConversions d.compile.grammar.paradigms (.empty 1)
      d.entries.lexemes).2 ∨
    fault ∈ (collect Clitic.ofEntry d.entries.clitics).2 ∨
    fault ∈ (collect LexRule.ofEntry d.entries.lexRules).2 := by
  -- The reports stand in the order of the stages.
  have hsplit : d.compile.diagnostics = d.diagnostics ++
      (collect StemConversion.ofEntry d.entries.stemConversions).2 ++
      (declareParadigms .empty d.entries.paradigms).2.2 ++
      (fillParadigms d.declared d.sources).2 ++
      (d.filled.expand d.entries.derivations d.sources).2 ++
      (addLexemes d.compile.grammar.stemConversions d.compile.grammar.paradigms (.empty 1)
        d.entries.lexemes).2 ++
      (collect Clitic.ofEntry d.entries.clitics).2 ++
      (collect LexRule.ofEntry d.entries.lexRules).2 := rfl
  simp only [hsplit, List.mem_append, or_assoc]

end GrammarDraft

/-! ## Paradigms -/

namespace Paradigms

variable {ps ps' : Paradigms} {h : Handle} {p : Paradigm} {name : String}

/-- A paradigm that is found by a name has it. -/
def Named (ps : Paradigms) : Prop :=
  ∀ name h, ps.find? name = some h → ∃ p, ps.get? h = some p ∧ p.name = name

theorem Named.empty : Paradigms.empty.Named :=
  fun _ _ h => nomatch h

theorem get?_nextHandle (ps : Paradigms) : ps.get? ps.arena.nextHandle = none := by
  simp [get?, Arena.get?, Arena.nextHandle]

/-- Paradigms that are there stay as they are when there is one more. -/
theorem get?_add_of_some (hp : ps.get? h = some p) (q : Paradigm) :
    (ps.add q).2.get? h = some p := by
  rw [get?_add, if_neg]
  · exact hp
  · rintro rfl
    exact absurd (ps.get?_nextHandle.symm.trans hp) (by simp)

/-- A paradigm of a new name takes no name away. -/
theorem find?_add_of_new {q : Paradigm} (hnew : ps.find? q.name = none)
    (hname : ps.find? name = some h) : (ps.add q).2.find? name = some h := by
  rw [find?_add, if_neg]
  · exact hname
  · rintro rfl
    exact absurd (hnew.symm.trans hname) (by simp)

theorem Named.add (hps : ps.Named) (p : Paradigm) : (ps.add p).2.Named := by
  intro name h hname
  rw [find?_add] at hname
  split at hname
  · rename_i heq
    obtain rfl := Option.some.inj hname
    exact ⟨p, by rw [get?_add, if_pos rfl], heq.symm⟩
  · obtain ⟨q, hq, hqname⟩ := hps name h hname
    exact ⟨q, get?_add_of_some hq p, hqname⟩

/-- Inflexions do not change names. -/
theorem Named.of_frame (hps : ps.Named) (hnames : ps'.names = ps.names)
    (hframe : ∀ h, (ps'.get? h).map Paradigm.frame = (ps.get? h).map Paradigm.frame) :
    ps'.Named := by
  intro name h hname
  rw [find?, hnames] at hname
  obtain ⟨p, hp, rfl⟩ := hps name h hname
  obtain ⟨q, hq, hsame⟩ := exists_of_frame (fun h => (hframe h).symm) hp
  exact ⟨q, hq, Paradigm.name_eq_of_frame hsame⟩

theorem Named.modifyInflexions (hps : ps.Named) (h : Handle)
    (f : List Inflexion → List Inflexion) : (ps.modifyInflexions h f).Named :=
  hps.of_frame rfl fun h' => frame_modifyInflexions ps h h' f

/-- Two names under which the same paradigm is found are the same. -/
theorem Named.name_eq (hps : ps.Named) {name' : String} (hname : ps.find? name = some h)
    (hname' : ps.find? name' = some h) : name = name' := by
  obtain ⟨p, hp, rfl⟩ := hps name h hname
  obtain ⟨q, hq, rfl⟩ := hps name' h hname'
  exact congrArg Paradigm.name (Option.some.inj (hp.symm.trans hq))

end Paradigms

namespace GrammarDraft

variable {ps : Paradigms} {entries : List ParadigmEntry} {e : ParadigmEntry} {h : Handle}
  {name : String}

/-! ### Declaring -/

theorem accounted_declareParadigms (ps : Paradigms) (entries : List ParadigmEntry) :
    Accounted (fun e source => e = source)
      (fun e => .duplicateParadigm e.name ∈ (declareParadigms ps entries).2.2)
      entries (declareParadigms ps entries).2.1 := by
  induction entries generalizing ps with
  | nil => exact .nil
  | cons e rest ih =>
    simp only [declareParadigms]
    split
    · refine .reported (List.mem_cons_self ..) ((ih ps).mono (fun _ _ _ h => h) ?_)
      exact fun _ _ hmem => List.mem_cons_of_mem _ hmem
    · exact .made rfl (ih _)

theorem named_declareParadigms (hps : ps.Named) (entries : List ParadigmEntry) :
    (declareParadigms ps entries).1.Named := by
  induction entries generalizing ps with
  | nil => exact hps
  | cons e rest ih =>
    simp only [declareParadigms]
    split
    · exact ih hps
    · exact ih (hps.add _)

/-- A name that is there already is kept by its paradigm. -/
theorem find?_declareParadigms_of_some (hname : ps.find? name = some h)
    (entries : List ParadigmEntry) : (declareParadigms ps entries).1.find? name = some h := by
  induction entries generalizing ps with
  | nil => exact hname
  | cons e rest ih =>
    simp only [declareParadigms]
    split
    · exact ih hname
    · rename_i hnew
      exact ih (Paradigms.find?_add_of_new (Option.not_isSome_iff_eq_none.1 hnew) hname)

theorem get?_declareParadigms_of_some {p : Paradigm} (hp : ps.get? h = some p)
    (entries : List ParadigmEntry) : (declareParadigms ps entries).1.get? h = some p := by
  induction entries generalizing ps with
  | nil => exact hp
  | cons e rest ih =>
    simp only [declareParadigms]
    split
    · exact ih hp
    · exact ih (Paradigms.get?_add_of_some hp _)

/-- Every source is declared, without inflexions yet. -/
theorem exists_of_mem_declareParadigms (he : e ∈ (declareParadigms ps entries).2.1) :
    ∃ h, (declareParadigms ps entries).1.find? e.name = some h ∧
      (declareParadigms ps entries).1.get? h = some ⟨e.name, [], none⟩ := by
  induction entries generalizing ps with
  | nil => exact absurd he List.not_mem_nil
  | cons first rest ih =>
    simp only [declareParadigms] at he ⊢
    split at he
    · -- The name is declared before, and the entry declares nothing.
      rename_i hdone
      rw [if_pos hdone]
      exact ih he
    · rename_i hnew
      rw [if_neg hnew]
      rcases List.mem_cons.1 he with rfl | he
      · -- The new paradigm keeps its name and its handle among those that come later.
        refine ⟨ps.arena.nextHandle, find?_declareParadigms_of_some ?_ rest,
          get?_declareParadigms_of_some ?_ rest⟩
        · rw [Paradigms.find?_add, if_pos rfl]
        · rw [Paradigms.get?_add, if_pos rfl]
      · exact ih he

/-- No names are declared but those of sources. -/
theorem find?_declareParadigms_of_ne (hname : ps.find? name = none)
    (hne : ∀ s ∈ (declareParadigms ps entries).2.1, s.name ≠ name) :
    (declareParadigms ps entries).1.find? name = none := by
  induction entries generalizing ps with
  | nil => exact hname
  | cons e rest ih =>
    simp only [declareParadigms] at hne ⊢
    split at hne
    · rename_i hdone
      rw [if_pos hdone]
      exact ih hname hne
    · rename_i hnew
      rw [if_neg hnew]
      -- A new name is that of a source, and so another one.
      obtain ⟨he, hrest⟩ := List.forall_mem_cons.1 hne
      refine ih ?_ hrest
      rw [Paradigms.find?_add, if_neg (Ne.symm he)]
      exact hname

/-! ### Reading inflexions -/

/-- The paradigms with the inflexions of one entry. -/
private def fillOne (ps : Paradigms) (e : ParadigmEntry) : Paradigms :=
  match ps.find? e.name with
  | some h =>
    ps.modifyInflexions h fun _ => (collect (Inflexion.ofEntry ps.find? e.name) e.inflexions).1
  | none => ps

private theorem fillParadigms_cons (ps : Paradigms) (e : ParadigmEntry)
    (rest : List ParadigmEntry) : fillParadigms ps (e :: rest) =
      ((fillParadigms (fillOne ps e) rest).1,
        (collect (Inflexion.ofEntry ps.find? e.name) e.inflexions).2 ++
          (fillParadigms (fillOne ps e) rest).2) := rfl

private theorem names_fillOne (ps : Paradigms) (e : ParadigmEntry) :
    (fillOne ps e).names = ps.names := by
  unfold fillOne
  split <;> rfl

private theorem get?_fillOne (ps : Paradigms) (e : ParadigmEntry) (h : Handle) :
    (fillOne ps e).get? h = if ps.find? e.name = some h then
      (ps.get? h).map fun p => { p with
        inflexions := (collect (Inflexion.ofEntry ps.find? e.name) e.inflexions).1 }
      else ps.get? h := by
  unfold fillOne
  split
  · rename_i h' hfind
    rw [Paradigms.get?_modifyInflexions, hfind]
    -- The handle under the name is the one asked for, or it is another.
    by_cases heq : h = h'
    · rw [if_pos heq, if_pos (congrArg some heq.symm), heq]
    · rw [if_neg heq, if_neg fun hsome => heq (Option.some.inj hsome).symm]
  · rename_i hfind
    rw [if_neg (by rw [hfind]; nofun)]

theorem names_fillParadigms (ps : Paradigms) (entries : List ParadigmEntry) :
    (fillParadigms ps entries).1.names = ps.names := by
  induction entries generalizing ps with
  | nil => rfl
  | cons e rest ih => exact (ih (fillOne ps e)).trans (names_fillOne ps e)

/-- Paradigms of other names stay as they are. -/
theorem get?_fillParadigms_of_ne (hne : ∀ e ∈ entries, ps.find? e.name ≠ some h) :
    (fillParadigms ps entries).1.get? h = ps.get? h := by
  induction entries generalizing ps with
  | nil => rfl
  | cons e rest ih =>
    obtain ⟨he, hrest⟩ := List.forall_mem_cons.1 hne
    rw [fillParadigms_cons, ih, get?_fillOne, if_neg he]
    intro e' he'
    rw [Paradigms.find?, names_fillOne]
    exact hrest e' he'

/-- Every paradigm has the inflexions of its entry, and its faults are reported. -/
theorem get?_fillParadigms (hps : ps.Named) (hnodup : (entries.map (·.name)).Nodup)
    (he : e ∈ entries) (hname : ps.find? e.name = some h) :
    ((fillParadigms ps entries).1.get? h = (ps.get? h).map fun p => { p with
        inflexions := (collect (Inflexion.ofEntry ps.find? e.name) e.inflexions).1 }) ∧
      ∀ fault ∈ (collect (Inflexion.ofEntry ps.find? e.name) e.inflexions).2,
        fault ∈ (fillParadigms ps entries).2 := by
  induction entries generalizing ps with
  | nil => exact absurd he List.not_mem_nil
  | cons first rest ih =>
    obtain ⟨hfirst, hnodup⟩ := List.nodup_cons.1 hnodup
    have hne (e : ParadigmEntry) (he : e ∈ rest) : e.name ≠ first.name := fun heq =>
      hfirst (List.mem_map.2 ⟨e, he, heq⟩)
    have hfind (name : String) : (fillOne ps first).find? name = ps.find? name := by
      rw [Paradigms.find?, names_fillOne, Paradigms.find?]
    rw [fillParadigms_cons]
    rcases List.mem_cons.1 he with rfl | he
    · constructor
      · -- The other entries have other names, and so other paradigms.
        rw [get?_fillParadigms_of_ne, get?_fillOne, if_pos hname]
        intro e' he' hname'
        rw [hfind] at hname'
        exact hne e' he' (hps.name_eq hname' hname)
      · exact fun fault hfault => List.mem_append_left _ hfault
    · -- The first entry has another name, and so fills another paradigm.
      have hother : ps.find? first.name ≠ some h := fun hname' =>
        hne e he (hps.name_eq hname hname')
      have hnamed : (fillOne ps first).Named := by
        unfold fillOne
        split
        · exact hps.modifyInflexions _ _
        · exact hps
      obtain ⟨hget, hfaults⟩ := ih hnamed hnodup he ((hfind e.name).trans hname)
      rw [get?_fillOne, if_neg hother] at hget
      -- The inflexions are read with the same names as before.
      rw [show (fillOne ps first).find? = ps.find? from funext hfind] at hget hfaults
      exact ⟨hget, fun fault hfault => List.mem_append_right _ (hfaults fault hfault)⟩

end GrammarDraft

/-! ### Derivations -/

namespace Forking

variable {f : Forking} {source : String} {lower restricted : List String}

/-- Further forks have been made, and nothing that was there before is changed. -/
structure Grows (f f' : Forking) : Prop where
  names : ∀ name h, f.paradigms.find? name = some h → f'.paradigms.find? name = some h
  paradigms : ∀ h p, f.paradigms.get? h = some p → f'.paradigms.get? h = some p
  forks : ∀ h ∈ f.forks, h ∈ f'.forks
  errors : ∀ fault ∈ f.errors, fault ∈ f'.errors

theorem Grows.refl (f : Forking) : f.Grows f :=
  ⟨fun _ _ h => h, fun _ _ h => h, fun _ h => h, fun _ h => h⟩

theorem Grows.trans {f f' f'' : Forking} (h : f.Grows f') (h' : f'.Grows f'') : f.Grows f'' where
  names := fun name own hname => h'.names name own (h.names name own hname)
  paradigms := fun own p hp => h'.paradigms own p (h.paradigms own p hp)
  forks := fun own hown => h'.forks own (h.forks own hown)
  errors := fun fault hfault => h'.errors fault (h.errors fault hfault)

theorem grows_addFork (f : Forking) (source : String) (lower restricted : List String)
    (link : ResolvedLink) : f.Grows (f.addFork source lower restricted link).1 := by
  simp only [addFork]
  -- A fork of that name is there, and nothing is added.
  split
  · exact .refl f
  · rename_i hnew
    refine ⟨fun name h hname => ?_, fun h p hp => ?_, fun h hh => List.mem_append_left _ hh,
      fun fault hfault => List.mem_append_left _ hfault⟩
    · exact Paradigms.find?_add_of_new (Option.not_isSome_iff_eq_none.1 hnew) hname
    · -- What is there before has another handle than the new fork.
      rw [Paradigms.get?_modifyInflexions, if_neg]
      · exact Paradigms.get?_add_of_some hp _
      · rintro rfl
        exact absurd ((Paradigms.get?_nextHandle _).symm.trans hp) (by simp)

theorem grows_addClass (f : Forking) (source : String) (lower restricted : List String)
    (links : List ResolvedLink) : f.Grows (f.addClass source lower restricted links).1 := by
  induction links generalizing f with
  | nil => exact .refl f
  | cons link rest ih => exact (grows_addFork f source lower restricted link).trans (ih _)

theorem grows_addClasses (f : Forking) (source : String) (links : List ResolvedLink)
    (lower : List String) (classes : List (Nat × List ResolvedLink)) :
    f.Grows (f.addClasses source links lower classes) := by
  induction classes generalizing f lower with
  | nil => exact .refl f
  | cons c rest ih =>
    obtain ⟨c, ofClass⟩ := c
    exact (grows_addClass f source lower (restrictedFrom links c) ofClass).trans (ih _ _)

theorem named_addFork (hf : f.paradigms.Named) (link : ResolvedLink) :
    (f.addFork source lower restricted link).1.paradigms.Named := by
  simp only [addFork]
  split
  · exact hf
  · exact (hf.add _).modifyInflexions _ _

theorem named_addClass (hf : f.paradigms.Named) (links : List ResolvedLink) :
    (f.addClass source lower restricted links).1.paradigms.Named := by
  induction links generalizing f with
  | nil => exact hf
  | cons link rest ih => exact ih (named_addFork hf link)

theorem named_addClasses (hf : f.paradigms.Named) (links : List ResolvedLink)
    (classes : List (Nat × List ResolvedLink)) :
    (f.addClasses source links lower classes).paradigms.Named := by
  induction classes generalizing f lower with
  | nil => exact hf
  | cons c rest ih =>
    obtain ⟨c, ofClass⟩ := c
    exact ih (named_addClass hf ofClass)

end Forking

namespace Paradigms

variable {ps ps' : Paradigms} {h : Handle} {p : Paradigm}

/-- A paradigm has got further inflexions, which are links. -/
def Extended (p p' : Paradigm) : Prop :=
  ∃ links, (∀ i ∈ links, i.isLink = true) ∧ p' = { p with inflexions := p.inflexions ++ links }

theorem Extended.refl (p : Paradigm) : Extended p p :=
  ⟨[], by simp, by simp⟩

theorem Extended.trans {p p' p'' : Paradigm} (h : Extended p p') (h' : Extended p' p'') :
    Extended p p'' := by
  obtain ⟨links, hlinks, rfl⟩ := h
  obtain ⟨links', hlinks', rfl⟩ := h'
  refine ⟨links ++ links', fun i hi => ?_, by simp⟩
  exact (List.mem_append.1 hi).elim (hlinks i) (hlinks' i)

/-- All forks of one paradigm, before there are links to them. -/
def forking (ps : Paradigms) (derivations : List DerivationEntry) (source : ParadigmEntry) :
    Forking :=
  Forking.addClasses ⟨ps, [], (resolveLinks derivations source).2⟩ source.name
    (resolveLinks derivations source).1 [] (groupByClass (resolveLinks derivations source).1)

variable {derivations : List DerivationEntry} {source : ParadigmEntry}

theorem grows_forking (ps : Paradigms) (derivations : List DerivationEntry)
    (source : ParadigmEntry) : Forking.Grows ⟨ps, [], (resolveLinks derivations source).2⟩
      (ps.forking derivations source) :=
  Forking.grows_addClasses ..

theorem expandSource_of_find? (hown : ps.find? source.name = some h) :
    ps.expandSource derivations source =
      let f := ps.forking derivations source
      if f.forks.isEmpty then (f.paradigms, f.errors)
      else
        ((f.paradigms.add ⟨unifiedName source.name, [.link f.forks], none⟩).2.modifyInflexions h
          (· ++ [.link f.forks]), f.errors) := by
  unfold expandSource
  rw [hown]
  rfl

theorem expandSource_of_unknown (hown : ps.find? source.name = none) :
    ps.expandSource derivations source = (ps, []) := by
  unfold expandSource
  rw [hown]

theorem named_expandSource (hps : ps.Named) (derivations : List DerivationEntry)
    (source : ParadigmEntry) : (ps.expandSource derivations source).1.Named := by
  have hforks : (ps.forking derivations source).paradigms.Named := Forking.named_addClasses hps _ _
  cases hown : ps.find? source.name with
  | none =>
    rw [expandSource_of_unknown hown]
    exact hps
  | some h =>
    rw [expandSource_of_find? hown]
    generalize ps.forking derivations source = f at hforks ⊢
    dsimp only
    split
    · -- Without a fork there is no link, and no paradigm for it.
      exact hforks
    · exact (hforks.add _).modifyInflexions _ _

theorem isLink_link {handles : List Handle} (h : ¬ handles.isEmpty = true) :
    (Inflexion.link handles).isLink = true := by
  simpa [Inflexion.isLink, Inflexion.link, Inflexion.ofParts] using h

/-- Of the paradigms that there are, only the source is extended. -/
theorem get?_expandSource (hp : ps.get? h = some p) (derivations : List DerivationEntry)
    (source : ParadigmEntry) : ∃ p', (ps.expandSource derivations source).1.get? h = some p' ∧
      Extended p p' ∧ (ps.find? source.name ≠ some h → p' = p) := by
  -- The forks are made beside the paradigms that there are.
  have hforks : (ps.forking derivations source).paradigms.get? h = some p :=
    (ps.grows_forking derivations source).paradigms h p hp
  cases hown : ps.find? source.name with
  | none =>
    rw [expandSource_of_unknown hown]
    exact ⟨p, hp, .refl p, fun _ => rfl⟩
  | some own =>
    rw [expandSource_of_find? hown]
    dsimp only
    split
    · exact ⟨p, hforks, .refl p, fun _ => rfl⟩
    · rename_i hne
      rw [get?_modifyInflexions]
      split
      · -- The source itself gets the link at its end.
        rename_i heq
        subst heq
        rw [get?_add_of_some hforks]
        refine ⟨_, rfl, ⟨_, ?_, rfl⟩, fun hother => absurd rfl hother⟩
        exact List.forall_mem_singleton.2 (isLink_link hne)
      · exact ⟨p, get?_add_of_some hforks _, .refl p, fun _ => rfl⟩

/-- Paradigms that use derivations are extended by links only. -/
theorem get?_expand (hp : ps.get? h = some p) (derivations : List DerivationEntry)
    (sources : List ParadigmEntry) :
    ∃ p', (ps.expand derivations sources).1.get? h = some p' ∧ Extended p p' := by
  induction sources generalizing ps p with
  | nil => exact ⟨p, hp, .refl p⟩
  | cons source rest ih =>
    obtain ⟨p', hp', hext, -⟩ := get?_expandSource hp derivations source
    obtain ⟨p'', hp'', hext'⟩ := ih hp'
    exact ⟨p'', hp'', hext.trans hext'⟩

theorem named_expand (hps : ps.Named) (derivations : List DerivationEntry)
    (sources : List ParadigmEntry) : (ps.expand derivations sources).1.Named := by
  induction sources generalizing ps with
  | nil => exact hps
  | cons source rest ih => exact ih (named_expandSource hps derivations source)

end Paradigms

/-! ## Sources -/

namespace GrammarDraft

variable {d : GrammarDraft}

theorem named_declared (d : GrammarDraft) : d.declared.Named :=
  named_declareParadigms .empty _

theorem named_filled (d : GrammarDraft) : d.filled.Named := by
  -- Inflexions are filled in one entry after another, and no name changes.
  have hfill (ps : Paradigms) (hps : ps.Named) (entries : List ParadigmEntry) :
      (fillParadigms ps entries).1.Named := by
    induction entries generalizing ps with
    | nil => exact hps
    | cons e rest ih =>
      rw [fillParadigms_cons]
      apply ih
      unfold fillOne
      split
      · exact hps.modifyInflexions _ _
      · exact hps
  exact hfill _ d.named_declared _

/-- Every source has a paradigm of its own before derivations, with the inflexions of its entry. -/
theorem exists_filled {source : ParadigmEntry} (hsource : source ∈ d.sources) :
    ∃ h own, d.handle? source.name = some h ∧
      d.filled.get? h = some ⟨source.name, own, none⟩ ∧
      AccountedBy (Inflexion.ofEntry d.handle? source.name) d.compile.diagnostics
        source.inflexions own := by
  obtain ⟨h, hname, hdeclared⟩ := exists_of_mem_declareParadigms hsource
  obtain ⟨hfilled, hfaults⟩ := get?_fillParadigms d.named_declared
    (nodup_declareParadigms .empty d.entries.paradigms).1 hsource hname
  have hget : d.declared.get? h = some ⟨source.name, [], none⟩ := hdeclared
  -- The faults of the inflexions are among the reports of the draft.
  rw [hget] at hfilled
  refine ⟨h, _, hname, hfilled, (accounted_collect _ _).of_subset fun fault hfault => ?_⟩
  exact mem_diagnostics_compile.2 (.inr (.inr (.inr (.inl (hfaults fault hfault)))))

end GrammarDraft

end Morphology
