import Mathlib.Data.List.Nodup
import Morphology.Proofs.Grammar.Widening
import Morphology.Proofs.Search.Indices

/-!
# Forks of compiled grammars

A paradigm that says something about a derivation is a fork: it was made of a link of a source
paradigm.  The links of a source are taken in ascending classes, and a fork that is there already is
not made again, so that the link of a fork is one of the lowest class in which the source uses the
derivation.  What a fork rules out is what its source uses in this class or a higher one.

## Main definitions

* `GrammarDraft.sources` — the entries that paradigms are made of
* `Paradigm.IsForkOf` — a paradigm is the fork of a link of a source
* `Paradigm.comesFrom` — whether a paradigm is a fork with the name of a source
* `Paradigm.ComesOf` — a paradigm that says something about a derivation is a fork

## Main statements

* `GrammarDraft.exists_isForkOf` — the paradigms of derivations are forks
* `GrammarDraft.restricts_iff` — the derivations that a fork rules out
* `GrammarDraft.recursClass_lt_of_unrestricted` — a fork that another of the same source does not
  rule out is of a lower class
-/

namespace Morphology

/-! ## Sets of names -/

theorem mem_nameSet {name : String} {names : List String} :
    name ∈ nameSet names ↔ name ∈ names := by
  -- One step adds the name unless it is there.
  have hstep (done : List String) (n : String) :
      name ∈ (if done.contains n then done else done ++ [n]) ↔ name = n ∨ name ∈ done := by
    split
    · rename_i hmem
      rw [or_iff_right_of_imp]
      rintro rfl
      simpa using hmem
    · rw [List.mem_append, List.mem_singleton, or_comm]
  have hfold (done : List String) :
      name ∈ names.foldl (fun done n => if done.contains n then done else done ++ [n]) done ↔
        name ∈ names ∨ name ∈ done := by
    -- The names that are done grow along the list.
    induction names generalizing done with
    | nil => simp
    | cons n names ih =>
      rw [List.foldl_cons, ih, hstep, List.mem_cons]
      exact or_left_comm.trans or_assoc.symm
  simpa [nameSet, List.mem_mergeSort] using hfold []

/-! ## Links of a source -/

theorem DerivationEntry.name_of_find? {derivations : List DerivationEntry} {name : String}
    {d : DerivationEntry} (h : find? derivations name = some d) : d.name = name := by
  simpa using List.find?_some h

namespace Paradigms

variable {derivations : List DerivationEntry} {source : ParadigmEntry} {link : DerivationLink}
  {d : DerivationEntry}

theorem mem_resolveLinks_iff : (link, d) ∈ (resolveLinks derivations source).1 ↔
    link ∈ source.derivations ∧ DerivationEntry.find? derivations link.derivation = some d := by
  unfold resolveLinks
  induction source.derivations with
  | nil => simp [collect]
  | cons l rest ih =>
    rw [collect]
    cases hfind : DerivationEntry.find? derivations l.derivation with
    -- The name of the link is unknown, so the link is left out.
    | none =>
      simp only [ih, List.mem_cons]
      constructor
      · rintro ⟨hmem, hd⟩
        exact ⟨.inr hmem, hd⟩
      · rintro ⟨rfl | hmem, hd⟩
        · exact absurd (hfind.symm.trans hd) (by simp)
        · exact ⟨hmem, hd⟩
    -- The derivation found is the one that the link is resolved to.
    | some d' =>
      simp only [ih, List.mem_cons, Prod.mk.injEq]
      constructor
      · rintro (⟨rfl, rfl⟩ | ⟨hmem, hd⟩)
        · exact ⟨.inl rfl, hfind⟩
        · exact ⟨.inr hmem, hd⟩
      · rintro ⟨rfl | hmem, hd⟩
        · exact .inl ⟨rfl, Option.some.inj (hd.symm.trans hfind)⟩
        · exact .inr ⟨hmem, hd⟩

end Paradigms

/-- The classes of the links, each once. -/
theorem map_groupByClass (links : List ResolvedLink) :
    (groupByClass links).map (·.1) = numberSet (links.map (·.1.recursClass)) := by
  rw [groupByClass, List.map_map]
  exact List.map_id _

theorem mem_restrictedFrom {links : List ResolvedLink} {c : Nat} {name : String} :
    name ∈ restrictedFrom links c ↔
      ∃ link ∈ links, c ≤ link.1.recursClass ∧ link.1.derivation = name := by
  simp only [restrictedFrom, mem_nameSet, List.mem_map, List.mem_filter, decide_eq_true_eq,
    and_assoc]

/-! ## Paradigms but for their inflexions -/

namespace Paradigms

variable {P : Paradigm → Prop} {ps ps' : Paradigms}

theorem isSome_find?_add (ps : Paradigms) (p : Paradigm) (name : String) :
    ((ps.add p).2.find? name).isSome ↔ name = p.name ∨ (ps.find? name).isSome := by
  rw [find?_add]
  split
  · rename_i heq
    simp [heq]
  · rename_i hne
    simp [hne]

/-- All paradigms have a property, whatever their inflexions are. -/
def Each (P : Paradigm → Prop) (ps : Paradigms) : Prop :=
  ∀ h p, ps.get? h = some p → P p.frame

theorem Each.empty : Paradigms.empty.Each P := by
  intro h p hp
  simp [Paradigms.empty, get?, Arena.get?, Arena.empty] at hp

theorem Each.add (hps : ps.Each P) {p : Paradigm} (hp : P p.frame) : (ps.add p).2.Each P := by
  intro h q hq
  rw [get?_add] at hq
  split at hq
  · obtain rfl := Option.some.inj hq
    exact hp
  · exact hps h q hq

theorem Each.of_frame (hps : ps.Each P)
    (hframe : ∀ h, (ps'.get? h).map Paradigm.frame = (ps.get? h).map Paradigm.frame) :
    ps'.Each P := by
  intro h q hq
  obtain ⟨p, hp, hsame⟩ := exists_of_frame hframe hq
  exact hsame ▸ hps h p hp

theorem Each.modifyInflexions (hps : ps.Each P) (h : Handle)
    (f : List Inflexion → List Inflexion) : (ps.modifyInflexions h f).Each P :=
  hps.of_frame fun h' => frame_modifyInflexions ps h h' f

end Paradigms

/-! ## Forks -/

namespace Paradigm

/-- A paradigm is the fork of a link of a source: it has the name that source and derivation give
it, and the source does not use the derivation in a lower class. -/
structure IsForkOf (derivations : List DerivationEntry) (source : ParadigmEntry)
    (link : DerivationLink) (p : Paradigm) : Prop where
  known : ∃ d, (link, d) ∈ (Paradigms.resolveLinks derivations source).1
  name : p.name = forkName link.derivation source.name
  derivation : p.derivation.map (·.derivation) = some link.derivation
  lowest : ∀ other ∈ source.derivations, other.derivation = link.derivation →
    link.recursClass ≤ other.recursClass

/-- Whether a paradigm is a fork with the name that the source of this name gives it. -/
def comesFrom (p : Paradigm) (source : String) : Bool :=
  p.derivation.any fun info => p.name == forkName info.derivation source

/-- If a paradigm says something about a derivation, it is the fork of a link of a source, and rules
out what the source uses in the class of the link and in higher ones. -/
def ComesOf (derivations : List DerivationEntry) (sources : List ParadigmEntry) (p : Paradigm) :
    Prop :=
  ∀ info, p.derivation = some info → ∃ source ∈ sources, ∃ link,
    p.IsForkOf derivations source link ∧
      info.restricted =
        restrictedFrom (Paradigms.resolveLinks derivations source).1 link.recursClass

variable {derivations : List DerivationEntry} {sources : List ParadigmEntry} {p : Paradigm}

namespace IsForkOf

variable {source source' : ParadigmEntry} {link link' : DerivationLink}

theorem derivation_eq (h : p.IsForkOf derivations source link)
    (h' : p.IsForkOf derivations source' link') : link.derivation = link'.derivation :=
  Option.some.inj (h.derivation.symm.trans h'.derivation)

/-- Name and derivation of a fork tell its source. -/
theorem name_source_eq (h : p.IsForkOf derivations source link)
    (h' : p.IsForkOf derivations source' link') : source.name = source'.name := by
  have hname := h.name.symm.trans h'.name
  rw [h.derivation_eq h'] at hname
  exact (String.append_right_inj _).1 hname

/-- The link of a fork may be one of several, but these are of one class. -/
theorem recursClass_eq (h : p.IsForkOf derivations source link)
    (h' : p.IsForkOf derivations source link') : link.recursClass = link'.recursClass := by
  obtain ⟨_, hlink⟩ := h.known
  obtain ⟨_, hlink'⟩ := h'.known
  have hsame := h.derivation_eq h'
  apply Nat.le_antisymm
  · exact h.lowest link' (Paradigms.mem_resolveLinks_iff.1 hlink').1 hsame.symm
  · exact h'.lowest link (Paradigms.mem_resolveLinks_iff.1 hlink).1 hsame

end IsForkOf

theorem comesOf_of_none (h : p.derivation = none) : p.ComesOf derivations sources := by
  intro info hinfo
  exact absurd (h.symm.trans hinfo) (by simp)

theorem ComesOf.of_frame (h : p.frame.ComesOf derivations sources) :
    p.ComesOf derivations sources := by
  intro info hinfo
  obtain ⟨source, hsource, link, hfork, hrestricted⟩ := h info hinfo
  exact ⟨source, hsource, link,
    ⟨hfork.known, hfork.name, hfork.derivation, hfork.lowest⟩, hrestricted⟩

end Paradigm

/-! ### Making forks -/

namespace Forking

variable {f : Forking} {source name : String} {lower restricted : List String}

theorem isSome_find?_addFork {link : ResolvedLink} :
    ((f.addFork source lower restricted link).1.paradigms.find? name).isSome ↔
      name = forkName link.2.name source ∨ (f.paradigms.find? name).isSome := by
  obtain ⟨link, d⟩ := link
  simp only [addFork]
  split
  · rename_i hsome
    refine (or_iff_right_of_imp ?_).symm
    rintro rfl
    exact hsome
  · exact Paradigms.isSome_find?_add f.paradigms _ name

/-- Behind the links of a class, all their forks are there. -/
theorem isSome_find?_addClass {ofClass : List ResolvedLink} :
    ((f.addClass source lower restricted ofClass).1.paradigms.find? name).isSome ↔
      (∃ link ∈ ofClass, name = forkName link.2.name source) ∨
        (f.paradigms.find? name).isSome := by
  induction ofClass generalizing f with
  | nil => simp [addClass]
  | cons link rest ih =>
    simp only [addClass]
    rw [ih, isSome_find?_addFork, List.exists_mem_cons_iff]
    exact or_left_comm.trans or_assoc.symm

variable {derivations : List DerivationEntry} {sources : List ParadigmEntry}
  {entry : ParadigmEntry}

/-- A fork is made as `ComesOf` says if those of all lower classes of its source are there. -/
theorem each_addFork {link : ResolvedLink} (hentry : entry ∈ sources)
    (hlink : link ∈ (Paradigms.resolveLinks derivations entry).1)
    (hf : f.paradigms.Each (Paradigm.ComesOf derivations sources))
    (hlower : ∀ other ∈ (Paradigms.resolveLinks derivations entry).1,
      other.1.recursClass < link.1.recursClass →
        (f.paradigms.find? (forkName other.2.name entry.name)).isSome) :
    (f.addFork entry.name lower
      (restrictedFrom (Paradigms.resolveLinks derivations entry).1 link.1.recursClass)
      link).1.paradigms.Each (Paradigm.ComesOf derivations sources) := by
  obtain ⟨link, d⟩ := link
  obtain ⟨-, hfind⟩ := Paradigms.mem_resolveLinks_iff.1 hlink
  have hname : d.name = link.derivation := DerivationEntry.name_of_find? hfind
  simp only [addFork]
  split
  · exact hf
  · rename_i hnew
    refine (hf.add ?_).modifyInflexions _ _
    rintro info hinfo
    obtain rfl := Option.some.inj hinfo
    refine ⟨entry, hentry, link, ⟨⟨d, hlink⟩, ?_, ?_, ?_⟩, rfl⟩
    · exact congrArg (forkName · entry.name) hname
    · exact congrArg some hname
    · -- In a lower class the fork of the same derivation would be there already.
      intro other hother heq
      by_contra hlt
      have hsome := hlower (other, d)
        (Paradigms.mem_resolveLinks_iff.2 ⟨hother, heq.symm ▸ hfind⟩) (by simpa using hlt)
      exact hnew hsome

theorem each_addClass {ofClass : List ResolvedLink} {c : Nat} (hentry : entry ∈ sources)
    (hofClass : ∀ link ∈ ofClass,
      link ∈ (Paradigms.resolveLinks derivations entry).1 ∧ link.1.recursClass = c)
    (hf : f.paradigms.Each (Paradigm.ComesOf derivations sources))
    (hlower : ∀ other ∈ (Paradigms.resolveLinks derivations entry).1,
      other.1.recursClass < c → (f.paradigms.find? (forkName other.2.name entry.name)).isSome) :
    (f.addClass entry.name lower
      (restrictedFrom (Paradigms.resolveLinks derivations entry).1 c)
      ofClass).1.paradigms.Each (Paradigm.ComesOf derivations sources) := by
  induction ofClass generalizing f with
  | nil => exact hf
  | cons link rest ih =>
    obtain ⟨⟨hlink, rfl⟩, hrest⟩ := List.forall_mem_cons.1 hofClass
    refine ih hrest (each_addFork hentry hlink hf hlower) fun other hother hlt => ?_
    exact isSome_find?_addFork.2 (.inr (hlower other hother hlt))

/-- `addClasses` takes the classes in ascending order, each with all its links; behind a class, the
forks of all links are there but those of classes to come. -/
theorem each_addClasses {classes : List (Nat × List ResolvedLink)} (hentry : entry ∈ sources)
    (hascending : (classes.map (·.1)).Pairwise (· < ·))
    (hofClass : ∀ c ofClass, (c, ofClass) ∈ classes →
      ofClass = (Paradigms.resolveLinks derivations entry).1.filter (·.1.recursClass == c))
    (hf : f.paradigms.Each (Paradigm.ComesOf derivations sources))
    (hdone : ∀ link ∈ (Paradigms.resolveLinks derivations entry).1,
      link.1.recursClass ∈ classes.map (·.1) ∨
        (f.paradigms.find? (forkName link.2.name entry.name)).isSome) :
    (f.addClasses entry.name (Paradigms.resolveLinks derivations entry).1 lower
      classes).paradigms.Each (Paradigm.ComesOf derivations sources) := by
  induction classes generalizing f lower with
  | nil => exact hf
  | cons first rest ih =>
    obtain ⟨c, ofClass⟩ := first
    obtain ⟨hc, hrest⟩ := List.pairwise_cons.1 hascending
    have heq := hofClass c ofClass (List.mem_cons_self ..)
    refine ih hrest (fun c' ofClass' hmem => hofClass c' ofClass' (List.mem_cons_of_mem _ hmem))
      (each_addClass hentry ?_ hf ?_) ?_
    · intro link hlink
      simpa [heq] using hlink
    · intro other hother hlt
      -- A class below the first one to come is done.
      refine (hdone other hother).resolve_left fun hmem => ?_
      rcases List.mem_cons.1 hmem with heq | hmem
      · exact absurd heq (Nat.ne_of_lt hlt)
      · exact absurd (hc _ hmem) (Nat.not_lt.2 hlt.le)
    · -- A link is of this class, of one to come, or done before.
      intro link hlink
      rcases hdone link hlink with hmem | hsome
      · rcases List.mem_cons.1 hmem with hhere | hmem
        · refine .inr (isSome_find?_addClass.2 (.inl ⟨link, ?_, rfl⟩))
          simp [heq, hlink, hhere]
        · exact .inl hmem
      · exact .inr (isSome_find?_addClass.2 (.inr hsome))

end Forking

namespace Paradigms

variable {ps : Paradigms} {derivations : List DerivationEntry} {sources : List ParadigmEntry}

theorem each_expandSource {source : ParadigmEntry} (hsource : source ∈ sources)
    (hps : ps.Each (Paradigm.ComesOf derivations sources)) :
    (ps.expandSource derivations source).1.Each (Paradigm.ComesOf derivations sources) := by
  unfold expandSource
  split
  · exact hps
  · dsimp only
    have hforks : (Forking.addClasses ⟨ps, [], (resolveLinks derivations source).2⟩ source.name
        (resolveLinks derivations source).1 []
        (groupByClass (resolveLinks derivations source).1)).paradigms.Each
          (Paradigm.ComesOf derivations sources) := by
      refine Forking.each_addClasses hsource ?_ ?_ hps fun link hlink => .inl ?_
      · rw [map_groupByClass]
        exact pairwise_numberSet _
      · intro c ofClass hmem
        obtain ⟨c', -, heq⟩ := List.mem_map.1 hmem
        obtain ⟨rfl, rfl⟩ := Prod.mk.inj heq
        rfl
      · rw [map_groupByClass, mem_numberSet]
        exact List.mem_map_of_mem hlink
    generalize Forking.addClasses _ _ _ _ _ = f at hforks ⊢
    split
    · exact hforks
    · exact (hforks.add (Paradigm.comesOf_of_none rfl)).modifyInflexions _ _

theorem each_expand (hps : ps.Each (Paradigm.ComesOf derivations sources))
    {entries : List ParadigmEntry} (hentries : ∀ e ∈ entries, e ∈ sources) :
    (ps.expand derivations entries).1.Each (Paradigm.ComesOf derivations sources) := by
  induction entries generalizing ps with
  | nil => exact hps
  | cons source rest ih =>
    obtain ⟨hsource, hrest⟩ := List.forall_mem_cons.1 hentries
    exact ih (each_expandSource hsource hps) hrest

end Paradigms

/-! ## Compiled grammars -/

namespace GrammarDraft

/-- The entries that paradigms are made of: the first one of each name. -/
def sources (d : GrammarDraft) : List ParadigmEntry :=
  (declareParadigms .empty d.entries.paradigms).2.1

theorem each_declareParadigms {P : Paradigm → Prop} {ps : Paradigms} (hps : ps.Each P)
    {entries : List ParadigmEntry} (hP : ∀ name, P ⟨name, [], none⟩) :
    (declareParadigms ps entries).1.Each P := by
  induction entries generalizing ps with
  | nil => exact hps
  | cons e rest ih =>
    simp only [declareParadigms]
    split
    · exact ih hps
    · exact ih (hps.add (hP e.name))

theorem each_fillParadigms {P : Paradigm → Prop} {ps : Paradigms} (hps : ps.Each P)
    (entries : List ParadigmEntry) : (fillParadigms ps entries).1.Each P := by
  induction entries generalizing ps with
  | nil => exact hps
  | cons e rest ih =>
    simp only [fillParadigms]
    apply ih
    split
    · exact hps.modifyInflexions _ _
    · exact hps

/-- Every entry that a paradigm is made of has a name that was not there before. -/
theorem nodup_declareParadigms (ps : Paradigms) (entries : List ParadigmEntry) :
    ((declareParadigms ps entries).2.1.map (·.name)).Nodup ∧
      ∀ e ∈ (declareParadigms ps entries).2.1, ¬ (ps.find? e.name).isSome := by
  induction entries generalizing ps with
  | nil => exact ⟨List.nodup_nil, fun _ he => absurd he List.not_mem_nil⟩
  | cons e rest ih =>
    simp only [declareParadigms]
    split
    · exact ih ps
    · rename_i hnew
      obtain ⟨hnodup, hrest⟩ := ih (ps.add ⟨e.name, [], none⟩).2
      -- The names of the rest are new even beside this one.
      simp only [Paradigms.isSome_find?_add, not_or] at hrest
      refine ⟨List.nodup_cons.2 ⟨fun hmem => ?_, hnodup⟩, fun e' he' => ?_⟩
      · obtain ⟨e', he', heq⟩ := List.mem_map.1 hmem
        exact (hrest e' he').1 heq
      · rcases List.mem_cons.1 he' with rfl | he'
        · exact hnew
        · exact (hrest e' he').2

theorem eq_of_mem_sources {d : GrammarDraft} {s s' : ParadigmEntry} (hs : s ∈ d.sources)
    (hs' : s' ∈ d.sources) (hname : s.name = s'.name) : s = s' :=
  List.inj_on_of_nodup_map (nodup_declareParadigms .empty d.entries.paradigms).1 hs hs' hname

theorem comesOf_of_compile {d : GrammarDraft} {h : Handle} {p : Paradigm}
    (hp : d.compile.grammar.paradigm? h = some p) : p.ComesOf d.entries.derivations d.sources := by
  have heach : d.compile.grammar.paradigms.Each
      (Paradigm.ComesOf d.entries.derivations d.sources) := by
    show Paradigms.Each _ (Paradigms.widen _ _)
    refine Paradigms.Each.of_frame ?_ (Paradigms.isWidening_widen _ d.config).frame
    apply Paradigms.each_expand _ fun e he => he
    apply each_fillParadigms
    exact each_declareParadigms .empty fun _ => Paradigm.comesOf_of_none rfl
  exact (heach h p hp).of_frame

/-- The paradigms of derivations are forks. -/
theorem exists_isForkOf {d : GrammarDraft} {h : Handle} {p : Paradigm} {info : DerivationInfo}
    (hp : d.compile.grammar.paradigm? h = some p) (hinfo : p.derivation = some info) :
    ∃ source ∈ d.sources, ∃ link, p.IsForkOf d.entries.derivations source link := by
  obtain ⟨source, hsource, link, hfork, -⟩ := comesOf_of_compile hp info hinfo
  exact ⟨source, hsource, link, hfork⟩

variable {d : GrammarDraft} {h h' : Handle} {p q : Paradigm} {source : ParadigmEntry}
  {link link' : DerivationLink}

theorem exists_isForkOf_of_comesFrom (hp : d.compile.grammar.paradigm? h = some p)
    (hsource : source ∈ d.sources) (hfrom : p.comesFrom source.name = true) :
    ∃ link, p.IsForkOf d.entries.derivations source link := by
  obtain ⟨info, hinfo, hname⟩ := (Option.any_eq_true _ _).1 hfrom
  obtain ⟨source', hsource', link, hfork⟩ := exists_isForkOf hp hinfo
  have hderivation : info.derivation = link.derivation := by
    simpa [hinfo] using hfork.derivation
  have heq : source'.name = source.name := by
    apply (String.append_right_inj _).1
    rw [hderivation] at hname
    exact hfork.name.symm.trans (beq_iff_eq.1 hname)
  obtain rfl := eq_of_mem_sources hsource' hsource heq
  exact ⟨link, hfork⟩

/-- A fork rules out what its source uses in the class of its link and in higher ones. -/
theorem restricts_iff (hp : d.compile.grammar.paradigm? h = some p) (hsource : source ∈ d.sources)
    (hfork : p.IsForkOf d.entries.derivations source link) {name : String} :
    p.restricts name = true ↔
      ∃ other ∈ (Paradigms.resolveLinks d.entries.derivations source).1,
        link.recursClass ≤ other.1.recursClass ∧ other.1.derivation = name := by
  obtain ⟨info, hinfo, hderivation⟩ := Option.map_eq_some_iff.1 hfork.derivation
  obtain ⟨source', hsource', link', hfork', hrestricted⟩ := comesOf_of_compile hp info hinfo
  -- Name and derivation of a fork tell its source, and so the class of its link.
  obtain rfl := eq_of_mem_sources hsource' hsource (hfork'.name_source_eq hfork)
  have hclass := hfork'.recursClass_eq hfork
  simp [Paradigm.restricts, hinfo, hrestricted, hclass, mem_restrictedFrom]

/-- A fork rules out its own derivation. -/
theorem restricts_derivation {info : DerivationInfo}
    (hp : d.compile.grammar.paradigm? h = some p) (hinfo : p.derivation = some info) :
    p.restricts info.derivation = true := by
  obtain ⟨source, hsource, link, hfork⟩ := exists_isForkOf hp hinfo
  obtain ⟨entry, hknown⟩ := hfork.known
  have hderivation : info.derivation = link.derivation := by
    simpa [hinfo] using hfork.derivation
  exact (restricts_iff hp hsource hfork).2 ⟨_, hknown, Nat.le_refl _, hderivation.symm⟩

/-- A fork that another one of the same source does not rule out is of a lower class. -/
theorem recursClass_lt_of_unrestricted (hp : d.compile.grammar.paradigm? h = some p)
    (hsource : source ∈ d.sources) (hfork : p.IsForkOf d.entries.derivations source link)
    (hfork' : q.IsForkOf d.entries.derivations source link')
    (hfree : p.restricts link'.derivation = false) : link'.recursClass < link.recursClass := by
  by_contra hle
  obtain ⟨entry, hknown⟩ := hfork'.known
  have hres := (restricts_iff hp hsource hfork).2 ⟨_, hknown, Nat.not_lt.1 hle, rfl⟩
  exact Bool.false_ne_true (hfree.symm.trans hres)

end GrammarDraft

end Morphology
