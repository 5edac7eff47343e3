import Morphology.Proofs.Grammar.Closure
import Morphology.Proofs.Grammar.Entries

/-!
# Compiling accounts for links

A link of a paradigm to a derivation stands for a fork of the derivation, which goes on in the
paradigms of the link.  A paradigm has one fork of a derivation, however often it is linked to it:
the fork is made of the first link in the lowest class, and the paradigms of the other links are
dropped without a report.

## Main definitions

* `ParadigmEntry.NamesApart` — the names made by derivations are those of nothing else
* `ParadigmEntry.lead?` — the link of a derivation that its fork is made of
* `Grammar.linkedForks` — the forks of a derivation that the links of a paradigm lead to
* `GrammarDraft.HasFork` — there is a fork that goes on in the paradigms of a link
* `GrammarDraft.ForksLink` — what becomes of a link

## Main statements

* `ParadigmEntry.namesApart_of_unmarked` — names without the mark are apart
* `Forking.Covers.addClasses` — behind all classes there is a fork of every leading link
* `Paradigms.hasFork_expandSource` — a source gets a link to the fork of every leading link
* `GrammarDraft.accountsForEntries_and_links` — compiling accounts for entries, and for all links
  but those to the same derivation as another one
* `GrammarDraft.not_hasFork_secondLink` — a second link to a derivation is lost without a report
-/

namespace Morphology

/-! ## Names apart -/

/-- The names made by derivations are those of nothing else. -/
structure ParadigmEntry.NamesApart (sources : List ParadigmEntry) : Prop where
  written : ∀ s ∈ sources, ∀ t ∈ sources, s.name ≠ unifiedName t.name ∧
    ∀ link ∈ t.derivations, s.name ≠ forkName link.derivation t.name
  unified : ∀ s ∈ sources, ∀ t ∈ sources, ∀ link ∈ t.derivations,
    unifiedName s.name ≠ forkName link.derivation t.name
  forks : ∀ s ∈ sources, ∀ t ∈ sources, ∀ link ∈ s.derivations, ∀ link' ∈ t.derivations,
    forkName link.derivation s.name = forkName link'.derivation t.name → s.name = t.name

theorem forkName_inj {derivation derivation' paradigm : String} :
    forkName derivation paradigm = forkName derivation' paradigm ↔ derivation = derivation' := by
  simp only [forkName, String.append_left_inj, String.append_right_inj]

theorem unifiedName_inj {paradigm paradigm' : String} :
    unifiedName paradigm = unifiedName paradigm' ↔ paradigm = paradigm' :=
  String.append_right_inj _

/-- Text up to a mark is what stands before the mark. -/
private theorem eq_of_append_mark {a a' b b' : List Char} (ha : '#' ∉ a) (ha' : '#' ∉ a')
    (h : a ++ '#' :: b = a' ++ '#' :: b') : a = a' ∧ b = b' := by
  have htake (a b : List Char) (ha : '#' ∉ a) : (a ++ '#' :: b).takeWhile (· != '#') = a := by
    have hbefore (c : Char) (hc : c ∈ a) : (c != '#') = true :=
      bne_iff_ne.2 fun heq => ha (heq ▸ hc)
    rw [List.takeWhile_append_of_pos hbefore, List.takeWhile_cons_of_neg (by simp),
      List.append_nil]
  obtain rfl : a = a' := by rw [← htake a b ha, h, htake a' b' ha']
  exact ⟨rfl, (List.cons.inj (List.append_cancel_left h)).2⟩

private theorem toList_forkName (derivation paradigm : String) :
    (forkName derivation paradigm).toList =
      "#deriv#".toList ++
        (derivation.toList ++ '#' :: ("paradigm#".toList ++ paradigm.toList)) := by
  simp [forkName, derivationMark]

private theorem toList_unifiedName (paradigm : String) : (unifiedName paradigm).toList =
    "#deriv#".toList ++ ("paradigm".toList ++ '#' :: paradigm.toList) := by
  simp [unifiedName, derivationMark]

/-- The names of paradigms and derivations are `NamesApart` if none of them has the mark. -/
theorem ParadigmEntry.namesApart_of_unmarked {sources : List ParadigmEntry}
    (hnames : ∀ s ∈ sources, '#' ∉ s.name.toList)
    (hlinks : ∀ s ∈ sources, ∀ link ∈ s.derivations, '#' ∉ link.derivation.toList) :
    NamesApart sources where
  written := by
    intro s hs t ht
    -- A made name begins with the mark.
    refine ⟨fun heq => hnames s hs ?_, fun link _ heq => hnames s hs ?_⟩
    · rw [heq, toList_unifiedName]
      exact List.mem_cons_self ..
    · rw [heq, toList_forkName]
      exact List.mem_cons_self ..
  -- A unified name would be that of a fork of the derivation that the mark stands for.
  unified := by
    intro s hs t ht link hlink heq
    have hlists := congrArg String.toList heq
    rw [toList_unifiedName, toList_forkName, List.append_right_inj] at hlists
    obtain ⟨-, hname⟩ := eq_of_append_mark (by decide) (hlinks t ht link hlink) hlists
    exact hnames s hs (hname ▸ List.mem_append_left _ (by decide))
  forks := by
    intro s hs t ht link hlink link' hlink' heq
    -- Behind the mark, the name of the fork is cut where its next mark is.
    have hlists := congrArg String.toList heq
    rw [toList_forkName, toList_forkName, List.append_right_inj] at hlists
    obtain ⟨-, hname⟩ :=
      eq_of_append_mark (hlinks s hs link hlink) (hlinks t ht link' hlink') hlists
    exact String.toList_injective (List.append_cancel_left hname)

/-! ## Links of a source -/

namespace ParadigmEntry

/-- The link of a derivation that its fork is made of: the first one in the lowest class. -/
def lead? (source : ParadigmEntry) (derivations : List DerivationEntry) (name : String) :
    Option ResolvedLink :=
  ((groupByClass (Paradigms.resolveLinks derivations source).1).flatMap (·.2)).find?
    (·.2.name == name)

variable {source : ParadigmEntry} {derivations : List DerivationEntry} {link lead : ResolvedLink}
  {name : String}

/-- The links that are taken class by class are all links. -/
theorem mem_flatMap_groupByClass {links : List ResolvedLink} :
    link ∈ (groupByClass links).flatMap (·.2) ↔ link ∈ links := by
  simp only [groupByClass, List.mem_flatMap, List.mem_map]
  constructor
  · rintro ⟨_, ⟨c, -, rfl⟩, hlink⟩
    exact (List.mem_filter.1 hlink).1
  · intro hlink
    exact ⟨_, ⟨link.1.recursClass, mem_numberSet.2 (List.mem_map_of_mem hlink), rfl⟩,
      List.mem_filter.2 ⟨hlink, beq_self_eq_true _⟩⟩

theorem mem_of_mem_groupByClass {links : List ResolvedLink} {c : Nat × List ResolvedLink}
    (hc : c ∈ groupByClass links) (hlink : link ∈ c.2) : link ∈ links :=
  mem_flatMap_groupByClass.1 (List.mem_flatMap.2 ⟨c, hc, hlink⟩)

/-- A link is to the derivation that it names. -/
theorem name_of_mem_resolveLinks (h : link ∈ (Paradigms.resolveLinks derivations source).1) :
    link.1 ∈ source.derivations ∧ link.2.name = link.1.derivation := by
  obtain ⟨link, d⟩ := link
  obtain ⟨hmem, hd⟩ := Paradigms.mem_resolveLinks_iff.1 h
  exact ⟨hmem, DerivationEntry.name_of_find? hd⟩

theorem mem_of_lead? (h : source.lead? derivations name = some lead) :
    lead ∈ (Paradigms.resolveLinks derivations source).1 ∧ lead.2.name = name :=
  ⟨mem_flatMap_groupByClass.1 (List.mem_of_find?_eq_some h), by simpa using List.find?_some h⟩

/-- A derivation that is linked to has a leading link. -/
theorem exists_lead? (h : link ∈ (Paradigms.resolveLinks derivations source).1) :
    ∃ lead, source.lead? derivations link.2.name = some lead := by
  refine Option.isSome_iff_exists.1 (List.find?_isSome.2 ⟨link, ?_, beq_self_eq_true _⟩)
  exact mem_flatMap_groupByClass.2 h

/-- The leading link is of the lowest class. -/
theorem recursClass_lead?_le (h : source.lead? derivations name = some lead)
    (hlink : link ∈ (Paradigms.resolveLinks derivations source).1) (hname : link.2.name = name) :
    lead.1.recursClass ≤ link.1.recursClass := by
  have hsorted : ((groupByClass (Paradigms.resolveLinks derivations source).1).flatMap
      (·.2)).Pairwise (·.1.recursClass ≤ ·.1.recursClass) := by
    have hclass {c : Nat} {link : ResolvedLink} {links : List ResolvedLink}
        (hlink : link ∈ links.filter (·.1.recursClass == c)) : link.1.recursClass = c :=
      beq_iff_eq.1 (List.mem_filter.1 hlink).2
    -- Within a class the numbers are equal, and the classes ascend.
    refine List.pairwise_flatMap.2 ⟨fun c hc => ?_, List.pairwise_map.2 ?_⟩
    · obtain ⟨n, -, rfl⟩ := List.mem_map.1 hc
      refine List.pairwise_of_forall_mem_list fun first hfirst second hsecond => ?_
      rw [hclass hfirst, hclass hsecond]
    · refine (pairwise_numberSet _).imp fun hlt first hfirst second hsecond => ?_
      rw [hclass hfirst, hclass hsecond]
      exact hlt.le
  -- What stands before the leading link is of other derivations.
  obtain ⟨-, before, behind, hsplit, hbefore⟩ := List.find?_eq_some_iff_append.1 h
  have hmem := mem_flatMap_groupByClass.2 hlink
  rw [hsplit] at hsorted hmem
  rcases List.mem_append.1 hmem with hmem | hmem
  · exact absurd hname (by simpa using hbefore link hmem)
  · rcases List.mem_cons.1 hmem with rfl | hmem
    · exact Nat.le_refl _
    · exact (List.pairwise_cons.1 (List.pairwise_append.1 hsorted).2.1).1 link hmem

end ParadigmEntry

/-! ## Forks of a link -/

namespace Paradigm

/-- A paradigm is made of a link: it has the inflexions of the derivation, which lead to the
paradigms of the link and to further ones, but for those reported.  Names are looked up when all
written paradigms are there, and are still those of the same paradigms in the end. -/
structure IsMadeOf (written final : String → Option Handle) (reports : List GrammarError)
    (source : String) (link : ResolvedLink) (p : Paradigm) : Prop where
  name : p.name = forkName link.2.name source
  derivation : p.derivation.map (·.derivation) = some link.2.name
  inflexions : ∃ find? lower, (∀ name h, written name = some h → find? name = some h) ∧
    (∀ name h, find? name = some h → final name = some h) ∧
    AccountedBy
      (fun template => Inflexion.ofEntry find? p.name
        (DerivationEntry.forkInflexion (link.2.targets link.1 source ++ lower) template))
      reports link.2.inflexions p.inflexions

variable {written final final' : String → Option Handle} {reports reports' : List GrammarError}
  {source : String} {link : ResolvedLink} {p : Paradigm}

theorem IsMadeOf.mono (h : p.IsMadeOf written final reports source link)
    (hfinal : ∀ name h, final name = some h → final' name = some h)
    (hreports : ∀ fault ∈ reports, fault ∈ reports') :
    p.IsMadeOf written final' reports' source link := by
  obtain ⟨find?, lower, hwritten, hfind, hinflexions⟩ := h.inflexions
  exact ⟨h.name, h.derivation, find?, lower, hwritten,
    fun name own hname => hfinal name own (hfind name own hname), hinflexions.of_subset hreports⟩

end Paradigm

namespace Forking

variable {f f' : Forking} {written : String → Option Handle} {source : String}
  {lower restricted : List String} {links done : List ResolvedLink} {link : ResolvedLink}

/-- There is a fork of a link. -/
def Has (f : Forking) (written : String → Option Handle) (source : String) (link : ResolvedLink) :
    Prop :=
  ∃ h ∈ f.forks, ∃ p, f.paradigms.find? (forkName link.2.name source) = some h ∧
    f.paradigms.get? h = some p ∧
    p.IsMadeOf written f.paradigms.find? f.errors source link

theorem Has.grows (h : f.Has written source link) (hgrows : f.Grows f') :
    f'.Has written source link := by
  obtain ⟨own, hown, p, hname, hp, hmade⟩ := h
  exact ⟨own, hgrows.forks own hown, p, hgrows.names _ own hname, hgrows.paradigms own p hp,
    hmade.mono hgrows.names hgrows.errors⟩

/-- `addFork` makes a fork unless there is a paradigm of its name. -/
theorem has_addFork (hwritten : ∀ name h, written name = some h → f.paradigms.find? name = some h)
    (hnew : f.paradigms.find? (forkName link.2.name source) = none) :
    (f.addFork source lower restricted link).1.Has written source link := by
  simp only [addFork, hnew, Option.isSome_none, Bool.false_eq_true, if_false]
  let fork : Paradigm :=
    ⟨forkName link.2.name source, [], some ⟨link.2.name, restricted⟩⟩
  -- The fork is known, and so is every written paradigm that it leads to.
  have hfind : (f.paradigms.add fork).2.find? fork.name = some f.paradigms.arena.nextHandle := by
    rw [Paradigms.find?_add, if_pos rfl]
  let made := collect (fun template => Inflexion.ofEntry (f.paradigms.add fork).2.find? fork.name
    (DerivationEntry.forkInflexion (link.2.targets link.1 source ++ lower) template))
    link.2.inflexions
  refine ⟨f.paradigms.arena.nextHandle, List.mem_append_right _ (List.mem_singleton_self _),
    { fork with inflexions := made.1 }, hfind, ?_, ?_⟩
  · exact (Paradigms.get?_modifyInflexions ..).trans ((if_pos rfl).trans
      (congrArg _ ((Paradigms.get?_add ..).trans (if_pos rfl))))
  · refine ⟨rfl, rfl, (f.paradigms.add fork).2.find?, lower,
      fun name h hname => Paradigms.find?_add_of_new hnew (hwritten name h hname),
      fun _ _ hname => hname, ?_⟩
    exact (accounted_collect _ _).of_subset fun _ hfault => List.mem_append_right _ hfault

/-- Of the links done there are forks of the leading ones, and no forks but theirs. -/
structure Covers (f : Forking) (written : String → Option Handle) (source : String)
    (links done : List ResolvedLink) : Prop where
  names : ∀ name h, written name = some h → f.paradigms.find? name = some h
  made : ∀ name lead, done.find? (·.2.name == name) = some lead → f.Has written source lead
  fresh : ∀ link ∈ links, done.find? (·.2.name == link.2.name) = none →
    f.paradigms.find? (forkName link.2.name source) = none

theorem Covers.addFork (h : f.Covers written source links done) (hlink : link ∈ links) :
    (f.addFork source lower restricted link).1.Covers written source links (done ++ [link]) := by
  have hgrows := f.grows_addFork source lower restricted link
  refine ⟨fun name own hname => hgrows.names name own (h.names name own hname),
    fun name lead hlead => ?_, fun other hother hnone => ?_⟩
  · rw [List.find?_append] at hlead
    cases hbefore : done.find? (·.2.name == name) with
    | some first =>
      -- A link to the derivation came before, and its fork is kept.
      rw [hbefore, Option.some_or] at hlead
      obtain rfl := Option.some.inj hlead
      exact (h.made name first hbefore).grows hgrows
    | none =>
      -- The link is the first one of its derivation.
      rw [hbefore, Option.none_or] at hlead
      obtain rfl : lead = link := List.mem_singleton.1 (List.mem_of_find?_eq_some hlead)
      obtain rfl : lead.2.name = name := by simpa using List.find?_some hlead
      exact has_addFork h.names (h.fresh lead hlink hbefore)
  · -- The names that are still free were free before.
    rw [List.find?_append, Option.or_eq_none_iff] at hnone
    have hne : link.2.name ≠ other.2.name := by simpa using hnone.2
    have hnew : ¬ ((f.addFork source lower restricted link).1.paradigms.find?
        (forkName other.2.name source)).isSome = true := by
      rw [isSome_find?_addFork, forkName_inj, h.fresh other hother hnone.1]
      simpa using hne.symm
    simpa using hnew

theorem Covers.addClass {ofClass : List ResolvedLink} (h : f.Covers written source links done)
    (hofClass : ∀ link ∈ ofClass, link ∈ links) :
    (f.addClass source lower restricted ofClass).1.Covers written source links
      (done ++ ofClass) := by
  induction ofClass generalizing f done with
  | nil => simpa [Forking.addClass] using h
  | cons link rest ih =>
    obtain ⟨hlink, hrest⟩ := List.forall_mem_cons.1 hofClass
    rw [List.append_cons]
    exact ih (h.addFork hlink) hrest

/-- Behind all classes there is a fork of every leading link. -/
theorem Covers.addClasses {all : List ResolvedLink} {classes : List (Nat × List ResolvedLink)}
    (h : f.Covers written source links done)
    (hclasses : ∀ c ∈ classes, ∀ link ∈ c.2, link ∈ links) :
    (f.addClasses source all lower classes).Covers written source links
      (done ++ classes.flatMap (·.2)) := by
  induction classes generalizing f done lower with
  | nil => simpa [Forking.addClasses] using h
  | cons c rest ih =>
    obtain ⟨hc, hrest⟩ := List.forall_mem_cons.1 hclasses
    rw [List.flatMap_cons, ← List.append_assoc]
    exact ih (h.addClass hc) hrest

/-- No names are found but those of forks and those that there were before. -/
theorem find?_addClasses_eq_none {all : List ResolvedLink}
    {classes : List (Nat × List ResolvedLink)} {name : String}
    (hnone : f.paradigms.find? name = none)
    (hclasses : ∀ c ∈ classes, ∀ link ∈ c.2, name ≠ forkName link.2.name source) :
    (f.addClasses source all lower classes).paradigms.find? name = none := by
  induction classes generalizing f lower with
  | nil => exact hnone
  | cons c rest ih =>
    obtain ⟨hc, hrest⟩ := List.forall_mem_cons.1 hclasses
    have hclass : ¬ ((f.addClass source lower (restrictedFrom all c.1) c.2).1.paradigms.find?
        name).isSome = true := by
      rw [isSome_find?_addClass, hnone]
      rintro (⟨link, hlink, heq⟩ | hsome)
      · exact hc link hlink heq
      · exact absurd hsome (by simp)
    exact ih (by simpa using hclass) hrest

end Forking

/-! ## Extended paradigms -/

namespace Paradigms

variable {ps ps' : Paradigms} {derivations : List DerivationEntry} {source other : ParadigmEntry}
  {name : String} {link lead : ResolvedLink} {h : Handle} {written : String → Option Handle}
  {reports : List GrammarError}

theorem find?_forking_eq_none (derivations : List DerivationEntry) (hnone : ps.find? name = none)
    (hforks : ∀ link ∈ source.derivations, name ≠ forkName link.derivation source.name) :
    (ps.forking derivations source).paradigms.find? name = none := by
  refine Forking.find?_addClasses_eq_none hnone fun c hc link hlink => ?_
  obtain ⟨hmem, hname⟩ := ParadigmEntry.name_of_mem_resolveLinks
    (ParadigmEntry.mem_of_mem_groupByClass hc hlink)
  rw [hname]
  exact hforks link.1 hmem

theorem find?_expandSource_eq_none (hnone : ps.find? name = none)
    (hunified : name ≠ unifiedName source.name)
    (hforks : ∀ link ∈ source.derivations, name ≠ forkName link.derivation source.name) :
    (ps.expandSource derivations source).1.find? name = none := by
  have hforking := find?_forking_eq_none derivations hnone hforks
  cases hown : ps.find? source.name with
  | none =>
    rw [expandSource_of_unknown hown]
    exact hnone
  | some h =>
    rw [expandSource_of_find? hown]
    dsimp only
    split
    · exact hforking
    · exact (find?_add ..).trans ((if_neg hunified).trans hforking)

/-- A source is there without a derivation of its own, and the names that its derivations make are
free. -/
structure Ready (ps : Paradigms) (source : ParadigmEntry) : Prop where
  plain : ∃ h p, ps.find? source.name = some h ∧ ps.get? h = some p ∧ p.derivation = none
  forks : ∀ link ∈ source.derivations, ps.find? (forkName link.derivation source.name) = none
  unified : ps.find? (unifiedName source.name) = none

/-- Names are kept, and paradigms are extended by links, forks not at all. -/
structure Grows (ps ps' : Paradigms) : Prop where
  names : ∀ name h, ps.find? name = some h → ps'.find? name = some h
  paradigms : ∀ h p, ps.get? h = some p → ∃ p', ps'.get? h = some p' ∧ Extended p p' ∧
    (p.derivation.isSome = true → p' = p)

theorem Grows.refl (ps : Paradigms) : ps.Grows ps :=
  ⟨fun _ _ h => h, fun _ p h => ⟨p, h, .refl p, fun _ => rfl⟩⟩

theorem Grows.trans {ps'' : Paradigms} (hg : ps.Grows ps') (hg' : ps'.Grows ps'') :
    ps.Grows ps'' := by
  refine ⟨fun name h hname => hg'.names name h (hg.names name h hname), fun h p hp => ?_⟩
  obtain ⟨p', hp', hext, hfork⟩ := hg.paradigms h p hp
  obtain ⟨p'', hp'', hext', hfork'⟩ := hg'.paradigms h p' hp'
  refine ⟨p'', hp'', hext.trans hext', fun hder => ?_⟩
  obtain rfl := hfork hder
  exact hfork' hder

theorem grows_expandSource (derivations : List DerivationEntry) (hready : ps.Ready source)
    (hapart : ∀ link ∈ source.derivations,
      unifiedName source.name ≠ forkName link.derivation source.name) :
    ps.Grows (ps.expandSource derivations source).1 := by
  obtain ⟨own, q, hown, hq, hplain⟩ := hready.plain
  constructor
  · intro name h hname
    have hforking := (ps.grows_forking derivations source).names name h hname
    rw [expandSource_of_find? hown]
    dsimp only
    split
    · exact hforking
    · -- The unified paradigm takes a name that was free.
      exact find?_add_of_new
        (find?_forking_eq_none derivations hready.unified hapart) hforking
  · intro h p hp
    obtain ⟨p', hp', hext, hother⟩ := get?_expandSource hp derivations source
    refine ⟨p', hp', hext, fun hder => hother ?_⟩
    -- The source is no fork.
    rw [hown]
    rintro heq
    obtain rfl := Option.some.inj heq
    obtain rfl := Option.some.inj (hp.symm.trans hq)
    rw [hplain] at hder
    exact absurd hder Bool.false_ne_true

/-- A link of a paradigm leads to a fork that is made of a link to a derivation. -/
def HasFork (ps : Paradigms) (written : String → Option Handle) (reports : List GrammarError)
    (source : ParadigmEntry) (link : ResolvedLink) : Prop :=
  ∃ own p, ps.find? source.name = some own ∧ ps.get? own = some p ∧
    ∃ i ∈ p.inflexions, i.isLink = true ∧ ∃ h ∈ i.subsequent, ∃ q, ps.get? h = some q ∧
      q.IsMadeOf written ps.find? reports source.name link

theorem HasFork.mono {reports' : List GrammarError}
    (hfork : ps.HasFork written reports source link) (hgrows : ps.Grows ps')
    (hreports : ∀ fault ∈ reports, fault ∈ reports') :
    ps'.HasFork written reports' source link := by
  obtain ⟨own, p, hown, hp, i, hi, hlink, h, hh, q, hq, hmade⟩ := hfork
  obtain ⟨p', hp', ⟨links, -, rfl⟩, -⟩ := hgrows.paradigms own p hp
  obtain ⟨q', hq', -, hsame⟩ := hgrows.paradigms h q hq
  obtain ⟨info, hinfo, -⟩ := Option.map_eq_some_iff.1 hmade.derivation
  obtain rfl := hsame (by rw [hinfo]; rfl)
  exact ⟨own, _, hgrows.names _ own hown, hp', i, List.mem_append_left _ hi, hlink, h, hh, _, hq',
    hmade.mono hgrows.names hreports⟩

/-- `expandSource` gives a source a link to the fork of every leading link. -/
theorem hasFork_expandSource (hready : ps.Ready source)
    (hapart : ∀ link ∈ source.derivations,
      unifiedName source.name ≠ forkName link.derivation source.name)
    (hwritten : ∀ name h, written name = some h → ps.find? name = some h)
    (hlead : source.lead? derivations name = some lead) :
    (ps.expandSource derivations source).1.HasFork written
      (ps.expandSource derivations source).2 source lead := by
  obtain ⟨own, p, hown, hp, hplain⟩ := hready.plain
  -- At first no fork is there.
  have hstart : Forking.Covers ⟨ps, [], (resolveLinks derivations source).2⟩ written source.name
      (resolveLinks derivations source).1 [] := by
    refine ⟨hwritten, nofun, fun link hlink _ => ?_⟩
    obtain ⟨hmem, hname⟩ := ParadigmEntry.name_of_mem_resolveLinks hlink
    rw [hname]
    exact hready.forks link.1 hmem
  have hcovers : (ps.forking derivations source).Covers written source.name
      (resolveLinks derivations source).1
      ((groupByClass (resolveLinks derivations source).1).flatMap (·.2)) :=
    hstart.addClasses fun c hc link hlink => ParadigmEntry.mem_of_mem_groupByClass hc hlink
  obtain ⟨h, hh, q, -, hq, hmade⟩ := hcovers.made name lead hlead
  have hgrows := ps.grows_forking derivations source
  have hnew := find?_forking_eq_none derivations hready.unified hapart
  rw [expandSource_of_find? hown]
  generalize ps.forking derivations source = f at hh hq hmade hgrows hnew ⊢
  dsimp only
  rw [if_neg (by simpa using List.ne_nil_of_mem hh)]
  -- The fork is not the source, which the link is put into.
  have hne : h ≠ own := by
    rintro rfl
    obtain rfl := Option.some.inj ((hgrows.paradigms _ p hp).symm.trans hq)
    exact absurd hmade.derivation (by simp [hplain])
  refine ⟨own, { p with inflexions := p.inflexions ++ [.link f.forks] }, ?_, ?_, .link f.forks,
    List.mem_append_right _ (List.mem_singleton_self _),
    isLink_link (by simpa using List.ne_nil_of_mem hh), h, hh, q, ?_, hmade.mono ?_ ?_⟩
  · exact find?_add_of_new hnew (hgrows.names _ own hown)
  · rw [get?_modifyInflexions, if_pos rfl, get?_add_of_some (hgrows.paradigms own p hp)]
    rfl
  · rw [get?_modifyInflexions, if_neg hne]
    exact get?_add_of_some hq _
  · exact fun name h hname => find?_add_of_new hnew hname
  · exact fun _ hfault => hfault

/-! ### All sources -/

variable {sources : List ParadigmEntry}

/-- What one source makes is not what another one needs: the other source stays `Ready`. -/
theorem Ready.expandSource (hother : ps.Ready other) (hsource : ps.Ready source)
    (hapart : ParadigmEntry.NamesApart sources) (hs : source ∈ sources) (ho : other ∈ sources)
    (hne : other.name ≠ source.name) : (ps.expandSource derivations source).1.Ready other := by
  have hgrows := grows_expandSource derivations hsource
    (hapart.unified source hs source hs)
  constructor
  · obtain ⟨own, p, hown, hp, hplain⟩ := hother.plain
    obtain ⟨p', hp', ⟨links, -, rfl⟩, -⟩ := hgrows.paradigms own p hp
    exact ⟨own, _, hgrows.names _ own hown, hp', hplain⟩
  · -- The forks of the other source have other names than what was made for this one.
    intro link hlink
    refine find?_expandSource_eq_none (hother.forks link hlink) ?_ fun link' hlink' heq => ?_
    · exact (hapart.unified source hs other ho link hlink).symm
    · exact hne (hapart.forks other ho source hs link hlink link' hlink' heq)
  · refine find?_expandSource_eq_none hother.unified ?_ (hapart.unified other ho source hs)
    exact fun heq => hne (unifiedName_inj.1 heq)

theorem grows_and_hasFork_expand (derivations : List DerivationEntry)
    (hapart : ParadigmEntry.NamesApart sources)
    {rest : List ParadigmEntry} (hrest : ∀ s ∈ rest, s ∈ sources)
    (hnodup : (rest.map (·.name)).Nodup) (hready : ∀ s ∈ rest, ps.Ready s)
    (hwritten : ∀ name h, written name = some h → ps.find? name = some h) :
    ps.Grows (ps.expand derivations rest).1 ∧
      ∀ s ∈ rest, ∀ name lead, s.lead? derivations name = some lead →
        (ps.expand derivations rest).1.HasFork written (ps.expand derivations rest).2 s lead := by
  induction rest generalizing ps with
  | nil => exact ⟨.refl ps, fun s hs => absurd hs List.not_mem_nil⟩
  | cons source rest ih =>
    obtain ⟨hsource, hrest⟩ := List.forall_mem_cons.1 hrest
    obtain ⟨hfirst, hready⟩ := List.forall_mem_cons.1 hready
    obtain ⟨hnew, hnodup⟩ := List.nodup_cons.1 hnodup
    have hgrows := grows_expandSource derivations hfirst
      (hapart.unified source hsource source hsource)
    have hready' (s : ParadigmEntry) (hs : s ∈ rest) :
        (ps.expandSource derivations source).1.Ready s :=
      (hready s hs).expandSource hfirst hapart hsource (hrest s hs) fun heq =>
        hnew (List.mem_map.2 ⟨s, hs, heq⟩)
    obtain ⟨hmore, hforks⟩ := ih hrest hnodup hready' fun name h hname =>
      hgrows.names name h (hwritten name h hname)
    refine ⟨hgrows.trans hmore, fun s hs name lead hlead => ?_⟩
    rcases List.mem_cons.1 hs with rfl | hs
    · -- The fork of this source is kept while the others are expanded.
      have hfork := hasFork_expandSource hfirst (hapart.unified s hsource s hsource) hwritten hlead
      exact hfork.mono hmore fun _ hfault => List.mem_append_left _ hfault
    · exact (hforks s hs name lead hlead).mono (.refl _) fun _ hfault =>
        List.mem_append_right _ hfault

/-! ### Unknown derivations -/

theorem isSome_find?_expandSource (hname : (ps.find? name).isSome = true) :
    ((ps.expandSource derivations source).1.find? name).isSome = true := by
  obtain ⟨h, hname⟩ := Option.isSome_iff_exists.1 hname
  have hforking := (ps.grows_forking derivations source).names name h hname
  cases hown : ps.find? source.name with
  | none =>
    rw [expandSource_of_unknown hown, hname]
    rfl
  | some own =>
    rw [expandSource_of_find? hown]
    dsimp only
    split
    · rw [hforking]
      rfl
    · exact (isSome_find?_add ..).2 (.inr (by rw [hforking]; rfl))

/-- A link to no derivation is reported. -/
theorem reported_of_unknown {link : DerivationLink} (hlink : link ∈ source.derivations)
    (hnone : DerivationEntry.find? derivations link.derivation = none) :
    .unknownDerivation link.derivation source.name ∈ (resolveLinks derivations source).2 := by
  have hlinks : AccountedBy _ (resolveLinks derivations source).2 source.derivations
      (resolveLinks derivations source).1 := accounted_collect _ _
  rcases hlinks.made_or_reported hlink with ⟨part, -, hmade⟩ | ⟨fault, hfault, hmade⟩
  · simp [hnone] at hmade
  · obtain rfl : _ = fault := by simpa [hnone] using hmade
    exact hfault

theorem reported_expand_of_unknown {sources : List ParadigmEntry} {link : DerivationLink}
    (hsources : ∀ s ∈ sources, (ps.find? s.name).isSome = true) (hsource : source ∈ sources)
    (hlink : link ∈ source.derivations)
    (hnone : DerivationEntry.find? derivations link.derivation = none) :
    .unknownDerivation link.derivation source.name ∈ (ps.expand derivations sources).2 := by
  induction sources generalizing ps with
  | nil => exact absurd hsource List.not_mem_nil
  | cons first rest ih =>
    obtain ⟨hfirst, hrest⟩ := List.forall_mem_cons.1 hsources
    rcases List.mem_cons.1 hsource with rfl | hsource
    · -- The link is one of the first source, or of one of the rest.
      obtain ⟨own, hown⟩ := Option.isSome_iff_exists.1 hfirst
      have hreported := (ps.grows_forking derivations source).errors _
        (reported_of_unknown hlink hnone)
      have hhere : .unknownDerivation link.derivation source.name ∈
          (ps.expandSource derivations source).2 := by
        rw [expandSource_of_find? hown]
        dsimp only
        split <;> exact hreported
      exact List.mem_append_left _ hhere
    · exact List.mem_append_right _
        (ih (fun s hs => isSome_find?_expandSource (hrest s hs)) hsource)

/-! ### Widened paradigms -/

/-- No paradigm of a derivation is reached. -/
theorem exists_of_mem_reached {config : GrammarConfig} (hh : h ∈ ps.reached config) :
    ∃ p, ps.get? h = some p ∧ p.isDerivational = false := by
  have hmem : h ∈ (ps.arena.toList.filter fun known => !known.2.isDerivational).map (·.1) := by
    unfold reached at hh
    revert hh
    cases config.widenedParadigms with
    | none => exact id
    | some n => exact List.mem_of_mem_take
  obtain ⟨⟨_, p⟩, hp, rfl⟩ := List.mem_map.1 hmem
  obtain ⟨hp, hplain⟩ := List.mem_filter.1 hp
  exact ⟨p, Arena.mem_toList_iff.1 hp, by simpa using hplain⟩

/-- The paradigms of derivations are not widened. -/
theorem get?_widen_of_isDerivational {p : Paradigm} (hp : ps.get? h = some p)
    (hder : p.isDerivational = true) (config : GrammarConfig) :
    (ps.widen config).get? h = some p := by
  refine widen_induction (P := fun ps' => ps'.get? h = some p) ps config hp fun ps' hkept h' hh' => ?_
  have hne : h ≠ h' := by
    rintro rfl
    obtain ⟨q, hq, hplain⟩ := exists_of_mem_reached hh'
    obtain rfl := Option.some.inj (hp.symm.trans hq)
    simp [hder] at hplain
  rw [get?_widenParadigm, hkept, Option.map_some, if_neg hne]

end Paradigms

/-! ## Compiled grammars -/

/-- The forks of a derivation that the links of a paradigm lead to. -/
def Grammar.linkedForks (g : Grammar) (h : Handle) (derivation : String) : List Paradigm :=
  (((g.paradigm? h).elim [] (·.inflexions)).filter (·.isLink)).flatMap fun i =>
    (i.subsequent.filterMap g.paradigm?).filter (·.derivation.any (·.derivation == derivation))

/-- All inflexions of a paradigm lead to the paradigms of the given names. -/
def Grammar.GoesOnIn (g : Grammar) (p : Paradigm) (names : List String) : Prop :=
  ∀ i ∈ p.inflexions, ∀ name ∈ names, ∃ h ∈ i.subsequent, g.paradigms.find? name = some h

instance (g : Grammar) (p : Paradigm) (names : List String) : Decidable (g.GoesOnIn p names) :=
  inferInstanceAs (Decidable (∀ i ∈ p.inflexions, ∀ name ∈ names,
    ∃ h ∈ i.subsequent, g.paradigms.find? name = some h))

namespace GrammarDraft

/-- From the source, a link leads to a fork of the derivation that goes on in the paradigms of the
link. -/
def HasFork (d : GrammarDraft) (source : ParadigmEntry) (link : ResolvedLink) : Prop :=
  ∃ h, d.handle? source.name = some h ∧ ∃ p ∈ d.compile.grammar.linkedForks h link.2.name,
    p.IsMadeOf d.handle? d.compile.grammar.paradigms.find? d.compile.diagnostics source.name link ∧
    d.compile.grammar.GoesOnIn p (link.2.targets link.1 source.name)

/-- What becomes of a link to a derivation: there is a fork of the first link to it in the lowest
class, and so of every link if they all name the same paradigms. -/
structure ForksLink (d : GrammarDraft) (source : ParadigmEntry) (link : ResolvedLink) : Prop where
  lead : ∃ lead, source.lead? d.entries.derivations link.2.name = some lead ∧
    (∀ other ∈ source.derivations, other.derivation = link.1.derivation →
      lead.1.recursClass ≤ other.recursClass) ∧
    d.HasFork source lead
  own : (∀ other ∈ source.derivations, other.derivation = link.1.derivation →
      other.paradigms = link.1.paradigms) → d.HasFork source link

variable {d : GrammarDraft} {source : ParadigmEntry} {link lead : ResolvedLink} {name : String}

theorem find?_filled (d : GrammarDraft) (name : String) : d.filled.find? name = d.handle? name := by
  rw [Paradigms.find?, filled, names_fillParadigms]
  rfl

theorem ready_filled (hapart : ParadigmEntry.NamesApart d.sources) (hsource : source ∈ d.sources) :
    d.filled.Ready source := by
  have hfree (name : String) (hne : ∀ s ∈ d.sources, s.name ≠ name) :
      d.filled.find? name = none :=
    (d.find?_filled name).trans (find?_declareParadigms_of_ne rfl hne)
  obtain ⟨h, own, hname, hfilled, -⟩ := exists_filled hsource
  refine ⟨⟨h, _, (d.find?_filled _).trans hname, hfilled, rfl⟩, fun link hlink => ?_, ?_⟩
  · exact hfree _ fun s hs => (hapart.written s hs source hsource).2 link hlink
  · exact hfree _ fun s hs => (hapart.written s hs source hsource).1

/-- A fork goes on where its link says. -/
theorem goesOnIn_of_isMadeOf {written : String → Option Handle} {reports : List GrammarError}
    {source : String} {p : Paradigm} (h : p.IsMadeOf written d.compile.grammar.paradigms.find?
      reports source link) :
    d.compile.grammar.GoesOnIn p (link.2.targets link.1 source) := by
  obtain ⟨find?, lower, -, hfind, hinflexions⟩ := h.inflexions
  intro i hi name hname
  obtain ⟨template, -, hmade⟩ := hinflexions.exists_entry hi
  obtain ⟨origin, hresolved⟩ := (Inflexion.isOfEntry hmade).subsequent
  have hmap := Inflexion.map_find?_of_resolveParadigms hresolved
  have hmem : find? name ∈ i.subsequent.map some :=
    hmap ▸ List.mem_map_of_mem (List.mem_append_left lower hname)
  obtain ⟨own, hown, heq⟩ := List.mem_map.1 hmem
  exact ⟨own, hown, hfind name own heq.symm⟩

/-- Every leading link has its fork: what `expand` makes is kept when the grammar is widened. -/
theorem hasFork_of_lead? (hapart : ParadigmEntry.NamesApart d.sources)
    (hsource : source ∈ d.sources)
    (hlead : source.lead? d.entries.derivations name = some lead) : d.HasFork source lead := by
  obtain ⟨hgrows, hforks⟩ := Paradigms.grows_and_hasFork_expand d.entries.derivations hapart
    (fun _ hs => hs) (nodup_declareParadigms .empty d.entries.paradigms).1
    (fun s hs => ready_filled hapart hs)
    fun name h (hname : d.handle? name = some h) => (d.find?_filled name).trans hname
  obtain ⟨own, p, hown, hp, i, hi, hlink, h, hh, q, hq, hmade⟩ :=
    hforks source hsource name lead hlead
  obtain ⟨own', -, hname, -, -⟩ := exists_filled hsource
  obtain rfl : own' = own := Option.some.inj
    ((hgrows.names _ own' ((d.find?_filled _).trans hname)).symm.trans hown)
  obtain ⟨info, hinfo, hderivation⟩ := Option.map_eq_some_iff.1 hmade.derivation
  -- The link stays in the source, and the fork as it is.
  obtain ⟨p', hp', hi'⟩ := d.isWidening_compile.has_of_isLink own' i ⟨p, hp, hi⟩ hlink
  have hq' : d.compile.grammar.paradigm? h = some q :=
    Paradigms.get?_widen_of_isDerivational hq (by simp [Paradigm.isDerivational, hinfo]) d.config
  have hmade' : q.IsMadeOf d.handle? d.compile.grammar.paradigms.find? d.compile.diagnostics
      source.name lead := by
    refine hmade.mono (fun name h hname => ?_) fun fault hfault => ?_
    · exact (congrArg (Table.get? · name) d.isWidening_expanded.names).trans hname
    · exact mem_diagnostics_compile.2 (.inr (.inr (.inr (.inr (.inl hfault)))))
  refine ⟨own', hname, q, ?_, hmade', goesOnIn_of_isMadeOf hmade'⟩
  -- The link is among the inflexions of the source still, and leads to the fork.
  refine List.mem_flatMap.2 ⟨i, List.mem_filter.2 ⟨?_, hlink⟩, List.mem_filter.2 ⟨?_, ?_⟩⟩
  · rw [Grammar.paradigm?, hp']
    exact hi'
  · exact List.mem_filterMap.2 ⟨h, hh, hq'⟩
  · simp [hinfo, hderivation]

/-- A fork of a link is one of all links to the derivation that name the same paradigms. -/
theorem HasFork.congr {link' : ResolvedLink} (h : d.HasFork source link)
    (hderivation : link'.2 = link.2) (hparadigms : link'.1.paradigms = link.1.paradigms) :
    d.HasFork source link' := by
  obtain ⟨own, hown, p, hp, hmade, hgoes⟩ := h
  have htargets : link'.2.targets link'.1 source.name = link.2.targets link.1 source.name := by
    rw [DerivationEntry.targets, hderivation, hparadigms, DerivationEntry.targets]
  refine ⟨own, hown, p, hderivation ▸ hp, ⟨?_, ?_, ?_⟩, htargets ▸ hgoes⟩
  · rw [hderivation]
    exact hmade.name
  · rw [hderivation]
    exact hmade.derivation
  · rw [hderivation] at htargets ⊢
    rw [htargets]
    exact hmade.inflexions

theorem forksLink_of_find? (hapart : ParadigmEntry.NamesApart d.sources)
    (hsource : source ∈ d.sources) {link : DerivationLink} {derivation : DerivationEntry}
    (hlink : link ∈ source.derivations)
    (hfind : DerivationEntry.find? d.entries.derivations link.derivation = some derivation) :
    d.ForksLink source (link, derivation) := by
  have hmem := Paradigms.mem_resolveLinks_iff.2 ⟨hlink, hfind⟩
  obtain ⟨lead, hlead⟩ := ParadigmEntry.exists_lead? hmem
  obtain ⟨hleadMem, hname⟩ := ParadigmEntry.mem_of_lead? hlead
  obtain ⟨hleadLink, hleadFind⟩ := Paradigms.mem_resolveLinks_iff.1 hleadMem
  have hfork := hasFork_of_lead? hapart hsource hlead
  -- All links to the derivation are to the same entry.
  have hsame : lead.1.derivation = link.derivation := by
    rw [← DerivationEntry.name_of_find? hleadFind, hname, DerivationEntry.name_of_find? hfind]
  have hentry : derivation = lead.2 := by
    rw [hsame] at hleadFind
    exact Option.some.inj (hfind.symm.trans hleadFind)
  constructor
  · refine ⟨lead, hlead, fun other hother heq => ?_, hfork⟩
    exact ParadigmEntry.recursClass_lead?_le hlead
      (Paradigms.mem_resolveLinks_iff.2 ⟨hother, heq.symm ▸ hfind⟩) rfl
  · exact fun hparadigms => hfork.congr hentry (hparadigms lead.1 hleadLink hsame).symm

/-- **Accounting.**  Compiling accounts for all entries (`AccountsForEntries`) and reports all links
to unknown derivations. If the names that derivations make are those of nothing else (`NamesApart`),
then there is a fork of the first link to a derivation in the lowest class, and of every link to the
derivation if all of them name the same paradigms (`ForksLink`). -/
theorem accountsForEntries_and_links (d : GrammarDraft) :
    d.AccountsForEntries ∧
    (∀ source ∈ d.sources, ∀ link ∈ source.derivations,
      DerivationEntry.find? d.entries.derivations link.derivation = none →
        .unknownDerivation link.derivation source.name ∈ d.compile.diagnostics) ∧
    (ParadigmEntry.NamesApart d.sources → ∀ source ∈ d.sources, ∀ link ∈ source.derivations,
      ∀ derivation, DerivationEntry.find? d.entries.derivations link.derivation = some derivation →
        d.ForksLink source (link, derivation)) := by
  refine ⟨d.accountsForEntries, fun source hsource link hlink hnone => ?_,
    fun hapart source hsource link hlink derivation hfind =>
      forksLink_of_find? hapart hsource hlink hfind⟩
  refine mem_diagnostics_compile.2 (.inr (.inr (.inr (.inr (.inl ?_)))))
  refine Paradigms.reported_expand_of_unknown (fun s hs => ?_) hsource hlink hnone
  obtain ⟨h, own, hname, -, -⟩ := exists_filled hs
  rw [d.find?_filled, hname]
  rfl

/-! ### Links to the same derivation -/

/-- A verb with links to derivations, and the paradigms of derived nouns and adverbs. -/
def linkedVerb (links : List DerivationLink) : GrammarDraft :=
  (start default).add { GrammarDocument.empty with
    paradigms := [
      ⟨"V", [⟨".", "prs", "", none, [], none, .both, [], false, true⟩], links⟩,
      ⟨"N", [⟨".s", "pl", "PL", none, [], none, .both, [], false, true⟩], []⟩,
      ⟨"A", [⟨".ly", "adv", "ADV", none, [], none, .both, [], false, true⟩], []⟩]
    derivations := [
      ⟨"agent", [⟨".er", "agent", "AG", none, [], none, .both, [], false, true⟩], []⟩]
    lexemes := [⟨"work", "work.", ["V"], "V", "work", [], none, false, none⟩] }

/-- Of the paradigm of a name there is a link, as a test says. -/
private theorem exists_link_of_any {d : GrammarDraft} (name : String) (link : DerivationLink)
    (h : (d.sources.any fun s => s.name == name && s.derivations.contains link) = true) :
    ∃ source ∈ d.sources, source.name = name ∧ link ∈ source.derivations := by
  obtain ⟨source, hsource, htest⟩ := List.any_eq_true.1 h
  obtain ⟨hname, hlink⟩ := Bool.and_eq_true_iff.1 htest
  exact ⟨source, hsource, beq_iff_eq.1 hname, List.contains_iff_mem.1 hlink⟩

/-- A verb with a link to a derivation that there is, which goes on in two paradigms, and one to a
derivation that there is not. -/
theorem accountsForEntries_and_links_linkedVerb :
    ∃ d : GrammarDraft, d = linkedVerb [⟨"agent", 0, ["N", "A"]⟩, ⟨"dim", 1, []⟩] ∧
      ParadigmEntry.NamesApart d.sources ∧ d.AccountsForEntries ∧
      .unknownDerivation "dim" "V" ∈ d.compile.diagnostics ∧
      ∃ source ∈ d.sources, ∃ derivation,
        d.HasFork source (⟨"agent", 0, ["N", "A"]⟩, derivation) := by
  let d := linkedVerb [⟨"agent", 0, ["N", "A"]⟩, ⟨"dim", 1, []⟩]
  have hapart : ParadigmEntry.NamesApart d.sources :=
    ParadigmEntry.namesApart_of_unmarked (by decide +kernel) (by decide +kernel)
  obtain ⟨hentries, hunknown, hforks⟩ := accountsForEntries_and_links d
  obtain ⟨verb, hverb, hname, hdim⟩ := exists_link_of_any (d := d) "V" ⟨"dim", 1, []⟩
    (by decide +kernel)
  obtain ⟨verb', hverb', hname', hagent⟩ := exists_link_of_any (d := d) "V"
    ⟨"agent", 0, ["N", "A"]⟩ (by decide +kernel)
  obtain ⟨derivation, hderivation⟩ := Option.isSome_iff_exists.1
    (show (DerivationEntry.find? d.entries.derivations "agent").isSome = true by decide +kernel)
  -- The verb has no other link to the derivation.
  have honce : ∀ source ∈ d.sources, ∀ other ∈ source.derivations, other.derivation = "agent" →
      other.paradigms = ["N", "A"] := by
    decide +kernel
  refine ⟨d, rfl, hapart, hentries, ?_, verb', hverb', derivation, ?_⟩
  · exact hname ▸ hunknown verb hverb _ hdim (by decide +kernel)
  · exact (hforks hapart verb' hverb' _ hagent derivation hderivation).own (honce verb' hverb')

/-- A second link to the same derivation is lost without a report, though no name is taken: there is
no derived adverb. -/
theorem not_hasFork_secondLink :
    ¬ ∀ d : GrammarDraft, ParadigmEntry.NamesApart d.sources → d.compile.diagnostics = [] →
      ∀ source ∈ d.sources, ∀ link ∈ source.derivations, ∀ derivation,
        DerivationEntry.find? d.entries.derivations link.derivation = some derivation →
          d.HasFork source (link, derivation) := by
  intro h
  let d := linkedVerb [⟨"agent", 0, ["N"]⟩, ⟨"agent", 0, ["A"]⟩]
  have hapart : ParadigmEntry.NamesApart d.sources :=
    ParadigmEntry.namesApart_of_unmarked (by decide +kernel) (by decide +kernel)
  obtain ⟨verb, hverb, hname, hlink⟩ := exists_link_of_any (d := d) "V" ⟨"agent", 0, ["A"]⟩
    (by decide +kernel)
  obtain ⟨derivation, hderivation⟩ := Option.isSome_iff_exists.1
    (show (DerivationEntry.find? d.entries.derivations "agent").isSome = true by decide +kernel)
  obtain ⟨own, hown, p, hp, -, hgoes⟩ :=
    h d hapart (by decide +kernel) verb hverb _ hlink derivation hderivation
  -- No fork of the derivation goes on in the paradigm of adverbs.
  have hnone : ((d.handle? "V").all fun own =>
      (d.compile.grammar.linkedForks own "agent").all fun p =>
        !decide (d.compile.grammar.GoesOnIn p ["A"])) = true := by
    decide +kernel
  rw [hname] at hown
  rw [DerivationEntry.name_of_find? hderivation] at hp
  rw [hown] at hnone
  have hclosed : ¬ d.compile.grammar.GoesOnIn p ["A"] := by
    simpa using List.all_eq_true.1 hnone p hp
  exact hclosed hgoes

end GrammarDraft

end Morphology
