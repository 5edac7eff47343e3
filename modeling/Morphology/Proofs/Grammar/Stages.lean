import Morphology.Grammar.Draft
import Morphology.Proofs.Outcome

/-!
# Stages of compiling

Paradigms are declared, filled, extended by derivations and widened.  Every stage reads inflexions
from entries, makes links to paradigms that are there, or joins inflexions, and never takes a
paradigm away.  A property that these three ways of making inflexions give, and that further
paradigms do not spoil, holds of every inflexion of a compiled grammar.

## Main definitions

* `Paradigms.All` — all inflexions of all paradigms have a property
* `Paradigms.Known` — there is a paradigm under a handle
* `Paradigms.IsInvariant` — a property that every way of making inflexions gives
* `Paradigms.Keeps` — all names are those of paradigms, and all inflexions have a property

## Main statements

* `Paradigms.of_widenInflexion?` — what comes in place of a widened inflexion
* `GrammarDraft.keeps_compile` — the paradigms of a compiled grammar keep every invariant
-/

namespace Morphology

universe u v

/-! ## Changing paradigms -/

namespace Arena

variable {α : Type u}

/-- A changed item is found changed, and the others stay. -/
theorem get?_modify (a : Arena α) (h h' : Handle) (f : α → α) :
    (a.modify h f).get? h' = if h' = h then (a.get? h).map f else a.get? h' := by
  obtain ⟨n, i⟩ := h
  obtain ⟨n', i'⟩ := h'
  unfold modify
  -- The handle is of this arena or of another, which `modify` leaves alone.
  by_cases hn : n = a.name
  · subst hn
    simp only [if_true, get?, Handle.mk.injEq]
    by_cases hn' : n' = a.name
    · by_cases hi : i' = i
      · simp [hn', hi, Array.getElem?_modify]
      · simp [hn', hi, Ne.symm hi, Array.getElem?_modify]
    · simp [hn']
  · by_cases hh : n' = n ∧ i' = i
    · obtain ⟨rfl, rfl⟩ := hh
      simp [get?, hn]
    · simp [get?, hn, hh]

end Arena

namespace Paradigms

theorem get?_add (ps : Paradigms) (p : Paradigm) (h : Handle) :
    (ps.add p).2.get? h = if h = ps.arena.nextHandle then some p else ps.get? h :=
  Arena.get?_alloc ps.arena (fun _ => p) h

theorem find?_add (ps : Paradigms) (p : Paradigm) (name : String) :
    (ps.add p).2.find? name = if name = p.name then some ps.arena.nextHandle else ps.find? name :=
  Table.get?_insert ps.names p.name name _

theorem get?_modifyInflexions (ps : Paradigms) (h h' : Handle)
    (f : List Inflexion → List Inflexion) :
    (ps.modifyInflexions h f).get? h' = if h' = h then
      (ps.get? h).map fun p => { p with inflexions := f p.inflexions } else ps.get? h' :=
  Arena.get?_modify ps.arena h h' _

/-- All inflexions of all paradigms have a property. -/
def All (P : Inflexion → Prop) (ps : Paradigms) : Prop :=
  ∀ h p, ps.get? h = some p → ∀ i ∈ p.inflexions, P i

end Paradigms

/-- Every part collected is made of an entry. -/
theorem exists_of_mem_collect {ε : Type u} {α : Type v} {make : ε → Except GrammarError α}
    {entries : List ε} {part : α} (h : part ∈ (collect make entries).1) :
    ∃ e ∈ entries, make e = .ok part := by
  induction entries with
  | nil => exact absurd h List.not_mem_nil
  | cons e rest ih =>
    simp only [collect] at h
    cases hmake : make e with
    | ok made =>
      simp only [hmake] at h
      rcases List.mem_cons.1 h with rfl | h
      · exact ⟨e, List.mem_cons_self .., hmake⟩
      · -- The part comes of the first entry or of one behind it.
        obtain ⟨e', he', hmade⟩ := ih h
        exact ⟨e', List.mem_cons_of_mem _ he', hmade⟩
    | error error =>
      simp only [hmake] at h
      obtain ⟨e', he', hmade⟩ := ih h
      exact ⟨e', List.mem_cons_of_mem _ he', hmade⟩

/-! ## Widening one inflexion -/

namespace Paradigms

variable {ps : Paradigms} {config : GrammarConfig} {h : Handle} {i : Inflexion}
  {joins closed : List Inflexion}

theorem continuations_of_isWidenable (h : isWidenable config i = true) :
    i.continuations = 1 ∧ i.isLink = false := by
  simp only [isWidenable, Bool.and_eq_true, beq_iff_eq, Bool.not_eq_true'] at h
  exact ⟨h.1.1.1, h.1.1.2⟩

/-- `closedInflexions?` gives the inflexions of a plain paradigm in which none leads on. -/
theorem closedInflexions?_eq_some_iff : ps.closedInflexions? h = some closed ↔
    ∃ p, ps.get? h = some p ∧ p.isDerivational = false ∧ p.inflexions = closed ∧
      ∀ i ∈ closed, i.isLink = false ∧ i.continues = false ∧ i.startWithSelf = false := by
  unfold closedInflexions?
  simp only [Option.bind_eq_bind, Option.bind_eq_some_iff]
  constructor
  · rintro ⟨p, hp, h⟩
    split at h
    · exact absurd h (by simp)
    · rename_i hopen
      obtain rfl := Option.some.inj h
      simp only [Bool.or_eq_true, List.any_eq_true, not_or, not_exists, not_and,
        Bool.not_eq_true] at hopen
      exact ⟨p, hp, hopen.1, rfl, fun i hi => by simpa [and_assoc] using hopen.2 i hi⟩
  · rintro ⟨p, hp, hplain, rfl, hclosed⟩
    refine ⟨p, hp, ?_⟩
    rw [if_neg]
    simp only [Bool.or_eq_true, List.any_eq_true, not_or, not_exists, not_and, Bool.not_eq_true]
    exact ⟨hplain, fun i hi => by simpa [and_assoc] using hclosed i hi⟩

/-- `widenInflexion?` puts in place of an inflexion its joins with all inflexions of all paradigms
that it leads to, every one of which may be joined. -/
theorem of_widenInflexion? (h : ps.widenInflexion? config i = some joins) :
    isWidenable config i = true ∧
      (∀ next ∈ i.subsequent, ∃ closed, ps.closedInflexions? next = some closed) ∧
      ∀ j, j ∈ joins ↔ ∃ next ∈ i.subsequent, ∃ closed, ps.closedInflexions? next = some closed ∧
        ∃ child ∈ closed, i.join? child = some j := by
  unfold widenInflexion? at h
  split at h
  · rename_i hwidenable
    obtain ⟨children, hchildren, rfl⟩ := Option.map_eq_some_iff.1 h
    have hmap := map_eq_of_mapM hchildren
    -- The lists that were read are those of the paradigms it leads to.
    have hmem (closed : List Inflexion) : closed ∈ children ↔
        ∃ next ∈ i.subsequent, ps.closedInflexions? next = some closed := by
      rw [← List.mem_map, hmap]
      simp
    refine ⟨hwidenable, fun next hnext => ?_, fun j => ?_⟩
    · have : ps.closedInflexions? next ∈ children.map some := hmap ▸ List.mem_map_of_mem hnext
      obtain ⟨closed, -, hclosed⟩ := List.mem_map.1 this
      exact ⟨closed, hclosed.symm⟩
    · simp only [List.mem_filterMap, List.mem_flatten, hmem]
      constructor
      · rintro ⟨child, ⟨closed, ⟨next, hnext, hclosed⟩, hchild⟩, hjoin⟩
        exact ⟨next, hnext, closed, hclosed, child, hchild, hjoin⟩
      · rintro ⟨next, hnext, closed, hclosed, child, hchild, hjoin⟩
        exact ⟨child, ⟨closed, ⟨next, hnext, hclosed⟩, hchild⟩, hjoin⟩
  · exact absurd h (by simp)

end Paradigms

/-! ## Known paradigms -/

namespace Paradigms

variable {ps : Paradigms} {h : Handle}

/-- There is a paradigm under a handle. -/
def Known (ps : Paradigms) (h : Handle) : Prop :=
  (ps.get? h).isSome = true

theorem known_add (ps : Paradigms) (p : Paradigm) :
    (ps.add p).2.Known h ↔ h = ps.arena.nextHandle ∨ ps.Known h := by
  rw [Known, get?_add]
  split
  · rename_i heq
    simp [heq]
  · rename_i hne
    simp [hne, Known]

theorem known_modifyInflexions (ps : Paradigms) (h' : Handle)
    (f : List Inflexion → List Inflexion) : (ps.modifyInflexions h' f).Known h ↔ ps.Known h := by
  rw [Known, get?_modifyInflexions]
  split
  · rename_i heq
    rw [heq, Option.isSome_map, Known]
  · exact Iff.rfl

/-! ## Invariants -/

/-- A property that every way of making inflexions gives: reading an entry when all names are those
of paradigms, linking to paradigms, and joining what continues once with what does not.  Further
paradigms do not spoil it. -/
structure IsInvariant (Q : Paradigms → Inflexion → Prop) : Prop where
  grow : ∀ ps ps' i, (∀ h, ps.Known h → ps'.Known h) → Q ps i → Q ps' i
  ofEntry : ∀ ps paradigm e i, (∀ name h, ps.find? name = some h → ps.Known h) →
    Inflexion.ofEntry ps.find? paradigm e = .ok i → Q ps i
  link : ∀ ps handles, handles ≠ [] → (∀ h ∈ handles, ps.Known h) → Q ps (.link handles)
  join : ∀ ps i child joined, Q ps i → Q ps child → i.continuations = 1 →
    child.continues = false → i.join? child = some joined → Q ps joined

/-- All names are those of paradigms, and all inflexions have a property. -/
structure Keeps (Q : Paradigms → Inflexion → Prop) (ps : Paradigms) : Prop where
  names : ∀ name h, ps.find? name = some h → ps.Known h
  inflexions : ps.All (Q ps)

variable {Q : Paradigms → Inflexion → Prop}

theorem Keeps.empty : Paradigms.empty.Keeps Q where
  names := fun _ _ h => nomatch h
  inflexions := by
    intro h p hp
    simp [Paradigms.empty, get?, Arena.get?, Arena.empty] at hp

/-- One more paradigm is found under its name and changes no other. -/
theorem Keeps.add (hQ : IsInvariant Q) (hps : ps.Keeps Q) {p : Paradigm}
    (hp : ∀ i ∈ p.inflexions, Q ps i) : (ps.add p).2.Keeps Q := by
  have hgrow (h : Handle) (hknown : ps.Known h) : (ps.add p).2.Known h :=
    (known_add ps p).2 (.inr hknown)
  -- The new paradigm brings its name and its inflexions; all others stay known and stay found.
  refine ⟨fun name h hname => ?_, fun h q hq i hi => hQ.grow ps _ i hgrow ?_⟩
  · rw [find?_add] at hname
    split at hname
    · exact (known_add ps p).2 (.inl (Option.some.inj hname).symm)
    · exact hgrow h (hps.names name h hname)
  · rw [get?_add] at hq
    split at hq
    · obtain rfl := Option.some.inj hq
      exact hp i hi
    · exact hps.inflexions h q hq i hi

theorem Keeps.modifyInflexions (hQ : IsInvariant Q) (hps : ps.Keeps Q) (h : Handle)
    {f : List Inflexion → List Inflexion}
    (hf : ∀ is, (∀ i ∈ is, Q ps i) → ∀ i ∈ f is, Q ps i) : (ps.modifyInflexions h f).Keeps Q := by
  have hgrow (h' : Handle) (hknown : ps.Known h') : (ps.modifyInflexions h f).Known h' :=
    (known_modifyInflexions ps h f).2 hknown
  refine ⟨fun name h' hname => hgrow h' (hps.names name h' hname), fun h' q hq i hi => ?_⟩
  refine hQ.grow ps _ i hgrow ?_
  rw [get?_modifyInflexions] at hq
  split at hq
  · obtain ⟨p, hp, rfl⟩ := Option.map_eq_some_iff.1 hq
    exact hf _ (hps.inflexions h p hp) i hi
  · exact hps.inflexions h' q hq i hi

/-- What entries become while all names are those of paradigms. -/
theorem Keeps.of_mem_collect (hQ : IsInvariant Q) (hps : ps.Keeps Q) {ε : Type}
    {name : String} {f : ε → InflexionEntry} {entries : List ε} {i : Inflexion}
    (hi : i ∈ (collect (fun e => Inflexion.ofEntry ps.find? name (f e)) entries).1) : Q ps i := by
  obtain ⟨e, -, he⟩ := exists_of_mem_collect hi
  exact hQ.ofEntry ps name (f e) i hps.names he

/-! ### Entries -/

theorem Keeps.declareParadigms (hQ : IsInvariant Q) (hps : ps.Keeps Q)
    (entries : List ParadigmEntry) : (GrammarDraft.declareParadigms ps entries).1.Keeps Q := by
  induction entries generalizing ps with
  | nil => exact hps
  | cons e rest ih =>
    simp only [GrammarDraft.declareParadigms]
    split
    · exact ih hps
    · exact ih (hps.add hQ (by simp))

theorem Keeps.fillParadigms (hQ : IsInvariant Q) (hps : ps.Keeps Q)
    (entries : List ParadigmEntry) : (GrammarDraft.fillParadigms ps entries).1.Keeps Q := by
  induction entries generalizing ps with
  | nil => exact hps
  | cons e rest ih =>
    simp only [GrammarDraft.fillParadigms]
    apply ih
    split
    · exact hps.modifyInflexions hQ _ fun _ _ _ hi => hps.of_mem_collect hQ (f := id) hi
    · exact hps

/-! ### Widening -/

theorem Keeps.widenParadigm (hQ : IsInvariant Q) (hps : ps.Keeps Q) (config : GrammarConfig)
    (h : Handle) : (ps.widenParadigm config h).Keeps Q := by
  refine hps.modifyInflexions hQ h fun is his j hj => ?_
  obtain ⟨i, hi, hj⟩ := List.mem_flatMap.1 hj
  cases hwiden : ps.widenInflexion? config i with
  | none =>
    -- An inflexion that is not widened stays as it is.
    obtain rfl : j = i := by simpa [hwiden] using hj
    exact his j hi
  | some joins =>
    rw [hwiden] at hj
    -- A join is made of what continues once and of what does not continue.
    obtain ⟨hwidenable, -, hmem⟩ := of_widenInflexion? hwiden
    obtain ⟨next, -, closed, hclosed, child, hchild, hjoin⟩ := (hmem j).1 hj
    obtain ⟨p, hp, -, rfl, hopen⟩ := closedInflexions?_eq_some_iff.1 hclosed
    exact hQ.join ps i child j (his i hi) (hps.inflexions next p hp child hchild)
      (continuations_of_isWidenable hwidenable).1 (hopen child hchild).2.1 hjoin

/-- What `widenParadigm` keeps for the paradigms that are `reached`, `widen` keeps, wherever its
time is up. -/
theorem widen_induction {P : Paradigms → Prop} (ps : Paradigms) (config : GrammarConfig)
    (start : P ps)
    (step : ∀ ps', P ps' → ∀ h ∈ ps.reached config, P (ps'.widenParadigm config h)) :
    P (ps.widen config) :=
  List.foldlRecOn _ _ start step

theorem Keeps.widen (hQ : IsInvariant Q) (hps : ps.Keeps Q) (config : GrammarConfig) :
    (ps.widen config).Keeps Q :=
  widen_induction ps config hps fun _ hps' h _ => hps'.widenParadigm hQ config h

end Paradigms

/-! ### Derivations -/

namespace Forking

variable {Q : Paradigms → Inflexion → Prop} {f : Forking}

/-- The paradigms keep an invariant, and the forks made so far are among them. -/
structure Keeps (Q : Paradigms → Inflexion → Prop) (f : Forking) : Prop where
  paradigms : f.paradigms.Keeps Q
  forks : ∀ h ∈ f.forks, f.paradigms.Known h

theorem Keeps.addFork (hQ : Paradigms.IsInvariant Q) (hf : f.Keeps Q) (source : String)
    (lower restricted : List String) (link : ResolvedLink) :
    (f.addFork source lower restricted link).1.Keeps Q := by
  simp only [Forking.addFork]
  split
  · -- The name is taken, and nothing changes.
    exact hf
  · -- The fork is there, empty, before its inflexions are read.
    have hadded := hf.paradigms.add hQ
      (p := ⟨forkName link.2.name source, [], some ⟨link.2.name, restricted⟩⟩) (by simp)
    refine ⟨hadded.modifyInflexions hQ _ fun _ _ _ hi => hadded.of_mem_collect hQ hi,
      fun h hh => ?_⟩
    -- The forks are those there were and the one that was added.
    refine (Paradigms.known_modifyInflexions ..).2 ((Paradigms.known_add ..).2 ?_)
    rcases List.mem_append.1 hh with hh | hh
    · exact .inr (hf.forks h hh)
    · exact .inl (List.mem_singleton.1 hh)

theorem Keeps.addClass (hQ : Paradigms.IsInvariant Q) (hf : f.Keeps Q) (source : String)
    (lower restricted : List String) (links : List ResolvedLink) :
    (f.addClass source lower restricted links).1.Keeps Q := by
  induction links generalizing f with
  | nil => exact hf
  | cons link rest ih => exact ih (hf.addFork hQ source lower restricted link)

theorem Keeps.addClasses (hQ : Paradigms.IsInvariant Q) (hf : f.Keeps Q) (source : String)
    (links : List ResolvedLink) (lower : List String) (classes : List (Nat × List ResolvedLink)) :
    (f.addClasses source links lower classes).Keeps Q := by
  induction classes generalizing f lower with
  | nil => exact hf
  | cons c rest ih =>
    obtain ⟨c, ofClass⟩ := c
    exact ih (hf.addClass hQ source lower (restrictedFrom links c) ofClass) _

end Forking

namespace Paradigms

variable {ps : Paradigms} {Q : Paradigms → Inflexion → Prop}

/-- The source is extended by a link, and only if there are forks to link to. -/
theorem Keeps.expandSource (hQ : IsInvariant Q) (hps : ps.Keeps Q)
    (derivations : List DerivationEntry) (source : ParadigmEntry) :
    (ps.expandSource derivations source).1.Keeps Q := by
  unfold Paradigms.expandSource
  split
  · exact hps
  · dsimp only
    have hstart : Forking.Keeps Q ⟨ps, [], (resolveLinks derivations source).2⟩ := ⟨hps, by simp⟩
    have hforks := hstart.addClasses hQ source.name (resolveLinks derivations source).1 []
      (groupByClass (resolveLinks derivations source).1)
    -- `expandSource` got no further than the forks.
    generalize Forking.addClasses _ _ _ _ _ = f at hforks ⊢
    split
    · exact hforks.paradigms
    · rename_i hne
      have hlink : Q f.paradigms (.link f.forks) :=
        hQ.link _ _ (by simpa using hne) hforks.forks
      have hunified := hforks.paradigms.add hQ
        (p := ⟨unifiedName source.name, [.link f.forks], none⟩) (by simpa using hlink)
      dsimp only
      refine hunified.modifyInflexions hQ _ fun is his i hi => ?_
      -- The inflexions of the source are those it had and the link to the unified paradigm.
      rcases List.mem_append.1 hi with hi | hi
      · exact his i hi
      · rw [List.mem_singleton.1 hi]
        exact hQ.grow _ _ _ (fun h hknown => (known_add ..).2 (.inr hknown)) hlink

theorem Keeps.expand (hQ : IsInvariant Q) (hps : ps.Keeps Q) (derivations : List DerivationEntry)
    (sources : List ParadigmEntry) : (ps.expand derivations sources).1.Keeps Q := by
  induction sources generalizing ps with
  | nil => exact hps
  | cons source rest ih => exact ih (hps.expandSource hQ derivations source)

end Paradigms

/-- The paradigms of a compiled grammar keep every invariant. -/
theorem GrammarDraft.keeps_compile {Q : Paradigms → Inflexion → Prop}
    (hQ : Paradigms.IsInvariant Q) (d : GrammarDraft) : d.compile.grammar.paradigms.Keeps Q := by
  show Paradigms.Keeps Q (Paradigms.widen _ _)
  apply Paradigms.Keeps.widen hQ
  apply Paradigms.Keeps.expand hQ
  apply Paradigms.Keeps.fillParadigms hQ
  exact Paradigms.Keeps.declareParadigms hQ .empty _

end Morphology
