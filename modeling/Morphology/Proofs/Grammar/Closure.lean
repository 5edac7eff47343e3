import Morphology.Proofs.Grammar.Joins
import Morphology.Proofs.Search.Indices

/-!
# Closed grammars

In a compiled grammar every handle leads to a paradigm, every inflexion is a link or a form with a
boundary, and every stem can be matched.  Nothing of this depends on the entries: an entry that
would break it is reported and left out.

## Main definitions

* `Inflexion.Throughout` — a property of an inflexion and of all lemma changers in it
* `Inflexion.Shaped` — an inflexion is a link or a form
* `SubLexeme.Placed` — a sub-lexeme has a place in its lexeme
* `Grammar.Closed` — the properties of a whole grammar

## Main statements

* `Inflexion.isInvariant_resolves` — the shape of inflexions, and that their handles lead to
  paradigms, is an invariant of compiling
* `GrammarDraft.closed_compile` — compiled grammars are closed
-/

namespace Morphology

/-! ## Inflexions with their lemma changers -/

namespace Inflexion

/-- A property of an inflexion, of its lemma changer, of the lemma changer of that, and so on. -/
inductive Throughout (P : Inflexion → Prop) : Inflexion → Prop
  | mk {i : Inflexion} (own : P i)
      (changer : ∀ c, i.lemmaChanger = some c → Throughout P c) : Throughout P i

namespace Throughout

variable {P P' : Inflexion → Prop} {i c : Inflexion}

theorem own (h : i.Throughout P) : P i := by
  cases h with
  | mk own _ => exact own

theorem changer (h : i.Throughout P) (hc : i.lemmaChanger = some c) : c.Throughout P := by
  cases h with
  | mk _ changer => exact changer c hc

theorem mono (hP : ∀ j, P j → P' j) (h : i.Throughout P) : i.Throughout P' := by
  induction h with
  | mk own _ ih => exact .mk (hP _ own) ih

end Throughout

/-! ## The shape of inflexions -/

/-- An inflexion is a link to some paradigm, or it is a form: it has a boundary, the sign for
preceding the stem counts and is in front if there is one, and there is a paradigm to go on in if it
continues. -/
inductive Shaped (i : Inflexion) : Prop
  | link (hparts : i.parts = []) (hleads : i.subsequent ≠ [])
  | form (hboundary : ∃ p ∈ i.parts, p.role.isBoundary = true) (hfirst : Flex.SelfFirst i.parts)
      (hself : ∀ p ∈ i.parts.head?, p.role = .startWithSelf → i.startWithSelf = true)
      (hleads : i.continues = true → i.subsequent ≠ [])

variable {find? : String → Option Handle} {paradigm : String} {e : InflexionEntry}
  {i child joined : Inflexion}

/-- An entry becomes a form. -/
theorem IsOfEntry.shaped (h : IsOfEntry find? paradigm e i) : i.Shaped := by
  obtain ⟨made, hmade, hparts, hself⟩ := h.flex
  obtain ⟨parts, hread, rfl⟩ := map_eq_ok_iff.1 hmade
  refine .form ?_ ?_ (fun p hp hrole => ?_) h.leads
  · rw [hparts]
    exact Flex.exists_boundary_of_read hread
  · rw [hparts]
    exact Flex.selfFirst_of_read hread
  · -- The first part decides whether the inflexion precedes its stem.
    rw [hparts, Option.mem_def] at hp
    rw [hself]
    have hp' : (Flex.assignGlosses parts e.gloss).head? = some p := hp
    simp [ofParts, hp', hrole]

/-- Parts without the sign in place of a continuation leave it in front, if it is there. -/
theorem selfFirst_splice {inserted parts : List FlexPart} (hparts : Flex.SelfFirst parts)
    (hinserted : ∀ p ∈ inserted, p.role ≠ .startWithSelf) :
    Flex.SelfFirst (splice inserted parts) ∧
      ∀ p ∈ (splice inserted parts).head?, p.role = .startWithSelf → p ∈ parts.head? := by
  cases parts with
  | nil => exact ⟨hparts, fun _ hp _ => hp⟩
  | cons q rest =>
    rw [splice]
    split
    · -- The continuation was the first part: what takes its place has no sign.
      have hall : ∀ p ∈ inserted ++ rest, p.role ≠ .startWithSelf := fun p hp =>
        (List.mem_append.1 hp).elim (hinserted p) (hparts p)
      exact ⟨fun p hp => hall p (List.mem_of_mem_tail hp),
        fun p hp hrole => absurd hrole (hall p (List.mem_of_mem_head? hp))⟩
    · -- Otherwise the first part stays where it is.
      exact ⟨fun p hp => (mem_splice hp).elim (hinserted p) (hparts p), fun _ hp _ => hp⟩

/-- A form stays one where another inflexion, which does not continue, is joined to it. -/
theorem Shaped.join (hi : i.Shaped) (hone : i.continuations = 1) (hchild : child.continues = false)
    (h : i.join? child = some joined) : joined.Shaped := by
  obtain ⟨hcont, hparts, hsign⟩ := parts_of_join? h
  have hend := continues_of_join? h hone hchild
  cases hi with
  -- A link has no parts, so nothing can be joined to it.
  | link hnil _ => exact absurd hnil (parts_ne_nil_of_continues hcont)
  | form hboundary hfirst hself _ =>
    -- The child brings its inner parts only, and the sign is none of them.
    have hbounded : HasBoundary i := fun _ => hboundary
    have hinner : ∀ p ∈ child.innerParts, p.role ≠ .startWithSelf := fun p hp => by
      simpa using (Bool.and_eq_true_iff.1 (List.mem_filter.1 hp).2).2
    obtain ⟨hfirst', hhead⟩ := selfFirst_splice hfirst hinner
    refine .form (hbounded.exists_of_join? h) (hparts ▸ hfirst') ?_
      -- Behind a join nothing continues, so nothing has to lead anywhere.
      fun hcont' => absurd (hend.symm.trans hcont') Bool.false_ne_true
    intro p hp hrole
    rw [hparts] at hp
    rw [hsign]
    exact hself p (hhead p hp hrole) hrole

/-! ## The handles of inflexions -/

/-- Names are resolved to the handles found under them. -/
theorem map_find?_of_resolveParadigms {origin : Origin} {names : List String}
    {handles : List Handle} (h : resolveParadigms find? origin names = .ok handles) :
    names.map find? = handles.map some := by
  unfold resolveParadigms at h
  induction names generalizing handles with
  | nil =>
    obtain rfl : [] = handles := Except.ok.inj h
    rfl
  | cons name names ih =>
    rw [List.mapM_cons] at h
    obtain ⟨first, hfirst, h⟩ := bind_eq_ok_iff.1 h
    obtain ⟨rest, hrest, h⟩ := bind_eq_ok_iff.1 h
    obtain rfl := Except.ok.inj h
    rw [List.map_cons, List.map_cons, ih hrest]
    -- The first name has a handle, or there would be no result.
    cases hname : find? name with
    | none => exact absurd hfirst (by simp [hname])
    | some handle =>
      obtain rfl : handle = first := by simpa [hname] using hfirst
      rfl

/-- Only handles that names are found under are resolved. -/
theorem exists_find?_of_resolveParadigms {origin : Origin} {names : List String}
    {handles : List Handle} (h : resolveParadigms find? origin names = .ok handles) :
    ∀ handle ∈ handles, ∃ name, find? name = some handle := by
  intro handle hhandle
  have hmem : some handle ∈ names.map find? :=
    map_find?_of_resolveParadigms h ▸ List.mem_map_of_mem hhandle
  obtain ⟨name, -, hname⟩ := List.mem_map.1 hmem
  exact ⟨name, hname⟩

/-- An inflexion has the right shape and leads only to paradigms that are there, and so have and do
all lemma changers in it. -/
def Resolves (ps : Paradigms) : Inflexion → Prop :=
  Throughout fun i => i.Shaped ∧ ∀ h ∈ i.subsequent, ps.Known h

theorem Resolves.ofEntry {ps : Paradigms} (hnames : ∀ name h, ps.find? name = some h → ps.Known h)
    (e : InflexionEntry) {i : Inflexion} (h : Inflexion.ofEntry ps.find? paradigm e = .ok i) :
    i.Resolves ps := by
  have hentry := isOfEntry h
  obtain ⟨origin, hsubsequent⟩ := hentry.subsequent
  refine .mk ⟨hentry.shaped, fun handle hmem => ?_⟩ fun c hc => ?_
  · -- The handles are those that the names are found under.
    obtain ⟨name, hname⟩ := exists_find?_of_resolveParadigms hsubsequent handle hmem
    exact hnames name handle hname
  · -- A lemma changer is made of an entry inside this one.
    obtain ⟨e', he', hc'⟩ := hentry.changer c hc
    exact Resolves.ofEntry hnames e' hc'
termination_by e
decreasing_by
  cases e with
  | mk _ _ _ _ _ lemmaChanger =>
    obtain rfl : lemmaChanger = some e' := he'
    simp
    omega

/-- What a join leads to, the joined inflexion leads to. -/
theorem Resolves.join {ps : Paradigms} (hi : i.Resolves ps) (hchild : child.Resolves ps)
    (hone : i.continuations = 1) (hend : child.continues = false)
    (h : i.join? child = some joined) : joined.Resolves ps := by
  refine .mk ⟨hi.own.1.join hone hend h, ?_⟩ ?_
  · -- A join goes on where the child does.
    unfold join? at h
    split at h
    · obtain rfl := Option.some.inj h
      exact hchild.own.2
    · exact absurd h (by simp)
  · unfold join? at h
    split at h
    · obtain rfl := Option.some.inj h
      -- It has the lemma changer of the child, or else its own.
      intro c hc
      cases hchanger : child.lemmaChanger with
      | some c' =>
        obtain rfl : c' = c := by simpa [hchanger] using hc
        exact hchild.changer hchanger
      | none => exact hi.changer (by simpa [hchanger] using hc)
    · exact absurd h (by simp)

theorem isInvariant_resolves : Paradigms.IsInvariant fun ps i => i.Resolves ps where
  grow := fun _ _ _ hgrow hi => hi.mono fun _ hj => ⟨hj.1, fun h hh => hgrow h (hj.2 h hh)⟩
  ofEntry := fun _ _ e _ hnames h => .ofEntry hnames e h
  link := fun _ _ hne hknown => .mk ⟨.link rfl hne, hknown⟩ fun _ hc => nomatch hc
  join := fun _ _ _ _ hi hchild hone hend h => hi.join hchild hone hend h

end Inflexion

/-! ## Sub-lexemes -/

/-- A sub-lexeme has a place in its lexeme: it knows the lexeme and slots of it, a boundary says
where inflexions stand, and there is a paradigm of them. -/
structure SubLexeme.Placed (ps : Paradigms) (own : Handle) (lexeme : Lexeme) (sub : SubLexeme) :
    Prop where
  lexeme_eq : sub.lexeme = own
  boundary_mem : boundary ∈ sub.pattern
  paradigm_known : ps.Known sub.paradigm
  stemNums_ne_nil : sub.stemNums ≠ []
  stemNums_lt : ∀ n ∈ sub.stemNums, n < lexeme.numStems

theorem boundary_mem_stemPattern (stem : String) : boundary ∈ stemPattern stem := by
  unfold stemPattern
  dsimp only
  split
  · rename_i hmem
    simpa using hmem
  · exact List.mem_append_right _ (List.mem_singleton_self _)

namespace Slots

/-- The slots of a stem are some of those there are. -/
theorem stemNums_of_mem_merge {slots : Slots} {stem : String} {stemNums : List Nat}
    (h : (stem, stemNums) ∈ Slots.merge slots) :
    stemNums ≠ [] ∧ ∀ n ∈ stemNums, n < slots.length := by
  -- A slot of the stem is one that the stem stands in.
  obtain ⟨-, hslots⟩ := mem_stemNums_iff h
  have hmem : stem ∈ slots.flatten := by
    rw [← List.mem_eraseDups, ← map_fst_merge]
    exact List.mem_map_of_mem h
  obtain ⟨stems, hstems, hstem⟩ := List.mem_flatten.1 hmem
  obtain ⟨n, hn⟩ := List.getElem?_of_mem hstems
  refine ⟨List.ne_nil_of_mem ((hslots n).2 ⟨stems, hn, hstem⟩), fun k hk => ?_⟩
  obtain ⟨_, hk, -⟩ := (hslots k).1 hk
  exact (List.getElem?_eq_some_iff.1 hk).1

end Slots

/-- All sub-lexemes of all lexemes have their places. -/
def Lexicon.Placed (ps : Paradigms) (lexemes : Arena Lexeme) : Prop :=
  ∀ h lexeme, lexemes.get? h = some lexeme → ∀ sub ∈ lexeme.subs, sub.Placed ps h lexeme

/-- The sub-lexemes of an entry are placed in the lexeme that it becomes. -/
theorem Lexeme.placed_of_ofEntry {conversions : Table String StemConversion} {ps : Paradigms}
    (hnames : ∀ name h, ps.find? name = some h → ps.Known h) {e : LexemeEntry}
    {make : Handle → Lexeme} (h : (Lexeme.ofEntry conversions ps e).1 = some make) (own : Handle) :
    ∀ sub ∈ (make own).subs, sub.Placed ps own (make own) := by
  unfold Lexeme.ofEntry at h
  split at h
  · exact absurd h (by simp)
  · dsimp only at h
    split at h
    · exact absurd h (by simp)
    · obtain rfl := Option.some.inj h
      -- A sub-lexeme is made of a merged stem and of a paradigm whose name is found.
      intro sub hsub
      obtain ⟨⟨stem, stemNums⟩, hmerge, hsub⟩ := List.mem_flatMap.1 hsub
      obtain ⟨paradigm, hparadigm, rfl⟩ := List.mem_map.1 hsub
      obtain ⟨name, -, hname⟩ := exists_of_mem_collect hparadigm
      obtain ⟨hne, hlt⟩ := Slots.stemNums_of_mem_merge hmerge
      refine ⟨rfl, boundary_mem_stemPattern stem, hnames name paradigm ?_, hne, hlt⟩
      cases hfind : ps.find? name with
      | none => simp [hfind] at hname
      | some handle => simpa [hfind] using hname

theorem GrammarDraft.placed_addLexemes {conversions : Table String StemConversion} {ps : Paradigms}
    (hnames : ∀ name h, ps.find? name = some h → ps.Known h) {lexemes : Arena Lexeme}
    (hlexemes : Lexicon.Placed ps lexemes) (entries : List LexemeEntry) :
    Lexicon.Placed ps (addLexemes conversions ps lexemes entries).1 := by
  induction entries generalizing lexemes with
  | nil => exact hlexemes
  | cons e rest ih =>
    simp only [addLexemes]
    apply ih
    cases hmake : (Lexeme.ofEntry conversions ps e).1 with
    | none => exact hlexemes
    | some make =>
      intro h lexeme hget
      have hget' : (lexemes.allocWith make).2.get? h = some lexeme := hget
      rw [Arena.get?_alloc] at hget'
      -- A handle belongs to the new lexeme or to one before it.
      split at hget'
      · rename_i hh
        obtain rfl := Option.some.inj hget'
        rw [hh]
        exact Lexeme.placed_of_ofEntry hnames hmake _
      · exact hlexemes h lexeme hget'

/-! ## Closed grammars -/

/-- Every handle in a grammar leads to a paradigm, every inflexion and every lemma changer has the
right shape, and every sub-lexeme has a place in its lexeme. -/
structure Grammar.Closed (g : Grammar) : Prop where
  names : ∀ name h, g.paradigms.find? name = some h → g.paradigms.Known h
  inflexions : ∀ id i, g.inflexion? id = some i → i.Resolves g.paradigms
  lexemes : Lexicon.Placed g.paradigms g.lexemes

/-- Compiled grammars are closed. -/
theorem GrammarDraft.closed_compile (d : GrammarDraft) : d.compile.grammar.Closed := by
  have hkeeps := d.keeps_compile Inflexion.isInvariant_resolves
  refine ⟨hkeeps.names, fun id i hi => ?_, ?_⟩
  · obtain ⟨p, hp, hget⟩ := Option.bind_eq_some_iff.1 hi
    exact hkeeps.inflexions _ p hp i (List.mem_of_getElem? hget)
  · have hlexemes : d.compile.grammar.lexemes = (addLexemes d.compile.grammar.stemConversions
        d.compile.grammar.paradigms (.empty 1) d.entries.lexemes).1 := rfl
    have hempty : Lexicon.Placed d.compile.grammar.paradigms (.empty 1) := by
      intro h lexeme hget
      simp [Arena.get?, Arena.empty] at hget
    rw [hlexemes]
    exact placed_addLexemes hkeeps.names hempty d.entries.lexemes

end Morphology
