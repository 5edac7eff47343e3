import Mathlib.Data.List.Chain
import Morphology.Analysis.Matcher

/-!
# Chains of inflexions

Which inflexions may stand one behind another in a word is a matter of the grammar and of the
limits, not of the search.

## Main definitions

* `Grammar.LeadsTo` — the inflexions that a paradigm leads to, directly or through links
* `Grammar.MayFollow` — the inflexions that may follow a chain
* `Grammar.LegalChain` — the chains in which every inflexion may follow those before it
* `Grammar.Licensed` — what the limits mean for a chain as a whole
* `Grammar.Concludes` — the chains that may end a word, with what they merge into
* `Grammar.Builds` — the wordforms of such chains

## Main statements

* `Grammar.LegalChain.licensed` — a legal chain keeps to all limits
* `Grammar.LegalChain.concludes` — a legal chain with a closed end may end a word
* `Matcher.mayFollow_of_mem`, `Matcher.mem_mayFollow` — the inflexions that the search tries are
  those that may follow, as far as they are candidates
-/

namespace Morphology

namespace Grammar

/-! ## Links -/

/-- An inflexion that a paradigm leads to: one of its own, or one behind at most `links` links.
Every paradigm on the way satisfies `ok`. -/
inductive LeadsTo (g : Grammar) (ok : Paradigm → Prop) : Nat → Handle → InflexionId → Prop
  | own {links n : Nat} {h : Handle} {p : Paradigm} {i : Inflexion} (hp : g.paradigm? h = some p)
      (hok : ok p) (hi : p.inflexions[n]? = some i) (hlink : i.isLink = false) :
      LeadsTo g ok links h ⟨h, n⟩
  | link {links n : Nat} {h next : Handle} {p : Paradigm} {i : Inflexion} {id : InflexionId}
      (hp : g.paradigm? h = some p) (hok : ok p) (hi : p.inflexions[n]? = some i)
      (hlink : i.isLink = true) (hnext : next ∈ i.subsequent) (hid : LeadsTo g ok links next id) :
      LeadsTo g ok (links + 1) h id

/-- A paradigm leads to an inflexion through any number of links. -/
def Reaches (g : Grammar) (h : Handle) (id : InflexionId) : Prop :=
  ∃ links, g.LeadsTo (fun _ => True) links h id

variable {g : Grammar} {ok : Paradigm → Prop} {links : Nat} {h : Handle} {id : InflexionId}

theorem inflexion?_of_paradigm? {p : Paradigm} {n : Nat} {i : Inflexion}
    (hp : g.paradigm? h = some p) (hi : p.inflexions[n]? = some i) :
    g.inflexion? ⟨h, n⟩ = some i := by
  simp only [paradigm?] at hp
  simp [inflexion?, Paradigms.inflexion?, hp, hi]

theorem paradigm?_of_inflexion? {i : Inflexion} (hi : g.inflexion? id = some i) :
    ∃ p, g.paradigm? id.paradigm = some p ∧ p.inflexions[id.index]? = some i := by
  simpa only [inflexion?, Paradigms.inflexion?, paradigm?, Option.bind_eq_some_iff] using hi

namespace LeadsTo

theorem reaches (hid : g.LeadsTo ok links h id) : g.Reaches h id := by
  refine ⟨links, ?_⟩
  induction hid with
  | own hp _ hi hlink => exact .own hp trivial hi hlink
  | link hp _ hi hlink hnext _ ih => exact .link hp trivial hi hlink hnext ih

/-- What is led to is no link, and its paradigm satisfies what all paradigms on the way do. -/
theorem target (hid : g.LeadsTo ok links h id) :
    ∃ p i, g.paradigm? id.paradigm = some p ∧ ok p ∧ g.inflexion? id = some i ∧
      i.isLink = false := by
  induction hid with
  | own hp hok hi hlink => exact ⟨_, _, hp, hok, inflexion?_of_paradigm? hp hi, hlink⟩
  | link _ _ _ _ _ _ ih => exact ih

end LeadsTo

/-! ## Limits -/

/-- Whether a handle is that of a derivational paradigm. -/
def isDerivational (g : Grammar) (h : Handle) : Bool :=
  (g.paradigm? h).any (·.isDerivational)

/-- The derivational paradigms that the inflexions of a chain live in. -/
def derivationsOf (g : Grammar) (chain : List InflexionId) : List Handle :=
  (chain.map (·.paradigm)).filter g.isDerivational

/-- A paradigm may be used behind a chain: there are not too many derivations yet, none of them
restricts a further one of this kind, and there are not too many of this kind. -/
def Admits (g : Grammar) (chain : List InflexionId) (p : Paradigm) : Prop :=
  p.isDerivational = true →
    (g.derivationsOf chain).length < g.config.maxDerivations ∧
      ∀ info, p.derivation = some info →
        (∀ q ∈ (g.derivationsOf chain).filterMap g.paradigm?,
          q.restricts info.derivation = false) ∧
        ((g.derivationsOf chain).filterMap g.paradigm?).countP
          (fun q => q.derivation.any (·.derivation == info.derivation)) < g.config.recursLimit

/-- The number of inflexions in a chain that have no characters and continue. -/
def emptyDepth (g : Grammar) (chain : List InflexionId) : Nat :=
  (chain.filterMap g.inflexion?).countP fun i => i.literalLength == 0 && i.continues

/-- An inflexion may be looked for in a paradigm behind a chain.  Links that are followed count
like inflexions without characters. -/
structure MayFollow (g : Grammar) (limits : SearchLimits) (chain : List InflexionId) (h : Handle)
    (id : InflexionId) : Prop where
  repeats : chain.count id < g.config.recursLimit
  reached : ∃ links, g.emptyDepth chain + links ≤ limits.maxEmptyInflexions ∧
    g.LeadsTo (g.Admits chain) links h id

/-- An inflexion of the paradigm itself may follow if the paradigm is no derivation. -/
theorem MayFollow.own {limits : SearchLimits} {chain : List InflexionId} {n : Nat} {p : Paradigm}
    {i : Inflexion} (hp : g.paradigm? h = some p) (hplain : p.isDerivational = false)
    (hi : p.inflexions[n]? = some i) (hlink : i.isLink = false)
    (hrepeats : chain.count ⟨h, n⟩ < g.config.recursLimit)
    (hempties : g.emptyDepth chain ≤ limits.maxEmptyInflexions) :
    g.MayFollow limits chain h ⟨h, n⟩ where
  repeats := hrepeats
  reached := by
    refine ⟨0, hempties, .own hp (fun hder => ?_) hi hlink⟩
    exact absurd (hplain.symm.trans hder) Bool.false_ne_true

/-! ## Legal chains -/

/-- A paradigm is open behind a chain: the first is that of the stem, and the others are those
that the last inflexion continues in. -/
def IsOpen (g : Grammar) (start : Handle) (chain : List InflexionId) (h : Handle) : Prop :=
  match chain.getLast? with
  | none => h = start
  | some last => ∃ i, g.inflexion? last = some i ∧ i.continues = true ∧ h ∈ i.subsequent

/-- Every inflexion of the chain may follow those before it. -/
def LegalChain (g : Grammar) (limits : SearchLimits) (start : Handle) (chain : List InflexionId) :
    Prop :=
  ∀ before id after, chain = before ++ id :: after →
    ∃ h, g.IsOpen start before h ∧ g.MayFollow limits before h id

variable {limits : SearchLimits} {start : Handle} {chain : List InflexionId}

namespace LegalChain

theorem nil : g.LegalChain limits start [] := by
  intro before id after h
  simp at h

/-- A legal chain is legal with a further inflexion if that may follow it. -/
theorem concat (hchain : g.LegalChain limits start chain) (hopen : g.IsOpen start chain h)
    (hid : g.MayFollow limits chain h id) : g.LegalChain limits start (chain ++ [id]) := by
  intro before x after heq
  rcases List.append_eq_append_iff.1 heq with ⟨as, rfl, has⟩ | ⟨bs, rfl, hbs⟩
  · cases as with
    | nil =>
      obtain ⟨rfl, rfl⟩ : id = x ∧ [] = after := by simpa using has
      exact ⟨h, by simpa using hopen, by simpa using hid⟩
    | cons a as => simp at has
  · cases bs with
    | nil =>
      obtain ⟨rfl, rfl⟩ : id = x ∧ [] = after := by simpa using hbs.symm
      exact ⟨h, by simpa using hopen, by simpa using hid⟩
    | cons b bs =>
      obtain ⟨rfl, rfl⟩ : x = b ∧ after = bs ++ [id] := by simpa using hbs
      exact hchain before x bs rfl

theorem of_append {after : List InflexionId} (hchain : g.LegalChain limits start (chain ++ after)) :
    g.LegalChain limits start chain := by
  rintro before id rest rfl
  exact hchain before id (rest ++ after) (by simp)

theorem last (hchain : g.LegalChain limits start (chain ++ [id])) :
    ∃ h, g.IsOpen start chain h ∧ g.MayFollow limits chain h id :=
  hchain chain id [] rfl

end LegalChain

/-! ## What the limits mean for a chain -/

/-- A chain keeps to all limits. -/
structure Licensed (g : Grammar) (limits : SearchLimits) (start : Handle)
    (chain : List InflexionId) : Prop where
  ne_nil : chain ≠ []
  /-- The first inflexion is one that the paradigm of the stem leads to. -/
  first : ∀ id ∈ chain.head?, g.Reaches start id
  /-- Each further inflexion is one that a continuation of the inflexion before leads to. -/
  next : chain.IsChain fun last id =>
    ∃ i, g.inflexion? last = some i ∧ ∃ h ∈ i.subsequent, g.Reaches h id
  /-- No inflexion is a link. -/
  proper : ∀ id ∈ chain, ∃ i, g.inflexion? id = some i ∧ i.isLink = false
  /-- All but the last have a continuation. -/
  continued : ∀ id ∈ chain.dropLast, ∃ i, g.inflexion? id = some i ∧ i.continues = true
  repeats : ∀ id, chain.count id ≤ g.config.recursLimit
  derivations : chain.countP (fun id => g.isDerivational id.paradigm) ≤ g.config.maxDerivations
  /-- No paradigm restricts the derivation of a later one. -/
  unrestricted : chain.Pairwise fun earlier later => ∀ p q info,
    g.paradigm? earlier.paradigm = some p → g.paradigm? later.paradigm = some q →
      q.derivation = some info → p.restricts info.derivation = false
  empties : g.emptyDepth chain.dropLast ≤ limits.maxEmptyInflexions

theorem length_derivationsOf (g : Grammar) (chain : List InflexionId) :
    (g.derivationsOf chain).length = chain.countP fun id => g.isDerivational id.paradigm := by
  rw [derivationsOf, ← List.countP_eq_length_filter, List.countP_map]
  rfl

private theorem isDerivational_of_restricts {p : Paradigm} {derivation : String}
    (h : p.restricts derivation = true) : p.isDerivational = true := by
  obtain ⟨info, hinfo, -⟩ := Option.any_eq_true _ _ |>.1 h
  simp [Paradigm.isDerivational, hinfo]

/-- An admitted paradigm is not restricted by those of the chain. -/
private theorem Admits.restricts_eq_false {p q : Paradigm} {info : DerivationInfo}
    (hq : g.Admits chain q) (hid : id ∈ chain) (hp : g.paradigm? id.paradigm = some p)
    (hinfo : q.derivation = some info) : p.restricts info.derivation = false := by
  -- A paradigm that restricts is derivational, so it was looked at when `q` was admitted.
  by_contra hres
  rw [Bool.not_eq_false] at hres
  have hder : q.isDerivational = true := by simp [Paradigm.isDerivational, hinfo]
  have hmem : id.paradigm ∈ g.derivationsOf chain := by
    refine List.mem_filter.2 ⟨List.mem_map_of_mem hid, ?_⟩
    simp [isDerivational, hp, isDerivational_of_restricts hres]
  have := ((hq hder).2 info hinfo).1 p (List.mem_filterMap.2 ⟨_, hmem, hp⟩)
  exact Bool.false_ne_true (this.symm.trans hres)

namespace MayFollow

theorem count_concat_le (hid : g.MayFollow limits chain h id) {x : InflexionId}
    (hx : chain.count x ≤ g.config.recursLimit) :
    (chain ++ [id]).count x ≤ g.config.recursLimit := by
  have := hid.repeats
  rw [List.count_append, List.count_singleton]
  split
  · rename_i heq
    obtain rfl : id = x := by simpa using heq
    omega
  · omega

theorem derivations_concat_le (hid : g.MayFollow limits chain h id)
    (hchain : chain.countP (fun id => g.isDerivational id.paradigm) ≤ g.config.maxDerivations) :
    (chain ++ [id]).countP (fun id => g.isDerivational id.paradigm) ≤ g.config.maxDerivations := by
  obtain ⟨links, -, hleads⟩ := hid.reached
  obtain ⟨p, i, hp, hadm, -, -⟩ := hleads.target
  rw [List.countP_append, List.countP_singleton]
  split
  · rename_i hder
    -- A derivation was admitted, so the chain has fewer of them than allowed.
    have hfewer := (hadm (by simpa [isDerivational, hp] using hder)).1
    rw [length_derivationsOf] at hfewer
    omega
  · omega

/-- An inflexion that may follow the stem alone is a licensed chain. -/
theorem licensed_singleton (hid : g.MayFollow limits [] start id) :
    g.Licensed limits start [id] := by
  obtain ⟨links, -, hleads⟩ := hid.reached
  obtain ⟨p, i, -, -, hi, hlink⟩ := hleads.target
  exact {
    ne_nil := List.cons_ne_nil _ _
    first := by
      intro x hx
      obtain rfl : id = x := by simpa using hx
      exact hleads.reaches
    next := by simp
    proper := by simpa using ⟨i, hi, hlink⟩
    continued := by simp
    -- The other conditions speak of two inflexions at least.
    repeats := fun x => hid.count_concat_le (by simp)
    derivations := hid.derivations_concat_le (by simp)
    unrestricted := by simp
    empties := by simp [emptyDepth] }

end MayFollow

/-- A licensed chain is licensed with a further inflexion if that may follow it. -/
theorem Licensed.concat (hchain : g.Licensed limits start chain) (hopen : g.IsOpen start chain h)
    (hid : g.MayFollow limits chain h id) : g.Licensed limits start (chain ++ [id]) := by
  obtain ⟨links, hlinks, hleads⟩ := hid.reached
  obtain ⟨p, i, hp, hadm, hi, hlink⟩ := hleads.target
  -- The last inflexion so far continues in the paradigm that leads to the new one.
  obtain ⟨last, hlast⟩ : ∃ last, chain.getLast? = some last :=
    ⟨_, List.getLast?_eq_some_getLast hchain.ne_nil⟩
  obtain ⟨j, hj, hcont, hh⟩ : ∃ j, g.inflexion? last = some j ∧ j.continues = true ∧
      h ∈ j.subsequent := by
    simpa [IsOpen, hlast] using hopen
  exact {
    ne_nil := by simp
    first := by
      intro x hx
      rw [List.head?_append_of_ne_nil _ hchain.ne_nil] at hx
      exact hchain.first x hx
    next := by
      rw [List.isChain_append]
      refine ⟨hchain.next, by simp, ?_⟩
      intro x hx y hy
      obtain rfl : last = x := by simpa [hlast] using hx
      obtain rfl : id = y := by simpa using hy
      exact ⟨j, hj, h, hh, hleads.reaches⟩
    proper := by
      intro x hx
      rcases List.mem_append.1 hx with hx | hx
      · exact hchain.proper x hx
      · obtain rfl := List.mem_singleton.1 hx
        exact ⟨i, hi, hlink⟩
    continued := by
      intro x hx
      rw [List.dropLast_concat] at hx
      obtain ⟨init, rfl⟩ := List.getLast?_eq_some_iff.1 hlast
      rcases List.mem_append.1 hx with hx | hx
      · exact hchain.continued x (by simpa using hx)
      · obtain rfl := List.mem_singleton.1 hx
        exact ⟨j, hj, hcont⟩
    repeats := fun x => hid.count_concat_le (hchain.repeats x)
    derivations := hid.derivations_concat_le hchain.derivations
    unrestricted := by
      rw [List.pairwise_append]
      refine ⟨hchain.unrestricted, by simp, ?_⟩
      intro x hx y hy q₁ q₂ info hq₁ hq₂ hinfo
      obtain rfl := List.mem_singleton.1 hy
      obtain rfl : p = q₂ := Option.some.inj (hp.symm.trans hq₂)
      exact hadm.restricts_eq_false hx hq₁ hinfo
    -- The empty inflexions before the new one were counted when it was looked for.
    empties := by
      rw [List.dropLast_concat]
      omega }

/-- The conditions on the chain as a whole follow inflexion by inflexion, from the front. -/
theorem LegalChain.licensed (hchain : g.LegalChain limits start chain) (hne : chain ≠ []) :
    g.Licensed limits start chain := by
  induction chain using List.reverseRecOn with
  | nil => exact absurd rfl hne
  | append_singleton chain id ih =>
    obtain ⟨h, hopen, hid⟩ := hchain.last
    by_cases hnil : chain = []
    · subst hnil
      obtain rfl : h = start := hopen
      exact hid.licensed_singleton
    · exact (ih hchain.of_append hnil).concat hopen hid

/-! ## Concluded chains -/

theorem LeadsTo.isLink_eq_false {i : Inflexion} (hid : g.LeadsTo ok links h id)
    (hi : g.inflexion? id = some i) : i.isLink = false := by
  obtain ⟨_, i', -, -, hi', hlink⟩ := hid.target
  obtain rfl : i = i' := Option.some.inj (hi.symm.trans hi')
  exact hlink

/-- Behind a chain, an open paradigm is concluded by a further chain: every inflexion of it is one
that the paradigm open there leads to and continues in the next one, and the last does not
continue.  The limits on repeats and on inflexions without characters do not count.  The chain
merges into the inflexion given last. -/
inductive Concludes (g : Grammar) : List InflexionId → Handle → List InflexionId → Inflexion → Prop
  | last {before : List InflexionId} {h : Handle} {links : Nat} {id : InflexionId} {i : Inflexion}
      (hid : g.LeadsTo (g.Admits before) links h id) (hi : g.inflexion? id = some i)
      (hend : i.continues = false) : Concludes g before h [id] i
  | next {before : List InflexionId} {h next : Handle} {links : Nat} {id : InflexionId}
      {rest : List InflexionId} {i child joined : Inflexion}
      (hid : g.LeadsTo (g.Admits before) links h id) (hi : g.inflexion? id = some i)
      (hnext : next ∈ i.subsequent) (hrest : Concludes g (before ++ [id]) next rest child)
      (hjoin : i.join? child = some joined) : Concludes g before h (id :: rest) joined

/-- A wordform is built from a stem and a chain that concludes its paradigm. -/
def Builds (g : Grammar) (w : Wordform) : Prop :=
  ∃ id sub chain i, g.subLexeme? id = some sub ∧ g.Concludes [] sub.paradigm chain i ∧
    g.buildWordform? id i = some w

/-- The inflexion that a concluded chain ends in does not continue. -/
def EndsClosed (g : Grammar) (chain : List InflexionId) : Prop :=
  ∀ last ∈ chain.getLast?, ∀ i, g.inflexion? last = some i → i.continues = false

namespace Concludes

variable {before : List InflexionId} {i : Inflexion}

theorem ne_nil (hc : g.Concludes before h chain i) : chain ≠ [] := by
  cases hc <;> exact List.cons_ne_nil _ _

theorem mergeChain?_eq (hc : g.Concludes before h chain i) :
    g.mergeChain? (chain.map (⟨·, []⟩)) = some i := by
  induction hc with
  | last _ hi _ => simpa [mergeChain?, filled?] using hi
  | @next _ _ _ _ id rest _ _ _ _ hi _ hrest hjoin ih =>
    obtain ⟨id', rest', rfl⟩ := List.exists_cons_of_ne_nil hrest.ne_nil
    simp only [List.map_cons] at ih ⊢
    simp [mergeChain?, ih, filled?, hi, hjoin]

theorem endsClosed (hc : g.Concludes before h chain i) : g.EndsClosed chain := by
  induction hc with
  | @last _ _ _ id i _ hi hend =>
    intro last hlast i' hi'
    obtain rfl : id = last := by simpa using hlast
    obtain rfl : i = i' := Option.some.inj (hi.symm.trans hi')
    exact hend
  | next _ _ _ hrest _ ih =>
    rw [EndsClosed, List.getLast?_cons_of_ne_nil hrest.ne_nil]
    exact ih

end Concludes

/-- The rest of a legal chain concludes a paradigm that is open behind what comes before. -/
private theorem exists_concludes {before rest : List InflexionId} {i : Inflexion}
    (hlegal : g.LegalChain limits start (before ++ rest)) (hlast : g.EndsClosed rest)
    (hi : g.mergeChain? (rest.map (⟨·, []⟩)) = some i) :
    ∃ h, g.IsOpen start before h ∧ g.Concludes before h rest i := by
  induction rest generalizing before i with
  | nil => exact absurd hi (by simp [mergeChain?])
  | cons id rest ih =>
    obtain ⟨h, hopen, hid⟩ := hlegal before id rest rfl
    obtain ⟨links, -, hleads⟩ := hid.reached
    refine ⟨h, hopen, ?_⟩
    cases rest with
    | nil =>
      have hi : g.inflexion? id = some i := by simpa [mergeChain?, filled?] using hi
      exact .last hleads hi (hlast id rfl i hi)
    | cons next rest =>
      simp only [List.map_cons, mergeChain?, Option.bind_eq_bind, Option.bind_eq_some_iff] at hi
      obtain ⟨child, hchild, j, hj, hjoin⟩ := hi
      have hj : g.inflexion? id = some j := by simpa [filled?] using hj
      have hrest : g.EndsClosed (next :: rest) := by
        rw [EndsClosed, List.getLast?_cons_of_ne_nil (List.cons_ne_nil _ _)] at hlast
        exact hlast
      have hsplit : g.LegalChain limits start ((before ++ [id]) ++ next :: rest) := by
        simpa using hlegal
      obtain ⟨h', hopen', hc⟩ := ih hsplit hrest hchild
      -- The paradigm that is open now is one that this inflexion continues in.
      rw [IsOpen, List.getLast?_concat] at hopen'
      obtain ⟨j', hj', -, hnext⟩ := hopen'
      obtain rfl : j = j' := Option.some.inj (hj.symm.trans hj')
      exact .next hleads hj hnext hc hjoin

/-- A legal chain concludes the paradigm of its stem if its last inflexion does not continue. -/
theorem LegalChain.concludes {i : Inflexion} (hlegal : g.LegalChain limits start chain)
    (hlast : g.EndsClosed chain) (hi : g.mergeChain? (chain.map (⟨·, []⟩)) = some i) :
    g.Concludes [] start chain i := by
  have hsplit : g.LegalChain limits start ([] ++ chain) := hlegal
  obtain ⟨h, hopen, hc⟩ := exists_concludes hsplit hlast hi
  obtain rfl : h = start := hopen
  exact hc

end Grammar

/-! ## What the search tries -/

/-- The inflexions of the levels. -/
def SearchState.chain (st : SearchState) : List InflexionId :=
  st.levels.map (·.link.inflexion)

namespace Matcher

variable {m : Matcher} {st : SearchState} {slot : Bool} {depth : Nat} {h : Handle}
  {id : InflexionId}

theorem uses_eq_count (st : SearchState) (id : InflexionId) : st.uses id = st.chain.count id := by
  rw [SearchState.uses, SearchState.chain, List.count, List.countP_map]
  rfl

theorem emptyDepth_eq (m : Matcher) (st : SearchState) :
    m.emptyDepth st = m.grammar.emptyDepth st.chain := by
  rw [emptyDepth, Grammar.emptyDepth, SearchState.chain, List.filterMap_map]
  rfl

theorem admitsParadigm_iff {chain : List InflexionId} {p : Paradigm} :
    m.admitsParadigm (m.grammar.derivationsOf chain) p = true ↔ m.grammar.Admits chain p := by
  simp only [admitsParadigm, Grammar.Admits, Bool.or_eq_true, Bool.not_eq_true', Bool.and_eq_true,
    decide_eq_true_eq, Option.all_eq_true, List.any_eq_false, Bool.not_eq_true]
  constructor
  · rintro (hp | hadm) hder
    · exact absurd (hp.symm.trans hder) Bool.false_ne_true
    · exact hadm
  · intro hadm
    cases hder : p.isDerivational with
    | false => exact .inl rfl
    | true => exact .inr (hadm hder)

/-- Candidates are inflexions of the paradigm that they are asked of. -/
def CandidatesOwned (m : Matcher) : Prop :=
  ∀ h word pos slot, ∀ id ∈ m.candidates h word pos slot, id.paradigm = h

private theorem leadsTo_of_mem_reachable (hown : m.CandidatesOwned)
    (hder : st.derivations = m.grammar.derivationsOf st.chain)
    (hid : id ∈ m.reachable st slot depth h) :
    st.chain.count id < m.grammar.config.recursLimit ∧
      ∃ links, links < depth ∧ m.grammar.LeadsTo (m.grammar.Admits st.chain) links h id := by
  induction depth generalizing h with
  | zero => simp [reachable] at hid
  | succ depth ih =>
    rw [reachable] at hid
    cases hp : m.grammar.paradigm? h with
    | none => simp [hp] at hid
    | some p =>
      simp only [hp, hder] at hid
      split at hid
      · rename_i hadm
        rw [admitsParadigm_iff] at hadm
        -- A candidate that is not used up is followed if it is a link, and kept otherwise.
        obtain ⟨j, hj, hmem⟩ := List.mem_flatMap.1 hid
        obtain rfl := hown _ _ _ _ j hj
        clear hid
        cases hi : m.grammar.inflexion? j with
        | none => simp [hi] at hmem
        | some i =>
          obtain ⟨p', hp', hget⟩ := Grammar.paradigm?_of_inflexion? hi
          obtain rfl : p = p' := Option.some.inj (hp.symm.trans hp')
          simp only [hi, uses_eq_count] at hmem
          split at hmem
          · exact absurd hmem List.not_mem_nil
          · split at hmem
            · rename_i hlink
              obtain ⟨next, hnext, hmem⟩ := List.mem_flatMap.1 hmem
              obtain ⟨huses, links, hlinks, hleads⟩ := ih hmem
              exact ⟨huses, links + 1, by omega, .link hp hadm hget hlink hnext hleads⟩
            · rename_i huses hlink
              obtain rfl := List.mem_singleton.1 hmem
              exact ⟨by omega, 0, by omega, .own hp hadm hget (by simpa using hlink)⟩
      · exact absurd hid List.not_mem_nil

/-- Only inflexions that may follow the levels are tried. -/
theorem mayFollow_of_mem (hown : m.CandidatesOwned)
    (hder : st.derivations = m.grammar.derivationsOf st.chain) (hid : id ∈ m.mayFollow st slot h) :
    m.grammar.MayFollow m.limits st.chain h id := by
  obtain ⟨huses, links, hlinks, hleads⟩ := leadsTo_of_mem_reachable hown hder hid
  rw [emptyDepth_eq] at hlinks
  exact ⟨huses, links, by omega, hleads⟩

private theorem mem_reachable_of_leadsTo {links : Nat}
    (hder : st.derivations = m.grammar.derivationsOf st.chain)
    (hproper : ∀ j ∈ st.chain, ∃ i, m.grammar.inflexion? j = some i ∧ i.isLink = false)
    (hleads : m.grammar.LeadsTo (m.grammar.Admits st.chain) links h id)
    (huses : st.chain.count id < m.grammar.config.recursLimit) (hdepth : links < depth)
    (hcand : ∀ j i, m.grammar.inflexion? j = some i → i.isLink = true ∨ j = id →
      j ∈ m.candidates j.paradigm st.placement.word st.pos slot) :
    id ∈ m.reachable st slot depth h := by
  induction hleads generalizing depth with
  | @own links n h p i hp hok hi hlink =>
    obtain ⟨depth, rfl⟩ : ∃ d, depth = d + 1 := ⟨depth - 1, by omega⟩
    have hinf := Grammar.inflexion?_of_paradigm? hp hi
    rw [reachable, hp]
    simp only [hder, admitsParadigm_iff.2 hok, if_true]
    refine List.mem_flatMap.2 ⟨⟨h, n⟩, hcand _ i hinf (.inr rfl), ?_⟩
    simp only [hinf, uses_eq_count]
    rw [if_neg (by omega), if_neg (by simp [hlink])]
    exact List.mem_singleton_self _
  | @link links n h next p i id hp hok hi hlink hnext _ ih =>
    obtain ⟨depth, rfl⟩ : ∃ d, depth = d + 1 := ⟨depth - 1, by omega⟩
    have hinf := Grammar.inflexion?_of_paradigm? hp hi
    -- A link is never a level, so it is not used up.
    have hzero : st.chain.count ⟨h, n⟩ = 0 := by
      apply List.count_eq_zero.2
      intro hmem
      obtain ⟨i', hi', hlink'⟩ := hproper _ hmem
      obtain rfl : i = i' := Option.some.inj (hinf.symm.trans hi')
      exact Bool.false_ne_true (hlink'.symm.trans hlink)
    rw [reachable, hp]
    simp only [hder, admitsParadigm_iff.2 hok, if_true]
    refine List.mem_flatMap.2 ⟨⟨h, n⟩, hcand _ i hinf (.inl hlink), ?_⟩
    simp only [hinf, uses_eq_count, hzero]
    rw [if_neg (by omega), if_pos hlink]
    exact List.mem_flatMap.2 ⟨next, hnext, ih huses (by omega) hcand⟩

/-- An inflexion that may follow the levels is tried if it is a candidate, as are all links. -/
theorem mem_mayFollow (hder : st.derivations = m.grammar.derivationsOf st.chain)
    (hproper : ∀ j ∈ st.chain, ∃ i, m.grammar.inflexion? j = some i ∧ i.isLink = false)
    (hid : m.grammar.MayFollow m.limits st.chain h id)
    (hcand : ∀ j i, m.grammar.inflexion? j = some i → i.isLink = true ∨ j = id →
      j ∈ m.candidates j.paradigm st.placement.word st.pos slot) :
    id ∈ m.mayFollow st slot h := by
  obtain ⟨links, hlinks, hleads⟩ := hid.reached
  refine mem_reachable_of_leadsTo hder hproper hleads hid.repeats ?_ hcand
  rw [emptyDepth_eq]
  omega

end Matcher

end Morphology
