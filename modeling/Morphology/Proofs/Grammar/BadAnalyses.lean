import Morphology.Grammar.BadAnalysis
import Morphology.Proofs.Outcome

/-!
# What bad-analysis entries remove

An entry of a document removes the analyses that satisfy all of its patterns, a pair those that
satisfy the patterns of one half beside an analysis that satisfies those of the other.  An entry
with a pattern that cannot be read removes nothing.  An entry without patterns is satisfied by every
analysis; the halves of a pair count as patterns only together, so that a half by itself is such an
entry.

## Main definitions

* `BadTemplate.patterns`, `BadTemplate.Satisfies` — the patterns of an object, and what they ask
* `BadAnalyses.Condemns` — an entry is against an analysis
* `BadAnalyses.hasPatterns` — whether an entry has patterns, a pair in both halves
* `BadAnalyses.ActsWithinPatterns` — analyses are removed by the patterns of entries only

## Main statements

* `BadAnalyses.isBad_ofValue_iff` — an analysis is dropped if some entry condemns it
* `BadAnalyses.filter_acts_within_patterns` — what the entries of a document remove
* `BadAnalyses.not_actsWithinPatterns_misspeltPair` — half a pair removes every analysis
-/

namespace Morphology

open Json (Value)

/-- The members of an object. -/
abbrev Members := List (Option String × Value)

/-! ## Templates -/

namespace BadTemplate

/-- The patterns of an object: its members with text, under the names of fields. -/
def patterns (members : Members) : List (String × String) :=
  members.filterMap fun
    | (some name, .str (some pattern)) => some (name, pattern)
    | _ => none

variable (P : Type) [PatternEngine P]

/-- An analysis satisfies a pattern: the pattern can be read and matches a value of the field. -/
def Satisfies (w : Wordform) (pattern : String × String) : Prop :=
  ∃ p : P, PatternEngine.read? (anchored pattern.2) = some p ∧
    ∃ value ∈ ((Field.read pattern.1).value? w).elim (w.other (Field.read pattern.1).name) ([·]),
      PatternEngine.isMatch p value = true

variable {P} {members : Members} {t : BadTemplate P} {w : Wordform}

theorem conforms_cons (field : Field) (p : P) (fields : List (Field × P)) :
    (BadTemplate.mk ((field, p) :: fields)).conforms w = true ↔
      (∃ value ∈ (field.value? w).elim (w.other field.name) ([·]),
        PatternEngine.isMatch p value = true) ∧
        (BadTemplate.mk fields).conforms w = true := by
  simp only [conforms, List.all_cons, Bool.and_eq_true]
  refine and_congr_left fun _ => ?_
  cases field.value? w with
  | none => simp
  | some value => simp

/-- An object becomes a template that an analysis conforms to just if the analysis satisfies all its
`patterns`. -/
theorem exists_conforms_iff :
    (∃ t : BadTemplate P, ofMembers members = .ok t ∧ t.conforms w = true) ↔
      ∀ pattern ∈ patterns members, Satisfies P w pattern := by
  -- Members that are no patterns are passed over.
  fun_induction ofMembers (P := P) members with
  | case1 => simp [patterns, conforms]
  | case2 name pattern rest hread =>
    simp only [patterns, List.filterMap_cons, List.forall_mem_cons, Satisfies, hread]
    simp
  | case3 name pattern rest p hread ih =>
    have hrest : patterns ((some name, .str (some pattern)) :: rest) =
        (name, pattern) :: patterns rest := rfl
    rw [hrest, List.forall_mem_cons, ← ih]
    simp only [map_eq_ok_iff]
    constructor
    · -- The template begins with the pattern that was read, so it conforms if both do.
      rintro ⟨_, ⟨t, ht, rfl⟩, hconforms⟩
      obtain ⟨hvalue, hrest⟩ := (conforms_cons ..).1 hconforms
      exact ⟨⟨p, hread, hvalue⟩, t, ht, hrest⟩
    · rintro ⟨⟨p', hread', hvalue⟩, t, ht, hrest⟩
      obtain rfl : p = p' := Option.some.inj (hread.symm.trans hread')
      exact ⟨_, ⟨t, ht, rfl⟩, (conforms_cons ..).2 ⟨hvalue, hrest⟩⟩
  | case4 first rest hother ih =>
    -- The first member is no pattern, and `patterns` leaves it out too.
    have hrest : patterns (first :: rest) = patterns rest := by
      rw [patterns, List.filterMap_cons]
      split
      · rfl
      · rename_i heq
        split at heq
        · exact absurd rfl (hother _ _)
        · exact absurd heq (by simp)
    rw [hrest]
    exact ih

end BadTemplate

/-! ## Entries -/

namespace BadAnalyses

open BadTemplate (patterns Satisfies ofMembers exists_conforms_iff)

/-- The halves of an entry that is a pair: objects under both of its names. -/
def halves? (members : Members) : Option (Members × Members) :=
  match (Value.obj members).member? "remove", (Value.obj members).member? "if_exists" with
  | some (.obj remove), some (.obj condition) => some (remove, condition)
  | _, _ => none

section Condemns

variable (P : Type) [PatternEngine P]

/-- An entry of a document is against one of the analyses. -/
inductive Condemns (analyses : List Wordform) (i : Nat) (members : Members) : Prop
  | alone {w : Wordform} (hpair : halves? members = none) (hw : analyses[i]? = some w)
      (hall : ∀ pattern ∈ patterns members, Satisfies P w pattern)
  | beside {w other : Wordform} {j : Nat} {remove condition : Members}
      (hpair : halves? members = some (remove, condition)) (hw : analyses[i]? = some w)
      (hother : analyses[j]? = some other) (hne : j ≠ i)
      (hall : ∀ pattern ∈ patterns remove, Satisfies P w pattern)
      (hbeside : ∀ pattern ∈ patterns condition, Satisfies P other pattern)

end Condemns

/-- Whether an entry has patterns, in both halves if it is a pair. -/
def hasPatterns (members : Members) : Bool :=
  match halves? members with
  | some (remove, condition) => !(patterns remove).isEmpty && !(patterns condition).isEmpty
  | none => !(patterns members).isEmpty

/-- The entries of a document: the objects of an array. -/
def entries : Value → List Members
  | .arr items => items.filterMap fun
    | .obj members => some members
    | _ => none
  | _ => []

variable {P : Type} [PatternEngine P] {v : Value} {members : Members} {analyses : List Wordform}
  {i : Nat}

theorem isBad_empty : (empty : BadAnalyses P).isBad analyses i = false := by
  unfold isBad
  split <;> rfl

theorem isBad_append (a b : BadAnalyses P) :
    (a.append b).isBad analyses i = (a.isBad analyses i || b.isBad analyses i) := by
  unfold isBad append
  split
  · rfl
  · simp only [List.any_append]
    ac_rfl

/-- Only an analysis that is there is dropped. -/
theorem isBad_iff (b : BadAnalyses P) : b.isBad analyses i = true ↔ ∃ w, analyses[i]? = some w ∧
    ((∃ t ∈ b.unconditional, t.conforms w = true) ∨
      ∃ pair ∈ b.conditional, pair.1.conforms w = true ∧
        ∃ other j, analyses[j]? = some other ∧ j ≠ i ∧ pair.2.conforms other = true) := by
  unfold isBad
  cases analyses[i]? with
  | none => simp
  | some w =>
    simp only [Bool.or_eq_true, List.any_eq_true, Bool.and_eq_true, bne_iff_ne, ne_eq,
      Option.some.injEq, exists_eq_left', Prod.exists, List.mem_zipIdx_iff_getElem?]

/-- A pair, which is an entry with two `halves?`, becomes a pair of templates, and every other entry
becomes one template. -/
theorem ofEntry_eq (members : Members) : (ofEntry members : Except GrammarError (BadAnalyses P)) =
    match halves? members with
    | some (remove, condition) => do
      let remove ← ofMembers remove
      let condition ← ofMembers condition
      return ⟨[], [(remove, condition)]⟩
    | none => (ofMembers members).map fun t => ⟨[t], []⟩ := by
  unfold ofEntry halves?
  dsimp only
  generalize (Value.obj members).member? "remove" = remove
  generalize (Value.obj members).member? "if_exists" = condition
  -- Both names have to lead to objects; with any other value the entry is read as one object.
  cases remove with
  | none => rfl
  | some remove =>
    cases condition with
    | none => cases remove <;> rfl
    | some condition => cases remove <;> cases condition <;> rfl

/-- What an entry becomes drops just what it `Condemns`; an entry that becomes nothing condemns
nothing. -/
theorem exists_isBad_iff :
    (∃ b : BadAnalyses P, ofEntry members = .ok b ∧ b.isBad analyses i = true) ↔
      Condemns P analyses i members := by
  rw [ofEntry_eq]
  cases hpair : halves? members with
  | none =>
    constructor
    · rintro ⟨b, hb, hbad⟩
      obtain ⟨t, ht, rfl⟩ := map_eq_ok_iff.1 hb
      obtain ⟨w, hw, hconforms⟩ := (isBad_iff _).1 hbad
      have hconforms : t.conforms w = true := by simpa using hconforms
      exact .alone hpair hw (exists_conforms_iff.1 ⟨t, ht, hconforms⟩)
    · intro h
      cases h with
      | @alone w _ hw hall =>
        obtain ⟨t, ht, hconforms⟩ := exists_conforms_iff.2 hall
        exact ⟨_, map_eq_ok_iff.2 ⟨t, ht, rfl⟩, (isBad_iff _).2 ⟨w, hw, by simpa using hconforms⟩⟩
      -- Without two halves nothing is condemned beside another analysis.
      | beside hpair' => exact absurd (hpair.symm.trans hpair') (by simp)
  | some halves =>
    obtain ⟨remove, condition⟩ := halves
    constructor
    · rintro ⟨b, hb, hbad⟩
      obtain ⟨r, hr, hb⟩ := bind_eq_ok_iff.1 hb
      obtain ⟨c, hc, hb⟩ := bind_eq_ok_iff.1 hb
      obtain rfl := Except.ok.inj hb
      obtain ⟨w, hw, hconforms⟩ := (isBad_iff _).1 hbad
      -- The other analysis stands in any place but that of the analysis itself.
      obtain ⟨hremove, other, j, hother, hne, hcondition⟩ :
          r.conforms w = true ∧ ∃ other j, analyses[j]? = some other ∧ j ≠ i ∧
            c.conforms other = true := by
        simpa using hconforms
      exact .beside hpair hw hother hne (exists_conforms_iff.1 ⟨r, hr, hremove⟩)
        (exists_conforms_iff.1 ⟨c, hc, hcondition⟩)
    · intro h
      cases h with
      -- An entry with two halves condemns nothing alone.
      | alone hpair' => exact absurd (hpair.symm.trans hpair') (by simp)
      | @beside w other j _ _ hpair' hw hother hne hall hbeside =>
        obtain ⟨rfl, rfl⟩ := Prod.mk.inj (Option.some.inj (hpair.symm.trans hpair'))
        obtain ⟨r, hr, hremove⟩ := exists_conforms_iff.2 hall
        obtain ⟨c, hc, hcondition⟩ := exists_conforms_iff.2 hbeside
        refine ⟨_, bind_eq_ok_iff.2 ⟨r, hr, bind_eq_ok_iff.2 ⟨c, hc, rfl⟩⟩, ?_⟩
        exact (isBad_iff _).2 ⟨w, hw,
          .inr ⟨_, List.mem_singleton_self _, hremove, other, j, hother, hne, hcondition⟩⟩

/-! ## Documents -/

theorem isBad_ofEntries_iff (items : List Value) :
    (ofEntries items : BadAnalyses P × _).1.isBad analyses i = true ↔
      ∃ members, .obj members ∈ items ∧ Condemns P analyses i members := by
  fun_induction ofEntries (P := P) items with
  | case1 => simp [isBad_empty]
  | case2 members rest templates errors hrest entry hentry ih =>
    rw [hrest] at ih
    simp only [isBad_append, Bool.or_eq_true, ih]
    -- The entry was read, so what it drops is what it condemns.
    have hentry' : entry.isBad analyses i = true ↔ Condemns P analyses i members := by
      simp [← exists_isBad_iff, hentry]
    simp [hentry', or_and_right, exists_or]
  | case3 members rest templates errors hrest e hentry ih =>
    rw [hrest] at ih
    -- An entry that was refused condemns nothing.
    have hentry' : ¬ Condemns P analyses i members := by
      simp [← exists_isBad_iff, hentry]
    simp [ih, hentry', or_and_right, exists_or]
  | case4 first rest hother ih =>
    rw [ih]
    -- An item that is no object cannot be the condemning one.
    refine exists_congr fun members => and_congr_left fun _ => ?_
    rw [List.mem_cons, or_iff_right]
    rintro rfl
    exact hother _ rfl

theorem mem_entries_iff {items : List Value} :
    members ∈ entries (.arr items) ↔ .obj members ∈ items := by
  rw [entries, List.mem_filterMap]
  constructor
  · rintro ⟨item, hitem, heq⟩
    cases item with
    | obj _ => exact Option.some.inj heq ▸ hitem
    | _ => cases heq
  · exact fun hmem => ⟨_, hmem, rfl⟩

/-- The templates of a document drop just the analyses that one of its entries condemns. -/
theorem isBad_ofValue_iff : (ofValue v : BadAnalyses P × _).1.isBad analyses i = true ↔
    ∃ members ∈ entries v, Condemns P analyses i members := by
  cases v with
  | arr items => simp only [ofValue, isBad_ofEntries_iff, mem_entries_iff]
  | _ => simp [ofValue, entries, isBad_empty]

theorem mem_filter_iff {b : BadAnalyses P} {w : Wordform} :
    w ∈ b.filter analyses ↔ ∃ i, analyses[i]? = some w ∧ b.isBad analyses i = false := by
  simp [filter, List.mem_zipIdx_iff_getElem?]

variable (P) in
/-- Every analysis that a document removes is condemned by an entry that has patterns. -/
def ActsWithinPatterns (v : Value) (analyses : List Wordform) : Prop :=
  ∀ i, (ofValue v : BadAnalyses P × _).1.isBad analyses i = true →
    ∃ members ∈ entries v, hasPatterns members = true ∧ Condemns P analyses i members

/-- **What the entries of a document remove.**  An analysis is removed by `filter` just if an entry
`Condemns` it: it satisfies all patterns of the entry, or those of one half of a pair beside another
analysis that satisfies those of the other half. Where every entry has patterns (`hasPatterns`),
nothing is removed beyond them. It is so for patterns of every kind. -/
theorem filter_acts_within_patterns (P : Type) [PatternEngine P] (v : Value)
    (analyses : List Wordform) :
    (∀ w, w ∈ (ofValue v : BadAnalyses P × _).1.filter analyses ↔
      ∃ i, analyses[i]? = some w ∧ ∀ members ∈ entries v, ¬ Condemns P analyses i members) ∧
    ((∀ members ∈ entries v, hasPatterns members = true) → ActsWithinPatterns P v analyses) := by
  constructor
  · simp [mem_filter_iff, ← Bool.not_eq_true, isBad_ofValue_iff]
  · intro hpatterns i hbad
    obtain ⟨members, hentry, hcondemns⟩ := isBad_ofValue_iff.1 hbad
    exact ⟨members, hentry, hpatterns members hentry, hcondemns⟩

/-- An analysis with a lemma and tags. -/
def sampleAnalysis (headword gramm : String) : Wordform :=
  ⟨headword, "", "", headword, gramm, "", [], []⟩

/-- A document with an entry that is an object, and one that is a pair. -/
def sampleEntries : Value :=
  .arr [.obj [(some "lex", .str (some "bad"))],
    .obj [(some "remove", .obj [(some "gramm", .str (some "N"))]),
      (some "if_exists", .obj [(some "gramm", .str (some "V"))])]]

theorem filter_acts_within_patterns_sampleEntries :
    (ofValue sampleEntries : BadAnalyses Pattern × _).1.filter
      [sampleAnalysis "walk" "N", sampleAnalysis "walk" "V", sampleAnalysis "bad" "ADJ"] =
        [sampleAnalysis "walk" "V"] ∧
    ActsWithinPatterns Pattern sampleEntries
      [sampleAnalysis "walk" "N", sampleAnalysis "walk" "V", sampleAnalysis "bad" "ADJ"] :=
  ⟨by decide +kernel, (filter_acts_within_patterns Pattern _ _).2 (by decide +kernel)⟩

/-- A pair with one of its names misspelt. -/
def misspeltPair : Value :=
  .arr [.obj [(some "remove", .obj [(some "lex", .str (some "bad"))]),
    (some "if_exist", .obj [(some "lex", .str (some "good"))])]]

/-- Half a pair is taken for an object without patterns: it removes an analysis that satisfies none
of the patterns written, and no fault is reported. -/
theorem not_actsWithinPatterns_misspeltPair :
    (ofValue misspeltPair : BadAnalyses Pattern × _).1.filter [sampleAnalysis "house" "N"] = [] ∧
    (ofValue misspeltPair : BadAnalyses Pattern × _).2 = [] ∧
    ¬ ActsWithinPatterns Pattern misspeltPair [sampleAnalysis "house" "N"] := by
  refine ⟨by decide +kernel, by decide +kernel, fun hwithin => ?_⟩
  obtain ⟨members, hentry, hpatterns, -⟩ := hwithin 0 (by decide +kernel)
  have hnone : ∀ members ∈ entries misspeltPair, hasPatterns members = false := by decide +kernel
  exact absurd ((hnone members hentry).symm.trans hpatterns) (by simp)

end BadAnalyses

end Morphology
