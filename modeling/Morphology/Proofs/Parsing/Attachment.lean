import Morphology.Proofs.Parsing.Splits

/-!
# Clitics come back in the order of the token

A split takes the clitics of a token from the outside in, and attaching them puts them back from the
inside out.  In the segmented form and the gloss they stand as they do in the token; the lemma, the
tags and the further data have those of the proclitics and then those of the enclitics, on each side
from the host outwards.

## Main definitions

* `present` — the texts that are not empty
* `Clitic.inOrder` — a text of the host between those of its clitics
* `Wordform.between` — an analysis of the host between clitics

## Main statements

* `Wordform.attach_between_proclitic`, `Wordform.attach_between_enclitic` — one more clitic
* `attachAll_eq_between` — all clitics
* `exists_sides_of_mem_hosts` — the sides of a split
* `attachClitics_mirrors_hosts` — what becomes of the analyses of a host
-/

namespace Morphology

/-! ## Texts -/

/-- The texts that are not empty. -/
def present (texts : List String) : List String :=
  texts.filter (!·.isEmpty)

theorem present_concat (texts : List String) (t : String) :
    present (texts ++ [t]) = present texts ++ if t.isEmpty then [] else [t] := by
  rw [present, List.filter_append, present]
  by_cases ht : t.isEmpty = true <;> simp [ht]

/-- Texts of which none is empty make an empty one only if there is none. -/
theorem isEmpty_intercalate_present (separator : String) (texts : List String) :
    (separator.intercalate (present texts)).isEmpty = (present texts).isEmpty := by
  cases htexts : present texts with
  | nil => simp
  | cons t rest =>
    have ht : t ≠ "" := by
      have hmem : t ∈ present texts := by simp [htexts]
      have hne := (List.mem_filter.1 hmem).2
      rintro rfl
      simp at hne
    rw [List.isEmpty_cons, Bool.eq_false_iff, Ne, String.isEmpty_iff]
    cases rest with
    | nil => simpa using ht
    | cons u rest => simp [ht]

/-- Tags are joined one behind the other, empty ones left out. -/
theorem joinTags_intercalate (texts : List String) (t : String) :
    joinTags (String.intercalate "," (present texts)) t =
      String.intercalate "," (present (texts ++ [t])) := by
  rw [joinTags, isEmpty_intercalate_present, present_concat]
  -- The new tag is left out if it is empty, and stands alone if there was none.
  cases htexts : present texts with
  | nil =>
    by_cases ht : t.isEmpty = true
    · simp [String.isEmpty_iff.1 ht]
    · simp [ht]
  | cons first rest =>
    by_cases ht : t.isEmpty = true
    · simp [ht]
    · rw [if_neg (by simp), if_neg ht, if_neg ht,
        String.intercalate_append_of_ne_nil (List.cons_ne_nil _ _) (List.cons_ne_nil _ _),
        String.intercalate_singleton]

/-- A lemma is put behind others unless it is empty. -/
theorem intercalate_present_concat (separator first : String) (texts : List String) (t : String) :
    separator.intercalate (first :: present (texts ++ [t])) =
      if t.isEmpty then separator.intercalate (first :: present texts)
      else separator.intercalate (first :: present texts) ++ separator ++ t := by
  rw [present_concat, ← List.cons_append]
  by_cases ht : t.isEmpty = true
  · simp [ht]
  · rw [if_neg ht, if_neg ht,
      String.intercalate_append_of_ne_nil (List.cons_ne_nil _ _) (List.cons_ne_nil _ _),
      String.intercalate_singleton]

/-! ## Attaching -/

namespace Clitic

variable (text : Clitic → String) (front back : List Clitic) (host : String) (c : Clitic)

/-- A text of the host between those of its clitics. -/
def inOrder (text : Clitic → String) (front : List Clitic) (host : String)
    (back : List Clitic) : String :=
  String.intercalate "=" (front.map text ++ host :: back.map text)

theorem inOrder_cons : inOrder text (c :: front) host back =
    text c ++ "=" ++ inOrder text front host back := by
  rw [inOrder, List.map_cons, List.cons_append, String.intercalate_cons_of_ne_nil (by simp)]
  rfl

theorem inOrder_concat : inOrder text front host (back ++ [c]) =
    inOrder text front host back ++ "=" ++ text c := by
  rw [inOrder, List.map_append, ← List.cons_append, ← List.append_assoc,
    String.intercalate_append_of_ne_nil (by simp) (by simp), List.map_singleton,
    String.intercalate_singleton]
  rfl

end Clitic

namespace Wordform

/-- An analysis of the host between clitics, for a whole token.  The segmented form and the gloss
have the clitics where the token has them, the other fields from the host outwards, the proclitics
first. -/
def between (w : Wordform) (token : String) (front back : List Clitic) : Wordform :=
  let outwards := front.reverse ++ back
  { w with
    wf := token
    glossed := Clitic.inOrder Clitic.glossed front w.glossed back
    gloss := Clitic.inOrder Clitic.gloss front w.gloss back
    headword := String.intercalate "+" (w.headword :: present (outwards.map (·.headword)))
    gramm := String.intercalate "," (present (w.gramm :: outwards.map (·.gramm)))
    otherData := w.otherData ++ outwards.flatMap (·.otherData) }

variable {w : Wordform} {token : String} {front back : List Clitic} {c : Clitic}

/-- Without clitics only the surface is the token's. -/
theorem between_nil (w : Wordform) (token : String) :
    w.between token [] [] = { w with wf := token } := by
  have hgramm : String.intercalate "," (present [w.gramm]) = w.gramm := by
    by_cases h : w.gramm.isEmpty = true
    · simp [present, String.isEmpty_iff.1 h]
    · simp [present, h]
  have hheadword : present [] = [] := rfl
  simp [between, Clitic.inOrder, hgramm, hheadword]

/-- A proclitic stands outside those that are attached already. -/
theorem attach_between_proclitic (hc : c.side = .proclitic) :
    c.attach (w.between token front []) = w.between token (c :: front) [] := by
  -- Its texts come in front of the token's, and behind all others in the further fields.
  simp only [Clitic.attach, hc, between, addTags, List.append_nil, List.reverse_cons,
    List.map_append, List.map_singleton, List.cons_append, joinTags_intercalate,
    intercalate_present_concat, Clitic.inOrder_cons, List.flatMap_append, List.flatMap_singleton,
    List.append_assoc]

/-- An enclitic stands outside all others. -/
theorem attach_between_enclitic (hc : c.side = .enclitic) :
    c.attach (w.between token front back) = w.between token front (back ++ [c]) := by
  -- It comes last everywhere.
  simp only [Clitic.attach, hc, between, addTags, ← List.append_assoc, List.map_append,
    List.map_singleton, List.cons_append, joinTags_intercalate, intercalate_present_concat,
    Clitic.inOrder_concat, List.flatMap_append, List.flatMap_singleton]

end Wordform

section Attach

variable {front back : List Clitic}

/-- Proclitics and enclitics are told apart by their sides. -/
theorem partition_side (hfront : ∀ c ∈ front, c.side = .proclitic)
    (hback : ∀ c ∈ back, c.side = .enclitic) :
    (front ++ back).partition (·.side = .proclitic) = (front, back) := by
  have hkept : front.filter (·.side = .proclitic) = front :=
    List.filter_eq_self.2 fun c hc => decide_eq_true (hfront c hc)
  have hdropped : back.filter (·.side = .proclitic) = [] :=
    List.filter_eq_nil_iff.2 fun c hc => by simp [hback c hc]
  have hdropped' : front.filter (not ∘ (·.side = .proclitic)) = [] :=
    List.filter_eq_nil_iff.2 fun c hc => by simp [hfront c hc]
  have hkept' : back.filter (not ∘ (·.side = .proclitic)) = back :=
    List.filter_eq_self.2 fun c hc => by simp [hback c hc]
  rw [List.partition_eq_filter_filter, List.filter_append, List.filter_append, hkept, hdropped,
    hdropped', hkept', List.append_nil, List.nil_append]

/-- Proclitics are attached from the host outwards. -/
theorem foldl_attach_proclitics (hfront : ∀ c ∈ front, c.side = .proclitic) (w : Wordform)
    (token : String) :
    front.reverse.foldl (fun w c => c.attach w) { w with wf := token } =
      w.between token front [] := by
  -- The innermost proclitic is the last of the list, so this is a fold from the right.
  rw [List.foldl_reverse]
  induction front with
  | nil => exact (w.between_nil token).symm
  | cons c front ih =>
    obtain ⟨hc, hfront⟩ := List.forall_mem_cons.1 hfront
    rw [List.foldr_cons, ih hfront, Wordform.attach_between_proclitic hc]

/-- Enclitics are attached behind those that are there. -/
theorem foldl_attach_enclitics (hback : ∀ c ∈ back, c.side = .enclitic) (w : Wordform)
    (token : String) (inner : List Clitic) :
    back.foldl (fun w c => c.attach w) (w.between token front inner) =
      w.between token front (inner ++ back) := by
  induction back generalizing inner with
  | nil => rw [List.foldl_nil, List.append_nil]
  | cons c back ih =>
    obtain ⟨hc, hback⟩ := List.forall_mem_cons.1 hback
    rw [List.foldl_cons, Wordform.attach_between_enclitic hc, ih hback, List.append_assoc,
      List.singleton_append]

/-- Clitics are attached to an analysis of the host as they stand around it. -/
theorem attachAll_eq_between (hfront : ∀ c ∈ front, c.side = .proclitic)
    (hback : ∀ c ∈ back, c.side = .enclitic) (w : Wordform) (token : String) :
    attachAll (front ++ back) { w with wf := token } = w.between token front back := by
  rw [attachAll, partition_side hfront hback]
  dsimp only
  rw [foldl_attach_proclitics hfront, foldl_attach_enclitics hback, List.nil_append]

end Attach

/-! ## Splits -/

/-- The clitics of a split are proclitics and then enclitics, and with the host between them they
spell the token. -/
theorem exists_sides_of_mem_hosts {clitics : List Clitic} {token : String} {s : Split}
    (hs : s ∈ hosts clitics token) :
    ∃ front back, s.clitics = front ++ back ∧ (∀ c ∈ front, c.side = .proclitic) ∧
      (∀ c ∈ back, c.side = .enclitic) ∧
      front.flatMap (·.surface) ++ s.host.toList ++ back.flatMap (·.surface) = token.toList := by
  obtain ⟨ds, hhosts, hds, -, -⟩ := hosts_exact clitics token
  rw [hhosts] at hs
  rcases List.mem_cons.1 hs with rfl | hs
  · exact ⟨[], [], rfl, by simp, by simp, by simp⟩
  · obtain ⟨d, hd, rfl⟩ := List.mem_map.1 hs
    -- The places of the clitics are those that fit the split.
    have hfits := ((hds d).1 hd).2
    refine ⟨d.front.map clitics.get, d.back.map clitics.get, List.map_append, ?_, ?_, ?_⟩
    · exact List.forall_mem_map.2 fun i hi => (hfits.proclitic i hi).1
    · exact List.forall_mem_map.2 fun i hi => (hfits.enclitic i hi).1
    · rw [List.flatMap_map, List.flatMap_map, Decomposition.toSplit, String.toList_ofList]
      exact hfits.spelled

/-- **Attaching mirrors splitting.**  Of the analyses of the host those stay, in their order, that
all clitics of the split accept as they are; with clitics each stands for the token and has them
around it (`between`) in the order in which they and the host spell the token. Without clitics all
stay as they are. -/
theorem attachClitics_mirrors_hosts {clitics : List Clitic} {token : String} {s : Split}
    (hs : s ∈ hosts clitics token) :
    ∃ front back, s.clitics = front ++ back ∧ (∀ c ∈ front, c.side = .proclitic) ∧
      (∀ c ∈ back, c.side = .enclitic) ∧
      front.flatMap (·.surface) ++ s.host.toList ++ back.flatMap (·.surface) = token.toList ∧
      (s.clitics = [] → ∀ analyses, attachClitics token s.clitics analyses = analyses) ∧
      (s.clitics ≠ [] → ∀ analyses, attachClitics token s.clitics analyses =
        (analyses.filter fun w => s.clitics.all (·.accepts w)).map
          (·.between token front back)) := by
  obtain ⟨front, back, hclitics, hfront, hback, hspelled⟩ := exists_sides_of_mem_hosts hs
  refine ⟨front, back, hclitics, hfront, hback, hspelled, fun hnone analyses => ?_,
    fun hsome analyses => ?_⟩
  · rw [attachClitics, hnone]
    rfl
  · -- Every analysis that is accepted has all clitics attached, one after the other.
    rw [attachClitics, if_neg (by simpa using hsome), hclitics]
    apply List.map_congr_left
    intro w _
    exact attachAll_eq_between hfront hback w token

/-- A proclitic, and an enclitic of two morphemes that follows nouns. -/
def sampleClitics : List Clitic :=
  [⟨"ne", .proclitic, "ne", "neg", "NEG", [], [], []⟩,
    ⟨"l&i", .enclitic, "", "ptcl", "Q", [("source", "b")], [],
      (FieldTest.read? "gramm" "^N").toList⟩]

/-- An analysis of the host `dom` with some tags. -/
def sampleHost (gramm : String) : Wordform :=
  ⟨"dom", "dom", "house", "dom", gramm, "dom.", [("source", "a")], []⟩

theorem attachClitics_mirrors_hosts_sampleClitics :
    ⟨sampleClitics, "dom"⟩ ∈ hosts sampleClitics "nedomli" ∧
      ∃ front back, sampleClitics = front ++ back ∧
        front.flatMap (·.surface) ++ "dom".toList ++ back.flatMap (·.surface) =
          "nedomli".toList ∧
        attachClitics "nedomli" sampleClitics [sampleHost "V", sampleHost "N"] =
          [(sampleHost "N").between "nedomli" front back] := by
  have hs : ⟨sampleClitics, "dom"⟩ ∈ hosts sampleClitics "nedomli" := by decide +kernel
  obtain ⟨front, back, hclitics, -, -, hspelled, -, hattach⟩ := attachClitics_mirrors_hosts hs
  have hkept : ([sampleHost "V", sampleHost "N"].filter fun w =>
      sampleClitics.all (·.accepts w)) = [sampleHost "N"] := by
    decide +kernel
  refine ⟨hs, front, back, hclitics, hspelled, ?_⟩
  rw [hattach (List.cons_ne_nil _ _), hkept]
  rfl

example : attachClitics "nedomli" sampleClitics [sampleHost "V", sampleHost "N"] =
    [⟨"nedomli", "ne=dom=l-i", "NEG=house=Q", "dom+ne", "N,neg,ptcl", "dom.",
      [("source", "a"), ("source", "b")], []⟩] := by
  decide +kernel

end Morphology
