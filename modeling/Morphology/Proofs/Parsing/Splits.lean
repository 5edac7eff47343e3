import Mathlib.Data.List.FinRange
import Mathlib.Data.List.Nodup
import Morphology.Parser

/-!
# All splits of a token

A token is split in every way in which clitics may stand around a host, and in each way once.  A
clitic that is listed twice is two clitics here, so a way to split a token is told by the places of
its clitics in the list, not by the clitics.

## Main definitions

* `Decomposition` — clitics, by their places in a list, around a host
* `Decomposition.Fits` — the clitics may stand in a word as they do
* `decompositions` — the decompositions of a word, in the order of its splits

## Main statements

* `Clitic.strip?_eq_some_iff` — what is left when a clitic is stripped
* `mem_decompositions_iff` — the decompositions found are those that fit
* `nodup_places_decompositions` — none is found twice
* `hosts_exact` — the splits of a token
-/

namespace Morphology

/-! ## One clitic -/

private theorem take_eq_some_iff {suffix word host : List Char} :
    (if suffix.isSuffixOf word then some (word.take (word.length - suffix.length)) else none) =
      some host ↔ word = host ++ suffix := by
  rw [Option.ite_none_right_eq_some, List.isSuffixOf_iff_suffix, Option.some.injEq]
  constructor
  · rintro ⟨⟨front, rfl⟩, rfl⟩
    simp
  · rintro rfl
    simp

private theorem drop_eq_some_iff {start word host : List Char} :
    (if start.isPrefixOf word then some (word.drop start.length) else none) = some host ↔
      word = start ++ host := by
  rw [Option.ite_none_right_eq_some, List.isPrefixOf_iff_prefix, Option.some.injEq]
  constructor
  · rintro ⟨⟨back, rfl⟩, rfl⟩
    simp
  · rintro rfl
    simp

/-- What is left of a word without a clitic at its edge, if the clitic accepts it. -/
theorem Clitic.strip?_eq_some_iff {c : Clitic} {encliticsOnly : Bool} {word host : List Char} :
    c.strip? encliticsOnly word = some host ↔
      c.surface ≠ [] ∧ host ≠ [] ∧ c.acceptsHost host = true ∧
        (c.side = .proclitic ∧ encliticsOnly = false ∧ word = c.surface ++ host ∨
          c.side = .enclitic ∧ word = host ++ c.surface) := by
  -- What the guard lets through is a clitic with a form, in a word that is longer.
  have hguard : (c.surface.isEmpty || decide (word.length ≤ c.surface.length)) = true ↔
      ¬ (c.surface ≠ [] ∧ c.surface.length < word.length) := by
    simp [Classical.or_iff_not_imp_left]
  -- A word longer than the clitic is one that has something else.
  have hlong (hlen : word.length = c.surface.length + host.length) :
      c.surface.length < word.length ↔ host ≠ [] := by
    rw [hlen, Nat.lt_add_right_iff_pos, List.length_pos_iff]
  simp only [strip?, Option.ite_none_left_eq_some, Option.filter_eq_some_iff, hguard, not_not]
  cases hside : c.side with
  | proclitic =>
    cases encliticsOnly with
    | true => simp
    | false =>
      simp only [Bool.not_false, Bool.true_and, drop_eq_some_iff]
      constructor
      · rintro ⟨⟨hne, hlt⟩, rfl, haccepts⟩
        exact ⟨hne, (hlong (List.length_append ..)).1 hlt, haccepts, .inl ⟨trivial, trivial, rfl⟩⟩
      · rintro ⟨hne, hhost, haccepts, ⟨-, -, rfl⟩ | ⟨hother, -⟩⟩
        · exact ⟨⟨hne, (hlong (List.length_append ..)).2 hhost⟩, rfl, haccepts⟩
        · exact absurd hother (by simp)
  | enclitic =>
    simp only [take_eq_some_iff]
    have hlen (h : word = host ++ c.surface) : word.length = c.surface.length + host.length := by
      rw [h, List.length_append, Nat.add_comm]
    constructor
    · rintro ⟨⟨hne, hlt⟩, hword, haccepts⟩
      exact ⟨hne, (hlong (hlen hword)).1 hlt, haccepts, .inr ⟨trivial, hword⟩⟩
    · rintro ⟨hne, hhost, haccepts, ⟨hother, -⟩ | ⟨-, hword⟩⟩
      · exact absurd hother (by simp)
      · exact ⟨⟨hne, (hlong (hlen hword)).2 hhost⟩, hword, haccepts⟩
  | other => simp

/-- Something is left when a clitic is stripped, and it is shorter. -/
theorem Clitic.length_of_strip? {c : Clitic} {encliticsOnly : Bool} {word host : List Char}
    (h : c.strip? encliticsOnly word = some host) :
    0 < host.length ∧ host.length < word.length := by
  obtain ⟨hsurface, hhost, -, hside⟩ := strip?_eq_some_iff.1 h
  have hpos := List.length_pos_iff.2 hsurface
  refine ⟨List.length_pos_iff.2 hhost, ?_⟩
  rcases hside with ⟨-, -, rfl⟩ | ⟨-, rfl⟩
  · rw [List.length_append]
    omega
  · rw [List.length_append]
    omega

variable {clitics : List Clitic}

/-! ## Decompositions -/

/-- Clitics, by their places in a list, around a host. -/
structure Decomposition (clitics : List Clitic) where
  /-- The proclitics from left to right. -/
  front : List (Fin clitics.length)
  host : List Char
  /-- The enclitics from left to right. -/
  back : List (Fin clitics.length)

/-- What some clitics are in words, one behind the other. -/
def surfaces (places : List (Fin clitics.length)) : List Char :=
  places.flatMap fun i => (clitics.get i).surface

@[simp] theorem surfaces_nil : surfaces ([] : List (Fin clitics.length)) = [] := rfl

@[simp] theorem surfaces_cons (i : Fin clitics.length) (is : List (Fin clitics.length)) :
    surfaces (i :: is) = (clitics.get i).surface ++ surfaces is :=
  List.flatMap_cons ..

@[simp] theorem surfaces_append (is js : List (Fin clitics.length)) :
    surfaces (is ++ js) = surfaces is ++ surfaces js :=
  List.flatMap_append ..

namespace Decomposition

variable {i : Fin clitics.length} {d : Decomposition clitics} {word host : List Char}

/-- The split with the clitics of a decomposition. -/
def toSplit (d : Decomposition clitics) : Split :=
  ⟨(d.front ++ d.back).map clitics.get, String.ofList d.host⟩

/-- The places of the clitics. -/
def places (d : Decomposition clitics) :
    List (Fin clitics.length) × List (Fin clitics.length) :=
  (d.front, d.back)

/-- The clitics may stand in a word as they do: each is on its side of a host, and accepts what is
left of the word when it is taken away with all that are stripped before it.  The proclitics are
stripped first, and on each side those that are farther from the host. -/
structure Fits (d : Decomposition clitics) (word : List Char) : Prop where
  host : d.host ≠ []
  spelled : surfaces d.front ++ d.host ++ surfaces d.back = word
  proclitic : ∀ i ∈ d.front, (clitics.get i).side = .proclitic ∧ (clitics.get i).surface ≠ []
  enclitic : ∀ i ∈ d.back, (clitics.get i).side = .enclitic ∧ (clitics.get i).surface ≠ []
  frontHosts : ∀ outer i inner, d.front = outer ++ i :: inner →
    (clitics.get i).acceptsHost (surfaces inner ++ d.host ++ surfaces d.back) = true
  backHosts : ∀ inner i outer, d.back = inner ++ i :: outer →
    (clitics.get i).acceptsHost (d.host ++ surfaces inner) = true

/-- A host without clitics. -/
def bare (host : List Char) : Decomposition clitics := ⟨[], host, []⟩

/-- A decomposition with one more clitic, which stands outside all others on its side. -/
def around (i : Fin clitics.length) (d : Decomposition clitics) : Decomposition clitics :=
  match (clitics.get i).side with
  | .proclitic => { d with front := i :: d.front }
  | .enclitic | .other => { d with back := d.back ++ [i] }

theorem around_of_proclitic (hi : (clitics.get i).side = .proclitic) :
    d.around i = ⟨i :: d.front, d.host, d.back⟩ := by
  simp only [around, hi]

theorem around_of_enclitic (hi : (clitics.get i).side = .enclitic) :
    d.around i = ⟨d.front, d.host, d.back ++ [i]⟩ := by
  simp only [around, hi]

theorem toSplit_around (i : Fin clitics.length) (d : Decomposition clitics) :
    (d.around i).toSplit = d.toSplit.around (clitics.get i) := by
  unfold around Split.around toSplit
  cases (clitics.get i).side <;> simp

theorem toSplit_bare (host : List Char) :
    (bare host : Decomposition clitics).toSplit = ⟨[], String.ofList host⟩ := rfl

theorem fits_bare (hhost : host ≠ []) : (bare host : Decomposition clitics).Fits host where
  host := hhost
  spelled := by simp [bare]
  proclitic := by simp [bare]
  enclitic := by simp [bare]
  frontHosts := by simp [bare]
  backHosts := by simp [bare]

theorem Fits.eq_bare (h : d.Fits word) (hnone : d.places = ([], [])) : d = bare word := by
  obtain ⟨front, host, back⟩ := d
  obtain ⟨rfl, rfl⟩ := Prod.mk.inj hnone
  rw [← h.spelled]
  simp [bare]

/-- A proclitic stands around what fits the word without it. -/
theorem fits_around_proclitic (hi : (clitics.get i).side = .proclitic) :
    (d.around i).Fits word ↔
      ∃ host, (clitics.get i).strip? false word = some host ∧ d.Fits host := by
  rw [around_of_proclitic hi]
  constructor
  · intro h
    have hhost : surfaces d.front ++ d.host ++ surfaces d.back ≠ [] := by simp [h.host]
    refine ⟨surfaces d.front ++ d.host ++ surfaces d.back, ?_, ?_⟩
    · refine Clitic.strip?_eq_some_iff.2 ⟨(h.proclitic i (List.mem_cons_self ..)).2, hhost,
        h.frontHosts [] i d.front rfl, .inl ⟨hi, rfl, ?_⟩⟩
      rw [← h.spelled]
      simp
    · exact {
        host := h.host
        spelled := rfl
        proclitic := fun j hj => h.proclitic j (List.mem_cons_of_mem _ hj)
        enclitic := h.enclitic
        frontHosts := fun outer j inner heq => h.frontHosts (i :: outer) j inner (by simp [heq])
        backHosts := h.backHosts }
  · rintro ⟨host, hstrip, h⟩
    obtain ⟨hsurface, -, haccepts, ⟨-, -, rfl⟩ | ⟨hother, -⟩⟩ := Clitic.strip?_eq_some_iff.1 hstrip
    · exact {
        host := h.host
        spelled := by simp [← h.spelled]
        proclitic := List.forall_mem_cons.2 ⟨⟨hi, hsurface⟩, h.proclitic⟩
        enclitic := h.enclitic
        frontHosts := by
          -- The clitic itself accepts all of the host, and the others what they accepted before.
          rintro (_ | ⟨j, outer⟩) k inner heq
          · obtain ⟨rfl, rfl⟩ := List.cons.inj heq
            rwa [h.spelled]
          · exact h.frontHosts outer k inner (List.cons.inj heq).2
        backHosts := h.backHosts }
    · rw [hi] at hother
      exact absurd hother (by simp)

/-- An enclitic stands around enclitics that fit the word without it. -/
theorem fits_around_enclitic (hi : (clitics.get i).side = .enclitic) (hfront : d.front = [])
    (encliticsOnly : Bool) :
    (d.around i).Fits word ↔
      ∃ host, (clitics.get i).strip? encliticsOnly word = some host ∧ d.Fits host := by
  rw [around_of_enclitic hi]
  constructor
  · intro h
    refine ⟨d.host ++ surfaces d.back, ?_, ?_⟩
    · refine Clitic.strip?_eq_some_iff.2 ⟨(h.enclitic i (by simp)).2, by simp [h.host],
        h.backHosts d.back i [] rfl, .inr ⟨hi, ?_⟩⟩
      rw [← h.spelled]
      simp [hfront]
    · exact {
        host := h.host
        spelled := by simp [hfront]
        proclitic := h.proclitic
        enclitic := fun j hj => h.enclitic j (List.mem_append_left _ hj)
        frontHosts := by simp [hfront]
        backHosts := fun inner j outer heq =>
          h.backHosts inner j (outer ++ [i]) (by simp [heq]) }
  · rintro ⟨host, hstrip, h⟩
    obtain ⟨hsurface, -, haccepts, ⟨hother, -⟩ | ⟨-, rfl⟩⟩ := Clitic.strip?_eq_some_iff.1 hstrip
    · rw [hi] at hother
      exact absurd hother (by simp)
    · have hspelled : d.host ++ surfaces d.back = host := by simpa [hfront] using h.spelled
      exact {
        host := h.host
        spelled := by simp [hfront, ← hspelled]
        proclitic := h.proclitic
        enclitic := by
          intro j hj
          rcases List.mem_append.1 hj with hj | hj
          · exact h.enclitic j hj
          · rw [List.mem_singleton.1 hj]
            exact ⟨hi, hsurface⟩
        frontHosts := by simp [hfront]
        backHosts := by
          intro inner k outer heq
          -- The enclitic is the last, or it stands behind the others.
          rcases List.eq_nil_or_concat' outer with rfl | ⟨outer, j, rfl⟩
          · obtain ⟨rfl, hlast⟩ := List.append_inj' heq rfl
            obtain rfl := List.singleton_inj.1 hlast
            rwa [hspelled]
          · rw [← List.cons_append, ← List.append_assoc] at heq
            exact h.backHosts inner k outer (List.append_inj' heq rfl).1 }

end Decomposition

open Decomposition

/-! ## The decompositions of a word -/

/-- The decompositions of a host, given those with clitics; a host of one character has no room for
any. -/
def withBare (host : List Char) (found : List (Decomposition clitics)) :
    List (Decomposition clitics) :=
  bare host :: if host.length ≤ 1 then [] else found

theorem mem_withBare {host : List Char} {found : List (Decomposition clitics)}
    {d : Decomposition clitics} :
    d ∈ withBare host found ↔ d = bare host ∨ 1 < host.length ∧ d ∈ found := by
  by_cases hshort : host.length ≤ 1
  · simp [withBare, hshort, Nat.not_lt.2 hshort]
  · simp [withBare, hshort, Nat.not_le.1 hshort]

/-- The decompositions of a word with at least one clitic, in the order in which its splits are
found. -/
def decompositions (clitics : List Clitic) :
    (fuel : Nat) → (encliticsOnly : Bool) → List Char → List (Decomposition clitics)
  | 0, _, _ => []
  | fuel + 1, encliticsOnly, word =>
    (List.finRange clitics.length).flatMap fun i =>
      match (clitics.get i).strip? encliticsOnly word with
      | none => []
      | some host =>
        (withBare host (decompositions clitics fuel
          (encliticsOnly || (clitics.get i).side = .enclitic) host)).map (around i)

/-- The splits of a word are its decompositions. -/
theorem cliticSplits_eq_map (clitics : List Clitic) (fuel : Nat) (encliticsOnly : Bool)
    (word : List Char) :
    cliticSplits clitics fuel encliticsOnly word =
      (decompositions clitics fuel encliticsOnly word).map toSplit := by
  -- The splits are found clitic by clitic, the decompositions place by place.
  have hplaces (f : Clitic → List Split) : clitics.flatMap f =
      (List.finRange clitics.length).flatMap fun i => f (clitics.get i) := by
    conv_lhs => rw [← List.map_get_finRange clitics, List.flatMap_map]
  induction fuel generalizing encliticsOnly word with
  | zero => rfl
  | succ fuel ih =>
    rw [cliticSplits, hplaces, decompositions, List.map_flatMap]
    congr 1
    funext i
    cases (clitics.get i).strip? encliticsOnly word with
    | none => rfl
    | some host =>
      have hbare : (around i (bare host)).toSplit = ⟨[clitics.get i], String.ofList host⟩ := by
        rw [toSplit_around, toSplit_bare, Split.around]
        cases (clitics.get i).side <;> rfl
      simp only [withBare, List.map_cons, List.map_map, hbare]
      congr 1
      split
      · rfl
      · rw [ih, List.map_map]
        exact List.map_congr_left fun d _ => (toSplit_around i d).symm

variable {fuel : Nat} {encliticsOnly : Bool} {word : List Char} {d : Decomposition clitics}

/-- A decomposition is found around a host without clitics, or around one found for the host. -/
theorem mem_decompositions_succ :
    d ∈ decompositions clitics (fuel + 1) encliticsOnly word ↔
      ∃ i host inner, (clitics.get i).strip? encliticsOnly word = some host ∧ inner.around i = d ∧
        (inner = bare host ∨ 1 < host.length ∧ inner ∈ decompositions clitics fuel
          (encliticsOnly || (clitics.get i).side = .enclitic) host) := by
  simp only [decompositions, List.mem_flatMap, List.mem_finRange, true_and]
  refine exists_congr fun i => ?_
  cases (clitics.get i).strip? encliticsOnly word with
  | none => simp
  | some host =>
    simp only [List.mem_map, mem_withBare, Option.some.injEq]
    constructor
    · rintro ⟨e, he, rfl⟩
      exact ⟨host, e, rfl, rfl, he⟩
    · rintro ⟨_, e, rfl, rfl, he⟩
      exact ⟨e, he, rfl⟩

/-- Around a clitic there is a clitic. -/
theorem places_around_ne (i : Fin clitics.length) (d : Decomposition clitics) :
    (d.around i).places ≠ ([], []) := by
  unfold around places
  cases (clitics.get i).side <;> simp

/-- The decompositions found fit, and have clitics. -/
theorem fits_of_mem_decompositions
    (hd : d ∈ decompositions clitics fuel encliticsOnly word) :
    d.places ≠ ([], []) ∧ d.Fits word ∧ (encliticsOnly = true → d.front = []) := by
  -- By induction on the fuel.  That no proclitic stands inside an enclitic is carried along, for
  -- `fits_around_enclitic` needs it.
  induction fuel generalizing encliticsOnly word d with
  | zero => exact absurd hd List.not_mem_nil
  | succ fuel ih =>
    obtain ⟨i, host, inner, hstrip, rfl, hinner⟩ := mem_decompositions_succ.1 hd
    obtain ⟨hsurface, hhost, -, hside⟩ := Clitic.strip?_eq_some_iff.1 hstrip
    have hfits : inner.Fits host ∧
        ((encliticsOnly || (clitics.get i).side = .enclitic) = true → inner.front = []) := by
      rcases hinner with rfl | ⟨-, hmem⟩
      · exact ⟨fits_bare hhost, fun _ => rfl⟩
      · exact (ih hmem).2
    refine ⟨places_around_ne i inner, ?_⟩
    rcases hside with ⟨hi, rfl, -⟩ | ⟨hi, -⟩
    · exact ⟨(fits_around_proclitic hi).2 ⟨host, hstrip, hfits.1⟩, by simp⟩
    · have hfront : inner.front = [] := hfits.2 (by rw [hi]; simp)
      refine ⟨(fits_around_enclitic hi hfront encliticsOnly).2 ⟨host, hstrip, hfits.1⟩, fun _ => ?_⟩
      rw [around_of_enclitic hi, hfront]

/-- A decomposition with clitics has an outermost one, which is stripped first. -/
theorem exists_eq_around (hne : d.places ≠ ([], [])) (h : d.Fits word)
    (honly : encliticsOnly = true → d.front = []) :
    ∃ (i : Fin clitics.length) (host : List Char) (inner : Decomposition clitics),
      (clitics.get i).strip? encliticsOnly word = some host ∧ inner.around i = d ∧
        inner.Fits host ∧
        ((encliticsOnly || (clitics.get i).side = .enclitic) = true → inner.front = []) := by
  obtain ⟨front, host, back⟩ := d
  cases front with
  | cons i front =>
    have hi := (h.proclitic i (List.mem_cons_self ..)).1
    obtain rfl : encliticsOnly = false := by
      by_contra hother
      exact absurd (honly (by simpa using hother)) (List.cons_ne_nil _ _)
    have hd : (⟨front, host, back⟩ : Decomposition clitics).around i = ⟨i :: front, host, back⟩ :=
      around_of_proclitic hi
    rw [← hd] at h ⊢
    obtain ⟨rest, hstrip, hfits⟩ := (fits_around_proclitic hi).1 h
    exact ⟨i, rest, _, hstrip, rfl, hfits, by rw [hi]; simp⟩
  | nil =>
    -- Without proclitics it is the last enclitic.
    rcases List.eq_nil_or_concat' back with rfl | ⟨back, i, rfl⟩
    · exact absurd rfl hne
    · have hi := (h.enclitic i (by simp)).1
      have hd : (⟨[], host, back⟩ : Decomposition clitics).around i = ⟨[], host, back ++ [i]⟩ :=
        around_of_enclitic hi
      rw [← hd] at h ⊢
      obtain ⟨rest, hstrip, hfits⟩ := (fits_around_enclitic hi rfl encliticsOnly).1 h
      exact ⟨i, rest, _, hstrip, rfl, hfits, fun _ => rfl⟩

/-- A decomposition that fits is found, if there is fuel for all characters. -/
theorem mem_decompositions_of_fits (hne : d.places ≠ ([], [])) (h : d.Fits word)
    (honly : encliticsOnly = true → d.front = []) (hfuel : word.length ≤ fuel) :
    d ∈ decompositions clitics fuel encliticsOnly word := by
  induction fuel generalizing encliticsOnly word d with
  | zero =>
    -- Nothing is stripped from a word without characters.
    obtain ⟨i, host, -, hstrip, -⟩ := exists_eq_around hne h honly
    have := Clitic.length_of_strip? hstrip
    omega
  | succ fuel ih =>
    obtain ⟨i, host, inner, hstrip, rfl, hfits, honly'⟩ := exists_eq_around hne h honly
    have hshorter := Clitic.length_of_strip? hstrip
    refine mem_decompositions_succ.2 ⟨i, host, inner, hstrip, rfl, ?_⟩
    by_cases hinner : inner.places = ([], [])
    · exact .inl (hfits.eq_bare hinner)
    · -- One more clitic is stripped from the host, and something is left of that.
      obtain ⟨_, _, _, hstrip', -⟩ := exists_eq_around hinner hfits honly'
      have := Clitic.length_of_strip? hstrip'
      exact .inr ⟨by omega, ih hinner hfits honly' (by omega)⟩

/-- The decompositions found are those that have clitics and fit. -/
theorem mem_decompositions_iff (hfuel : word.length ≤ fuel) :
    d ∈ decompositions clitics fuel encliticsOnly word ↔
      d.places ≠ ([], []) ∧ d.Fits word ∧ (encliticsOnly = true → d.front = []) :=
  ⟨fits_of_mem_decompositions, fun ⟨hne, h, honly⟩ => mem_decompositions_of_fits hne h honly hfuel⟩

/-! ## Each decomposition once -/

namespace Decomposition

/-- The clitic that is stripped first: the outer proclitic, or else the outer enclitic. -/
def outermost? (places : List (Fin clitics.length) × List (Fin clitics.length)) :
    Option (Fin clitics.length) :=
  places.1.head?.or places.2.getLast?

theorem outermost?_around {i : Fin clitics.length}
    (honly : (clitics.get i).side ≠ .proclitic → d.front = []) :
    outermost? (d.around i).places = some i := by
  unfold around outermost? places
  cases hi : (clitics.get i).side with
  | proclitic => rfl
  | enclitic | other => simp [honly (by rw [hi]; exact CliticSide.noConfusion)]

/-- One more clitic leaves the others where they are. -/
theorem places_around_inj {i : Fin clitics.length} {d' : Decomposition clitics} :
    (d.around i).places = (d'.around i).places ↔ d.places = d'.places := by
  unfold around places
  cases (clitics.get i).side <;> simp

end Decomposition

/-- The places of what is found around a host are distinct if those of what was found for it are. -/
private theorem nodup_places_withBare {host : List Char} {found : List (Decomposition clitics)}
    (i : Fin clitics.length) (hnodup : (found.map places).Nodup)
    (hne : ∀ d ∈ found, d.places ≠ ([], [])) :
    (((withBare host found).map (around i)).map places).Nodup := by
  have hbefore : ((withBare host found).map places).Nodup := by
    unfold withBare
    split
    · exact List.nodup_singleton _
    · refine List.nodup_cons.2 ⟨fun hmem => ?_, hnodup⟩
      obtain ⟨d, hd, heq⟩ := List.mem_map.1 hmem
      exact hne d hd heq
  rw [List.Nodup, List.pairwise_map] at hbefore
  rw [List.map_map, List.Nodup, List.pairwise_map]
  exact hbefore.imp fun hdiffer heq => hdiffer (places_around_inj.1 heq)

/-- What is found around a clitic has it for its outermost. -/
private theorem outermost?_of_stripped {i : Fin clitics.length} {host : List Char}
    (hstrip : (clitics.get i).strip? encliticsOnly word = some host)
    {x : List (Fin clitics.length) × List (Fin clitics.length)}
    (hx : x ∈ ((withBare host (decompositions clitics fuel
      (encliticsOnly || (clitics.get i).side = .enclitic) host)).map (around i)).map places) :
    outermost? x = some i := by
  obtain ⟨_, hmem, rfl⟩ := List.mem_map.1 hx
  obtain ⟨inner, hinner, rfl⟩ := List.mem_map.1 hmem
  refine outermost?_around fun hi => ?_
  -- An enclitic is the outermost one only because nothing stands in front of the host.
  obtain ⟨-, -, -, ⟨hfront, -⟩ | ⟨hback, -⟩⟩ := Clitic.strip?_eq_some_iff.1 hstrip
  · exact absurd hfront hi
  · rcases mem_withBare.1 hinner with rfl | ⟨-, hfound⟩
    · rfl
    · exact (fits_of_mem_decompositions hfound).2.2 (by rw [hback]; simp)

/-- No decomposition is found twice: those that are found around different clitics have different
outermost ones. -/
theorem nodup_places_decompositions (clitics : List Clitic) (fuel : Nat) (encliticsOnly : Bool)
    (word : List Char) :
    ((decompositions clitics fuel encliticsOnly word).map places).Nodup := by
  induction fuel generalizing encliticsOnly word with
  | zero => exact List.nodup_nil
  | succ fuel ih =>
    -- Around one clitic it is what stands inside that differs, between two clitics the outermost one.
    rw [decompositions, List.map_flatMap, List.nodup_flatMap]
    refine ⟨fun i _ => ?_, (List.nodup_finRange _).imp fun {i j} hne x hi hj => hne ?_⟩
    · cases (clitics.get i).strip? encliticsOnly word with
      | none => exact List.nodup_nil
      | some host =>
        exact nodup_places_withBare i (ih _ host) fun d hd => (fits_of_mem_decompositions hd).1
    · dsimp only at hi hj
      split at hi
      · exact absurd hi List.not_mem_nil
      · rename_i hstrip
        split at hj
        · exact absurd hj List.not_mem_nil
        · rename_i hstrip'
          exact Option.some.inj
            ((outermost?_of_stripped hstrip hi).symm.trans (outermost?_of_stripped hstrip' hj))

/-! ## The splits of a token -/

/-- **The splits of a token.**  `hosts` gives the token itself and then, each once, the
decompositions in which clitics fit around a host (`Decomposition.Fits`). No clitic that is only
recorded stands in a split. -/
theorem hosts_exact (clitics : List Clitic) (token : String) :
    ∃ ds : List (Decomposition clitics),
      hosts clitics token = ⟨[], token⟩ :: ds.map toSplit ∧
      (∀ d, d ∈ ds ↔ (d.front ≠ [] ∨ d.back ≠ []) ∧ d.Fits token.toList) ∧
      (ds.map places).Nodup ∧
      ∀ s ∈ hosts clitics token, ∀ c ∈ s.clitics, c.side ≠ .other := by
  have hhosts : hosts clitics token = ⟨[], token⟩ ::
      (decompositions clitics token.length false token.toList).map toSplit := by
    rw [hosts, cliticSplits_eq_map]
  refine ⟨decompositions clitics token.length false token.toList, hhosts, fun d => ?_,
    nodup_places_decompositions .., fun s hs c hc => ?_⟩
  · rw [mem_decompositions_iff (Nat.le_of_eq String.length_toList)]
    have hclitics : d.places ≠ ([], []) ↔ d.front ≠ [] ∨ d.back ≠ [] := by
      simp [places, Classical.or_iff_not_imp_left]
    simp [hclitics]
  · rw [hhosts] at hs
    rcases List.mem_cons.1 hs with rfl | hs
    · exact absurd hc List.not_mem_nil
    · obtain ⟨d, hd, rfl⟩ := List.mem_map.1 hs
      obtain ⟨-, hfits, -⟩ := fits_of_mem_decompositions hd
      obtain ⟨i, hi, rfl⟩ := List.mem_map.1 hc
      rcases List.mem_append.1 hi with hi | hi
      · rw [(hfits.proclitic i hi).1]
        exact CliticSide.noConfusion
      · rw [(hfits.enclitic i hi).1]
        exact CliticSide.noConfusion

end Morphology
