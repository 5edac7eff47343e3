import Morphology.Disambiguation
import Morphology.Proofs.Trees

/-!
# A stream piece by piece

A stream is written one cohort after another.  The cohorts of tokens come in the order in which the
leaves of the tree are found, and between them stand those that close groups; the readings that come
back are taken by the leaves in the same order, each changed in its place.

## Main definitions

* `Piece` — a cohort of a token, or one that closes a group
* `Tree.pieces` — the pieces that a tree is written in
* `Tree.WritesCohorts` — the stream of a tree and the order of its cohorts

## Main statements

* `Tree.cohortStream_eq_join` — a stream is made of its pieces
* `Tree.filterMap_token?_pieces` — every leaf has its piece, in the order of the leaves
* `Tree.leaves_and_cohorts_in_order` — leaves, their images and their cohorts agree in their order
-/

namespace Morphology

universe u v w

open Cohort

/-- What is put into a stream at once: the cohort of a token, or the one that closes a group. -/
inductive Piece
  | token (analyses : List Wordform)
  | groupEnd

namespace Piece

/-- The text of a piece. -/
def text : Piece → String
  | token analyses => cohort analyses
  | groupEnd => headLine Cohort.groupEnd

/-- The token that a piece is written for. -/
def token? : Piece → Option (List Wordform)
  | token analyses => some analyses
  | groupEnd => none

end Piece

/-- A cohort begins with the `headLine` of its token. -/
theorem exists_cohort_eq (w : Wordform) (ws : List Wordform) :
    ∃ lines, cohort (w :: ws) = headLine (escape w.wf) ++ lines := by
  cases ws with
  | cons w' ws => exact ⟨_, rfl⟩
  | nil =>
    rw [cohort]
    split
    · exact ⟨_, rfl⟩
    · split
      · -- The only analysis is a placeholder for punctuation, which has one line more.
        exact ⟨"\t\"" ++ escape w.wf ++ "\" punct\n", by simp only [String.append_assoc]⟩
      · exact ⟨"", String.append_empty.symm⟩

/-- Only a token without analyses has an empty cohort. -/
theorem isEmpty_cohort (analyses : List Wordform) :
    (cohort analyses).isEmpty = analyses.isEmpty := by
  cases analyses with
  | nil => rfl
  | cons w ws =>
    obtain ⟨lines, hlines⟩ := exists_cohort_eq w ws
    simp [hlines, headLine]

namespace Tree

/-! ## Pieces -/

/-- The pieces of a tree inside a group: a group that has items is followed by the one that closes
it. -/
def piecesInside : Tree (List Wordform) → List Piece
  | .leaf analyses => [.token analyses]
  | .group [] => []
  | .group (t :: rest) => t.piecesInside ++ piecesOf rest ++ [.groupEnd]
where
  /-- The pieces of several trees inside a group. -/
  piecesOf : List (Tree (List Wordform)) → List Piece
    | [] => []
    | t :: rest => t.piecesInside ++ piecesOf rest

/-- The pieces of a tree.  The outermost group is not closed. -/
def pieces : Tree (List Wordform) → List Piece
  | .leaf analyses => [.token analyses]
  | .group items => piecesInside.piecesOf items

theorem cohortsInside_eq_join : (t : Tree (List Wordform)) →
    t.cohortsInside = String.join (t.piecesInside.map Piece.text)
  | .leaf analyses => by simp [cohortsInside, piecesInside, Piece.text]
  | .group [] => rfl
  | .group (t :: rest) => by
    -- The items are those of one more tree in front, so `all` speaks of them too.
    have hitems := all (t :: rest)
    rw [cohortsInside.cohortsOf, piecesInside.piecesOf] at hitems
    rw [cohortsInside, hitems]
    simp [piecesInside, Piece.text, String.append_assoc]
where
  all : (ts : List (Tree (List Wordform))) →
      cohortsInside.cohortsOf ts = String.join ((piecesInside.piecesOf ts).map Piece.text)
    | [] => rfl
    | t :: rest => by
      rw [cohortsInside.cohortsOf, cohortsInside_eq_join t, all rest, piecesInside.piecesOf,
        List.map_append, String.join_append]

/-- A stream is made of its pieces. -/
theorem cohortStream_eq_join (t : Tree (List Wordform)) :
    t.cohortStream = String.join (t.pieces.map Piece.text) := by
  cases t with
  | leaf analyses => exact cohortsInside_eq_join (.leaf analyses)
  | group items => exact cohortsInside_eq_join.all items

theorem filterMap_token?_piecesInside : (t : Tree (List Wordform)) →
    t.piecesInside.filterMap Piece.token? = t.flatten
  | .leaf _ => rfl
  | .group [] => rfl
  | .group (t :: rest) => by
    -- The cohort that closes the group is written for no token.
    have hitems := all (t :: rest)
    rw [piecesInside.piecesOf] at hitems
    rw [piecesInside, List.filterMap_append, hitems, flatten]
    exact List.append_nil _
where
  all : (ts : List (Tree (List Wordform))) →
      (piecesInside.piecesOf ts).filterMap Piece.token? = flatten.flattenAll ts
    | [] => rfl
    | t :: rest => by
      rw [piecesInside.piecesOf, List.filterMap_append, filterMap_token?_piecesInside t, all rest,
        flatten.flattenAll]

/-- Every leaf has its piece, and the pieces come in the order of the leaves. -/
theorem filterMap_token?_pieces (t : Tree (List Wordform)) :
    t.pieces.filterMap Piece.token? = t.leaves := by
  rw [leaves_eq_flatten]
  cases t with
  | leaf _ => rfl
  | group items => exact filterMap_token?_piecesInside.all items

/-! ## Order -/

/-- A stream is made of pieces, and those that are cohorts of tokens come in the order in which the
leaves with analyses are found. -/
structure WritesCohorts (t : Tree (List Wordform)) : Prop where
  stream_eq : t.cohortStream = String.join (t.pieces.map Piece.text)
  cohorts_eq : ((t.pieces.filterMap Piece.token?).map cohort).filter (!·.isEmpty) =
    ((t.leafRefs.map Ref.value).filter (!·.isEmpty)).map cohort

theorem writesCohorts (t : Tree (List Wordform)) : t.WritesCohorts where
  stream_eq := cohortStream_eq_join t
  cohorts_eq := by
    rw [filterMap_token?_pieces, t.findsLeaves.map_value, List.filter_map]
    simp only [Function.comp_def, isEmpty_cohort]

/-- The leaves that `leafRefs` finds with a stack are those of `flatten`, in the same order; what
`update` writes through references to them is what `traverse` changes; a tree that `map` or
`traverse` has changed has its leaves at the same places in the same order; and so have the cohorts
of `cohortStream`. -/
theorem leaves_and_cohorts_in_order {α : Type u} {β : Type v} {σ : Type w} (t : Tree α)
    (k : α → β) (f : σ → α → σ × β) (g : σ → α → σ × α) (s : σ)
    (tokens : Tree (List Wordform)) :
    t.FindsLeaves ∧ t.update g s = t.traverse g s ∧
      t.IsRelabelling (t.leaves.map k) (t.map k) ∧
      t.IsRelabelling (mapAccum f s t.leaves).2 (t.traverse f s).2 ∧
      tokens.WritesCohorts :=
  ⟨t.findsLeaves, update_eq_traverse t s, isRelabelling_map k t, isRelabelling_traverse f s t,
    tokens.writesCohorts⟩

end Tree

end Morphology
