import Mathlib.Algebra.Order.Floor.Div
import Mathlib.Data.String.Basic
import Morphology.Batch
import Morphology.Proofs.Parsing.Sessions

/-!
# Batches

The results of a frequency list say nothing about the workers that it was divided among.  The
chunks that the workers get cover the sorted list from front to back, each worker parses as the
parser does, and so the analyses come back to the entries that they belong to.

## Main definitions

* `FreqEntry.Precedes` — the order of the results
* `IsDivision` — entries divided evenly among workers

## Main statements

* `FreqList.sort_perm`, `FreqList.pairwise_sort` — what sorting keeps and what it achieves
* `BatchOptions.exists_divide?` — the entries can be divided for any number of workers
* `Parser.parseChunk_eq_map` — a worker parses each of its entries
* `Parser.parseEntries_spec` — there are results of some entries, whoever worked on them
-/

namespace Morphology

universe u

/-! ## Sorting -/

/-- An entry may stand in front of another: its count is greater, or they have one count and its
token is not the greater one. -/
def FreqEntry.Precedes (a b : FreqEntry) : Prop :=
  b.count < a.count ∨ a.count = b.count ∧ a.token ≤ b.token

namespace FreqList

theorem mayPrecede_iff {a b : FreqEntry} : mayPrecede a b = true ↔ a.Precedes b := by
  simp [mayPrecede, FreqEntry.Precedes, Std.LawfulBCmp.isLE_iff_le]

theorem mayPrecede_trans (a b c : FreqEntry) (hab : mayPrecede a b = true)
    (hbc : mayPrecede b c = true) : mayPrecede a c = true := by
  rw [mayPrecede_iff] at hab hbc ⊢
  rcases hab with hab | ⟨hab, htab⟩
  · rcases hbc with hbc | ⟨hbc, -⟩
    · exact .inl (UInt64.lt_trans hbc hab)
    · exact .inl (hbc ▸ hab)
  · rcases hbc with hbc | ⟨hbc, htbc⟩
    · exact .inl (hab ▸ hbc)
    · exact .inr ⟨hab.trans hbc, htab.trans htbc⟩

theorem mayPrecede_total (a b : FreqEntry) : (mayPrecede a b || mayPrecede b a) = true := by
  -- Between entries with one count the tokens decide.
  rw [Bool.or_eq_true, mayPrecede_iff, mayPrecede_iff]
  by_cases hcount : a.count = b.count
  · rcases le_total a.token b.token with htoken | htoken
    · exact .inl (.inr ⟨hcount, htoken⟩)
    · exact .inr (.inr ⟨hcount.symm, htoken⟩)
  · rcases UInt64.lt_or_lt_of_ne hcount with hlt | hlt
    · exact .inr (.inl hlt)
    · exact .inl (.inl hlt)

/-- Sorting keeps all entries. -/
theorem sort_perm (entries : List FreqEntry) : (sort entries).Perm entries :=
  List.mergeSort_perm entries mayPrecede

/-- Sorted entries stand in order. -/
theorem pairwise_sort (entries : List FreqEntry) :
    (sort entries).Pairwise FreqEntry.Precedes :=
  (List.pairwise_mergeSort mayPrecede_trans mayPrecede_total entries).imp mayPrecede_iff.1

end FreqList

/-! ## Workers -/

theorem divCeil?_eq_some {n d : Nat} (hd : 0 < d) : divCeil? n d = some (n ⌈/⌉ d) := by
  rw [divCeil?, if_neg (Nat.ne_of_gt hd), Nat.ceilDiv_eq_add_pred_div]
  congr 1
  -- The remainder `n % d` decides whether the quotient is rounded.
  have hn : n + d - 1 = d * (n / d) + (n % d + d - 1) := by
    have := Nat.div_add_mod n d
    omega
  rw [hn, Nat.mul_add_div hd]
  congr 1
  have hlt := Nat.mod_lt n hd
  split
  · rename_i hzero
    exact (Nat.div_eq_of_lt (by omega)).symm
  · refine (Nat.div_eq_of_lt_le ?_ ?_).symm <;> omega

/-- Entries are divided among workers from front to back.  No worker is without entries, and all but
the last get the same number, which is the quotient rounded up. -/
structure IsDivision {α : Type u} (workers : Nat) (xs : List α) (pieces : List (List α)) :
    Prop where
  covers : pieces.flatten = xs
  nonempty : ∀ piece ∈ pieces, piece ≠ []
  atMost : pieces.length ≤ workers
  even : ∀ piece ∈ pieces.dropLast, piece.length = xs.length ⌈/⌉ workers
  last : ∀ piece ∈ pieces, piece.length ≤ xs.length ⌈/⌉ workers

section Pieces

variable {α : Type u} (more : Nat) (xs : List α)

theorem flatten_pieces : (chunks?.pieces more xs).flatten = xs := by
  fun_induction chunks?.pieces more xs with
  | case1 => rfl
  | case2 x rest ih => rw [List.flatten_cons, ih, List.cons_append, List.take_append_drop]

/-- A piece has an item, and up to `more` others. -/
theorem length_of_mem_pieces {piece : List α} (h : piece ∈ chunks?.pieces more xs) :
    0 < piece.length ∧ piece.length ≤ more + 1 := by
  fun_induction chunks?.pieces more xs with
  | case1 => exact absurd h List.not_mem_nil
  | case2 x rest ih =>
    rcases List.mem_cons.1 h with rfl | h
    · rw [List.length_cons, List.length_take]
      omega
    · exact ih h

/-- Only the last piece may be shorter than the others. -/
theorem length_of_mem_dropLast_pieces {piece : List α}
    (h : piece ∈ (chunks?.pieces more xs).dropLast) : piece.length = more + 1 := by
  fun_induction chunks?.pieces more xs with
  | case1 => exact absurd h List.not_mem_nil
  | case2 x rest ih =>
    cases hrest : chunks?.pieces more (rest.drop more) with
    | nil =>
      rw [hrest] at h
      exact absurd h List.not_mem_nil
    | cons next others =>
      rw [hrest] at h ih
      rcases List.mem_cons.1 h with rfl | h
      · -- There is a piece behind this one, so it is full.
        have hdrop : rest.drop more ≠ [] := by
          intro hnil
          rw [hnil, chunks?.pieces] at hrest
          exact absurd hrest nofun
        have hfull : more ≤ rest.length := Nat.le_of_lt (List.length_lt_of_drop_ne_nil hdrop)
        rw [List.length_cons, List.length_take, Nat.min_eq_left hfull]
      · exact ih h

/-- As many pieces are enough as have room for the list. -/
theorem length_pieces_le {workers : Nat} (h : xs.length ≤ workers * (more + 1)) :
    (chunks?.pieces more xs).length ≤ workers := by
  fun_induction chunks?.pieces more xs generalizing workers with
  | case1 => exact Nat.zero_le _
  | case2 x rest ih =>
    rw [List.length_cons] at h
    cases workers with
    | zero => omega
    | succ workers =>
      rw [Nat.succ_mul] at h
      have hrest : (rest.drop more).length ≤ workers * (more + 1) := by
        rw [List.length_drop]
        omega
      exact Nat.succ_le_succ (ih hrest)

end Pieces

/-- A list in pieces of the quotient rounded up is divided among the workers. -/
theorem isDivision_pieces {α : Type u} {workers : Nat} (hworkers : 0 < workers) (xs : List α) :
    IsDivision workers xs (chunks?.pieces (max (xs.length ⌈/⌉ workers) 1 - 1) xs) := by
  -- A size of zero is put up to one, and comes only from an empty list.
  have hsize : max (xs.length ⌈/⌉ workers) 1 - 1 + 1 = max (xs.length ⌈/⌉ workers) 1 :=
    Nat.sub_add_cancel (Nat.le_max_right _ _)
  have hroom : xs.length ≤ workers * (xs.length ⌈/⌉ workers) :=
    (ceilDiv_le_iff_le_mul hworkers).1 (Nat.le_refl _)
  have hquotient {piece : List α}
      (hpiece : piece ∈ chunks?.pieces (max (xs.length ⌈/⌉ workers) 1 - 1) xs) :
      max (xs.length ⌈/⌉ workers) 1 = xs.length ⌈/⌉ workers := by
    have hpos : 0 < xs.length := by
      cases xs with
      | nil => exact absurd hpiece (by simp [chunks?.pieces])
      | cons x rest => exact Nat.succ_pos _
    refine Nat.max_eq_left (Nat.pos_of_ne_zero fun hzero => ?_)
    rw [hzero, Nat.mul_zero] at hroom
    omega
  refine ⟨flatten_pieces _ xs, fun piece h => ?_, ?_, fun piece h => ?_, fun piece h => ?_⟩
  · exact List.length_pos_iff.1 (length_of_mem_pieces _ xs h).1
  · refine length_pieces_le _ xs ?_
    rw [hsize]
    exact Nat.le_trans hroom (Nat.mul_le_mul_left _ (Nat.le_max_left _ _))
  · rw [length_of_mem_dropLast_pieces _ xs h, hsize]
    exact hquotient (List.mem_of_mem_dropLast h)
  · have hle := (length_of_mem_pieces _ xs h).2
    rwa [hsize, hquotient h] at hle

/-- The entries of a list are divided for every number of workers asked for, none at all and more
than there are entries included, and for the list without entries as well. -/
theorem BatchOptions.exists_divide? (o : BatchOptions) (processors : Nat)
    (entries : List FreqEntry) : ∃ pieces, o.divide? processors entries = some pieces ∧
      IsDivision (o.workersFor processors entries.length) entries pieces := by
  have hworkers : 0 < o.workersFor processors entries.length := Nat.le_max_right _ _
  refine ⟨_, ?_, isDivision_pieces hworkers entries⟩
  rw [divide?, divCeil?_eq_some hworkers, Option.bind_eq_bind, Option.bind_some, chunks?, if_neg]
  exact Nat.ne_of_gt (Nat.le_max_right _ _)

namespace Parser

private theorem go_eq_map {p : Parser} {s : Session} (h : s.Faithful p) (maxEdits : Nat)
    (entries : List FreqEntry) :
    parseChunk.go maxEdits s entries = entries.map fun e => p.parse e.token maxEdits := by
  -- The session goes on from entry to entry, and that it is faithful is what lasts.
  induction entries generalizing s with
  | nil => rfl
  | cons e rest ih =>
    obtain ⟨heq, hkeeps⟩ := h.parse maxEdits e.token
    exact List.cons_eq_cons.2 ⟨heq, ih hkeeps⟩

/-- A worker parses each of its entries as the parser does, whatever its session remembers. -/
theorem parseChunk_eq_map (p : Parser) (maxEdits : Nat) (entries : List FreqEntry) :
    p.parseChunk maxEdits entries = entries.map fun e => p.parse e.token maxEdits :=
  go_eq_map (Session.faithful_start p) maxEdits entries

/-- There is a report, and the analyses in it come back to the entries that they belong to. -/
theorem exists_parseEntries? (p : Parser) (processors : Nat) (o : BatchOptions)
    (entries : List FreqEntry) : ∃ report, p.parseEntries? processors o entries = some report ∧
      report.results = (FreqList.sort (o.maxLines.elim entries entries.take)).map fun e =>
        ⟨e, p.parse e.token o.maxEdits⟩ := by
  obtain ⟨pieces, hpieces, hdivision⟩ :=
    o.exists_divide? processors (FreqList.sort (o.maxLines.elim entries entries.take))
  refine ⟨_, by rw [parseEntries?, hpieces]; rfl, ?_⟩
  -- Where a worker begins and ends does not matter, since each parses as the parser does.
  have hanalyses : pieces.flatMap (p.parseChunk o.maxEdits) =
      (FreqList.sort (o.maxLines.elim entries entries.take)).map
        fun e => p.parse e.token o.maxEdits := by
    calc pieces.flatMap (p.parseChunk o.maxEdits)
        = pieces.flatMap (List.map fun e => p.parse e.token o.maxEdits) := by
          rw [funext (p.parseChunk_eq_map o.maxEdits)]
      _ = pieces.flatten.map fun e => p.parse e.token o.maxEdits := by
          rw [List.flatMap_def, List.map_flatten]
      _ = _ := by rw [hdivision.covers]
  rw [hanalyses, List.zipWith_map_right, List.zipWith_self]

theorem results_of_parseEntries? {p : Parser} {processors : Nat} {o : BatchOptions}
    {entries : List FreqEntry} {report : BatchReport}
    (h : p.parseEntries? processors o entries = some report) :
    report.results = (FreqList.sort (o.maxLines.elim entries entries.take)).map fun e =>
      ⟨e, p.parse e.token o.maxEdits⟩ := by
  obtain ⟨report', h', hresults⟩ := p.exists_parseEntries? processors o entries
  obtain rfl := Option.some.inj (h'.symm.trans h)
  exact hresults

/-- **Batches.**  There is a report on some entries for every number of workers.  Its results are
those of the entries that are to be parsed, by falling count and then by token, each once and with
the analyses that `Parser.parse` gives its token; and they are the same for all numbers of workers.
The entries are divided evenly among the workers that are asked for, or among as many as there are
`processors`, but no more workers than entries and at least one. -/
theorem parseEntries_spec (p : Parser) (processors : Nat) (o : BatchOptions)
    (entries : List FreqEntry) :
    (∃ (sorted : List FreqEntry) (pieces : List (List FreqEntry)) (report : BatchReport),
      sorted.Perm (o.maxLines.elim entries entries.take) ∧
      sorted.Pairwise FreqEntry.Precedes ∧
      o.divide? processors sorted = some pieces ∧
      IsDivision (max (min (if o.workers = 0 then processors else o.workers) sorted.length) 1)
        sorted pieces ∧
      p.parseEntries? processors o entries = some report ∧
      report.results = sorted.map fun e => ⟨e, p.parse e.token o.maxEdits⟩) ∧
    ∀ processors' workers', p.parseEntries? processors' { o with workers := workers' } entries =
      p.parseEntries? processors o entries := by
  obtain ⟨report, hreport, hresults⟩ := p.exists_parseEntries? processors o entries
  constructor
  · obtain ⟨pieces, hpieces, hdivision⟩ :=
      o.exists_divide? processors (FreqList.sort (o.maxLines.elim entries entries.take))
    exact ⟨_, pieces, report, FreqList.sort_perm _, FreqList.pairwise_sort _, hpieces, hdivision,
      hreport, hresults⟩
  · intro processors' workers'
    obtain ⟨report', hreport', hresults'⟩ :=
      p.exists_parseEntries? processors' { o with workers := workers' } entries
    have hsame : report'.results = report.results := hresults'.trans hresults.symm
    rw [hreport', hreport]
    exact congrArg (some ∘ BatchReport.mk) hsame

end Parser

end Morphology
