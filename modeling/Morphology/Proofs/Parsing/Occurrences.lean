import Mathlib.Algebra.Order.Field.Rat
import Mathlib.Algebra.Order.Field.Basic
import Mathlib.Tactic.Linarith
import Morphology.Proofs.Parsing.Batches
import Morphology.Proofs.Search.Soundness

/-!
# Counting occurrences

The occurrences of a list are added up in 64 bits, so that what comes out is the number of
occurrences modulo `2 ^ 64`.  As long as the whole list has fewer occurrences, the sums and the
share computed from them are exact; beyond that the sum of all occurrences may even be less than
that of those parsed.

## Main definitions

* `totalCount` — the number of occurrences of some entries
* `BatchOptions.counted`, `Parser.finds` — the entries that are counted, and those with analyses
* `BatchReport.share` — the share of parsed occurrences, before it is rounded
* `RoundsBy` — what is taken for granted of floating-point numbers

## Main statements

* `toNat_occurrences` — what the sum in 64 bits is
* `value_parsedFraction_mem_unit`, `parsedFraction_near_share` — what is computed as the share
* `Parser.occurrences_parseEntries` — the sums of a report, and when they are exact
* `Parser.not_occurrences_wrappedTotal` — a share of more than all occurrences
-/

namespace Morphology

/-! ## Sums -/

/-- The number of occurrences of some entries. -/
def totalCount (entries : List FreqEntry) : Nat :=
  (entries.map (·.count.toNat)).sum

theorem totalCount_cons (e : FreqEntry) (entries : List FreqEntry) :
    totalCount (e :: entries) = e.count.toNat + totalCount entries :=
  rfl

theorem totalCount_of_perm {entries entries' : List FreqEntry} (h : entries.Perm entries') :
    totalCount entries = totalCount entries' :=
  (h.map _).sum_eq

/-- Some of the entries have no more occurrences than all. -/
theorem totalCount_filter_le (keep : FreqEntry → Bool) (entries : List FreqEntry) :
    totalCount (entries.filter keep) ≤ totalCount entries :=
  (List.filter_sublist.map _).sum_le_sum fun _ _ => Nat.zero_le _

/-- The sum in 64 bits that is begun with some number. -/
private theorem toNat_foldl_count (results : List TokenResult) (sum : UInt64) :
    (results.foldl (fun sum r => sum + r.entry.count) sum).toNat =
      (sum.toNat + totalCount (results.map (·.entry))) % UInt64.size := by
  -- Each addition drops what does not fit, and dropping it at the end gives the same.
  induction results generalizing sum with
  | nil =>
    rw [List.foldl_nil, List.map_nil]
    exact (Nat.mod_eq_of_lt sum.toNat_lt_size).symm
  | cons r rest ih =>
    rw [List.foldl_cons, ih, List.map_cons, totalCount_cons, UInt64.toNat_add, ← Nat.add_assoc]
    exact Nat.mod_add_mod ..

/-- The sum in 64 bits is the number of occurrences, as far as it fits. -/
theorem toNat_occurrences (results : List TokenResult) :
    (occurrences results).toNat = totalCount (results.map (·.entry)) % UInt64.size := by
  rw [occurrences, toNat_foldl_count]
  simp

/-! ## Reports -/

/-- The entries of a list that are parsed and counted. -/
def BatchOptions.counted (o : BatchOptions) (entries : List FreqEntry) : List FreqEntry :=
  o.maxLines.elim entries entries.take

/-- The share of the occurrences that have analyses, before it is rounded. -/
def BatchReport.share (r : BatchReport) : ℚ :=
  (occurrences r.parsed).toNat / (occurrences r.results).toNat

/-- The share computed from sums in order is a share. -/
theorem BatchReport.share_mem_unit {r : BatchReport}
    (h : (occurrences r.parsed).toNat ≤ (occurrences r.results).toNat) :
    0 ≤ r.share ∧ r.share ≤ 1 := by
  refine ⟨div_nonneg (Nat.cast_nonneg _) (Nat.cast_nonneg _), ?_⟩
  apply div_le_one_of_le₀
  · exact_mod_cast h
  · exact Nat.cast_nonneg _

/-! ### The share that is computed -/

/-- What a computed `parsedFraction` rests on: floating-point numbers stand for a `value`, words
become such numbers and are divided as by the exact operations but for a rounding, and rounding
keeps the order and is off by no more than one part in `2 ^ 53` where a share and its sums lie. -/
structure RoundsBy (value : Float → ℚ) (round : ℚ → ℚ) : Prop where
  zero : value 0 = 0
  ofWord : ∀ n : UInt64, value n.toFloat = round n.toNat
  div : ∀ a b, 0 ≤ value a → 1 ≤ value b → value (a / b) = round (value a / value b)
  mono : Monotone round
  round_zero : round 0 = 0
  round_one : round 1 = 1
  near : ∀ x, 1 / 2 ^ 66 ≤ x → x ≤ 2 ^ 66 → |round x - x| ≤ x / 2 ^ 53

section Rounding

variable {value : Float → ℚ} {round : ℚ → ℚ} {r : BatchReport}

private theorem one_le_toNat {n : UInt64} (hn : n ≠ 0) : (1 : ℚ) ≤ n.toNat := by
  have hpos : n.toNat ≠ 0 := fun hzero => hn (UInt64.toNat_inj.1 hzero)
  exact_mod_cast Nat.one_le_iff_ne_zero.2 hpos

theorem RoundsBy.near_word (h : RoundsBy value round) {n : UInt64} (hn : n ≠ 0) :
    |round n.toNat - n.toNat| ≤ (n.toNat : ℚ) / 2 ^ 53 := by
  have hlow := one_le_toNat hn
  have hhigh : (n.toNat : ℚ) ≤ 2 ^ 64 := by exact_mod_cast Nat.le_of_lt n.toNat_lt
  refine h.near _ ?_ ?_ <;> linarith

/-- The sums are rounded, and their quotient once more. -/
theorem value_parsedFraction (h : RoundsBy value round) (htotal : occurrences r.results ≠ 0) :
    value r.parsedFraction =
      round (round (occurrences r.parsed).toNat / round (occurrences r.results).toNat) := by
  rw [BatchReport.parsedFraction, if_neg htotal, h.div, h.ofWord, h.ofWord]
  · rw [h.ofWord, ← h.round_zero]
    exact h.mono (Nat.cast_nonneg _)
  · rw [h.ofWord, ← h.round_one]
    exact h.mono (one_le_toNat htotal)

/-- Sums in order have a `parsedFraction` from 0 to 1, however it is rounded. -/
theorem value_parsedFraction_mem_unit (h : RoundsBy value round)
    (hordered : occurrences r.parsed ≤ occurrences r.results) :
    0 ≤ value r.parsedFraction ∧ value r.parsedFraction ≤ 1 := by
  by_cases htotal : occurrences r.results = 0
  · rw [BatchReport.parsedFraction, if_pos htotal, h.zero]
    exact ⟨le_rfl, zero_le_one⟩
  · have hsums : round (occurrences r.parsed).toNat ≤ round (occurrences r.results).toNat :=
      h.mono (by exact_mod_cast UInt64.le_iff_toNat_le.1 hordered)
    -- Rounding keeps the order, and nought and one as they are.
    have hparsed : 0 ≤ round (occurrences r.parsed).toNat := by
      rw [← h.round_zero]
      exact h.mono (Nat.cast_nonneg _)
    rw [value_parsedFraction h htotal]
    constructor
    · rw [← h.round_zero]
      exact h.mono (div_nonneg hparsed (hparsed.trans hsums))
    · rw [← h.round_one]
      exact h.mono (div_le_one_of_le₀ hsums (hparsed.trans hsums))

/-- The computed share is the `share` of the sums but for one part in `2 ^ 50`. -/
theorem parsedFraction_near_share (h : RoundsBy value round)
    (htotal : occurrences r.results ≠ 0) :
    |value r.parsedFraction - r.share| ≤ r.share / 2 ^ 50 := by
  rw [value_parsedFraction h htotal, BatchReport.share]
  by_cases hparsed : occurrences r.parsed = 0
  · simp [hparsed, h.round_zero]
  -- Each sum is rounded by one part in `2 ^ 53` at most.
  have hp := abs_le.1 (h.near_word hparsed)
  have ht := abs_le.1 (h.near_word htotal)
  have hppos := one_le_toNat hparsed
  have htpos := one_le_toNat htotal
  have hphigh : ((occurrences r.parsed).toNat : ℚ) ≤ 2 ^ 64 := by
    exact_mod_cast Nat.le_of_lt (occurrences r.parsed).toNat_lt
  have hthigh : ((occurrences r.results).toNat : ℚ) ≤ 2 ^ 64 := by
    exact_mod_cast Nat.le_of_lt (occurrences r.results).toNat_lt
  generalize ((occurrences r.parsed).toNat : ℚ) = p at *
  generalize ((occurrences r.results).toNat : ℚ) = t at *
  have htround : 0 < round t := by linarith
  have htpos' : 0 < t := by linarith
  -- The quotient of the rounded sums is off by little more than two parts in `2 ^ 53`.
  have hlow : p / t * (1 - 3 / 2 ^ 53) ≤ round p / round t := by
    rw [div_mul_eq_mul_div, div_le_div_iff₀ htpos' htround]
    nlinarith
  have hhigh : round p / round t ≤ p / t * (1 + 3 / 2 ^ 53) := by
    rw [div_mul_eq_mul_div, div_le_div_iff₀ htround htpos']
    nlinarith
  have hshare : 1 / 2 ^ 64 ≤ p / t := by
    rw [div_le_div_iff₀ (by norm_num) htpos']
    linarith
  have hshare' : p / t ≤ 2 ^ 64 := by
    rw [div_le_iff₀ htpos']
    nlinarith
  have hnear := abs_le.1 (h.near (round p / round t) (by linarith) (by linarith))
  rw [abs_le]
  constructor <;> linarith

end Rounding

namespace Parser

/-- Whether the token of an entry has an analysis. -/
def finds (p : Parser) (maxEdits : Nat) (e : FreqEntry) : Bool :=
  (p.parse e.token maxEdits).any (·.isAnalyzed)

variable {p : Parser} {processors : Nat} {o : BatchOptions} {entries : List FreqEntry}
  {report : BatchReport}

/-- Each result is that of its entry. -/
private theorem map_entry_map (analyses : FreqEntry → List Wordform) (entries : List FreqEntry) :
    (entries.map fun e => TokenResult.mk e (analyses e)).map (·.entry) = entries := by
  rw [List.map_map]
  apply List.map_id

/-- The results are those of the entries that are counted. -/
theorem entries_results_perm (h : p.parseEntries? processors o entries = some report) :
    (report.results.map (·.entry)).Perm (o.counted entries) := by
  rw [results_of_parseEntries? h, map_entry_map]
  apply FreqList.sort_perm

/-- The results with analyses are those of the entries whose tokens have some. -/
theorem entries_parsed_perm (h : p.parseEntries? processors o entries = some report) :
    (report.parsed.map (·.entry)).Perm ((o.counted entries).filter (p.finds o.maxEdits)) := by
  -- A result is parsed just if the parser finds something for its entry.
  have hfinds : (TokenResult.isParsed ∘ fun e : FreqEntry => ⟨e, p.parse e.token o.maxEdits⟩) =
      p.finds o.maxEdits := by
    funext e
    rw [Function.comp_apply, finds, TokenResult.isParsed]
  rw [BatchReport.parsed, results_of_parseEntries? h, List.filter_map, hfinds, map_entry_map]
  exact (FreqList.sort_perm _).filter _

/-- The sums of a report are the numbers of occurrences, as far as they fit. -/
theorem toNat_occurrences_of_parseEntries?
    (h : p.parseEntries? processors o entries = some report) :
    (occurrences report.results).toNat = totalCount (o.counted entries) % UInt64.size ∧
      (occurrences report.parsed).toNat =
        totalCount ((o.counted entries).filter (p.finds o.maxEdits)) % UInt64.size := by
  rw [toNat_occurrences, toNat_occurrences, totalCount_of_perm (entries_results_perm h),
    totalCount_of_perm (entries_parsed_perm h)]
  exact ⟨rfl, rfl⟩

/-- **Occurrences.**  There is a report, and the sum of all `occurrences` in it, and that of those
parsed, are the exact numbers modulo `2 ^ 64`.  The first is exact just if all occurrences together
fit in 64 bits; then so is the second, which is not the greater one, and the `BatchReport.share` is
that of the occurrences with analyses, from 0 to 1. -/
theorem occurrences_parseEntries (p : Parser) (processors : Nat) (o : BatchOptions)
    (entries : List FreqEntry) : ∃ report, p.parseEntries? processors o entries = some report ∧
      let found := (o.counted entries).filter (p.finds o.maxEdits)
      (occurrences report.results).toNat = totalCount (o.counted entries) % UInt64.size ∧
      (occurrences report.parsed).toNat = totalCount found % UInt64.size ∧
      ((occurrences report.results).toNat = totalCount (o.counted entries) ↔
        totalCount (o.counted entries) < UInt64.size) ∧
      (totalCount (o.counted entries) < UInt64.size →
        (occurrences report.parsed).toNat = totalCount found ∧
        occurrences report.parsed ≤ occurrences report.results ∧
        report.share = totalCount found / totalCount (o.counted entries) ∧
        0 ≤ report.share ∧ report.share ≤ 1) := by
  obtain ⟨report, hreport, -⟩ := p.exists_parseEntries? processors o entries
  obtain ⟨htotal, hparsed⟩ := toNat_occurrences_of_parseEntries? hreport
  refine ⟨report, hreport, htotal, hparsed, ?_, fun hfits => ?_⟩
  · constructor
    · intro hexact
      rw [← hexact]
      exact UInt64.toNat_lt_size _
    · intro hfits
      exact htotal.trans (Nat.mod_eq_of_lt hfits)
  · have hle : totalCount ((o.counted entries).filter (p.finds o.maxEdits)) ≤
        totalCount (o.counted entries) := totalCount_filter_le _ _
    -- What fits is not cut off, and neither is a part of it.
    have htotal' : (occurrences report.results).toNat = totalCount (o.counted entries) :=
      htotal.trans (Nat.mod_eq_of_lt hfits)
    have hparsed' := hparsed.trans (Nat.mod_eq_of_lt (hle.trans_lt hfits))
    have hordered : (occurrences report.parsed).toNat ≤ (occurrences report.results).toNat := by
      rw [htotal', hparsed']
      exact hle
    refine ⟨hparsed', UInt64.le_iff_toNat_le.2 hordered, ?_, BatchReport.share_mem_unit hordered⟩
    rw [BatchReport.share, htotal', hparsed']

/-- A list of one noun and one other token. -/
def sampleCounts (parsed unparsed : UInt64) : List FreqEntry :=
  [⟨"cats", parsed⟩, ⟨"xyzzy", unparsed⟩]

theorem occurrences_parseEntries_sampleCounts :
    ∃ p report, ofGrammar (Grammar.ofDocument default sampleNouns).grammar default = .ok p ∧
      p.parseEntries? 2 ⟨0, 0, none⟩ (sampleCounts 3 1) = some report ∧
      (occurrences report.results).toNat = 4 ∧ report.share = 3 / 4 := by
  have hok : ((ofGrammar (Grammar.ofDocument default sampleNouns).grammar default).toOption.any
      fun p => (sampleCounts 3 1).filter (p.finds 0) == [⟨"cats", 3⟩]) = true := by
    decide +kernel
  obtain ⟨p, hp, hfound⟩ := exists_eq_ok_of_any hok
  have hcounted : totalCount (BatchOptions.counted ⟨0, 0, none⟩ (sampleCounts 3 1)) = 4 := rfl
  obtain ⟨report, hreport, -, -, hexact, hshare⟩ :=
    p.occurrences_parseEntries 2 ⟨0, 0, none⟩ (sampleCounts 3 1)
  have hfits : totalCount (BatchOptions.counted ⟨0, 0, none⟩ (sampleCounts 3 1)) < UInt64.size := by
    rw [hcounted]
    decide
  refine ⟨p, report, hp, hreport, (hexact.2 hfits).trans hcounted, ?_⟩
  obtain ⟨-, -, hvalue, -⟩ := hshare hfits
  have hcats : totalCount
      ((BatchOptions.counted ⟨0, 0, none⟩ (sampleCounts 3 1)).filter (p.finds 0)) = 3 :=
    congrArg totalCount (eq_of_beq hfound)
  rw [hvalue, hcounted, hcats]
  norm_num

/-- More occurrences than fit in 64 bits may be counted as one, and then the parsed ones are more
than all of them. -/
theorem not_occurrences_wrappedTotal :
    ∃ p entries report, ofGrammar (Grammar.ofDocument default sampleNouns).grammar default = .ok p ∧
      FreqList.read "\t" "cats\t9223372036854775808\nxyzzy\t9223372036854775809" = .ok entries ∧
      p.parseEntries? 1 ⟨1, 0, none⟩ entries = some report ∧
      (occurrences report.results).toNat ≠ totalCount entries ∧
      ¬ occurrences report.parsed ≤ occurrences report.results ∧ 1 < report.share := by
  let entries := sampleCounts 9223372036854775808 9223372036854775809
  have hok : ((ofGrammar (Grammar.ofDocument default sampleNouns).grammar default).toOption.any
      fun p => entries.filter (p.finds 0) == [⟨"cats", 9223372036854775808⟩]) = true := by
    decide +kernel
  obtain ⟨p, hp, hfound⟩ := exists_eq_ok_of_any hok
  have hread : FreqList.read "\t" "cats\t9223372036854775808\nxyzzy\t9223372036854775809" =
      .ok entries := by
    decide +kernel
  obtain ⟨report, hreport, -⟩ := p.exists_parseEntries? 1 ⟨1, 0, none⟩ entries
  obtain ⟨htotal, hparsed⟩ := toNat_occurrences_of_parseEntries? hreport
  have hone : (occurrences report.results).toNat = 1 := by
    rw [htotal]
    decide
  have hcats : totalCount
      ((BatchOptions.counted ⟨1, 0, none⟩ entries).filter (p.finds 0)) = 9223372036854775808 :=
    congrArg totalCount (eq_of_beq hfound)
  have hmore : (occurrences report.parsed).toNat = 9223372036854775808 := by
    rw [hparsed, hcats]
    rfl
  refine ⟨p, entries, report, hp, hread, hreport, ?_, ?_, ?_⟩
  · rw [hone]
    decide
  · rw [UInt64.le_iff_toNat_le, hone, hmore]
    decide
  · rw [BatchReport.share, hone, hmore]
    norm_num

end Parser

end Morphology
