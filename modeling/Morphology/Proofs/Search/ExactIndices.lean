import Morphology.Proofs.Search.Typos
import Morphology.Proofs.Transducer.ExactMatches

/-!
# What the indices find without edits

Without edits an index finds an item of the grammar wherever the word has its key, and nothing else.
What it finds of one item does not depend on the others, though they share a trie and an alphabet.

## Main definitions

* `IncorporationIndex.completes` — no look-up of an incorporated stem is given up
* `Grammar.Places` — a stem stands in a word where this has its key

## Main statements

* `Analyzer.mem_placements_iff` — the stems that are placed in a word
* `IncorporationIndex.mem_at?_iff` — the stems that are incorporated at a place
* `StemIndex.mem_keyless_iff` — the stems that are in no index
-/

namespace Morphology

/-! ## Stems -/

namespace StemIndex

variable {g : Grammar} {limit : Nat} {index : StemIndex} {id : SubLexemeId}

/-- The stems left over are those without a key. -/
theorem mem_keyless_iff (hbuild : build g limit = .ok index) :
    id ∈ index.keyless ↔ ∃ sub, g.subLexeme? id = some sub ∧ keyOf? limit id sub = none := by
  obtain ⟨keys, -, h⟩ := bind_eq_ok_iff.1 hbuild
  obtain rfl := Except.ok.inj h
  constructor
  · intro hid
    obtain ⟨⟨id', sub⟩, hmem, hnone⟩ := List.mem_filterMap.1 hid
    simp only [Option.ite_none_right_eq_some, Option.isNone_iff_eq_none, Option.some.injEq] at hnone
    obtain ⟨hnone, rfl⟩ := hnone
    exact ⟨sub, Grammar.mem_subLexemes_iff.1 hmem, hnone⟩
  · rintro ⟨sub, hsub, hnone⟩
    refine List.mem_filterMap.2 ⟨(id, sub), Grammar.mem_subLexemes_iff.2 hsub, ?_⟩
    simp [hnone]

theorem start_lt_of_mem_lookup {word : List Char} {found : StemMatch}
    (hfound : found ∈ index.lookup word 0) : found.start < word.length := by
  obtain ⟨m, hm, hvalue⟩ := List.mem_filterMap.1 hfound
  obtain ⟨entry, -, rfl⟩ := Option.map_eq_some_iff.1 hvalue
  obtain ⟨-, hlt, -⟩ :=
    Transducer.start_mem_range_of_mem_matchesOf (Transducer.isStart_search 0 0 word) hm
  exact hlt

/-- A stem is found wherever the word has its key. -/
theorem mem_lookup_of_keyAt (hbuild : build g limit = .ok index) {word : List Char}
    (hcompletes : index.completes word 0 = true) {sub : SubLexeme} {key : List Char}
    {entry : StemEntry} (hsub : g.subLexeme? id = some sub)
    (hkey : keyOf? limit id sub = some (key, entry)) {start : Nat} (hstart : start < word.length)
    (hat : KeyAt key (word.drop start)) :
    ∃ found ∈ index.lookup word 0, found.entry = entry ∧ found.start = start ∧
      found.segment.length = key.length ∧ found.edits = [] := by
  have hs := stores_keys hbuild
  -- Stems may share a key, so an entry is known by its number in the trie.
  obtain ⟨n, hn⟩ := List.getElem?_of_mem (mem_entries hsub hkey)
  have hsearch := Transducer.isStart_search 0 0 word
  obtain ⟨m, hm, hfirst, hvalue, hlength⟩ := hs.exists_mem_matchesOf hsearch hcompletes hn
    (Nat.zero_le _) hstart hstart.le hat
  obtain ⟨hedits, -⟩ := hs.exact_of_mem_matchesOf hsearch rfl hm
  refine ⟨⟨entry, m.start, m.stop, m.segment, m.edits⟩, ?_, rfl, hfirst, hlength, hedits⟩
  refine List.mem_filterMap.2 ⟨m, hm, ?_⟩
  rw [hs.getElem?_values, hvalue, hn]
  rfl

end StemIndex

/-- A stem stands in a word where this has its key, of at most `limit` characters. -/
def Grammar.Places (g : Grammar) (limit : Nat) (word : List Char) (p : Placement) : Prop :=
  ∃ sub key, g.subLexeme? p.sub = some sub ∧
    StemIndex.keyOf? limit p.sub sub = some (key, ⟨p.sub, p.patternStart⟩) ∧
    p.wordStart < word.length ∧ KeyAt key (word.drop p.wordStart) ∧
    p = ⟨word, p.sub, sub.pattern, p.wordStart, p.patternStart, key.length⟩

/-- The placements without edits are where the word has the keys. -/
theorem Analyzer.mem_placements_iff {g : Grammar} {config : ParserConfig} {a : Analyzer}
    (hbuild : build g config = .ok a) {word : List Char} {p : Placement}
    (hcompletes : a.stems.completes word 0 = true) :
    p ∈ a.placements word 0 ↔ g.Places config.maxStemStartLen word p := by
  constructor
  · intro hp
    obtain ⟨sub, key, hsub, hkey, hat, heq⟩ := key_of_mem_placements hbuild hp
    obtain ⟨found, hfound, hplace⟩ := List.mem_filterMap.1 hp
    obtain ⟨hlookup, -⟩ := List.mem_filter.1 hfound
    obtain ⟨sub', -, hplace⟩ := Option.map_eq_some_iff.1 hplace
    have hstart : p.wordStart < word.length := by
      rw [← hplace]
      exact StemIndex.start_lt_of_mem_lookup hlookup
    exact ⟨sub, key, hsub, hkey, hstart, hat, heq⟩
  · rintro ⟨sub, key, hsub, hkey, hstart, hat, heq⟩
    obtain ⟨stems, -, -, hstems, -, -, rfl, -⟩ := build_eq_ok hbuild
    obtain ⟨found, hfound, hentry, hfirst, hlength, hedits⟩ :=
      StemIndex.mem_lookup_of_keyAt hstems hcompletes hsub hkey hstart hat
    -- Only corrected stems need a certain length.
    refine List.mem_filterMap.2 ⟨found, List.mem_filter.2 ⟨hfound, by simp⟩, ?_⟩
    rw [placement?, grammar, grammar_of_build hbuild, hentry, hsub, hfirst, hlength, hedits, heq]
    rfl

/-! ## Incorporated stems -/

namespace IncorporationIndex

variable {g : Grammar} {index : IncorporationIndex} {word : List Char} {pos : Nat}
  {id : SubLexemeId} {length : Nat}

/-- Whether no look-up of the incorporated stems in a text is given up. -/
def completes (index : IncorporationIndex) (text : List Char) : Bool :=
  (List.range (text.length + 1)).all fun pos => index.keys.completes (.anchored pos text)

theorem completes_anchored {text : List Char} (h : index.completes text = true)
    (hpos : pos ≤ text.length) : index.keys.completes (.anchored pos text) = true :=
  List.all_eq_true.1 h pos (List.mem_range.2 (Nat.lt_succ_of_le hpos))

/-- A stem is found where the word has its incorporated form. -/
theorem mem_at?_iff (hbuild : build g = .ok index) (hpos : pos ≤ word.length)
    (hcompletes : index.keys.completes (.anchored pos word) = true) :
    (id, length) ∈ index.at? word pos ↔ ∃ sub key, g.subLexeme? id = some sub ∧
      keyOf? id sub = some (key, id, length) ∧ KeyAt key (word.drop pos) := by
  unfold build at hbuild
  obtain ⟨keys, hkeys, h⟩ := bind_eq_ok_iff.1 hbuild
  obtain rfl := Except.ok.inj h
  obtain ⟨-, hvalues, -⟩ := Transducer.exact_lookup hkeys word
  rw [at?, (hvalues pos hpos hcompletes).mem_iff, List.mem_map]
  constructor
  · rintro ⟨⟨key, entry⟩, hentry, rfl⟩
    obtain ⟨hentry, hat⟩ := List.mem_filter.1 hentry
    obtain ⟨⟨id', sub⟩, hsub, hkey⟩ := List.mem_filterMap.1 hentry
    obtain ⟨rfl, -⟩ := keyOf?_eq_some_iff.1 hkey
    exact ⟨sub, key, Grammar.mem_subLexemes_iff.1 hsub, hkey, by simpa using hat⟩
  · rintro ⟨sub, key, hsub, hkey, hat⟩
    refine ⟨(key, id, length), List.mem_filter.2 ⟨?_, by simpa using hat⟩, rfl⟩
    exact List.mem_filterMap.2 ⟨(id, sub), Grammar.mem_subLexemes_iff.2 hsub, hkey⟩

end IncorporationIndex

end Morphology
