import Morphology.Proofs.Transducer.Building
import Morphology.Proofs.Transducer.Traversal

/-!
# Looking keys up without edits

Without edits a key is found wherever the text has it, wildcards of the text agreeing with every
character of the key, and what is found is as long as its key.

## Main definitions

* `KeyAt` — a text begins with a key

## Main statements

* `Transducer.Stores.mem_valuesAt` — the value of a key that the text has at a place
* `Transducer.Stores.exists_mem_matchesOf` — the match of a key that the text has at a place
* `Transducer.Stores.exact_of_mem_matchesOf` — a match without edits has the length of its key
-/

namespace Morphology

universe u

/-- A text begins with a key; its wildcards agree with every character. -/
def KeyAt : (key text : List Char) → Prop
  | [], _ => True
  | _ :: _, [] => False
  | c :: key, d :: text => (d = c ∨ d = wildcard) ∧ KeyAt key text

theorem KeyAt.refl_append (key text : List Char) : KeyAt key (key ++ text) := by
  induction key with
  | nil => trivial
  | cons c key ih => exact ⟨.inl rfl, ih⟩

namespace Transducer

open Traversal (Comes Reports)

variable {α : Type u} {t : Transducer α} {entries : List (List Char × α)} {input key : List Char}
  {n pos : Nat} {x : α}

/-! ## Down the trie -/

/-- A key that the text has, in the sense of `KeyAt`, is read without edits. -/
theorem exists_visits_of_keyAt (maxEdits : Nat) {f : Frame} {symbols : List Nat}
    (hsymbols : key.mapM t.alphabet.number? = some symbols) (hn : n ∈ f.node.find symbols)
    (hkey : KeyAt key (input.drop f.pos)) :
    ∃ f', Visits t input maxEdits f f' ∧ n ∈ f'.node.values ∧ f'.pos = f.pos + key.length ∧
      f'.segment.length = f.segment.length + key.length := by
  induction key generalizing f symbols with
  | nil =>
    obtain rfl : [] = symbols := by simpa using hsymbols
    exact ⟨f, .refl, hn, rfl, rfl⟩
  | cons c key ih =>
    simp only [List.mapM_cons, Option.bind_eq_bind, Option.bind_eq_some_iff] at hsymbols
    obtain ⟨s, hs, rest, hrest, heq⟩ := hsymbols
    obtain rfl : s :: rest = symbols := Option.some.inj heq
    cases hdrop : input.drop f.pos with
    | nil => simp [hdrop, KeyAt] at hkey
    | cons d text =>
      rw [hdrop] at hkey
      -- The text goes on with `d`, and behind it with the rest of the key.
      have hd : input[f.pos]? = some d := by
        have := congrArg (·[0]?) hdrop
        simpa using this
      have hnext : input.drop (f.pos + 1) = text := by
        have := congrArg List.tail hdrop
        simpa using this
      cases hchild : f.node.child? s with
      | none => simp [Trie.find, hchild] at hn
      | some node =>
        simp only [Trie.find, hchild] at hn
        -- A wildcard of the text goes down every arc, that of the key among them.
        have hread : Reads t input maxEdits f (f.advance node 1 [d] none) := by
          by_cases hwild : d = wildcard
          · subst hwild
            exact .wild hd (Trie.mem_arcs_of_child? hchild)
          · obtain rfl : d = c := hkey.1.resolve_right hwild
            exact .exact hd hwild hs hchild
        obtain ⟨f', hvisits, hvalue, hpos, hsegment⟩ :=
          ih (f := f.advance node 1 [d] none) hrest hn (by
            show KeyAt key (input.drop (f.pos + 1))
            rw [hnext]
            exact hkey.2)
        refine ⟨f', .head hread hvisits, hvalue, ?_, ?_⟩
        · rw [hpos]
          simp only [Frame.advance, List.length_cons]
          omega
        · rw [hsegment]
          simp only [Frame.advance, List.length_append, List.length_cons, List.length_nil]
          omega

/-- A frame that is visited without edits: its node is that of the characters read. -/
structure IsExact (t : Transducer α) (input : List Char) (f : Frame) : Prop where
  edits : f.edits = []
  segment : f.pos = f.start + f.segment.length
  length : f.pos ≤ input.length
  ordered : f.node.Ordered
  path : ∃ symbols, f.pos = f.start + symbols.length ∧
    ∀ rest, t.root.find (symbols ++ rest) = f.node.find rest

theorem IsExact.root (hordered : t.root.Ordered) {start : Nat} (hstart : start ≤ input.length) :
    IsExact t input (.root t.root start) where
  edits := rfl
  segment := rfl
  length := hstart
  ordered := hordered
  path := ⟨[], rfl, fun _ => rfl⟩

theorem IsExact.child {f : Frame} {s : Nat} {node : Trie} {c : Char} (h : IsExact t input f)
    (hc : input[f.pos]? = some c) (hnode : f.node.child? s = some node) :
    IsExact t input (f.advance node 1 [c] none) where
  edits := h.edits
  segment := by
    have := h.segment
    simp only [Frame.advance, List.length_append, List.length_singleton]
    omega
  length := (List.getElem?_eq_some_iff.1 hc).1
  ordered := h.ordered.child (Trie.mem_arcs_of_child? hnode)
  path := by
    -- The path to the child is the path to the node and the symbol of the character.
    obtain ⟨symbols, hpos, hfind⟩ := h.path
    refine ⟨symbols ++ [s], ?_, fun rest => ?_⟩
    · simp only [Frame.advance, List.length_append, List.length_singleton]
      omega
    · rw [List.append_assoc, hfind]
      simp [Trie.find, hnode, Frame.advance]

theorem IsExact.reads {f f' : Frame} (h : IsExact t input f) (hread : Reads t input 0 f f') :
    IsExact t input f' := by
  cases hread with
  | exact hc _ _ hnode => exact h.child hc hnode
  | wild hc hnode => exact h.child hc (h.ordered.child?_of_mem hnode)
  | substitute hedits | delete hedits | insert hedits | transpose hedits =>
    exact absurd hedits (Nat.not_lt_zero _)

/-! ## Found keys -/

namespace Stores

/-- A match without edits has the length of its key, and is part of the text: `IsExact` holds of
every frame that `matchesOf` visits. -/
theorem exact_of_mem_matchesOf (hs : t.Stores entries) {tr : Traversal} (hstart : IsStart tr)
    (hedits : tr.maxEdits = 0) {m : KeyMatch} (hm : m ∈ t.matchesOf tr) :
    m.edits = [] ∧ m.stop ≤ tr.input.length ∧ m.stop = m.start + m.segment.length ∧
      ∃ key x, entries[m.value]? = some (key, x) ∧ m.stop = m.start + key.length := by
  obtain ⟨f, v, hcomes, hv, rfl⟩ := found_of_mem_matchesOf hstart hm
  have hvisits := hcomes.visits
  rw [hedits] at hvisits
  have hexact : IsExact t tr.input f :=
    hvisits.keeps (fun _ _ h hread => h.reads hread) (.root hs.ordered hcomes.length)
  -- The value is found along the path of the frame, so the key has as many symbols.
  obtain ⟨symbols, hpos, hfind⟩ := hexact.path
  have hmem : v ∈ t.root.find (symbols ++ []) := by
    rw [hfind]
    exact hv
  obtain ⟨key, x, hentry, hkey⟩ := (hs.find _ _).1 hmem
  refine ⟨hexact.edits, hexact.length, hexact.segment, key, x, hentry, ?_⟩
  have hlen := Alphabet.length_of_mapM_number? hkey
  rw [List.append_nil] at hlen
  show f.pos = f.start + key.length
  omega

/-- A key that the text has at a place is found there by a traversal that `completes`. -/
theorem exists_mem_matchesOf (hs : t.Stores entries) {tr : Traversal} (hstart : IsStart tr)
    (hcompletes : t.completes tr = true) (hentry : entries[n]? = some (key, x))
    (hfirst : tr.nextStart ≤ pos) (hlimit : pos < tr.startLimit) (hpos : pos ≤ tr.input.length)
    (hkey : KeyAt key (tr.input.drop pos)) :
    ∃ m ∈ t.matchesOf tr, m.start = pos ∧ m.value = n ∧ m.segment.length = key.length := by
  obtain ⟨symbols, hsymbols⟩ := hs.known key x (List.mem_of_getElem? hentry)
  have hn : n ∈ t.root.find symbols := (hs.find symbols n).2 ⟨key, x, hentry, hsymbols⟩
  -- The key is read from the root without edits, so the match has its length.
  obtain ⟨f, hvisits, hv, -, hsegment⟩ := exists_visits_of_keyAt
    tr.maxEdits (f := .root t.root pos) hsymbols hn hkey
  have hfstart : f.start = pos := hvisits.start_eq
  have hcomes : Comes t tr tr.nextStart f := by
    refine ⟨?_, ?_, ?_, ?_⟩ <;> rw [hfstart] <;> assumption
  have hweight : t.root.weight ≤ t.values.size := by
    rw [hs.weight, hs.size_values]
  obtain ⟨m, hm, hreports⟩ := Transducer.exists_mem_matchesOf hstart hweight hcompletes hcomes hv
  refine ⟨m, hm, hreports.start.trans hfstart, hreports.value, ?_⟩
  rw [hreports.segment, hsegment]
  simp [Frame.root]

/-- The value of a key that the text has at a place. -/
theorem mem_valuesAt (hs : t.Stores entries) (hentry : (key, x) ∈ entries)
    (hcompletes : t.completes (.anchored pos input) = true) (hpos : pos ≤ input.length)
    (hkey : KeyAt key (input.drop pos)) : x ∈ t.valuesAt input pos := by
  obtain ⟨n, hn⟩ := List.getElem?_of_mem hentry
  obtain ⟨m, hm, -, hvalue, -⟩ := hs.exists_mem_matchesOf (isStart_anchored pos input) hcompletes hn
    (Nat.le_refl pos) (Nat.lt_succ_self pos) hpos hkey
  refine List.mem_filterMap.2 ⟨m, hm, ?_⟩
  rw [hvalue, hs.getElem?_values, hn]
  rfl

/-- The values found at a place are those of keys that end in the text. -/
theorem exists_key_of_mem_valuesAt (hs : t.Stores entries) (hx : x ∈ t.valuesAt input pos) :
    ∃ key, (key, x) ∈ entries ∧ pos + key.length ≤ input.length := by
  obtain ⟨m, hm, hvalue⟩ := List.mem_filterMap.1 hx
  have hstart := isStart_anchored pos input
  obtain ⟨-, hstop, -, key, x', hentry, hlen⟩ := hs.exact_of_mem_matchesOf hstart rfl hm
  obtain ⟨f, v, hcomes, -, rfl⟩ := found_of_mem_matchesOf hstart hm
  have hfirst : pos ≤ f.start := hcomes.first
  rw [hs.getElem?_values, hentry] at hvalue
  obtain rfl : x' = x := Option.some.inj hvalue
  refine ⟨key, List.mem_of_getElem? hentry, ?_⟩
  simp only [Traversal.matchOf, Traversal.anchored] at hstop hlen
  omega

end Stores

end Transducer

end Morphology
