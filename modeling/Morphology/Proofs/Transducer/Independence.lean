import Morphology.Proofs.Transducer.Corrections

/-!
# One key among others

How a key is found in a text depends on the other keys in one thing only: whether any of them goes
on behind it.  Edits are made where a node has arcs, and a node on the way to the end of a key
always has; at the end, characters of the text are dropped just if a longer key goes on there.
Hence further keys may lengthen the matches of a key by dropped characters, but do nothing else to
them.

## Main definitions

* `Trie.descend?` — the node under a key
* `Transducer.goesOn` — whether a longer key goes on behind a key
* `KeyReading` — a key being read in a text, without a trie
* `KeyReading.Step` — a reading is one step further
* `Transducer.Mirrors` — a frame stands where a key is being read
* `Transducer.HasMatch`, `Transducer.SameMatches` — a match of a text, without its edits

## Main statements

* `Transducer.Stores.hasMatch_iff` — what is found of a key, said of the key alone
* `Transducer.matches_of_more_keys` — the matches of a key beside further keys
* `Transducer.not_sameMatches_of_longerKey` — a match that only a further key makes possible
-/

namespace Morphology

universe u

/-! ## Nodes under keys -/

namespace Trie

/-- The node under a key. -/
def descend? (t : Trie) : List Nat → Option Trie
  | [] => some t
  | s :: key => (t.child? s).bind (·.descend? key)

variable {t node : Trie} {key : List Nat}

theorem descend?_concat (h : t.descend? key = some node) (s : Nat) :
    t.descend? (key ++ [s]) = node.child? s := by
  induction key generalizing t with
  | nil =>
    obtain rfl : t = node := Option.some.inj h
    simp [descend?]
  | cons s' key ih =>
    obtain ⟨child, hchild, h⟩ := Option.bind_eq_some_iff.1 h
    rw [List.cons_append, descend?, hchild, Option.bind_some, ih h]

/-- What is found under a key is found from the nodes on the way to it. -/
theorem find_of_descend? (h : t.descend? key = some node) (rest : List Nat) :
    t.find (key ++ rest) = node.find rest := by
  induction key generalizing t with
  | nil => exact congrArg (·.find rest) (Option.some.inj h)
  | cons s key ih =>
    obtain ⟨child, hchild, h⟩ := Option.bind_eq_some_iff.1 h
    rw [List.cons_append, find, hchild]
    exact ih h

theorem Ordered.descend? (ht : t.Ordered) (h : t.descend? key = some node) : node.Ordered := by
  induction key generalizing t with
  | nil => exact Option.some.inj h ▸ ht
  | cons s key ih =>
    obtain ⟨child, hchild, h⟩ := Option.bind_eq_some_iff.1 h
    exact ih (ht.child (mem_arcs_of_child? hchild)) h

theorem alterArc_ne_nil (s : Nat) (f : Trie → Trie) (arcs : List (Nat × Trie)) :
    alterArc s f arcs ≠ [] := by
  cases arcs with
  | nil => simp [alterArc]
  | cons a rest =>
    obtain ⟨s', t⟩ := a
    simp only [alterArc]
    split
    · simp
    · split <;> simp

/-- A node with arcs keeps some, whatever is put into the trie. -/
theorem exists_descend?_alter (ht : t.Ordered) (h : t.descend? key = some node)
    (harcs : node.arcs ≠ []) (f : List Nat → List Nat) (changed : List Nat) :
    ∃ node', (t.alter f changed).descend? key = some node' ∧ node'.arcs ≠ [] := by
  induction key generalizing t changed with
  | nil =>
    -- The changed place is the node itself or lies behind it.
    obtain rfl : t = node := Option.some.inj h
    cases changed with
    | nil => exact ⟨_, rfl, harcs⟩
    | cons s changed => exact ⟨_, rfl, Trie.alterArc_ne_nil s _ _⟩
  | cons s key ih =>
    cases changed with
    -- The changed place is in front of the node, which stays.
    | nil => exact ⟨node, h, harcs⟩
    | cons s' changed =>
      obtain ⟨child, hchild, h⟩ := Option.bind_eq_some_iff.1 h
      have hlookup : (t.alter f (s' :: changed)).child? s =
          if s = s' then some ((t.arcs.lookup s').getD .empty |>.alter f changed)
          else t.child? s :=
        lookup_alterArc ht.sorted s
      -- The two ways share an arc or part here.
      by_cases hs : s = s'
      · subst hs
        obtain ⟨node', hnode', harcs'⟩ := ih (ht.child (mem_arcs_of_child? hchild)) h changed
        have hold : t.arcs.lookup s = some child := hchild
        refine ⟨node', ?_, harcs'⟩
        rw [Trie.descend?, hlookup, if_pos rfl, hold]
        exact hnode'
      · -- On another arc nothing is changed.
        refine ⟨node, ?_, harcs⟩
        rw [Trie.descend?, hlookup, if_neg hs, hchild]
        exact h

end Trie

/-! ## Reading a key -/

/-- A key being read in a text. -/
structure KeyReading where
  pos : Nat
  /-- The text read, after corrections. -/
  segment : List Char
  kinds : List EditKind
  /-- The characters of the key that are not read yet. -/
  rest : List Char

namespace KeyReading

/-- The reading after `consumed` characters are read as `emitted`, perhaps by an edit. -/
def advance (r : KeyReading) (rest : List Char) (consumed : Nat) (emitted : List Char)
    (kind : Option EditKind) : KeyReading :=
  ⟨r.pos + consumed, r.segment ++ emitted, r.kinds ++ kind.toList, rest⟩

/-- A reading is one step further.  At the end of the key characters are dropped if a longer key
goes on. -/
inductive Step (input : List Char) (maxEdits : Nat) (goesOn : Prop) (r : KeyReading) :
    KeyReading → Prop
  | exact {c : Char} {rest : List Char} (hc : input[r.pos]? = some c) (hplain : c ≠ wildcard)
      (hrest : r.rest = c :: rest) : Step input maxEdits goesOn r (r.advance rest 1 [c] none)
  | wild {b : Char} {rest : List Char} (hc : input[r.pos]? = some wildcard)
      (hrest : r.rest = b :: rest) : Step input maxEdits goesOn r (r.advance rest 1 [wildcard] none)
  | substitute {b c : Char} {rest : List Char} (hedits : r.kinds.length < maxEdits)
      (hc : input[r.pos]? = some c) (hplain : c ≠ wildcard) (hrest : r.rest = b :: rest)
      (hother : b ≠ c) :
      Step input maxEdits goesOn r (r.advance rest 1 [wildcard] (some .substitute))
  | delete (hedits : r.kinds.length < maxEdits) (hmore : r.rest ≠ [] ∨ goesOn)
      (hpos : r.pos < input.length) (hsegment : r.segment ≠ [])
      (hlast : r.kinds.getLast? ≠ some .insert) :
      Step input maxEdits goesOn r (r.advance r.rest 1 [] (some .delete))
  | insert {b : Char} {rest : List Char} (hedits : r.kinds.length < maxEdits)
      (hlast : r.kinds.getLast? ≠ some .delete) (hrest : r.rest = b :: rest) :
      Step input maxEdits goesOn r (r.advance rest 0 [wildcard] (some .insert))
  | transpose {c d : Char} {rest : List Char} (hedits : r.kinds.length < maxEdits)
      (hc : input[r.pos]? = some c) (hd : input[r.pos + 1]? = some d)
      (hrest : r.rest = d :: c :: rest) (hne : d ≠ c) :
      Step input maxEdits goesOn r (r.advance rest 2 [d, c] (some .transpose))

/-- A reading is some steps further. -/
def Reads (input : List Char) (maxEdits : Nat) (goesOn : Prop) : KeyReading → KeyReading → Prop :=
  Relation.ReflTransGen (Step input maxEdits goesOn)

/-- The beginning of a key that is read from a place on. -/
def start (key : List Char) (pos : Nat) : KeyReading := ⟨pos, [], [], key⟩

variable {input : List Char} {maxEdits : Nat} {goesOn goesOn' : Prop} {r r' r₀ : KeyReading}

/-- A longer key matters to a step at the end of the key only. -/
theorem Step.congr (h : Step input maxEdits goesOn r r')
    (hmore : r.rest ≠ [] ∨ goesOn → r.rest ≠ [] ∨ goesOn') : Step input maxEdits goesOn' r r' := by
  cases h with
  | exact hc hplain hrest => exact .exact hc hplain hrest
  | wild hc hrest => exact .wild hc hrest
  | substitute hedits hc hplain hrest hother => exact .substitute hedits hc hplain hrest hother
  | delete hedits hgo hpos hsegment hlast => exact .delete hedits (hmore hgo) hpos hsegment hlast
  | insert hedits hlast hrest => exact .insert hedits hlast hrest
  | transpose hedits hc hd hrest hne => exact .transpose hedits hc hd hrest hne

theorem Step.length_kinds_le (h : Step input maxEdits goesOn r r')
    (hr : r.kinds.length ≤ maxEdits) :
    r'.kinds.length ≤ maxEdits := by
  cases h with
  | exact | wild => simpa [advance] using hr
  | substitute hedits | delete hedits | insert hedits | transpose hedits =>
    simpa [advance] using Nat.succ_le_of_lt hedits

namespace Reads

/-- What is read where no longer key goes on, is read as well where one does. -/
theorem mono (h : Reads input maxEdits goesOn r r') (himp : goesOn → goesOn') :
    Reads input maxEdits goesOn' r r' :=
  Relation.ReflTransGen.mono (fun _ _ hstep => hstep.congr (Or.imp_right himp)) _ _ h

theorem length_kinds_le (h : Reads input maxEdits goesOn r r') (hr : r.kinds.length ≤ maxEdits) :
    r'.kinds.length ≤ maxEdits := by
  induction h with
  | refl => exact hr
  | tail _ hstep ih => exact hstep.length_kinds_le ih

end Reads

/-- Characters are dropped at the end of a key, each by an edit. -/
structure DropsBehind (r r' : KeyReading) : Prop where
  rest : r'.rest = r.rest
  segment : r'.segment = r.segment
  pos : r.pos < r'.pos
  edits : r'.pos + r.kinds.length = r.pos + r'.kinds.length

theorem DropsBehind.trans (h : DropsBehind r₀ r) (h' : DropsBehind r r') : DropsBehind r₀ r' where
  rest := h'.rest.trans h.rest
  segment := h'.segment.trans h.segment
  pos := h.pos.trans h'.pos
  edits := by
    have := h.edits
    have := h'.edits
    omega

/-- At the end of a key nothing can be read any more. -/
theorem Step.dropsBehind (h : Step input maxEdits goesOn r r') (hrest : r.rest = []) :
    r'.rest = [] ∧ DropsBehind r r' := by
  cases h with
  | delete =>
    refine ⟨hrest, rfl, by simp [advance], by simp [advance], ?_⟩
    simp only [advance, List.length_append, Option.toList_some, List.length_singleton]
    omega
  | exact _ _ hcons | wild _ hcons | substitute _ _ _ hcons | insert _ _ hcons
    | transpose _ _ _ hcons => exact absurd (hrest.symm.trans hcons) (by simp)

/-- A longer key only makes it possible to drop characters behind what is read without one. -/
theorem Reads.withoutLonger (h : Reads input maxEdits goesOn r₀ r) :
    Reads input maxEdits False r₀ r ∨
      r.rest = [] ∧ ∃ r', Reads input maxEdits False r₀ r' ∧ DropsBehind r' r := by
  induction h with
  | refl => exact .inl .refl
  | @tail r r'' _ hstep ih =>
    rcases ih with hreads | ⟨hrest, r', hreads, hdrops⟩
    · by_cases hrest : r.rest = []
      · obtain ⟨hend, hdrops⟩ := hstep.dropsBehind hrest
        exact .inr ⟨hend, r, hreads, hdrops⟩
      · exact .inl (hreads.tail (hstep.congr fun _ => .inl hrest))
    · obtain ⟨hend, hdrops'⟩ := hstep.dropsBehind hrest
      exact .inr ⟨hend, r', hreads, hdrops.trans hdrops'⟩

/-- To the end of a key the text is read in the same way whether or not a longer key goes on, but
for characters that are dropped at the end. -/
theorem Reads.cases_goesOn {key segment : List Char} {kinds : List EditKind} {first stop : Nat}
    (h : (start key first).Reads input maxEdits goesOn ⟨stop, segment, kinds, []⟩)
    (goesOn' : Prop) :
    (start key first).Reads input maxEdits goesOn' ⟨stop, segment, kinds, []⟩ ∨
      ¬ goesOn' ∧ goesOn ∧ ∃ stop' kinds', stop' < stop ∧ stop ≤ stop' + maxEdits ∧
        (start key first).Reads input maxEdits goesOn' ⟨stop', segment, kinds', []⟩ := by
  by_cases himp : goesOn → goesOn'
  · exact .inl (h.mono himp)
  · obtain ⟨hgo, hnot⟩ := Classical.not_imp.1 himp
    rcases h.withoutLonger with hreads | ⟨-, r', hreads, hdrops⟩
    · -- Nothing is dropped behind the key.
      exact .inl (hreads.mono False.elim)
    · -- What is dropped costs an edit for each character, and there are `maxEdits` at most.
      have hkinds := hreads.length_kinds_le (Nat.zero_le _)
      have hkinds' := h.length_kinds_le (Nat.zero_le _)
      obtain ⟨hrest, hsegment, hpos, hedits⟩ := hdrops
      obtain ⟨pos', segment', kinds', rest'⟩ := r'
      obtain rfl : [] = rest' := hrest
      obtain rfl : segment = segment' := hsegment
      simp only at hpos hedits hkinds hkinds'
      exact .inr ⟨hnot, hgo, pos', kinds', hpos, by omega, hreads.mono False.elim⟩

end KeyReading

/-! ## Readings and frames -/

namespace Transducer

open Traversal (Comes Reports)

variable {α : Type u} {t : Transducer α} {entries : List (List Char × α)}
  {input key rest : List Char}
  {maxEdits n s : Nat} {f f' : Frame} {r r' : KeyReading} {node child : Trie} {x : α}

/-- A node is on the way to the end of a key, with a rest of the key before it. -/
def OnWay (t : Transducer α) (key : List Char) (node : Trie) (rest : List Char) : Prop :=
  ∃ front symbols, key = front ++ rest ∧ front.mapM t.alphabet.number? = some symbols ∧
    t.root.descend? symbols = some node

/-- Whether a longer key goes on behind a key. -/
def goesOn (t : Transducer α) (key : List Char) : Bool :=
  ((key.mapM t.alphabet.number?).bind t.root.descend?).any (!·.arcs.isEmpty)

theorem goesOn_iff : t.goesOn key = true ↔ ∃ symbols node,
    key.mapM t.alphabet.number? = some symbols ∧ t.root.descend? symbols = some node ∧
      node.arcs ≠ [] := by
  simp only [goesOn, Option.any_eq_true, Option.bind_eq_some_iff, Bool.not_eq_true',
    List.isEmpty_eq_false_iff]
  constructor
  · rintro ⟨node, ⟨symbols, hsymbols, hnode⟩, harcs⟩
    exact ⟨symbols, node, hsymbols, hnode, harcs⟩
  · rintro ⟨symbols, node, hsymbols, hnode, harcs⟩
    exact ⟨node, ⟨symbols, hsymbols, hnode⟩, harcs⟩

/-- The symbols of a key behind those of its front. -/
private theorem mapM_append_cons_iff {number? : Char → Option Nat} {front : List Char} {c : Char}
    {symbols all : List Nat} (hfront : front.mapM number? = some symbols) :
    (front ++ c :: rest).mapM number? = some all ↔ ∃ s more, number? c = some s ∧
      rest.mapM number? = some more ∧ all = symbols ++ s :: more := by
  rw [List.mapM_append, List.mapM_cons, hfront]
  cases number? c with
  | none => simp
  | some s =>
    cases rest.mapM number? with
    | none => simp
    | some more => simp [eq_comm]

theorem onWay_root (t : Transducer α) (key : List Char) : t.OnWay key t.root key :=
  ⟨[], [], rfl, rfl, rfl⟩

namespace OnWay

theorem ordered (h : t.OnWay key node rest) (hs : t.Stores entries) : node.Ordered := by
  obtain ⟨_, _, _, _, hnode⟩ := h
  exact hs.ordered.descend? hnode

/-- The next character of the key leads to a child. -/
theorem down (hs : t.Stores entries) (hentry : entries[n]? = some (key, x)) {c : Char}
    (h : t.OnWay key node (c :: rest)) :
    ∃ s child, t.alphabet.number? c = some s ∧ node.child? s = some child ∧
      t.OnWay key child rest := by
  obtain ⟨front, symbols, rfl, hfront, hnode⟩ := h
  obtain ⟨all, hall⟩ := hs.known _ x (List.mem_of_getElem? hentry)
  -- The value of the key is found on the way of its symbols, and the node stands on it.
  have hn : n ∈ t.root.find all := (hs.find all n).2 ⟨_, x, hentry, hall⟩
  obtain ⟨s, more, hsymbol, -, rfl⟩ := (mapM_append_cons_iff hfront).1 hall
  rw [Trie.find_of_descend? hnode] at hn
  cases hchild : node.child? s with
  | none => simp [Trie.find, hchild] at hn
  | some child =>
    refine ⟨s, child, hsymbol, hchild, front ++ [c], symbols ++ [s], by simp, ?_, ?_⟩
    · simp [List.mapM_append, hfront, hsymbol]
    · rw [Trie.descend?_concat hnode, hchild]

/-- A child from which the value of the key is found is behind its next character. -/
theorem up (hs : t.Stores entries) (hentry : entries[n]? = some (key, x))
    (h : t.OnWay key node rest) (hchild : node.child? s = some child) {more : List Nat}
    (hn : n ∈ child.find more) :
    ∃ c rest', rest = c :: rest' ∧ t.alphabet.number? c = some s ∧ t.OnWay key child rest' := by
  obtain ⟨front, symbols, rfl, hfront, hnode⟩ := h
  have hn : n ∈ t.root.find (symbols ++ s :: more) := by
    rw [Trie.find_of_descend? hnode, Trie.find, hchild]
    exact hn
  -- The value is found on one way only, so the two spell one key.
  obtain ⟨key', x', hentry', hall⟩ := (hs.find _ _).1 hn
  obtain ⟨rfl, rfl⟩ := Prod.mk.inj (Option.some.inj (hentry'.symm.trans hentry))
  cases rest with
  | nil =>
    -- The key is at its end, but its symbols go on.
    have hlength := Alphabet.length_of_mapM_number? hall
    have hfront' := Alphabet.length_of_mapM_number? hfront
    simp [hfront'] at hlength
  | cons c rest =>
    obtain ⟨s', more', hsymbol, -, heq⟩ := (mapM_append_cons_iff hfront).1 hall
    obtain ⟨rfl, rfl⟩ := List.cons.inj (List.append_cancel_left heq)
    refine ⟨c, rest, rfl, hsymbol, front ++ [c], symbols ++ [s], by simp, ?_, ?_⟩
    · simp [List.mapM_append, hfront, hsymbol]
    · rw [Trie.descend?_concat hnode, hchild]

/-- A node on the way has arcs, unless it is at the end of a key that no longer one goes on
behind. -/
theorem arcs_ne_nil_iff (hs : t.Stores entries) (hentry : entries[n]? = some (key, x))
    (h : t.OnWay key node rest) : node.arcs ≠ [] ↔ rest ≠ [] ∨ t.goesOn key = true := by
  cases rest with
  | cons c rest =>
    -- A child leads on, so there is an arc.
    obtain ⟨s, child, -, hchild, -⟩ := h.down hs hentry
    simp [List.ne_nil_of_mem (Trie.mem_arcs_of_child? hchild)]
  | nil =>
    obtain ⟨front, symbols, rfl, hfront, hnode⟩ := h
    rw [List.append_nil, or_iff_right (by simp), goesOn_iff]
    -- Both speak of the node at the end of the key's symbols.
    constructor
    · exact fun harcs => ⟨symbols, node, hfront, hnode, harcs⟩
    · rintro ⟨symbols', node', hsymbols, hnode', harcs⟩
      obtain rfl : symbols = symbols' := Option.some.inj (hfront.symm.trans hsymbols)
      obtain rfl : node = node' := Option.some.inj (hnode.symm.trans hnode')
      exact harcs

end OnWay

/-- A frame stands where a key is being read. -/
structure Mirrors (t : Transducer α) (key : List Char) (f : Frame) (r : KeyReading) : Prop where
  pos : f.pos = r.pos
  segment : f.segment = r.segment
  kinds : f.edits.map (·.kind) = r.kinds
  onWay : t.OnWay key f.node r.rest

namespace Mirrors

theorem root (t : Transducer α) (key : List Char) (first : Nat) :
    t.Mirrors key (.root t.root first) (.start key first) :=
  ⟨rfl, rfl, rfl, t.onWay_root key⟩

theorem length_kinds (h : t.Mirrors key f r) : r.kinds.length = f.edits.length := by
  rw [← h.kinds, List.length_map]

theorem getLast?_kinds (h : t.Mirrors key f r) : r.kinds.getLast? = f.lastEdit? := by
  rw [← h.kinds, List.getLast?_map]
  rfl

theorem advance (h : t.Mirrors key f r) (honWay : t.OnWay key node rest) (consumed : Nat)
    (emitted : List Char) (kind : Option EditKind) :
    t.Mirrors key (f.advance node consumed emitted kind) (r.advance rest consumed emitted kind) where
  pos := congrArg (· + consumed) h.pos
  segment := congrArg (· ++ emitted) h.segment
  kinds := by
    cases kind with
    | none => simp [Frame.advance, KeyReading.advance, h.kinds]
    | some kind => simp [Frame.advance, KeyReading.advance, h.kinds]
  onWay := honWay

/-- A step of a reading is made by a frame. -/
theorem reads (hs : t.Stores entries) (hw : t.WellNumbered) (hentry : entries[n]? = some (key, x))
    (h : t.Mirrors key f r) (hstep : r.Step input maxEdits (t.goesOn key = true) r') :
    ∃ f', Reads t input maxEdits f f' ∧ t.Mirrors key f' r' := by
  have honWay {rest : List Char} (hrest : r.rest = rest) : t.OnWay key f.node rest :=
    hrest ▸ h.onWay
  cases hstep with
  | exact hc hplain hrest =>
    obtain ⟨s, child, hsymbol, hchild, hway⟩ := (honWay hrest).down hs hentry
    exact ⟨_, .exact (h.pos ▸ hc) hplain hsymbol hchild, h.advance hway ..⟩
  | wild hc hrest =>
    obtain ⟨s, child, -, hchild, hway⟩ := (honWay hrest).down hs hentry
    exact ⟨_, .wild (h.pos ▸ hc) (Trie.mem_arcs_of_child? hchild), h.advance hway ..⟩
  | substitute hedits hc hplain hrest hother =>
    -- Different characters have different symbols.
    obtain ⟨s, child, hsymbol, hchild, hway⟩ := (honWay hrest).down hs hentry
    exact ⟨_, .substitute (h.length_kinds ▸ hedits) (h.pos ▸ hc) hplain
      (Trie.mem_arcs_of_child? hchild) (fun heq => hother (hw.chars.injective hsymbol heq.symm)),
      h.advance hway ..⟩
  | delete hedits hmore hpos hsegment hlast =>
    exact ⟨_, .delete (h.length_kinds ▸ hedits) ((h.onWay.arcs_ne_nil_iff hs hentry).2 hmore)
      (h.pos ▸ hpos) (h.segment ▸ hsegment) (h.getLast?_kinds ▸ hlast), h.advance h.onWay ..⟩
  | insert hedits hlast hrest =>
    obtain ⟨s, child, -, hchild, hway⟩ := (honWay hrest).down hs hentry
    exact ⟨_, .insert (h.length_kinds ▸ hedits) (h.getLast?_kinds ▸ hlast)
      (Trie.mem_arcs_of_child? hchild), h.advance hway ..⟩
  | transpose hedits hc hd hrest hne =>
    obtain ⟨first, mid, hfirst, hmid, hway⟩ := (honWay hrest).down hs hentry
    obtain ⟨second, child, hsecond, hchild, hway⟩ := hway.down hs hentry
    -- Two arcs of one symbol would stand for one character.
    have hdiffer : first ≠ second := by
      rintro rfl
      exact hne (hw.chars.injective hfirst hsecond)
    exact ⟨_, .transpose (h.length_kinds ▸ hedits) (h.pos ▸ hc) (h.pos ▸ hd) hfirst hsecond hmid
      hchild hdiffer, h.advance hway ..⟩

/-- A frame that goes on to the value of the key makes a step of its reading. -/
theorem step (hs : t.Stores entries) (hw : t.WellNumbered) (hentry : entries[n]? = some (key, x))
    (h : t.Mirrors key f r) (hread : Reads t input maxEdits f f') {more : List Nat}
    (hn : n ∈ f'.node.find more) :
    ∃ r', r.Step input maxEdits (t.goesOn key = true) r' ∧ t.Mirrors key f' r' := by
  have hordered := h.onWay.ordered hs
  cases hread with
  | exact hc hplain hsymbol hchild =>
    obtain ⟨b, rest, hrest, hsymbol', hway⟩ := h.onWay.up hs hentry hchild hn
    obtain rfl := hw.chars.injective hsymbol hsymbol'
    exact ⟨_, .exact (h.pos ▸ hc) hplain hrest, h.advance hway ..⟩
  | wild hc hnode =>
    obtain ⟨b, rest, hrest, -, hway⟩ := h.onWay.up hs hentry (hordered.child?_of_mem hnode) hn
    exact ⟨_, .wild (h.pos ▸ hc) hrest, h.advance hway ..⟩
  | @substitute c _ _ hedits hc hplain hnode hother =>
    obtain ⟨b, rest, hrest, hsymbol, hway⟩ := h.onWay.up hs hentry (hordered.child?_of_mem hnode) hn
    have hne : b ≠ c := by
      rintro rfl
      exact hother hsymbol.symm
    exact ⟨_, .substitute (h.length_kinds ▸ hedits) (h.pos ▸ hc) hplain hrest hne,
      h.advance hway ..⟩
  | delete hedits harcs hpos hsegment hlast =>
    exact ⟨_, .delete (h.length_kinds ▸ hedits) ((h.onWay.arcs_ne_nil_iff hs hentry).1 harcs)
      (h.pos ▸ hpos) (h.segment ▸ hsegment) (h.getLast?_kinds ▸ hlast), h.advance h.onWay ..⟩
  | insert hedits hlast hnode =>
    obtain ⟨b, rest, hrest, -, hway⟩ := h.onWay.up hs hentry (hordered.child?_of_mem hnode) hn
    exact ⟨_, .insert (h.length_kinds ▸ hedits) (h.getLast?_kinds ▸ hlast) hrest,
      h.advance hway ..⟩
  | @transpose c d first second mid node hedits hc hd hfirst hsecond hmid hnode hne =>
    have hn : n ∈ mid.find (second :: more) := by
      rw [Trie.find, hnode]
      exact hn
    obtain ⟨d', rest₁, hrest, hfirst', hwayMid⟩ := h.onWay.up hs hentry hmid hn
    rw [Trie.find, hnode] at hn
    obtain ⟨c', rest, rfl, hsecond', hway⟩ := hwayMid.up hs hentry hnode hn
    obtain rfl := hw.chars.injective hfirst hfirst'
    obtain rfl := hw.chars.injective hsecond hsecond'
    have hdiffer : d ≠ c := by
      rintro rfl
      exact hne (Option.some.inj (hfirst.symm.trans hsecond))
    exact ⟨_, .transpose (h.length_kinds ▸ hedits) (h.pos ▸ hc) (h.pos ▸ hd) hrest hdiffer,
      h.advance hway ..⟩

end Mirrors

theorem Reads.ordered (hread : Reads t input maxEdits f f') (hordered : f.node.Ordered) :
    f'.node.Ordered := by
  cases hread with
  | exact _ _ _ hchild => exact hordered.child (Trie.mem_arcs_of_child? hchild)
  | wild _ hnode | substitute _ _ _ hnode _ | insert _ _ hnode => exact hordered.child hnode
  | delete => exact hordered
  | transpose _ _ _ _ _ hmid hnode _ =>
    exact (hordered.child (Trie.mem_arcs_of_child? hmid)).child (Trie.mem_arcs_of_child? hnode)

/-- What is found from a node is found from those on the way to it. -/
theorem Reads.exists_find (hread : Reads t input maxEdits f f') (hordered : f.node.Ordered)
    {more : List Nat} (hn : n ∈ f'.node.find more) : ∃ more', n ∈ f.node.find more' := by
  have hup {s : Nat} {node child : Trie} {more : List Nat} (hchild : node.child? s = some child)
      (hn : n ∈ child.find more) : n ∈ node.find (s :: more) := by
    rwa [Trie.find, hchild]
  cases hread with
  | exact _ _ _ hchild => exact ⟨_, hup hchild hn⟩
  | wild _ hnode | substitute _ _ _ hnode _ | insert _ _ hnode =>
    exact ⟨_, hup (hordered.child?_of_mem hnode) hn⟩
  | delete => exact ⟨more, hn⟩
  | transpose _ _ _ _ _ hmid hnode _ => exact ⟨_, hup hmid (hup hnode hn)⟩

theorem Visits.exists_find (hvisits : Visits t input maxEdits f f') (hordered : f.node.Ordered)
    (hn : n ∈ f'.node.values) : ∃ more, n ∈ f.node.find more := by
  induction hvisits using Relation.ReflTransGen.head_induction_on with
  | refl => exact ⟨[], hn⟩
  | head hread _ ih =>
    obtain ⟨more, hmore⟩ := ih (hread.ordered hordered)
    exact hread.exists_find hordered hmore

namespace Mirrors

/-- Frames that are visited on the way to the value of a key read the key. -/
theorem of_visits (hs : t.Stores entries) (hw : t.WellNumbered)
    (hentry : entries[n]? = some (key, x)) (h : t.Mirrors key f r)
    (hvisits : Visits t input maxEdits f f') (hn : n ∈ f'.node.values) :
    ∃ r', r.Reads input maxEdits (t.goesOn key = true) r' ∧ t.Mirrors key f' r' := by
  induction hvisits using Relation.ReflTransGen.head_induction_on generalizing r with
  | refl => exact ⟨r, .refl, h⟩
  | head hread hvisits ih =>
    obtain ⟨more, hmore⟩ := Visits.exists_find hvisits (hread.ordered (h.onWay.ordered hs)) hn
    obtain ⟨r₁, hstep, h₁⟩ := h.step hs hw hentry hread hmore
    obtain ⟨r', hreads, h'⟩ := ih h₁
    exact ⟨r', .head hstep hreads, h'⟩

/-- A key that is read is read by frames. -/
theorem of_reads (hs : t.Stores entries) (hw : t.WellNumbered)
    (hentry : entries[n]? = some (key, x)) (h : t.Mirrors key f r)
    (hreads : r.Reads input maxEdits (t.goesOn key = true) r') :
    ∃ f', Visits t input maxEdits f f' ∧ t.Mirrors key f' r' := by
  induction hreads with
  | refl => exact ⟨f, .refl, h⟩
  | tail _ hstep ih =>
    obtain ⟨f₁, hvisits, h₁⟩ := ih
    obtain ⟨f', hread, h'⟩ := h₁.reads hs hw hentry hstep
    exact ⟨f', hvisits.tail hread, h'⟩

/-- The value of a key is at the end of the key and nowhere else on the way. -/
theorem mem_values_iff (hs : t.Stores entries) (hentry : entries[n]? = some (key, x))
    (h : t.Mirrors key f r) : n ∈ f.node.values ↔ r.rest = [] := by
  obtain ⟨front, symbols, hkey, hfront, hnode⟩ := h.onWay
  have hfind : t.root.find symbols = f.node.values := by
    rw [← List.append_nil symbols, Trie.find_of_descend? hnode]
    rfl
  rw [← hfind, hs.find]
  constructor
  · -- A key that is found has as many symbols as characters, so nothing is left of it.
    rintro ⟨key', x', hentry', hall⟩
    obtain ⟨rfl, rfl⟩ := Prod.mk.inj (Option.some.inj (hentry'.symm.trans hentry))
    have hlength := Alphabet.length_of_mapM_number? hall
    rw [Alphabet.length_of_mapM_number? hfront, hkey, List.length_append] at hlength
    exact List.eq_nil_of_length_eq_zero (by omega)
  · intro hrest
    rw [hrest, List.append_nil] at hkey
    exact ⟨key, x, hentry, hkey ▸ hfront⟩

end Mirrors

/-! ## Matches -/

/-- A match of a text, without its edits. -/
def HasMatch (t : Transducer α) (input : List Char) (maxEdits first stop n : Nat)
    (segment : List Char) : Prop :=
  (first, stop, n, segment) ∈ (t.lookup input maxEdits).map KeyMatch.identity

/-- What is found of a key depends on the key, and on whether a longer key goes on behind it. -/
theorem Stores.hasMatch_iff (hs : t.Stores entries) (hw : t.WellNumbered)
    (hcompletes : t.completes (.search maxEdits 0 input) = true)
    (hentry : entries[n]? = some (key, x)) (first stop : Nat) (segment : List Char) :
    t.HasMatch input maxEdits first stop n segment ↔ first < input.length ∧
      ∃ kinds, (KeyReading.start key first).Reads input maxEdits (t.goesOn key = true)
        ⟨stop, segment, kinds, []⟩ := by
  have hstart := isStart_search maxEdits 0 input
  constructor
  · -- A match is found at a node, whose way mirrors a reading of the key.
    intro hmatch
    obtain ⟨m, hm, heq⟩ := List.mem_map.1 hmatch
    obtain ⟨f, v, hcomes, hv, rfl⟩ := found_of_mem_matchesOf hstart hm
    simp only [KeyMatch.identity, Traversal.matchOf, Prod.mk.injEq] at heq
    obtain ⟨rfl, rfl, rfl, rfl⟩ := heq
    obtain ⟨r, hreads, hmirrors⟩ :=
      (Mirrors.root t key f.start).of_visits hs hw hentry hcomes.visits hv
    have hrest := (hmirrors.mem_values_iff hs hentry).1 hv
    refine ⟨hcomes.limit, r.kinds, ?_⟩
    rw [hmirrors.pos, hmirrors.segment, ← hrest]
    exact hreads
  · -- A reading of the whole key leads to a node with its value, and a search that completes
    -- reports it.
    rintro ⟨hfirst, kinds, hreads⟩
    obtain ⟨f, hvisits, hmirrors⟩ := (Mirrors.root t key first).of_reads hs hw hentry hreads
    have hv := (hmirrors.mem_values_iff hs hentry).2 rfl
    have hfstart : f.start = first := hvisits.start_eq
    have hcomes : Comes t (.search maxEdits 0 input) 0 f := by
      refine ⟨Nat.zero_le _, ?_, ?_, ?_⟩ <;> rw [hfstart]
      · exact hfirst
      · exact hfirst.le
      · exact hvisits
    have hweight : t.root.weight ≤ t.values.size := by
      rw [hs.weight, hs.size_values]
    obtain ⟨m, hm, hreports⟩ := Transducer.exists_mem_matchesOf hstart hweight hcompletes hcomes hv
    refine List.mem_map.2 ⟨m, hm, ?_⟩
    rw [KeyMatch.identity, hreports.start, hreports.stop, hreports.value, hreports.segment, hfstart,
      hmirrors.pos, hmirrors.segment]

/-! ## Further keys -/

namespace Draft

variable {d : Draft α}

theorem insertAll_append (d : Draft α) (entries more : List (List Char × α)) :
    d.insertAll (entries ++ more) = (d.insertAll entries).insertAll more :=
  List.foldl_append

theorem accepted_append (d : Draft α) (entries more : List (List Char × α)) :
    d.accepted (entries ++ more) = d.accepted entries ++ (d.insertAll entries).accepted more := by
  induction entries generalizing d with
  | nil => rfl
  | cons e entries ih =>
    rw [List.cons_append, accepted_cons, accepted_cons d e entries, ih, List.append_assoc]
    rfl

/-- A longer key goes on behind a key, whatever further key is given. -/
theorem goesOn_insert (hd : d.result.Stores entries) (e : List Char × α)
    (h : d.result.goesOn key = true) : (d.insert e.1 e.2).1.result.goesOn key = true := by
  obtain ⟨symbols, node, hsymbols, hnode, harcs⟩ := goesOn_iff.1 h
  rcases d.insert_cases e.1 e.2 with heq | ⟨added, alphabet, hext, -, -, ⟨-, heq⟩ | heq⟩ <;> rw [heq]
  · exact h
  · obtain ⟨node', hnode', harcs'⟩ := Trie.exists_descend?_alter hd.ordered hnode harcs _ added
    exact goesOn_iff.2 ⟨symbols, node', hext.mapM hsymbols, hnode', harcs'⟩
  · obtain ⟨node', hnode', harcs'⟩ := Trie.exists_descend?_alter hd.ordered hnode harcs _ added
    exact goesOn_iff.2 ⟨symbols, node', hext.mapM hsymbols, hnode', harcs'⟩

theorem goesOn_insertAll (hd : d.result.Stores entries) (more : List (List Char × α))
    (h : d.result.goesOn key = true) : (d.insertAll more).result.goesOn key = true := by
  induction more generalizing d entries with
  | nil => exact h
  | cons e more ih => exact ih (stores_insert hd e) (goesOn_insert hd e h)

end Draft

/-- The value with a number has the same matches in both. -/
def SameMatches (a b : Transducer α) (input : List Char) (maxEdits n : Nat) : Prop :=
  ∀ first stop segment, a.HasMatch input maxEdits first stop n segment ↔
    b.HasMatch input maxEdits first stop n segment

/-- **Further keys lengthen the matches of a key at most.**  Whatever keys are given behind those of
a transducer, each `HasMatch` of a key that was there remains. A match that is new is an old one
with characters dropped behind it, and there is one only if a further key goes on behind the key
(`goesOn`) and none did before. Without edits, or if the same keys go on, `SameMatches` holds. -/
theorem matches_of_more_keys (emptyKeys : Bool) (entries more : List (List Char × α))
    (input : List Char) (maxEdits : Nat)
    (hfew : (ofAccepted emptyKeys entries).completes (.search maxEdits 0 input) = true)
    (hmany : (ofAccepted emptyKeys (entries ++ more)).completes (.search maxEdits 0 input) = true)
    {n : Nat} {key : List Char} {x : α}
    (hentry : ((Draft.start emptyKeys).accepted entries)[n]? = some (key, x)) :
    (∀ first stop segment,
      (ofAccepted emptyKeys entries).HasMatch input maxEdits first stop n segment →
        (ofAccepted emptyKeys (entries ++ more)).HasMatch input maxEdits first stop n segment) ∧
    (∀ first stop segment,
      (ofAccepted emptyKeys (entries ++ more)).HasMatch input maxEdits first stop n segment →
        (ofAccepted emptyKeys entries).HasMatch input maxEdits first stop n segment ∨
          (ofAccepted emptyKeys entries).goesOn key = false ∧
            (ofAccepted emptyKeys (entries ++ more)).goesOn key = true ∧
              ∃ stop', stop' < stop ∧ stop ≤ stop' + maxEdits ∧
                (ofAccepted emptyKeys entries).HasMatch input maxEdits first stop' n segment) ∧
    (maxEdits = 0 ∨ ((ofAccepted emptyKeys (entries ++ more)).goesOn key = true →
      (ofAccepted emptyKeys entries).goesOn key = true) →
        SameMatches (ofAccepted emptyKeys entries) (ofAccepted emptyKeys (entries ++ more)) input
          maxEdits n) := by
  have hs := stores_ofAccepted emptyKeys entries
  have hs' := stores_ofAccepted emptyKeys (entries ++ more)
  -- Further keys can only make keys go on.
  have hgrows : (ofAccepted emptyKeys entries).goesOn key = true →
      (ofAccepted emptyKeys (entries ++ more)).goesOn key = true := by
    rw [ofAccepted, ofAccepted, Draft.insertAll_append]
    exact Draft.goesOn_insertAll hs more
  have hentry' : ((Draft.start emptyKeys).accepted (entries ++ more))[n]? = some (key, x) := by
    rw [Draft.accepted_append, List.getElem?_append_left (List.getElem?_eq_some_iff.1 hentry).1]
    exact hentry
  -- Both find what is read of the key, with what goes on behind it there.
  have hiff := hs.hasMatch_iff (wellNumbered_ofAccepted emptyKeys entries) hfew hentry
  have hiff' := hs'.hasMatch_iff (wellNumbered_ofAccepted emptyKeys (entries ++ more)) hmany hentry'
  have hremain (first stop : Nat) (segment : List Char)
      (h : (ofAccepted emptyKeys entries).HasMatch input maxEdits first stop n segment) :
      (ofAccepted emptyKeys (entries ++ more)).HasMatch input maxEdits first stop n segment := by
    obtain ⟨hfirst, kinds, hreads⟩ := (hiff _ _ _).1 h
    exact (hiff' _ _ _).2 ⟨hfirst, kinds, hreads.mono hgrows⟩
  have hnew (first stop : Nat) (segment : List Char)
      (h : (ofAccepted emptyKeys (entries ++ more)).HasMatch input maxEdits first stop n segment) :
      (ofAccepted emptyKeys entries).HasMatch input maxEdits first stop n segment ∨
        (ofAccepted emptyKeys entries).goesOn key = false ∧
          (ofAccepted emptyKeys (entries ++ more)).goesOn key = true ∧
            ∃ stop', stop' < stop ∧ stop ≤ stop' + maxEdits ∧
              (ofAccepted emptyKeys entries).HasMatch input maxEdits first stop' n segment := by
    obtain ⟨hfirst, kinds, hreads⟩ := (hiff' _ _ _).1 h
    rcases hreads.cases_goesOn ((ofAccepted emptyKeys entries).goesOn key = true) with
      hreads | ⟨hends, hgoes, stop', kinds', hlt, hle, hreads⟩
    · exact .inl ((hiff _ _ _).2 ⟨hfirst, kinds, hreads⟩)
    · exact .inr ⟨Bool.not_eq_true _ ▸ hends, hgoes, stop', hlt, hle,
        (hiff _ _ _).2 ⟨hfirst, kinds', hreads⟩⟩
  refine ⟨hremain, hnew, fun hsame first stop segment => ⟨hremain first stop segment, fun h => ?_⟩⟩
  -- Nothing is dropped without edits, and nothing more if no further key goes on.
  rcases hnew first stop segment h with hold | ⟨hends, hgoes, stop', hlt, hle, -⟩
  · exact hold
  · rcases hsame with rfl | himp
    · omega
    · exact absurd ((himp hgoes).symm.trans hends) (by decide)

/-- Some keys, and further ones. -/
def sampleFew : List (List Char × Unit) := ["ab", "b"].map fun key => (key.toList, ())

def sampleFurther : List (List Char × Unit) := ["ba", "c"].map fun key => (key.toList, ())

theorem matches_of_more_keys_samples :
    (ofAccepted false sampleFew).completes (.search 1 0 "xabc".toList) = true ∧
    (ofAccepted false (sampleFew ++ sampleFurther)).completes (.search 1 0 "xabc".toList) = true ∧
    (ofAccepted false sampleFew).HasMatch "xabc".toList 1 1 3 0 "ab".toList ∧
    SameMatches (ofAccepted false sampleFew) (ofAccepted false (sampleFew ++ sampleFurther))
      "xabc".toList 1 0 := by
  have hfew : (ofAccepted false sampleFew).completes (.search 1 0 "xabc".toList) = true := by
    decide +kernel
  have hmany : (ofAccepted false (sampleFew ++ sampleFurther)).completes
      (.search 1 0 "xabc".toList) = true := by
    decide +kernel
  have hfound : (ofAccepted false sampleFew).HasMatch "xabc".toList 1 1 3 0 "ab".toList := by
    unfold HasMatch
    decide +kernel
  -- No key of either goes on behind the first.
  have hends : (ofAccepted false (sampleFew ++ sampleFurther)).goesOn "ab".toList = false := by
    decide +kernel
  have hentry : ((Draft.start false).accepted sampleFew)[0]? = some ("ab".toList, ()) := by
    decide +kernel
  refine ⟨hfew, hmany, hfound, (matches_of_more_keys false sampleFew sampleFurther "xabc".toList 1
    hfew hmany hentry).2.2 (.inr fun hgoes => ?_)⟩
  exact absurd (hgoes.symm.trans hends) (by decide)

/-- A match that only a further key makes possible: characters are dropped behind a key just if a
longer key goes on there. -/
theorem not_sameMatches_of_longerKey :
    (ofAccepted false [("ab".toList, ())]).completes (.search 1 0 "abx".toList) = true ∧
    (ofAccepted false ([("ab".toList, ())] ++ [("abc".toList, ())])).completes
      (.search 1 0 "abx".toList) = true ∧
    ¬ SameMatches (ofAccepted false [("ab".toList, ())])
      (ofAccepted false ([("ab".toList, ())] ++ [("abc".toList, ())])) "abx".toList 1 0 := by
  have hfew :
      ¬ (ofAccepted false [("ab".toList, ())]).HasMatch "abx".toList 1 0 3 0 "ab".toList := by
    unfold HasMatch
    decide +kernel
  have hmany : (ofAccepted false ([("ab".toList, ())] ++ [("abc".toList, ())])).HasMatch
      "abx".toList 1 0 3 0 "ab".toList := by
    unfold HasMatch
    decide +kernel
  refine ⟨by decide +kernel, by decide +kernel, fun hsame => hfew ((hsame 0 3 "ab".toList).2 hmany)⟩

end Transducer

end Morphology
