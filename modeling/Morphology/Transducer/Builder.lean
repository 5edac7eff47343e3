import Std.Data.TreeMap

/-!
# Building a transducer

The characters of an alphabet are numbered in the order in which they first come.  A trie holds
values under keys.  Its nodes are the beginnings of keys; the arcs of a node are labelled with
symbols and kept in ascending order.

## Main definitions

* `Alphabet` — numbered characters
* `Alphabet.intern` — the number of a character, a new one if need be
* `Alphabet.capacity` — the largest number of characters
* `Trie` — a node with all that is below it
* `Trie.alter` — the values under one key changed
* `Trie.find` — the values under a key
* `Transducer` — a trie over an alphabet, with the values that its keys lead to
* `Transducer.Draft` — a transducer that takes further keys
* `Transducer.Draft.insert` — a further value under a key
* `Transducer.BuildError` — why a key is refused
-/

namespace Morphology

/-! ## Alphabets -/

/-- Numbered characters. -/
structure Alphabet where
  chars : Array Char
  numbers : Std.TreeMap Char Nat

namespace Alphabet

/-- The alphabet without characters. -/
def empty : Alphabet := ⟨#[], ∅⟩

instance : Inhabited Alphabet := ⟨empty⟩

/-- The largest number of characters: a character's number fits sixteen bits. -/
def capacity : Nat := 65536

/-- The number of a character. -/
def number? (a : Alphabet) (c : Char) : Option Nat :=
  a.numbers[c]?

/-- The number of a character, and the alphabet with it; there is none for a new character once
the alphabet is full. -/
def intern (a : Alphabet) (c : Char) : Option Nat × Alphabet :=
  match a.number? c with
  | some n => (some n, a)
  | none =>
    let n := a.chars.size
    if n < capacity then (some n, ⟨a.chars.push c, a.numbers.insert c n⟩) else (none, a)

/-- The numbers of the characters of a text, as far as the alphabet can take them, the alphabet
with them, and whether it took them all. -/
def internAll (a : Alphabet) : List Char → List Nat × Alphabet × Bool
  | [] => ([], a, true)
  | c :: rest =>
    match a.intern c with
    | (none, a) => ([], a, false)
    | (some n, a) =>
      let (ns, a, all) := a.internAll rest
      (n :: ns, a, all)

end Alphabet

/-! ## Tries -/

/-- A node: the values under the key that ends here, and the arcs to longer keys. -/
inductive Trie
  | node (values : List Nat) (arcs : List (Nat × Trie))
  deriving Inhabited

namespace Trie

/-- The trie without values. -/
def empty : Trie := .node [] []

/-- The values under the key that ends here. -/
def values : Trie → List Nat
  | .node vs _ => vs

/-- The arcs to longer keys. -/
def arcs : Trie → List (Nat × Trie)
  | .node _ as => as

/-- The node behind the arc with a given symbol. -/
def child? (t : Trie) (s : Nat) : Option Trie :=
  t.arcs.lookup s

/-- The values under a key. -/
def find (t : Trie) : List Nat → List Nat
  | [] => t.values
  | s :: key =>
    match t.child? s with
    | some t => t.find key
    | none => []

/-- Arcs with the node behind `s` changed by `f`; a new arc leads to a changed empty node. -/
def alterArc (s : Nat) (f : Trie → Trie) : List (Nat × Trie) → List (Nat × Trie)
  | [] => [(s, f empty)]
  | (s', t) :: rest =>
    if s < s' then (s, f empty) :: (s', t) :: rest
    else if s = s' then (s', f t) :: rest
    else (s', t) :: alterArc s f rest

/-- The trie with a node for a key, its values changed by `f`. -/
def alter (f : List Nat → List Nat) : List Nat → Trie → Trie
  | [], t => .node (f t.values) t.arcs
  | s :: key, t => .node t.values (alterArc s (alter f key) t.arcs)

/-- The number of nodes. -/
def size : Trie → Nat
  | .node _ arcs => 1 + sizes arcs
where
  /-- The number of nodes behind some arcs. -/
  sizes : List (Nat × Trie) → Nat
    | [] => 0
    | (_, t) :: rest => t.size + sizes rest

/-- The length of the longest key. -/
def height : Trie → Nat
  | .node _ arcs => heights arcs
where
  /-- One more than the greatest height behind some arcs. -/
  heights : List (Nat × Trie) → Nat
    | [] => 0
    | (_, t) :: rest => max (t.height + 1) (heights rest)

/-- The greatest number of arcs of a node. -/
def breadth : Trie → Nat
  | .node _ arcs => max arcs.length (breadths arcs)
where
  /-- The greatest breadth behind some arcs. -/
  breadths : List (Nat × Trie) → Nat
    | [] => 0
    | (_, t) :: rest => max t.breadth (breadths rest)

end Trie

/-! ## Transducers -/

universe u

/-- A trie over an alphabet; its values are positions in an array. -/
structure Transducer (α : Type u) where
  root : Trie
  values : Array α
  alphabet : Alphabet

instance {α : Type u} : Inhabited (Transducer α) := ⟨⟨.empty, #[], .empty⟩⟩

namespace Transducer

variable {α : Type u}

/-! ### Errors -/

/-- Why a key is refused. -/
inductive BuildError
  | emptyKey
  | alphabetFull
  deriving Repr, DecidableEq, Inhabited

/-- The message of an error. -/
def BuildError.message : BuildError → String
  | .emptyKey => "empty key"
  | .alphabetFull =>
    "symbol table overflow: more than " ++ toString (Alphabet.capacity - 1) ++
      " distinct characters"

/-! ### Keys -/

/-- A transducer that takes further keys. -/
structure Draft (α : Type u) where
  result : Transducer α
  /-- Whether the empty text may be a key. -/
  emptyKeys : Bool

namespace Draft

/-- No keys yet. -/
def start (emptyKeys : Bool) : Draft α := ⟨default, emptyKeys⟩

/-- A further value under a key.  A key with characters that the alphabet cannot take is refused;
the characters in front of them stay in the alphabet and the trie. -/
def insert (d : Draft α) (key : List Char) (x : α) : Draft α × Option BuildError :=
  if key.isEmpty && !d.emptyKeys then (d, some .emptyKey)
  else
    let t := d.result
    match t.alphabet.internAll key with
    | (symbols, alphabet, true) =>
      let root := t.root.alter (· ++ [t.values.size]) symbols
      ({ d with result := ⟨root, t.values.push x, alphabet⟩ }, none)
    | (symbols, alphabet, false) =>
      ({ d with result := ⟨t.root.alter id symbols, t.values, alphabet⟩ }, some .alphabetFull)

end Draft

/-- The transducer of some keys with their values, unless one is refused. -/
def ofList (emptyKeys : Bool) (entries : List (List Char × α)) :
    Except BuildError (Transducer α) :=
  (entries.foldlM (m := Except BuildError)
    (fun d (key, x) =>
      match d.insert key x with
      | (d, none) => .ok d
      | (_, some e) => .error e)
    (Draft.start emptyKeys)).map (·.result)

end Transducer

end Morphology
