import Morphology.Text.Charset
import Morphology.Transducer.Builder

/-!
# Looking keys up in a text

A traversal walks down the trie along every part of a text, at the price of a bounded number of
edits.  The places still to be visited are kept on a stack, so that a traversal can stop at a
match and go on from there.

## Main definitions

* `Frame` — a node reached from a place in the text
* `Transducer.successors` — the frames one step further
* `Traversal`, `Transducer.next` — the state of a traversal, and its next match
* `Transducer.lookup` — all matches of a text
* `Transducer.valuesAt` — the values of the keys that begin at a place
-/

namespace Morphology

universe u

/-! ## Edits -/

/-- A correction of the text. -/
inductive EditKind
  /-- A character is replaced by the wildcard. -/
  | substitute
  /-- A character is dropped. -/
  | delete
  /-- A wildcard is put in. -/
  | insert
  /-- Two neighbours are swapped. -/
  | transpose
  deriving Repr, DecidableEq, Inhabited

/-- A correction with its place in the corrected text. -/
structure Edit where
  kind : EditKind
  pos : Nat
  deriving Repr, DecidableEq, Inhabited

/-! ## Frames -/

/-- A node reached by reading a text from `start` to `pos`. -/
structure Frame where
  node : Trie
  start : Nat
  pos : Nat
  /-- The text read, after corrections. -/
  segment : List Char
  edits : List Edit
  deriving Inhabited

namespace Frame

/-- The frame at which reading begins. -/
def root (t : Trie) (start : Nat) : Frame := ⟨t, start, start, [], []⟩

/-- The frame after `consumed` characters are read as `emitted`, perhaps by an edit. -/
def advance (f : Frame) (node : Trie) (consumed : Nat) (emitted : List Char)
    (kind : Option EditKind) : Frame where
  node := node
  start := f.start
  pos := f.pos + consumed
  segment := f.segment ++ emitted
  edits := match kind with
    | none => f.edits
    | some k => f.edits ++ [⟨k, f.start + f.segment.length⟩]

/-- The kind of the last edit. -/
def lastEdit? (f : Frame) : Option EditKind :=
  f.edits.getLast?.map (·.kind)

end Frame

/-- A key found in a text. -/
structure KeyMatch where
  start : Nat
  stop : Nat
  /-- The position of the value. -/
  value : Nat
  /-- The text between `start` and `stop` after corrections. -/
  segment : List Char
  edits : List Edit
  deriving Repr, DecidableEq, Inhabited

namespace Transducer

variable {α : Type u}

/-! ## One step -/

/-- Reading one character as it stands. -/
def exactStep (t : Transducer α) (input : List Char) (f : Frame) : List Frame :=
  match input[f.pos]? with
  | none => []
  | some c =>
    if c = wildcard then f.node.arcs.map fun (_, node) => f.advance node 1 [c] none
    else
      match (t.alphabet.number? c).bind f.node.child? with
      | some node => [f.advance node 1 [c] none]
      | none => []

/-- Reading one character as another. -/
def substitutions (t : Transducer α) (input : List Char) (f : Frame) : List Frame :=
  match input[f.pos]? with
  | none => []
  | some c =>
    if c = wildcard then []
    else
      let symbol := t.alphabet.number? c
      (f.node.arcs.filter fun (s, _) => some s != symbol).map fun (_, node) =>
        f.advance node 1 [wildcard] (some .substitute)

/-- Dropping one character, but neither the first of a match nor one next to an insertion. -/
def deletions (input : List Char) (f : Frame) : List Frame :=
  if f.pos < input.length && !f.segment.isEmpty && f.lastEdit? != some .insert then
    [f.advance f.node 1 [] (some .delete)]
  else []

/-- Putting one character in, but not next to a deletion. -/
def insertions (f : Frame) : List Frame :=
  if f.lastEdit? != some .delete then
    f.node.arcs.map fun (_, node) => f.advance node 0 [wildcard] (some .insert)
  else []

/-- Reading two characters in the opposite order. -/
def transpositions (t : Transducer α) (input : List Char) (f : Frame) : List Frame :=
  match input[f.pos]?, input[f.pos + 1]? with
  | some c, some d =>
    match t.alphabet.number? d, t.alphabet.number? c with
    | some first, some second =>
      match (f.node.child? first).bind (·.child? second) with
      | some node =>
        if first = second then [] else [f.advance node 2 [d, c] (some .transpose)]
      | none => []
    | _, _ => []
  | _, _ => []

/-- The frames one step further, those to be visited first in front. -/
def successors (t : Transducer α) (input : List Char) (maxEdits : Nat) (f : Frame) : List Frame :=
  t.exactStep input f ++
    if f.edits.length < maxEdits && !f.node.arcs.isEmpty then
      t.substitutions input f ++ deletions input f ++ insertions f ++ t.transpositions input f
    else []

end Transducer

/-! ## Traversals -/

/-- The state of a traversal between two matches. -/
structure Traversal where
  input : List Char
  maxEdits : Nat
  /-- The frames still to be visited, the next one in front. -/
  stack : List Frame
  /-- A frame at the end of keys, with the values not reported yet. -/
  pending : Option (Frame × List Nat)
  /-- End, value and segment of the matches reported from the current start. -/
  seen : List (Nat × Nat × List Char)
  /-- The next place to begin at. -/
  nextStart : Nat
  /-- No match begins here or later. -/
  startLimit : Nat

namespace Traversal

/-- The traversal that begins a match anywhere from `first` on. -/
def search (maxEdits first : Nat) (input : List Char) : Traversal :=
  ⟨input, maxEdits, [], none, [], first, input.length⟩

/-- The traversal that begins its matches at one place and makes no edits. -/
def anchored (start : Nat) (input : List Char) : Traversal :=
  ⟨input, 0, [], none, [], start, start + 1⟩

end Traversal

namespace Transducer

variable {α : Type u}

/-- Whether every character of a text is in the alphabet or the wildcard. -/
def knows (t : Transducer α) (input : List Char) : Bool :=
  input.all fun c => (t.alphabet.number? c).isSome || c == wildcard

/-- The next match of a traversal, looked for in at most `limit` steps, and the traversal behind
it. -/
def next (t : Transducer α) : (limit : Nat) → Traversal → Option KeyMatch × Traversal
  | 0, tr => (none, tr)
  | limit + 1, tr =>
    match tr.pending with
    | some (f, v :: vs) =>
      let tr := { tr with pending := some (f, vs) }
      let key := (f.pos, v, f.segment)
      -- Different edits may lead to one match, which is reported once.
      if tr.seen.contains key then t.next limit tr
      else (some ⟨f.start, f.pos, v, f.segment, f.edits⟩, { tr with seen := key :: tr.seen })
    | _ =>
      match tr.stack with
      | f :: rest =>
        -- The values of a node are reported before its successors are visited.
        let pending := if f.node.values.isEmpty then none else some (f, f.node.values)
        t.next limit
          { tr with stack := t.successors tr.input tr.maxEdits f ++ rest, pending := pending }
      | [] =>
        -- All matches from the last start are found; matches from the next one are new.
        if tr.nextStart < tr.startLimit && tr.nextStart ≤ tr.input.length then
          t.next limit
            { tr with
              stack := [.root t.root tr.nextStart]
              pending := none
              seen := []
              nextStart := tr.nextStart + 1 }
        else (none, { tr with pending := none })

/-- The number of steps after which the search for the next match is given up. -/
def stepLimit : Nat := 100000

/-- The matches of a traversal, at most `count`. -/
def takeMatches (t : Transducer α) : (count : Nat) → Traversal → List KeyMatch
  | 0, _ => []
  | count + 1, tr =>
    match t.next stepLimit tr with
    | (some m, tr) => m :: t.takeMatches count tr
    | (none, _) => []

/-- A number that the matches of a traversal do not exceed.  A frame has fewer successors than the
base.  Each has a lower node, but for a deletion, which costs an edit and a character. -/
def matchBound (t : Transducer α) (tr : Traversal) : Nat :=
  (tr.input.length + 1) * (t.values.size + 1) *
    (3 * t.root.breadth + 4).pow (t.root.height + min tr.maxEdits tr.input.length + 1)

/-- All matches of a traversal, unless the search for one is given up. -/
def matchesOf (t : Transducer α) (tr : Traversal) : List KeyMatch :=
  t.takeMatches (t.matchBound tr) tr

/-- All parts of a text that agree with a key after at most `maxEdits` edits. -/
def lookup (t : Transducer α) (input : List Char) (maxEdits : Nat) : List KeyMatch :=
  t.matchesOf (.search maxEdits 0 input)

/-- The values of the keys that the text has at a place, wildcards agreeing with everything. -/
def valuesAt (t : Transducer α) (input : List Char) (start : Nat) : List α :=
  (t.matchesOf (.anchored start input)).filterMap fun m => t.values[m.value]?

end Transducer

end Morphology
