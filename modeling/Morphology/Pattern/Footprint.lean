import Morphology.Pattern.Basic
import Morphology.Pattern.CharSet

/-!
# The size of a pattern

A pattern is only accepted if automata that read the bytes of a text can be built for it within ten
mebibytes: one that reads forward, which also remembers the places of groups, and one that reads
backward.  The automata themselves are never built; their states are counted in the order in which
they would be made.

A character is written in UTF-8 as one to four bytes.  The characters of a span are those of a
few byte patterns, each a sequence of spans of bytes that are chosen independently.

A choice among literal texts becomes one tree, in which texts that begin alike share their
states.  The preference among them is kept: what is added behind a text that is complete at a
node comes into a new chunk of that node.

A set of characters is read byte by byte.  Equal states are shared as far as a table of fixed size
remembers them: each state has one slot in the table, and the latest state takes it.

## Main definitions

* `Span.byteSpans` — the byte patterns of a span, in ascending order
* `Footprint` — the size of an automaton that is being built
* `Footprint.bytes`, `Footprint.isTooLarge` — its memory and the limit
* `Footprint.addLiterals` — the size of the tree of a choice among literal texts
* `SharedStates` — the states that may be shared
* `Footprint.addSet` — the size of the states for a set
* `Expr.grow` — the automaton of a pattern, behind what is built before
* `Expr.isTooLarge` — whether a pattern is refused
-/

namespace Morphology.Pattern

/-! ## Characters as bytes -/

/-- The number of bytes of a text. -/
def byteLength (s : List Char) : Nat :=
  s.foldr (fun c n => c.utf8Size + n) 0

namespace Span

/-- The code points of two spans that both have. -/
def inter? (s t : Span) : Option Span :=
  let first := max s.first t.first
  let last := min s.last t.last
  if first ≤ last then some ⟨first, last⟩ else none

/-- The byte patterns of the numbers in a span, each with a leading byte from `lead` on and `k`
continuation bytes of six bits: those that share an incomplete first block, those in complete
blocks, and those in an incomplete last block. -/
def patternsFrom : (k : Nat) → (lead : Nat) → Span → List (List Span)
  | 0, lead, s => [[⟨lead + s.first, lead + s.last⟩]]
  | k + 1, lead, s =>
    let block := 64 ^ (k + 1)
    let a := s.first / block
    let b := s.last / block
    let within (n : Nat) (t : Span) : List (List Span) :=
      (patternsFrom k 0x80 t).map (⟨lead + n, lead + n⟩ :: ·)
    if a = b then within a ⟨s.first % block, s.last % block⟩
    else
      let cutFirst := s.first % block != 0
      let cutLast := s.last % block != block - 1
      let a' := if cutFirst then a + 1 else a
      let b' := if cutLast then b - 1 else b
      (if cutFirst then within a ⟨s.first % block, block - 1⟩ else []) ++
        (if a' ≤ b' then [⟨lead + a', lead + b'⟩ :: List.replicate (k + 1) ⟨0x80, 0xBF⟩] else []) ++
        (if cutLast then within b ⟨0, s.last % block⟩ else [])

/-- The byte patterns of the characters of a span, in ascending order. -/
def byteSpans (s : Span) : List (List Span) :=
  let part (k lead first last : Nat) := ((s.inter? ⟨first, last⟩).map (patternsFrom k lead)).getD []
  part 0 0 0 0x7F ++ part 1 0xC0 0x80 0x7FF ++ part 2 0xE0 0x800 0xD7FF ++
    part 2 0xE0 0xE000 0xFFFF ++ part 3 0xF0 0x10000 0x10FFFF

end Span

/-! ## Sizes -/

/-- The direction in which an automaton reads a text. -/
inductive Direction
  | forward
  | backward
  deriving Repr, DecidableEq, Inhabited

/-- The size of an automaton that is being built. -/
structure Footprint where
  /-- The number of states. -/
  states : Nat
  /-- The memory of their lists of transitions, in bytes. -/
  lists : Nat
  deriving Repr, DecidableEq, Inhabited

namespace Footprint

/-- The size before anything is built. -/
def empty : Footprint := ⟨0, 0⟩

/-- The memory of a state without its list, in bytes. -/
def stateSize : Nat := 32

/-- The memory of a transition for a span of bytes. -/
def transitionSize : Nat := 8

/-- The memory of a transition without a byte. -/
def jumpSize : Nat := 4

/-- The memory of the automaton. -/
def bytes (f : Footprint) : Nat :=
  stateSize * f.states + f.lists

/-- The greatest memory of an automaton. -/
def limit : Nat := 10 * 1024 * 1024

/-- Whether the automaton is too large to go on. -/
def isTooLarge (f : Footprint) : Bool :=
  limit < f.bytes

/-- Some states without lists. -/
def addStates (f : Footprint) (n : Nat) : Footprint :=
  { f with states := f.states + n }

/-- A state with a list of transitions for spans of bytes. -/
def addSpans (f : Footprint) (n : Nat) : Footprint :=
  ⟨f.states + 1, f.lists + transitionSize * n⟩

/-- A state with a list of transitions without a byte. -/
def addJumps (f : Footprint) (n : Nat) : Footprint :=
  ⟨f.states + 1, f.lists + jumpSize * n⟩

/-- A state that decides between one more turn of a loop and its end. -/
def addDecision (f : Footprint) : Footprint :=
  f.addJumps 2

/-- The state where a choice among `n` alternatives begins, and the one where they meet. -/
def addChoice (f : Footprint) (n : Nat) : Footprint :=
  (f.addJumps n).addStates 1

/-- A step of building that is repeated, until the automaton is too large. -/
def repeated (step : Footprint → Footprint) : Nat → Footprint → Footprint
  | 0, f => f
  | n + 1, f => if f.isTooLarge then f else repeated step n (step f)

end Footprint

/-! ## Choices among literal texts -/

/-- What remains of the texts at a node, divided at the texts that are complete there.  Of several
that are complete before any goes on, only one counts. -/
def chunks (texts : List (List UInt8)) : List (List (List UInt8)) :=
  let front := texts.takeWhile List.isEmpty
  (front.take 1 ++ texts.drop front.length).splitOnP List.isEmpty

/-- What follows the first bytes of some texts, for each first byte. -/
def branches (texts : List (List UInt8)) : List (List (List UInt8)) :=
  (texts.filterMap List.head?).eraseDups.map fun b =>
    texts.filterMap fun
      | c :: rest => if c = b then some rest else none
      | [] => none

namespace Footprint

/-- A node of the tree and all below it.  Nodes at which texts only end are no states.  The length
of the longest text is enough `fuel`. -/
def addNode : (fuel : Nat) → List (List UInt8) → Footprint → Footprint
  | 0, _, f => f
  | fuel + 1, texts, f =>
    let parts := chunks texts
    let f := parts.foldl (fun f part =>
      let below := branches part
      let f := below.foldl (fun f rest =>
        if rest.all List.isEmpty then f else addNode fuel rest f) f
      match below.length with
      | 0 => f
      | 1 => f.addStates 1
      | n => f.addSpans n) f
    f.addJumps ((parts.filter (!·.isEmpty)).length + parts.length - 1)

/-- A choice among literal texts. -/
def addLiterals (f : Footprint) (d : Direction) (texts : List (List Char)) : Footprint :=
  let bytes := texts.map fun s => (s.flatMap String.utf8EncodeChar)
  let read := match d with
    | .forward => bytes
    | .backward => bytes.map List.reverse
  addNode ((read.map List.length).foldl max 0) read (f.addStates 1)

end Footprint

/-! ## Sets of characters -/

/-- A transition for a span of bytes. -/
structure Transition where
  bytes : Span
  target : Nat
  deriving Repr, DecidableEq, Inhabited

/-! ### Tables of states -/

/-- The slot of some numbers in a table.  They are mixed one by one into a word of 64 bits, which is
multiplied by a prime each time. -/
def slotOf (slots : Nat) (ns : List Nat) : Nat :=
  (ns.foldl (fun h n => (h ^^^ n.toUInt64) * 1099511628211) (14695981039346656037 : UInt64)).toNat
    % slots

/-- The states that may be shared, by slot: what each does, and its number. -/
abbrev Table (α : Type) := Array (Option (α × Nat))

/-- The states of a set that is being built. -/
structure SharedStates (α : Type) where
  size : Footprint
  table : Table α

namespace SharedStates

variable {α : Type}

/-- Nothing may be shared yet. -/
def start (size : Footprint) (slots : Nat) : SharedStates α :=
  ⟨size, Array.replicate slots none⟩

variable [BEq α]

/-- The number of the state that does what is asked, if the table has it in a slot. -/
def known? (s : SharedStates α) (slot : Nat) (key : α) : Option Nat :=
  match s.table.getD slot none with
  | some (other, id) => if other == key then some id else none
  | none => none

/-- The number of a state that does what is asked: one of the table, or else a new one. -/
def state (s : SharedStates α) (slot : Nat) (key : α) (grow : Footprint → Footprint) :
    Nat × SharedStates α :=
  match s.known? slot key with
  | some id => (id, s)
  | none =>
    let id := s.size.states
    (id, ⟨grow s.size, s.table.setIfInBounds slot (some (key, id))⟩)

end SharedStates

/-! ### Reading forward -/

/-- The number of slots for states that read forward. -/
def forwardSlots : Nat := 10000

/-- The state that reads some byte patterns, which are in ascending order, and goes on at `target`.
A pattern's length is enough `fuel`. -/
def forwardState (target : Nat) : (fuel : Nat) → List (List Span) →
    SharedStates (List Transition) → Nat × SharedStates (List Transition)
  | 0, _, s => (target, s)
  | fuel + 1, patterns, s =>
    let groups := patterns.splitBy fun p q => p.head? == q.head?
    let (transitions, s) := groups.foldl (fun (transitions, s) group =>
      let tails := group.map List.tail
      let (id, s) :=
        if tails.all List.isEmpty then (target, s) else forwardState target fuel tails s
      (transitions ++ ((group.head?.bind List.head?).map (⟨·, id⟩)).toList, s))
      (([] : List Transition), s)
    let numbers := transitions.flatMap fun t => [t.bytes.first, t.bytes.last, t.target]
    s.state (slotOf forwardSlots numbers) transitions (·.addSpans transitions.length)

/-! ### Reading backward -/

/-- The number of slots for states that read backward. -/
def backwardSlots : Nat := 1000

/-- The states that read a byte pattern backward and go on at `target`. -/
def backwardStates (target : Nat) (pattern : List Span) (s : SharedStates Transition) :
    SharedStates Transition :=
  (pattern.foldl (fun (target, s) span =>
    s.state (slotOf backwardSlots [target, span.first, span.last]) ⟨span, target⟩ (·.addStates 1))
    (target, s)).2

namespace Footprint

/-- A set of characters, read in the given direction. -/
def addSet (f : Footprint) (d : Direction) (s : CharSet) : Footprint :=
  if s.spans.all (·.last < 0x80) then (f.addStates 1).addSpans s.spans.length
  else
    let patterns := s.spans.flatMap Span.byteSpans
    match d with
    | .forward => (forwardState f.states 4 patterns (.start (f.addStates 1) forwardSlots)).2.size
    | .backward =>
      let start := .start ((f.addJumps patterns.length).addStates 1) backwardSlots
      (patterns.foldl (fun s p => backwardStates (f.states + 1) p s) start).size

end Footprint

/-! ## Patterns -/

namespace Expr

/-! ### Patterns that match at one end only -/

/-- Whether an assertion at the end where reading begins has to hold. -/
def requires (a : Assertion) (d : Direction) : Expr → Bool
  | .assert b => b = a
  | .seq p q =>
    match d with
    | .forward => requires a d p || (p.longest? = some 0 && requires a d q)
    | .backward => requires a d q || (q.longest? = some 0 && requires a d p)
  | .alt p q => requires a d p && requires a d q
  | .loop least _ _ p => least != 0 && requires a d p
  | .group _ p => requires a d p
  | _ => false

/-- Whether the pattern matches only at the end of the text where reading begins. -/
def isAnchored (p : Expr) : Direction → Bool
  | .forward => p.requires .textStart .forward
  | .backward => p.requires .textEnd .backward

/-! ### The automaton -/

/-- The texts of a choice among literal texts. -/
def literals? : Expr → Option (List (List Char))
  | .literal s => some [s]
  | .alt (.literal s) q => (literals? q).map (s :: ·)
  | _ => none

/-- The automaton of a pattern, behind what is built before.  A choice has a state where it begins
and one where it ends, made behind its second alternative; `inChoice` says that they are made
already. -/
def grow (d : Direction) : (inChoice : Bool) → Expr → Footprint → Footprint
  | _, .empty, f => f.addStates 1
  | _, .literal s, f => f.addStates (byteLength s)
  | _, .one s, f => f.addSet d s
  | _, .assert _, f => f.addStates 1
  | _, .seq p q, f =>
    match d with
    | .forward => grow d false q (grow d false p f)
    | .backward => grow d false p (grow d false q f)
  | true, .alt p q, f => grow d true q (grow d false p f)
  | false, .alt p q, f =>
    let alternatives := (Expr.alt p q).alternatives.length
    match literals? (.alt p q), q with
    | some texts, _ => f.addLiterals d texts
    | none, .alt q r =>
      grow d true r ((grow d false q (grow d false p f)).addChoice alternatives)
    | none, q => (grow d false q (grow d false p f)).addChoice alternatives
  | _, .loop least most _ p, f =>
    let once := grow d false p
    let times (n : Nat) := Footprint.repeated once n
    match least, most with
    | 0, none =>
      if p.shortest?.any (0 < ·) then once f.addDecision
      else (once f).addDecision.addDecision.addStates 1
    | n, none => (times n f).addDecision
    | 0, some 1 => (once f.addDecision).addStates 1
    | n, some m =>
      let least := if n = 0 then f.addStates 1 else times n f
      if n = m then least
      else Footprint.repeated (fun f => once f.addDecision) (m - n) (least.addStates 1)
  | _, .group _ p, f =>
    match d with
    | .forward => (grow d false p (f.addStates 1)).addStates 1
    | .backward => grow d false p f

/-- The automaton of a whole pattern.  One that may begin anywhere skips bytes first; the one that
reads forward has a state at either end of the match. -/
def footprint (p : Expr) (d : Direction) : Footprint :=
  let start :=
    if p.isAnchored d then Footprint.empty.addStates 1
    else (Footprint.empty.addDecision.addSpans 1).addStates 1
  match d with
  | .forward => (grow d false p (start.addStates 1)).addStates 2
  | .backward => (grow d false p start).addStates 1

/-- Whether an automaton for the pattern would be too large. -/
def isTooLarge (p : Expr) : Bool :=
  (p.footprint .forward).isTooLarge || (p.footprint .backward).isTooLarge

end Expr

end Morphology.Pattern
