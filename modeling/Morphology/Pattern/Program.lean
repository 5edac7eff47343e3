import Morphology.Pattern.Basic

/-!
# Programs that match a pattern

A pattern becomes a list of instructions, each with an address.  The instructions are put in front
of what comes after them, so a program is built from its end.

## Main definitions

* `Instr` — an instruction
* `Program` — instructions and where they begin
* `Program.ofExpr` — the program of a pattern
-/

namespace Morphology.Pattern

/-- An instruction; each names the address where matching goes on. -/
inductive Instr
  /-- A character of a set has to come next. -/
  | one (s : CharSet) (next : Nat)
  /-- A condition has to hold. -/
  | assert (a : Assertion) (next : Nat)
  /-- The place is remembered under a number. -/
  | mark (slot : Nat) (next : Nat)
  /-- There are two ways on, and the first is preferred. -/
  | fork (first second : Nat)
  /-- The pattern has matched. -/
  | accept
  deriving Repr, DecidableEq, Inhabited

/-- A way to prefer one more turn of a greedy loop, or the end of a reluctant one. -/
def Instr.turn (greedy : Bool) (onward exit : Nat) : Instr :=
  if greedy then .fork onward exit else .fork exit onward

/-- Instructions by address, and the address where they begin. -/
structure Program where
  code : Array Instr
  entry : Nat
  deriving Repr, DecidableEq, Inhabited

namespace Program

/-- The program that has matched as soon as it begins. -/
def done : Program := ⟨#[.accept], 0⟩

/-- One more instruction, where the program then begins. -/
def push (p : Program) (i : Instr) : Program :=
  let address := p.code.size
  ⟨p.code.push i, address⟩

/-- One turn of `body` and then the program, or `exit` at once. -/
def option (greedy : Bool) (body : Program → Program) (exit : Nat) (p : Program) : Program :=
  let q := body p
  q.push (.turn greedy q.entry exit)

/-- Turns of `body` up to the given number, and then the program. -/
def atMost (greedy : Bool) (body : Program → Program) (n : Nat) (p : Program) : Program :=
  Nat.repeat (option greedy body p.entry) n p

/-- At least one turn of `body`, and then the program.  The instruction behind a turn decides on
one more. -/
def turns (greedy : Bool) (body : Program → Program) (p : Program) : Program :=
  let decision := p.code.size
  let exit := p.entry
  let q := body (p.push .accept)
  let start := q.entry
  ⟨q.code.setIfInBounds decision (.turn greedy start exit), start⟩

/-- Any number of turns of `body`, which matches a character at least, and then the program.  The
decision on a turn is the same before the first one. -/
def anyTurns (greedy : Bool) (body : Program → Program) (p : Program) : Program :=
  let decision := p.code.size
  { turns greedy body p with entry := decision }

/-- The program of a pattern in front of another. -/
def prepend : Expr → Program → Program
  | .empty, p => p
  | .literal s, p => s.foldr (fun c p => p.push (.one (.single c) p.entry)) p
  | .one s, p => p.push (.one s p.entry)
  | .assert a, p => p.push (.assert a p.entry)
  | .seq e f, p => prepend e (prepend f p)
  | .alt e f, p =>
    let exit := p.entry
    let second := prepend f p
    let other := second.entry
    let first := prepend e { second with entry := exit }
    first.push (.fork first.entry other)
  | .loop least most greedy e, p =>
    let body := prepend e
    match least, most with
    | 0, none =>
      if e.shortest?.any (0 < ·) then p.anyTurns greedy body
      else
        let exit := p.entry
        let q := p.turns greedy body
        q.push (.turn greedy q.entry exit)
    | n + 1, none => Nat.repeat body n (p.turns greedy body)
    | n, some m => Nat.repeat body n (p.atMost greedy body (m - n))
  | .group i e, p =>
    let q := prepend e (p.push (.mark (2 * i + 1) p.entry))
    q.push (.mark (2 * i) q.entry)

/-- The program of a pattern. -/
def ofExpr (e : Expr) : Program :=
  prepend e done

end Program

end Morphology.Pattern
