import Morphology.Pattern.Program
import Morphology.Proofs.Pattern.Meaning

/-!
# What programs match

A program reads a text from place to place until it accepts.  The program of a pattern in front of
another accepts just where the pattern leads to a place from which the other accepts.  Instructions
that are put behind it, or changed outside of its own ones, do not matter for this, and each part of
a program is looked at in all instructions that have it where it is.

Steps are counted, since a loop leads back to instructions before it: what is left behind a turn is
shorter.

## Main definitions

* `Program.Accepts` — instructions accept from an address and a place on
* `Program.Prepends` — a part put in front of programs leads from place to place

## Main statements

* `Program.prepends_prepend` — the program of a pattern does what the pattern means
* `Program.accepts_ofExpr_iff` — a whole program accepts where its pattern has matched
-/

namespace Morphology.Pattern

namespace Program

open Morphology.Pattern.Expr (Turns)

/-! ## Instructions at work -/

/-- Instructions accept at the place `last` after a number of steps from an address and a place. -/
inductive Accepts (code : Array Instr) (text : List Char) (last : Nat) : Nat → Nat → Nat → Prop
  | accept {address : Nat} (hat : code[address]? = some .accept) :
      Accepts code text last 0 address last
  | one {address n i next : Nat} {s : CharSet} {c : Char}
      (hat : code[address]? = some (.one s next)) (hc : text[i]? = some c)
      (hs : s.contains c = true) (hnext : Accepts code text last n next (i + 1)) :
      Accepts code text last (n + 1) address i
  | assert {address n i next : Nat} {a : Assertion} (hat : code[address]? = some (.assert a next))
      (ha : a.holds (placeAt text i) = true) (hnext : Accepts code text last n next i) :
      Accepts code text last (n + 1) address i
  | mark {address n i next slot : Nat} (hat : code[address]? = some (.mark slot next))
      (hnext : Accepts code text last n next i) : Accepts code text last (n + 1) address i
  | first {address n i way other : Nat} (hat : code[address]? = some (.fork way other))
      (hnext : Accepts code text last n way i) : Accepts code text last (n + 1) address i
  | second {address n i other way : Nat} (hat : code[address]? = some (.fork other way))
      (hnext : Accepts code text last n way i) : Accepts code text last (n + 1) address i

variable {code : Array Instr} {text : List Char} {last address next n i j k : Nat}
  {p q : Program} {R S : Nat → Nat → Prop} {body : Program → Program}

/-- An instruction that has one way on leads from place to place. -/
def Leads (text : List Char) (R : Nat → Nat → Prop) (instr : Nat → Instr) : Prop :=
  ∀ ⦃code : Array Instr⦄ ⦃last address next n i : Nat⦄, code[address]? = some (instr next) →
    (Accepts code text last n address i ↔
      ∃ m k, n = m + 1 ∧ R i k ∧ Accepts code text last m next k)

theorem leads_one (s : CharSet) : Leads text ((Expr.one s).Spans text) (.one s) := by
  intro code last address next n i hat
  constructor
  · intro h
    cases h with
    | one hat' hc hs hnext =>
      obtain ⟨rfl, rfl⟩ := Instr.one.inj (Option.some.inj (hat.symm.trans hat'))
      exact ⟨_, _, rfl, ⟨_, hc, hs, rfl⟩, hnext⟩
    | _ hat' => exact absurd (hat.symm.trans hat') nofun
  · intro h
    obtain ⟨m, k, rfl, ⟨c, hc, hs, rfl⟩, hnext⟩ := h
    exact .one hat hc hs hnext

theorem leads_assert (a : Assertion) : Leads text ((Expr.assert a).Spans text) (.assert a) := by
  intro code last address next n i hat
  constructor
  · intro h
    cases h with
    | assert hat' ha hnext =>
      obtain ⟨rfl, rfl⟩ := Instr.assert.inj (Option.some.inj (hat.symm.trans hat'))
      exact ⟨_, _, rfl, ⟨ha, rfl⟩, hnext⟩
    | _ hat' => exact absurd (hat.symm.trans hat') nofun
  · intro h
    obtain ⟨m, k, rfl, ⟨ha, rfl⟩, hnext⟩ := h
    exact .assert hat ha hnext

theorem leads_mark (slot : Nat) : Leads text (fun i j => j = i) (.mark slot) := by
  intro code last address next n i hat
  constructor
  · intro h
    cases h with
    | mark hat' hnext =>
      obtain ⟨rfl, rfl⟩ := Instr.mark.inj (Option.some.inj (hat.symm.trans hat'))
      exact ⟨_, _, rfl, rfl, hnext⟩
    | _ hat' => exact absurd (hat.symm.trans hat') nofun
  · intro h
    obtain ⟨m, k, rfl, rfl, hnext⟩ := h
    exact .mark hat hnext

theorem accepts_fork_iff {way other : Nat} (hat : code[address]? = some (.fork way other)) :
    Accepts code text last n address i ↔ ∃ m, n = m + 1 ∧
      (Accepts code text last m way i ∨ Accepts code text last m other i) := by
  constructor
  · intro h
    cases h with
    | first hat' hnext =>
      obtain ⟨rfl, rfl⟩ := Instr.fork.inj (Option.some.inj (hat.symm.trans hat'))
      exact ⟨_, rfl, .inl hnext⟩
    | second hat' hnext =>
      obtain ⟨rfl, rfl⟩ := Instr.fork.inj (Option.some.inj (hat.symm.trans hat'))
      exact ⟨_, rfl, .inr hnext⟩
    | _ hat' => exact absurd (hat.symm.trans hat') nofun
  · intro h
    obtain ⟨m, rfl, hway⟩ := h
    cases hway with
    | inl hnext => exact .first hat hnext
    | inr hnext => exact .second hat hnext

theorem accepts_turn_iff {greedy : Bool} {onward exit : Nat}
    (hat : code[address]? = some (.turn greedy onward exit)) :
    Accepts code text last n address i ↔ ∃ m, n = m + 1 ∧
      (Accepts code text last m onward i ∨ Accepts code text last m exit i) := by
  cases greedy with
  | true => exact accepts_fork_iff hat
  | false =>
    rw [accepts_fork_iff hat]
    simp only [or_comm]

theorem accepts_accept_iff (hat : code[address]? = some .accept) :
    Accepts code text last n address i ↔ n = 0 ∧ i = last := by
  constructor
  · intro h
    cases h with
    | accept => exact ⟨rfl, rfl⟩
    | _ hat' => exact absurd (hat.symm.trans hat') nofun
  · intro h
    obtain ⟨rfl, rfl⟩ := h
    exact .accept hat

/-! ## Parts of programs -/

/-- Instructions have what a program adds to another, where it is there. -/
def Holds (code : Array Instr) (p q : Program) : Prop :=
  ∀ a, p.code.size ≤ a → a < q.code.size → code[a]? = q.code[a]?

/-- The instructions of a program are there, and it has further ones. -/
structure Extends (p q : Program) : Prop where
  size_le : p.code.size ≤ q.code.size
  same : ∀ a < p.code.size, q.code[a]? = p.code[a]?

/-- A part put in front of programs leads from place to place: from its entry the instructions
accept just if it leads to a place from which they accept at the entry of the program behind it. -/
structure Prepends (text : List Char) (R : Nat → Nat → Prop) (body : Program → Program) :
    Prop where
  keeps (p : Program) : Extends p (body p)
  complete {p : Program} {code : Array Instr} {last n i k : Nat} (hcode : Holds code p (body p))
    (h : R i k) (hbehind : Accepts code text last n p.entry k) :
    ∃ m, Accepts code text last m (body p).entry i
  sound {p : Program} {code : Array Instr} {last n i : Nat} (hcode : Holds code p (body p))
    (h : Accepts code text last n (body p).entry i) :
    ∃ k m, m ≤ n ∧ R i k ∧ Accepts code text last m p.entry k

theorem Extends.refl (p : Program) : Extends p p := ⟨Nat.le_refl _, fun _ _ => rfl⟩

theorem Extends.trans {r : Program} (h : Extends p q) (h' : Extends q r) : Extends p r where
  size_le := Nat.le_trans h.size_le h'.size_le
  same a ha := (h'.same a (Nat.lt_of_lt_of_le ha h.size_le)).trans (h.same a ha)

theorem extends_push (p : Program) (instr : Instr) : Extends p (p.push instr) where
  size_le := by simp [push]
  same a ha := by
    rw [push, Array.getElem?_push_lt ha, Array.getElem?_eq_getElem ha]

/-- Where a program begins does not count. -/
theorem Extends.withEntry (h : Extends p q) (entry : Nat) : Extends p { q with entry } :=
  ⟨h.size_le, h.same⟩

theorem getElem?_push (p : Program) (instr : Instr) :
    (p.push instr).code[p.code.size]? = some instr := by
  rw [push, Array.getElem?_push_size]

/-- What instructions have of a program they have of its parts. -/
theorem Holds.split {r : Program} (hpq : Extends p q) (hqr : Extends q r)
    (h : Holds code p r) : Holds code p q ∧ Holds code q r := by
  constructor
  · intro a hp hq
    rw [h a hp (Nat.lt_of_lt_of_le hq hqr.size_le), hqr.same a hq]
  · intro a hq hr
    exact h a (Nat.le_trans hpq.size_le hq) hr

/-- The instruction that was put in front. -/
theorem Holds.push {instr : Instr} (h : Holds code p (p.push instr)) :
    code[p.code.size]? = some instr := by
  rw [h _ (Nat.le_refl _) (by simp [Program.push]), getElem?_push]

namespace Prepends

theorem congr (h : Prepends text R body) (heq : ∀ i j, R i j ↔ S i j) :
    Prepends text S body := by
  obtain rfl : R = S := funext fun i => funext fun j => propext (heq i j)
  exact h

protected theorem id : Prepends text (fun i j => j = i) id where
  keeps p := .refl p
  complete := by
    intro p code last n i k hcode h hbehind
    exact ⟨n, h ▸ hbehind⟩
  sound := by
    intro p code last n i hcode h
    exact ⟨i, n, Nat.le_refl n, rfl, h⟩

/-- A part in front of a part. -/
theorem comp {body' : Program → Program} (h : Prepends text R body)
    (h' : Prepends text S body') :
    Prepends text (fun i j => ∃ k, R i k ∧ S k j) (fun p => body (body' p)) where
  keeps p := (h'.keeps p).trans (h.keeps _)
  -- The front leads to the part behind it, which leads to what is behind both.
  complete := by
    intro p code last n i j hcode hij hbehind
    obtain ⟨k, hR, hS⟩ := hij
    obtain ⟨hbehind', hfront⟩ := hcode.split (h'.keeps p) (h.keeps _)
    obtain ⟨m, hmiddle⟩ := h'.complete hbehind' hS hbehind
    exact h.complete hfront hR hmiddle
  sound := by
    intro p code last n i hcode haccepts
    obtain ⟨hbehind', hfront⟩ := hcode.split (h'.keeps p) (h.keeps _)
    obtain ⟨k, m, hm, hR, hmiddle⟩ := h.sound hfront haccepts
    obtain ⟨j, l, hl, hS, hlast⟩ := h'.sound hbehind' hmiddle
    exact ⟨j, l, Nat.le_trans hl hm, ⟨k, hR, hS⟩, hlast⟩

/-- One instruction that has one way on. -/
theorem push {instr : Nat → Instr} (h : Leads text R instr) :
    Prepends text R fun p => p.push (instr p.entry) where
  keeps p := extends_push p _
  complete := by
    intro p code last n i k hcode hR hbehind
    exact ⟨n + 1, (h hcode.push).2 ⟨n, k, rfl, hR, hbehind⟩⟩
  sound := by
    intro p code last n i hcode haccepts
    obtain ⟨m, k, rfl, hR, hnext⟩ := (h hcode.push).1 haccepts
    exact ⟨k, m, Nat.le_succ m, hR, hnext⟩

/-- A number of turns. -/
theorem repeated (h : Prepends text R body) (n : Nat) :
    Prepends text (Turns R n) (Nat.repeat body n) := by
  induction n with
  | zero => exact Prepends.id
  | succ n ih => exact h.comp ih

/-- Two ways on. -/
theorem alt {body' : Program → Program} (h : Prepends text R body) (h' : Prepends text S body') :
    Prepends text (fun i j => R i j ∨ S i j) fun p =>
      let second := body' p
      let first := body { second with entry := p.entry }
      first.push (.fork first.entry second.entry) where
  keeps p :=
    (((h'.keeps p).withEntry p.entry).trans (h.keeps _)).trans (extends_push _ _)
  -- The second way comes before the first among the instructions, and the fork behind both.
  complete := by
    intro p code last n i k hcode hspans hbehind
    have hsecond := (h'.keeps p).withEntry p.entry
    obtain ⟨hways, hfork⟩ := hcode.split (hsecond.trans (h.keeps _)) (extends_push _ _)
    obtain ⟨hother, hway⟩ := hways.split hsecond (h.keeps _)
    cases hspans with
    | inl hR =>
      obtain ⟨m, hfirst⟩ := h.complete hway hR hbehind
      exact ⟨m + 1, .first hfork.push hfirst⟩
    | inr hS =>
      obtain ⟨m, hfirst⟩ := h'.complete hother hS hbehind
      exact ⟨m + 1, .second hfork.push hfirst⟩
  sound := by
    intro p code last n i hcode haccepts
    have hsecond := (h'.keeps p).withEntry p.entry
    obtain ⟨hways, hfork⟩ := hcode.split (hsecond.trans (h.keeps _)) (extends_push _ _)
    obtain ⟨hother, hway⟩ := hways.split hsecond (h.keeps _)
    obtain ⟨m, rfl, hnext⟩ := (accepts_fork_iff hfork.push).1 haccepts
    -- The fork goes on with the one way or the other.
    cases hnext with
    | inl hfirst =>
      obtain ⟨k, l, hl, hR, hbehind⟩ := h.sound hway hfirst
      exact ⟨k, l, Nat.le_succ_of_le hl, .inl hR, hbehind⟩
    | inr hfirst =>
      obtain ⟨k, l, hl, hS, hbehind⟩ := h'.sound hother hfirst
      exact ⟨k, l, Nat.le_succ_of_le hl, .inr hS, hbehind⟩

/-- One turn or none. -/
theorem option (h : Prepends text R body) (greedy : Bool) :
    Prepends text (fun i j => R i j ∨ j = i) fun p => p.option greedy body p.entry where
  keeps p := (h.keeps p).trans (extends_push _ _)
  complete := by
    intro p code last n i k hcode hspans hbehind
    obtain ⟨hbody, hturn⟩ := hcode.split (h.keeps p) (extends_push _ _)
    -- The decision comes last, and the turn leads to what is behind the loop.
    cases hspans with
    | inl hR =>
      obtain ⟨m, hfirst⟩ := h.complete hbody hR hbehind
      exact ⟨m + 1, (accepts_turn_iff hturn.push).2 ⟨m, rfl, .inl hfirst⟩⟩
    | inr heq => exact ⟨n + 1, (accepts_turn_iff hturn.push).2 ⟨n, rfl, .inr (heq ▸ hbehind)⟩⟩
  sound := by
    intro p code last n i hcode haccepts
    obtain ⟨hbody, hturn⟩ := hcode.split (h.keeps p) (extends_push _ _)
    obtain ⟨m, rfl, hnext⟩ := (accepts_turn_iff hturn.push).1 haccepts
    cases hnext with
    | inl hfirst =>
      obtain ⟨k, l, hl, hR, hbehind⟩ := h.sound hbody hfirst
      exact ⟨k, l, Nat.le_succ_of_le hl, .inl hR, hbehind⟩
    | inr hbehind => exact ⟨i, m, Nat.le_succ m, .inr rfl, hbehind⟩

/-! ## Loops -/

theorem extends_turns (h : Prepends text R body) (greedy : Bool) (p : Program) :
    Extends p (p.turns greedy body) := by
  have hpush := (extends_push p .accept).trans (h.keeps (p.push .accept))
  refine ⟨?_, fun a ha => ?_⟩
  · rw [turns, Array.size_setIfInBounds]
    exact hpush.size_le
  · rw [turns, Array.getElem?_setIfInBounds_ne (Nat.ne_of_gt ha)]
    exact hpush.same a ha

/-- Behind a turn stands the decision on one more. -/
theorem holds_turns (h : Prepends text R body) {greedy : Bool}
    (hcode : Holds code p (p.turns greedy body)) :
    code[p.code.size]? = some (.turn greedy (p.turns greedy body).entry p.entry) ∧
      Holds code (p.push .accept) (body (p.push .accept)) := by
  have hsize : (p.push .accept).code.size = p.code.size + 1 := Array.size_push _
  have hlt : p.code.size < (body (p.push .accept)).code.size := by
    have hle := (h.keeps (p.push .accept)).size_le
    omega
  constructor
  · rw [hcode _ (Nat.le_refl _) (by rwa [turns, Array.size_setIfInBounds]), turns,
      Array.getElem?_setIfInBounds_self_of_lt hlt]
  · intro a ha hlt
    rw [hcode a (by omega) (by rwa [turns, Array.size_setIfInBounds]), turns,
      Array.getElem?_setIfInBounds_ne (by omega)]

theorem accepts_of_turns (h : Prepends text R body) {greedy : Bool}
    (hcode : Holds code p (p.turns greedy body)) (hturns : Turns R (n + 1) i j)
    (hbehind : ∃ m, Accepts code text last m p.entry j) :
    ∃ m, Accepts code text last m (p.turns greedy body).entry i := by
  obtain ⟨hdecision, hbody⟩ := h.holds_turns hcode
  -- After the first turn the decision is on those that are left.
  have hrest : ∀ {k}, Turns R n k j → ∃ m, Accepts code text last m p.code.size k := by
    -- Without a turn left the decision leads on.
    induction n generalizing i with
    | zero =>
      intro k hk
      obtain rfl : j = k := hk
      obtain ⟨m, hbehind⟩ := hbehind
      exact ⟨m + 1, (accepts_turn_iff hdecision).2 ⟨m, rfl, .inr hbehind⟩⟩
    -- With one more turn, the decision leads back to it.
    | succ n ih =>
      intro k hk
      obtain ⟨l, hR, hl⟩ := hk
      obtain ⟨m, hnext⟩ := ih ⟨l, hR, hl⟩ hl
      obtain ⟨m, hfirst⟩ := h.complete hbody hR hnext
      exact ⟨m + 1, (accepts_turn_iff hdecision).2 ⟨m, rfl, .inl hfirst⟩⟩
  obtain ⟨k, hR, hk⟩ := hturns
  obtain ⟨m, hnext⟩ := hrest hk
  exact h.complete hbody hR hnext

theorem turns_of_accepts (h : Prepends text R body) {greedy : Bool}
    (hcode : Holds code p (p.turns greedy body))
    (haccepts : Accepts code text last n (p.turns greedy body).entry i) :
    ∃ j m t, m ≤ n ∧ Turns R (t + 1) i j ∧ Accepts code text last m p.entry j := by
  obtain ⟨hdecision, hbody⟩ := h.holds_turns hcode
  -- A turn may take no step, but the decision behind it takes one, so the steps get fewer.
  induction n using Nat.strongRecOn generalizing i with
  | ind n ih =>
    obtain ⟨k, m, hm, hR, hnext⟩ := h.sound hbody haccepts
    obtain ⟨l, rfl, hway⟩ := (accepts_turn_iff hdecision).1 hnext
    cases hway with
    | inl hagain =>
      obtain ⟨j, m, t, hle, hturns, hbehind⟩ := ih l hm hagain
      exact ⟨j, m, t + 1, by omega, ⟨k, hR, hturns⟩, hbehind⟩
    | inr hbehind => exact ⟨k, l, 0, by omega, ⟨k, hR, rfl⟩, hbehind⟩

/-- One turn or more. -/
protected theorem turns (h : Prepends text R body) (greedy : Bool) :
    Prepends text (fun i j => ∃ n, Turns R (n + 1) i j) (Program.turns greedy body) where
  keeps := h.extends_turns greedy
  complete := by
    intro p code last n i k hcode hspans hbehind
    obtain ⟨t, hturns⟩ := hspans
    exact h.accepts_of_turns hcode hturns ⟨n, hbehind⟩
  sound := by
    intro p code last n i hcode haccepts
    obtain ⟨j, m, t, hle, hturns, hbehind⟩ := h.turns_of_accepts hcode haccepts
    exact ⟨j, m, hle, ⟨t, hturns⟩, hbehind⟩

/-- Any number of turns, where the decision on the first is that on every other. -/
theorem anyTurns (h : Prepends text R body) (greedy : Bool) :
    Prepends text (fun i j => ∃ n, Turns R n i j) (Program.anyTurns greedy body) where
  keeps p := (h.extends_turns greedy p).withEntry _
  complete := by
    intro p code last n i k hcode hspans hbehind
    obtain ⟨hdecision, -⟩ := h.holds_turns hcode
    obtain ⟨t, hturns⟩ := hspans
    -- No turn, or at least one.
    cases t with
    | zero =>
      obtain rfl : k = i := hturns
      exact ⟨n + 1, (accepts_turn_iff hdecision).2 ⟨n, rfl, .inr hbehind⟩⟩
    | succ t =>
      obtain ⟨m, hfirst⟩ := h.accepts_of_turns hcode hturns ⟨n, hbehind⟩
      exact ⟨m + 1, (accepts_turn_iff hdecision).2 ⟨m, rfl, .inl hfirst⟩⟩
  sound := by
    intro p code last n i hcode haccepts
    obtain ⟨hdecision, -⟩ := h.holds_turns hcode
    obtain ⟨m, rfl, hway⟩ := (accepts_turn_iff hdecision).1 haccepts
    cases hway with
    | inl hfirst =>
      obtain ⟨j, l, t, hle, hturns, hbehind⟩ := h.turns_of_accepts hcode hfirst
      exact ⟨j, l, Nat.le_succ_of_le hle, ⟨t + 1, hturns⟩, hbehind⟩
    | inr hbehind => exact ⟨i, m, Nat.le_succ m, ⟨0, rfl⟩, hbehind⟩

theorem extends_atMost (h : Prepends text R body) (greedy : Bool) (most : Nat) (p : Program) :
    Extends p (p.atMost greedy body most) := by
  induction most with
  | zero => exact .refl p
  | succ most ih => exact (ih.trans (h.keeps _)).trans (extends_push _ _)

/-- Turns up to a number (`atMost`). All of them have the same exit, that of the last one. -/
theorem atMost (h : Prepends text R body) (greedy : Bool) (most : Nat) :
    Prepends text (fun i j => ∃ n ≤ most, Turns R n i j) (Program.atMost greedy body most) where
  keeps := h.extends_atMost greedy most
  -- By induction on the bound: the instructions of fewer turns are behind those of one more.
  complete := by
    intro p code last n i k hcode hspans hbehind
    obtain ⟨t, ht, hturns⟩ := hspans
    induction most generalizing i t with
    | zero =>
      obtain rfl := Nat.le_zero.1 ht
      obtain rfl : k = i := hturns
      exact ⟨n, hbehind⟩
    | succ most ih =>
      have hfewer := h.extends_atMost greedy most p
      obtain ⟨hturn, hdecision⟩ := hcode.split (hfewer.trans (h.keeps _)) (extends_push _ _)
      obtain ⟨hfewer, hbody⟩ := hturn.split hfewer (h.keeps _)
      cases t with
      | zero =>
        obtain rfl : k = i := hturns
        exact ⟨n + 1, (accepts_turn_iff hdecision.push).2 ⟨n, rfl, .inr hbehind⟩⟩
      | succ t =>
        obtain ⟨l, hR, hrest⟩ := hturns
        obtain ⟨m, hnext⟩ := ih hfewer t (Nat.le_of_succ_le_succ ht) hrest
        obtain ⟨m, hfirst⟩ := h.complete hbody hR hnext
        exact ⟨m + 1, (accepts_turn_iff hdecision.push).2 ⟨m, rfl, .inl hfirst⟩⟩
  sound := by
    -- Each turn that was made leaves fewer to come.
    intro p code last n i hcode haccepts
    induction most generalizing i n with
    | zero => exact ⟨i, n, Nat.le_refl n, ⟨0, Nat.le_refl 0, rfl⟩, haccepts⟩
    | succ most ih =>
      have hfewer := h.extends_atMost greedy most p
      obtain ⟨hturn, hdecision⟩ := hcode.split (hfewer.trans (h.keeps _)) (extends_push _ _)
      obtain ⟨hfewer, hbody⟩ := hturn.split hfewer (h.keeps _)
      obtain ⟨m, rfl, hway⟩ := (accepts_turn_iff hdecision.push).1 haccepts
      cases hway with
      | inl hfirst =>
        obtain ⟨k, l, hl, hR, hnext⟩ := h.sound hbody hfirst
        obtain ⟨j, r, hr, ⟨t, ht, hturns⟩, hbehind⟩ := ih hfewer hnext
        exact ⟨j, r, by omega, ⟨t + 1, Nat.succ_le_succ ht, k, hR, hturns⟩, hbehind⟩
      | inr hbehind => exact ⟨i, m, Nat.le_succ m, ⟨0, Nat.zero_le _, rfl⟩, hbehind⟩

end Prepends

/-! ## The programs of patterns -/

variable {e : Expr}

theorem prepends_literal (s : List Char) : Prepends text ((Expr.literal s).Spans text)
    fun p => s.foldr (fun c p => p.push (.one (.single c) p.entry)) p := by
  induction s with
  | nil =>
    refine Prepends.id.congr fun i j => ?_
    simp [Expr.Spans]
  | cons c s ih =>
    refine ((Prepends.push (leads_one (.single c))).comp ih).congr fun i j => ?_
    rw [← List.singleton_append, Expr.spans_literal_append]
    simp only [Expr.spans_single]

/-- A loop without bounds. Only if every turn reads something (`shortest?`) is the first decision
that on every other. -/
theorem prepends_loop_any (h : Prepends text (e.Spans text) (prepend e)) (greedy : Bool) :
    Prepends text ((Expr.loop 0 none greedy e).Spans text) (prepend (.loop 0 none greedy e)) := by
  cases hshortest : e.shortest?.any (0 < ·) with
  | true =>
    have hprepend : prepend (.loop 0 none greedy e) = anyTurns greedy (prepend e) := by
      funext p
      simp only [prepend, hshortest, if_true]
    rw [hprepend]
    exact (h.anyTurns greedy).congr fun i j => Expr.spans_loop_any.symm
  | false =>
    have hprepend : prepend (.loop 0 none greedy e) =
        fun p => p.option greedy (turns greedy (prepend e)) p.entry := by
      funext p
      simp only [prepend, hshortest, Bool.false_eq_true, if_false]
      rfl
    rw [hprepend]
    refine ((h.turns greedy).option greedy).congr fun i j => ?_
    rw [Expr.spans_loop_any]
    -- No turn is the decision against the first one.
    constructor
    · intro hturns
      cases hturns with
      | inl hsome =>
        obtain ⟨n, hn⟩ := hsome
        exact ⟨n + 1, hn⟩
      | inr hnone => exact ⟨0, hnone⟩
    · intro hturns
      obtain ⟨n, hn⟩ := hturns
      cases n with
      | zero => exact .inr hn
      | succ n => exact .inl ⟨n, hn⟩

/-- A loop has the turns that it has to have, and then those that it may have. -/
theorem prepends_loop (h : Prepends text (e.Spans text) (prepend e)) {least : Nat}
    {most : Option Nat} (hbounds : ∀ m ∈ most, least ≤ m) (greedy : Bool) :
    Prepends text ((Expr.loop least most greedy e).Spans text)
      (prepend (.loop least most greedy e)) := by
  cases most with
  -- Without an upper bound the turns that have to be made come first, if there are any.
  | none =>
    cases least with
    | zero => exact prepends_loop_any h greedy
    | succ least =>
      exact ((h.repeated least).comp (h.turns greedy)).congr fun i j =>
        Expr.spans_loop_from_succ.symm
  -- With an upper bound, those that may be made are counted as well.
  | some most =>
    have hprepend : prepend (.loop least (some most) greedy e) =
        fun p => Nat.repeat (prepend e) least (p.atMost greedy (prepend e) (most - least)) := by
      cases least with
      | zero => rfl
      | succ least => rfl
    rw [hprepend]
    exact ((h.repeated least).comp (h.atMost greedy (most - least))).congr fun i j =>
      (Expr.spans_loop_upTo (hbounds most rfl)).symm

/-- `prepend` puts in front of a program one that matches what the pattern means. -/
theorem prepends_prepend (he : e.IsProper) : Prepends text (e.Spans text) (prepend e) := by
  induction e with
  | empty => exact Prepends.id
  | literal s => exact prepends_literal s
  | one s => exact Prepends.push (leads_one s)
  | assert a => exact Prepends.push (leads_assert a)
  | seq e f ihe ihf => exact (ihe he.1).comp (ihf he.2)
  | alt e f ihe ihf => exact (ihe he.1).alt (ihf he.2)
  | loop least most greedy e ih => exact prepends_loop (ih he.2) he.1 greedy
  | group index e ih =>
    -- A group marks the place where it begins and the one where it ends.
    have hmarks := (Prepends.push (leads_mark (2 * index))).comp
      ((ih he).comp (Prepends.push (leads_mark (2 * index + 1))))
    refine hmarks.congr fun i j => ?_
    simp [Expr.Spans]

/-- A whole program accepts where its pattern has matched. -/
theorem accepts_ofExpr_iff (he : e.IsProper) :
    (∃ n, Accepts (ofExpr e).code text j n (ofExpr e).entry i) ↔ e.Spans text i j := by
  have hprepend : Prepends text (e.Spans text) (prepend e) := prepends_prepend he
  have hdone : (ofExpr e).code[0]? = some .accept := (hprepend.keeps done).same 0 Nat.zero_lt_one
  -- The whole program is put in front of the instruction that accepts.
  have hcode : Holds (ofExpr e).code done (ofExpr e) := fun _ _ _ => rfl
  constructor
  · intro h
    obtain ⟨n, haccepts⟩ := h
    obtain ⟨k, m, -, hspans, hend⟩ := hprepend.sound hcode haccepts
    obtain ⟨-, rfl⟩ := (accepts_accept_iff hdone).1 hend
    exact hspans
  · intro h
    exact hprepend.complete hcode h (.accept hdone)

end Program

end Morphology.Pattern
