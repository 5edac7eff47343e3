import Morphology.Pattern.Search
import Morphology.Proofs.Pattern.Meaning
import Morphology.Proofs.Pattern.Tokens

/-!
# What is read of a text

Every step of reading keeps the open groups proper: the sets of their patterns are, and the bounds
of their loops are in order.  At the end the outermost group is all of the text, unless another one
is still open.

## Main definitions

* `Part.IsProper`, `Draft.IsProper`, `Reading.IsProper` — what is read so far is proper
* `Draft.choices`, `Draft.expr` — the alternatives of a group, and all of it
* `Reading.after?` — the state behind some tokens
* `outermost?` — what is read of a whole text, as the group around it

## Main statements

* `Reading.IsProper.next?` — a token keeps what is read proper
* `isProper_of_outermost?` — what is read of a text is proper
* `exists_read?_iff` — a text is a pattern unless it is nested too deep or an automaton too large
-/

namespace Morphology.Pattern

/-! ## What is read is proper -/

/-- The pattern of a part, if it has one, is proper. -/
def Part.IsProper (p : Part) : Prop :=
  ∀ e ∈ p.expr, e.IsProper

theorem Part.isProper_some {e : Expr} {depth : Nat} (he : e.IsProper) :
    Part.IsProper ⟨some e, depth⟩ := by
  intro e' he'
  exact Option.some.inj he' ▸ he

theorem Part.bounded?_eq_some_iff {p q : Part} :
    p.bounded? = some q ↔ p = q ∧ p.depth ≤ greatestDepth := by
  unfold Part.bounded?
  split
  · rename_i hle
    rw [Option.some.injEq, and_iff_left hle]
  · rename_i hle
    exact ⟨nofun, fun h => absurd h.2 hle⟩

namespace Draft

/-- All parts of a group and all its complete alternatives are proper. -/
structure IsProper (d : Draft) : Prop where
  alternatives : ∀ p ∈ d.alternatives, p.IsProper
  parts : ∀ p ∈ d.parts, p.IsProper

/-- The alternatives from the first to the last. -/
def choices (d : Draft) : List Expr :=
  (d.current :: d.alternatives).reverse.filterMap Part.expr

/-- The pattern of the group. -/
def expr (d : Draft) : Expr :=
  Expr.choice d.choices

variable {d d' : Draft} {p : Part} {ps : List Part} {e : Expr} {t : Token} {m : Modes}

theorem isProper_of_mem_filterMap (hps : ∀ p ∈ ps, p.IsProper)
    (he : e ∈ ps.reverse.filterMap Part.expr) : e.IsProper := by
  obtain ⟨p, hp, hexpr⟩ := List.mem_filterMap.1 he
  exact hps p (List.mem_reverse.1 hp) e hexpr

theorem IsProper.current (hd : d.IsProper) : d.current.IsProper := by
  apply Part.isProper_some
  apply Expr.isProper_sequence
  intro e he
  exact isProper_of_mem_filterMap hd.parts he

theorem IsProper.choices (hd : d.IsProper) : ∀ e ∈ d.choices, e.IsProper := by
  have hall : ∀ p ∈ d.current :: d.alternatives, p.IsProper :=
    List.forall_mem_cons.2 ⟨hd.current, hd.alternatives⟩
  exact fun e he => isProper_of_mem_filterMap hall he

theorem IsProper.expr (hd : d.IsProper) : d.expr.IsProper :=
  Expr.isProper_choice hd.choices

theorem IsProper.push (hd : d.IsProper) (hp : p.IsProper) : (d.push p).IsProper :=
  ⟨hd.alternatives, List.forall_mem_cons.2 ⟨hp, hd.parts⟩⟩

end Draft

theorem Modes.isProper_char (m : Modes) (c : Char) : (m.char c).IsProper := by
  have hvariants := CharSet.isProper_ofChars (caseVariants c)
  unfold Modes.char
  -- The table of cases is not to be computed here.
  generalize CharSet.ofChars (caseVariants c) = s at hvariants ⊢
  cases m.ignoreCase with
  | true => exact Expr.isProper_ofSet hvariants
  | false => trivial

theorem Modes.isProper_dot (m : Modes) : m.dot.IsProper := by
  -- Without the switch a dot leaves the end of the line out.
  unfold Modes.dot
  split
  · exact CharSet.isProper_any
  · split
    · exact CharSet.isProper_inLineCRLF
    · exact CharSet.isProper_inLine

/-- The part of a token is proper if the token is. -/
theorem Modes.isProper_of_atom? {m : Modes} {t : Token} {p : Part} (ht : t.IsProper)
    (h : m.atom? t = some p) : p.IsProper := by
  -- A character may stand for both its cases; a set is as the token has it.
  cases t with
  | char c =>
    obtain rfl := Option.some.inj h
    exact Part.isProper_some (m.isProper_char c)
  | set s =>
    obtain rfl := Option.some.inj h
    exact Part.isProper_some (Expr.isProper_ofSet ht)
  | bracket s =>
    obtain rfl := Option.some.inj h
    exact Part.isProper_some (Expr.isProper_ofSet (SetExpr.isProper_toSet _ ht))
  | dot =>
    obtain rfl := Option.some.inj h
    exact Part.isProper_some (show m.dot.IsProper from m.isProper_dot)
  | assertion a =>
    obtain rfl := Option.some.inj h
    exact Part.isProper_some trivial
  | caret =>
    obtain rfl := Option.some.inj h
    exact Part.isProper_some trivial
  | dollar =>
    obtain rfl := Option.some.inj h
    exact Part.isProper_some trivial
  -- The other tokens are no parts but signs of the pattern itself.
  | _ => exact absurd h nofun

namespace Reading

/-- All groups that are open are proper. -/
structure IsProper (r : Reading) : Prop where
  innermost : r.innermost.IsProper
  outer : ∀ around ∈ r.outer, around.2.IsProper

variable {r r' s s' : Reading} {t : Token} {ts : List Token}

theorem isProper_start : start.IsProper :=
  ⟨⟨nofun, nofun⟩, nofun⟩

/-- A group that ends is a part of the one around it. -/
theorem IsProper.close? (hr : r.IsProper) (h : r.close? = some s) : s.IsProper := by
  unfold Reading.close? at h
  split at h
  · exact absurd h nofun
  · rename_i index around outer houter
    have houters : ∀ o ∈ (index, around) :: outer, o.2.IsProper := houter ▸ hr.outer
    obtain ⟨haround, houters⟩ := List.forall_mem_cons.1 houters
    obtain ⟨part, hpart, rfl⟩ := Option.map_eq_some_iff.1 h
    have hwhole : part.IsProper := by
      rw [← (Part.bounded?_eq_some_iff.1 hpart).1]
      cases index with
      | none => exact Part.isProper_some hr.innermost.expr
      | some i => exact Part.isProper_some hr.innermost.expr
    exact ⟨haround.push hwhole, houters⟩

theorem IsProper.repeat? {greedy : Bool} {least : Nat} {most : Option Nat} (hr : r.IsProper)
    (hbounds : ∀ m ∈ most, least ≤ m) (h : r.repeat? greedy least most = some s) :
    s.IsProper := by
  unfold Reading.repeat? at h
  split at h
  · rename_i p depth before hparts
    have hall : ∀ q ∈ ⟨some p, depth⟩ :: before, q.IsProper := hparts ▸ hr.innermost.parts
    obtain ⟨hp, hbefore⟩ := List.forall_mem_cons.1 hall
    obtain ⟨part, hpart, rfl⟩ := Option.map_eq_some_iff.1 h
    have hrepeated : part.IsProper := by
      rw [← (Part.bounded?_eq_some_iff.1 hpart).1]
      exact Part.isProper_some (Expr.isProper_repeated hbounds (hp p rfl))
    exact ⟨⟨hr.innermost.alternatives, List.forall_mem_cons.2 ⟨hrepeated, hbefore⟩⟩, hr.outer⟩
  · exact absurd h nofun

theorem IsProper.open? {o : Opening} (hr : r.IsProper) (h : r.open? o = some s) :
    s.IsProper := by
  have hopened (index : Option Nat) : ∀ around ∈ (index, r.innermost) :: r.outer,
      around.2.IsProper := List.forall_mem_cons.2 ⟨hr.innermost, hr.outer⟩
  unfold Reading.open? at h
  split at h
  · obtain rfl := Option.some.inj h
    exact ⟨⟨nofun, nofun⟩, hopened none⟩
  · dsimp only at h
    split at h
    · obtain rfl := Option.some.inj h
      exact ⟨⟨nofun, nofun⟩, hopened _⟩
    · split at h
      · exact absurd h nofun
      · obtain rfl := Option.some.inj h
        exact ⟨⟨nofun, nofun⟩, hopened _⟩

/-- A proper token leads from proper groups to proper groups. -/
theorem IsProper.next? (hr : r.IsProper) (ht : t.IsProper) (h : r.next? t = some s) :
    s.IsProper := by
  have hinnermost := hr.innermost
  unfold Reading.next? at h
  split at h
  · exact hr.open? h
  · exact hr.close? h
  · exact hr.repeat? ht h
  · obtain rfl := Option.some.inj h
    exact ⟨⟨List.forall_mem_cons.2 ⟨hinnermost.current, hinnermost.alternatives⟩, nofun⟩, hr.outer⟩
  · obtain rfl := Option.some.inj h
    exact ⟨⟨hinnermost.alternatives, List.forall_mem_cons.2 ⟨nofun, hinnermost.parts⟩⟩, hr.outer⟩
  · obtain ⟨p, hp, rfl⟩ := Option.map_eq_some_iff.1 h
    exact ⟨hinnermost.push (Modes.isProper_of_atom? ht hp), hr.outer⟩

/-- The state behind some tokens. -/
def after? (r : Reading) (ts : List Token) : Option Reading :=
  ts.foldlM Reading.next? r

theorem after?_cons : r.after? (t :: ts) = (r.next? t).bind (·.after? ts) := rfl

theorem after?_append {us : List Token} :
    r.after? (ts ++ us) = (r.after? ts).bind (·.after? us) :=
  List.foldlM_append

theorem IsProper.after? (hr : r.IsProper) (hts : ∀ t ∈ ts, t.IsProper) (h : r.after? ts = some s) :
    s.IsProper := by
  induction ts generalizing r with
  | nil => exact Option.some.inj h ▸ hr
  | cons t ts ih =>
    obtain ⟨ht, hts⟩ := List.forall_mem_cons.1 hts
    obtain ⟨r', hr', hrest⟩ := Option.bind_eq_some_iff.1 h
    exact ih (hr.next? ht hr') hts hrest

/-- The outermost group, if no other is open. -/
def outermost? (r : Reading) : Option Draft :=
  if r.outer.isEmpty then some r.innermost else none

theorem finish?_eq : r.finish? ts = (r.after? ts).bind fun s => s.outermost?.bind fun d =>
    (d.whole.bounded?.bind Part.expr).map (·, s.names) := by
  induction ts generalizing r with
  | nil =>
    simp only [finish?, Reading.after?, List.foldlM_nil, Option.pure_def, Option.bind_some,
      Reading.outermost?]
    split
    · rfl
    · rfl
  | cons t ts ih =>
    rw [finish?, after?_cons]
    cases r.next? t with
    | none => rfl
    | some s => exact ih

end Reading

/-! ## Whole texts -/

/-- What is read of a text, as the group around all of it. -/
def outermost? (text : String) : Option Draft :=
  (Token.scan text.toList).bind fun ts => (Reading.start.after? ts).bind Reading.outermost?

theorem isProper_of_outermost? {text : String} {d : Draft} (h : outermost? text = some d) :
    d.IsProper := by
  obtain ⟨ts, hts, h⟩ := Option.bind_eq_some_iff.1 h
  obtain ⟨r, hr, hd⟩ := Option.bind_eq_some_iff.1 h
  have hproper := Reading.isProper_start.after? (fun t ht => Token.isProper_of_mem_scan hts ht) hr
  unfold Reading.outermost? at hd
  split at hd
  · exact Option.some.inj hd ▸ hproper.innermost
  · exact absurd hd nofun

/-- A text whose tokens are in order (`outermost?`) is a pattern, unless it is nested too deep or an
automaton is too large. -/
theorem exists_read?_iff {text : String} {e : Expr} :
    (∃ p, Pattern.read? text = some p ∧ p.expr = e) ↔ ∃ d, outermost? text = some d ∧
      d.expr = e ∧ d.whole.depth ≤ greatestDepth ∧ e.isTooLarge = false := by
  simp only [Pattern.read?, outermost?, Option.bind_eq_bind, Option.bind_eq_some_iff,
    Reading.finish?_eq, Option.map_eq_some_iff]
  constructor
  · intro h
    obtain ⟨p, ⟨⟨e, names⟩, ⟨ts, hts, s, hs, d, hd, _, ⟨part, hpart, hexpr⟩, heq⟩, hp⟩, rfl⟩ := h
    obtain ⟨rfl, rfl⟩ := Prod.mk.inj heq
    obtain ⟨rfl, hdepth⟩ := Part.bounded?_eq_some_iff.1 hpart
    have hexpr : d.expr = _ := Option.some.inj hexpr
    split at hp
    · exact absurd hp nofun
    · rename_i hsize
      obtain rfl := Option.some.inj hp
      exact ⟨d, ⟨ts, hts, s, hs, hd⟩, hexpr, hdepth, Bool.eq_false_iff.2 hsize⟩
  · intro h
    obtain ⟨d, ⟨ts, hts, s, hs, hd⟩, rfl, hdepth, hsize⟩ := h
    have hbounded := Part.bounded?_eq_some_iff.2 ⟨rfl, hdepth⟩
    refine ⟨{ text, expr := d.expr, program := .ofExpr d.expr, names := s.names },
      ⟨(d.expr, s.names), ⟨ts, hts, s, hs, d, hd, d.expr, ⟨_, hbounded, rfl⟩, rfl⟩, ?_⟩, rfl⟩
    rw [hsize]
    rfl

end Morphology.Pattern
