import Mathlib.Data.List.TakeDrop
import Mathlib.Data.List.TakeWhile
import Morphology.Pattern.Token
import Morphology.Proofs.Pattern.Sets
import Morphology.Proofs.Text.Replacement

/-!
# Tokens of anchored text

A dollar sign behind a text that consists of tokens is one more token: nothing that reads a token
comes to it, and nothing that looks ahead takes it for something else.  A caret in front is a token
of its own.

## Main definitions

* `Token.IsProper` — the sets of a token are proper, and bounds of a repetition are in order
* `Token.Scans` — a reader does not mind a dollar sign behind a text
* `Token.HasSwitches` — a text has switches for the rest of a group

## Main statements

* `Token.isProper_of_mem_scan` — all tokens of a text are proper
* `Token.scan_caret`, `Token.scan_dollar` — the tokens of a text with an anchor at an end
* `Token.hasSwitches_of_mem_scan` — a switch among the tokens stands in the text
-/

namespace Morphology.Pattern

namespace Token

/-- The sets of a token are proper, and the bounds of a repetition are in order. -/
def IsProper : Token → Prop
  | .set s => s.IsProper
  | .bracket s => s.IsProper
  | .repetition _ least most => ∀ m ∈ most, least ≤ m
  | _ => True

/-- What is read has a property and stands in front of what is not.  It is read as well with a
dollar sign behind the text, which then stays behind what is not read. -/
def Scans {α : Type} (P : α → Prop) (read : List Char → Option (α × List Char)) : Prop :=
  ∀ ⦃s x rest⦄, read s = some (x, rest) →
    P x ∧ rest <:+ s ∧ read (s ++ ['$']) = some (x, rest ++ ['$'])

variable {s rest : List Char} {t : Token} {p : Char → Bool} {c : Char}

/-- What is made of what is read. -/
theorem Scans.map {α β : Type} {P : α → Prop} {Q : β → Prop}
    {read : List Char → Option (α × List Char)} (h : Scans P read) {f : α → β}
    (hf : ∀ x, P x → Q (f x)) : Scans Q fun s => (read s).map fun (x, rest) => (f x, rest) := by
  intro s y rest hy
  obtain ⟨⟨x, rest'⟩, hx, heq⟩ := Option.map_eq_some_iff.1 hy
  obtain ⟨rfl, rfl⟩ := Prod.mk.inj heq
  obtain ⟨hP, hsuffix, hdollar⟩ := h hx
  exact ⟨hf x hP, hsuffix, Option.map_eq_some_iff.2 ⟨_, hdollar, rfl⟩⟩

/-- A text that does not begin in some way does not do so with a dollar sign behind it. -/
theorem not_begins_append (front : List Char) (hfront : '$' ∉ front)
    (h : ∀ rest, s = front ++ rest → False) : ∀ rest, s ++ ['$'] = front ++ rest → False := by
  intro rest heq
  obtain ⟨a, ha, hrest⟩ | ⟨a, ha, -⟩ := List.append_eq_append_iff.1 heq
  · cases a with
    | nil => exact h [] (by rw [ha, List.append_nil, List.append_nil])
    | cons d a =>
      obtain ⟨rfl, -⟩ := List.cons.inj hrest
      exact hfront (ha ▸ List.mem_append_right s (List.mem_cons_self ..))
  · exact h a ha

theorem and_suffix_cons {P Q : Prop} (c : Char) (h : P ∧ rest <:+ s ∧ Q) :
    P ∧ rest <:+ c :: s ∧ Q :=
  h.imp_right (And.imp_left (·.trans (List.suffix_cons c s)))

theorem suffix_of_span {front : List Char} (h : s.span p = (front, rest)) : rest <:+ s :=
  ⟨front, (Text.span_spec h).1.symm⟩

/-! ## Escapes -/

theorem span_append {front : List Char} (h : s.span p = (front, c :: rest)) (behind : List Char) :
    (s ++ behind).span p = (front, c :: rest ++ behind) := by
  simp only [List.span_eq_takeWhile_dropWhile, Prod.mk.injEq] at h ⊢
  obtain ⟨rfl, hdrop⟩ := h
  induction s with
  | nil => exact absurd hdrop nofun
  -- The dollar sign stands behind the first character that `p` refuses.
  | cons d s ih =>
    cases hd : p d with
    | true =>
      rw [List.dropWhile_cons_of_pos hd] at hdrop
      obtain ⟨htake, hdrop⟩ := ih hdrop
      rw [List.cons_append, List.takeWhile_cons_of_pos hd, List.takeWhile_cons_of_pos hd,
        List.dropWhile_cons_of_pos hd]
      exact ⟨congrArg _ htake, hdrop⟩
    | false =>
      have hd : ¬ p d = true := by rw [hd]; exact Bool.false_ne_true
      rw [List.dropWhile_cons_of_neg hd] at hdrop
      rw [List.cons_append, List.takeWhile_cons_of_neg hd, List.takeWhile_cons_of_neg hd,
        List.dropWhile_cons_of_neg hd, ← List.cons_append, hdrop]
      exact ⟨rfl, rfl⟩

theorem span_concat {front : List Char} (h : s.span p = (front, [])) (hc : p c = true) :
    (s ++ [c]).span p = (front ++ [c], []) := by
  simp only [List.span_eq_takeWhile_dropWhile, Prod.mk.injEq] at h ⊢
  obtain ⟨rfl, hdrop⟩ := h
  have hall : ∀ d ∈ s, p d = true := List.dropWhile_eq_nil_iff.1 hdrop
  rw [List.takeWhile_append_of_pos hall, List.dropWhile_append_of_pos hall,
    List.takeWhile_cons_of_pos hc, List.dropWhile_cons_of_pos hc,
    List.takeWhile_eq_self_iff.2 hall]
  exact ⟨rfl, rfl⟩

theorem scans_hexEscape? (width : Nat) : Scans (fun _ => True) (hexEscape? width) := by
  intro s c rest h
  refine ⟨trivial, ?_⟩
  unfold hexEscape? at h
  split at h
  · -- in braces
    split at h
    · rename_i digits close behind hspan
      obtain ⟨d, hd, heq⟩ := Option.map_eq_some_iff.1 h
      obtain ⟨rfl, rfl⟩ := Prod.mk.inj heq
      refine ⟨((List.suffix_cons close _).trans (suffix_of_span hspan)).trans
        (List.suffix_cons ..), ?_⟩
      simp only [hexEscape?, List.cons_append, span_append hspan, hd, Option.map_some]
    · exact absurd h nofun
  · -- in digits
    rename_i hbrace
    split at h
    · exact absurd h nofun
    · rename_i hlength
      obtain ⟨d, hd, heq⟩ := Option.map_eq_some_iff.1 h
      obtain ⟨rfl, rfl⟩ := Prod.mk.inj heq
      refine ⟨List.drop_suffix width s, ?_⟩
      have hle : width ≤ s.length := Nat.le_of_not_lt hlength
      -- The dollar sign is no brace either.
      have hbrace' : ∀ behind, s ++ ['$'] ≠ '\x7b' :: behind := by
        intro behind heq
        cases s with
        | nil => exact absurd (List.cons.inj heq).1 (by decide)
        | cons c s => exact hbrace s (by rw [(List.cons.inj heq).1])
      rw [hexEscape?]
      · rw [if_neg (by rw [List.length_append]; omega), List.take_append_of_le_length hle,
          List.drop_append_of_le_length hle, hd, Option.map_some]
      · exact hbrace'

theorem scans_wordEdge? : Scans (fun _ => True) wordEdge? := by
  intro s a rest
  fun_cases wordEdge? s with
  | case1 inside behind hspan =>
    -- The braces are for a repetition, and stay.
    intro h
    obtain ⟨rfl, rfl⟩ := Prod.mk.inj (Option.some.inj h)
    refine ⟨trivial, List.suffix_refl _, ?_⟩
    cases behind with
    | nil =>
      obtain rfl : inside = [] := (Text.span_spec hspan).1
      rfl
    | cons c behind => simp only [List.cons_append, wordEdge?, span_append hspan]
  | case2 inside kind behind hne hspan =>
    intro h
    obtain ⟨kind', hkind, heq⟩ := Option.map_eq_some_iff.1 h
    obtain ⟨rfl, rfl⟩ := Prod.mk.inj heq
    refine and_suffix_cons _ ⟨trivial, (List.suffix_cons ..).trans (suffix_of_span hspan), ?_⟩
    simp only [List.cons_append, wordEdge?, span_append hspan, hkind, Option.map_some]
  | case3 => exact fun h => absurd h nofun
  | case4 s hbrace =>
    intro h
    obtain ⟨rfl, rfl⟩ := Prod.mk.inj (Option.some.inj h)
    refine ⟨trivial, List.suffix_refl _, ?_⟩
    rw [wordEdge?]
    exact not_begins_append ['\x7b'] (by decide) hbrace

theorem scans_escape? : Scans IsProper escape? := by
  intro s x rest h
  have hhex (width : Nat) := (scans_hexEscape? width).map (Q := IsProper) (f := Token.char)
    fun _ _ => trivial
  have hedge := scans_wordEdge?.map (Q := IsProper) (f := Token.assertion) fun _ _ => trivial
  cases s with
  | nil => exact absurd h nofun
  | cons c s =>
    rw [List.cons_append]
    dsimp only [escape?] at h ⊢
    split at h
    -- Only edges of words and escapes with a number read more than the character behind the
    -- backslash.
    case h_7 => exact and_suffix_cons _ (hedge h)
    case h_19 => exact and_suffix_cons _ (hhex 2 h)
    case h_20 => exact and_suffix_cons _ (hhex 4 h)
    case h_21 => exact and_suffix_cons _ (hhex 8 h)
    case h_22 =>
      split at h
      · rename_i hself
        rw [if_pos hself]
        obtain ⟨rfl, rfl⟩ := Prod.mk.inj (Option.some.inj h)
        exact ⟨trivial, List.suffix_cons .., rfl⟩
      · exact absurd h nofun
    all_goals
      obtain ⟨rfl, rfl⟩ := Prod.mk.inj (Option.some.inj h)
      refine ⟨?_, List.suffix_cons .., rfl⟩
    case h_1 => exact CharSet.isProper_word
    case h_2 => exact CharSet.isProper_word.compl
    case h_3 => exact CharSet.isProper_decimal
    case h_4 => exact CharSet.isProper_decimal.compl
    case h_5 => exact CharSet.isProper_blank
    case h_6 => exact CharSet.isProper_blank.compl
    all_goals exact trivial

/-! ## Sets in brackets -/

theorem scans_setMember? : Scans IsProper setMember? := by
  intro s x rest h
  unfold setMember? at h
  split at h
  · exact absurd h nofun
  · rename_i behind
    -- An assertion stands for no character.
    split at h
    · exact absurd h nofun
    · rename_i hassertion
      obtain ⟨hproper, hsuffix, hescape⟩ := scans_escape? h
      refine ⟨hproper, hsuffix.trans (List.suffix_cons ..), ?_⟩
      rw [List.cons_append, setMember?, hescape]
      cases x with
      | assertion a => exact absurd h (hassertion a rest)
      | _ => rfl
  · rename_i c behind hslash
    obtain ⟨rfl, rfl⟩ := Prod.mk.inj (Option.some.inj h)
    refine ⟨trivial, List.suffix_cons .., ?_⟩
    rw [List.cons_append, setMember?]
    exact hslash

theorem isProper_memberSet (ht : t.IsProper) : (memberSet t).IsProper := by
  unfold memberSet
  split
  · exact Nat.le_refl _
  · exact ht
  · trivial

theorem scans_memberOrSpan? : Scans SetExpr.IsProper memberOrSpan? := by
  intro s x rest h
  simp only [memberOrSpan?, Option.bind_eq_bind, Option.bind_eq_some_iff] at h
  obtain ⟨⟨member, behind⟩, hmember, h⟩ := h
  obtain ⟨hproper, hsuffix, hdollar⟩ := scans_setMember? hmember
  simp only [memberOrSpan?, Option.bind_eq_bind, hdollar, Option.bind_some]
  dsimp only at h
  -- A hyphen in front of the closing bracket or of another hyphen makes no span.
  split at h
  · obtain ⟨rfl, rfl⟩ := Prod.mk.inj (Option.some.inj h)
    exact ⟨isProper_memberSet hproper, hsuffix, rfl⟩
  · obtain ⟨rfl, rfl⟩ := Prod.mk.inj (Option.some.inj h)
    exact ⟨isProper_memberSet hproper, hsuffix, rfl⟩
  · rename_i behind hbracket hhyphen
    obtain ⟨⟨last, behind'⟩, hlast, hends⟩ := Option.bind_eq_some_iff.1 h
    obtain ⟨-, hsuffix', hlast'⟩ := scans_setMember? hlast
    cases behind with
    | nil => exact absurd hlast nofun
    | cons d behind =>
      rw [List.cons_append, List.cons_append]
      split
      · rename_i heq
        obtain ⟨rfl, -⟩ := List.cons.inj (List.cons.inj heq).2
        exact absurd rfl (hbracket behind)
      · rename_i heq
        obtain ⟨rfl, -⟩ := List.cons.inj (List.cons.inj heq).2
        exact absurd rfl (hhyphen behind)
      · rename_i heq
        obtain rfl := (List.cons.inj heq).2
        rw [← List.cons_append, hlast', Option.bind_some]
        dsimp only at hends ⊢
        -- The span has two ends, in order.
        split at hends
        · split at hends
          · rename_i hle
            obtain ⟨rfl, rfl⟩ := Prod.mk.inj (Option.some.inj hends)
            rw [if_pos hle]
            exact ⟨hle, (hsuffix'.trans (List.suffix_cons ..)).trans hsuffix, rfl⟩
          · exact absurd hends nofun
        · exact absurd hends nofun
      · rename_i hnone
        exact absurd rfl (hnone _)
  · rename_i hbracket hhyphen hspan
    obtain ⟨rfl, rfl⟩ := Prod.mk.inj (Option.some.inj h)
    refine ⟨isProper_memberSet hproper, hsuffix, ?_⟩
    cases behind with
    | nil => rfl
    | cons d behind =>
      -- A character that is no hyphen makes no span.
      rw [List.cons_append]
      split
      · rename_i heq
        obtain ⟨rfl, -⟩ := List.cons.inj heq
        exact absurd rfl (hspan behind)
      · rename_i heq
        obtain ⟨rfl, -⟩ := List.cons.inj heq
        exact absurd rfl (hspan behind)
      · rename_i heq
        obtain ⟨rfl, -⟩ := List.cons.inj heq
        exact absurd rfl (hspan behind)
      · rfl

theorem leadingHyphens_append (done : SetExpr) (s : List Char) :
    leadingHyphens done (s ++ ['$']) =
      ((leadingHyphens done s).1, (leadingHyphens done s).2 ++ ['$']) := by
  fun_induction leadingHyphens done s with
  | case1 done rest ih => rw [List.cons_append, leadingHyphens, ih]
  | case2 done rest hhyphen =>
    cases rest with
    | nil => rfl
    | cons c rest =>
      rw [List.cons_append, leadingHyphens]
      intro behind heq
      exact hhyphen rest (by rw [(List.cons.inj heq).1])

theorem suffix_leadingHyphens (done : SetExpr) (s : List Char) :
    (leadingHyphens done s).2 <:+ s := by
  fun_induction leadingHyphens done s with
  | case1 done rest ih => exact ih.trans (List.suffix_cons ..)
  | case2 done rest hhyphen => exact List.suffix_refl rest

theorem isProper_leadingHyphens {done : SetExpr} (hdone : done.IsProper) (s : List Char) :
    (leadingHyphens done s).1.IsProper := by
  fun_induction leadingHyphens done s with
  | case1 done rest ih => exact ih (hdone.add (Nat.le_refl _))
  | case2 done rest hhyphen => exact hdone

/-- The front of a bracketed set, once its caret and the hyphens are read. -/
def frontOf (negated : Bool) : SetExpr × List Char → Bool × SetExpr × List Char
  | (.nothing, ']' :: rest) => (negated, .char ']', rest)
  | (front, rest) => (negated, front, rest)

theorem setFront_of_caret (s : List Char) :
    setFront ('^' :: s) = frontOf true (leadingHyphens .nothing s) := rfl

theorem setFront_of_not_caret (h : ∀ rest, s = '^' :: rest → False) :
    setFront s = frontOf false (leadingHyphens .nothing s) :=
  setFront.eq_2 s h

theorem frontOf_append (negated : Bool) (front : SetExpr × List Char) :
    frontOf negated (front.1, front.2 ++ ['$']) = ((frontOf negated front).1,
      (frontOf negated front).2.1, (frontOf negated front).2.2 ++ ['$']) := by
  fun_cases frontOf negated front with
  | case1 rest => rfl
  | case2 front rest hbracket =>
    rw [frontOf]
    exact fun behind hnothing => not_begins_append [']'] (by decide)
      (fun behind => hbracket behind hnothing) behind

theorem setFront_append (s : List Char) : setFront (s ++ ['$']) =
    ((setFront s).1, (setFront s).2.1, (setFront s).2.2 ++ ['$']) := by
  by_cases hcaret : ∃ rest, s = '^' :: rest
  · obtain ⟨rest, rfl⟩ := hcaret
    rw [List.cons_append, setFront_of_caret, setFront_of_caret, leadingHyphens_append,
      frontOf_append]
  · have hcaret : ∀ rest, s = ['^'] ++ rest → False := fun rest h => hcaret ⟨rest, h⟩
    rw [setFront_of_not_caret hcaret,
      setFront_of_not_caret (not_begins_append ['^'] (by decide) hcaret), leadingHyphens_append,
      frontOf_append]

theorem suffix_frontOf (negated : Bool) (front : SetExpr × List Char) :
    (frontOf negated front).2.2 <:+ front.2 := by
  fun_cases frontOf negated front with
  | case1 rest => exact List.suffix_cons ..
  | case2 front rest hbracket => exact List.suffix_refl rest

theorem suffix_setFront (s : List Char) : (setFront s).2.2 <:+ s := by
  by_cases hcaret : ∃ rest, s = '^' :: rest
  · obtain ⟨rest, rfl⟩ := hcaret
    rw [setFront_of_caret]
    exact ((suffix_frontOf ..).trans (suffix_leadingHyphens ..)).trans (List.suffix_cons ..)
  · rw [setFront_of_not_caret fun rest h => hcaret ⟨rest, h⟩]
    exact (suffix_frontOf ..).trans (suffix_leadingHyphens ..)

theorem isProper_setFront (s : List Char) : (setFront s).2.1.IsProper := by
  have hnothing : SetExpr.nothing.IsProper := trivial
  have hfront := isProper_leadingHyphens hnothing
  unfold setFront
  dsimp only
  split
  · exact Nat.le_refl _
  · rename_i heq
    exact heq ▸ hfront _

theorem setOperation?_append (s : List Char) : setOperation? (s ++ ['$']) =
    (setOperation? s).map fun (op, rest) => (op, rest ++ ['$']) := by
  fun_cases setOperation? s with
  | case4 s hinter hdiff hsymm =>
    rw [setOperation?, Option.map_none]
    · exact not_begins_append ['&', '&'] (by decide) hinter
    · exact not_begins_append ['-', '-'] (by decide) hdiff
    · exact not_begins_append ['~', '~'] (by decide) hsymm
  | _ => rfl

theorem suffix_of_setOperation? {op : SetOperation} (h : setOperation? s = some (op, rest)) :
    rest <:+ s := by
  unfold setOperation? at h
  split at h
  case h_4 => exact absurd h nofun
  all_goals
    obtain ⟨rfl, rfl⟩ := Prod.mk.inj (Option.some.inj h)
    exact (List.suffix_cons ..).trans (List.suffix_cons ..)

theorem isProper_completed {left : Option (SetOperation × SetExpr)} {members : SetExpr}
    (hleft : ∀ op ∈ left, op.2.IsProper) (hmembers : members.IsProper) :
    (completed left members).IsProper := by
  unfold completed
  split
  · exact hmembers
  · exact ⟨hleft _ rfl, hmembers⟩

/-- The names and the spans of ASCII. -/
theorem le_of_mem_asciiSpans? {name : String} {spans : List (Char × Char)}
    (h : asciiSpans? name = some spans) : ∀ span ∈ spans, span.1 ≤ span.2 := by
  unfold asciiSpans? at h
  split at h
  case h_15 => exact absurd h nofun
  all_goals
    obtain rfl := Option.some.inj h
    decide

theorem isProper_foldl_union {spans : List (Char × Char)} (h : ∀ span ∈ spans, span.1 ≤ span.2)
    {s : CharSet} (hs : s.IsProper) :
    (spans.foldl (fun s (first, last) => s.union (.span first last)) s).IsProper := by
  induction spans generalizing s with
  | nil => exact hs
  | cons span spans ih =>
    obtain ⟨hspan, hspans⟩ := List.forall_mem_cons.1 h
    exact ih hspans (hs.union (CharSet.isProper_span hspan))

theorem scans_asciiNamed? (negated : Bool) : Scans SetExpr.IsProper (asciiNamed? negated) := by
  intro s x rest h
  unfold asciiNamed? at h
  split at h
  · rename_i name behind hspan
    obtain ⟨spans, hspans, heq⟩ := Option.map_eq_some_iff.1 h
    obtain ⟨rfl, rfl⟩ := Prod.mk.inj heq
    have hproper := isProper_foldl_union (le_of_mem_asciiSpans? hspans) CharSet.isProper_empty
    refine ⟨hproper, ((List.suffix_cons ..).trans (List.suffix_cons ..)).trans
      (suffix_of_span hspan), ?_⟩
    simp only [asciiNamed?, span_append hspan, List.cons_append, hspans, Option.map_some]
  · exact absurd h nofun

/-- Without a colon a name goes on over the dollar sign, and `asciiNamed?` reads none. -/
theorem asciiNamed?_append_of_none {negated : Bool} (h : asciiNamed? negated s = none) :
    asciiNamed? negated (s ++ ['$']) = none := by
  unfold asciiNamed? at h ⊢
  cases hspan : s.span (· != ':') with
  | mk name rest =>
    cases rest with
    | nil => rw [span_concat hspan (by decide)]
    | cons c rest =>
      rw [hspan] at h
      rw [span_append hspan]
      split
      · rename_i name' behind heq
        -- What closes the name stands in front of the dollar sign already.
        obtain ⟨rfl, hrest⟩ := Prod.mk.inj heq
        obtain ⟨rfl, hclose⟩ := List.cons.inj hrest
        cases rest with
        | nil => exact absurd (List.cons.inj hclose).1 (by decide)
        | cons d rest =>
          obtain rfl : d = ']' := (List.cons.inj hclose).1
          rw [Option.map_eq_none_iff.1 h]
          rfl
      · rfl

theorem scans_asciiSet? : Scans SetExpr.IsProper asciiSet? := by
  intro s x rest
  fun_cases asciiSet? s with
  | case1 s => 
    exact fun h => and_suffix_cons ':' (and_suffix_cons '^' (scans_asciiNamed? true h))
  | case2 s hcaret => 
    intro h
    obtain ⟨hx, hsuffix, hdollar⟩ := scans_asciiNamed? false h
    refine and_suffix_cons ':' ⟨hx, hsuffix, ?_⟩
    rw [List.cons_append, asciiSet?]
    · exact hdollar
    · exact not_begins_append ['^'] (by decide) hcaret
  | case3 => exact fun h => absurd h nofun

/-- A dollar sign is no part of the name of a set. -/
theorem asciiSet?_append_of_none (h : asciiSet? s = none) : asciiSet? (s ++ ['$']) = none := by
  revert h
  fun_cases asciiSet? s with
  | case1 s => exact asciiNamed?_append_of_none
  | case2 s hcaret =>
    intro h
    rw [List.cons_append, asciiSet?]
    · exact asciiNamed?_append_of_none h
    · exact not_begins_append ['^'] (by decide) hcaret
  | case3 s hcaret hcolon =>
    intro _
    rw [asciiSet?]
    · exact not_begins_append [':', '^'] (by decide) hcaret
    · exact not_begins_append [':'] (by decide) hcolon

theorem members?_ascii {named : SetExpr} (h : asciiSet? s = some (named, rest)) (fuel : Nat)
    (left : Option (SetOperation × SetExpr)) (done : SetExpr) :
    members? (fuel + 1) left done ('[' :: s) = members? fuel left (done.add named) rest := by
  rw [members?, h]

theorem members?_open (h : asciiSet? s = none) (fuel : Nat)
    (left : Option (SetOperation × SetExpr)) (done : SetExpr) :
    members? (fuel + 1) left done ('[' :: s) =
      (members? fuel none (setFront s).2.1 (setFront s).2.2).bind fun (inner, rest) =>
        members? fuel left (done.add (.bracket (setFront s).1 inner)) rest := by
  rw [members?, h]

/-- More steps than are needed do no harm, and `members?` stops in front of the dollar sign. -/
theorem scans_members? {fuel fuel' : Nat} {left : Option (SetOperation × SetExpr)} {done : SetExpr}
    {x : SetExpr} (hleft : ∀ op ∈ left, op.2.IsProper) (hdone : done.IsProper)
    (hfuel : fuel ≤ fuel') (h : members? fuel left done s = some (x, rest)) :
    x.IsProper ∧ rest <:+ s ∧ members? fuel' left done (s ++ ['$']) = some (x, rest ++ ['$']) := by
  -- The steps of the reader: a closing bracket, a set inside, an operation or a member.
  fun_induction members? fuel left done s generalizing fuel' x rest with
  | case1 => exact absurd h nofun
  | case2 => exact absurd h nofun
  -- The set is closed.
  | case3 fuel left done s =>
    obtain ⟨fuel', rfl⟩ := Nat.exists_eq_add_of_le' hfuel
    obtain ⟨rfl, rfl⟩ := Prod.mk.inj (Option.some.inj h)
    exact ⟨isProper_completed hleft hdone, List.suffix_cons .., rfl⟩
  -- A class of characters by its name.
  | case4 fuel left done s named behind hnamed ih =>
    obtain ⟨fuel', rfl⟩ := Nat.exists_eq_add_of_le' hfuel
    have hfuel : fuel ≤ fuel' + fuel := Nat.le_add_left fuel fuel'
    obtain ⟨hproper, hsuffix, hdollar⟩ := scans_asciiSet? hnamed
    obtain ⟨hx, hsuffix', hrest⟩ := ih hleft (hdone.add hproper) hfuel h
    refine ⟨hx, (hsuffix'.trans hsuffix).trans (List.suffix_cons ..), ?_⟩
    rw [List.cons_append, Nat.succ_eq_add_one, ← Nat.add_assoc, members?_ascii hdollar]
    exact hrest
  -- A set inside.
  | case5 fuel left done s hnamed negated front behind hfront ihinner ihrest =>
    obtain ⟨fuel', rfl⟩ := Nat.exists_eq_add_of_le' hfuel
    have hfuel : fuel ≤ fuel' + fuel := Nat.le_add_left fuel fuel'
    obtain ⟨⟨inner, behind'⟩, hinner, hrest⟩ := Option.bind_eq_some_iff.1 h
    have hproper := isProper_setFront s
    have hsuffix := suffix_setFront s
    rw [hfront] at hproper hsuffix
    obtain ⟨hinner, hsuffix', hdollar⟩ := ihinner (by simp) hproper hfuel hinner
    obtain ⟨hx, hsuffix'', hrest⟩ := ihrest inner behind' hleft (hdone.add hinner) hfuel hrest
    refine ⟨hx, ((hsuffix''.trans hsuffix').trans hsuffix).trans (List.suffix_cons ..), ?_⟩
    rw [List.cons_append, Nat.succ_eq_add_one, ← Nat.add_assoc,
      members?_open (asciiSet?_append_of_none hnamed), setFront_append, hfront]
    dsimp only
    rw [hdollar, Option.bind_some]
    exact hrest
  -- An operation: what was read so far is its left side.
  | case6 fuel left done s hnil hclose hopen op behind hop ih =>
    obtain ⟨fuel', rfl⟩ := Nat.exists_eq_add_of_le' hfuel
    have hfuel : fuel ≤ fuel' + fuel := Nat.le_add_left fuel fuel'
    have hleft' : ∀ op' ∈ some (op, completed left done), op'.2.IsProper := by
      intro op' hop'
      rw [← Option.some.inj hop']
      exact isProper_completed hleft hdone
    obtain ⟨hx, hsuffix, hrest⟩ := ih hleft' trivial hfuel h
    refine ⟨hx, hsuffix.trans (suffix_of_setOperation? hop), ?_⟩
    rw [Nat.succ_eq_add_one, ← Nat.add_assoc, members?]
    · rw [setOperation?_append, hop, Option.map_some]
      exact hrest
    · simp
    · exact not_begins_append [']'] (by decide) hclose
    · exact not_begins_append ['['] (by decide) hopen
  -- Any other member.
  | case7 fuel left done s hnil hclose hopen hop ih =>
    obtain ⟨fuel', rfl⟩ := Nat.exists_eq_add_of_le' hfuel
    have hfuel : fuel ≤ fuel' + fuel := Nat.le_add_left fuel fuel'
    obtain ⟨⟨member, behind⟩, hmember, hrest⟩ := Option.bind_eq_some_iff.1 h
    obtain ⟨hmember, hsuffix, hdollar⟩ := scans_memberOrSpan? hmember
    obtain ⟨hx, hsuffix', hrest⟩ := ih member behind hleft (hdone.add hmember) hfuel hrest
    refine ⟨hx, hsuffix'.trans hsuffix, ?_⟩
    rw [Nat.succ_eq_add_one, ← Nat.add_assoc, members?]
    · rw [setOperation?_append, hop, Option.map_none]
      dsimp only
      rw [hdollar, Option.bind_some]
      exact hrest
    · simp
    · exact not_begins_append [']'] (by decide) hclose
    · exact not_begins_append ['['] (by decide) hopen

/-- The set in brackets is what its members are up to the closing bracket. -/
theorem bracketed?_eq (s : List Char) : bracketed? s =
    (members? (s.length + 1) none (setFront s).2.1 (setFront s).2.2).map fun (inner, rest) =>
      (.bracket (setFront s).1 inner, rest) := rfl

theorem scans_bracketed? : Scans SetExpr.IsProper bracketed? := by
  intro s x rest h
  rw [bracketed?_eq] at h
  obtain ⟨⟨inner, behind⟩, hmembers, heq⟩ := Option.map_eq_some_iff.1 h
  obtain ⟨rfl, rfl⟩ := Prod.mk.inj heq
  have hfuel : s.length + 1 ≤ (s ++ ['$']).length + 1 := by
    rw [List.length_append]
    omega
  obtain ⟨hproper, hsuffix, hdollar⟩ :=
    scans_members? (by simp) (isProper_setFront s) hfuel hmembers
  refine ⟨hproper, hsuffix.trans (suffix_setFront s), ?_⟩
  rw [bracketed?_eq, setFront_append, hdollar, Option.map_some]

/-! ## Groups and repetitions -/

theorem scans_groupName? : Scans (fun _ => True) groupName? := by
  intro s name rest
  fun_cases groupName? s with
  | case1 c front close behind hspan hname =>
    intro h
    obtain ⟨rfl, rfl⟩ := Prod.mk.inj (Option.some.inj h)
    refine ⟨trivial, (List.suffix_cons close _).trans (suffix_of_span hspan), ?_⟩
    simp only [groupName?, span_append hspan, hname, if_true, List.cons_append]
  | _ => exact fun h => absurd h nofun

theorem scans_group? : Scans IsProper group? := by
  intro s t rest
  have hname := scans_groupName?.map (Q := IsProper)
    (f := fun name => .opening (.capture (some name))) fun _ _ => trivial
  fun_cases group? s with
  | case1 s =>
    exact fun h => and_suffix_cons '?' (and_suffix_cons 'P' (and_suffix_cons '<' (hname h)))
  | case2 s => exact fun h => and_suffix_cons '?' (and_suffix_cons '<' (hname h))
  -- Switches are for the group that they open, or for the rest of the one around them.
  -- With a colon they are for the group.
  | case3 s hnamed hnamed' letters behind hspan =>
    intro h
    obtain ⟨switches, hswitches, heq⟩ := Option.map_eq_some_iff.1 h
    obtain ⟨rfl, rfl⟩ := Prod.mk.inj heq
    refine and_suffix_cons '?' ⟨trivial, (List.suffix_cons ..).trans (suffix_of_span hspan), ?_⟩
    rw [List.cons_append, group?]
    · rw [span_append hspan]
      simp only [List.cons_append, hswitches, Option.map_some]
    · exact not_begins_append ['P', '<'] (by decide) hnamed
    · exact not_begins_append ['<'] (by decide) hnamed'
  | case5 s hnamed hnamed' letters behind hspan hletters =>
    intro h
    obtain ⟨switches, hswitches, heq⟩ := Option.map_eq_some_iff.1 h
    obtain ⟨rfl, rfl⟩ := Prod.mk.inj heq
    refine and_suffix_cons '?' ⟨trivial, (List.suffix_cons ..).trans (suffix_of_span hspan), ?_⟩
    rw [List.cons_append, group?]
    · rw [span_append hspan]
      simp only [List.cons_append, if_neg hletters, hswitches, Option.map_some]
    · exact not_begins_append ['P', '<'] (by decide) hnamed
    · exact not_begins_append ['<'] (by decide) hnamed'
  -- Without a question mark behind the bracket the group is numbered.
  | case7 s hnamed hnamed' hquestion =>
    intro h
    obtain ⟨rfl, rfl⟩ := Prod.mk.inj (Option.some.inj h)
    refine ⟨trivial, List.suffix_refl s, ?_⟩
    rw [group?]
    · exact not_begins_append ['?', 'P', '<'] (by decide) hnamed
    · exact not_begins_append ['?', '<'] (by decide) hnamed'
    · exact not_begins_append ['?'] (by decide) hquestion
  | _ => exact fun h => absurd h nofun

theorem greedy_append (s : List Char) :
    greedy (s ++ ['$']) = ((greedy s).1, (greedy s).2 ++ ['$']) := by
  fun_cases greedy s with
  | case1 rest => rfl
  | case2 rest hquestion =>
    rw [greedy]
    exact not_begins_append ['?'] (by decide) hquestion

theorem suffix_greedy (s : List Char) : (greedy s).2 <:+ s := by
  fun_cases greedy s with
  | case1 rest => exact List.suffix_cons ..
  | case2 hquestion => exact List.suffix_refl s

theorem scans_bounds? {least : Nat} {most : Option Nat}
    (h : bounds? s = some (least, most, rest)) : (∀ m ∈ most, least ≤ m) ∧ rest <:+ s ∧
      bounds? (s ++ ['$']) = some (least, most, rest ++ ['$']) := by
  revert h
  fun_cases bounds? s with
  | case1 inside close behind hspan digits hdigits =>
    intro h
    obtain ⟨n, hn, heq⟩ := Option.map_eq_some_iff.1 h
    simp only [Prod.mk.injEq] at heq
    obtain ⟨rfl, rfl, rfl⟩ := heq
    refine ⟨by simp, (List.suffix_cons close _).trans (suffix_of_span hspan), ?_⟩
    simp only [bounds?, span_append hspan, hdigits, hn, Option.map_some, List.cons_append]
  | case2 inside close behind hspan digits comma upper hdigits =>
    intro h
    obtain ⟨n, hn, hupper⟩ := Option.bind_eq_some_iff.1 h
    -- Without a second number there is no upper bound.
    split at hupper
    · rename_i hempty
      simp only [Option.pure_def, Option.some.injEq, Prod.mk.injEq] at hupper
      obtain ⟨rfl, rfl, rfl⟩ := hupper
      refine ⟨by simp, (List.suffix_cons close _).trans (suffix_of_span hspan), ?_⟩
      simp only [bounds?, span_append hspan, List.cons_append, hdigits, Option.bind_eq_bind, hn,
        Option.bind_some, if_pos hempty, Option.pure_def]
    · rename_i hempty
      obtain ⟨m, hm, hupper⟩ := Option.bind_eq_some_iff.1 hupper
      split at hupper
      · exact absurd hupper nofun
      · rename_i hle
        simp only [Option.pure_def, Option.some.injEq, Prod.mk.injEq] at hupper
        obtain ⟨rfl, rfl, rfl⟩ := hupper
        refine ⟨fun m' hm' => ?_, (List.suffix_cons close _).trans (suffix_of_span hspan), ?_⟩
        · rw [← Option.some.inj hm']
          exact Nat.le_of_not_lt hle
        · simp only [bounds?, span_append hspan, List.cons_append, hdigits, Option.bind_eq_bind, hn,
            Option.bind_some, if_neg hempty, hm, if_neg hle, Option.pure_def]
  | case3 => exact fun h => absurd h nofun

/-! ## All tokens -/

theorem scans_first? : Scans IsProper first? := by
  intro s t rest
  fun_cases first? s with
  | case1 => exact fun h => absurd h nofun
  | case2 s => exact fun h => and_suffix_cons _ (scans_escape? h)
  | case3 s =>
    exact fun h => and_suffix_cons _
      (scans_bracketed?.map (Q := IsProper) (f := Token.bracket) (fun _ hs => hs) h)
  | case4 s => exact fun h => and_suffix_cons _ (scans_group? h)
  | case10 s g behind hgreedy | case11 s g behind hgreedy | case12 s g behind hgreedy =>
    intro h
    obtain ⟨rfl, rfl⟩ := Prod.mk.inj (Option.some.inj h)
    have hsuffix := suffix_greedy s
    rw [hgreedy] at hsuffix
    refine and_suffix_cons _ ⟨by simp [IsProper], hsuffix, ?_⟩
    simp only [List.cons_append, first?, greedy_append, hgreedy]
  | case13 s =>
    intro h
    obtain ⟨⟨least, most, behind⟩, hbounds, heq⟩ := Option.map_eq_some_iff.1 h
    have heq : (repetition (greedy behind).1 least most, (greedy behind).2) = (t, rest) := heq
    obtain ⟨rfl, rfl⟩ := Prod.mk.inj heq
    obtain ⟨hle, hsuffix, hdollar⟩ := scans_bounds? hbounds
    refine and_suffix_cons _ ⟨hle, (suffix_greedy behind).trans hsuffix, ?_⟩
    simp only [List.cons_append, first?, hdollar, Option.map_some, greedy_append]
  | case14 s c =>
    intro h
    obtain ⟨rfl, rfl⟩ := Prod.mk.inj (Option.some.inj h)
    refine ⟨trivial, List.suffix_cons .., ?_⟩
    rw [List.cons_append, first?]
    all_goals assumption
  | _ =>
    intro h
    obtain ⟨rfl, rfl⟩ := Prod.mk.inj (Option.some.inj h)
    exact ⟨trivial, List.suffix_cons .., rfl⟩

/-- What is read already does not count for what is still to be read. -/
theorem scanFrom_eq_map (done : List Token) (fuel : Nat) (s : List Char) :
    scanFrom done fuel s = (scanFrom [] fuel s).map (done.reverse ++ ·) := by
  induction fuel generalizing done s with
  | zero =>
    cases s with
    | nil => simp [scanFrom]
    | cons c s => rfl
  | succ fuel ih =>
    cases s with
    | nil => simp [scanFrom]
    | cons c s =>
      simp only [scanFrom]
      cases first? (c :: s) with
      | none => rfl
      | some read =>
        obtain ⟨t, rest⟩ := read
        rw [Option.bind_some, Option.bind_some, ih, ih [t], Option.map_map]
        simp [Function.comp_def]

theorem scans_scanFrom {fuel : Nat} {ts : List Token} (h : scanFrom [] fuel s = some ts) :
    (∀ t ∈ ts, t.IsProper) ∧ scanFrom [] (fuel + 1) (s ++ ['$']) = some (ts ++ [.dollar]) := by
  -- One step more is for the dollar sign.
  induction fuel generalizing s ts with
  | zero =>
    cases s with
    | nil =>
      obtain rfl := Option.some.inj h
      exact ⟨fun _ ht => absurd ht List.not_mem_nil, rfl⟩
    | cons c s => exact absurd h nofun
  | succ fuel ih =>
    cases s with
    | nil =>
      obtain rfl := Option.some.inj h
      exact ⟨fun _ ht => absurd ht List.not_mem_nil, rfl⟩
    | cons c s =>
      simp only [scanFrom, List.cons_append] at h ⊢
      obtain ⟨⟨t, rest⟩, hfirst, hrest⟩ := Option.bind_eq_some_iff.1 h
      obtain ⟨ht, -, hfirst⟩ := scans_first? hfirst
      rw [scanFrom_eq_map] at hrest
      obtain ⟨ts, hts, rfl⟩ := Option.map_eq_some_iff.1 hrest
      obtain ⟨hproper, hdollar⟩ := ih hts
      rw [← List.cons_append, hfirst, Option.bind_some, scanFrom_eq_map, hdollar]
      refine ⟨?_, by simp⟩
      intro u hu
      cases List.mem_cons.1 hu with
      | inl heq => exact heq ▸ ht
      | inr hmem => exact hproper u hmem

/-- All tokens of a text are proper. -/
theorem isProper_of_mem_scan {ts : List Token} (h : scan s = some ts) (ht : t ∈ ts) :
    t.IsProper :=
  (scans_scanFrom h).1 t ht

/-- A caret in front of a text is a token of its own. -/
theorem scan_caret {ts : List Token} (h : scan s = some ts) :
    scan ('^' :: s) = some (.caret :: ts) := by
  simp only [scan, List.length_cons, scanFrom, first?, Option.bind_some]
  rw [scanFrom_eq_map]
  exact Option.map_eq_some_iff.2 ⟨ts, h, rfl⟩

/-- So is a dollar sign behind it. -/
theorem scan_dollar {ts : List Token} (h : scan s = some ts) :
    scan (s ++ ['$']) = some (ts ++ [.dollar]) := by
  rw [scan, List.length_append]
  exact (scans_scanFrom h).2

/-! ## Switches -/

/-- A text has switches for the rest of a group, such as `(?i)`: letters and hyphens in brackets,
behind a question mark. -/
def HasSwitches (s : List Char) : Prop :=
  ∃ letters : List Char, (∀ c ∈ letters, c.isAlpha = true ∨ c = '-') ∧
    '(' :: '?' :: (letters ++ [')']) <:+: s

theorem not_hasSwitches (h : '?' ∉ s) : ¬ HasSwitches s := by
  rintro ⟨letters, -, hinside⟩
  exact h (hinside.subset (by simp))

/-- A token of a text is the first one somewhere in it. -/
theorem exists_first?_of_mem_scanFrom {fuel : Nat} {ts : List Token}
    (h : scanFrom [] fuel s = some ts) (ht : t ∈ ts) :
    ∃ back rest, back <:+ s ∧ first? back = some (t, rest) := by
  induction fuel generalizing s ts with
  | zero =>
    cases s with
    | nil =>
      obtain rfl := Option.some.inj h
      exact absurd ht List.not_mem_nil
    | cons c s => exact absurd h nofun
  | succ fuel ih =>
    cases s with
    | nil =>
      obtain rfl := Option.some.inj h
      exact absurd ht List.not_mem_nil
    | cons c s =>
      simp only [scanFrom] at h
      obtain ⟨⟨u, rest⟩, hfirst, hrest⟩ := Option.bind_eq_some_iff.1 h
      rw [scanFrom_eq_map] at hrest
      obtain ⟨us, hus, rfl⟩ := Option.map_eq_some_iff.1 hrest
      cases List.mem_cons.1 ht with
      | inl heq => exact ⟨c :: s, rest, List.suffix_refl _, heq ▸ hfirst⟩
      | inr hmem =>
        obtain ⟨back, rest', hback, hfirst'⟩ := ih hus hmem
        exact ⟨back, rest', hback.trans (scans_first? hfirst).2.1, hfirst'⟩

theorem isAlpha_of_setSwitch? {s s' : Switches} {value : Bool}
    (h : setSwitch? s value c = some s') : c.isAlpha = true := by
  unfold setSwitch? at h
  split at h
  case h_7 => exact absurd h nofun
  all_goals rfl

theorem isAlpha_of_foldlM {letters : List Char} {s s' : Switches} {value : Bool}
    (h : letters.foldlM (setSwitch? · value ·) s = some s') : ∀ c ∈ letters, c.isAlpha = true := by
  induction letters generalizing s with
  | nil => exact nofun
  | cons c letters ih =>
    obtain ⟨s'', hc, hrest⟩ := Option.bind_eq_some_iff.1 h
    exact List.forall_mem_cons.2 ⟨isAlpha_of_setSwitch? hc, ih hrest⟩

theorem isAlpha_of_switches? {letters : List Char} {s : Switches} (h : switches? letters = some s) :
    ∀ c ∈ letters, c.isAlpha = true ∨ c = '-' := by
  rw [← List.takeWhile_append_dropWhile (p := (· != '-')) (l := letters)]
  unfold switches? at h
  dsimp only at h
  generalize letters.takeWhile (· != '-') = on at h ⊢
  split at h
  · rename_i hoff
    rw [hoff, List.append_nil]
    exact fun c hc => .inl (isAlpha_of_foldlM h c hc)
  · exact absurd h nofun
  · rename_i hyphen off _ hoff
    obtain ⟨s', hon, hrest⟩ := Option.bind_eq_some_iff.1 h
    have hhyphen : hyphen = '-' := by
      have hhead := List.head?_dropWhile_not (· != '-') letters
      rw [hoff] at hhead
      simpa using hhead
    rw [hoff]
    intro c hc
    rcases List.mem_append.1 hc with hc | hc
    · exact .inl (isAlpha_of_foldlM hon c hc)
    · rcases List.mem_cons.1 hc with rfl | hc
      · exact .inr hhyphen
      · exact .inl (isAlpha_of_foldlM hrest c hc)

/-- Switches are written in brackets behind a question mark. -/
theorem exists_of_group?_switch {switches : Switches}
    (h : group? s = some (.switch switches, rest)) : ∃ letters : List Char,
      (∀ c ∈ letters, c.isAlpha = true ∨ c = '-') ∧ s = '?' :: (letters ++ ')' :: rest) := by
  revert h
  fun_cases group? s with
  | case5 s hnamed hnamed' letters behind hspan hletters =>
    intro h
    obtain ⟨s', hs', heq⟩ := Option.map_eq_some_iff.1 h
    obtain ⟨-, rfl⟩ := Prod.mk.inj heq
    refine ⟨letters, isAlpha_of_switches? hs', ?_⟩
    rw [(Text.span_spec hspan).1]
  | case1 | case2 =>
    intro h
    obtain ⟨x, -, heq⟩ := Option.map_eq_some_iff.1 h
    exact absurd (Prod.mk.inj heq).1 nofun
  | case3 =>
    intro h
    obtain ⟨x, -, heq⟩ := Option.map_eq_some_iff.1 h
    exact absurd (Prod.mk.inj heq).1 nofun
  | _ => exact fun h => absurd h nofun

theorem escape?_ne_switch {switches : Switches} :
    escape? s ≠ some (.switch switches, rest) := by
  intro h
  cases s with
  | nil => exact absurd h nofun
  | cons c s =>
    dsimp only [escape?] at h
    split at h
    case h_22 =>
      split at h
      · exact absurd (Prod.mk.inj (Option.some.inj h)).1 nofun
      · exact absurd h nofun
    case h_7 | h_19 | h_20 | h_21 =>
      obtain ⟨x, -, heq⟩ := Option.map_eq_some_iff.1 h
      exact absurd (Prod.mk.inj heq).1 nofun
    all_goals exact absurd (Prod.mk.inj (Option.some.inj h)).1 nofun

theorem hasSwitches_of_mem_scan {ts : List Token} {switches : Switches} (h : scan s = some ts)
    (ht : .switch switches ∈ ts) : HasSwitches s := by
  obtain ⟨back, rest, hback, hfirst⟩ := exists_first?_of_mem_scanFrom h ht
  revert hfirst
  fun_cases first? back with
  | case2 back => exact fun hfirst => absurd hfirst escape?_ne_switch
  | case4 back =>
    intro hfirst
    obtain ⟨letters, hletters, rfl⟩ := exists_of_group?_switch hfirst
    refine ⟨letters, hletters, List.IsInfix.trans ⟨[], rest, ?_⟩ hback.isInfix⟩
    simp
  | case3 | case13 =>
    intro hfirst
    obtain ⟨x, -, heq⟩ := Option.map_eq_some_iff.1 hfirst
    exact absurd (Prod.mk.inj heq).1 nofun
  | _ => exact fun hfirst => absurd hfirst nofun

end Token

end Morphology.Pattern
