import Morphology.Parser

/-!
# Sessions parse like their parser

A session may answer from its cache.  All that a cache holds was parsed for the token and the edits
under which it is kept, so that no sequence of calls can tell a session from its parser, whatever
was forgotten in between.

## Main definitions

* `ParseCache.Faithful`, `Session.Faithful` — what is remembered was parsed, and is not too much
* `SessionCall`, `Session.serve` — calls of a session, answered one after the other

## Main statements

* `Session.Faithful.parse` — what one token leaves of a session, and its answer
* `Tree.traverse_spec` — the leaves of a tree one after the other
* `Session.serve_transparent` — the answers of a session, and its cache behind any calls
-/

namespace Morphology

universe u v w

/-! ## Tables -/

namespace Table

variable {κ : Type u} {α : Type v} [DecidableEq κ]

private theorem setEntry_spec (k : κ) (x : α) (es : List (κ × α)) :
    (∀ e ∈ setEntry k x es, e = (k, x) ∨ e ∈ es) ∧
      (setEntry k x es).length ≤ es.length + 1 := by
  induction es with
  | nil => simp [setEntry]
  | cons e es ih =>
    obtain ⟨k', x'⟩ := e
    obtain ⟨hmem, hlen⟩ := ih
    rw [setEntry]
    split
    · -- The parse is stored in place of one under the same key.
      refine ⟨fun e he => ?_, by simp⟩
      rcases List.mem_cons.1 he with rfl | he
      · exact .inl rfl
      · exact .inr (List.mem_cons_of_mem _ he)
    · -- Or behind entries under other keys.
      refine ⟨fun e he => ?_, by simpa using hlen⟩
      rcases List.mem_cons.1 he with rfl | he
      · exact .inr (List.mem_cons_self ..)
      · exact (hmem e he).imp_right (List.mem_cons_of_mem _)

theorem mem_entries_insert {t : Table κ α} {k : κ} {x : α} {e : κ × α}
    (h : e ∈ (t.insert k x).entries) : e = (k, x) ∨ e ∈ t.entries :=
  (setEntry_spec k x t.entries).1 e h

theorem size_insert_le (t : Table κ α) (k : κ) (x : α) : (t.insert k x).size ≤ t.size + 1 :=
  (setEntry_spec k x t.entries).2

theorem mem_entries_of_get? {t : Table κ α} {k : κ} {x : α} (h : t.get? k = some x) :
    (k, x) ∈ t.entries := by
  obtain ⟨front, back, heq, -⟩ := List.lookup_eq_some_iff.1 h
  rw [heq]
  exact List.mem_append_right _ (List.mem_cons_self ..)

end Table

/-! ## Caches -/

namespace ParseCache

variable {c : ParseCache} {p : Parser} {token : String} {maxEdits : Nat} {found : List Wordform}

/-- A cache of a parser: it holds no more than the settings allow, and what it holds was parsed. -/
structure Faithful (c : ParseCache) (p : Parser) : Prop where
  capacity : c.capacity = p.config.cacheCapacity
  size : c.size ≤ p.config.cacheCapacity
  parsed : ∀ key analyses, (key, analyses) ∈ c.entries.entries →
    analyses = p.parse key.1 key.2

theorem faithful_empty (p : Parser) : (empty p.config.cacheCapacity).Faithful p where
  capacity := rfl
  size := Nat.zero_le _
  parsed := fun _ _ h => absurd h List.not_mem_nil

/-- What is remembered is what the parser says. -/
theorem Faithful.eq_of_get? (h : c.Faithful p) (hfound : c.get? token maxEdits = some found) :
    found = p.parse token maxEdits :=
  h.parsed (token, maxEdits) found (Table.mem_entries_of_get? hfound)

/-- A cache stays `Faithful` when one more parse is stored. If it is full it starts over, so that
there is room for this one. -/
theorem Faithful.store (h : c.Faithful p) (token : String) (maxEdits : Nat) :
    (c.store token maxEdits (p.parse token maxEdits)).Faithful p := by
  unfold ParseCache.store
  by_cases hzero : c.capacity = 0
  · rw [if_pos hzero]
    exact h
  · rw [if_neg hzero]
    have hcapacity := h.capacity
    -- What the parse is added to has room for it, and holds nothing that the cache did not hold.
    obtain ⟨kept, hkept, hroom, hold, hsame⟩ : ∃ kept, (if c.capacity ≤ c.size then c.clear else c) =
        kept ∧ kept.size < c.capacity ∧ (∀ e ∈ kept.entries.entries, e ∈ c.entries.entries) ∧
        kept.capacity = c.capacity := by
      refine ⟨_, rfl, ?_⟩
      split
      · exact ⟨Nat.pos_of_ne_zero hzero, fun _ he => absurd he List.not_mem_nil, rfl⟩
      · exact ⟨by omega, fun _ he => he, rfl⟩
    rw [hkept]
    exact {
      capacity := hsame.trans hcapacity
      size := by
        have hsize := Table.size_insert_le kept.entries (token, maxEdits) (p.parse token maxEdits)
        rw [← hcapacity]
        exact Nat.le_trans hsize hroom
      parsed := by
        intro key analyses hmem
        -- What the cache holds is the parse stored now or one that it held.
        rcases Table.mem_entries_insert hmem with heq | hmem
        · obtain ⟨rfl, rfl⟩ := Prod.mk.inj heq
          rfl
        · exact h.parsed key analyses (hold _ hmem) }

end ParseCache

/-! ## One token -/

namespace Session

variable {s : Session} {p : Parser}

/-- A session of a parser: it remembers parses if the settings say so, and its cache is faithful. -/
structure Faithful (s : Session) (p : Parser) : Prop where
  parser : s.parser = p
  remembers : s.cache.isSome = p.config.rememberParses
  cache : ∀ c, s.cache = some c → c.Faithful p

theorem faithful_start (p : Parser) : (start p).Faithful p where
  parser := rfl
  remembers := by
    cases h : p.config.rememberParses with
    | true | false => simp [start, h]
  cache := by
    intro c hc
    unfold start at hc
    split at hc
    · rw [← Option.some.inj hc]
      exact ParseCache.faithful_empty p
    · exact absurd hc (by simp)

/-- A session says what its parser says, and stays `Faithful`. -/
theorem Faithful.parse (h : s.Faithful p) (maxEdits : Nat) (token : String) :
    (s.parse maxEdits token).2 = p.parse token maxEdits ∧
      (s.parse maxEdits token).1.Faithful p := by
  have hparser := h.parser
  unfold Session.parse
  cases hcache : s.cache with
  | none => exact ⟨by rw [hparser], h⟩
  | some c =>
    have hc := h.cache c hcache
    cases hfound : c.get? token maxEdits with
    -- A parse that is remembered is what the parser says.
    | some found => exact ⟨by simpa [hfound] using hc.eq_of_get? hfound, by simpa [hfound] using h⟩
    | none =>
      -- What is answered was parsed just now, and this is what is stored.
      simp only [hfound, hparser, true_and]
      exact {
        parser := rfl
        remembers := by
          rw [← h.remembers, hcache]
          rfl
        cache := by
          intro c' hc'
          rw [← Option.some.inj hc']
          exact hc.store token maxEdits }

end Session

/-! ## Trees -/

/-- If every leaf keeps an invariant of the state and comes out as `g` says, `traverse` is `map` and
keeps the invariant. -/
theorem Tree.traverse_spec {α : Type u} {β : Type v} {σ : Type w} {f : σ → α → σ × β} {g : α → β}
    {I : σ → Prop} (hf : ∀ s x, I s → (f s x).2 = g x ∧ I (f s x).1) :
    (t : Tree α) → (s : σ) → I s → (t.traverse f s).2 = t.map g ∧ I (t.traverse f s).1
  | .leaf x, s, hs => by
    obtain ⟨heq, hkeeps⟩ := hf s x hs
    exact ⟨congrArg leaf heq, hkeeps⟩
  | .group items, s, hs => by
    obtain ⟨heq, hkeeps⟩ := all items s hs
    exact ⟨congrArg group heq, hkeeps⟩
where
  all : (ts : List (Tree α)) → (s : σ) → I s →
      (traverse.traverseAll f s ts).2 = map.mapAll g ts ∧ I (traverse.traverseAll f s ts).1
    | [], s, hs => ⟨rfl, hs⟩
    | t :: rest, s, hs => by
      obtain ⟨heq, hkeeps⟩ := traverse_spec hf t s hs
      obtain ⟨hrest, hkeeps⟩ := all rest _ hkeeps
      exact ⟨List.cons_eq_cons.2 ⟨heq, hrest⟩, hkeeps⟩

/-! ## Calls -/

/-- What a session is asked for. -/
inductive SessionCall
  | token (maxEdits : Nat) (token : String)
  | tree (maxEdits : Nat) (tokens : Tree String)

/-- What a session answers. -/
inductive SessionAnswer
  | token (analyses : List Wordform)
  | tree (analyses : Tree (List Wordform))

/-- The answer to a call, and the session behind it. -/
def Session.answer (s : Session) : SessionCall → Session × SessionAnswer
  | .token maxEdits token =>
    let (s, analyses) := s.parse maxEdits token
    (s, .token analyses)
  | .tree maxEdits tokens =>
    let (s, analyses) := s.parseTree maxEdits tokens
    (s, .tree analyses)

/-- The answers to calls one after the other, and the session behind them. -/
def Session.serve (s : Session) : List SessionCall → Session × List SessionAnswer
  | [] => (s, [])
  | call :: rest =>
    let (s, answer) := s.answer call
    let (s, answers) := s.serve rest
    (s, answer :: answers)

/-- What a parser answers: a tree keeps its nesting, and each leaf is parsed. -/
def Parser.answer (p : Parser) : SessionCall → SessionAnswer
  | .token maxEdits token => .token (p.parse token maxEdits)
  | .tree maxEdits tokens => .tree (tokens.map fun token => p.parse token maxEdits)

namespace Session

variable {s : Session} {p : Parser}

/-- A session answers what its parser answers, and stays faithful. -/
theorem Faithful.answer (h : s.Faithful p) (call : SessionCall) :
    (s.answer call).2 = p.answer call ∧ (s.answer call).1.Faithful p := by
  cases call with
  | token maxEdits token =>
    obtain ⟨heq, hkeeps⟩ := h.parse maxEdits token
    exact ⟨congrArg SessionAnswer.token heq, hkeeps⟩
  | tree maxEdits tokens =>
    obtain ⟨heq, hkeeps⟩ := Tree.traverse_spec
      (fun s token (hs : s.Faithful p) => hs.parse maxEdits token) tokens s h
    exact ⟨congrArg SessionAnswer.tree heq, hkeeps⟩

theorem Faithful.serve (h : s.Faithful p) (calls : List SessionCall) :
    (s.serve calls).2 = calls.map p.answer ∧ (s.serve calls).1.Faithful p := by
  -- Every call may leave another cache, so the induction is for all faithful sessions.
  induction calls generalizing s with
  | nil => exact ⟨rfl, h⟩
  | cons call rest ih =>
    obtain ⟨heq, hkeeps⟩ := h.answer call
    obtain ⟨hrest, hkeeps⟩ := ih hkeeps
    exact ⟨List.cons_eq_cons.2 ⟨heq, hrest⟩, hkeeps⟩

/-- **Sessions.**  With `serve` a session answers every sequence of calls as its parser does, and
behind each of them its cache, if it has one, is `Faithful`: it is no larger than allowed and holds
what the parser says. -/
theorem serve_transparent (p : Parser) (calls : List SessionCall) :
    ((start p).serve calls).2 = calls.map p.answer ∧
      ∀ n, ((start p).serve (calls.take n)).1.Faithful p :=
  ⟨((faithful_start p).serve calls).1, fun n => ((faithful_start p).serve (calls.take n)).2⟩

end Session

end Morphology
