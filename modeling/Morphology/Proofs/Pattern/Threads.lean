import Morphology.Pattern.Search
import Morphology.Proofs.Pattern.Programs

/-!
# What a search finds

The threads of a search end where the instructions accept, or are behind the next character.  No
instruction is followed twice at a place: what it leads to is then among the threads already, or
waits to be followed.  A search that finds no match has therefore followed all ways of the program.

## Main definitions

* `Instr.waysAt`, `Instr.readsAt` — where an instruction leads at a place and behind the character
* `Program.Live` — instructions accept from an address and a place of the text on
* `Program.Closed` — what the instructions done with lead to is done with, waits or is a thread

## Main statements

* `Program.advance_live_iff` — the threads at a place and those behind the next character
* `Program.isSome_searchFrom_none_iff` — a search finds a match just if a thread comes to one
* `isMatch_iff` — a pattern is found in a text just if it matches between two of its places
-/

namespace Morphology.Pattern

/-! ## One instruction at a place -/

/-- The addresses to which an instruction leads at a place, without a character. -/
def Instr.waysAt (place : Place) : Instr → List Nat
  | .assert a next => if a.holds place then [next] else []
  | .mark _ next => [next]
  | .fork first second => [first, second]
  | .one _ _ | .accept => []

/-- The addresses to which an instruction leads behind the character after a place. -/
def Instr.readsAt (place : Place) : Instr → List Nat
  | .one s next => if place.after.any s.contains then [next] else []
  | _ => []

namespace Program

variable {p : Program} {text : List Char} {code : Array Instr} {instr : Instr}
  {place : Place} {address last pos fuel n i : Nat} {seen : Array Bool} {onward ts : List Thread}
  {t : Thread} {found : Option Match}

theorem accepts_iff (hat : code[address]? = some instr) :
    Accepts code text last n address i ↔ (instr = .accept ∧ n = 0 ∧ i = last) ∨
      ∃ m, n = m + 1 ∧ ((∃ w ∈ instr.waysAt (placeAt text i), Accepts code text last m w i) ∨
        ∃ w ∈ instr.readsAt (placeAt text i), Accepts code text last m w (i + 1)) := by
  cases instr with
  | one s next =>
    rw [leads_one s hat]
    -- It leads on if there is a character and the set has it.
    cases hafter : text[i]? with
    | none => simp [Instr.waysAt, Instr.readsAt, placeAt, Expr.Spans, hafter]
    | some c =>
      cases hc : s.contains c with
      | true => simp [Instr.waysAt, Instr.readsAt, placeAt, Expr.Spans, hafter, hc]
      | false => simp [Instr.waysAt, Instr.readsAt, placeAt, Expr.Spans, hafter, hc]
  | assert a next =>
    rw [leads_assert a hat]
    cases ha : a.holds (placeAt text i) with
    | true => simp [Instr.waysAt, Instr.readsAt, Expr.Spans, ha]
    | false => simp [Instr.waysAt, Instr.readsAt, Expr.Spans, ha]
  | mark slot next =>
    rw [leads_mark slot hat]
    simp [Instr.waysAt, Instr.readsAt]
  | fork first second =>
    rw [accepts_fork_iff hat]
    simp [Instr.waysAt, Instr.readsAt]
  | accept =>
    rw [accepts_accept_iff hat]
    simp [Instr.waysAt, Instr.readsAt]

theorem exists_instr_of_accepts (h : Accepts code text last n address i) :
    ∃ instr, code[address]? = some instr := by
  cases h with
  | _ hat => exact ⟨_, hat⟩

theorem length_waysAt_le (place : Place) (instr : Instr) : (instr.waysAt place).length ≤ 2 := by
  fun_cases Instr.waysAt place instr with
  | _ => simp

/-! ## Threads that are followed -/

/-- One more thread is followed, unless it accepts: where it leads to waits before the others, or
goes to the threads behind the next character. -/
theorem follow_cons (hseen : ¬ seen.getD t.address true = true)
    (hat : p.code[t.address]? = some instr) (hne : instr ≠ .accept) :
    ∃ reads ways : List Thread, reads.map Thread.address = instr.readsAt place ∧
      ways.map Thread.address = instr.waysAt place ∧
      p.follow place pos (fuel + 1) seen onward (t :: ts) =
        p.follow place pos fuel (seen.setIfInBounds t.address true) (reads ++ onward)
          (ways ++ ts) := by
  have hget : p.code.getD t.address .accept = instr := by
    rw [Array.getD_eq_getD_getElem?, hat, Option.getD_some]
  rw [follow, if_neg hseen]
  -- What the instruction reads goes behind the next character, and its ways are followed at once.
  cases instr with
  | one s next =>
    simp only [hget, Instr.readsAt]
    cases place.after.any s.contains with
    | true => exact ⟨[{ t with address := next }], [], rfl, rfl, rfl⟩
    | false => exact ⟨[], [], rfl, rfl, rfl⟩
  | assert a next =>
    simp only [hget, Instr.waysAt]
    cases a.holds place with
    | true => exact ⟨[], [{ t with address := next }], rfl, rfl, rfl⟩
    | false => exact ⟨[], [], rfl, rfl, rfl⟩
  | mark slot next =>
    simp only [hget]
    exact ⟨[], [⟨next, (slot, pos) :: t.marks⟩], rfl, rfl, rfl⟩
  | fork first second =>
    simp only [hget]
    exact ⟨[], [{ t with address := first }, { t with address := second }], rfl, rfl, rfl⟩
  | accept => exact absurd rfl hne

theorem follow_zero : p.follow place pos 0 seen onward ts = (onward.reverse, none) := by
  cases ts with
  | nil => rfl
  | cons t ts => rfl

theorem follow_seen (hseen : seen.getD t.address true = true) :
    p.follow place pos (fuel + 1) seen onward (t :: ts) =
      p.follow place pos fuel seen onward ts := by
  rw [follow, if_pos hseen]

theorem follow_accept (hseen : ¬ seen.getD t.address true = true)
    (hat : p.code[t.address]? = some .accept) :
    p.follow place pos (fuel + 1) seen onward (t :: ts) = (onward.reverse, some t) := by
  have hget : p.code.getD t.address .accept = .accept := by
    rw [Array.getD_eq_getD_getElem?, hat, Option.getD_some]
  rw [follow, if_neg hseen]
  simp only [hget]

/-- Addresses without an instruction count as seen. -/
theorem exists_instr_of_not_seen (hsize : seen.size = p.code.size)
    (hseen : ¬ seen.getD address true = true) : ∃ instr, p.code[address]? = some instr := by
  have hlt : address < p.code.size := by
    rw [← hsize]
    by_contra hge
    rw [Array.getD_eq_getD_getElem?, Array.getElem?_eq_none (Nat.le_of_not_lt hge)] at hseen
    exact hseen rfl
  exact ⟨_, Array.getElem?_eq_getElem hlt⟩

/-! ## Threads on the ways of a program -/

/-- From an address and a place of the text, some way through the instructions accepts. -/
def Live (p : Program) (text : List Char) (address pos : Nat) : Prop :=
  pos ≤ text.length ∧ ∃ last n, Accepts p.code text last n address pos

/-- Behind the last character nothing is read. -/
theorem lt_length_of_mem_readsAt {w : Nat} (h : w ∈ instr.readsAt (placeAt text pos)) :
    pos < text.length := by
  by_contra hge
  have hafter : (placeAt text pos).after = none := List.getElem?_eq_none (Nat.le_of_not_lt hge)
  cases instr with
  | one s next => simp [Instr.readsAt, hafter] at h
  | _ => exact absurd h List.not_mem_nil

theorem live_iff (hat : p.code[address]? = some instr) (hpos : pos ≤ text.length) :
    p.Live text address pos ↔ instr = .accept ∨
      (∃ w ∈ instr.waysAt (placeAt text pos), p.Live text w pos) ∨
        ∃ w ∈ instr.readsAt (placeAt text pos), p.Live text w (pos + 1) := by
  simp only [Live, hpos, true_and, accepts_iff hat]
  -- Accepting begins with the instruction itself, with one of its ways, or with the next character.
  constructor
  · intro h
    obtain ⟨last, n, haccepts⟩ := h
    cases haccepts with
    | inl hend => exact .inl hend.1
    | inr hstep =>
      obtain ⟨m, -, hway⟩ := hstep
      cases hway with
      | inl hway =>
        obtain ⟨w, hw, hway⟩ := hway
        exact .inr (.inl ⟨w, hw, last, m, hway⟩)
      | inr hread =>
        obtain ⟨w, hw, hread⟩ := hread
        exact .inr (.inr ⟨w, hw, lt_length_of_mem_readsAt hw, last, m, hread⟩)
  · intro h
    cases h with
    | inl hend => exact ⟨pos, 0, .inl ⟨hend, rfl, rfl⟩⟩
    | inr hstep =>
      cases hstep with
      | inl hway =>
        obtain ⟨w, hw, last, m, hway⟩ := hway
        exact ⟨last, m + 1, .inr ⟨m, rfl, .inl ⟨w, hw, hway⟩⟩⟩
      | inr hread =>
        obtain ⟨w, hw, -, last, m, hread⟩ := hread
        exact ⟨last, m + 1, .inr ⟨m, rfl, .inr ⟨w, hw, hread⟩⟩⟩

/-- What comes out of `follow` is live only if something that went in is. -/
theorem live_of_follow (hsize : seen.size = p.code.size) (hpos : pos ≤ text.length)
    (h : (p.follow (placeAt text pos) pos fuel seen onward ts).2.isSome = true ∨
      ∃ t ∈ (p.follow (placeAt text pos) pos fuel seen onward ts).1,
        p.Live text t.address (pos + 1)) :
    (∃ t ∈ onward, p.Live text t.address (pos + 1)) ∨ ∃ t ∈ ts, p.Live text t.address pos := by
  -- A thread is live if one of those that it is replaced by is.
  induction fuel generalizing seen onward ts with
  | zero =>
    rw [follow_zero] at h
    left
    simpa using h
  | succ fuel ih =>
    cases ts with
    | nil =>
      left
      simpa [follow] using h
    | cons t ts =>
      -- An address that was seen is done with already.
      by_cases hseen : seen.getD t.address true = true
      · rw [follow_seen hseen] at h
        exact (ih hsize h).imp_right fun ⟨t, ht, hlive⟩ => ⟨t, List.mem_cons_of_mem _ ht, hlive⟩
      · obtain ⟨instr, hat⟩ := exists_instr_of_not_seen hsize hseen
        have hlive_iff := live_iff hat hpos
        by_cases haccept : instr = .accept
        · exact .inr ⟨t, List.mem_cons_self .., hlive_iff.2 (.inl haccept)⟩
        · obtain ⟨reads, ways, hreads, hways, hstep⟩ := follow_cons hseen hat haccept
          rw [hstep] at h
          -- The thread is live if what it leads to is.
          cases ih (by rwa [Array.size_setIfInBounds]) h with
          | inl honward =>
            obtain ⟨u, hu, hlive⟩ := honward
            cases List.mem_append.1 hu with
            | inl hread =>
              have hmem : u.address ∈ instr.readsAt (placeAt text pos) :=
                hreads ▸ List.mem_map_of_mem hread
              exact .inr ⟨t, List.mem_cons_self .., hlive_iff.2 (.inr (.inr ⟨_, hmem, hlive⟩))⟩
            | inr honward => exact .inl ⟨u, honward, hlive⟩
          | inr hwaiting =>
            obtain ⟨u, hu, hlive⟩ := hwaiting
            cases List.mem_append.1 hu with
            | inl hway =>
              have hmem : u.address ∈ instr.waysAt (placeAt text pos) :=
                hways ▸ List.mem_map_of_mem hway
              exact .inr ⟨t, List.mem_cons_self .., hlive_iff.2 (.inr (.inl ⟨_, hmem, hlive⟩))⟩
            | inr hrest => exact .inr ⟨u, List.mem_cons_of_mem _ hrest, hlive⟩

/-! ## All ways are followed -/

/-- What the instructions done with lead to is done with, waits, or is among the threads behind the
next character.  None of them accepts. -/
def Closed (p : Program) (place : Place) (done : Nat → Prop) (onward waiting : List Thread) :
    Prop :=
  ∀ ⦃address instr⦄, done address → p.code[address]? = some instr →
    instr ≠ .accept ∧ (∀ w ∈ instr.waysAt place, done w ∨ w ∈ waiting.map Thread.address) ∧
      ∀ w ∈ instr.readsAt place, w ∈ onward.map Thread.address

/-- The instructions that are not done with. -/
def remaining (seen : Array Bool) : Nat := seen.countP (!·)

theorem remaining_set (hlt : address < seen.size) (hseen : ¬ seen.getD address true = true) :
    remaining (seen.setIfInBounds address true) + 1 = remaining seen := by
  rw [Array.getD_eq_getD_getElem?, Array.getElem?_eq_getElem hlt, Option.getD_some,
    Bool.not_eq_true] at hseen
  have hpos : 0 < remaining seen := Array.countP_pos_iff.2
    ⟨seen[address], Array.getElem_mem hlt, by rw [hseen, Bool.not_false]⟩
  unfold remaining at *
  rw [Array.setIfInBounds_def, dif_pos hlt, Array.countP_set hlt, hseen]
  simp
  omega

theorem getD_set (hlt : address < seen.size) {a : Nat} :
    (seen.setIfInBounds address true).getD a true = true ↔
      seen.getD a true = true ∨ a = address := by
  simp only [Array.getD_eq_getD_getElem?, Array.getElem?_setIfInBounds]
  split
  · rename_i heq
    simp [heq]
  · rename_i hne
    simp [Ne.symm hne]

/-- An instruction that is followed is done with, and where it leads to waits or is behind the next
character: `Closed` stays true. -/
theorem Closed.step {done done' : Nat → Prop} {reads ways : List Thread}
    (hclosed : p.Closed place done onward (t :: ts)) (hat : p.code[t.address]? = some instr)
    (hne : instr ≠ .accept) (hdone : ∀ a, done' a ↔ done a ∨ a = t.address)
    (hreads : reads.map Thread.address = instr.readsAt place)
    (hways : ways.map Thread.address = instr.waysAt place) :
    p.Closed place done' (reads ++ onward) (ways ++ ts) := by
  intro a instr' ha hat'
  simp only [List.map_append, List.mem_append, hreads, hways, hdone]
  cases (hdone a).1 ha with
  -- It was done with before.
  | inl hbefore =>
    obtain ⟨hne', hways', hreads'⟩ := hclosed hbefore hat'
    refine ⟨hne', fun w hw => ?_, fun w hw => .inr (hreads' w hw)⟩
    cases hways' w hw with
    | inl hw => exact .inl (.inl hw)
    | inr hw =>
      rw [List.map_cons] at hw
      cases List.mem_cons.1 hw with
      | inl heq => exact .inl (.inr heq)
      | inr hrest => exact .inr (.inr hrest)
  -- It is done with now.
  | inr heq =>
    obtain rfl : instr = instr' := Option.some.inj (hat.symm.trans (heq ▸ hat'))
    exact ⟨hne, fun w hw => .inr (.inl hw), fun w hw => .inl hw⟩

/-- A thread at an instruction that is done with need not wait. -/
theorem Closed.skip {done : Nat → Prop} (hclosed : p.Closed place done onward (t :: ts))
    (hdone : done t.address) : p.Closed place done onward ts := by
  intro a instr ha hat
  obtain ⟨hne, hways, hreads⟩ := hclosed ha hat
  refine ⟨hne, fun w hw => ?_, hreads⟩
  cases hways w hw with
  | inl hw => exact .inl hw
  | inr hw =>
    rw [List.map_cons] at hw
    cases List.mem_cons.1 hw with
    | inl heq => exact .inl (heq ▸ hdone)
    | inr hrest => exact .inr hrest

/-- If no thread accepts, all threads are followed with all that they lead to: what is done with is
`Closed` when nothing waits any more. -/
theorem closed_follow (hsize : seen.size = p.code.size)
    (hfuel : ts.length + 2 * remaining seen ≤ fuel)
    (hclosed : p.Closed place (seen.getD · true = true) onward ts)
    (hnone : (p.follow place pos fuel seen onward ts).2 = none) :
    ∃ done : Nat → Prop, (∀ a, seen.getD a true = true → done a) ∧ (∀ t ∈ ts, done t.address) ∧
      p.Closed place done (p.follow place pos fuel seen onward ts).1 [] := by
  -- There is fuel for the threads that wait, and for two more from each instruction still to do.
  induction fuel generalizing seen onward ts with
  | zero =>
    obtain rfl := List.eq_nil_of_length_eq_zero (by omega : ts.length = 0)
    refine ⟨_, fun a ha => ha, nofun, ?_⟩
    rw [follow_zero]
    intro a instr ha hat
    simpa using hclosed ha hat
  | succ fuel ih =>
    cases ts with
    | nil =>
      refine ⟨_, fun a ha => ha, nofun, ?_⟩
      rw [follow]
      intro a instr ha hat
      simpa using hclosed ha hat
    | cons t ts =>
      rw [List.length_cons] at hfuel
      by_cases hseen : seen.getD t.address true = true
      · -- A thread at an address that was seen is skipped.
        rw [follow_seen hseen] at hnone ⊢
        obtain ⟨done, hdone, hwaiting, hclosed⟩ :=
          ih hsize (by omega) (hclosed.skip hseen) hnone
        refine ⟨done, hdone, fun u hu => ?_, hclosed⟩
        cases List.mem_cons.1 hu with
        | inl heq => exact hdone _ (heq ▸ hseen)
        | inr hrest => exact hwaiting u hrest
      · obtain ⟨instr, hat⟩ := exists_instr_of_not_seen hsize hseen
        have hlt : t.address < seen.size := hsize ▸ (Array.getElem?_eq_some_iff.1 hat).1
        by_cases haccept : instr = .accept
        · -- An accepting thread would have been returned.
          subst haccept
          rw [follow_accept hseen hat] at hnone
          exact absurd hnone nofun
        · obtain ⟨reads, ways, hreads, hways, hstep⟩ := follow_cons hseen hat haccept
          -- One instruction less is to do, which pays for the two ways at most.
          rw [hstep] at hnone ⊢
          have hcount := remaining_set hlt hseen
          have hlength : ways.length ≤ 2 := by
            rw [← List.length_map, hways]
            exact length_waysAt_le place instr
          obtain ⟨done, hdone, hwaiting, hclosed⟩ := ih
            (by rwa [Array.size_setIfInBounds]) (by rw [List.length_append]; omega)
            (hclosed.step hat haccept (fun a => getD_set hlt) hreads hways) hnone
          refine ⟨done, fun a ha => hdone a ((getD_set hlt).2 (.inl ha)), fun u hu => ?_, hclosed⟩
          cases List.mem_cons.1 hu with
          | inl heq => exact hdone _ ((getD_set hlt).2 (.inr (heq ▸ rfl)))
          | inr hrest => exact hwaiting u (List.mem_append_right _ hrest)

/-- What is done with is live only if a thread behind the next character is. -/
theorem live_of_closed {done : Nat → Prop} (hclosed : p.Closed (placeAt text pos) done onward [])
    (hdone : done address) (hlive : p.Live text address pos) :
    ∃ t ∈ onward, p.Live text t.address (pos + 1) := by
  obtain ⟨hpos, last, n, haccepts⟩ := hlive
  -- The ways lead to what is done with as well, until a character is read.
  induction n using Nat.strongRecOn generalizing address with
  | ind n ih =>
    obtain ⟨instr, hat⟩ := exists_instr_of_accepts haccepts
    obtain ⟨hne, hways, hreads⟩ := hclosed hdone hat
    cases (accepts_iff hat).1 haccepts with
    | inl hend => exact absurd hend.1 hne
    | inr hstep =>
      obtain ⟨m, rfl, hway⟩ := hstep
      cases hway with
      | inl hway =>
        obtain ⟨w, hw, hway⟩ := hway
        -- The way leads to what is done with, from where fewer steps are left.
        cases hways w hw with
        | inl hdone => exact ih m (Nat.lt_succ_self m) hdone hway
        | inr hwaiting => exact absurd hwaiting List.not_mem_nil
      | inr hread =>
        obtain ⟨w, hw, hread⟩ := hread
        obtain ⟨t, ht, rfl⟩ := List.mem_map.1 (hreads w hw)
        exact ⟨t, ht, lt_length_of_mem_readsAt hw, last, m, hread⟩

/-- Some thread at a place is live just if `advance` accepts there or a thread behind the next
character is live. -/
theorem advance_live_iff (ts : List Thread) (hpos : pos ≤ text.length) :
    ((p.advance (placeAt text pos) pos ts).2.isSome = true ∨
      ∃ t ∈ (p.advance (placeAt text pos) pos ts).1, p.Live text t.address (pos + 1)) ↔
        ∃ t ∈ ts, p.Live text t.address pos := by
  have hsize : (Array.replicate p.code.size false).size = p.code.size := Array.size_replicate
  constructor
  · intro h
    cases live_of_follow hsize hpos h with
    | inl honward => simp at honward
    | inr hwaiting => exact hwaiting
  · -- If none accepts, what is done with is closed, and the live thread is among it.
    intro h
    obtain ⟨t, ht, hlive⟩ := h
    cases haccepted : (p.advance (placeAt text pos) pos ts).2 with
    | some u => exact .inl rfl
    | none =>
      right
      have hfuel : ts.length + 2 * remaining (Array.replicate p.code.size false) ≤
          ts.length + 2 * p.code.size := by
        have hle : remaining (Array.replicate p.code.size false) ≤ _ := Array.countP_le_size
        rw [hsize] at hle
        omega
      have hclosed : p.Closed (placeAt text pos)
          ((Array.replicate p.code.size false).getD · true = true) [] ts := by
        -- At first no instruction is done with.
        intro a instr ha hat
        have hlt := (Array.getElem?_eq_some_iff.1 hat).1
        simp [Array.getD_eq_getD_getElem?, hlt] at ha
      obtain ⟨done, -, hdone, hclosed⟩ := closed_follow hsize hfuel hclosed haccepted
      exact live_of_closed hclosed (hdone t ht) hlive

/-! ## Searching -/

theorem placeAt_of_drop {c : Char} {rest : List Char} (h : text.drop pos = c :: rest) :
    placeAt text pos = ⟨(placeAt text pos).before, some c⟩ ∧
      (placeAt text (pos + 1)).before = some c ∧ text.drop (pos + 1) = rest ∧
        pos < text.length := by
  have hget : text[pos]? = some c := by
    rw [← List.head?_drop, h, List.head?_cons]
  refine ⟨?_, hget, ?_, (List.getElem?_eq_some_iff.1 hget).1⟩
  · rw [placeAt, hget]
  · rw [← List.tail_drop, h, List.tail_cons]

theorem isSome_stepFrom (before : Option Char) (after : Option Char)
    (hfound : found.isSome = true) :
    (p.stepFrom ⟨before, after⟩ pos found ts).2.isSome = true := by
  simp only [stepFrom, Option.orElse_eq_orElse, Option.orElse_eq_or, Option.isSome_or, hfound,
    Bool.or_true]

/-- A match may give way to another, but is not lost. -/
theorem isSome_searchFrom {before : Option Char} {rest : List Char}
    (hfound : found.isSome = true) :
    (p.searchFrom before pos found ts rest).isSome = true := by
  induction rest generalizing before pos found ts with
  | nil => exact isSome_stepFrom before none hfound
  | cons c rest ih =>
    have hstep : (p.stepFrom ⟨before, some c⟩ pos found ts).2.isSome = true :=
      isSome_stepFrom before (some c) hfound
    unfold searchFrom
    dsimp only
    split
    · exact hstep
    · exact ih hstep

/-- Without a match so far, a thread begins at every place. -/
theorem stepFrom_none_iff (ts : List Thread) (hpos : pos ≤ text.length) :
    ((p.stepFrom (placeAt text pos) pos none ts).2.isSome = true ∨
      ∃ t ∈ (p.stepFrom (placeAt text pos) pos none ts).1, p.Live text t.address (pos + 1)) ↔
        (∃ t ∈ ts, p.Live text t.address pos) ∨ p.Live text p.entry pos := by
  have hadvance := advance_live_iff (p := p) (ts ++ [⟨p.entry, [(startSlot, pos)]⟩]) hpos
  simp only [stepFrom, Option.isNone_none, if_true, Option.orElse_eq_orElse, Option.orElse_eq_or,
    Option.or_none, Option.isSome_map]
  rw [hadvance]
  simp only [List.mem_append, List.mem_singleton, or_and_right, exists_or, exists_eq_left]

theorem exists_le_iff {Q : Nat → Prop} :
    (∃ i, pos ≤ i ∧ Q i) ↔ Q pos ∨ ∃ i, pos + 1 ≤ i ∧ Q i := by
  constructor
  · intro h
    obtain ⟨i, hi, hQ⟩ := h
    cases Nat.eq_or_lt_of_le hi with
    | inl heq => exact .inl (heq ▸ hQ)
    | inr hlt => exact .inr ⟨i, hlt, hQ⟩
  · intro h
    cases h with
    | inl hQ => exact ⟨pos, Nat.le_refl pos, hQ⟩
    | inr hlater =>
      obtain ⟨i, hi, hQ⟩ := hlater
      exact ⟨i, Nat.le_of_succ_le hi, hQ⟩

/-- Without a match so far, a search finds one just if a thread is live or one is that begins in the
rest of the text. -/
theorem isSome_searchFrom_none_iff (ts : List Thread) {rest : List Char}
    (hrest : text.drop pos = rest) (hpos : pos ≤ text.length) :
    (p.searchFrom (placeAt text pos).before pos none ts rest).isSome = true ↔
      (∃ t ∈ ts, p.Live text t.address pos) ∨ ∃ i, pos ≤ i ∧ p.Live text p.entry i := by
  induction rest generalizing pos ts with
  | nil =>
    have hend : pos = text.length := Nat.le_antisymm hpos (List.drop_eq_nil_iff.1 hrest)
    have hplace : placeAt text pos = ⟨(placeAt text pos).before, none⟩ := by
      rw [placeAt, hend, List.getElem?_length]
    -- Behind the text no thread goes on, and none begins.
    have hbeyond {address i : Nat} (hi : pos + 1 ≤ i) : ¬ p.Live text address i := by
      intro hlive
      have hle := hlive.1
      omega
    rw [exists_le_iff, ← or_assoc, ← stepFrom_none_iff ts hpos, searchFrom, ← hplace]
    constructor
    · exact fun h => .inl (.inl h)
    · intro h
      obtain (h | ⟨t, -, hlive⟩) | ⟨i, hi, hlive⟩ := h
      · exact h
      · exact absurd hlive (hbeyond (Nat.le_refl _))
      · exact absurd hlive (hbeyond hi)
  | cons c rest ih =>
    obtain ⟨hplace, hbefore, hrest, hlt⟩ := placeAt_of_drop hrest
    have ih := ih (p.stepFrom (placeAt text pos) pos none ts).1 hrest hlt
    rw [exists_le_iff, ← or_assoc, ← stepFrom_none_iff ts hpos, or_assoc, ← ih, hbefore, searchFrom,
      ← hplace]
    dsimp only
    -- A match found here is kept; without one the search goes on with the threads.
    cases hfound : (p.stepFrom (placeAt text pos) pos none ts).2 with
    | some m =>
      split
      · simp
      · simp [isSome_searchFrom]
    | none => simp

end Program

/-- A pattern is found in a text (`isMatch`) just if it `Spans` two of its places. -/
theorem isMatch_iff {p : Pattern} (hproper : p.expr.IsProper) {text : String} :
    p.isMatch text = true ↔
      ∃ i j, i ≤ text.toList.length ∧ p.expr.Spans text.toList i j := by
  have hsearch := Program.isSome_searchFrom_none_iff (p := p.program) []
    (List.drop_zero (l := text.toList)) (Nat.zero_le _)
  have hmatch : p.isMatch text =
      (p.program.searchFrom (placeAt text.toList 0).before 0 none [] text.toList).isSome := by
    unfold isMatch Program.matchFrom?
    rw [if_pos (Nat.zero_le _), List.drop_zero]
    rfl
  rw [hmatch, hsearch, p.program_eq]
  -- At first there is no thread, so a live one begins somewhere in the text.
  constructor
  · intro h
    cases h with
    | inl hthread => exact absurd hthread nofun
    | inr hlive =>
      obtain ⟨i, -, hi, j, n, haccepts⟩ := hlive
      exact ⟨i, j, hi, (Program.accepts_ofExpr_iff hproper).1 ⟨n, haccepts⟩⟩
  · intro h
    obtain ⟨i, j, hi, hspans⟩ := h
    obtain ⟨n, haccepts⟩ := (Program.accepts_ofExpr_iff hproper).2 hspans
    exact .inr ⟨i, Nat.zero_le i, hi, j, n, haccepts⟩

end Morphology.Pattern
