import Morphology.Proofs.Outcome
import Morphology.Proofs.Transducer.Trie
import Morphology.Transducer.Builder

/-!
# What a transducer stores

A transducer that is built from some entries has the value of each under its key, and nothing
else.  A draft that goes on after a key is refused stores the entries that it took.

## Main definitions

* `Alphabet.Extends` — an alphabet in which all characters keep their numbers
* `Alphabet.Numbered` — the number of a character is its place
* `Transducer.Stores` — the entries of a transducer
* `Transducer.WellNumbered` — characters and values are numbered without repetition
* `Transducer.Draft.insertAll`, `Transducer.Draft.accepted` — a draft that is given some entries,
  and those that it takes
* `Transducer.ofAccepted` — the transducer of those

## Main statements

* `Transducer.Draft.stores_insertAll` — a draft stores the entries that it takes
* `Transducer.Draft.height_insertAll_le` — its trie is no higher than the longest key
* `Transducer.stores_ofList` — a transducer stores the entries that it is built from
-/

namespace Morphology

universe u

namespace Alphabet

/-! ## Growing alphabets -/

/-- All characters of an alphabet have the same numbers in another. -/
def Extends (a b : Alphabet) : Prop :=
  ∀ c n, a.number? c = some n → b.number? c = some n

variable {a b d : Alphabet}

theorem Extends.refl (a : Alphabet) : a.Extends a :=
  fun _ _ h => h

theorem Extends.trans (h : a.Extends b) (h' : b.Extends d) : a.Extends d :=
  fun c n hc => h' c n (h c n hc)

/-- The symbols of a key stay the same in a greater alphabet. -/
theorem Extends.mapM (h : a.Extends b) {key : List Char} {symbols : List Nat}
    (hkey : key.mapM a.number? = some symbols) : key.mapM b.number? = some symbols := by
  induction key generalizing symbols with
  | nil => exact hkey
  | cons c key ih =>
    simp only [List.mapM_cons, Option.bind_eq_bind, Option.bind_eq_some_iff] at hkey ⊢
    obtain ⟨n, hn, ns, hns, heq⟩ := hkey
    exact ⟨n, h c n hn, ns, ih hns, heq⟩

/-- A new character is numbered, unless the alphabet is full. -/
theorem intern_of_none {c : Char} (h : a.number? c = none) :
    a.intern c = if a.chars.size < capacity then
      (some a.chars.size, ⟨a.chars.push c, a.numbers.insert c a.chars.size⟩) else (none, a) := by
  simp [intern, h]

theorem intern_of_some {c : Char} {n : Nat} (h : a.number? c = some n) :
    a.intern c = (some n, a) := by
  simp [intern, h]

/-- A key has as many symbols as characters. -/
theorem length_of_mapM_number? {key : List Char} {symbols : List Nat}
    (h : key.mapM a.number? = some symbols) : symbols.length = key.length := by
  induction key generalizing symbols with
  | nil =>
    obtain rfl : [] = symbols := by simpa using h
    rfl
  | cons c key ih =>
    simp only [List.mapM_cons, Option.bind_eq_bind, Option.bind_eq_some_iff] at h
    obtain ⟨n, -, ns, hns, heq⟩ := h
    obtain rfl : n :: ns = symbols := Option.some.inj heq
    simp [ih hns]

theorem extends_intern (a : Alphabet) (c : Char) : a.Extends (a.intern c).2 := by
  intro e n he
  cases hc : a.number? c with
  | some m => rwa [intern_of_some hc]
  | none =>
    have hne : c ≠ e := by
      rintro rfl
      simp [hc] at he
    rw [intern_of_none hc]
    split
    · simp only [number?, Std.TreeMap.getElem?_insert] at he ⊢
      rw [if_neg (by simpa [Std.compare_eq_iff_eq] using hne)]
      exact he
    · exact he

/-- A character that is taken has its number from then on. -/
theorem number?_intern {c : Char} {n : Nat} (h : (a.intern c).1 = some n) :
    (a.intern c).2.number? c = some n := by
  cases hc : a.number? c with
  | some m =>
    rw [intern_of_some hc] at h ⊢
    exact hc.trans h
  | none =>
    rw [intern_of_none hc] at h ⊢
    split at h
    · rename_i hlt
      rw [if_pos hlt]
      simpa [number?] using h
    · exact absurd h (by simp)

/-- The characters of a text that is taken have the numbers given. -/
theorem internAll_eq_true {key : List Char} {symbols : List Nat}
    (h : a.internAll key = (symbols, b, true)) :
    a.Extends b ∧ key.mapM b.number? = some symbols := by
  induction key generalizing a symbols with
  | nil =>
    obtain ⟨rfl, rfl⟩ : symbols = [] ∧ a = b := by simpa [internAll, eq_comm] using h
    exact ⟨.refl a, rfl⟩
  | cons c key ih =>
    simp only [internAll] at h
    -- The first character has a number, or the text is refused.
    cases hc : a.intern c with
    | mk number a' =>
      cases number with
      | none => simp [hc] at h
      | some n =>
        simp only [hc] at h
        cases hrest : a'.internAll key with
        | mk ns rest =>
          obtain ⟨b', all⟩ := rest
          obtain ⟨rfl, rfl, rfl⟩ : n :: ns = symbols ∧ b' = b ∧ all = true := by
            simpa [hrest] using h
          obtain ⟨hext, hkey⟩ := ih hrest
          -- The number of the first character is kept when the others are taken.
          have hext' : a.Extends a' := by
            have := extends_intern a c
            rwa [hc] at this
          have hn : a'.number? c = some n := by
            have := number?_intern (a := a) (c := c) (n := n)
            rw [hc] at this
            exact this rfl
          refine ⟨hext'.trans hext, ?_⟩
          simp [List.mapM_cons, hext c n hn, hkey]

theorem extends_internAll (a : Alphabet) (key : List Char) : a.Extends (a.internAll key).2.1 := by
  induction key generalizing a with
  | nil => exact .refl a
  | cons c key ih =>
    have hext := extends_intern a c
    rcases hc : a.intern c with ⟨_ | n, a'⟩ <;> rw [hc] at hext
    · simpa [internAll, hc] using hext
    · simpa [internAll, hc] using hext.trans (ih a')

/-- No more symbols are given than the text has characters. -/
theorem length_internAll_le (a : Alphabet) (key : List Char) :
    (a.internAll key).1.length ≤ key.length := by
  induction key generalizing a with
  | nil => exact Nat.le_refl _
  | cons c key ih =>
    rcases hc : a.intern c with ⟨_ | n, a'⟩
    · simp [internAll, hc]
    · simpa [internAll, hc] using ih a'

/-! ## Places of characters -/

/-- The number of a character is its place among the characters. -/
def Numbered (a : Alphabet) : Prop :=
  ∀ c n, a.number? c = some n → a.chars[n]? = some c

/-- Different characters have different numbers. -/
theorem Numbered.injective (h : a.Numbered) {c e : Char} {n : Nat} (hc : a.number? c = some n)
    (he : a.number? e = some n) : c = e :=
  Option.some.inj ((h c n hc).symm.trans (h e n he))

theorem Numbered.empty : empty.Numbered := by
  intro c n h
  simp [number?, Alphabet.empty] at h

theorem Numbered.intern (h : a.Numbered) (c : Char) : (a.intern c).2.Numbered := by
  cases hc : a.number? c with
  | some m => rwa [intern_of_some hc]
  | none =>
    rw [intern_of_none hc]
    split
    · intro e n he
      simp only [number?, Std.TreeMap.getElem?_insert] at he
      -- The number is that of the new character, or one given before.
      split at he
      · rename_i heq
        obtain rfl : c = e := by simpa [Std.compare_eq_iff_eq] using heq
        obtain rfl : a.chars.size = n := Option.some.inj he
        simp
      · -- What was numbered before is in front of the new character.
        have hplace := h e n he
        rwa [Array.getElem?_push_lt (Array.getElem?_eq_some_iff.1 hplace).1,
          ← Array.getElem?_eq_getElem]
    · exact h

theorem Numbered.internAll (h : a.Numbered) (key : List Char) : (a.internAll key).2.1.Numbered := by
  induction key generalizing a with
  | nil => exact h
  | cons c key ih =>
    have hnext := h.intern c
    rcases hc : a.intern c with ⟨_ | n, a'⟩ <;> rw [hc] at hnext
    · simpa [Alphabet.internAll, hc] using hnext
    · simpa [Alphabet.internAll, hc] using ih hnext

end Alphabet

namespace Transducer

variable {α : Type u} {t : Transducer α} {entries : List (List Char × α)}

/-! ## Stored entries -/

/-- A transducer stores some entries: its values are theirs, each under its key. -/
structure Stores (t : Transducer α) (entries : List (List Char × α)) : Prop where
  values : t.values.toList = entries.map (·.2)
  ordered : t.root.Ordered
  weight : t.root.weight = entries.length
  known : ∀ key x, (key, x) ∈ entries → ∃ symbols, key.mapM t.alphabet.number? = some symbols
  find : ∀ symbols n, n ∈ t.root.find symbols ↔
    ∃ key x, entries[n]? = some (key, x) ∧ key.mapM t.alphabet.number? = some symbols

namespace Stores

theorem nil : (default : Transducer α).Stores [] where
  values := rfl
  ordered := Trie.Ordered.empty
  weight := rfl
  known := by simp
  find := by
    intro symbols n
    show n ∈ Trie.empty.find symbols ↔ _
    simp [Trie.find_empty]

theorem size_values (h : t.Stores entries) : t.values.size = entries.length := by
  rw [← Array.length_toList, h.values, List.length_map]

/-- The value of an entry is in its place. -/
theorem getElem?_values (h : t.Stores entries) (n : Nat) :
    t.values[n]? = (entries[n]?).map (·.2) := by
  rw [← Array.getElem?_toList, h.values, List.getElem?_map]

/-- The keys that are stored have the same symbols in a greater alphabet. -/
theorem find_iff_of_extends (h : t.Stores entries) {alphabet : Alphabet}
    (hext : t.alphabet.Extends alphabet) (symbols : List Nat) (n : Nat) :
    n ∈ t.root.find symbols ↔ ∃ key x, entries[n]? = some (key, x) ∧
      key.mapM alphabet.number? = some symbols := by
  rw [h.find]
  constructor
  · rintro ⟨key, x, hentry, hkey⟩
    exact ⟨key, x, hentry, hext.mapM hkey⟩
  · rintro ⟨key, x, hentry, hkey⟩
    obtain ⟨symbols₀, hsymbols⟩ := h.known key x (List.mem_of_getElem? hentry)
    obtain rfl : symbols₀ = symbols := Option.some.inj ((hext.mapM hsymbols).symm.trans hkey)
    exact ⟨key, x, hentry, hsymbols⟩

/-- An entry more is stored under its key. -/
theorem concat (h : t.Stores entries) {key : List Char} {x : α} {symbols : List Nat}
    {alphabet : Alphabet} (hext : t.alphabet.Extends alphabet)
    (hkey : key.mapM alphabet.number? = some symbols) :
    (Transducer.mk (t.root.alter (· ++ [t.values.size]) symbols) (t.values.push x) alphabet).Stores
      (entries ++ [(key, x)]) where
  values := by simp [h.values]
  ordered := h.ordered.alter
  weight := by
    rw [Trie.weight_alter (n := 1) fun vs => List.length_append, h.weight]
    simp
  known := by
    intro key' x' hmem
    rcases List.mem_append.1 hmem with hmem | hmem
    · obtain ⟨symbols', hsymbols⟩ := h.known key' x' hmem
      exact ⟨symbols', hext.mapM hsymbols⟩
    · obtain ⟨rfl, rfl⟩ : key' = key ∧ x' = x := by simpa using hmem
      exact ⟨symbols, hkey⟩
  find := by
    intro symbols' n
    -- Under the symbols of the new key there is one value more, and under others none.
    have hnew : n ∈ (t.root.alter (· ++ [t.values.size]) symbols).find symbols' ↔
        n ∈ t.root.find symbols' ∨ n = entries.length ∧ symbols' = symbols := by
      rw [Trie.find_alter h.ordered, h.size_values]
      by_cases hs : symbols' = symbols
      · simp [hs]
      · simp [hs]
    rw [hnew, h.find_iff_of_extends hext]
    -- The entry was there before, or is the new one, or there is none of that number.
    by_cases hn : n < entries.length
    · rw [List.getElem?_append_left hn]
      simp [Nat.ne_of_lt hn]
    · rw [List.getElem?_eq_none (by omega : entries.length ≤ n)]
      by_cases heq : n = entries.length
      · subst heq
        simp [hkey, eq_comm]
      · rw [List.getElem?_eq_none (by simp; omega)]
        simp [heq]

/-- A key that is refused leaves its first symbols in the trie, but no value: what the transducer
`Stores` is the same. -/
theorem grow (h : t.Stores entries) {alphabet : Alphabet} (hext : t.alphabet.Extends alphabet)
    (symbols : List Nat) :
    (Transducer.mk (t.root.alter id symbols) t.values alphabet).Stores entries where
  values := h.values
  ordered := h.ordered.alter
  weight := by
    have hweight := Trie.weight_alter (g := id) (n := 0) (fun _ => rfl) symbols t.root
    rw [hweight]
    exact h.weight
  known := by
    intro key x hmem
    obtain ⟨symbols', hsymbols⟩ := h.known key x hmem
    exact ⟨symbols', hext.mapM hsymbols⟩
  find := by
    intro symbols' n
    rw [Trie.find_alter h.ordered, id, ite_eq_right_iff.2 fun heq => heq ▸ rfl]
    exact h.find_iff_of_extends hext symbols' n

end Stores

/-- Characters are numbered by their places, and no value is twice under a key. -/
structure WellNumbered (t : Transducer α) : Prop where
  chars : t.alphabet.Numbered
  values : ∀ symbols, (t.root.find symbols).Nodup

/-! ## Drafts -/

namespace Draft

/-- A draft after some entries, whether or not it takes them. -/
def insertAll (d : Draft α) (entries : List (List Char × α)) : Draft α :=
  entries.foldl (fun d e => (d.insert e.1 e.2).1) d

/-- The entries that a draft takes, one after another. -/
def accepted (d : Draft α) : List (List Char × α) → List (List Char × α)
  | [] => []
  | e :: rest =>
    let (next, error) := d.insert e.1 e.2
    if error.isNone then e :: next.accepted rest else next.accepted rest

variable {d : Draft α} {key : List Char} {x : α} {rest : List (List Char × α)}

/-- `insert` refuses a key as it is, or puts its symbols into the trie, with a value if they are
all. -/
theorem insert_cases (d : Draft α) (key : List Char) (x : α) :
    d.insert key x = (d, some .emptyKey) ∨
    ∃ symbols alphabet, d.result.alphabet.Extends alphabet ∧
      (d.result.alphabet.Numbered → alphabet.Numbered) ∧ symbols.length ≤ key.length ∧
      (key.mapM alphabet.number? = some symbols ∧
        d.insert key x = ({ d with result :=
          ⟨d.result.root.alter (· ++ [d.result.values.size]) symbols, d.result.values.push x,
            alphabet⟩ }, none) ∨
        d.insert key x = ({ d with result :=
          ⟨d.result.root.alter id symbols, d.result.values, alphabet⟩ }, some .alphabetFull)) := by
  unfold insert
  split
  · exact .inl rfl
  · right
    have hext := Alphabet.extends_internAll d.result.alphabet key
    have hnum : d.result.alphabet.Numbered → (d.result.alphabet.internAll key).2.1.Numbered :=
      fun h => h.internAll key
    have hlen := Alphabet.length_internAll_le d.result.alphabet key
    rcases hall : d.result.alphabet.internAll key with ⟨symbols, alphabet, _ | _⟩ <;>
      rw [hall] at hext hnum hlen
    · -- The alphabet was full before the end of the key.
      exact ⟨symbols, alphabet, hext, hnum, hlen, .inr (by simp only [hall])⟩
    · exact ⟨symbols, alphabet, hext, hnum, hlen,
        .inl ⟨(Alphabet.internAll_eq_true hall).2, by simp only [hall]⟩⟩

theorem stores_insert (h : d.result.Stores entries) (e : List Char × α) :
    (d.insert e.1 e.2).1.result.Stores (entries ++ d.accepted [e]) := by
  unfold accepted
  rcases d.insert_cases e.1 e.2 with heq | ⟨symbols, alphabet, hext, -, -, ⟨hkey, heq⟩ | heq⟩
  · simpa [heq, accepted] using h
  · simpa [heq, accepted] using h.concat hext hkey
  · simpa [heq, accepted] using h.grow hext symbols

theorem accepted_cons (d : Draft α) (e : List Char × α) (rest : List (List Char × α)) :
    d.accepted (e :: rest) = d.accepted [e] ++ (d.insert e.1 e.2).1.accepted rest := by
  simp only [accepted]
  split <;> rfl

/-- A draft stores the entries that it takes, behind those that it has. -/
theorem stores_insertAll (h : d.result.Stores entries) (rest : List (List Char × α)) :
    (d.insertAll rest).result.Stores (entries ++ d.accepted rest) := by
  induction rest generalizing d entries with
  | nil => simpa [insertAll, accepted] using h
  | cons e rest ih =>
    rw [accepted_cons, ← List.append_assoc]
    exact ih (stores_insert h e)

private theorem wellNumbered_insert (hd : d.result.Stores entries) (h : d.result.WellNumbered)
    (e : List Char × α) : (d.insert e.1 e.2).1.result.WellNumbered := by
  rcases d.insert_cases e.1 e.2 with heq | ⟨symbols, alphabet, -, hnum, -, ⟨-, heq⟩ | heq⟩
  · rwa [heq]
  · -- The key was taken, and has the next value.
    rw [heq]
    refine ⟨hnum h.chars, fun symbols' => ?_⟩
    rw [Trie.find_alter hd.ordered]
    split
    · -- The values under the key are all in front of the new one.
      refine List.nodup_append.2 ⟨h.values symbols, by simp, fun n hn m hm => ?_⟩
      obtain ⟨key', x', hentry, -⟩ := (hd.find symbols n).1 hn
      have hlt := (List.getElem?_eq_some_iff.1 hentry).1
      rw [List.mem_singleton.1 hm, hd.size_values]
      exact Nat.ne_of_lt hlt
    · exact h.values symbols'
  · -- The key was refused, and no value was added.
    rw [heq]
    refine ⟨hnum h.chars, fun symbols' => ?_⟩
    rw [Trie.find_alter hd.ordered]
    split
    · exact h.values symbols
    · exact h.values symbols'

theorem wellNumbered_insertAll (hd : d.result.Stores entries) (h : d.result.WellNumbered)
    (rest : List (List Char × α)) : (d.insertAll rest).result.WellNumbered := by
  induction rest generalizing d entries with
  | nil => exact h
  | cons e rest ih => exact ih (stores_insert hd e) (wellNumbered_insert hd h e)

/-- The trie of a draft is no higher than the longest key. -/
theorem height_insertAll_le {n : Nat} (hd : d.result.root.height ≤ n)
    (hrest : ∀ e ∈ rest, e.1.length ≤ n) : (d.insertAll rest).result.root.height ≤ n := by
  induction rest generalizing d with
  | nil => exact hd
  | cons e rest ih =>
    obtain ⟨he, hrest⟩ := List.forall_mem_cons.1 hrest
    apply ih _ hrest
    -- No path is longer than before or than the key.
    have hgrow (g : List Nat → List Nat) {symbols : List Nat} (hlen : symbols.length ≤ e.1.length) :
        (d.result.root.alter g symbols).height ≤ n := by
      have := Trie.height_alter_le g symbols d.result.root
      omega
    show (d.insert e.1 e.2).1.result.root.height ≤ n
    rcases d.insert_cases e.1 e.2 with heq | ⟨symbols, alphabet, -, -, hlen, ⟨-, heq⟩ | heq⟩ <;>
      rw [heq]
    · exact hd
    · exact hgrow _ hlen
    · exact hgrow _ hlen

theorem stores_start (emptyKeys : Bool) : (start emptyKeys : Draft α).result.Stores [] := .nil

theorem wellNumbered_start (emptyKeys : Bool) : (start emptyKeys : Draft α).result.WellNumbered where
  chars := Alphabet.Numbered.empty
  values := by
    intro symbols
    show (Trie.empty.find symbols).Nodup
    simp [Trie.find_empty]

end Draft

/-! ## Building -/

/-- The transducer of those of some entries that are not refused. -/
def ofAccepted (emptyKeys : Bool) (entries : List (List Char × α)) : Transducer α :=
  ((Draft.start emptyKeys).insertAll entries).result

theorem stores_ofAccepted (emptyKeys : Bool) (entries : List (List Char × α)) :
    (ofAccepted emptyKeys entries).Stores ((Draft.start emptyKeys).accepted entries) :=
  Draft.stores_insertAll (Draft.stores_start emptyKeys) entries

theorem wellNumbered_ofAccepted (emptyKeys : Bool) (entries : List (List Char × α)) :
    (ofAccepted emptyKeys entries).WellNumbered :=
  Draft.wellNumbered_insertAll (Draft.stores_start emptyKeys) (Draft.wellNumbered_start emptyKeys)
    entries

/-- A further entry, unless it is refused. -/
private def insertEntry (d : Draft α) (entry : List Char × α) : Except BuildError (Draft α) :=
  match d.insert entry.1 entry.2 with
  | (d, none) => .ok d
  | (_, some e) => .error e

private theorem eq_insertAll_of_foldlM {d d' : Draft α}
    (h : entries.foldlM insertEntry d = .ok d') :
    d.insertAll entries = d' ∧ d.accepted entries = entries := by
  induction entries generalizing d with
  | nil => exact ⟨Except.ok.inj h, rfl⟩
  | cons entry rest ih =>
    rw [List.foldlM_cons, bind_eq_ok_iff] at h
    obtain ⟨next, hinsert, h⟩ := h
    unfold insertEntry at hinsert
    -- The entry was taken, or the whole list is refused.
    split at hinsert
    · rename_i d₁ hnone
      obtain rfl : d₁ = next := Except.ok.inj hinsert
      obtain ⟨hall, haccepted⟩ := ih h
      refine ⟨?_, ?_⟩
      · rw [← hall]
        simp only [Draft.insertAll, List.foldl_cons, hnone]
      · simp [Draft.accepted, hnone, haccepted]
    · exact absurd hinsert (by simp)

/-- A transducer is built from some entries if a draft takes them all. -/
theorem eq_ofAccepted_of_ofList {emptyKeys : Bool} (h : ofList emptyKeys entries = .ok t) :
    ofAccepted emptyKeys entries = t ∧
      (Draft.start emptyKeys : Draft α).accepted entries = entries := by
  change (entries.foldlM insertEntry (Draft.start emptyKeys)).map (·.result) = .ok t at h
  obtain ⟨d, hd, rfl⟩ := map_eq_ok_iff.1 h
  obtain ⟨hall, haccepted⟩ := eq_insertAll_of_foldlM hd
  exact ⟨congrArg (·.result) hall, haccepted⟩

/-- A transducer stores the entries that it is built from. -/
theorem stores_ofList {emptyKeys : Bool} (h : ofList emptyKeys entries = .ok t) :
    t.Stores entries := by
  obtain ⟨rfl, haccepted⟩ := eq_ofAccepted_of_ofList h
  have hstores := stores_ofAccepted emptyKeys entries
  rwa [haccepted] at hstores

theorem wellNumbered_ofList {emptyKeys : Bool} (h : ofList emptyKeys entries = .ok t) :
    t.WellNumbered := by
  obtain ⟨rfl, -⟩ := eq_ofAccepted_of_ofList h
  exact wellNumbered_ofAccepted emptyKeys entries

theorem height_ofList_le {emptyKeys : Bool} (h : ofList emptyKeys entries = .ok t) {n : Nat}
    (hkeys : ∀ e ∈ entries, e.1.length ≤ n) : t.root.height ≤ n := by
  obtain ⟨rfl, -⟩ := eq_ofAccepted_of_ofList h
  exact Draft.height_insertAll_le (Nat.zero_le _) hkeys

end Transducer

end Morphology
