/-!
# Arenas

An arena stores items that are never removed.  A handle says which item of which arena is meant,
so a handle is never taken for one of another arena.

## Main definitions

* `Handle` — the address of an item
* `Arena` — the items
* `Arena.alloc`, `Arena.get?`, `Arena.modify` — storing, reading and changing an item

## Main statements

* `Arena.get?_alloc` — a stored item is found under its handle
-/

namespace Morphology

universe u

/-- The address of an item: its arena and its place there. -/
structure Handle where
  arena : Nat
  index : Nat
  deriving Repr, DecidableEq, Inhabited, Hashable

/-- Handles are ordered by arena, then by place. -/
instance : Ord Handle where
  compare a b := (compare a.arena b.arena).then (compare a.index b.index)

/-- Items that are never removed, under the name of their arena. -/
structure Arena (α : Type u) where
  name : Nat
  items : Array α
  deriving Repr

namespace Arena

variable {α : Type u}

/-- An arena without items. -/
def empty (name : Nat) : Arena α := ⟨name, #[]⟩

instance : Inhabited (Arena α) := ⟨empty 0⟩

/-- The number of items. -/
def size (a : Arena α) : Nat := a.items.size

/-- The handle that the next item gets. -/
def nextHandle (a : Arena α) : Handle := ⟨a.name, a.items.size⟩

/-- One more item, which may depend on its own handle. -/
def allocWith (a : Arena α) (make : Handle → α) : Handle × Arena α :=
  (a.nextHandle, { a with items := a.items.push (make a.nextHandle) })

/-- One more item. -/
def alloc (a : Arena α) (x : α) : Handle × Arena α :=
  a.allocWith fun _ => x

/-- The item under a handle of this arena. -/
def get? (a : Arena α) (h : Handle) : Option α :=
  if h.arena = a.name then a.items[h.index]? else none

/-- The arena with the item under a handle changed; handles of other arenas change nothing. -/
def modify (a : Arena α) (h : Handle) (f : α → α) : Arena α :=
  if h.arena = a.name then { a with items := a.items.modify h.index f } else a

/-- The items in the order in which they were stored, with their handles. -/
def toList (a : Arena α) : List (Handle × α) :=
  a.items.toList.zipIdx.map fun (x, i) => (⟨a.name, i⟩, x)

/-- A stored item is found under its handle, and the items before it are still found. -/
theorem get?_alloc (a : Arena α) (make : Handle → α) (h : Handle) :
    (a.allocWith make).2.get? h =
      if h = a.nextHandle then some (make a.nextHandle) else a.get? h := by
  obtain ⟨n, i⟩ := h
  simp only [get?, allocWith, nextHandle, Handle.mk.injEq]
  by_cases hn : n = a.name
  · by_cases hi : i = a.items.size
    · simp [hn, hi]
    · simp [hn, hi, Array.getElem?_push]
  · simp [hn]

end Arena

end Morphology
