import Mathlib.Tactic.Common

/-!
# `Lib.Store` — allocated records

Records of one type at the addresses `0, 1, …`: `alloc` takes the next address, so that it is new. An access to an
address that was not allocated, or that was freed, is `none`.
-/

namespace FOrder

/-- A freed cell is `none`. -/
structure Store (α : Type) where
  cells : List (Option α)

namespace Store

variable {α : Type} {s : Store α} {a b : Nat} {x y : α}

/-- The object at address `a`; `none` for an address that was never given out and for one that has been freed. -/
def get (s : Store α) (a : Nat) : Option α := (s.cells[a]?).join

/-- The address that `alloc` takes. -/
def next (s : Store α) : Nat := s.cells.length

/-- The store with a new object, at the address `next` of the store before. -/
def alloc (s : Store α) (x : α) : Store α := ⟨s.cells ++ [some x]⟩

/-- Overwrites the object at a live address; a dead address is a fault, `none`. -/
def put (s : Store α) (a : Nat) (x : α) : Option (Store α) :=
  (s.get a).map fun _ => ⟨s.cells.set a (some x)⟩

/-- Ends the life of the object at a live address; the address is never given out again. -/
def free (s : Store α) (a : Nat) : Option (Store α) :=
  (s.get a).map fun _ => ⟨s.cells.set a none⟩

/-- Only addresses below `next` are live, so `next` itself is always fresh. -/
theorem lt_next (h : s.get a = some x) : a < s.next := by
  have hcell : s.cells[a]? = some (some x) := Option.join_eq_some_iff.mp h
  exact (List.getElem?_eq_some_iff.mp hcell).1

theorem next_alloc : (s.alloc x).next = s.next + 1 := List.length_append

/-- The new object is found at its address. -/
theorem get_alloc_self : (s.alloc x).get s.next = some x := by
  rw [get, alloc, next, List.getElem?_concat_length]
  rfl

/-- The frame rule of `alloc`: every other address reads as before. -/
theorem get_alloc_ne (h : a ≠ s.next) : (s.alloc x).get a = s.get a := by
  rw [get, get, alloc]
  rcases Nat.lt_or_gt_of_ne h with hlt | hgt
  · rw [List.getElem?_append_left hlt]
  · have hlen : s.cells.length < a := hgt
    rw [List.getElem?_append_right (by omega), List.getElem?_eq_none (l := s.cells) (by omega),
      List.getElem?_eq_none (by rw [List.length_singleton]; omega)]

/-- No live object is touched by `alloc`. -/
theorem get_alloc_of_some (h : s.get a = some y) : (s.alloc x).get a = some y := by
  rw [get_alloc_ne (Nat.ne_of_lt (lt_next h)), h]

/-- **Writing** changes the one record. -/
theorem put_spec (h : s.get a = some y) (x : α) :
    ∃ s', s.put a x = some s' ∧ s'.get a = some x ∧ (∀ b, b ≠ a → s'.get b = s.get b) ∧ s'.next = s.next := by
  refine ⟨⟨s.cells.set a (some x)⟩, ?_, ?_, ?_, ?_⟩
  · rw [put, h]
    rfl
  · rw [get, List.getElem?_set_self (lt_next h)]
    rfl
  · intro b hb
    rw [get, get, List.getElem?_set_ne hb.symm]
  · exact List.length_set ..

/-- What `free` does at a live address: it succeeds, the address is dead, and nothing else changes. -/
theorem free_spec (h : s.get a = some y) :
    ∃ s', s.free a = some s' ∧ s'.get a = none ∧ (∀ b, b ≠ a → s'.get b = s.get b) ∧ s'.next = s.next := by
  refine ⟨⟨s.cells.set a none⟩, ?_, ?_, ?_, ?_⟩
  · rw [free, h]
    rfl
  · rw [get, List.getElem?_set_self (lt_next h)]
    rfl
  · intro b hb
    rw [get, get, List.getElem?_set_ne hb.symm]
  · exact List.length_set ..

end Store

end FOrder
