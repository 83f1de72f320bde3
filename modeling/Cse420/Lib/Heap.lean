import Mathlib

/-!
Blocks of one type, reached through addresses. A pointer is an address or `NULL`;
following `NULL`, or the address of a block that is not in use, has no result.
Which block an allocation returns is up to the allocator: any one that is not in
use, whatever has been freed before.
-/

namespace Cse420

/-- Only finitely many blocks are in use. -/
structure Heap (α : Type) where
  block : Nat → Option α
  bound : Nat
  unused : ∀ a, bound ≤ a → block a = none

namespace Heap

variable {α : Type}

def empty : Heap α := ⟨fun _ => none, 0, fun _ _ => rfl⟩

def put (h : Heap α) (a : Nat) (b : α) : Heap α where
  block := Function.update h.block a (some b)
  bound := max h.bound (a + 1)
  unused := by
    intro c hc
    rw [Function.update_of_ne (by omega)]
    exact h.unused c (by omega)

def erase (h : Heap α) (a : Nat) : Heap α where
  block := Function.update h.block a none
  bound := h.bound
  unused := by
    intro c hc
    rcases eq_or_ne c a with rfl | hne
    · exact Function.update_self ..
    · rw [Function.update_of_ne hne]
      exact h.unused c hc

/-- `p->field`. -/
def read (h : Heap α) (p : Option Nat) : Option α := p.bind h.block

/-- `p->field = value`. -/
def modify (h : Heap α) (p : Option Nat) (f : α → α) : Option (Heap α) := do
  let a ← p
  let b ← h.block a
  return h.put a (f b)

/-- `free(p)` of a block in use. -/
def free (h : Heap α) (p : Option Nat) : Option (Heap α) := do
  let a ← p
  let _ ← h.block a
  return h.erase a

/-- `malloc` and `calloc`: the address of a block that is not in use. -/
structure Malloc (α : Type) where
  address : Heap α → Nat
  fresh : ∀ h : Heap α, h.block (address h) = none

/-- An allocator that never uses a block again. -/
def Malloc.bump : Malloc α := ⟨bound, fun h => h.unused h.bound le_rfl⟩

variable {h : Heap α} {a c : Nat} {b : α}

@[simp] theorem put_block_self : (h.put a b).block a = some b := Function.update_self ..

@[simp] theorem put_block_ne (hne : c ≠ a) : (h.put a b).block c = h.block c :=
  Function.update_of_ne hne ..

@[simp] theorem erase_block_ne (hne : c ≠ a) : (h.erase a).block c = h.block c :=
  Function.update_of_ne hne ..

/-- A block in use is not one that `malloc` returns. -/
theorem ne_of_fresh (hused : h.block a = some b) (hfresh : h.block c = none) : a ≠ c := by
  rintro rfl
  rw [hfresh] at hused
  cases hused

theorem modify_some (f : α → α) (ha : h.block a = some b) :
    h.modify (some a) f = some (h.put a (f b)) := by
  simp [modify, ha]

theorem modify_none (f : α → α) : h.modify none f = none := rfl

theorem free_some (ha : h.block a = some b) : h.free (some a) = some (h.erase a) := by
  simp [free, ha]

end Heap

end Cse420
