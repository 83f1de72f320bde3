import Mathlib

/-!
A ring of slots that is written at an index which wraps around. Slots are
never cleared: a ring of size `n` always holds the last `n` entries of the log
of everything written to it, whatever has been read in between.
-/

namespace Cse420.RingBuffer

variable {α : Type*}

/-- The index after `i`. -/
def advance (size i : Nat) : Nat := if i + 1 = size then 0 else i + 1

theorem advance_mod {size : Nat} (hsize : 0 < size) (n : Nat) :
    advance size (n % size) = (n + 1) % size := by
  have hlt := Nat.mod_lt n hsize
  have hsplit : (n + 1) % size = (n % size + 1) % size := (Nat.mod_add_mod n size 1).symm
  unfold advance
  split
  · rename_i hend
    rw [hsplit, hend, Nat.mod_self]
  · rw [hsplit]
    exact (Nat.mod_eq_of_lt (by omega)).symm

/-- The last `size` entries of the log are in their slots. -/
def Recent (size : Nat) (slots : List (Option α)) (log : List α) : Prop :=
  slots.length = size ∧
    ∀ j entry, log[j]? = some entry → log.length ≤ j + size →
      slots[j % size]? = some (some entry)

theorem recent_empty (size : Nat) : Recent size (List.replicate size (none : Option α)) [] := by
  constructor
  · simp
  · intro j entry hentry
    simp at hentry

theorem Recent.put {size : Nat} {slots : List (Option α)} {log : List α} (hsize : 0 < size)
    (h : Recent size slots log) (entry : α) :
    Recent size (slots.set (log.length % size) (some entry)) (log ++ [entry]) := by
  have hlt := Nat.mod_lt log.length hsize
  constructor
  · simpa using h.1
  · intro j old hold hrecent
    simp only [List.length_append, List.length_singleton] at hrecent
    rcases Nat.lt_trichotomy j log.length with hj | hj | hj
    · -- an older entry has another slot because fewer than `size` lie in between
      rw [List.getElem?_append_left hj] at hold
      have hslot : log.length % size ≠ j % size := by
        intro heq
        have hdvd := (Nat.modEq_iff_dvd' (Nat.le_of_lt hj)).mp heq.symm
        have := Nat.le_of_dvd (by omega) hdvd
        omega
      rw [List.getElem?_set_ne hslot]
      exact h.2 j old hold (by omega)
    · subst hj
      simp only [List.getElem?_concat_length, Option.some.injEq] at hold
      rw [List.getElem?_set_self (by rw [h.1]; exact hlt), hold]
    · rw [List.getElem?_eq_none (by simp; omega)] at hold
      cases hold

end Cse420.RingBuffer
