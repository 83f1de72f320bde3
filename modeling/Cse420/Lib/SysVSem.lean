import Mathlib

/-!
System V semaphores with `SEM_UNDO`. The kernel keeps a value for each
identifier, and for each process what it will add to the value when the
process ends. `SETVAL` forgets what all processes would add.
-/

namespace Cse420.SysVSem

/-- The largest value a semaphore can have. -/
def SEMVMX : Nat := 32767

variable {κ : Type*} [DecidableEq κ]

/-- `semop` with -1 and `SEM_UNDO`: it blocks at zero. -/
def waits (semid : κ) (semval : κ → Nat) (semadj : κ → Int) :
    Option ((κ → Nat) × (κ → Int)) :=
  if 0 < semval semid then
    some (Function.update semval semid (semval semid - 1),
      Function.update semadj semid (semadj semid + 1))
  else none

/-- `semop` with +1 and `SEM_UNDO`: at the largest value it fails. -/
def signals (semid : κ) (semval : κ → Nat) (semadj : κ → Int) : (κ → Nat) × (κ → Int) :=
  if semval semid < SEMVMX then
    (Function.update semval semid (semval semid + 1),
      Function.update semadj semid (semadj semid - 1))
  else (semval, semadj)

/-- The values `SETVAL` takes; with another one it fails. -/
def InRange (val : Int) : Prop := 0 ≤ val ∧ val ≤ SEMVMX

instance (val : Int) : Decidable (InRange val) :=
  inferInstanceAs (Decidable (0 ≤ val ∧ val ≤ SEMVMX))

/-- What the end of a process does to the values. -/
def undo (semval : κ → Nat) (semadj : κ → Int) : κ → Nat := fun semid =>
  if semadj semid = 0 then semval semid
  else min ((semval semid : Int) + semadj semid).toNat SEMVMX

section Frame

variable {semid other : κ} {semval : κ → Nat} {semadj : κ → Int}

theorem waits_cases {after : (κ → Nat) × (κ → Int)}
    (h : waits semid semval semadj = some after) :
    0 < semval semid ∧ after.1 semid = semval semid - 1 ∧
      after.2 semid = semadj semid + 1 := by
  simp only [waits, Option.ite_none_right_eq_some, Option.some.injEq] at h
  obtain ⟨hpos, rfl⟩ := h
  exact ⟨hpos, Function.update_self .., Function.update_self ..⟩

theorem waits_frame {after : (κ → Nat) × (κ → Int)}
    (h : waits semid semval semadj = some after) (hne : other ≠ semid) :
    after.1 other = semval other ∧ after.2 other = semadj other := by
  simp only [waits, Option.ite_none_right_eq_some, Option.some.injEq] at h
  obtain ⟨-, rfl⟩ := h
  exact ⟨Function.update_of_ne hne .., Function.update_of_ne hne ..⟩

theorem signals_eq (semadj : κ → Int) (h : semval semid < SEMVMX) :
    (signals semid semval semadj).1 semid = semval semid + 1 ∧
      (signals semid semval semadj).2 semid = semadj semid - 1 := by
  rw [signals, if_pos h]
  exact ⟨Function.update_self .., Function.update_self ..⟩

theorem signals_frame (semval : κ → Nat) (semadj : κ → Int) (hne : other ≠ semid) :
    (signals semid semval semadj).1 other = semval other ∧
      (signals semid semval semadj).2 other = semadj other := by
  unfold signals
  split
  · exact ⟨Function.update_of_ne hne .., Function.update_of_ne hne ..⟩
  · exact ⟨rfl, rfl⟩

omit [DecidableEq κ] in
theorem undo_zero (h : semadj semid = 0) : undo semval semadj semid = semval semid := by
  rw [undo, if_pos h]

omit [DecidableEq κ] in
theorem undo_one (h : semadj semid = 1) (hsmall : semval semid < SEMVMX) :
    undo semval semadj semid = semval semid + 1 := by
  rw [undo, if_neg (by omega), h]
  omega

omit [DecidableEq κ] in
theorem undo_neg (h : semadj semid ≤ 0) : undo semval semadj semid ≤ semval semid := by
  unfold undo
  split
  · exact Nat.le_refl _
  · omega

end Frame

end Cse420.SysVSem
