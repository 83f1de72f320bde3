import Mathlib

/-!
Charges by brackets. Each bracket has a rate and the amount it starts at, and
what lies in a bracket is charged at its rate. A program takes the brackets from
the last to the first: what is above the start is charged and taken off. The
charge is the sum over the brackets, and it grows with the amount, nowhere faster
than the highest rate.
-/

namespace Cse420.Brackets

variable {K : Type*} [Field K] [LinearOrder K] [IsStrictOrderedRing K]

structure Bracket (K : Type*) where
  rate : K
  start : K

/-- One bracket: the amount that is left, and what was charged so far. -/
def charge (bracket : Bracket K) (s : K × K) : K × K :=
  if bracket.start < s.1 then
    (bracket.start, s.2 + (s.1 - bracket.start) * bracket.rate)
  else s

/-- All brackets, from the last to the first. -/
def chargeAll (brackets : List (Bracket K)) (s : K × K) : K × K := brackets.foldr charge s

/-- The part of an amount in a bracket, given the start of the next one. -/
def part (start : K) : Option K → K → K
  | none, amount => max 0 (amount - start)
  | some next, amount => max 0 (min amount next - start)

/-- The sum over the brackets. -/
def due : List (Bracket K) → K → K
  | [], _ => 0
  | bracket :: rest, amount =>
      bracket.rate * part bracket.start (rest.head?.map Bracket.start) amount + due rest amount

/-- The part of an amount between two starts, by what is above each. -/
theorem part_some {start next : K} (h : start ≤ next) (amount : K) :
    part start (some next) amount = max amount start - max amount next + (next - start) := by
  rw [part]
  rcases le_total amount start with hlow | hlow
  · rw [min_eq_left (hlow.trans h), max_eq_left (by linarith), max_eq_right hlow,
      max_eq_right (hlow.trans h)]
    ring
  · rcases le_total amount next with hhigh | hhigh
    · rw [min_eq_left hhigh, max_eq_right (by linarith), max_eq_left hlow, max_eq_right hhigh]
      ring
    · rw [min_eq_right hhigh, max_eq_right (by linarith), max_eq_left hlow, max_eq_left hhigh]
      ring

theorem part_none (start amount : K) : part start none amount = max amount start - start := by
  rw [part]
  rcases le_total amount start with hlow | hlow
  · rw [max_eq_left (by linarith), max_eq_right hlow]
    ring
  · rw [max_eq_right (by linarith), max_eq_left hlow]

theorem part_mono (start : K) (next : Option K) {x y : K} (h : x ≤ y) :
    part start next x ≤ part start next y := by
  cases next with
  | none =>
      apply max_le_max le_rfl
      linarith
  | some next =>
      apply max_le_max le_rfl
      linarith [min_le_min_right next h]

/-- What is below the start of a bracket has no part in it. -/
theorem part_max {start bound : K} (h : bound ≤ start) (next : Option K) (amount : K) :
    part start next (max bound amount) = part start next amount := by
  apply le_antisymm
  · rcases le_total bound amount with hle | hle
    · rw [max_eq_right hle]
    · have hzero : part start next bound = 0 := by
        cases next with
        | none => exact max_eq_left (by linarith)
        | some next => exact max_eq_left (by linarith [min_le_left bound next])
      rw [max_eq_left hle, hzero]
      cases next <;> exact le_max_left _ _
  · exact part_mono start next (le_max_right bound amount)

/-- Brackets taken from the last to the first charge their sum, and leave what is
below the first start. -/
theorem chargeAll_eq (first : Bracket K) (rest : List (Bracket K))
    (hsorted : (first :: rest).Pairwise fun a b => a.start ≤ b.start) (amount charged : K) :
    chargeAll (first :: rest) (amount, charged) =
      (min amount first.start, charged + due (first :: rest) amount) := by
  induction rest generalizing first with
  | nil =>
      have hdue : due [first] amount = first.rate * max 0 (amount - first.start) := add_zero _
      have hstep : chargeAll [first] (amount, charged) = charge first (amount, charged) := rfl
      rw [hstep, hdue, charge]
      rcases lt_or_ge first.start amount with hlt | hle
      · rw [if_pos hlt, min_eq_right hlt.le, max_eq_right (by linarith), mul_comm]
      · rw [if_neg hle.not_gt, min_eq_left hle, max_eq_left (by linarith), mul_zero, add_zero]
  | cons second rest ih =>
      obtain ⟨hfirst, hrest⟩ := List.pairwise_cons.mp hsorted
      have hstart : first.start ≤ second.start := hfirst second List.mem_cons_self
      have hdue : due (first :: second :: rest) amount =
          first.rate * max 0 (min amount second.start - first.start) +
            due (second :: rest) amount := rfl
      have hstep : chargeAll (first :: second :: rest) (amount, charged) =
          charge first (chargeAll (second :: rest) (amount, charged)) := rfl
      rw [hstep, ih second hrest, hdue, charge]
      rcases lt_or_ge first.start (min amount second.start) with hlt | hle
      · have hamount : first.start ≤ amount := (hlt.trans_le (min_le_left _ _)).le
        rw [if_pos hlt, min_eq_right hamount, max_eq_right (by linarith)]
        ring_nf
      · have hleft : min amount second.start = min amount first.start :=
          le_antisymm (le_min (min_le_left _ _) hle) (min_le_min_left _ hstart)
        rw [if_neg hle.not_gt, max_eq_left (by linarith), hleft, mul_zero, zero_add]

/-- Between two amounts the charge grows, by at most the highest rate on what is
above the first start. -/
theorem due_slope {top : K} (first : Bracket K) (rest : List (Bracket K))
    (hsorted : (first :: rest).Pairwise fun a b => a.start ≤ b.start)
    (hrates : ∀ b ∈ first :: rest, 0 ≤ b.rate ∧ b.rate ≤ top) {x y : K} (h : x ≤ y) :
    0 ≤ due (first :: rest) y - due (first :: rest) x ∧
      due (first :: rest) y - due (first :: rest) x ≤
        top * (max y first.start - max x first.start) := by
  induction rest generalizing first with
  | nil =>
      obtain ⟨hpos, htop⟩ := hrates first List.mem_cons_self
      have hdue (a : K) : due [first] a = first.rate * (max a first.start - first.start) := by
        rw [← part_none]
        exact add_zero _
      have hgrow : 0 ≤ max y first.start - max x first.start :=
        sub_nonneg.mpr (max_le_max_right _ h)
      have hdiff : due [first] y - due [first] x =
          first.rate * (max y first.start - max x first.start) := by
        rw [hdue, hdue]
        ring
      rw [hdiff]
      exact ⟨mul_nonneg hpos hgrow, mul_le_mul_of_nonneg_right htop hgrow⟩
  | cons second rest ih =>
      obtain ⟨hfirst, hrest⟩ := List.pairwise_cons.mp hsorted
      obtain ⟨⟨hpos, htop⟩, hrates⟩ := List.forall_mem_cons.mp hrates
      have hstart : first.start ≤ second.start := hfirst second List.mem_cons_self
      obtain ⟨hbelow, habove⟩ := ih second hrest hrates
      have hdue (a : K) : due (first :: second :: rest) a =
          first.rate * part first.start (some second.start) a + due (second :: rest) a := rfl
      have hgrow := sub_nonneg.mpr (part_mono first.start (some second.start) h)
      have hdiff : due (first :: second :: rest) y - due (first :: second :: rest) x =
          first.rate * (part first.start (some second.start) y -
            part first.start (some second.start) x) +
            (due (second :: rest) y - due (second :: rest) x) := by
        rw [hdue, hdue]
        ring
      rw [hdiff]
      constructor
      · exact add_nonneg (mul_nonneg hpos hgrow) hbelow
      · calc first.rate * (part first.start (some second.start) y -
              part first.start (some second.start) x) +
              (due (second :: rest) y - due (second :: rest) x)
            ≤ top * (part first.start (some second.start) y -
                part first.start (some second.start) x) +
              top * (max y second.start - max x second.start) :=
                add_le_add (mul_le_mul_of_nonneg_right htop hgrow) habove
          _ = top * (max y first.start - max x first.start) := by
                rw [part_some hstart, part_some hstart]
                ring

/-- What is above a start grows no faster than the amount. -/
theorem max_sub_max_le (start : K) {x y : K} (h : x ≤ y) :
    max y start - max x start ≤ y - x := by
  rcases le_total y start with hy | hy
  · rw [max_eq_right hy, max_eq_right (h.trans hy)]
    linarith
  · rw [max_eq_left hy]
    linarith [le_max_left x start]

end Cse420.Brackets
