import Cse420.Lib.Brackets

/-!
The taxes of `calc/main.c`, with rational numbers in place of `double`.
-/

namespace Cse420.Calc

open Brackets

/-- `FedTaxBracket`: rate and start of each bracket. -/
def fedTaxBracket : Fin 7 → Bracket ℚ :=
  ![⟨0.10, 0⟩, ⟨0.12, 10275⟩, ⟨0.22, 41775⟩, ⟨0.24, 89075⟩, ⟨0.32, 170050⟩, ⟨0.35, 215950⟩,
    ⟨0.37, 539900⟩]

def standardDeduction : ℚ := 12550

/-- `FederalTax`: the conditionals from bracket 6 down to bracket 0, each of them
on what the one before has left in `cur`. -/
def federalTax (baseSal : ℚ) : ℚ :=
  (chargeAll (List.ofFn fedTaxBracket) (baseSal - standardDeduction, 0)).2

def stateTax (baseSal : ℚ) : ℚ := 0.05 * baseSal

def ficaTax (baseSal : ℚ) : ℚ := 0.0765 * baseSal

def netTax (baseSal : ℚ) : ℚ := federalTax baseSal + ficaTax baseSal + stateTax baseSal

/-- `BaseSal-NetTax(BaseSal)` of `main`. -/
def takeHome (baseSal : ℚ) : ℚ := baseSal - netTax baseSal

/-- The start of the bracket behind this one. -/
def nextStart (i : Fin 7) : Option ℚ :=
  if h : i.val + 1 < 7 then some (fedTaxBracket ⟨i.val + 1, h⟩).start else none

theorem brackets_sorted :
    (List.ofFn fedTaxBracket).Pairwise fun a b => a.start ≤ b.start := by
  rw [List.pairwise_ofFn]
  decide

theorem brackets_rates : ∀ b ∈ List.ofFn fedTaxBracket, 0 ≤ b.rate ∧ b.rate ≤ 0.37 := by
  rw [List.forall_mem_ofFn_iff]
  intro i
  fin_cases i <;> norm_num [fedTaxBracket]

theorem federalTax_eq_due (s : ℚ) :
    federalTax s = due (List.ofFn fedTaxBracket) (s - standardDeduction) := by
  have hsorted := brackets_sorted
  unfold federalTax
  rw [List.ofFn_succ] at hsorted ⊢
  rw [chargeAll_eq _ _ hsorted]
  exact zero_add _

/-- What is due, bracket by bracket. Below the deduction there is nothing to
charge. -/
theorem federalTax_eq_sum (s : ℚ) :
    federalTax s = ∑ i, (fedTaxBracket i).rate *
      part (fedTaxBracket i).start (nextStart i) (max 0 (s - standardDeduction)) := by
  have hstart : ∀ i, 0 ≤ (fedTaxBracket i).start := by decide
  rw [federalTax_eq_due]
  simp only [part_max (hstart _)]
  simp [Fin.sum_univ_succ, List.ofFn_succ, due, nextStart]

theorem federalTax_slope {s t : ℚ} (h : s < t) :
    0 ≤ federalTax t - federalTax s ∧ federalTax t - federalTax s ≤ 0.37 * (t - s) := by
  have hsorted := brackets_sorted
  have hrates := brackets_rates
  rw [List.ofFn_succ] at hsorted hrates
  have hdeducted : s - standardDeduction ≤ t - standardDeduction := by linarith
  rw [federalTax_eq_due, federalTax_eq_due, List.ofFn_succ]
  obtain ⟨hgrows, hslope⟩ := due_slope _ _ hsorted hrates hdeducted
  refine ⟨hgrows, hslope.trans ?_⟩
  have hmax := max_sub_max_le (fedTaxBracket 0).start hdeducted
  linarith

theorem federalTax_zero : federalTax 0 = 0 := by
  decide +kernel

theorem takeHome_zero : takeHome 0 = 0 := by
  simp [takeHome, netTax, federalTax_zero, ficaTax, stateTax]

/-- Of what is earned more, all taxes together leave a part. -/
theorem takeHome_lt {s t : ℚ} (h : s < t) : takeHome s < takeHome t := by
  have hslope := (federalTax_slope h).2
  unfold takeHome netTax ficaTax stateTax
  linarith

/-- `FederalTax` charges each bracket its rate and is monotone with a slope of at
most the highest rate. Hence nobody takes home less for earning more. -/
theorem taxes_marginal :
    (∀ s, federalTax s = ∑ i, (fedTaxBracket i).rate *
      part (fedTaxBracket i).start (nextStart i) (max 0 (s - 12550))) ∧
    (∀ s t, s < t →
      0 ≤ federalTax t - federalTax s ∧ federalTax t - federalTax s ≤ 0.37 * (t - s)) ∧
    ∀ s t, 0 ≤ s → s < t → 0 ≤ s - netTax s ∧ s - netTax s < t - netTax t := by
  refine ⟨federalTax_eq_sum, fun s t h => federalTax_slope h, ?_⟩
  intro s t hs hst
  refine ⟨?_, takeHome_lt hst⟩
  rcases hs.eq_or_lt with rfl | hpos
  · exact takeHome_zero.ge
  · exact takeHome_zero.symm.le.trans (takeHome_lt hpos).le

/-- A salary in the second bracket beside one in the last. -/
theorem taxes_marginal_two :
    (0 : ℚ) ≤ 22826 - netTax 22826 ∧ 22826 - netTax 22826 < 600000 - netTax 600000 :=
  taxes_marginal.2.2 22826 600000 (by norm_num) (by norm_num)

example : federalTax 22826 = 1027.62 := by decide +kernel

end Cse420.Calc
