import Cse420.Lib.Machine

/-!
Interleavings of lists. What several writers give away, each from the front of
its own list, is a list in which the elements of each of them are in order.
-/

namespace Cse420.Interleaving

open Machine

variable {α : Type*} {parts now outs : List (List α)} {merged part rest : List α} {a : α}
  {i : Nat}

/-- `merged` has all elements of the lists, those of one list in their order. -/
inductive Interleaves : List (List α) → List α → Prop where
  | done {parts : List (List α)} (h : ∀ part ∈ parts, part = []) : Interleaves parts []
  | take {parts : List (List α)} {merged : List α} {i : Nat} {a : α} {rest : List α}
      (hi : parts[i]? = some (a :: rest)) (h : Interleaves (parts.set i rest) merged) :
      Interleaves parts (a :: merged)

/-- `merged` has each element as often as the lists have it. -/
theorem Interleaves.perm (h : Interleaves parts merged) : merged.Perm parts.flatten := by
  induction h with
  | done h => rw [List.flatten_eq_nil_iff.mpr h]
  | take hi h ih =>
      obtain ⟨front, back, hparts, hset⟩ := set_split hi
      rw [hset, List.flatten_append, List.flatten_cons] at ih
      rw [hparts, List.flatten_append, List.flatten_cons, List.cons_append]
      exact (ih.cons _).trans List.perm_middle.symm

/-- What `merged` was taken from has `now` left: every way to take that out too
is a way to take everything out. -/
def Leads (parts : List (List α)) (merged : List α) (now : List (List α)) : Prop :=
  ∀ more, Interleaves now more → Interleaves parts (merged ++ more)

theorem Leads.refl (parts : List (List α)) : Leads parts [] parts := fun _ h => h

theorem Leads.take (h : Leads parts merged now) (hi : now[i]? = some (a :: rest)) :
    Leads parts (merged ++ [a]) (now.set i rest) := by
  intro more hmore
  rw [List.append_assoc]
  exact h (a :: more) (.take hi hmore)

theorem Leads.interleaves (h : Leads parts merged now) (hempty : ∀ part ∈ now, part = []) :
    Interleaves parts merged := by
  have hall := h [] (.done hempty)
  rw [List.append_nil] at hall
  exact hall

/-- `merged` was taken from lists that have come to `outs` so far, whatever is
going to be behind these. -/
def Grows (outs : List (List α)) (merged : List α) : Prop :=
  ∀ rests, rests.length = outs.length → Leads (List.zipWith (· ++ ·) outs rests) merged rests

theorem grows_nil (h : ∀ out ∈ outs, out = []) : Grows outs [] := by
  intro rests hlength
  have hsame : List.zipWith (· ++ ·) outs rests = rests := by
    apply List.ext_getElem
    · simp [hlength]
    · intro n hleft hright
      simp [h outs[n] (List.getElem_mem _)]
  rw [hsame]
  exact Leads.refl rests

/-- The writer `i` gives away one more. -/
theorem Grows.append (h : Grows outs merged) (hi : outs[i]? = some part) (a : α) :
    Grows (outs.set i (part ++ [a])) (merged ++ [a]) := by
  intro rests hlength
  rw [List.length_set] at hlength
  have hlt : i < rests.length := by
    rw [hlength]
    exact (List.getElem?_eq_some_iff.mp hi).1
  let before := rests.set i (a :: rests[i])
  have hsame : List.zipWith (· ++ ·) (outs.set i (part ++ [a])) rests =
      List.zipWith (· ++ ·) outs before := by
    apply List.ext_getElem?
    intro n
    simp only [before, List.getElem?_zipWith, List.getElem?_set]
    by_cases hn : i = n
    · subst hn
      obtain ⟨hless, rfl⟩ := List.getElem?_eq_some_iff.mp hi
      simp [hless, hlt]
    · simp [hn]
  have hrests : rests = before.set i rests[i] := by simp [before]
  have hfirst : before[i]? = some (a :: rests[i]) := by simp [before, hlt]
  have htake := (h before (by simp [before, hlength])).take hfirst
  rw [hsame]
  rw [← hrests] at htake
  exact htake

theorem Grows.interleaves (h : Grows outs merged) : Interleaves outs merged := by
  let none : List (List α) := List.replicate outs.length []
  have hsame : List.zipWith (· ++ ·) outs none = outs := by
    apply List.ext_getElem
    · simp [none]
    · intro n hleft hright
      simp [none]
  have hleads := h none (by simp [none])
  rw [hsame] at hleads
  exact hleads.interleaves fun part hpart => List.eq_of_mem_replicate hpart

/-- One list of a nested list changes. -/
theorem flatten_set {nested : List (List (List α))} {j : Nat} (hi : nested[i]? = some parts)
    (hj : parts[j]? = some part) :
    ∃ k, nested.flatten[k]? = some part ∧
      ∀ next, (nested.set i (parts.set j next)).flatten = nested.flatten.set k next := by
  obtain ⟨front, back, hnested, hset⟩ := set_split hi
  have hlt := (List.getElem?_eq_some_iff.mp hj).1
  refine ⟨front.flatten.length + j, ?_, ?_⟩
  · rw [hnested, List.flatten_append, List.flatten_cons, List.getElem?_append_right (by omega),
      Nat.add_sub_cancel_left, List.getElem?_append_left hlt, hj]
  · intro next
    rw [hset, hnested, List.flatten_append, List.flatten_append, List.flatten_cons,
      List.flatten_cons, List.set_append_right _ _ (by omega), Nat.add_sub_cancel_left,
      List.set_append_left _ _ hlt]

/-- An interleaving of interleavings is one of all lists. -/
theorem Interleaves.nested {nested : List (List (List α))} (h : Interleaves outs merged)
    (hlength : nested.length = outs.length)
    (hparts : ∀ (i : Nat) parts out, nested[i]? = some parts → outs[i]? = some out →
      Interleaves parts out) : Interleaves nested.flatten merged := by
  induction h generalizing nested with
  | @done outs hempty =>
      apply Interleaves.done
      intro part hpart
      obtain ⟨parts, hmem, hpart⟩ := List.mem_flatten.mp hpart
      obtain ⟨i, hi⟩ := List.getElem?_of_mem hmem
      have hlt : i < outs.length := by
        rw [← hlength]
        exact (List.getElem?_eq_some_iff.mp hi).1
      have hout := hparts i parts outs[i] hi (List.getElem?_eq_getElem hlt)
      rw [hempty outs[i] (List.getElem_mem hlt)] at hout
      exact List.flatten_eq_nil_iff.mp hout.perm.nil_eq.symm part hpart
  | @take outs merged i a rest hi h ih =>
      have hlt : i < nested.length := by
        rw [hlength]
        exact (List.getElem?_eq_some_iff.mp hi).1
      have hnested := List.getElem?_eq_getElem hlt
      -- the first of what is left of one writer is the first of one of its lists
      cases hparts i nested[i] (a :: rest) hnested hi with
      | @take _ _ j _ behind hj hbehind =>
          obtain ⟨k, hk, hset⟩ := flatten_set hnested hj
          apply Interleaves.take hk
          rw [← hset]
          apply ih
          · simp [hlength]
          · intro n parts out hn hout
            by_cases hsame : i = n
            · subst hsame
              rw [List.getElem?_set_self hlt, Option.some.injEq] at hn
              rw [List.getElem?_set_self (by omega), Option.some.injEq] at hout
              rw [← hn, ← hout]
              exact hbehind
            · rw [List.getElem?_set_ne hsame] at hn hout
              exact hparts n parts out hn hout

end Cse420.Interleaving
