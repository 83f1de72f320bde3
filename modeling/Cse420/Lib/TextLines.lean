import Mathlib.Data.List.Basic
import Mathlib.Data.List.Perm.Basic

/-!
Texts as lists of lines, and lines in order. A text is cut behind every `sep`;
what follows the last one is a line too if there is anything. A total order puts
the same lines in the same order whatever order they came in.
-/

namespace Cse420.TextLines

variable {α : Type*}

section Lines

variable [DecidableEq α] {sep : α} {lines : List (List α)} {line first : List α}

def textLines (sep : α) : List α → List (List α)
  | [] => []
  | c :: rest =>
      if c = sep then [] :: textLines sep rest
      else
        match textLines sep rest with
        | [] => [[c]]
        | line :: lines => (c :: line) :: lines

def unlines (sep : α) (lines : List (List α)) : List α := lines.flatMap (· ++ [sep])

/-- A text in which every line has its `sep`. -/
def Ended (sep : α) (content : List α) : Prop :=
  ∃ lines, (∀ line ∈ lines, sep ∉ line) ∧ content = unlines sep lines

theorem textLines_line (hline : sep ∉ line) (rest : List α) :
    textLines sep (line ++ sep :: rest) = line :: textLines sep rest := by
  induction line with
  | nil => simp [textLines]
  | cons c line ih =>
      simp only [List.mem_cons, not_or] at hline
      simp only [List.cons_append, textLines, ih hline.2, if_neg (Ne.symm hline.1)]

theorem textLines_unlines_append (hlines : ∀ line ∈ lines, sep ∉ line) (rest : List α) :
    textLines sep (unlines sep lines ++ rest) = lines ++ textLines sep rest := by
  induction lines with
  | nil => rfl
  | cons line lines ih =>
      obtain ⟨hline, hrest⟩ := List.forall_mem_cons.mp hlines
      have hsplit : unlines sep (line :: lines) ++ rest =
          line ++ sep :: (unlines sep lines ++ rest) := by
        simp [unlines]
      rw [hsplit, textLines_line hline, ih hrest, List.cons_append]

theorem textLines_unlines (hlines : ∀ line ∈ lines, sep ∉ line) :
    textLines sep (unlines sep lines) = lines := by
  have h := textLines_unlines_append hlines []
  simpa [textLines] using h

theorem Ended.append (hfirst : Ended sep first) (second : List α) :
    textLines sep (first ++ second) = textLines sep first ++ textLines sep second := by
  obtain ⟨lines, hlines, rfl⟩ := hfirst
  rw [textLines_unlines_append hlines, textLines_unlines hlines]

/-- The lines of texts one after the other are the lines of the texts. -/
theorem textLines_flatten {texts : List (List α)} (htexts : ∀ content ∈ texts, Ended sep content) :
    textLines sep texts.flatten = texts.flatMap (textLines sep) := by
  induction texts with
  | nil => rfl
  | cons content texts ih =>
      obtain ⟨hfirst, hrest⟩ := List.forall_mem_cons.mp htexts
      rw [List.flatten_cons, hfirst.append, ih hrest, List.flatMap_cons]

/-- Texts in another order have the same lines. -/
theorem textLines_perm {texts pieces : List (List α)}
    (htexts : ∀ content ∈ texts, Ended sep content) (hperm : pieces.Perm texts) :
    (textLines sep pieces.flatten).Perm (textLines sep texts.flatten) := by
  rw [textLines_flatten htexts, textLines_flatten fun piece hpiece =>
    htexts piece (hperm.subset hpiece)]
  exact hperm.flatMap_right _

omit [DecidableEq α] in
theorem ended_line (hline : sep ∉ line) : Ended sep (line ++ [sep]) :=
  ⟨[line], by simpa using hline, by simp [unlines]⟩

end Lines

/-- An order that leaves no two elements undecided. -/
structure TotalOrder (α : Type*) where
  le : α → α → Bool
  trans : ∀ a b c, le a b → le b c → le a c
  total : ∀ a b, le a b || le b a
  antisymm : ∀ a b, le a b → le b a → a = b

def TotalOrder.sort (order : TotalOrder α) (l : List α) : List α := l.mergeSort order.le

/-- Sorting forgets the order the elements were in. -/
theorem TotalOrder.sort_eq_of_perm (order : TotalOrder α) {l m : List α} (h : l.Perm m) :
    order.sort l = order.sort m := by
  have hperm : (order.sort l).Perm (order.sort m) :=
    (List.mergeSort_perm l order.le).trans (h.trans (List.mergeSort_perm m order.le).symm)
  have hsorted (l : List α) : (order.sort l).Pairwise (order.le · ·) :=
    List.pairwise_mergeSort order.trans order.total l
  exact hperm.eq_of_pairwise (fun a b _ _ => order.antisymm a b) (hsorted l) (hsorted m)

end Cse420.TextLines
