import Mathlib

/-!
Lists grouped by a level. A new entry goes behind the last entry of a smaller
level, found by a walk that looks at the entry behind the current one, and the
entries of one level are numbered in the order in which they stand.
-/

namespace Cse420.LevelList

variable {α β : Type*} (level : α → Nat)

/-- Insertion as a linked list does it: `cur` is the first entry or the last
entry with a smaller level behind it, and the new entry becomes the head, the
tail or a link in the middle. -/
def insert (new : α) : List α → List α
  | [] => [new]
  | head :: rest =>
      let passed := rest.takeWhile fun a => level a < level new
      let behind := rest.dropWhile fun a => level a < level new
      let cur := passed.getLastD head
      if level new < level cur then new :: head :: rest
      else if behind = [] then head :: rest ++ [new]
      else head :: passed ++ new :: behind

/-- Numbers in the groups of equal neighbours: `num` is the number of `a`. -/
def numbersFrom (num : Nat) (a : Nat) : List Nat → List Nat
  | [] => [num]
  | b :: rest => num :: numbersFrom (if b = a then num + 1 else 1) b rest

variable {level}

theorem insert_eq_of_le {new head : α} {rest : List α} (h : level head ≤ level new) :
    insert level new (head :: rest) =
      head :: (rest.takeWhile fun a => level a < level new) ++
        new :: rest.dropWhile fun a => level a < level new := by
  have hcur : ¬ level new <
      level ((rest.takeWhile fun a => level a < level new).getLastD head) := by
    rw [List.getLastD_eq_getLast?]
    cases hlast : (rest.takeWhile fun a => level a < level new).getLast? with
    | none => simpa using h
    | some a =>
        have hpassed := List.mem_takeWhile_imp (List.mem_of_getLast? hlast)
        simp only [decide_eq_true_eq] at hpassed
        simpa using Nat.le_of_lt hpassed
  simp only [insert, hcur, if_false]
  split
  · rename_i hbehind
    have hall := List.takeWhile_append_dropWhile (p := fun a => decide (level a < level new))
      (l := rest)
    rw [hbehind, List.append_nil] at hall
    rw [hbehind, hall]
  · rfl

/-- Where nothing is smaller than the new entry the walk stays at the head. -/
theorem insert_eq_of_lt {new head : α} {rest : List α}
    (hhead : ∀ a ∈ rest, level head ≤ level a) (hlt : level new < level head) :
    insert level new (head :: rest) = new :: head :: rest := by
  have hnone : rest.takeWhile (fun a => level a < level new) = [] := by
    rw [List.takeWhile_eq_nil_iff]
    intro hpos
    have := hhead _ (List.getElem_mem hpos)
    simp only [List.get_eq_getElem, decide_eq_true_eq]
    omega
  simp only [insert, hnone, List.getLastD_nil, hlt, if_true]

/-- Behind the entries that the walk passes none is smaller than the new one. -/
theorem le_of_mem_dropWhile {new a : α} {rest : List α}
    (hrest : rest.Pairwise fun a b => level a ≤ level b)
    (ha : a ∈ rest.dropWhile fun a => level a < level new) : level new ≤ level a := by
  cases hdrop : rest.dropWhile (fun a => level a < level new) with
  | nil =>
      rw [hdrop] at ha
      cases ha
  | cons first others =>
      have hfirst := List.head_dropWhile_not (fun a => decide (level a < level new))
        (l := rest) (by rw [hdrop]; exact List.cons_ne_nil _ _)
      simp only [hdrop, List.head_cons, decide_eq_false_iff_not] at hfirst
      have hbehind := hrest.sublist (List.dropWhile_sublist fun a => decide (level a < level new))
      rw [hdrop] at ha hbehind
      rcases List.mem_cons.mp ha with rfl | ha
      · omega
      · have := (List.pairwise_cons.mp hbehind).1 a ha
        omega

theorem insert_perm (new : α) (l : List α) : (insert level new l).Perm (new :: l) := by
  cases l with
  | nil => exact List.Perm.refl _
  | cons head rest =>
      have hsplit := List.takeWhile_append_dropWhile
        (p := fun a => decide (level a < level new)) (l := rest)
      simp only [insert]
      split
      · exact List.Perm.refl _
      · split
        · exact List.perm_append_singleton new (head :: rest)
        · nth_rewrite 3 [← hsplit]
          exact List.perm_middle

/-- A list in the order of the levels stays in this order. -/
theorem insert_sorted (new : α) {l : List α} (h : l.Pairwise fun a b => level a ≤ level b) :
    (insert level new l).Pairwise fun a b => level a ≤ level b := by
  cases l with
  | nil => exact List.pairwise_singleton _ _
  | cons head rest =>
      obtain ⟨hhead, hrest⟩ := List.pairwise_cons.mp h
      rcases Nat.lt_or_ge (level new) (level head) with hlt | hle
      · rw [insert_eq_of_lt hhead hlt]
        apply List.pairwise_cons.mpr
        refine ⟨?_, h⟩
        intro a ha
        rcases List.mem_cons.mp ha with rfl | ha
        · exact Nat.le_of_lt hlt
        · exact Nat.le_trans (Nat.le_of_lt hlt) (hhead a ha)
      · rw [insert_eq_of_le hle]
        have hgreater : ∀ a ∈ rest.dropWhile (fun a => level a < level new),
            level new ≤ level a := fun a ha => le_of_mem_dropWhile hrest ha
        have hsplit := List.takeWhile_append_dropWhile
          (p := fun a => decide (level a < level new)) (l := rest)
        rw [← hsplit] at hhead hrest
        obtain ⟨hpassed, hbehind, hcross⟩ := List.pairwise_append.mp hrest
        have hsmaller : ∀ a ∈ rest.takeWhile (fun a => level a < level new),
            level a < level new := by
          intro a ha
          simpa using List.mem_takeWhile_imp ha
        rw [List.cons_append, List.pairwise_cons, List.pairwise_append, List.pairwise_cons]
        refine ⟨?_, hpassed, ⟨hgreater, hbehind⟩, ?_⟩
        · intro a ha
          rcases List.mem_append.mp ha with ha | ha
          · exact hhead a (List.mem_append_left _ ha)
          · rcases List.mem_cons.mp ha with rfl | ha
            · exact hle
            · exact hhead a (List.mem_append_right _ ha)
        · intro a ha b hb
          rcases List.mem_cons.mp hb with rfl | hb
          · exact Nat.le_of_lt (hsmaller a ha)
          · exact hcross a ha b hb

/-- Where insertion puts the new entry of a list in the order of the levels: behind
the last entry of a smaller level and, if there is none, before the first entry
or, if that has the same level, behind it. -/
theorem insert_split (new : α) {l : List α} (h : l.Pairwise fun a b => level a ≤ level b) :
    ∃ front back, l = front ++ back ∧ insert level new l = front ++ new :: back ∧
      ((∃ a ∈ l, level a < level new) →
        ∃ f a, front = f ++ [a] ∧ level a < level new ∧ ∀ b ∈ back, level new ≤ level b) ∧
      ((∀ a ∈ l, level new ≤ level a) → ∀ head rest, l = head :: rest →
        (level new < level head → front = []) ∧ (level head = level new → front = [head])) := by
  cases l with
  | nil => exact ⟨[], [], rfl, rfl, by simp, by simp⟩
  | cons head rest =>
      obtain ⟨hhead, hrest⟩ := List.pairwise_cons.mp h
      rcases Nat.lt_or_ge (level new) (level head) with hlt | hle
      · refine ⟨[], head :: rest, rfl, insert_eq_of_lt hhead hlt, ?_, ?_⟩
        · rintro ⟨a, ha, hsmaller⟩
          rcases List.mem_cons.mp ha with rfl | ha
          · omega
          · have := hhead a ha
            omega
        · rintro - head' rest' ⟨rfl, rfl⟩
          exact ⟨fun _ => rfl, fun heq => by omega⟩
      · have hsplit := List.takeWhile_append_dropWhile
          (p := fun a => decide (level a < level new)) (l := rest)
        refine ⟨head :: rest.takeWhile fun a => level a < level new,
          rest.dropWhile fun a => level a < level new, by rw [List.cons_append, hsplit],
          insert_eq_of_le hle, ?_, ?_⟩
        · rintro ⟨x, hx, hsmaller⟩
          have hbehind : ∀ b ∈ rest.dropWhile (fun a => level a < level new),
              level new ≤ level b := fun b hb => le_of_mem_dropWhile hrest hb
          rcases List.eq_nil_or_concat (rest.takeWhile fun a => level a < level new) with
            hnone | ⟨f, a, hpassed⟩
          · refine ⟨[], head, by rw [hnone]; rfl, ?_, hbehind⟩
            rw [hnone, List.nil_append] at hsplit
            rcases List.mem_cons.mp hx with rfl | hx
            · exact hsmaller
            · have := hbehind x (by rwa [hsplit])
              omega
          · refine ⟨head :: f, a, by rw [hpassed]; simp, ?_, hbehind⟩
            have ha : a ∈ rest.takeWhile fun a => level a < level new := by simp [hpassed]
            simpa using List.mem_takeWhile_imp ha
        · rintro hnone head' rest' ⟨rfl, rfl⟩
          refine ⟨fun hlt => by omega, fun _ => ?_⟩
          have hpassed : rest.takeWhile (fun a => level a < level new) = [] := by
            rw [List.eq_nil_iff_forall_not_mem]
            intro a ha
            have hsmaller : level a < level new := by simpa using List.mem_takeWhile_imp ha
            have := hnone a (List.mem_cons_of_mem _ (List.takeWhile_subset _ ha))
            omega
          rw [hpassed]

/-- Insertion looks only at the levels. -/
theorem insert_map (k : α → β) {levelk : β → Nat} (hk : ∀ a, levelk (k a) = level a) (new : α)
    (l : List α) : insert levelk (k new) (l.map k) = (insert level new l).map k := by
  cases l with
  | nil => rfl
  | cons head rest =>
      have htake : (rest.map k).takeWhile (fun b => levelk b < levelk (k new)) =
          (rest.takeWhile fun a => level a < level new).map k := by
        simp [List.takeWhile_map, Function.comp_def, hk]
      have hdrop : (rest.map k).dropWhile (fun b => levelk b < levelk (k new)) =
          (rest.dropWhile fun a => level a < level new).map k := by
        simp [List.dropWhile_map, Function.comp_def, hk]
      have hcur : levelk (((rest.takeWhile fun a => level a < level new).map k).getLastD (k head)) =
          level ((rest.takeWhile fun a => level a < level new).getLastD head) := by
        rw [List.getLastD_map, hk]
      rw [hk new] at htake hdrop
      simp only [List.map_cons, insert, htake, hdrop, hcur, hk new, List.map_eq_nil_iff]
      split
      · rfl
      · split <;> simp

/-- Among levels in order, the entries of one level are numbered one after the
other. -/
theorem numbersFrom_filter (num a : Nat) (rest : List Nat)
    (h : (a :: rest).Pairwise (· ≤ ·)) (b : Nat) :
    (((a :: rest).zip (numbersFrom num a rest)).filter (·.1 = b)).map Prod.snd =
      List.range' (if b = a then num else 1) ((a :: rest).countP (· = b)) := by
  induction rest generalizing num a with
  | nil =>
      rcases eq_or_ne b a with rfl | hne
      · simp [numbersFrom]
      · simp [numbersFrom, hne, hne.symm]
  | cons c rest ih =>
      obtain ⟨hfirst, hrest⟩ := List.pairwise_cons.mp h
      have hac := hfirst c List.mem_cons_self
      have htail := ih (if c = a then num + 1 else 1) c hrest
      rw [numbersFrom, List.zip_cons_cons, List.filter_cons, List.countP_cons]
      rcases eq_or_ne b a with rfl | hne
      · simp only [decide_true, if_true, List.map_cons, htail]
        rcases Nat.eq_or_lt_of_le hac with rfl | hlt
        · simp [List.range'_succ]
        · -- the group of `b` ends where the level grows
          have hnone : (c :: rest).countP (· = b) = 0 := by
            rw [List.countP_eq_zero]
            intro d hd
            simp only [decide_eq_true_eq]
            rcases List.mem_cons.mp hd with rfl | hd
            · exact Nat.ne_of_gt hlt
            · have := (List.pairwise_cons.mp hrest).1 d hd
              omega
          simp [hnone]
      · simp only [hne.symm, decide_false, Bool.false_eq_true, if_false, htail, hne,
          Nat.add_zero]
        congr 1
        split
        · rename_i hbc
          rw [if_neg (hbc ▸ hne)]
        · rfl

end Cse420.LevelList
