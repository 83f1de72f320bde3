import Mathlib

/-!
Bubble sort by neighbour exchanges, for any test `gt` that says when two
neighbours are exchanged. Passes over the whole list are repeated until one
makes no exchange. The test need not be an order: that it never holds both ways
is enough for the sort to end.
-/

namespace Cse420.BubbleSort

variable {α β : Type*} (gt : α → α → Bool)

/-- One pass that carries `a` along, and whether it made an exchange. -/
def carry (a : α) : List α → Bool × List α
  | [] => (false, [a])
  | b :: rest =>
      if gt a b then (true, b :: (carry a rest).2)
      else ((carry b rest).1, a :: (carry b rest).2)

def pass : List α → Bool × List α
  | [] => (false, [])
  | a :: rest => carry gt a rest

def sort : Nat → List α → Option (List α)
  | 0, _ => none
  | fuel + 1, l => if (pass gt l).1 then sort fuel (pass gt l).2 else some (pass gt l).2

/-- The pairs that stand the wrong way round. -/
def inversions : List α → Nat
  | [] => 0
  | a :: rest => rest.countP (gt a) + inversions rest

variable {gt}

theorem carry_perm (a : α) (l : List α) : (carry gt a l).2.Perm (a :: l) := by
  induction l generalizing a with
  | nil => exact List.Perm.refl _
  | cons b rest ih =>
      unfold carry
      split
      · exact ((ih a).cons b).trans (List.Perm.swap a b rest)
      · exact (ih b).cons a

theorem pass_perm (l : List α) : (pass gt l).2.Perm l := by
  cases l with
  | nil => exact List.Perm.refl _
  | cons a rest => exact carry_perm a rest

/-- An exchange takes one inversion away and adds none. -/
theorem carry_inversions (hgt : ∀ a b, gt a b = true → gt b a = false) (a : α) (l : List α) :
    inversions gt (carry gt a l).2 + (carry gt a l).1.toNat ≤ inversions gt (a :: l) := by
  induction l generalizing a with
  | nil => simp [carry, inversions]
  | cons b rest ih =>
      unfold carry
      split
      · rename_i hab
        have hrest := ih a
        have hperm : (carry gt a rest).2.Perm (a :: rest) := carry_perm a rest
        have hcount := hperm.countP_eq (gt b)
        simp only [inversions, List.countP_cons, hab, hgt a b hab, Bool.toNat_true, if_true,
          Bool.false_eq_true, if_false] at hrest hcount ⊢
        omega
      · rename_i hab
        have hrest := ih b
        have hperm : (carry gt b rest).2.Perm (b :: rest) := carry_perm b rest
        have hcount := hperm.countP_eq (gt a)
        simp only [inversions, List.countP_cons, hab, if_false, Bool.false_eq_true]
          at hrest hcount ⊢
        omega

/-- A pass without an exchange changes nothing and has seen every neighbour. -/
theorem carry_done (a : α) (l : List α) (h : (carry gt a l).1 = false) :
    (carry gt a l).2 = a :: l ∧ List.IsChain (fun a b => gt a b = false) (a :: l) := by
  induction l generalizing a with
  | nil => simp [carry]
  | cons b rest ih =>
      unfold carry at h ⊢
      split at h
      · cases h
      · rename_i hab
        obtain ⟨hsame, hchain⟩ := ih b h
        simp only [hab, if_false, Bool.false_eq_true, hsame, true_and]
        exact List.IsChain.cons_cons (by simpa using hab) hchain

/-- What neighbours that are exchanged have in common stays in its place. -/
theorem carry_places (f : α → β) (hf : ∀ a b, gt a b = true → f a = f b) (a : α)
    (l : List α) : (carry gt a l).2.map f = (a :: l).map f := by
  induction l generalizing a with
  | nil => rfl
  | cons b rest ih =>
      unfold carry
      split
      · rename_i hab
        simp [ih a, hf a b hab]
      · simp [ih b]

theorem pass_places (f : α → β) (hf : ∀ a b, gt a b = true → f a = f b) (l : List α) :
    (pass gt l).2.map f = l.map f := by
  cases l with
  | nil => rfl
  | cons a rest => exact carry_places f hf a rest

theorem pass_inversions (hgt : ∀ a b, gt a b = true → gt b a = false) (l : List α)
    (h : (pass gt l).1 = true) : inversions gt (pass gt l).2 < inversions gt l := by
  cases l with
  | nil => cases h
  | cons a rest =>
      have hle := carry_inversions hgt a rest
      rw [show (carry gt a rest).1 = true from h, Bool.toNat_true] at hle
      exact hle

/-- The sort ends: every pass with an exchange leaves fewer inversions. -/
theorem sort_total (hgt : ∀ a b, gt a b = true → gt b a = false) (fuel : Nat) (l : List α)
    (hfuel : inversions gt l < fuel) : ∃ out, sort gt fuel l = some out := by
  induction fuel generalizing l with
  | zero => omega
  | succ fuel ih =>
      unfold sort
      split
      · rename_i hswap
        have hless := pass_inversions hgt l hswap
        exact ih (pass gt l).2 (by omega)
      · exact ⟨_, rfl⟩

theorem sort_more_fuel {fuel : Nat} {l out : List α} (h : sort gt fuel l = some out) (n : Nat) :
    sort gt (fuel + n) l = some out := by
  induction fuel generalizing l with
  | zero => cases h
  | succ fuel ih =>
      rw [Nat.add_right_comm]
      unfold sort at h ⊢
      split at h
      · rename_i hswap
        rw [if_pos hswap]
        exact ih h
      · rename_i hdone
        rw [if_neg hdone]
        exact h

/-- From some fuel on the sort ends, always with the same list. -/
theorem sort_ends (hgt : ∀ a b, gt a b = true → gt b a = false) (l : List α) :
    ∃ n out, ∀ fuel, n ≤ fuel → sort gt fuel l = some out := by
  obtain ⟨out, hsort⟩ := sort_total hgt (inversions gt l + 1) l (Nat.lt_succ_self _)
  refine ⟨inversions gt l + 1, out, ?_⟩
  intro fuel hfuel
  have hmore := sort_more_fuel hsort (fuel - (inversions gt l + 1))
  rwa [Nat.add_sub_cancel' hfuel] at hmore

/-- What every pass keeps, the sort keeps. -/
theorem sort_invariant (inv : List α → Prop) (hpass : ∀ l, inv l → inv (pass gt l).2)
    {fuel : Nat} {l out : List α} (h : sort gt fuel l = some out) (hl : inv l) : inv out := by
  induction fuel generalizing l with
  | zero => cases h
  | succ fuel ih =>
      unfold sort at h
      split at h
      · exact ih h (hpass l hl)
      · cases h
        exact hpass l hl

theorem sort_perm {fuel : Nat} {l out : List α} (h : sort gt fuel l = some out) :
    out.Perm l := by
  apply sort_invariant (fun m => m.Perm l) _ h (List.Perm.refl l)
  intro m hm
  exact (pass_perm m).trans hm

theorem sort_places (f : α → β) (hf : ∀ a b, gt a b = true → f a = f b) {fuel : Nat}
    {l out : List α} (h : sort gt fuel l = some out) : out.map f = l.map f := by
  apply sort_invariant (fun m => m.map f = l.map f) _ h rfl
  intro m hm
  exact (pass_places f hf m).trans hm

/-- No neighbours are left to exchange. -/
theorem sort_chain {fuel : Nat} {l out : List α} (h : sort gt fuel l = some out) :
    List.IsChain (fun a b => gt a b = false) out := by
  induction fuel generalizing l with
  | zero => cases h
  | succ fuel ih =>
      unfold sort at h
      split at h
      · exact ih h
      · rename_i hdone
        cases h
        cases l with
        | nil => exact .nil
        | cons a rest =>
            obtain ⟨hsame, hchain⟩ := carry_done a rest (by simpa [pass] using hdone)
            show List.IsChain _ (carry gt a rest).2
            rw [hsame]
            exact hchain

/-- Elements that are never exchanged with each other keep their order. -/
theorem carry_filter (p : α → Bool) (hp : ∀ a b, p a → p b → gt a b = false) (a : α)
    (l : List α) : (carry gt a l).2.filter p = (a :: l).filter p := by
  induction l generalizing a with
  | nil => rfl
  | cons b rest ih =>
      unfold carry
      split
      · rename_i hab
        have hrest := ih a
        by_cases hb : p b
        · have ha : ¬ p a := by
            intro ha
            rw [hp a b ha hb] at hab
            cases hab
          simp [hrest, ha, hb]
        · simp [hrest, List.filter_cons, hb]
      · have hrest := ih b
        by_cases ha : p a
        · simp [hrest, ha]
        · simp [hrest, ha]

theorem pass_filter (p : α → Bool) (hp : ∀ a b, p a → p b → gt a b = false) (l : List α) :
    (pass gt l).2.filter p = l.filter p := by
  cases l with
  | nil => rfl
  | cons a rest => exact carry_filter p hp a rest

/-- Where the classes of two neighbours differ nothing is exchanged, and the
parts on both sides are passed over as if they stood alone. -/
theorem carry_append (f : α → β) (hf : ∀ a b, gt a b = true → f a = f b) (a y : α)
    (l ys : List α) (hy : ∀ x ∈ (a :: l).getLast?, f x ≠ f y) :
    carry gt a (l ++ y :: ys) =
      ((carry gt a l).1 || (carry gt y ys).1, (carry gt a l).2 ++ (carry gt y ys).2) := by
  induction l generalizing a with
  | nil =>
      have hay : gt a y = false := by
        rw [← Bool.not_eq_true]
        intro hgt
        exact hy a rfl (hf a y hgt)
      simp [carry, hay]
  | cons b l ih =>
      simp only [List.cons_append, carry]
      split
      · rename_i hab
        have hlast : ∀ x ∈ (a :: l).getLast?, f x ≠ f y := by
          cases l with
          | nil =>
              intro x hx
              cases hx
              change f a ≠ f y
              rw [hf a b hab]
              exact hy b rfl
          | cons c l => exact hy
        rw [ih a hlast]
        simp
      · rw [ih b hy]
        simp

theorem pass_append (f : α → β) (hf : ∀ a b, gt a b = true → f a = f b) (xs ys : List α)
    (hxy : ∀ x ∈ xs.getLast?, ∀ y ∈ ys.head?, f x ≠ f y) :
    pass gt (xs ++ ys) =
      ((pass gt xs).1 || (pass gt ys).1, (pass gt xs).2 ++ (pass gt ys).2) := by
  cases xs with
  | nil => simp [pass]
  | cons a xs =>
      cases ys with
      | nil => simp [pass]
      | cons y ys => exact carry_append f hf a y xs ys fun x hx => hxy x hx y rfl

/-- Whether two parts differ in class where they meet is a matter of the classes. -/
theorem meet_of_map {f : α → β} {xs ys xs' ys' : List α} (hxs : xs'.map f = xs.map f)
    (hys : ys'.map f = ys.map f) (h : ∀ x ∈ xs.getLast?, ∀ y ∈ ys.head?, f x ≠ f y) :
    ∀ x ∈ xs'.getLast?, ∀ y ∈ ys'.head?, f x ≠ f y := by
  intro x hx y hy hsame
  have hfx : f x ∈ (xs.map f).getLast? := by
    rw [← hxs, List.getLast?_map]
    exact Option.mem_map_of_mem f hx
  have hfy : f y ∈ (ys.map f).head? := by
    rw [← hys, List.head?_map]
    exact Option.mem_map_of_mem f hy
  rw [List.getLast?_map] at hfx
  rw [List.head?_map] at hfy
  obtain ⟨x', hx', hfx'⟩ := Option.map_eq_some_iff.mp hfx
  obtain ⟨y', hy', hfy'⟩ := Option.map_eq_some_iff.mp hfy
  exact h x' hx' y' hy' (by rw [hfx', hfy', hsame])

/-- A list of two parts that differ in class where they meet is sorted in its
parts: what passes keep of each part alone, the sort of the whole keeps. -/
theorem sort_append (f : α → β) (hf : ∀ a b, gt a b = true → f a = f b) (xs ys : List α)
    (hxy : ∀ x ∈ xs.getLast?, ∀ y ∈ ys.head?, f x ≠ f y) (left right : List α → Prop)
    (hleft : ∀ m, m.map f = xs.map f → left m → left (pass gt m).2)
    (hright : ∀ m, m.map f = ys.map f → right m → right (pass gt m).2)
    (hxs : left xs) (hys : right ys) {fuel : Nat} {out : List α}
    (h : sort gt fuel (xs ++ ys) = some out) :
    ∃ xs' ys', out = xs' ++ ys' ∧ xs'.map f = xs.map f ∧ ys'.map f = ys.map f ∧
      left xs' ∧ right ys' := by
  apply sort_invariant (fun m => ∃ xs' ys', m = xs' ++ ys' ∧ xs'.map f = xs.map f ∧
    ys'.map f = ys.map f ∧ left xs' ∧ right ys') _ h ⟨xs, ys, rfl, rfl, rfl, hxs, hys⟩
  rintro m ⟨xs', ys', rfl, hmapx, hmapy, hl, hr⟩
  rw [pass_append f hf xs' ys' (meet_of_map hmapx hmapy hxy)]
  exact ⟨_, _, rfl, (pass_places f hf xs').trans hmapx, (pass_places f hf ys').trans hmapy,
    hleft xs' hmapx hl, hright ys' hmapy hr⟩

/-- A loop over a larger state sorts a view of it if its pass is a pass over the
view. What the pass keeps besides, the loop keeps. -/
theorem sort_of_pass {ω : Type*} {loop : Nat → ω → Option ω} {next : ω → Bool × ω}
    (hloop : ∀ fuel w, loop (fuel + 1) w =
      if (next w).1 then loop fuel (next w).2 else some (next w).2)
    (view : ω → List α) (inv : ω → Prop)
    (hpass : ∀ w, inv w → (next w).1 = (pass gt (view w)).1 ∧
      view (next w).2 = (pass gt (view w)).2 ∧ inv (next w).2)
    {fuel : Nat} {w : ω} {out : List α} (hw : inv w) (h : sort gt fuel (view w) = some out) :
    ∃ w', loop fuel w = some w' ∧ view w' = out ∧ inv w' := by
  induction fuel generalizing w with
  | zero => cases h
  | succ fuel ih =>
      obtain ⟨hswap, hview, hinv⟩ := hpass w hw
      unfold sort at h
      rw [hloop, hswap]
      split at h
      · rename_i hmore
        rw [← hview] at h
        rw [if_pos hmore]
        exact ih hinv h
      · rename_i hdone
        cases h
        rw [if_neg hdone]
        exact ⟨_, rfl, hview, hinv⟩

/-- The sort looks only at what the test looks at. -/
theorem carry_map {gtf : β → β → Bool} (f : α → β) (hf : ∀ a b, gtf (f a) (f b) = gt a b) (a : α)
    (l : List α) : carry gtf (f a) (l.map f) = ((carry gt a l).1, (carry gt a l).2.map f) := by
  induction l generalizing a with
  | nil => rfl
  | cons b rest ih =>
      rw [List.map_cons]
      unfold carry
      rw [hf]
      split
      · rw [ih a]
        rfl
      · rw [ih b]
        rfl

theorem sort_map {gtf : β → β → Bool} (f : α → β) (hf : ∀ a b, gtf (f a) (f b) = gt a b)
    {fuel : Nat} {l out : List α} (h : sort gt fuel l = some out) :
    sort gtf fuel (l.map f) = some (out.map f) := by
  have hpass : ∀ l : List α, pass gtf (l.map f) = ((pass gt l).1, (pass gt l).2.map f) := by
    intro l
    cases l with
    | nil => rfl
    | cons a rest => exact carry_map f hf a rest
  induction fuel generalizing l with
  | zero => cases h
  | succ fuel ih =>
      unfold sort at h ⊢
      rw [hpass]
      split at h
      · rename_i hswap
        rw [if_pos hswap]
        exact ih h
      · rename_i hdone
        cases h
        rw [if_neg hdone]

/-- Two neighbours in a view come from two neighbours. -/
theorem map_eq_neighbours {f : α → β} {l : List α} {before behind : List β} {a b : β}
    (h : l.map f = before ++ a :: b :: behind) :
    ∃ first x y rest, l = first ++ x :: y :: rest ∧ first.map f = before ∧ f x = a ∧ f y = b ∧
      rest.map f = behind := by
  obtain ⟨first, m, rfl, hfirst, hm⟩ := List.map_eq_append_iff.mp h
  obtain ⟨x, m, rfl, hx, hm⟩ := List.map_eq_cons_iff.mp hm
  obtain ⟨y, rest, rfl, hy, hrest⟩ := List.map_eq_cons_iff.mp hm
  exact ⟨first, x, y, rest, rfl, hfirst, hx, hy, hrest⟩

end Cse420.BubbleSort
