import Cse420.Lib.Heap

/-!
What a program has allocated and not yet freed, beside the blocks that were in
use before. Nothing is lost when everything owned has been freed: memory is then
as it was.
-/

namespace Cse420.Heap

variable {α : Type}

/-- Memory holds what stood in `base`, and the blocks at `owned` in addition. -/
structure Owns (h : Heap α) (base : Nat → Option α) (owned : List Nat) : Prop where
  nodup : owned.Nodup
  kept : ∀ a, a ∉ owned → h.block a = base a
  fresh : ∀ a ∈ owned, base a = none
  used : ∀ a ∈ owned, (h.block a).isSome

variable {h : Heap α} {base : Nat → Option α} {owned : List Nat} {a : Nat} {b : α}

theorem Owns.nil (h : Heap α) : Owns h h.block [] :=
  ⟨List.nodup_nil, fun _ _ => rfl, by simp, by simp⟩

theorem Owns.restored (hown : Owns h base []) : h.block = base := by
  funext a
  exact hown.kept a (by simp)

theorem Owns.perm {owned' : List Nat} (hown : Owns h base owned) (hperm : owned'.Perm owned) :
    Owns h base owned' where
  nodup := hperm.nodup_iff.mpr hown.nodup
  kept := fun a ha => hown.kept a fun hin => ha (hperm.mem_iff.mpr hin)
  fresh := fun a ha => hown.fresh a (hperm.mem_iff.mp ha)
  used := fun a ha => hown.used a (hperm.mem_iff.mp ha)

theorem Owns.not_mem (hown : Owns h base owned) (ha : h.block a = none) : a ∉ owned := by
  intro hin
  have hused := hown.used a hin
  rw [ha] at hused
  cases hused

/-- A block of others is still what it was. -/
theorem Owns.block_eq (hown : Owns h base owned) (ha : base a = some b) : h.block a = some b := by
  rw [hown.kept a ?_, ha]
  intro hin
  rw [hown.fresh a hin] at ha
  cases ha

theorem Owns.malloc (hown : Owns h base owned) (ha : h.block a = none) :
    Owns (h.put a b) base (a :: owned) where
  nodup := List.nodup_cons.mpr ⟨hown.not_mem ha, hown.nodup⟩
  kept := by
    intro c hc
    rw [List.mem_cons, not_or] at hc
    rw [put_block_ne hc.1]
    exact hown.kept c hc.2
  fresh := by
    intro c hc
    rcases List.mem_cons.mp hc with rfl | hc
    · rw [← hown.kept c (hown.not_mem ha), ha]
    · exact hown.fresh c hc
  used := by
    intro c hc
    rcases eq_or_ne c a with rfl | hne
    · rw [put_block_self]
      rfl
    · rw [put_block_ne hne]
      exact hown.used c (List.mem_of_ne_of_mem hne hc)

theorem Owns.put (hown : Owns h base owned) (ha : a ∈ owned) : Owns (h.put a b) base owned where
  nodup := hown.nodup
  kept := by
    intro c hc
    rw [put_block_ne]
    · exact hown.kept c hc
    · rintro rfl
      exact hc ha
  fresh := hown.fresh
  used := by
    intro c hc
    rcases eq_or_ne c a with rfl | hne
    · rw [put_block_self]
      rfl
    · rw [put_block_ne hne]
      exact hown.used c hc

theorem Owns.modify {h' : Heap α} {f : α → α} (hown : Owns h base owned) (ha : a ∈ owned)
    (hmodify : h.modify (some a) f = some h') : Owns h' base owned := by
  obtain ⟨b, hb⟩ := Option.isSome_iff_exists.mp (hown.used a ha)
  rw [modify_some f hb, Option.some.injEq] at hmodify
  rw [← hmodify]
  exact hown.put ha

theorem Owns.free (hown : Owns h base (a :: owned)) : Owns (h.erase a) base owned where
  nodup := (List.nodup_cons.mp hown.nodup).2
  kept := by
    intro c hc
    rcases eq_or_ne c a with rfl | hne
    · rw [hown.fresh c List.mem_cons_self]
      exact Function.update_self ..
    · rw [erase_block_ne hne]
      exact hown.kept c fun hin => hc (List.mem_of_ne_of_mem hne hin)
  fresh := fun c hc => hown.fresh c (List.mem_cons_of_mem _ hc)
  used := by
    intro c hc
    rw [erase_block_ne]
    · exact hown.used c (List.mem_cons_of_mem _ hc)
    · rintro rfl
      exact (List.nodup_cons.mp hown.nodup).1 hc

/-- A block that is allocated for a while counts with the blocks of others. -/
theorem Owns.lend (hown : Owns h base owned) (ha : h.block a = none) :
    Owns (h.put a b) (Function.update base a (some b)) owned where
  nodup := hown.nodup
  kept := by
    intro c hc
    rcases eq_or_ne c a with rfl | hne
    · rw [put_block_self, Function.update_self]
    · rw [put_block_ne hne, Function.update_of_ne hne]
      exact hown.kept c hc
  fresh := by
    intro c hc
    rw [Function.update_of_ne]
    · exact hown.fresh c hc
    · rintro rfl
      exact hown.not_mem ha hc
  used := by
    intro c hc
    rw [put_block_ne]
    · exact hown.used c hc
    · rintro rfl
      exact hown.not_mem ha hc

theorem Owns.base_none (hown : Owns h base owned) (ha : h.block a = none) : base a = none := by
  rw [← hown.kept a (hown.not_mem ha), ha]

/-- The end of that while. -/
theorem Owns.restore (hown : Owns h (Function.update base a (some b)) owned)
    (ha : base a = none) : Owns (h.erase a) base owned := by
  have hout : a ∉ owned := by
    intro hin
    have hnone := hown.fresh a hin
    rw [Function.update_self] at hnone
    cases hnone
  constructor
  · exact hown.nodup
  · intro c hc
    rcases eq_or_ne c a with rfl | hne
    · rw [ha]
      exact Function.update_self ..
    · rw [erase_block_ne hne, hown.kept c hc, Function.update_of_ne hne]
  · intro c hc
    have hnone := hown.fresh c hc
    rw [Function.update_of_ne] at hnone
    · exact hnone
    · rintro rfl
      exact hout hc
  · intro c hc
    rw [erase_block_ne]
    · exact hown.used c hc
    · rintro rfl
      exact hout hc

end Cse420.Heap
