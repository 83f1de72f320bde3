import Cse420.Lister.CreateFails

/-!
What a visit leaves in the list when its `pthread_create` may have failed. The
workers change counts, but not the counts of items that have no worker; what they
leave alone is the mark of an item. The marks decide what is printed and joined in
the end.
-/

namespace Cse420.Lister.CreateFails

open Interference Project2

section Marks

variable {fs : FileSystem} {keyword : Path}

/-- What the workers leave alone in an item. The count belongs to it if the item
has no worker. -/
structure Mark where
  addr : Nat
  tid : Option Nat
  path : Path
  left : Option (Option Int)

def mark (started : List Nat) (item : Item) : Mark :=
  ⟨item.addr, item.tid, item.path, if item.addr ∈ started then none else some item.count⟩

theorem mark_left (started : List Nat) (item : Item) :
    (mark started item).left = none ↔ item.addr ∈ started := by
  simp [mark]

def marks (s : State) : List Mark := s.items.map (mark s.started)

/-- The count that is printed in the end. -/
def Mark.count (fs : FileSystem) (keyword : Path) (m : Mark) : Option Int :=
  m.left.getD (some (searchTest fs m.path keyword))

/-- The item's line is going to be as it should: it has a worker of its own, or its
count is right and its id is joined without effect. -/
structure Mark.Fine (fs : FileSystem) (keyword : Path) (m : Mark) : Prop where
  count : m.count fs keyword = some (searchTest fs m.path keyword)
  join : m.left ≠ none → m.tid = none

/-- All lines are going to be. -/
def Fine (fs : FileSystem) (keyword : Path) (s : State) : Prop :=
  ∀ m ∈ marks s, m.Fine fs keyword

/-- What is true of the workers all the time. -/
structure Sound (fs : FileSystem) (keyword : Path) (s : State) : Prop where
  ended : ∀ item ∈ s.items, item.addr ∈ s.finished → Counted fs keyword item
  threads : ∀ worker ∈ s.started, worker < s.size
  created : ∀ worker ∈ s.finished, worker ∈ s.started

/-- What is true between two visits: an item with a worker knows it. -/
structure Ready (fs : FileSystem) (keyword : Path) (s : State) : Prop
    extends Sound fs keyword s where
  fresh : ∀ m ∈ marks s, m.addr < s.size
  apart : ((marks s).map Mark.addr).Nodup
  known : ∀ m ∈ marks s, m.left = none → m.tid = some m.addr
  owned : ∀ worker ∈ s.started, ∃ m ∈ marks s, m.addr = worker

theorem startSearch_marks (s : State) (worker : Nat) :
    marks (startSearch fs keyword s worker) = marks s := by
  unfold startSearch
  split
  · rename_i hrunning
    simp only [marks, assign, List.map_map]
    apply List.map_congr_left
    intro item _
    simp only [Function.comp]
    split
    · rename_i haddr
      have hstarted : item.addr ∈ s.started := haddr ▸ hrunning.1
      simp [mark, Item.search, hstarted]
    · rfl
  · rfl

theorem tick_marks (w : World State Nat) :
    marks (tick (startSearch fs keyword) w).state = marks w.state :=
  tick_view marks startSearch_marks w

theorem Sound.startSearch {s : State} (h : Sound fs keyword s) (worker : Nat) :
    Sound fs keyword (startSearch fs keyword s worker) := by
  unfold Project2.startSearch
  split
  · rename_i hrunning
    refine ⟨?_, h.threads, ?_⟩
    · intro item hitem hend
      rcases mem_assign hitem with ⟨old, -, -, rfl⟩ | ⟨hne, hold⟩
      · rfl
      · apply h.ended item hold
        exact (List.mem_cons.mp hend).resolve_left hne
    · intro other hother
      rcases List.mem_cons.mp hother with rfl | hother
      · exact hrunning.1
      · exact h.created other hother
  · exact h

theorem startSearch_started (s : State) (worker : Nat) :
    (startSearch fs keyword s worker).started = s.started := by
  unfold startSearch
  split <;> rfl

theorem Ready.startSearch {s : State} (h : Ready fs keyword s) (worker : Nat) :
    Ready fs keyword (Project2.startSearch fs keyword s worker) where
  toSound := h.toSound.startSearch worker
  fresh := by
    rw [startSearch_marks, startSearch_size]
    exact h.fresh
  apart := by
    rw [startSearch_marks]
    exact h.apart
  known := by
    rw [startSearch_marks]
    exact h.known
  owned := by
    rw [startSearch_marks, startSearch_started]
    exact h.owned

theorem Ready.tick {w : World State Nat} (h : Ready fs keyword w.state) :
    Ready fs keyword (tick (Project2.startSearch fs keyword) w).state :=
  tick_invariant (Ready fs keyword) (fun _ worker hs => hs.startSearch worker) h

end Marks

section Visits

variable {fs : FileSystem} {keyword : Path}

/-- Inside a visit: the item at `addr` has been added to those that were there. -/
structure Placing (fs : FileSystem) (keyword : Path) (addr : Nat) (m : Mark) (old : List Mark)
    (keys : List Key) (t : State) : Prop extends Sound fs keyword t where
  size : t.size = addr + 1
  keys : t.keys = keys
  perm : (marks t).Perm (m :: old)
  own : m.addr = addr
  others : ∀ o ∈ old, o.addr < addr

variable {addr : Nat} {m : Mark} {old : List Mark} {keys : List Key} {t : State}

theorem Placing.startSearch (h : Placing fs keyword addr m old keys t) (worker : Nat) :
    Placing fs keyword addr m old keys (startSearch fs keyword t worker) where
  toSound := h.toSound.startSearch worker
  size := (startSearch_size t worker).trans h.size
  keys := (startSearch_keys t worker).trans h.keys
  perm := by
    rw [startSearch_marks]
    exact h.perm
  own := h.own
  others := h.others

theorem Placing.tick {w : World State Nat} (h : Placing fs keyword addr m old keys w.state) :
    Placing fs keyword addr m old keys (tick (Project2.startSearch fs keyword) w).state :=
  tick_invariant (Placing fs keyword addr m old keys) (fun _ worker hs => hs.startSearch worker) h

/-- A change of the new mark leaves the others as they are. -/
theorem Placing.changed (h : Placing fs keyword addr m old keys t) (g : Mark → Mark) :
    ((marks t).map fun o => if o.addr = addr then g o else o).Perm (g m :: old) := by
  have hmap := h.perm.map fun o => if o.addr = addr then g o else o
  have hold : (old.map fun o => if o.addr = addr then g o else o) = old := by
    rw [List.map_congr_left (g := id)]
    · exact List.map_id old
    · intro o ho
      have hlt := h.others o ho
      rw [if_neg (by omega)]
      rfl
  rw [List.map_cons, if_pos h.own, hold] at hmap
  exact hmap

/-- The new mark is that of an item. -/
theorem Placing.item (h : Placing fs keyword addr m old keys t) :
    ∃ item ∈ t.items, mark t.started item = m :=
  List.mem_map.mp (h.perm.mem_iff.mpr List.mem_cons_self)

/-- The item has no worker as long as its count belongs to its mark. -/
theorem Placing.not_started (h : Placing fs keyword addr m old keys t) (hleft : m.left.isSome) :
    addr ∉ t.started := by
  obtain ⟨item, -, rfl⟩ := h.item
  intro hstarted
  rw [← h.own] at hstarted
  simp only [mark] at hstarted hleft
  rw [if_pos hstarted] at hleft
  cases hleft

theorem assign_marks {f : Item → Item} {g : Mark → Mark}
    (hmark : ∀ item ∈ t.items, mark t.started (f item) = g (mark t.started item)) :
    marks (assign addr f t) = (marks t).map fun o => if o.addr = addr then g o else o := by
  simp only [marks, assign, List.map_map]
  apply List.map_congr_left
  intro item hitem
  simp only [Function.comp]
  have haddr : (mark t.started item).addr = item.addr := rfl
  rw [haddr]
  split
  · exact hmark item hitem
  · rfl

/-- Assigning to the new item. -/
theorem Placing.assign (h : Placing fs keyword addr m old keys t) {f : Item → Item}
    {g : Mark → Mark} (hkey : ∀ item, (f item).key = item.key)
    (haddr : ∀ item, (f item).addr = item.addr)
    (hmark : ∀ item, mark t.started (f item) = g (mark t.started item))
    (hcounted : addr ∈ t.finished → ∀ item, Counted fs keyword item → Counted fs keyword (f item)) :
    Placing fs keyword addr (g m) old keys (assign addr f t) where
  ended := by
    intro item hitem hend
    rcases mem_assign hitem with ⟨before, hbefore, hat, rfl⟩ | ⟨-, hitem⟩
    · rw [haddr, hat] at hend
      exact hcounted hend before (h.ended before hbefore (hat ▸ hend))
    · exact h.ended item hitem hend
  threads := h.threads
  created := h.created
  size := h.size
  keys := (assign_keys addr f hkey t).trans h.keys
  perm := by
    rw [assign_marks fun item _ => hmark item]
    exact h.changed g
  own := by
    obtain ⟨item, -, rfl⟩ := h.item
    rw [← hmark]
    exact (haddr item).trans h.own
  others := h.others

/-- `pthread_create` for the new item. -/
theorem Placing.create (h : Placing fs keyword addr m old keys t) :
    Placing fs keyword addr { m with left := none } old keys
      { t with started := addr :: t.started } where
  ended := h.ended
  threads := by
    intro worker hworker
    rcases List.mem_cons.mp hworker with rfl | hworker
    · rw [h.size]
      exact Nat.lt_succ_self _
    · exact h.threads worker hworker
  created := fun worker hworker => List.mem_cons_of_mem _ (h.created worker hworker)
  size := h.size
  keys := h.keys
  perm := by
    have hmarks : marks { t with started := addr :: t.started } =
        (marks t).map fun o => if o.addr = addr then { o with left := none } else o := by
      simp only [marks, List.map_map]
      apply List.map_congr_left
      intro item _
      by_cases hat : item.addr = addr
      · simp [mark, hat]
      · simp [mark, hat]
    rw [hmarks]
    exact h.changed ({ · with left := none })
  own := h.own
  others := h.others

theorem addPath_marks (leftover : Leftover) (level : Nat) (path : Path) (s : State) :
    (marks (addPath leftover level path s)).Perm
      (mark s.started ⟨s.size, level, 1, none, leftover.itemTid, path⟩ :: marks s) :=
  (LevelList.insert_perm _ _).map _

theorem addPath_placed (leftover : Leftover) (level : Nat) (path : Path) (s : State) :
    (addPath leftover level path s).keys = LevelList.insert Key.level ⟨level, 1, path⟩ s.keys := by
  have hlevel : ∀ item : Item, item.key.level = item.level := fun _ => rfl
  exact (LevelList.insert_map Item.key hlevel _ s.items).symm

/-- The first step of a visit. -/
theorem placing_addPath (leftover : Leftover) {w : World State Nat}
    (h : Ready fs keyword w.state) (level : Nat) (path : Path) :
    Placing fs keyword w.state.size ⟨w.state.size, leftover.itemTid, path, some none⟩
      (marks w.state) (LevelList.insert Key.level ⟨level, 1, path⟩ w.state.keys)
      (act (startSearch fs keyword) (addPath leftover level path) w).state := by
  have hsize : (tick (startSearch fs keyword) w).state.size = w.state.size := tick_size w
  have hkeys : (tick (startSearch fs keyword) w).state.keys = w.state.keys := tick_keys w
  have hmarks : marks (tick (startSearch fs keyword) w).state = marks w.state := tick_marks w
  have hready := h.tick
  unfold act
  generalize (tick (startSearch fs keyword) w).state = s at hsize hkeys hmarks hready
  have hnew : s.size ∉ s.started := fun hin => Nat.lt_irrefl _ (hready.threads _ hin)
  rw [← hsize, ← hkeys, ← hmarks]
  constructor
  · refine ⟨?_, ?_, hready.created⟩
    · intro item hitem hend
      rcases List.mem_cons.mp ((LevelList.insert_perm _ _).mem_iff.mp hitem) with rfl | hitem
      · exact absurd (hready.created _ hend) hnew
      · exact hready.ended item hitem hend
    · exact fun worker hworker => Nat.lt_succ_of_lt (hready.threads worker hworker)
  · rfl
  · exact addPath_placed leftover level path s
  · have hperm := addPath_marks leftover level path s
    rw [mark, if_neg hnew] at hperm
    exact hperm
  · rfl
  · exact hready.fresh

/-- `itemAdr->count = count` before there is a worker. -/
theorem Placing.setCount (h : Placing fs keyword addr m old keys t) (hleft : m.left.isSome)
    (count : Option Int) :
    Placing fs keyword addr { m with left := some count } old keys
      (Project2.assign addr ({ · with count := count }) t) := by
  have hset : m.left.map (fun _ => count) = some count := by
    obtain ⟨before, hbefore⟩ := Option.isSome_iff_exists.mp hleft
    rw [hbefore]
    rfl
  rw [← hset]
  apply h.assign (g := fun o => { o with left := o.left.map fun _ => count })
  · exact fun _ => rfl
  · exact fun _ => rfl
  · intro item
    simp only [mark]
    split <;> rfl
  · intro hend
    exact absurd (h.created _ hend) (h.not_started hleft)

/-- `itemAdr->tid = tid`. -/
theorem Placing.setTid (h : Placing fs keyword addr m old keys t) (tid : Option Nat) :
    Placing fs keyword addr { m with tid := tid } old keys
      (Project2.assign addr ({ · with tid := tid }) t) := by
  apply h.assign (g := fun o => { o with tid := tid })
  · exact fun _ => rfl
  · exact fun _ => rfl
  · exact fun _ => rfl
  · exact fun _ _ hcounted => hcounted

/-- The item as `printDirPar` leaves it. -/
theorem visitPar_placing (fails : Path → Bool) (leftover : Leftover) {w : World State Nat}
    (h : Ready fs keyword w.state) (level : Nat) (path : Path) (tid : Option Nat) :
    Placing fs keyword w.state.size
      ⟨w.state.size, if fails path then tid else some w.state.size, path,
        if fails path then some (some 69) else none⟩
      (marks w.state) (LevelList.insert Key.level ⟨level, 1, path⟩ w.state.keys)
      (visitPar fs keyword fails leftover level path tid w).1.state := by
  have hcounted := (placing_addPath leftover h level path).tick.setCount rfl (some 69)
  have hticked := Placing.tick (w := act (startSearch fs keyword)
    (assign w.state.size ({ · with count := some 69 })) _) hcounted
  unfold visitPar
  cases hfails : fails path with
  | true =>
      have hfailed := Placing.tick (w := act (startSearch fs keyword) id _) hticked
      simp only [if_true]
      exact hfailed.setTid tid
  | false =>
      have hcreated := Placing.tick (w := act (startSearch fs keyword)
        (fun s => { s with started := w.state.size :: s.started }) _) hticked.create
      simp only [Bool.false_eq_true, if_false]
      exact hcreated.setTid (some w.state.size)

end Visits

section Walks

variable {fs : FileSystem} {keyword : Path} {s t u : State}

/-- What some visits have done, and the condition under which they have done no
harm. -/
structure Walked (fs : FileSystem) (keyword : Path) (visited : List (Nat × Path)) (harmless : Prop)
    (s t : State) : Prop where
  ready : Ready fs keyword t
  size : t.size = s.size + visited.length
  keys : t.keys = placed visited s.keys
  fine : Fine fs keyword t ↔ Fine fs keyword s ∧ harmless

theorem Walked.refl (h : Ready fs keyword s) : Walked fs keyword [] True s s :=
  ⟨h, rfl, rfl, (iff_of_eq (and_true _)).symm⟩

theorem Walked.trans {first second : List (Nat × Path)} {p q : Prop}
    (hst : Walked fs keyword first p s t) (htu : Walked fs keyword second q t u) :
    Walked fs keyword (first ++ second) (p ∧ q) s u where
  ready := htu.ready
  size := by
    rw [htu.size, hst.size, List.length_append, Nat.add_assoc]
  keys := by
    rw [htu.keys, hst.keys, placed, placed, placed, List.foldl_append]
  fine := by
    rw [htu.fine, hst.fine, and_assoc]

theorem Walked.congr {visited : List (Nat × Path)} {p q : Prop}
    (h : Walked fs keyword visited p s t) (hpq : p ↔ q) : Walked fs keyword visited q s t :=
  ⟨h.ready, h.size, h.keys, h.fine.trans (and_congr_right' hpq)⟩

/-- One more item. -/
theorem Placing.walked {m : Mark} {level : Nat} {path : Path}
    (h : Placing fs keyword s.size m (marks s)
      (LevelList.insert Key.level ⟨level, 1, path⟩ s.keys) t) (hs : Ready fs keyword s)
    (hknown : m.left = none → m.tid = some m.addr)
    (hstarted : ∀ worker ∈ t.started, worker = s.size ∨ worker ∈ s.started) :
    Walked fs keyword [(level, path)] (m.Fine fs keyword) s t where
  ready := by
    refine ⟨h.toSound, ?_, ?_, ?_, ?_⟩
    · intro o ho
      rw [h.size]
      rcases List.mem_cons.mp (h.perm.mem_iff.mp ho) with rfl | ho
      · rw [h.own]
        exact Nat.lt_succ_self _
      · exact Nat.lt_succ_of_lt (hs.fresh o ho)
    · rw [(h.perm.map Mark.addr).nodup_iff, List.map_cons, List.nodup_cons, h.own]
      refine ⟨?_, hs.apart⟩
      intro hin
      obtain ⟨o, ho, haddr⟩ := List.mem_map.mp hin
      have hlt := hs.fresh o ho
      omega
    · intro o ho
      rcases List.mem_cons.mp (h.perm.mem_iff.mp ho) with rfl | ho
      · exact hknown
      · exact hs.known o ho
    · intro worker hworker
      rcases hstarted worker hworker with rfl | hworker
      · exact ⟨m, h.perm.mem_iff.mpr List.mem_cons_self, h.own⟩
      · obtain ⟨o, ho, haddr⟩ := hs.owned worker hworker
        exact ⟨o, h.perm.mem_iff.mpr (List.mem_cons_of_mem _ ho), haddr⟩
  size := h.size
  keys := h.keys
  fine := by
    unfold Fine
    simp only [h.perm.mem_iff, List.forall_mem_cons]
    exact and_comm

theorem tick_started (w : World State Nat) :
    (tick (startSearch fs keyword) w).state.started = w.state.started :=
  tick_view State.started startSearch_started w

/-- A visit creates a worker for its own item only. -/
theorem visitPar_started (fs : FileSystem) (keyword : Path) (fails : Path → Bool)
    (leftover : Leftover) (level : Nat) (path : Path) (tid : Option Nat) (w : World State Nat) :
    ∀ worker ∈ (visitPar fs keyword fails leftover level path tid w).1.state.started,
      worker = w.state.size ∨ worker ∈ w.state.started := by
  intro worker hworker
  cases hfails : fails path with
  | true =>
      simp only [visitPar, act, assign, addPath, tick_started, hfails, if_true] at hworker
      exact .inr hworker
  | false =>
      simp only [visitPar, act, assign, addPath, tick_started, hfails, Bool.false_eq_true,
        if_false] at hworker
      exact List.mem_cons.mp hworker

theorem visitPar_walked (fails : Path → Bool) (leftover : Leftover) {w : World State Nat}
    (h : Ready fs keyword w.state) (level : Nat) (path : Path) (tid : Option Nat) :
    Walked fs keyword [(level, path)]
      (fails path = true → searchTest fs path keyword = 69 ∧ tid = none) w.state
      (visitPar fs keyword fails leftover level path tid w).1.state := by
  have hplacing := visitPar_placing fails leftover h level path tid
  have hstarted := visitPar_started fs keyword fails leftover level path tid w
  cases hfails : fails path with
  | true =>
      simp only [hfails, if_true] at hplacing
      apply (hplacing.walked h (by simp) hstarted).congr
      constructor
      · rintro ⟨hcount, hjoin⟩ _
        exact ⟨(Option.some.inj hcount).symm, hjoin (Option.some_ne_none _)⟩
      · intro hharmless
        obtain ⟨hcount, hnone⟩ := hharmless rfl
        exact ⟨congrArg some hcount.symm, fun _ => hnone⟩
  | false =>
      simp only [hfails, Bool.false_eq_true, if_false] at hplacing
      apply (hplacing.walked h (fun _ => rfl) hstarted).congr
      simp only [Bool.false_eq_true, false_imp_iff, iff_true]
      exact ⟨rfl, fun hne => absurd rfl hne⟩

end Walks

end Cse420.Lister.CreateFails
