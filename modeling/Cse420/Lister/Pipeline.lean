import Cse420.Lister.Project2

/-!
What the functions of Project2's lister do under every schedule. Workers change
nothing but counts, and no decision of the main thread depends on a count; so
levels, numbers and paths go through the program as if there were no workers.
The counts are right when they are printed because an item carries its address,
its thread's id and its count with it wherever it goes.
-/

namespace Cse420.Lister.Project2

open Interference

/-- What the main thread looks at. -/
structure Key where
  level : Nat
  num : Nat
  path : Path
  deriving DecidableEq

def Item.key (item : Item) : Key := ⟨item.level, item.num, item.path⟩

def State.keys (s : State) : List Key := s.items.map Item.key

section

variable {fs : FileSystem} {keyword : Path}

/-- The count is what a search of the path gives. -/
def Counted (fs : FileSystem) (keyword : Path) (item : Item) : Prop :=
  item.count = some (searchTest fs item.path keyword)

/-- The workers and the items with addresses below `bound` are in order: an item
is counted already, or it knows its worker. -/
structure Tracked (fs : FileSystem) (keyword : Path) (bound : Nat) (s : State) : Prop where
  ended : ∀ item ∈ s.items, item.addr ∈ s.finished → Counted fs keyword item
  known : ∀ item ∈ s.items, item.addr < bound →
    Counted fs keyword item ∨ (item.tid = some item.addr ∧ item.addr ∈ s.started)
  fresh : ∀ item ∈ s.items, item.addr < s.size
  threads : ∀ worker ∈ s.started, worker < s.size
  created : ∀ worker ∈ s.finished, worker ∈ s.started

theorem assign_keys (addr : Nat) (f : Item → Item) (hf : ∀ item, (f item).key = item.key)
    (s : State) : (assign addr f s).keys = s.keys := by
  simp only [State.keys, assign, List.map_map]
  apply List.map_congr_left
  intro item _
  simp only [Function.comp]
  split
  · exact hf item
  · rfl

theorem startSearch_keys (s : State) (worker : Nat) :
    (startSearch fs keyword s worker).keys = s.keys := by
  unfold startSearch
  split
  · exact assign_keys worker (Item.search fs keyword) (fun _ => rfl) s
  · rfl

theorem startSearch_size (s : State) (worker : Nat) :
    (startSearch fs keyword s worker).size = s.size := by
  unfold startSearch
  split <;> rfl

theorem startSearch_started (s : State) (worker : Nat) :
    (startSearch fs keyword s worker).started = s.started := by
  unfold startSearch
  split <;> rfl

/-- A worker that comes to its end leaves everything in order. -/
theorem Tracked.startSearch {bound : Nat} {s : State} (h : Tracked fs keyword bound s)
    (worker : Nat) : Tracked fs keyword bound (startSearch fs keyword s worker) := by
  unfold Project2.startSearch
  split
  · rename_i hrunning
    -- where an item of the new list comes from
    have hfrom : ∀ item ∈ (assign worker (Item.search fs keyword) s).items,
        (item.addr = worker ∧ Counted fs keyword item ∧ ∃ old ∈ s.items, old.addr = item.addr) ∨
          (item.addr ≠ worker ∧ item ∈ s.items) := by
      intro item hitem
      obtain ⟨old, hold, rfl⟩ := List.mem_map.mp hitem
      split
      · rename_i haddr
        exact .inl ⟨haddr, rfl, old, hold, rfl⟩
      · rename_i haddr
        exact .inr ⟨haddr, hold⟩
    constructor
    · intro item hitem hend
      rcases hfrom item hitem with ⟨-, hcounted, -⟩ | ⟨hne, hold⟩
      · exact hcounted
      · apply h.ended item hold
        exact (List.mem_cons.mp hend).resolve_left hne
    · intro item hitem hbound
      rcases hfrom item hitem with ⟨-, hcounted, -⟩ | ⟨-, hold⟩
      · exact .inl hcounted
      · exact h.known item hold hbound
    · intro item hitem
      rcases hfrom item hitem with ⟨-, -, old, hold, haddr⟩ | ⟨-, hold⟩
      · rw [← haddr]
        exact h.fresh old hold
      · exact h.fresh item hold
    · exact h.threads
    · intro other hother
      rcases List.mem_cons.mp hother with rfl | hother
      · exact hrunning.1
      · exact h.created other hother
  · exact h

theorem tick_keys (w : World State Nat) :
    (tick (startSearch fs keyword) w).state.keys = w.state.keys :=
  tick_view State.keys startSearch_keys w

theorem tick_size (w : World State Nat) :
    (tick (startSearch fs keyword) w).state.size = w.state.size :=
  tick_view State.size startSearch_size w

theorem tick_started (w : World State Nat) :
    (tick (startSearch fs keyword) w).state.started = w.state.started :=
  tick_view State.started startSearch_started w

theorem Tracked.tick {bound : Nat} {w : World State Nat}
    (h : Tracked fs keyword bound w.state) :
    Tracked fs keyword bound (tick (Project2.startSearch fs keyword) w).state :=
  tick_invariant (Tracked fs keyword bound) (fun _ worker hs => hs.startSearch worker) h

/-- What insertion of a new item does to the keys. -/
theorem addPath_keys (level : Nat) (path : Path) (s : State) :
    (addPath level path s).keys = LevelList.insert Key.level ⟨level, 1, path⟩ s.keys := by
  have hlevel : ∀ item : Item, item.key.level = item.level := fun _ => rfl
  exact (LevelList.insert_map Item.key hlevel _ s.items).symm

theorem mem_addPath {level : Nat} {path : Path} {s : State} {item : Item}
    (h : item ∈ (addPath level path s).items) :
    item = ⟨s.size, level, 1, none, none, path⟩ ∨ item ∈ s.items :=
  List.mem_cons.mp ((LevelList.insert_perm _ _).mem_iff.mp h)

theorem Tracked.addPath {bound : Nat} {s : State} (h : Tracked fs keyword bound s)
    (hbound : bound ≤ s.size) (level : Nat) (path : Path) :
    Tracked fs keyword bound (addPath level path s) := by
  constructor
  · intro item hitem hend
    rcases mem_addPath hitem with rfl | hold
    · have := h.threads _ (h.created _ hend)
      exact absurd this (Nat.lt_irrefl _)
    · exact h.ended item hold hend
  · intro item hitem hlt
    rcases mem_addPath hitem with rfl | hold
    · exact absurd (Nat.lt_of_lt_of_le hlt hbound) (Nat.lt_irrefl _)
    · exact h.known item hold hlt
  · intro item hitem
    rcases mem_addPath hitem with rfl | hold
    · exact Nat.lt_succ_self _
    · exact Nat.lt_succ_of_lt (h.fresh item hold)
  · exact fun worker hworker => Nat.lt_succ_of_lt (h.threads worker hworker)
  · exact h.created

theorem mem_assign {addr : Nat} {f : Item → Item} {s : State} {item : Item}
    (h : item ∈ (assign addr f s).items) :
    (∃ old ∈ s.items, old.addr = addr ∧ item = f old) ∨ (item.addr ≠ addr ∧ item ∈ s.items) := by
  obtain ⟨old, hold, rfl⟩ := List.mem_map.mp h
  split
  · rename_i haddr
    exact .inl ⟨old, hold, haddr, rfl⟩
  · rename_i haddr
    exact .inr ⟨haddr, hold⟩

/-- Assigning to an item whose worker was not created yet. -/
theorem Tracked.assign {bound : Nat} {s : State} (h : Tracked fs keyword bound s) {addr : Nat}
    (hbound : bound ≤ addr) (hnew : addr ∉ s.started) (f : Item → Item)
    (hf : ∀ item, (f item).addr = item.addr) :
    Tracked fs keyword bound (assign addr f s) := by
  constructor
  · intro item hitem hend
    rcases mem_assign hitem with ⟨old, -, haddr, rfl⟩ | ⟨-, hold⟩
    · rw [hf, haddr] at hend
      exact absurd (h.created _ hend) hnew
    · exact h.ended item hold hend
  · intro item hitem hlt
    rcases mem_assign hitem with ⟨old, -, haddr, rfl⟩ | ⟨-, hold⟩
    · rw [hf, haddr] at hlt
      omega
    · exact h.known item hold hlt
  · intro item hitem
    rcases mem_assign hitem with ⟨old, hold, -, rfl⟩ | ⟨-, hold⟩
    · rw [hf]
      exact h.fresh old hold
    · exact h.fresh item hold
  · exact h.threads
  · exact h.created

/-- Once its count is right or its worker is known, the last item is in order. -/
theorem Tracked.settle {bound : Nat} {s : State} (h : Tracked fs keyword bound s)
    (f : Item → Item) (haddr : ∀ item, (f item).addr = item.addr)
    (hended : ∀ item ∈ s.items, item.addr = bound → Counted fs keyword item →
      Counted fs keyword (f item))
    (hsettled : ∀ item ∈ s.items, item.addr = bound → Counted fs keyword (f item) ∨
      ((f item).tid = some (f item).addr ∧ (f item).addr ∈ s.started)) :
    Tracked fs keyword (bound + 1) (Project2.assign bound f s) := by
  constructor
  · intro item hitem hend
    rcases mem_assign hitem with ⟨old, hold, hat, rfl⟩ | ⟨-, hold⟩
    · rw [haddr] at hend
      exact hended old hold hat (h.ended old hold hend)
    · exact h.ended item hold hend
  · intro item hitem hlt
    rcases mem_assign hitem with ⟨old, hold, hat, rfl⟩ | ⟨hne, hold⟩
    · exact hsettled old hold hat
    · exact h.known item hold (by omega)
  · intro item hitem
    rcases mem_assign hitem with ⟨old, hold, -, rfl⟩ | ⟨-, hold⟩
    · rw [haddr]
      exact h.fresh old hold
    · exact h.fresh item hold
  · exact h.threads
  · exact h.created

/-- What every visit does, in both modes and under every schedule. -/
structure Visited (fs : FileSystem) (keyword : Path) (level : Nat) (path : Path)
    (s t : State) : Prop where
  size : t.size = s.size + 1
  keys : t.keys = LevelList.insert Key.level ⟨level, 1, path⟩ s.keys
  tracked : Tracked fs keyword t.size t

/-- Inside a visit: the item at `addr` is in the list and not in order yet. -/
structure Adding (fs : FileSystem) (keyword : Path) (addr : Nat) (path : Path)
    (keys : List Key) (t : State) : Prop where
  size : t.size = addr + 1
  keys : t.keys = keys
  tracked : Tracked fs keyword addr t
  place : ∀ item ∈ t.items, item.addr = addr → item.path = path

theorem assign_place {addr other : Nat} {path : Path} {f : Item → Item}
    (hf : ∀ item, (f item).addr = item.addr ∧ (f item).path = item.path) {s : State}
    (h : ∀ item ∈ s.items, item.addr = addr → item.path = path) :
    ∀ item ∈ (assign other f s).items, item.addr = addr → item.path = path := by
  intro item hitem haddr
  rcases mem_assign hitem with ⟨old, hold, -, rfl⟩ | ⟨-, hold⟩
  · rw [(hf old).1] at haddr
    rw [(hf old).2]
    exact h old hold haddr
  · exact h item hold haddr

theorem Adding.startSearch {addr : Nat} {path : Path} {keys : List Key} {t : State}
    (h : Adding fs keyword addr path keys t) (worker : Nat) :
    Adding fs keyword addr path keys (startSearch fs keyword t worker) where
  size := (startSearch_size t worker).trans h.size
  keys := (startSearch_keys t worker).trans h.keys
  tracked := h.tracked.startSearch worker
  place := by
    unfold Project2.startSearch
    split
    · exact assign_place (f := Item.search fs keyword) (fun _ => ⟨rfl, rfl⟩) h.place
    · exact h.place

theorem Adding.tick {addr : Nat} {path : Path} {keys : List Key} {w : World State Nat}
    (h : Adding fs keyword addr path keys w.state) :
    Adding fs keyword addr path keys (tick (Project2.startSearch fs keyword) w).state :=
  tick_invariant (Adding fs keyword addr path keys) (fun _ worker hs => hs.startSearch worker) h

theorem Tracked.adding {s : State} (h : Tracked fs keyword s.size s) (level : Nat)
    (path : Path) :
    Adding fs keyword s.size path (LevelList.insert Key.level ⟨level, 1, path⟩ s.keys)
      (Project2.addPath level path s) where
  size := rfl
  keys := addPath_keys level path s
  tracked := h.addPath (Nat.le_refl _) level path
  place := by
    intro item hitem haddr
    rcases mem_addPath hitem with rfl | hold
    · rfl
    · have := h.fresh item hold
      omega

/-- The first step of every visit. -/
theorem adding_addPath {w : World State Nat} (h : Tracked fs keyword w.state.size w.state)
    (level : Nat) (path : Path) :
    Adding fs keyword w.state.size path
      (LevelList.insert Key.level ⟨level, 1, path⟩ w.state.keys)
      (act (startSearch fs keyword) (addPath level path) w).state := by
  have hsize : (tick (startSearch fs keyword) w).state.size = w.state.size := tick_size w
  have hkeys : (tick (startSearch fs keyword) w).state.keys = w.state.keys := tick_keys w
  have htracked := h.tick
  rw [← hsize] at htracked
  have hadding := htracked.adding level path
  rw [hsize, hkeys] at hadding
  exact hadding

/-- Assigning to the new item before its worker is created. -/
theorem Adding.assign {addr : Nat} {path : Path} {keys : List Key} {t : State}
    (h : Adding fs keyword addr path keys t) (hnew : addr ∉ t.started) (f : Item → Item)
    (hkey : ∀ item, (f item).key = item.key) (haddr : ∀ item, (f item).addr = item.addr) :
    Adding fs keyword addr path keys (assign addr f t) where
  size := h.size
  keys := (assign_keys addr f hkey t).trans h.keys
  tracked := h.tracked.assign (Nat.le_refl _) hnew f haddr
  place := assign_place (fun item => ⟨haddr item, congrArg Key.path (hkey item)⟩) h.place

theorem Adding.create {addr : Nat} {path : Path} {keys : List Key} {t : State}
    (h : Adding fs keyword addr path keys t) :
    Adding fs keyword addr path keys { t with started := addr :: t.started } where
  size := h.size
  keys := h.keys
  tracked := by
    refine ⟨h.tracked.ended, ?_, h.tracked.fresh, ?_, ?_⟩
    · intro item hitem hlt
      rcases h.tracked.known item hitem hlt with hcounted | ⟨htid, hin⟩
      · exact .inl hcounted
      · exact .inr ⟨htid, List.mem_cons_of_mem _ hin⟩
    · intro worker hworker
      rcases List.mem_cons.mp hworker with rfl | hworker
      · rw [h.size]
        exact Nat.lt_succ_self _
      · exact h.tracked.threads worker hworker
    · exact fun worker hworker => List.mem_cons_of_mem _ (h.tracked.created worker hworker)
  place := h.place

/-- The last step of a visit. -/
theorem Adding.settle {level : Nat} {path : Path} {s t : State}
    (h : Adding fs keyword s.size path
      (LevelList.insert Key.level ⟨level, 1, path⟩ s.keys) t) (f : Item → Item)
    (hkey : ∀ item, (f item).key = item.key) (haddr : ∀ item, (f item).addr = item.addr)
    (hended : ∀ item ∈ t.items, item.addr = s.size → Counted fs keyword item →
      Counted fs keyword (f item))
    (hsettled : ∀ item ∈ t.items, item.addr = s.size → Counted fs keyword (f item) ∨
      ((f item).tid = some (f item).addr ∧ (f item).addr ∈ t.started)) :
    Visited fs keyword level path s (Project2.assign s.size f t) where
  size := h.size
  keys := (assign_keys s.size f hkey t).trans h.keys
  tracked := by
    have hsize : (Project2.assign s.size f t).size = s.size + 1 := h.size
    rw [hsize]
    exact h.tracked.settle f haddr hended hsettled

/-- The addresses of new items belong to no worker yet, whatever has happened
since the visit began. -/
theorem Tracked.size_not_started {bound : Nat} {s : State} (h : Tracked fs keyword bound s) :
    s.size ∉ s.started := by
  intro hin
  exact Nat.lt_irrefl _ (h.threads _ hin)

theorem visitSeq_spec {w : World State Nat} (h : Tracked fs keyword w.state.size w.state)
    (level : Nat) (path : Path) :
    Visited fs keyword level path w.state (visitSeq fs keyword level path w).state := by
  have hadding := (adding_addPath h level path).tick
  have hcounted : ∀ item ∈ (tick (startSearch fs keyword)
      (act (startSearch fs keyword) (addPath level path) w)).state.items,
      item.addr = w.state.size →
        Counted fs keyword { item with count := some (searchTest fs path keyword) } := by
    intro item hitem haddr
    unfold Counted
    rw [hadding.place item hitem haddr]
  apply hadding.settle
  · exact fun _ => rfl
  · exact fun _ => rfl
  · exact fun item hitem haddr _ => hcounted item hitem haddr
  · exact fun item hitem haddr => .inl (hcounted item hitem haddr)

theorem visitSeq_started (level : Nat) (path : Path) (w : World State Nat) :
    (visitSeq fs keyword level path w).state.started = w.state.started :=
  (tick_started _).trans (tick_started w)

/-- The worker may be done before the thread's id is stored, and then the count
is right already. -/
theorem visitPar_spec {w : World State Nat} (h : Tracked fs keyword w.state.size w.state)
    (level : Nat) (path : Path) :
    Visited fs keyword level path w.state (visitPar fs keyword level path w).state := by
  have hadding := (adding_addPath h level path).tick
  have hnew : w.state.size ∉ (tick (startSearch fs keyword)
      (act (startSearch fs keyword) (addPath level path) w)).state.started := by
    rw [tick_started]
    show w.state.size ∉ (tick (startSearch fs keyword) w).state.started
    rw [tick_started]
    exact h.size_not_started
  have hmarked := hadding.assign hnew ({ · with count := some 69 }) (fun _ => rfl) (fun _ => rfl)
  have hmarked : Adding fs keyword w.state.size path _
      (act (startSearch fs keyword) (assign w.state.size ({ · with count := some 69 }))
        (act (startSearch fs keyword) (addPath level path) w)).state := hmarked
  have hcreated := hmarked.tick.create
  apply Adding.settle (Adding.tick (w := act (startSearch fs keyword)
    (fun s => { s with started := w.state.size :: s.started }) _) hcreated)
  · exact fun _ => rfl
  · exact fun _ => rfl
  · exact fun item _ _ hcounted => hcounted
  · intro item hitem haddr
    right
    refine ⟨congrArg some haddr.symm, ?_⟩
    rw [tick_started, haddr]
    exact List.mem_cons_self

/-- The root has no worker. Its count is that of a directory, which it is. -/
theorem visitRoot_spec {w : World State Nat} (h : Tracked fs keyword w.state.size w.state)
    {path : Path} (hopen : (fs.opendir path).isSome) :
    Visited fs keyword 1 path w.state (visitRoot fs keyword path w).state := by
  have hadding := (adding_addPath h 1 path).tick
  have hzero : searchTest fs path keyword = 0 := by
    simp [searchTest, searchWith, hopen]
  have hcounted : ∀ item ∈ (tick (startSearch fs keyword)
      (act (startSearch fs keyword) (addPath 1 path) w)).state.items,
      item.addr = w.state.size → Counted fs keyword { item with count := some 0 } := by
    intro item hitem haddr
    unfold Counted
    rw [hadding.place item hitem haddr, hzero]
  apply hadding.settle
  · exact fun _ => rfl
  · exact fun _ => rfl
  · exact fun item hitem haddr _ => hcounted item hitem haddr
  · exact fun item hitem haddr => .inl (hcounted item hitem haddr)

/-- The keys after visits to these paths one after the other. -/
def placed (visits : List (Nat × Path)) (keys : List Key) : List Key :=
  visits.foldl (fun keys v => LevelList.insert Key.level ⟨v.1, 1, v.2⟩ keys) keys

/-- Visits of either kind, any number of them. -/
theorem visits_tracked {visit : Nat → Path → World State Nat → World State Nat}
    (hvisit : ∀ (w : World State Nat) level path, Tracked fs keyword w.state.size w.state →
      Visited fs keyword level path w.state (visit level path w).state)
    (visits : List (Nat × Path)) {w : World State Nat}
    (h : Tracked fs keyword w.state.size w.state) :
    let w' := visits.foldl (fun w v => visit v.1 v.2 w) w
    w'.state.size = w.state.size + visits.length ∧ w'.state.keys = placed visits w.state.keys ∧
      Tracked fs keyword w'.state.size w'.state := by
  induction visits generalizing w with
  | nil => exact ⟨rfl, rfl, h⟩
  | cons v rest ih =>
      obtain ⟨hsize, hkeys, htracked⟩ := hvisit w v.1 v.2 h
      obtain ⟨hsize', hkeys', htracked'⟩ := ih htracked
      rw [hsize] at hsize'
      rw [hkeys] at hkeys'
      refine ⟨?_, hkeys', htracked'⟩
      simp only [List.foldl_cons, List.length_cons]
      omega

theorem visits_started (visits : List (Nat × Path)) (w : World State Nat) :
    (visits.foldl (fun w v => visitSeq fs keyword v.1 v.2 w) w).state.started =
      w.state.started := by
  induction visits generalizing w with
  | nil => rfl
  | cons v rest ih => exact (ih _).trans (visitSeq_started v.1 v.2 w)

end

end Cse420.Lister.Project2
