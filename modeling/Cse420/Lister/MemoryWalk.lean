import Cse420.Lister.Memory

/-!
What memory holds of a list of items, with everything that is not the list's as a
frame around it. Every step of the walk, and every worker that comes to its end
in between, has a result, and takes memory from one list of items to the next.
-/

namespace Cse420.Lister.Memory

open DoublyLinked Interference

/-- The blocks that are not the list's, what an item finds as its `tid`, and the
threads that have been joined. -/
structure Frame where
  nodes : Nat → Option (Cell Nat)
  items : Nat → Option Item
  strings : Nat → Option Path
  stale : Nat → Option Nat
  joined : List Nat

/-- An item of the list as memory has it, its path being copied to an address. -/
def shown (base : Frame) (place copy : Nat → Nat) (item : Project2.Item) : Item :=
  ⟨item.level, item.num, item.count, item.tid.or (base.stale (place item.addr)), copy item.addr⟩

/-- Memory holds these items on these nodes. The item of the call with a number is
at its `place`, and the `copy` of its path too. -/
structure Holds (base : Frame) (place copy : Nat → Nat) (pairs : List (Nat × Project2.Item))
    (m : Store) (s : Project2.State) : Prop where
  list : s.items = pairs.map Prod.snd
  linked : ∃ head tail, m.list = some ⟨head, tail, s.size⟩ ∧
    Linked m.nodes.block head tail (pairs.map fun p => (p.1, place p.2.addr))
  shows : ∀ item ∈ s.items, m.items.block (place item.addr) = some (shown base place copy item) ∧
    m.strings.block (copy item.addr) = some item.path
  calls : (s.items.map Project2.Item.addr).Perm (List.range s.size)
  nodes : m.nodes.Owns base.nodes (pairs.map Prod.fst)
  items : m.items.Owns base.items ((List.range s.size).map place)
  strings : m.strings.Owns base.strings ((List.range s.size).map copy)
  started : ∀ k, k ∈ s.started ↔ 0 < k ∧ k < m.threads.length
  finished : m.finished = s.finished
  stale : m.stale = base.stale
  joined : m.joined = base.joined
  main : m.threads[0]? = some none
  threads : ∀ k, 0 < k → k < m.threads.length → m.threads[k]? = some (some (place k)) ∧ k < s.size

/-- The items of the calls below a number know their threads, but for the first,
which has none. -/
def Named (tids : Nat) (items : List Project2.Item) : Prop :=
  ∀ item ∈ items, (item.addr = 0 → item.tid = none) ∧
    (0 < item.addr → item.addr < tids → item.tid = some item.addr)

/-- The nodes with the numbers of the calls whose items they lead to. -/
def order (pairs : List (Nat × Project2.Item)) : List (Nat × Nat) :=
  pairs.map fun p => (p.1, p.2.addr)

/-- What the workers leave alone is fixed. -/
def Rel (base : Frame) (place copy : Nat → Nat) (nodes : List (Nat × Nat)) (threads tids n : Nat)
    (m : Store) (s : Project2.State) : Prop :=
  ∃ pairs, order pairs = nodes ∧ Holds base place copy pairs m s ∧
    m.threads.length = threads ∧ s.size = n ∧ Named tids s.items

section Insertion

variable {α : Type} {level : α → Option Int} {nodes nodes' : Heap (Cell α)}
  {head tail head' tail' : Option Nat} {cells : List (Nat × α)} {new : Int}

theorem next_mem (h : Linked nodes.block head tail cells) {a b : Nat} {cell : Cell α}
    (ha : a ∈ cells.map Prod.fst) (hcell : nodes.block a = some cell)
    (hb : cell.next = some b) : b ∈ cells.map Prod.fst := by
  obtain ⟨c, hc, rfl⟩ := List.mem_map.mp ha
  obtain ⟨front, back, rfl⟩ := List.append_of_mem hc
  rw [h.block_eq, Option.some.injEq] at hcell
  rw [← hcell] at hb
  rw [List.map_append, List.map_cons]
  exact List.mem_append_right _ (List.mem_cons_of_mem _ (first_mem hb))

theorem scan_mem (h : Linked nodes.block head tail cells) (fuel : Nat) {a b : Nat}
    (ha : a ∈ cells.map Prod.fst) (hscan : AddPath.scan level new nodes fuel a = some b) :
    b ∈ cells.map Prod.fst := by
  induction fuel generalizing a with
  | zero => cases hscan
  | succ fuel ih =>
      simp only [AddPath.scan, Option.bind_eq_bind, Option.bind_eq_some_iff] at hscan
      obtain ⟨cur, hcur, hscan⟩ := hscan
      cases hnext : cur.next with
      | none =>
          rw [hnext] at hscan
          cases hscan
          exact ha
      | some next =>
          simp only [hnext, Option.bind_eq_some_iff] at hscan
          obtain ⟨-, -, l, -, hscan⟩ := hscan
          split at hscan
          · exact ih (next_mem h ha hcur hnext) hscan
          · cases hscan
            exact ha

/-- Nothing but the list and the new node changes. -/
theorem insertNode_owns {base : Nat → Option (Cell α)} {fuel newNode : Nat} {val : α}
    (h : Linked nodes.block head tail cells) (hown : nodes.Owns base (cells.map Prod.fst))
    (hfresh : nodes.block newNode = none)
    (hinsert : AddPath.insertNode level fuel nodes head tail newNode val new =
      some (nodes', head', tail')) : nodes'.Owns base (newNode :: cells.map Prod.fst) := by
  unfold AddPath.insertNode at hinsert
  split at hinsert
  · cases hinsert
    exact hown.malloc hfresh
  · simp only [Option.bind_eq_bind, Option.bind_eq_some_iff] at hinsert
    obtain ⟨first, hhead, curNode, hscan, cur, hcur, l, -, hinsert⟩ := hinsert
    have hfirst : first ∈ cells.map Prod.fst := first_mem (h.head.symm.trans hhead)
    have hin : curNode ∈ cells.map Prod.fst := scan_mem h fuel hfirst hscan
    split at hinsert
    · obtain ⟨after, hmodify, hinsert⟩ := Option.bind_eq_some_iff.mp hinsert
      cases hinsert
      rw [hhead] at hmodify
      exact (hown.malloc hfresh).modify (List.mem_cons_of_mem _ hfirst) hmodify
    · split at hinsert
      · obtain ⟨after, hmodify, hinsert⟩ := Option.bind_eq_some_iff.mp hinsert
        cases hinsert
        obtain ⟨last, htail, -⟩ := Option.bind_eq_some_iff.mp hmodify
        rw [htail] at hmodify
        have hlast : last ∈ cells.map Prod.fst := last_mem (h.tail.symm.trans htail)
        exact (hown.malloc hfresh).modify (List.mem_cons_of_mem _ hlast) hmodify
      · simp only [Option.bind_eq_some_iff] at hinsert
        obtain ⟨after, hmodify, after', hmodify', hinsert⟩ := hinsert
        cases hinsert
        obtain ⟨next, hnext, -⟩ := Option.bind_eq_some_iff.mp hmodify
        rw [hnext] at hmodify
        have hmem := next_mem h hin hcur hnext
        have hafter := (hown.malloc hfresh).modify (List.mem_cons_of_mem _ hmem) hmodify
        exact hafter.modify (List.mem_cons_of_mem _ hin) hmodify'

end Insertion

section Steps

variable {base : Frame} {place copy : Nat → Nat} {pairs : List (Nat × Project2.Item)}
  {m : Store} {s : Project2.State}

theorem Holds.addr_lt (h : Holds base place copy pairs m s) {item : Project2.Item}
    (hitem : item ∈ s.items) : item.addr < s.size :=
  List.mem_range.mp (h.calls.mem_iff.mp (List.mem_map_of_mem hitem))

theorem Holds.exists_item (h : Holds base place copy pairs m s) {n : Nat} (hn : n < s.size) :
    ∃ item ∈ s.items, item.addr = n :=
  List.mem_map.mp (h.calls.mem_iff.mpr (List.mem_range.mpr hn))

theorem Holds.place_inj (h : Holds base place copy pairs m s) {i j : Nat} (hi : i < s.size)
    (hj : j < s.size) (heq : place i = place j) : i = j :=
  List.inj_on_of_nodup_map h.items.nodup (List.mem_range.mpr hi) (List.mem_range.mpr hj) heq

theorem Holds.length (h : Holds base place copy pairs m s) : pairs.length = s.size := by
  have hlength := h.calls.length_eq
  rw [List.length_map, List.length_range, h.list, List.length_map] at hlength
  exact hlength

/-- A new content for the item of one call. -/
theorem Holds.put (h : Holds base place copy pairs m s) {n : Nat} (hn : n < s.size)
    (g : Project2.Item → Project2.Item) (y : Item)
    (hg : ∀ item ∈ s.items, item.addr = n →
      (g item).addr = n ∧ (g item).path = item.path ∧ y = shown base place copy (g item)) :
    ∃ pairs', order pairs' = order pairs ∧
      Holds base place copy pairs' { m with items := m.items.put (place n) y }
        (Project2.assign n g s) := by
  let update : Project2.Item → Project2.Item := fun item => if item.addr = n then g item else item
  have haddr : ∀ item ∈ s.items, (update item).addr = item.addr := by
    intro item hitem
    by_cases hcall : item.addr = n
    · simp only [update, if_pos hcall, (hg item hitem hcall).1, hcall]
    · simp only [update, if_neg hcall]
  have hcalls : order (pairs.map fun p => (p.1, update p.2)) = order pairs := by
    unfold order
    rw [List.map_map]
    apply List.map_congr_left
    intro p hp
    have hsame := haddr p.2 (h.list ▸ List.mem_map_of_mem hp)
    simp only [Function.comp_apply, hsame]
  refine ⟨pairs.map fun p => (p.1, update p.2), hcalls, ?_⟩
  constructor
  · show s.items.map update = _
    rw [h.list, List.map_map, List.map_map]
    rfl
  · obtain ⟨head, tail, hlist, hlinked⟩ := h.linked
    refine ⟨head, tail, hlist, ?_⟩
    have hcells := congrArg (List.map fun c => (c.1, place c.2)) hcalls
    simp only [order, List.map_map] at hcells
    rw [List.map_map]
    exact hcells ▸ hlinked
  · intro item hitem
    obtain ⟨old, hold, rfl⟩ := List.mem_map.mp hitem
    obtain ⟨hblock, hpath⟩ := h.shows old hold
    by_cases hcall : old.addr = n
    · obtain ⟨hkept, hsame, hy⟩ := hg old hold hcall
      rw [if_pos hcall, hkept, hsame]
      refine ⟨?_, hcall ▸ hpath⟩
      rw [Heap.put_block_self, hy]
    · rw [if_neg hcall]
      refine ⟨?_, hpath⟩
      rw [Heap.put_block_ne]
      · exact hblock
      · intro heq
        exact hcall (h.place_inj (h.addr_lt hold) hn heq)
  · have hmap : (s.items.map update).map Project2.Item.addr =
        s.items.map Project2.Item.addr := by
      rw [List.map_map]
      exact List.map_congr_left haddr
    show ((s.items.map update).map Project2.Item.addr).Perm _
    rw [hmap]
    exact h.calls
  · rw [List.map_map]
    exact h.nodes
  · exact h.items.put (List.mem_map_of_mem (List.mem_range.mpr hn))
  · exact h.strings
  · exact h.started
  · exact h.finished
  · exact h.stale
  · exact h.joined
  · exact h.main
  · exact h.threads

theorem Holds.exists_shown (h : Holds base place copy pairs m s) {n : Nat} (hn : n < s.size) :
    ∃ item ∈ s.items, item.addr = n ∧ m.items.block (place n) = some (shown base place copy item) ∧
      m.strings.block (copy n) = some item.path := by
  obtain ⟨item, hitem, rfl⟩ := h.exists_item hn
  exact ⟨item, hitem, rfl, h.shows item hitem⟩

theorem Holds.unique (h : Holds base place copy pairs m s) {item other : Project2.Item}
    (hitem : item ∈ s.items) (hother : other ∈ s.items) (heq : item.addr = other.addr) :
    item = other := by
  have hnodup : (s.items.map Project2.Item.addr).Nodup := h.calls.nodup_iff.mpr List.nodup_range
  exact List.inj_on_of_nodup_map hnodup hitem hother heq

theorem Named.assign {tids n : Nat} (h : Named tids s.items) (g : Project2.Item → Project2.Item)
    (hg : ∀ item, item.addr = n → (g item).addr = n ∧ (g item).tid = item.tid) :
    Named tids (Project2.assign n g s).items := by
  intro item hitem
  obtain ⟨old, hold, rfl⟩ := List.mem_map.mp hitem
  by_cases hcall : old.addr = n
  · obtain ⟨haddr, htid⟩ := hg old hcall
    rw [if_pos hcall, haddr, htid, ← hcall]
    exact h old hold
  · rw [if_neg hcall]
    exact h old hold

/-- A worker that comes to its end finds its item, its path and the keyword. -/
theorem startSearch_rel (fs : FileSystem) {keyword : Nat} {word : Path}
    (hword : base.strings keyword = some word) {nodes : List (Nat × Nat)} {threads tids n : Nat}
    (h : Rel base place copy nodes threads tids n m s) (k : Nat) :
    ∃ m', startSearch fs keyword m k = some m' ∧
      Rel base place copy nodes threads tids n m' (Project2.startSearch fs word s k) := by
  obtain ⟨pairs, hnodes, h, hthreads, hsize, hnamed⟩ := h
  by_cases hcreated : 0 < k ∧ k < m.threads.length
  · obtain ⟨hthread, hlt⟩ := h.threads k hcreated.1 hcreated.2
    have hstarted : k ∈ s.started := (h.started k).mpr hcreated
    by_cases hdone : k ∈ m.finished
    · refine ⟨m, ?_, ?_⟩
      · simp [startSearch, hthread, hdone]
      · rw [h.finished] at hdone
        unfold Project2.startSearch
        rw [if_neg (by simp [hdone])]
        exact ⟨pairs, hnodes, h, hthreads, hsize, hnamed⟩
    · obtain ⟨item, hitem, haddr, hblock, hpath⟩ := h.exists_shown hlt
      have hkey := h.strings.block_eq hword
      obtain ⟨pairs', hnodes', h'⟩ := h.put hlt (Project2.Item.search fs word)
        { shown base place copy item with count := some (searchTest fs item.path word) } (by
          intro other hother hcall
          rw [h.unique hitem hother (haddr.trans hcall.symm)]
          exact ⟨hcall, rfl, rfl⟩)
      refine ⟨{ m with
        items := m.items.put (place k)
          { shown base place copy item with count := some (searchTest fs item.path word) }
        finished := k :: m.finished }, ?_, ?_⟩
      · have hcopy : m.strings.block (shown base place copy item).path = some item.path := by
          rw [← hpath, ← haddr]
          rfl
        simp [startSearch, hthread, hdone, hblock, hcopy, hkey]
      · have hdone' : k ∉ s.finished := h.finished ▸ hdone
        unfold Project2.startSearch
        rw [if_pos ⟨hstarted, hdone'⟩]
        refine ⟨pairs', hnodes'.trans hnodes, ?_, hthreads, hsize, ?_⟩
        · exact { h' with finished := congrArg (k :: ·) h.finished }
        · exact hnamed.assign _ fun item haddr => ⟨haddr, rfl⟩
  · have hnone : m.threads[k]?.join = none := by
      rcases Nat.eq_zero_or_pos k with rfl | hpos
      · rw [h.main]
        rfl
      · rw [List.getElem?_eq_none (by omega)]
        rfl
    refine ⟨m, ?_, ?_⟩
    · simp [startSearch, hnone]
    · have hnot : k ∉ s.started := fun hin => hcreated ((h.started k).mp hin)
      unfold Project2.startSearch
      rw [if_neg (by simp [hnot])]
      exact ⟨pairs, hnodes, h, hthreads, hsize, hnamed⟩

theorem startSearch_keeps (fs : FileSystem) {keyword : Nat} {word : Path}
    (hword : base.strings keyword = some word) (nodes : List (Nat × Nat)) (threads tids n : Nat) :
    Keeps (startSearch fs keyword) (Project2.startSearch fs word)
      (Rel base place copy nodes threads tids n) := by
  intro m s k h
  obtain ⟨m', hm, h'⟩ := startSearch_rel fs hword h k
  exact ⟨m', k, hm, h'⟩

/-- `itemAdr->field = value` for the item of one call. -/
theorem assign_rel {nodes : List (Nat × Nat)} {threads tids size n : Nat} (hn : n < size)
    (f : Item → Item) (g : Project2.Item → Project2.Item)
    (hg : ∀ item, item.addr = n → (g item).addr = n ∧ (g item).path = item.path ∧
      f (shown base place copy item) = shown base place copy (g item) ∧ (g item).tid = item.tid)
    (h : Rel base place copy nodes threads tids size m s) :
    Returns (assign (place n) f) m fun _ m' =>
      Rel base place copy nodes threads tids size m' (Project2.assign n g s) := by
  obtain ⟨pairs, hnodes, h, hthreads, hsize, hnamed⟩ := h
  rw [← hsize] at hn
  obtain ⟨item, hitem, haddr, hblock, -⟩ := h.exists_shown hn
  obtain ⟨pairs', hnodes', h'⟩ := h.put hn g (f (shown base place copy item)) (by
    intro other hother hcall
    rw [h.unique hitem hother (haddr.trans hcall.symm)]
    obtain ⟨hkept, hpath, hf, -⟩ := hg other hcall
    exact ⟨hkept, hpath, hf⟩)
  refine ⟨(), _, ?_, pairs', hnodes'.trans hnodes, h', hthreads, hsize, ?_⟩
  · show (assign (place n) f) m = _
    simp [assign, Heap.modify_some f hblock]
  · apply hnamed.assign
    intro item hcall
    obtain ⟨hkept, -, -, hsame⟩ := hg item hcall
    exact ⟨hkept, hsame⟩

/-- `itemAdr->tid = tid`, after which the items of all calls know their threads. -/
theorem assign_tid_rel {nodes : List (Nat × Nat)} {threads n : Nat} (hpos : 0 < n)
    (h : Rel base place copy nodes threads n (n + 1) m s) :
    Returns (assign (place n) ({ · with tid := some n })) m fun _ m' =>
      Rel base place copy nodes threads (n + 1) (n + 1) m'
        (Project2.assign n ({ · with tid := some n }) s) := by
  obtain ⟨pairs, hnodes, h, hthreads, hsize, hnamed⟩ := h
  have hn : n < s.size := by omega
  obtain ⟨item, hitem, haddr, hblock, -⟩ := h.exists_shown hn
  obtain ⟨pairs', hnodes', h'⟩ := h.put hn ({ · with tid := some n })
    { shown base place copy item with tid := some n } (by
      intro other hother hcall
      rw [h.unique hitem hother (haddr.trans hcall.symm)]
      exact ⟨hcall, rfl, rfl⟩)
  refine ⟨(), _, ?_, pairs', hnodes'.trans hnodes, h', hthreads, hsize, ?_⟩
  · show (assign (place n) ({ · with tid := some n })) m = _
    simp [assign, Heap.modify_some _ hblock]
  · intro item hitem
    obtain ⟨old, hold, rfl⟩ := List.mem_map.mp hitem
    by_cases hcall : old.addr = n
    · rw [if_pos hcall, hcall]
      exact ⟨fun hzero => absurd hzero hpos.ne', fun _ _ => rfl⟩
    · rw [if_neg hcall]
      obtain ⟨hroot, hknown⟩ := hnamed old hold
      exact ⟨hroot, fun hpos hlt => hknown hpos (by omega)⟩

/-- `pthread_create` with the item that was added last. -/
theorem pthreadCreate_rel {nodes : List (Nat × Nat)} {threads tids : Nat} (hpos : 0 < threads)
    (h : Rel base place copy nodes threads tids (threads + 1) m s) :
    Returns (pthreadCreate (place threads)) m fun tid m' => tid = threads ∧
      Rel base place copy nodes (threads + 1) tids (threads + 1) m'
        { s with started := threads :: s.started } := by
  obtain ⟨pairs, hnodes, h, hthreads, hsize, hnamed⟩ := h
  refine ⟨_, _, rfl, hthreads, pairs, hnodes, ?_, by simp [hthreads], hsize, hnamed⟩
  constructor
  · exact h.list
  · exact h.linked
  · exact h.shows
  · exact h.calls
  · exact h.nodes
  · exact h.items
  · exact h.strings
  · intro k
    have hstarted := h.started k
    simp only [List.mem_cons, hstarted, List.length_append, List.length_singleton]
    omega
  · exact h.finished
  · exact h.stale
  · exact h.joined
  · show (m.threads ++ [some (place threads)])[0]? = some none
    rw [List.getElem?_append_left (by omega)]
    exact h.main
  · intro k hk hlt
    rw [List.length_append, List.length_singleton] at hlt
    show (m.threads ++ [some (place threads)])[k]? = some (some (place k)) ∧ k < s.size
    by_cases hlast : k = threads
    · rw [hlast, ← hthreads, List.getElem?_concat_length]
      exact ⟨rfl, by omega⟩
    · rw [List.getElem?_append_left (by omega)]
      exact h.threads k hk (by omega)

/-- A name for the address that one more call has been given. -/
theorem map_range_update (f : Nat → Nat) (n a : Nat) :
    ((List.range (n + 1)).map (Function.update f n a)).Perm (a :: (List.range n).map f) := by
  have hold : (List.range n).map (Function.update f n a) = (List.range n).map f := by
    apply List.map_congr_left
    intro k hk
    exact Function.update_of_ne (Nat.ne_of_lt (List.mem_range.mp hk)) ..
  rw [List.range_succ, List.map_append, List.map_singleton, Function.update_self, hold]
  exact List.perm_append_singleton _ _

/-- The item of the last call is at this address, and the first where it was. -/
def Added (base : Frame) (place : Nat → Nat) (threads tids n itemAdr : Nat) (m : Store)
    (s : Project2.State) : Prop :=
  ∃ place' copy nodes, itemAdr = place' n ∧ (0 < n → place' 0 = place 0) ∧
    Rel base place' copy nodes threads tids (n + 1) m s

/-- Insertion on the nodes is insertion in the list of items. -/
theorem addPath_items {pairs : List (Nat × Project2.Item)} (h : s.items = pairs.map Prod.snd)
    (newNode level : Nat) (text : Path) :
    (Project2.addPath level text s).items =
      (LevelList.insert (fun p => p.2.level) (newNode, ⟨s.size, level, 1, none, none, text⟩)
        pairs).map Prod.snd := by
  unfold Project2.addPath
  rw [h]
  exact LevelList.insert_map Prod.snd (fun _ => rfl) (newNode, _) pairs

/-- With the item and the path of one more call memory holds all that it held. -/
theorem Holds.shows_put {pairs : List (Nat × Project2.Item)} {newitem newcopy : Nat}
    (h : Holds base place copy pairs m s) (hfreshItem : m.items.block newitem = none)
    (hfreshCopy : m.strings.block newcopy = none) (level : Nat) (text : Path) :
    ∀ item ∈ ⟨s.size, level, 1, none, none, text⟩ :: s.items,
      (m.items.put newitem ⟨level, 1, none, base.stale newitem, newcopy⟩).block
          (Function.update place s.size newitem item.addr) =
        some (shown base (Function.update place s.size newitem)
          (Function.update copy s.size newcopy) item) ∧
      (m.strings.put newcopy text).block (Function.update copy s.size newcopy item.addr) =
        some item.path := by
  intro item hitem
  rcases List.mem_cons.mp hitem with rfl | hitem
  · simp only [shown, Function.update_self, Heap.put_block_self]
    exact ⟨rfl, trivial⟩
  · obtain ⟨hblock, hstring⟩ := h.shows item hitem
    have hold : item.addr ≠ s.size := Nat.ne_of_lt (h.addr_lt hitem)
    simp only [shown, Function.update_of_ne hold]
    rw [Heap.put_block_ne (Heap.ne_of_fresh hblock hfreshItem),
      Heap.put_block_ne (Heap.ne_of_fresh hstring hfreshCopy)]
    exact ⟨hblock, hstring⟩

/-- `AddPath` in memory inserts its item by level. -/
theorem addPath_rel (malloc : Allocator) {nodes : List (Nat × Nat)}
    {threads tids n level path : Nat} {text : Path} (hpath : base.strings path = some text)
    (htids : tids ≤ n) (h : Rel base place copy nodes threads tids n m s) :
    Returns (addPath malloc level path) m fun itemAdr m' =>
      itemAdr = malloc.item.address m.items ∧
        Added base place threads tids n itemAdr m' (Project2.addPath level text s) := by
  obtain ⟨pairs, hnodes, h, hthreads, hsize, hnamed⟩ := h
  obtain ⟨head, tail, hlist, hlinked⟩ := h.linked
  have htext := h.strings.block_eq hpath
  have hfreshItem := malloc.item.fresh m.items
  have hfreshNode := malloc.node.fresh m.nodes
  have hfreshCopy := malloc.string.fresh m.strings
  generalize hitemAt : malloc.item.address m.items = newitem at hfreshItem
  generalize hnodeAt : malloc.node.address m.nodes = newNode at hfreshNode
  generalize hcopyAt : malloc.string.address m.strings = newcopy at hfreshCopy
  let place' := Function.update place s.size newitem
  let copy' := Function.update copy s.size newcopy
  let new : Project2.Item := ⟨s.size, level, 1, none, none, text⟩
  let cell : Nat × Project2.Item → Nat × Nat := fun p => (p.1, place' p.2.addr)
  have hshows := h.shows_put hfreshItem hfreshCopy level text
  have hsnd : ∀ p ∈ pairs, p.2 ∈ s.items := fun p hp => h.list ▸ List.mem_map_of_mem hp
  have hcells : pairs.map cell = pairs.map fun p => (p.1, place p.2.addr) := by
    apply List.map_congr_left
    intro p hp
    have hplace : place' p.2.addr = place p.2.addr :=
      Function.update_of_ne (Nat.ne_of_lt (h.addr_lt (hsnd p hp))) ..
    simp only [cell, hplace]
  rw [← hcells] at hlinked
  generalize hitems : m.items.put newitem ⟨level, 1, none, base.stale newitem, newcopy⟩ = items
    at hshows
  have hranked : AddPath.Ranked (fun item => (items.block item).map fun x => (x.level : Int)) cell
      (fun p => p.2.level) level (newNode, new) pairs := by
    intro p hp
    obtain ⟨hblock, -⟩ := hshows p.2 (List.mem_cons_of_mem _ (hsnd p hp))
    refine ⟨p.2.level, ?_, Int.ofNat_lt, Int.ofNat_lt⟩
    simp only [cell, place', hblock]
    rfl
  have hfresh : m.nodes.block (cell (newNode, new)).1 = none := hfreshNode
  obtain ⟨nodes', head', tail', hinsert, hlinked'⟩ :=
    AddPath.insertNode_spec hlinked hfresh hranked h.length.le
  have hval : (cell (newNode, new)).2 = newitem := Function.update_self ..
  rw [hval] at hinsert
  have hperm : (LevelList.insert (fun p => p.2.level) (newNode, new) pairs).Perm
      ((newNode, new) :: pairs) := LevelList.insert_perm _ pairs
  have hmap := addPath_items h.list newNode level text
  have hmem : (Project2.addPath level text s).items.Perm (new :: s.items) := by
    rw [hmap, h.list]
    exact hperm.map Prod.snd
  refine ⟨newitem, { m with
    nodes := nodes', items := items, strings := m.strings.put newcopy text
    list := some ⟨head', tail', s.size + 1⟩ }, ?_, rfl, place', copy', _, ?_, ?_,
    LevelList.insert (fun p => p.2.level) (newNode, new) pairs, rfl, ?_, hthreads, ?_, ?_⟩
  · have hcall : AddPath.insertNode (fun item => (items.block item).map fun x => (x.level : Int))
        s.size m.nodes head tail newNode newitem level = some (nodes', head', tail') := hinsert
    show addPath malloc level path m = _
    simp only [addPath, hlist, htext, hitemAt, hnodeAt, hcopyAt, h.stale, hitems, hcall,
      Option.bind_eq_bind, Option.bind_some]
    rfl
  · rw [← hsize]
    exact (Function.update_self s.size newitem place).symm
  · intro hpos
    exact Function.update_of_ne (by omega) ..
  · constructor
    · exact hmap
    · exact ⟨head', tail', rfl, hlinked'⟩
    · intro item hitem
      exact hshows item (hmem.mem_iff.mp hitem)
    · apply (hmem.map _).trans
      show (s.size :: s.items.map Project2.Item.addr).Perm (List.range (s.size + 1))
      rw [List.range_succ]
      exact (h.calls.cons _).trans (List.perm_append_singleton _ _).symm
    · have hcellNodes : (pairs.map cell).map Prod.fst = pairs.map Prod.fst := by
        rw [List.map_map]
        rfl
      have hown := insertNode_owns hlinked (hcellNodes.symm ▸ h.nodes) hfreshNode hinsert
      rw [hcellNodes] at hown
      exact hown.perm (hperm.map Prod.fst)
    · rw [← hitems]
      exact (h.items.malloc hfreshItem).perm (map_range_update place s.size newitem)
    · exact (h.strings.malloc hfreshCopy).perm (map_range_update copy s.size newcopy)
    · exact h.started
    · exact h.finished
    · exact h.stale
    · exact h.joined
    · exact h.main
    · intro k hk hlt
      obtain ⟨hthread, hless⟩ := h.threads k hk hlt
      refine ⟨?_, Nat.lt_succ_of_lt hless⟩
      show m.threads[k]? = some (some (Function.update place s.size newitem k))
      rw [Function.update_of_ne (Nat.ne_of_lt hless)]
      exact hthread
  · show s.size + 1 = n + 1
    rw [hsize]
  · intro item hitem
    rcases List.mem_cons.mp (hmem.mem_iff.mp hitem) with rfl | hitem
    · refine ⟨fun _ => rfl, ?_⟩
      intro _ hlt
      have hlast : s.size < tids := hlt
      omega
    · exact hnamed item hitem

end Steps

section Visits

variable {fs : FileSystem} {malloc : Allocator} {keyword : Nat} {word : Path} {base : Frame}
  {s : Project2.State}

/-- Between two visits of sequential mode. -/
def SeqRel (base : Frame) (m : Store) (s : Project2.State) : Prop :=
  ∃ place copy nodes n, Rel base place copy nodes 1 0 n m s

/-- Between two visits of parallel mode. The first item has found a `tid` that is
joined without effect. -/
def ParRel (base : Frame) (m : Store) (s : Project2.State) : Prop :=
  ∃ place copy nodes n, 0 < n ∧ base.stale (place 0) = none ∧
    Rel base place copy nodes n n n m s

theorem Rel.load {place copy : Nat → Nat} {nodes : List (Nat × Nat)} {threads tids n : Nat}
    {m : Store} (h : Rel base place copy nodes threads tids n m s) {a : Nat} {text : Path}
    (ha : base.strings a = some text) :
    Returns (load a) m fun b m' => b = text ∧ m' = m := by
  obtain ⟨pairs, -, h, -⟩ := h
  refine ⟨text, m, ?_, rfl, rfl⟩
  show Memory.load a m = _
  simp [Memory.load, h.strings.block_eq ha]

/-- One visit of sequential mode. -/
theorem visitSeq_rel (hword : base.strings keyword = some word) {level path : Nat} {text : Path}
    (hpath : base.strings path = some text) {w : World Store Nat} (h : SeqRel base w.state s) :
    Returns (visitSeq fs malloc keyword level path) w fun _ v => ∃ t, SeqRel base v.state t ∧
      Reaches (fun w => some (Project2.visitSeq fs word level text w)) s t := by
  obtain ⟨place, copy, nodes, n, h⟩ := h
  have hsize : s.size = n := by
    obtain ⟨-, -, -, -, hsize, -⟩ := h
    exact hsize
  apply ((startSearch_keeps fs hword nodes 1 0 n).act
    (fun m s hm => (addPath_rel malloc hpath (Nat.zero_le n) hm).imp fun _ _ hboth => hboth.2)
    h).bind
  rintro itemAdr v ⟨t, ⟨place', copy', nodes', rfl, -, h'⟩, hadd⟩
  have hstep : ∀ m s, Rel base place' copy' nodes' 1 0 (n + 1) m s →
      Returns (do
        let text ← load path
        let word ← load keyword
        assign (place' n) ({ · with count := some (searchTest fs text word) })) m fun _ m' =>
          Rel base place' copy' nodes' 1 0 (n + 1) m' (Project2.assign n (fun item =>
            { item with count := some (searchTest fs text word) }) s) := by
    intro m s hm
    apply (hm.load hpath).bind
    rintro _ _ ⟨rfl, rfl⟩
    apply (hm.load hword).bind
    rintro _ _ ⟨rfl, rfl⟩
    exact assign_rel (Nat.lt_succ_self n) _ _ (fun _ haddr => ⟨haddr, rfl, rfl, rfl⟩) hm
  apply ((startSearch_keeps fs hword nodes' 1 0 (n + 1)).act hstep h').imp
  rintro - v' ⟨t', hlast, hassign⟩
  refine ⟨t', ⟨place', copy', nodes', n + 1, hlast⟩, ?_⟩
  rw [← hsize] at hassign
  obtain ⟨portions, hportions⟩ := hadd.bind hassign
  exact ⟨portions, hportions⟩

/-- Where the main thread is alone, nothing happens between its steps. -/
theorem alone_keeps (fs : FileSystem) (hword : base.strings keyword = some word)
    {place copy : Nat → Nat} (nodes : List (Nat × Nat)) (tids n : Nat) (items : Heap Item) :
    Keeps (startSearch fs keyword) (Project2.startSearch fs word)
      fun m s => Rel base place copy nodes 1 tids n m s ∧ m.items = items := by
  rintro m s k ⟨h, rfl⟩
  have hsame : startSearch fs keyword m k = some m := by
    obtain ⟨pairs, -, h, hthreads, -⟩ := h
    cases hthread : m.threads[k]?.join with
    | none => simp [startSearch, hthread]
    | some item =>
        obtain ⟨hk, -⟩ := List.getElem?_eq_some_iff.mp (Option.join_eq_some_iff.mp hthread)
        obtain rfl : k = 0 := by omega
        rw [h.main] at hthread
        cases hthread
  obtain ⟨m', hm, h'⟩ := startSearch_rel fs hword h k
  obtain rfl : m = m' := Option.some.inj (hsame.symm.trans hm)
  exact ⟨m, k, hm, h', rfl⟩

/-- The first lines of parallel mode. -/
theorem visitRoot_rel (hword : base.strings keyword = some word) {path : Nat} {text : Path}
    (hpath : base.strings path = some text) {w : World Store Nat} {place copy : Nat → Nat}
    {nodes : List (Nat × Nat)} (h : Rel base place copy nodes 1 0 0 w.state s)
    (hstale : base.stale (malloc.item.address w.state.items) = none) :
    Returns (visitRoot fs malloc keyword path) w fun _ v => ∃ t, ParRel base v.state t ∧
      Reaches (fun w => some (Project2.visitRoot fs word text w)) s t := by
  have hsize : s.size = 0 := by
    obtain ⟨-, -, -, -, hsize, -⟩ := h
    exact hsize
  apply ((alone_keeps fs hword nodes 0 0 w.state.items).act
    (q := fun itemAdr m t => itemAdr = malloc.item.address w.state.items ∧
      Added base place 1 0 0 itemAdr m t)
    (fun m s hm => hm.2 ▸ addPath_rel malloc hpath (Nat.le_refl 0) hm.1) ⟨h, rfl⟩).bind
  rintro itemAdr v ⟨t, ⟨haddress, place', copy', nodes', rfl, -, h'⟩, hadd⟩
  apply ((startSearch_keeps fs hword nodes' 1 0 1).act (fun m s hm =>
    assign_rel Nat.zero_lt_one _ ({ · with count := some 0 })
      (fun _ haddr => ⟨haddr, rfl, rfl, rfl⟩) hm) h').imp
  rintro - v' ⟨t', ⟨pairs, hnodes, hholds, hthreads, hsize', hnamed⟩, hassign⟩
  refine ⟨t', ⟨place', copy', nodes', 1, Nat.zero_lt_one, haddress ▸ hstale, pairs, hnodes, hholds,
    hthreads, hsize', ?_⟩, ?_⟩
  · intro item hitem
    refine ⟨(hnamed item hitem).1, ?_⟩
    intro hpos hlt
    omega
  · rw [← hsize] at hassign
    obtain ⟨portions, hportions⟩ := hadd.bind hassign
    exact ⟨portions, hportions⟩

/-- One visit of parallel mode. Between the creation of the thread and the
assignment of its id the item has no name for its thread. -/
theorem visitPar_rel (hword : base.strings keyword = some word) {level path : Nat} {text : Path}
    (hpath : base.strings path = some text) {w : World Store Nat} (h : ParRel base w.state s) :
    Returns (visitPar fs malloc keyword level path) w fun _ v => ∃ t, ParRel base v.state t ∧
      Reaches (fun w => some (Project2.visitPar fs word level text w)) s t := by
  obtain ⟨place, copy, nodes, n, hpos, hstale, h⟩ := h
  have hsize : s.size = n := by
    obtain ⟨-, -, -, -, hsize, -⟩ := h
    exact hsize
  apply ((startSearch_keeps fs hword nodes n n n).act
    (fun m s hm => (addPath_rel malloc hpath (Nat.le_refl n) hm).imp fun _ _ hboth => hboth.2)
    h).bind
  rintro itemAdr v ⟨t, ⟨place', copy', nodes', rfl, hfirst, h'⟩, hadd⟩
  apply ((startSearch_keeps fs hword nodes' n n (n + 1)).act (fun m s hm =>
    assign_rel (Nat.lt_succ_self n) _ ({ · with count := some 69 })
      (fun _ haddr => ⟨haddr, rfl, rfl, rfl⟩) hm) h').bind
  rintro - v ⟨t₂, h₂, hcount⟩
  apply ((startSearch_keeps fs hword nodes' n n (n + 1)).act
    (q := fun tid m t => tid = n ∧ Rel base place' copy' nodes' (n + 1) n (n + 1) m t)
    (g := fun s => { s with started := n :: s.started })
    (fun m s hm => pthreadCreate_rel hpos hm) h₂).bind
  rintro tid v ⟨t₃, ⟨rfl, h₃⟩, hcreate⟩
  apply ((startSearch_keeps fs hword nodes' (tid + 1) tid (tid + 1)).act
    (fun m s hm => assign_tid_rel hpos hm) h₃).imp
  rintro - v' ⟨t₄, h₄, htid⟩
  refine ⟨t₄, ⟨place', copy', nodes', tid + 1, Nat.succ_pos tid, ?_, h₄⟩, ?_⟩
  · exact (hfirst hpos).symm ▸ hstale
  rw [← hsize] at hcount hcreate htid
  obtain ⟨portions, hportions⟩ := hadd.bind (hcount.bind (hcreate.bind htid))
  exact ⟨portions, hportions⟩

end Visits

section Walk

/-- One more string among the blocks that are not the list's. -/
def Frame.lend (base : Frame) (a : Nat) (text : Path) : Frame :=
  { base with strings := Function.update base.strings a (some text) }

theorem Frame.lend_self (base : Frame) (a : Nat) (text : Path) :
    (base.lend a text).strings a = some text := Function.update_self ..

theorem Frame.lend_of_some {base : Frame} {a k : Nat} {text word : Path}
    (hk : base.strings k = some word) (ha : base.strings a = none) :
    (base.lend a text).strings k = some word := by
  have hne : k ≠ a := by
    rintro rfl
    rw [ha] at hk
    cases hk
  exact (Function.update_of_ne hne ..).trans hk

variable {base : Frame} {place copy : Nat → Nat} {nodes : List (Nat × Nat)} {threads tids n a : Nat}
  {m : Store} {s : Project2.State} {text : Path}

theorem Rel.lend (h : Rel base place copy nodes threads tids n m s)
    (ha : m.strings.block a = none) :
    base.strings a = none ∧ Rel (base.lend a text) place copy nodes threads tids n
      { m with strings := m.strings.put a text } s := by
  obtain ⟨pairs, hnodes, h, hthreads, hsize, hnamed⟩ := h
  refine ⟨h.strings.base_none ha, pairs, hnodes, ?_, hthreads, hsize, hnamed⟩
  exact { h with
    shows := by
      intro item hitem
      obtain ⟨hblock, hpath⟩ := h.shows item hitem
      exact ⟨hblock, (Heap.put_block_ne (Heap.ne_of_fresh hpath ha)).trans hpath⟩
    strings := h.strings.lend ha }

theorem Rel.restore (ha : base.strings a = none)
    (h : Rel (base.lend a text) place copy nodes threads tids n m s) :
    Rel base place copy nodes threads tids n { m with strings := m.strings.erase a } s := by
  obtain ⟨pairs, hnodes, h, hthreads, hsize, hnamed⟩ := h
  refine ⟨pairs, hnodes, ?_, hthreads, hsize, hnamed⟩
  exact { h with
    shows := by
      intro item hitem
      obtain ⟨hblock, hpath⟩ := h.shows item hitem
      refine ⟨hblock, (Heap.erase_block_ne ?_).trans hpath⟩
      rintro rfl
      have hfresh := h.strings.fresh (copy item.addr)
        (List.mem_map_of_mem (List.mem_range.mpr (h.addr_lt hitem)))
      rw [Frame.lend_self] at hfresh
      cases hfresh
    strings := h.strings.restore ha }

/-- What the walk needs of a relation between memory and the list: strings may
come and go. -/
structure Walks (inv : Frame → Store → Project2.State → Prop) : Prop where
  found : ∀ base m s a text, inv base m s → base.strings a = some text →
    m.strings.block a = some text
  lend : ∀ base m s a text, inv base m s → m.strings.block a = none →
    base.strings a = none ∧ inv (base.lend a text) { m with strings := m.strings.put a text } s
  restore : ∀ base m s a text, base.strings a = none → inv (base.lend a text) m s →
    inv base { m with strings := m.strings.erase a } s

theorem seqRel_walks : Walks SeqRel where
  found := by
    rintro base m s a text ⟨place, copy, nodes, n, pairs, -, h, -⟩ ha
    exact h.strings.block_eq ha
  lend := by
    rintro base m s a text ⟨place, copy, nodes, n, h⟩ ha
    obtain ⟨hnone, hlent⟩ := h.lend ha
    exact ⟨hnone, place, copy, nodes, n, hlent⟩
  restore := by
    rintro base m s a text ha ⟨place, copy, nodes, n, h⟩
    exact ⟨place, copy, nodes, n, h.restore ha⟩

theorem parRel_walks : Walks ParRel where
  found := by
    rintro base m s a text ⟨place, copy, nodes, n, -, -, pairs, -, h, -⟩ ha
    exact h.strings.block_eq ha
  lend := by
    rintro base m s a text ⟨place, copy, nodes, n, hpos, hstale, h⟩ ha
    obtain ⟨hnone, hlent⟩ := h.lend ha
    exact ⟨hnone, place, copy, nodes, n, hpos, hstale, hlent⟩
  restore := by
    rintro base m s a text ha ⟨place, copy, nodes, n, hpos, hstale, h⟩
    exact ⟨place, copy, nodes, n, hpos, hstale, h.restore ha⟩

variable {fs : FileSystem} {malloc : Allocator} {keyword : Nat} {word : Path}
  {inv : Frame → Store → Project2.State → Prop}

theorem Walks.load (hinv : Walks inv) {w : World Store Nat} (h : inv base w.state s)
    (ha : base.strings a = some text) :
    Returns (perform (load a)) w fun b v => b = text ∧ v = w := by
  apply perform_returns
  refine ⟨text, w.state, ?_, rfl, rfl⟩
  show Memory.load a w.state = _
  simp [Memory.load, hinv.found base w.state s a text h ha]

/-- A program between `malloc` and `free` of a string. -/
theorem Walks.lent (hinv : Walks inv) (malloc : Allocator) (text : Path) {w : World Store Nat}
    (h : inv base w.state s) {p : Nat → Program Unit} {post : Project2.State → Prop}
    (hp : ∀ a v, base.strings a = none → inv (base.lend a text) v.state s →
      Returns (p a) v fun _ u => ∃ t, inv (base.lend a text) u.state t ∧ post t) :
    Returns (withString malloc text p) w fun _ v => ∃ t, inv base v.state t ∧ post t := by
  obtain ⟨hnone, hlent⟩ := hinv.lend base w.state s _ text h (malloc.string.fresh w.state.strings)
  have hdup : Returns (perform (strdup malloc text)) w fun a v =>
      base.strings a = none ∧ inv (base.lend a text) v.state s :=
    perform_returns ⟨_, _, rfl, hnone, hlent⟩
  apply hdup.bind
  rintro a v ⟨ha, hv⟩
  apply (hp a v ha hv).bind
  rintro - u ⟨t, hu, hpost⟩
  apply perform_returns
  have hin := hinv.found _ u.state t a text hu (base.lend_self a text)
  refine ⟨(), _, ?_, t, hinv.restore base u.state t a text ha hu, hpost⟩
  show freeString a u.state = _
  simp [freeString, Heap.free_some hin]

section Loop

variable {visit : Nat → Nat → Program Unit}
  {plain : Nat → Path → World Project2.State Nat → World Project2.State Nat}

/-- What one visit does to the relation. -/
def VisitRel (inv : Frame → Store → Project2.State → Prop) (keyword : Nat) (word : Path)
    (visit : Nat → Nat → Program Unit)
    (plain : Nat → Path → World Project2.State Nat → World Project2.State Nat) : Prop :=
  ∀ base level path text w s, base.strings keyword = some word →
    base.strings path = some text → inv base w.state s →
    Returns (visit level path) w fun _ v => ∃ t, inv base v.state t ∧
      Reaches (fun w => some (plain level text w)) s t

/-- Visits one after the other. -/
def visitAll (plain : Nat → Path → World Project2.State Nat → World Project2.State Nat)
    (visited : List (Nat × Path)) (w : World Project2.State Nat) :
    Option (World Project2.State Nat) :=
  some (visited.foldl (fun w v => plain v.1 v.2 w) w)

theorem visitAll_append {first second : List (Nat × Path)} {s t u : Project2.State}
    (hfirst : Reaches (visitAll plain first) s t) (hsecond : Reaches (visitAll plain second) t u) :
    Reaches (visitAll plain (first ++ second)) s u := by
  obtain ⟨portions, hportions⟩ := hfirst.bind hsecond
  refine ⟨portions, ?_⟩
  intro later
  rw [← hportions later, visitAll, List.foldl_append]
  rfl

/-- One entry of a directory. -/
theorem printEntry_rel (hinv : Walks inv) (hvisit : VisitRel inv keyword word visit plain)
    {below : Nat → Program Unit} {belowVisits : Path → Option (List (Nat × Path))}
    (hbelow : ∀ base chpath text w s visited, base.strings keyword = some word →
      base.strings chpath = some text → inv base w.state s → belowVisits text = some visited →
      Returns (below chpath) w fun _ v => ∃ t, inv base v.state t ∧
        Reaches (visitAll plain visited) s t)
    {path level : Nat} {w : World Store Nat} {entry : Dirent} {visited : List (Nat × Path)}
    (hword : base.strings keyword = some word) (hpath : base.strings path = some text)
    (h : inv base w.state s)
    (hvisits : entryVisits Project2.maxPathSize belowVisits text level entry = some visited) :
    Returns (printEntry malloc visit below path level entry) w fun _ v =>
      ∃ t, inv base v.state t ∧ Reaches (visitAll plain visited) s t := by
  unfold entryVisits at hvisits
  unfold printEntry
  cases hhidden : entry.hidden with
  | true =>
      rw [hhidden] at hvisits
      cases hvisits
      exact Returns.pure ⟨s, h, Reaches.refl s⟩
  | false =>
      simp only [hhidden, Bool.false_eq_true, if_false] at hvisits ⊢
      apply (hinv.load h hpath).bind
      rintro name world ⟨rfl, rfl⟩
      split at hvisits
      · cases hvisits
      · rename_i hfits
        rw [if_neg hfits]
        have hself : Returns (withString malloc (join name entry.dName) (visit level)) world
            fun _ v => ∃ t, inv base v.state t ∧
              Reaches (visitAll plain [(level, join name entry.dName)]) s t :=
          hinv.lent malloc _ h fun a v ha hv =>
            hvisit _ level a _ v s (Frame.lend_of_some hword ha) (base.lend_self a _) hv
        apply hself.bind
        rintro - v ⟨t, hv, hreach⟩
        split at hvisits
        · rename_i hdir
          rw [if_pos hdir]
          obtain ⟨part, hpart, rfl⟩ := Option.map_eq_some_iff.mp hvisits
          apply (hinv.load hv hpath).bind
          rintro _ _ ⟨rfl, rfl⟩
          have hdown := hinv.lent malloc _ hv fun a u ha hu =>
            hbelow _ a _ u t part (Frame.lend_of_some hword ha) (base.lend_self a _) hu hpart
          apply hdown.imp
          rintro - u ⟨t', hu, hreach'⟩
          exact ⟨t', hu, visitAll_append hreach hreach'⟩
        · rename_i hfile
          rw [if_neg hfile]
          cases hvisits
          exact Returns.pure ⟨t, hv, hreach⟩

/-- The entries of a directory, one after the other. -/
theorem printEntries_rel {body : Dirent → Program Unit}
    {entryVisits : Dirent → Option (List (Nat × Path))}
    (hbody : ∀ entry w s visited, inv base w.state s → entryVisits entry = some visited →
      Returns (body entry) w fun _ v => ∃ t, inv base v.state t ∧
        Reaches (visitAll plain visited) s t)
    (entries : List Dirent) {w : World Store Nat} {parts : List (List (Nat × Path))}
    (h : inv base w.state s) (hparts : entries.mapM entryVisits = some parts) :
    Returns (entries.forM body) w fun _ v => ∃ t, inv base v.state t ∧
      Reaches (visitAll plain parts.flatten) s t := by
  induction entries generalizing w s parts with
  | nil =>
      cases hparts
      exact Returns.pure ⟨s, h, Reaches.refl s⟩
  | cons entry rest ih =>
      rw [List.mapM_cons] at hparts
      simp only [Option.bind_eq_bind, Option.bind_eq_some_iff] at hparts
      obtain ⟨part, hpart, others, hothers, heq⟩ := hparts
      cases heq
      show Returns (body entry >>= fun _ => rest.forM body) w _
      apply (hbody entry w s part h hpart).bind
      rintro - v ⟨t, hv, hreach⟩
      apply (ih hv hothers).imp
      rintro - u ⟨t', hu, hreach'⟩
      exact ⟨t', hu, visitAll_append hreach hreach'⟩

/-- The walk in memory visits what there is to visit. -/
theorem printDir_rel (hinv : Walks inv) (hvisit : VisitRel inv keyword word visit plain)
    (fuel : Nat) {path level : Nat} {w : World Store Nat} {visited : List (Nat × Path)}
    (hword : base.strings keyword = some word) (hpath : base.strings path = some text)
    (h : inv base w.state s)
    (hvisits : visits fs.opendir Project2.maxPathSize fuel text level = some visited) :
    Returns (printDir fs malloc visit fuel path level) w fun _ v => ∃ t, inv base v.state t ∧
      Reaches (visitAll plain visited) s t := by
  induction fuel generalizing base path level text w s visited with
  | zero => cases hvisits
  | succ fuel ih =>
      simp only [visits, Option.bind_eq_bind, Option.bind_eq_some_iff] at hvisits
      obtain ⟨entries, hopen, parts, hparts, heq⟩ := hvisits
      cases heq
      unfold printDir
      apply (hinv.load h hpath).bind
      rintro name world ⟨rfl, rfl⟩
      have hentries : Returns (liftM (fs.opendir name) : Program (List Dirent)) world
          fun b v => b = entries ∧ v = world := Returns.lift hopen ⟨rfl, rfl⟩
      apply hentries.bind
      rintro listed world' ⟨rfl, rfl⟩
      apply printEntries_rel _ listed h hparts
      intro entry v t visited hv hentry
      exact printEntry_rel hinv hvisit (fun _ _ _ _ _ _ hword hchild hw => ih hword hchild hw)
        hword hpath hv hentry

end Loop

end Walk

end Cse420.Lister.Memory
