import Cse420.Lister.MemoryStages

/-!
The end of the program, and the program as a whole. When the writer is done no
worker is left to run, so the list may be freed; and what is freed is exactly what
was allocated. From its first `strdup` to its last `free` the program writes the
file that the list of items gives, and leaves memory as it found it.
-/

namespace Cse420.Lister.Memory

open DoublyLinked Interference

section Destroy

variable {fs : FileSystem} {keyword : Nat} {word : Path} {base : Frame} {place copy : Nat → Nat}
  {m : Store} {s : Project2.State} {threads tids n : Nat}

/-- No thread but the main one is left. -/
def AllEnded (m : Store) : Prop :=
  m.threads[0]? = some none ∧ ∀ k, 0 < k → k < m.threads.length → k ∈ m.finished

theorem AllEnded.startSearch (h : AllEnded m) (k : Nat) :
    startSearch fs keyword m k = some m := by
  unfold Memory.startSearch
  split
  · rfl
  · rename_i item hitem
    have hpos : 0 < k := by
      rcases Nat.eq_zero_or_pos k with rfl | hpos
      · rw [h.1] at hitem
        cases hitem
      · exact hpos
    have hlt : k < m.threads.length := by
      by_contra hle
      rw [List.getElem?_eq_none (by omega)] at hitem
      cases hitem
    rw [if_pos (h.2 k hpos hlt)]

/-- What is left of the list, from one node on. -/
structure Left (base : Frame) (place copy : Nat → Nat) (cells : List (Nat × Nat))
    (cur : Option Nat) (m : Store) : Prop where
  follows : Follows Cell.next m.nodes.block cur (cells.map fun c => (c.1, place c.2))
  found : ∀ c ∈ cells, ∃ x, m.items.block (place c.2) = some x ∧ x.path = copy c.2
  nodes : m.nodes.Owns base.nodes (cells.map Prod.fst)
  items : m.items.Owns base.items (cells.map fun c => place c.2)
  strings : m.strings.Owns base.strings (cells.map fun c => copy c.2)
  ended : AllEnded m

/-- One node, its item and its path are freed. -/
theorem destroy_round {c : Nat × Nat} {cells : List (Nat × Nat)} {cur : Option Nat}
    (h : Left base place copy (c :: cells) cur m) :
    ∃ next m₁ m₂ m₃, cur = some c.1 ∧ (freePath c.1).run m = some ((), m₁) ∧ AllEnded m₁ ∧
      (freeItem c.1).run m₁ = some ((), m₂) ∧ AllEnded m₂ ∧
      (Memory.next cur).run m₂ = some (next, m₂) ∧
      (freeNode c.1).run m₂ = some ((), m₃) ∧ m₃.list = m.list ∧
      Left base place copy cells next m₃ := by
  obtain ⟨rfl, cell, hcell, hval, hfollows⟩ := h.follows
  obtain ⟨⟨x, hx, hpath⟩, hfound⟩ := List.forall_mem_cons.mp h.found
  have hstring : (m.strings.block (copy c.2)).isSome := h.strings.used _ List.mem_cons_self
  obtain ⟨text, htext⟩ := Option.isSome_iff_exists.mp hstring
  have hval : cell.val = place c.2 := hval
  refine ⟨cell.next, { m with strings := m.strings.erase (copy c.2) },
    { m with strings := m.strings.erase (copy c.2), items := m.items.erase (place c.2) },
    { m with
      strings := m.strings.erase (copy c.2), items := m.items.erase (place c.2)
      nodes := m.nodes.erase c.1 }, rfl, ?_, h.ended, ?_, h.ended, ?_, ?_, rfl, ?_⟩
  · show freePath c.1 m = _
    simp [freePath, Store.itemAt, hcell, hval, hx, hpath, Heap.free_some htext]
  · show freeItem c.1 { m with strings := m.strings.erase (copy c.2) } = _
    simp [freeItem, hcell, hval, Heap.free_some hx]
  · show Memory.next (some c.1) { m with
      strings := m.strings.erase (copy c.2), items := m.items.erase (place c.2) } = _
    simp [Memory.next, Heap.read, hcell]
  · show freeNode c.1 { m with
      strings := m.strings.erase (copy c.2), items := m.items.erase (place c.2) } = _
    simp [freeNode, Heap.free_some hcell]
  · have hapart := List.nodup_cons.mp h.nodes.nodup
    have hapartItem := List.nodup_cons.mp h.items.nodup
    constructor
    · apply hfollows.congr
      intro a ha
      apply Heap.erase_block_ne
      rintro rfl
      rw [List.map_map] at ha
      exact hapart.1 ha
    · intro d hd
      obtain ⟨y, hy, hcopy⟩ := hfound d hd
      refine ⟨y, (Heap.erase_block_ne ?_).trans hy, hcopy⟩
      intro heq
      apply hapartItem.1
      show place c.2 ∈ _
      rw [← heq]
      exact List.mem_map_of_mem hd
    · exact h.nodes.free
    · exact h.items.free
    · exact h.strings.free
    · exact h.ended

/-- The loop of `destroySDLL`. -/
theorem destroyLoop_left (cells : List (Nat × Nat)) (fuel : Nat) {cur : Option Nat}
    {w : World Store Nat} (hfuel : cells.length < fuel)
    (h : Left base place copy cells cur w.state) :
    Returns (destroyLoop fs keyword fuel cur) w fun _ v =>
      Left base place copy [] none v.state ∧ v.state.list = w.state.list := by
  induction cells generalizing fuel cur w with
  | nil =>
      obtain ⟨fuel, rfl⟩ : ∃ k, fuel = k + 1 := ⟨fuel - 1, by simp at hfuel; omega⟩
      obtain rfl : cur = none := h.follows
      exact Returns.pure ⟨h, rfl⟩
  | cons c cells ih =>
      obtain ⟨fuel, rfl⟩ : ∃ k, fuel = k + 1 := ⟨fuel - 1, by omega⟩
      obtain ⟨next, m₁, m₂, m₃, rfl, hpath, hend₁, hitem, hend₂, hnext, hnode, hlist, hleft⟩ :=
        destroy_round h
      unfold destroyLoop
      apply (act?_quiet h.ended.startSearch hpath).bind
      rintro - v ⟨-, rfl⟩
      apply (act?_quiet hend₁.startSearch hitem).bind
      rintro - v ⟨-, rfl⟩
      apply (perform_read hnext).bind
      rintro _ v ⟨rfl, rfl⟩
      apply (act?_quiet hend₂.startSearch hnode).bind
      rintro - v' ⟨-, rfl⟩
      apply (ih fuel (by simpa using hfuel) hleft).imp
      rintro - u ⟨hdone, hsame⟩
      exact ⟨hdone, hsame.trans hlist⟩

/-- The list when the writer has waited for all workers. -/
theorem Rel.left {nodes : List (Nat × Nat)} (h : Rel base place copy nodes threads tids n m s)
    (hended : ∀ c ∈ nodes, 0 < c.2 → c.2 < threads → c.2 ∈ m.finished) :
    Left base place copy nodes (nodes.head?.map Prod.fst) m := by
  obtain ⟨pairs, rfl, h, rfl, rfl, -⟩ := h
  obtain ⟨head, tail, hlist, hlinked⟩ := h.linked
  have hcells : (order pairs).map (fun c => (c.1, place c.2)) =
      pairs.map fun p => (p.1, place p.2.addr) := by
    rw [order, List.map_map]
    rfl
  have hcalls := h.order_calls
  have hmaps : ∀ f : Nat → Nat,
      ((order pairs).map fun c => f c.2).Perm ((List.range s.size).map f) := by
    intro f
    have hmap := hcalls.map f
    rw [List.map_map] at hmap
    exact hmap
  constructor
  · rw [hcells]
    have hfollows := hlinked.chain.follows_next
    cases pairs with
    | nil => exact hfollows
    | cons p rest => exact hfollows
  · intro c hc
    obtain ⟨p, hp, rfl⟩ := List.mem_map.mp hc
    have hitem : p.2 ∈ s.items := h.list ▸ List.mem_map_of_mem hp
    exact ⟨_, (h.shows p.2 hitem).1, rfl⟩
  · have hfst : (order pairs).map Prod.fst = pairs.map Prod.fst := by
      rw [order, List.map_map]
      rfl
    rw [hfst]
    exact h.nodes
  · exact h.items.perm (hmaps place)
  · exact h.strings.perm (hmaps copy)
  · refine ⟨h.main, ?_⟩
    intro k hpos hlt
    have hsize := (h.threads k hpos hlt).2
    obtain ⟨c, hc, rfl⟩ := List.mem_map.mp (hcalls.mem_iff.mpr (List.mem_range.mpr hsize))
    exact hended c hc hpos hlt

/-- `destroySDLL` frees the list and nothing else. -/
theorem destroySDLL_returns {nodes : List (Nat × Nat)} {w : World Store Nat}
    (h : Rel base place copy nodes threads tids n w.state s)
    (hended : ∀ c ∈ nodes, 0 < c.2 → c.2 < threads → c.2 ∈ w.state.finished) :
    Returns (destroySDLL fs keyword) w fun _ v => v.state.nodes.block = base.nodes ∧
      v.state.items.block = base.items ∧ v.state.strings.block = base.strings ∧
      v.state.list = none ∧ AllEnded v.state := by
  unfold destroySDLL
  apply (perform_read h.size).bind
  rintro _ v ⟨rfl, rfl⟩
  apply (perform_read h.head).bind
  rintro _ v' ⟨rfl, rfl⟩
  have hlength := h.length
  apply (destroyLoop_left nodes _ (by omega) (h.left hended)).bind
  rintro - u ⟨hleft, hlist⟩
  obtain ⟨tail, hblock⟩ := h.list
  have hfree : freeList.run u.state = some ((), { u.state with list := none }) := by
    show freeList u.state = _
    simp [freeList, hlist, hblock]
  apply (act?_quiet hleft.ended.startSearch hfree).imp
  rintro - v'' ⟨-, hv⟩
  rw [hv]
  exact ⟨hleft.nodes.restored, hleft.items.restored, hleft.strings.restored, rfl, hleft.ended⟩

end Destroy

section Main

variable {fs : FileSystem} {malloc : Allocator} {root word : Path}

/-- An empty list. -/
theorem start_rel (nodes : Heap (Cell Nat)) (items : Heap Item) (strings : Heap Path)
    (stale : Nat → Option Nat) :
    Rel ⟨nodes.block, items.block, strings.block, stale, []⟩ id id [] 1 0 0
      { start nodes items strings stale with list := some ⟨none, none, 0⟩ } ⟨[], 0, [], []⟩ := by
  refine ⟨[], rfl, ?_, rfl, rfl, by simp [Named]⟩
  constructor
  · rfl
  · exact ⟨none, none, rfl, Linked.nil⟩
  · simp
  · exact List.Perm.nil
  · exact Heap.Owns.nil nodes
  · exact Heap.Owns.nil items
  · exact Heap.Owns.nil strings
  · intro k
    have hlength : (start nodes items strings stale).threads.length = 1 := rfl
    simp only [List.not_mem_nil, hlength, false_iff]
    omega
  · rfl
  · rfl
  · rfl
  · rfl
  · intro k hpos hlt
    have hlength : (start nodes items strings stale).threads.length = 1 := rfl
    simp only [hlength] at hlt
    omega

/-- The walk in either mode. In parallel mode all threads can be joined if the first
item finds a `tid` that is answered without effect. -/
theorem printDir_returns (runMode : Project2.RunMode) {base : Frame} {keyword path fuel : Nat}
    {visited : List (Nat × Path)} {w : World Store Nat}
    (hword : base.strings keyword = some word) (hpath : base.strings path = some root)
    (h : Rel base id id [] 1 0 0 w.state ⟨[], 0, [], []⟩)
    (hstale : runMode = .parallel → base.stale (malloc.item.address w.state.items) = none)
    (hvisits : visits fs.opendir Project2.maxPathSize fuel root 2 = some visited) :
    Returns (match runMode with
        | .parallel => printDirPar fs malloc keyword fuel path 1
        | .sequential => printDirSeq fs malloc keyword fuel path 1) w
      fun _ v => ∃ place copy nodes threads tids n t,
        Rel base place copy nodes threads tids n v.state t ∧
        Joins runMode base place threads tids n ∧
        Reaches (match runMode with
          | .parallel => Project2.printDirPar fs word fuel root 1
          | .sequential => Project2.printDirSeq fs word fuel root 1) ⟨[], 0, [], []⟩ t := by
  cases runMode with
  | parallel =>
      show Returns (visitRoot fs malloc keyword path >>= fun _ =>
        printDir fs malloc (visitPar fs malloc keyword) fuel path 2) w _
      apply (visitRoot_rel hword hpath h (hstale rfl)).bind
      rintro - v ⟨t, hv, hroot⟩
      have hvisit : VisitRel ParRel keyword word (visitPar fs malloc keyword)
          (Project2.visitPar fs word) := fun _ _ _ _ _ _ hword hpath h =>
        visitPar_rel hword hpath h
      apply (printDir_rel parRel_walks hvisit fuel hword hpath hv hvisits).imp
      rintro - u ⟨t', ⟨place, copy, nodes, n, -, hroot', hu⟩, hwalk⟩
      refine ⟨place, copy, nodes, n, n, n, t', hu, ⟨rfl, rfl, hroot'⟩, ?_⟩
      obtain ⟨portions, hportions⟩ := hroot.bind hwalk
      refine ⟨portions, ?_⟩
      intro later
      show Project2.printDirPar fs word fuel root 1 _ = _
      simp only [Project2.printDirPar, walk_eq_visits, hvisits, Option.map_some, if_true]
      exact hportions later
  | sequential =>
      show Returns (visitSeq fs malloc keyword 1 path >>= fun _ =>
        printDir fs malloc (visitSeq fs malloc keyword) fuel path 2) w _
      apply (visitSeq_rel hword hpath ⟨id, id, [], 0, h⟩).bind
      rintro - v ⟨t, hv, hroot⟩
      have hvisit : VisitRel SeqRel keyword word (visitSeq fs malloc keyword)
          (Project2.visitSeq fs word) := fun _ _ _ _ _ _ hword hpath h =>
        visitSeq_rel hword hpath h
      apply (printDir_rel seqRel_walks hvisit fuel hword hpath hv hvisits).imp
      rintro - u ⟨t', ⟨place, copy, nodes, n, hu⟩, hwalk⟩
      refine ⟨place, copy, nodes, 1, 0, n, t', hu, rfl, ?_⟩
      obtain ⟨portions, hportions⟩ := hroot.bind hwalk
      refine ⟨portions, ?_⟩
      intro later
      show Project2.printDirSeq fs word fuel root 1 _ = _
      simp only [Project2.printDirSeq, walk_eq_visits, hvisits, Option.map_some, if_true]
      exact hportions later

section Stages

variable {base : Frame} {place copy : Nat → Nat} {keyword fuel threads tids n : Nat}
  {s : Project2.State} {w : World Store Nat}

theorem sortChildren_returns {first : Nat} {behind : List Nat}
    (hword : base.strings keyword = some word)
    (h : Stage base place copy (first :: behind) threads tids n w.state s)
    (hends : ∀ schedule, (Project2.sortHelper fs word fuel ⟨s, schedule⟩).isSome) :
    Returns (sortChildren fs keyword (fuel + 1)) w fun _ v => ∃ t,
      Stage base place copy (first :: behind) threads tids n v.state t ∧
      Reaches (Project2.sortHelper fs word fuel) s t := by
  unfold sortChildren
  apply (perform_read h.head_run).bind
  rintro _ v ⟨rfl, rfl⟩
  exact sortHelper_rel hword fuel h hends

theorem numberChildren_returns {first : Nat} {behind : List Nat}
    (hword : base.strings keyword = some word)
    (h : Stage base place copy (first :: behind) threads tids n w.state s) :
    Returns (numberChildren fs keyword) w fun _ v => ∃ nodes t,
      Rel base place copy nodes threads tids n v.state t ∧
      Reaches (Project2.numberChildren fs word) s t := by
  have hrounds : n - 1 = behind.length := by
    rw [← h.length.1]
    rfl
  have hsize : s.size = n := by
    obtain ⟨-, -, -, -, -, -, hsize, -⟩ := h
    exact hsize
  have hfirst : Stage base place copy ([] ++ first :: behind) threads tids n w.state s := h
  unfold numberChildren
  apply (perform_read h.size_run).bind
  rintro _ v ⟨rfl, rfl⟩
  apply (perform_read h.head_run).bind
  rintro _ v' ⟨rfl, rfl⟩
  rw [hrounds]
  apply (numberLoop_rel hword behind [] first 1 hfirst).imp
  rintro - u ⟨t, ⟨nodes, -, hu⟩, portions, hportions⟩
  refine ⟨nodes, t, hu, portions, ?_⟩
  intro later
  show Project2.numberLoop fs word (s.size - 1) 0 1 _ = _
  rw [hsize, hrounds]
  exact hportions later

theorem fileWriter_returns (runMode : Project2.RunMode) {nodes : List (Nat × Nat)}
    (hword : base.strings keyword = some word)
    (h : Rel base place copy nodes threads tids n w.state s)
    (hjoins : Joins runMode base place threads tids n) (hnone : base.joined = []) :
    Returns (fileWriter fs keyword runMode) w fun lines v => ∃ t portions joined,
      Rel { base with joined } place copy nodes threads tids n v.state t ∧
      Project2.fileWriter fs word runMode ⟨s, portions⟩ = lines ∧
      ∀ c ∈ nodes, 0 < c.2 → c.2 < threads → c.2 ∈ v.state.finished := by
  have hlength := h.length
  have hitems : s.items.length = n := by
    obtain ⟨pairs, -, hholds, -, hsize, -⟩ := h
    rw [hholds.list, List.length_map, hholds.length, hsize]
  unfold fileWriter
  apply (perform_read h.size).bind
  rintro n v ⟨rfl, rfl⟩
  apply (perform_read h.head).bind
  rintro _ v' ⟨rfl, rfl⟩
  have hwritten : Written runMode base place copy [] ([] ++ nodes) threads tids n v'.state s :=
    ⟨base.joined, h, by simp [hnone], by simp⟩
  apply (writeLoop_rel hword runMode hjoins nodes [] _ (by omega) hwritten).imp
  rintro lines u ⟨t, portions, ⟨joined, hu, -, hended⟩, hlines⟩
  refine ⟨t, portions, joined, hu, ?_, ?_⟩
  · have hplain := hlines []
    rw [List.append_nil, hlength] at hplain
    unfold Project2.fileWriter
    rw [hitems]
    exact hplain
  · intro c hc hpos hlt
    cases runMode with
    | sequential =>
        have hone : threads = 1 := hjoins
        omega
    | parallel => exact hended rfl c hc hpos hlt

end Stages

/-- What the walk and the loops of the list of items do, for any portions. -/
theorem plain_ends {fuel : Nat} {visited : List (Nat × Path)} {keys : List Project2.Key}
    {runMode : Project2.RunMode} {t : Project2.State} (hopen : (fs.opendir root).isSome)
    (hvisits : visits fs.opendir Project2.maxPathSize fuel root 2 = some visited)
    (hsort : BubbleSort.sort Project2.Key.later fuel
      (Project2.placed ((1, root) :: visited) []) = some keys)
    (hwalk : Reaches (match runMode with
      | .parallel => Project2.printDirPar fs word fuel root 1
      | .sequential => Project2.printDirSeq fs word fuel root 1) ⟨[], 0, [], []⟩ t) :
    t.size = visited.length + 1 ∧
      ∀ schedule, (Project2.sortHelper fs word fuel ⟨t, schedule⟩).isSome := by
  obtain ⟨portions, hportions⟩ := hwalk
  obtain ⟨w, hw, hsize, hkeys, -⟩ :=
    Project2.printDir_spec word runMode (portions ++ []) hopen hvisits
  have hsame : w = ⟨t, []⟩ := by
    have hplain := hportions []
    cases runMode with
    | parallel => exact Option.some.inj (hw.symm.trans hplain)
    | sequential => exact Option.some.inj (hw.symm.trans hplain)
  rw [hsame] at hsize hkeys
  refine ⟨hsize, ?_⟩
  intro schedule
  have hlength : t.size = ((1, root) :: visited).length := hsize
  have hlasting : Project2.Lasting fs word (Project2.Kept fs word t) := Project2.kept_lasting t
  obtain ⟨v, u, hv, -⟩ := Project2.ordered_spec hlasting (w := ⟨t, schedule⟩)
    (Project2.Kept.refl t) hlength hkeys hsort
  rw [hv]
  rfl

/-- All the stages on the list of items are its `main`. -/
theorem plain_main {fuel : Nat} {runMode : Project2.RunMode} {t t₂ t₃ : Project2.State}
    {portions : List (List Nat)} {lines : List Project2.Record}
    (hwalk : Reaches (match runMode with
      | .parallel => Project2.printDirPar fs word fuel root 1
      | .sequential => Project2.printDirSeq fs word fuel root 1) ⟨[], 0, [], []⟩ t)
    (hsort : Reaches (Project2.sortHelper fs word fuel) t t₂)
    (hnumber : Reaches (Project2.numberChildren fs word) t₂ t₃)
    (hlines : Project2.fileWriter fs word runMode ⟨t₃, portions⟩ = lines) :
    ∃ schedule, Project2.main fs word runMode root fuel schedule = some lines := by
  obtain ⟨first, hfirst⟩ := hwalk
  obtain ⟨second, hsecond⟩ := hsort
  obtain ⟨third, hthird⟩ := hnumber
  refine ⟨first ++ (second ++ (third ++ portions)), ?_⟩
  have hstart := hfirst (second ++ (third ++ portions))
  unfold Project2.main
  cases runMode with
  | parallel =>
      simp only at hstart
      simp only [hstart, hsecond, hthird, hlines, Option.bind_eq_bind, Option.bind_some]
      rfl
  | sequential =>
      simp only at hstart
      simp only [hstart, hsecond, hthird, hlines, Option.bind_eq_bind, Option.bind_some]
      rfl

theorem strdup_returns (malloc : Allocator) (text : Path) (w : World Store Nat) :
    Returns (perform (ε := Nat) (strdup malloc text)) w fun a v =>
      a = malloc.string.address w.state.strings ∧
        v = ⟨{ w.state with strings := w.state.strings.put a text }, w.schedule⟩ :=
  perform_returns ⟨_, _, rfl, rfl, rfl⟩

theorem freeString_returns {fs : FileSystem} {keyword : Nat} {a : Nat} {text : Path}
    {w : World Store Nat} (hquiet : AllEnded w.state)
    (hblock : w.state.strings.block a = some text) :
    Returns (act? (startSearch fs keyword) (freeString a)) w fun _ v =>
      v.state = { w.state with strings := w.state.strings.erase a } := by
  have hfree : (freeString a).run w.state =
      some ((), { w.state with strings := w.state.strings.erase a }) := by
    show freeString a w.state = _
    simp [freeString, Heap.free_some hblock]
  apply (act?_quiet hquiet.startSearch hfree).imp
  rintro - v ⟨-, hv⟩
  exact hv

/-- Two blocks that were taken and freed again. -/
theorem erase_erase_put {heap heap' : Heap Path} {a b : Nat} {x y : Path}
    (ha : heap.block a = none) (hb : heap.block b = none)
    (hsame : heap'.block = ((heap.put a x).put b y).block) :
    ((heap'.erase a).erase b).block = heap.block := by
  funext d
  rcases eq_or_ne d b with rfl | hdb
  · rw [hb]
    exact Function.update_self ..
  · refine (Heap.erase_block_ne hdb).trans ?_
    rcases eq_or_ne d a with rfl | hda
    · rw [ha]
      exact Function.update_self ..
    · rw [Heap.erase_block_ne hda, hsame, Heap.put_block_ne hdb, Heap.put_block_ne hda]

/-- The program as a whole, from any memory and under any schedule. -/
theorem main_returns (word : Path) {fuel : Nat} {visited : List (Nat × Path)}
    {keys : List Project2.Key}
    (hopen : (fs.opendir root).isSome)
    (hvisits : visits fs.opendir Project2.maxPathSize fuel root 2 = some visited)
    (hsort : BubbleSort.sort Project2.Key.later fuel
      (Project2.placed ((1, root) :: visited) []) = some keys)
    (malloc : Allocator) (runMode : Project2.RunMode) (nodes : Heap (Cell Nat))
    (items : Heap Item) (strings : Heap Path) (stale : Nat → Option Nat)
    (hstale : runMode = .parallel → stale (malloc.item.address items) = none)
    (schedule : List (List Nat)) :
    Returns (main fs malloc runMode root word fuel) ⟨start nodes items strings stale, schedule⟩
      fun out v => (∃ plain, Project2.main fs word runMode root fuel plain = some out) ∧
        v.state.nodes.block = nodes.block ∧ v.state.items.block = items.block ∧
        v.state.strings.block = strings.block ∧ v.state.list = none := by
  -- the copies of the two arguments
  have hfresha := malloc.string.fresh strings
  generalize ha : malloc.string.address strings = a at hfresha
  have hfreshb := malloc.string.fresh (strings.put a root)
  generalize hb : malloc.string.address (strings.put a root) = b at hfreshb
  have hne : a ≠ b := Heap.ne_of_fresh Heap.put_block_self hfreshb
  have hnone : strings.block b = none := by
    rw [← hfreshb, Heap.put_block_ne hne.symm]
  have hinit : Returns (perform (ε := Nat) initList)
      ⟨start nodes items ((strings.put a root).put b word) stale, schedule⟩ fun _ v =>
        Rel ⟨nodes.block, items.block, ((strings.put a root).put b word).block, stale, []⟩ id id []
          1 0 0 v.state ⟨[], 0, [], []⟩ ∧ v.state.items = items :=
    perform_returns ⟨_, _, rfl, start_rel nodes items ((strings.put a root).put b word) stale, rfl⟩
  have hword : ((strings.put a root).put b word).block b = some word := Heap.put_block_self
  have hpath : ((strings.put a root).put b word).block a = some root :=
    (Heap.put_block_ne hne).trans Heap.put_block_self
  unfold main
  apply (strdup_returns malloc root _).bind
  rintro _ _ ⟨rfl, rfl⟩
  apply (strdup_returns malloc word _).bind
  rintro _ _ ⟨rfl, rfl⟩
  simp only [start, ha, hb]
  apply hinit.bind
  rintro - w ⟨h, hheap⟩
  rw [← hheap] at hstale
  apply (printDir_returns runMode hword hpath h hstale hvisits).bind
  rintro - w₁ ⟨place, copy, cells, threads, tids, n, t, h₁, hjoins, hwalk⟩
  obtain ⟨hsize, hends⟩ := plain_ends hopen hvisits hsort hwalk
  have hlength : cells.length = visited.length + 1 := by
    rw [← hsize, h₁.length]
    obtain ⟨-, -, -, -, hsame, -⟩ := h₁
    exact hsame.symm
  obtain ⟨c, behind, rfl⟩ := List.exists_cons_of_length_eq_add_one hlength
  have hstage : Stage _ place copy (c.1 :: behind.map Prod.fst) threads tids n w₁.state t :=
    ⟨c :: behind, rfl, h₁⟩
  apply (sortChildren_returns hword hstage hends).bind
  rintro - w₂ ⟨t₂, h₂, hsorted⟩
  apply (numberChildren_returns hword h₂).bind
  rintro - w₃ ⟨cells', t₃, h₃, hnumbered⟩
  apply (fileWriter_returns runMode hword h₃ hjoins rfl).bind
  rintro out w₄ ⟨t₄, portions, joined, h₄, hlines, hended⟩
  apply (destroySDLL_returns h₄ hended).bind
  rintro - w₅ ⟨hnodes, hitems, hstrings, hlist, hquiet⟩
  have hstrings : w₅.state.strings.block = ((strings.put a root).put b word).block := hstrings
  rw [← hstrings] at hpath hword
  apply (freeString_returns hquiet hpath).bind
  rintro - w₆ hw₆
  have hkey : w₆.state.strings.block b = some word := by
    rw [hw₆]
    exact (Heap.erase_block_ne hne.symm).trans hword
  have hquiet' : AllEnded w₆.state := by
    rw [hw₆]
    exact hquiet
  apply (freeString_returns hquiet' hkey).bind
  rintro - w₇ hw₇
  apply Returns.pure
  rw [hw₇, hw₆]
  exact ⟨plain_main hwalk hsorted hnumbered hlines, hnodes, hitems,
    erase_erase_put hfresha hnone hstrings, hlist⟩

/-- With enough rounds the walk through a tree and the sort come to their ends. -/
theorem open_ends (htree : OpenTree fs.opendir Project2.maxPathSize root) :
    ∃ N visited keys, (fs.opendir root).isSome ∧ ∀ fuel, N ≤ fuel →
      visits fs.opendir Project2.maxPathSize fuel root 2 = some visited ∧
      BubbleSort.sort Project2.Key.later fuel (Project2.placed ((1, root) :: visited) []) =
        some keys := by
  obtain ⟨visited, hvisits⟩ := visits_open htree
  obtain ⟨n, keys, hsort⟩ := BubbleSort.sort_ends Project2.Key.later_asymm
    (Project2.placed ((1, root) :: visited 2) [])
  have hopen : (fs.opendir root).isSome := by
    cases htree with
    | node hopen => simp [hopen]
  have hpos : 0 < Project2.maxPathSize := by decide
  refine ⟨Project2.maxPathSize + n, visited 2, keys, hopen, ?_⟩
  intro fuel hfuel
  exact ⟨hvisits 2 fuel _ (by omega) (by omega) (Nat.le_refl _), hsort fuel (by omega)⟩

/-- In both modes, for every allocator and wherever the workers come to their ends,
the program in memory writes the file that the list of items gives. In parallel mode
what the first item finds as its `tid` has to be answered without effect. -/
theorem main_refines (htree : OpenTree fs.opendir Project2.maxPathSize root) (word : Path) :
    ∃ N out, ∀ fuel, N ≤ fuel → ∀ runMode,
      (∀ schedule, Project2.main fs word runMode root fuel schedule = some out) ∧
      ∀ malloc nodes items strings stale schedule,
        (runMode = .parallel → stale (malloc.item.address items) = none) → ∃ w,
        (main fs malloc runMode root word fuel).run ⟨start nodes items strings stale, schedule⟩ =
          some (out, w) := by
  obtain ⟨N, visited, keys, hopen, hends⟩ := open_ends htree
  refine ⟨N, (Project2.numberedAll keys).map (Project2.Key.record fs word), ?_⟩
  intro fuel hfuel runMode
  obtain ⟨hvisits, hsort⟩ := hends fuel hfuel
  have hplain : ∀ schedule, Project2.main fs word runMode root fuel schedule =
      some ((Project2.numberedAll keys).map (Project2.Key.record fs word)) :=
    Project2.main_eq hopen hvisits hsort runMode
  refine ⟨hplain, ?_⟩
  intro malloc nodes items strings stale schedule hstale
  obtain ⟨out, w, hrun, ⟨plain, hout⟩, -⟩ :=
    main_returns word hopen hvisits hsort malloc runMode nodes items strings stale hstale schedule
  rw [hplain plain, Option.some.injEq] at hout
  exact ⟨w, hout ▸ hrun⟩

/-- In both modes, for every allocator and wherever the workers come to their ends,
the program never uses or frees a block that is not allocated and joins no thread
twice, and when it returns every block that it has allocated is free again. In
parallel mode what the first item finds as its `tid` has to be answered without
effect. -/
theorem main_memory_safe (htree : OpenTree fs.opendir Project2.maxPathSize root) (word : Path) :
    ∃ N, ∀ fuel, N ≤ fuel → ∀ malloc runMode nodes items strings stale schedule,
      (runMode = .parallel → stale (malloc.item.address items) = none) → ∃ out w,
      (main fs malloc runMode root word fuel).run ⟨start nodes items strings stale, schedule⟩ =
        some (out, w) ∧
      w.state.nodes.block = nodes.block ∧ w.state.items.block = items.block ∧
      w.state.strings.block = strings.block ∧ w.state.list = none := by
  obtain ⟨N, visited, keys, hopen, hends⟩ := open_ends htree
  refine ⟨N, ?_⟩
  intro fuel hfuel malloc runMode nodes items strings stale schedule hstale
  obtain ⟨hvisits, hsort⟩ := hends fuel hfuel
  obtain ⟨out, w, hrun, -, hrestored⟩ :=
    main_returns word hopen hvisits hsort malloc runMode nodes items strings stale hstale schedule
  exact ⟨out, w, hrun, hrestored⟩

/-- An allocator that never uses a block again. -/
def bump : Allocator := ⟨.bump, .bump, .bump⟩

theorem main_refines_small :
    ∃ N out, ∀ fuel, N ≤ fuel → ∀ runMode schedule schedule', ∃ w,
      Project2.main Project2.smallTree (CMemory.text "int") runMode (CMemory.text "r") fuel
        schedule = some out ∧
      (main Project2.smallTree bump runMode (CMemory.text "r") (CMemory.text "int") fuel).run
        ⟨start .empty .empty .empty fun _ => none, schedule'⟩ = some (out, w) := by
  obtain ⟨N, out, hmain⟩ :=
    main_refines Project2.smallTree_dirTree.opens (CMemory.text "int")
  refine ⟨N, out, ?_⟩
  intro fuel hfuel runMode schedule schedule'
  obtain ⟨hplain, hmemory⟩ := hmain fuel hfuel runMode
  obtain ⟨w, hw⟩ := hmemory bump .empty .empty .empty (fun _ => none) schedule' fun _ => rfl
  exact ⟨w, hplain schedule, hw⟩

theorem main_memory_safe_small :
    ∃ N, ∀ fuel, N ≤ fuel → ∀ runMode schedule, ∃ out w,
      (main Project2.smallTree bump runMode (CMemory.text "r") (CMemory.text "int") fuel).run
        ⟨start .empty .empty .empty fun _ => none, schedule⟩ = some (out, w) ∧
      w.state.nodes.block = Heap.empty.block ∧ w.state.items.block = Heap.empty.block ∧
      w.state.strings.block = Heap.empty.block ∧ w.state.list = none := by
  obtain ⟨N, hmain⟩ :=
    main_memory_safe Project2.smallTree_dirTree.opens (CMemory.text "int")
  refine ⟨N, ?_⟩
  intro fuel hfuel runMode schedule
  exact hmain fuel hfuel bump runMode .empty .empty .empty (fun _ => none) schedule fun _ => rfl

end Main

end Cse420.Lister.Memory
