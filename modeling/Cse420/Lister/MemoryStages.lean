import Cse420.Lister.MemoryWalk

/-!
The stages behind the walk: the sort exchanges the items of two nodes, the
numbering writes into them, the writer waits for every worker, and the rest of
the program frees what there is. Workers may come to their ends in between, until
all have been waited for.
-/

namespace Cse420.Lister.Memory

open DoublyLinked Interference

section Places

variable {base : Frame} {place copy : Nat → Nat} {m : Store} {s : Project2.State}
  {front rest : List (Nat × Project2.Item)} {a : Nat} {x : Project2.Item}

theorem Rel.split {before behind : List (Nat × Nat)} {c : Nat × Nat} {threads tids n : Nat}
    (h : Rel base place copy (before ++ c :: behind) threads tids n m s) :
    ∃ front x rest, order front = before ∧ x.addr = c.2 ∧ order rest = behind ∧
      Holds base place copy (front ++ (c.1, x) :: rest) m s ∧ m.threads.length = threads ∧
      s.size = n ∧ Named tids s.items := by
  obtain ⟨pairs, hnodes, h, hothers⟩ := h
  obtain ⟨front, others, rfl, hfront, hbehind⟩ := List.map_eq_append_iff.mp hnodes
  obtain ⟨p, rest, rfl, hp, hrest⟩ := List.map_eq_cons_iff.mp hbehind
  subst hp
  exact ⟨front, p.2, rest, hfront, rfl, hrest, h, hothers⟩

theorem Holds.mem (h : Holds base place copy (front ++ (a, x) :: rest) m s) : x ∈ s.items := by
  rw [h.list]
  simp

theorem Holds.node_eq (h : Holds base place copy (front ++ (a, x) :: rest) m s) :
    ∃ prev, m.nodes.block a = some ⟨prev, place x.addr, rest.head?.map Prod.fst⟩ := by
  obtain ⟨head, tail, -, hlinked⟩ := h.linked
  rw [List.map_append, List.map_cons] at hlinked
  refine ⟨last none (front.map fun p => (p.1, place p.2.addr)), ?_⟩
  rw [hlinked.block_eq]
  cases rest <;> rfl

theorem Holds.itemAt_eq (h : Holds base place copy (front ++ (a, x) :: rest) m s) :
    m.itemAt a = some (place x.addr, shown base place copy x) := by
  obtain ⟨prev, hnode⟩ := h.node_eq
  simp [Store.itemAt, hnode, (h.shows x h.mem).1]

theorem Holds.string_eq (h : Holds base place copy (front ++ (a, x) :: rest) m s) :
    m.strings.block (copy x.addr) = some x.path := (h.shows x h.mem).2

theorem Holds.getElem (h : Holds base place copy (front ++ (a, x) :: rest) m s) :
    s.items[front.length]? = some x := by
  rw [h.list, List.map_append, List.getElem?_append_right (by simp)]
  simp

theorem Holds.getElem_next (h : Holds base place copy (front ++ (a, x) :: rest) m s) :
    s.items[front.length + 1]? = rest.head?.map Prod.snd := by
  rw [h.list, List.map_append, List.getElem?_append_right (by simp)]
  cases rest <;> simp

/-- `curNode->next`. -/
theorem Holds.next (h : Holds base place copy (front ++ (a, x) :: rest) m s) :
    (next (some a)).run m = some (rest.head?.map Prod.fst, m) := by
  obtain ⟨prev, hnode⟩ := h.node_eq
  show Memory.next (some a) m = _
  simp [Memory.next, Heap.read, hnode]

theorem Rel.next {before behind : List (Nat × Nat)} {c : Nat × Nat} {threads tids n : Nat}
    (h : Rel base place copy (before ++ c :: behind) threads tids n m s) :
    (Memory.next (some c.1)).run m = some (behind.head?.map Prod.fst, m) := by
  obtain ⟨front, x, rest, -, -, rfl, h, -⟩ := h.split
  rw [h.next]
  cases rest <;> rfl

/-- What stands in the `size` and the `head` of the list. -/
theorem Rel.list {nodes : List (Nat × Nat)} {threads tids n : Nat}
    (h : Rel base place copy nodes threads tids n m s) :
    ∃ tail, m.list = some ⟨nodes.head?.map Prod.fst, tail, n⟩ := by
  obtain ⟨pairs, rfl, h, -, rfl, -⟩ := h
  obtain ⟨head, tail, hlist, hlinked⟩ := h.linked
  refine ⟨tail, hlist.trans ?_⟩
  rw [hlinked.head]
  cases pairs <;> rfl

theorem Rel.size {nodes : List (Nat × Nat)} {threads tids n : Nat}
    (h : Rel base place copy nodes threads tids n m s) : Memory.size.run m = some (n, m) := by
  obtain ⟨tail, hlist⟩ := h.list
  show Memory.size m = _
  simp [Memory.size, hlist]

theorem Rel.head {nodes : List (Nat × Nat)} {threads tids n : Nat}
    (h : Rel base place copy nodes threads tids n m s) :
    Memory.head.run m = some (nodes.head?.map Prod.fst, m) := by
  obtain ⟨tail, hlist⟩ := h.list
  show Memory.head m = _
  simp [Memory.head, hlist]

theorem Rel.length {nodes : List (Nat × Nat)} {threads tids n : Nat}
    (h : Rel base place copy nodes threads tids n m s) : nodes.length = n := by
  obtain ⟨pairs, rfl, h, -, rfl, -⟩ := h
  rw [order, List.length_map, h.length]

end Places

section Sorting

variable {base : Frame} {place copy : Nat → Nat} {m : Store} {s : Project2.State}
  {front rest : List (Nat × Project2.Item)} {a b : Nat} {x y : Project2.Item}

theorem later_holds (h : Holds base place copy (front ++ (a, x) :: (b, y) :: rest) m s) :
    (later a b).run m = some (decide (x.level = y.level ∧ 0 < strcmp x.path y.path), m) := by
  have hb := h
  rw [List.append_cons] at hb
  have hx : m.strings.block (shown base place copy x).path = some x.path := h.string_eq
  have hy : m.strings.block (shown base place copy y).path = some y.path := hb.string_eq
  show later a b m = _
  simp only [later, h.itemAt_eq, hb.itemAt_eq, hx, hy, Option.bind_eq_bind, Option.bind_some]
  rfl

/-- The items of two neighbours after the exchange. -/
theorem exchange_items (h : Holds base place copy (front ++ (a, x) :: (b, y) :: rest) m s) :
    (s.items.set front.length y).set (front.length + 1) x =
      (front ++ (a, y) :: (b, x) :: rest).map Prod.snd := by
  rw [h.list, List.map_append, List.set_append_right _ _ (by simp),
    List.set_append_right _ _ (by simp)]
  simp

theorem exchange_linked {nodes : Heap (Cell Nat)} {head tail : Option Nat} {c d : Nat × Nat}
    {before behind : List (Nat × Nat)}
    (h : Linked nodes.block head tail (before ++ c :: d :: behind)) :
    ∃ nodes' : Heap (Cell Nat), (∀ m : Store, m.nodes = nodes →
        exchange c.1 d.1 m = some ((), { m with nodes := nodes' })) ∧
      Linked nodes'.block head tail (before ++ (c.1, d.2) :: (d.1, c.2) :: behind) ∧
      ∀ base owned, c.1 ∈ owned → d.1 ∈ owned → nodes.Owns base owned →
        nodes'.Owns base owned := by
  have hc := h.block_eq
  have hd := h.next_eq
  have hne : c.1 ≠ d.1 := h.neighbours_ne
  let first' : Cell Nat := ⟨last none before, d.2, first (d :: behind) none⟩
  let second' : Cell Nat := ⟨some c.1, c.2, first behind none⟩
  have hfirst : Linked (nodes.put c.1 first').block head tail
      (before ++ (c.1, d.2) :: d :: behind) :=
    h.setVal Heap.put_block_self fun a ha => Heap.put_block_ne ha
  have hd' : (nodes.put c.1 first').block d.1 = some ⟨some c.1, d.2, first behind none⟩ :=
    (Heap.put_block_ne hne.symm).trans hd
  refine ⟨(nodes.put c.1 first').put d.1 second', ?_, ?_, ?_⟩
  · rintro m rfl
    simp only [exchange, hc, hd, Option.bind_eq_bind, Option.bind_some, Heap.modify_some _ hc]
    rw [Heap.modify_some _ hd']
    rfl
  · rw [List.append_cons] at hfirst ⊢
    apply hfirst.setVal
    · rw [last_append]
      exact Heap.put_block_self
    · intro a ha
      exact Heap.put_block_ne ha
  · intro base owned hcin hdin hown
    exact (hown.put hcin).put hdin

theorem exchange_perm (h : Holds base place copy (front ++ (a, x) :: (b, y) :: rest) m s) :
    ((s.items.set front.length y).set (front.length + 1) x).Perm s.items := by
  rw [exchange_items h, h.list]
  simp only [List.map_append, List.map_cons]
  exact (List.Perm.swap _ _ _).append_left _

theorem exchange_holds (h : Holds base place copy (front ++ (a, x) :: (b, y) :: rest) m s) :
    ∃ nodes, (exchange a b).run m = some ((), { m with nodes }) ∧
      Holds base place copy (front ++ (a, y) :: (b, x) :: rest) { m with nodes }
        { s with items := (s.items.set front.length y).set (front.length + 1) x } := by
  have hitems := exchange_items h
  have hperm := exchange_perm h
  obtain ⟨head, tail, hlist, hlinked⟩ := h.linked
  rw [List.map_append, List.map_cons, List.map_cons] at hlinked
  obtain ⟨nodes, hrun, hlinked', howns⟩ := exchange_linked hlinked
  refine ⟨nodes, hrun m rfl, ?_⟩
  constructor
  · exact hitems
  · refine ⟨head, tail, hlist, ?_⟩
    rw [List.map_append, List.map_cons, List.map_cons]
    exact hlinked'
  · intro item hitem
    exact h.shows item (hperm.mem_iff.mp hitem)
  · exact (hperm.map _).trans h.calls
  · have hfst : (front ++ (a, y) :: (b, x) :: rest).map Prod.fst =
        (front ++ (a, x) :: (b, y) :: rest).map Prod.fst := by simp
    rw [hfst]
    exact howns _ _ (by simp) (by simp) h.nodes
  · exact h.items
  · exact h.strings
  · exact h.started
  · exact h.finished
  · exact h.stale
  · exact h.joined
  · exact h.main
  · exact h.threads

variable {fs : FileSystem} {keyword : Nat} {word : Path} {threads tids n : Nat}

/-- The list while items change their nodes. -/
def Stage (base : Frame) (place copy : Nat → Nat) (addrs : List Nat) (threads tids n : Nat)
    (m : Store) (s : Project2.State) : Prop :=
  ∃ nodes, nodes.map Prod.fst = addrs ∧ Rel base place copy nodes threads tids n m s

theorem stage_keeps (fs : FileSystem) (hword : base.strings keyword = some word)
    (addrs : List Nat) (threads tids n : Nat) :
    Keeps (startSearch fs keyword) (Project2.startSearch fs word)
      (Stage base place copy addrs threads tids n) := by
  rintro m s k ⟨nodes, haddrs, h⟩
  obtain ⟨m', hm, h'⟩ := startSearch_rel fs hword h k
  exact ⟨m', k, hm, nodes, haddrs, h'⟩

theorem Stage.split {before behind : List Nat} {cur : Nat}
    (h : Stage base place copy (before ++ cur :: behind) threads tids n m s) :
    ∃ front x rest, front.map Prod.fst = before ∧ rest.map Prod.fst = behind ∧
      Holds base place copy (front ++ (cur, x) :: rest) m s ∧ m.threads.length = threads ∧
      s.size = n ∧ Named tids s.items := by
  obtain ⟨nodes, haddrs, h⟩ := h
  obtain ⟨first, others, rfl, hfirst, hbehind⟩ := List.map_eq_append_iff.mp haddrs
  obtain ⟨c, second, rfl, rfl, hsecond⟩ := List.map_eq_cons_iff.mp hbehind
  obtain ⟨front, x, rest, rfl, -, rfl, hholds⟩ := h.split
  refine ⟨front, x, rest, ?_, ?_, hholds⟩
  · rw [← hfirst, order, List.map_map]
    rfl
  · rw [← hsecond, order, List.map_map]
    rfl

theorem Stage.of_holds {pairs : List (Nat × Project2.Item)} (h : Holds base place copy pairs m s)
    (hthreads : m.threads.length = threads) (hsize : s.size = n) (hnamed : Named tids s.items) :
    Stage base place copy (pairs.map Prod.fst) threads tids n m s := by
  refine ⟨order pairs, ?_, pairs, rfl, h, hthreads, hsize, hnamed⟩
  rw [order, List.map_map]
  rfl

theorem Stage.next {before behind : List Nat} {cur : Nat}
    (h : Stage base place copy (before ++ cur :: behind) threads tids n m s) :
    (Memory.next (some cur)).run m = some (behind.head?, m) := by
  obtain ⟨front, x, rest, -, rfl, h, -⟩ := h.split
  rw [h.next, List.head?_map]

/-- The inner loop of the sort, from one node to the tail. -/
theorem sortPass_rel (hword : base.strings keyword = some word) (behind before : List Nat)
    (cur fuel : Nat) (swap : Bool) {w : World Store Nat} (hfuel : behind.length < fuel)
    (h : Stage base place copy (before ++ cur :: behind) threads tids n w.state s) :
    Returns (sortPass fs keyword fuel cur swap) w fun r v => ∃ t portions,
      Stage base place copy (before ++ cur :: behind) threads tids n v.state t ∧
      r.1 = behind.getLastD cur ∧
      ∀ later, Project2.sortPass fs word (behind.length + 1) before.length swap
        ⟨s, portions ++ later⟩ = (r.2, ⟨t, later⟩) := by
  induction behind generalizing before cur fuel swap w s with
  | nil =>
      obtain ⟨fuel, rfl⟩ : ∃ k, fuel = k + 1 := ⟨fuel - 1, by simp at hfuel; omega⟩
      unfold sortPass
      apply ((stage_keeps fs hword _ threads tids n).act (g := id)
        (q := fun b m t => b = none ∧
          Stage base place copy (before ++ [cur]) threads tids n m t)
        (fun m t hm => ⟨none, m, hm.next, rfl, hm⟩) h).bind
      rintro - v ⟨t, ⟨rfl, hv⟩, portions, hportions⟩
      apply Returns.pure
      refine ⟨t, portions, hv, rfl, ?_⟩
      intro later
      have htick : tick (Project2.startSearch fs word) ⟨s, portions ++ later⟩ = ⟨t, later⟩ :=
        Option.some.inj (hportions later)
      obtain ⟨front, x, rest, rfl, hrest, hv, -⟩ := hv.split
      obtain rfl : rest = [] := List.map_eq_nil_iff.mp hrest
      have hhere := hv.getElem
      have hnext := hv.getElem_next
      rw [List.length_map]
      simp only [Project2.sortPass, htick, hhere, hnext, List.head?_nil, Option.map_none]
  | cons next behind ih =>
      obtain ⟨fuel, rfl⟩ : ∃ k, fuel = k + 1 := ⟨fuel - 1, by omega⟩
      unfold sortPass
      apply ((stage_keeps fs hword _ threads tids n).act (g := id)
        (q := fun b m t => b = some next ∧
          Stage base place copy (before ++ cur :: next :: behind) threads tids n m t)
        (fun m t hm => ⟨some next, m, hm.next, rfl, hm⟩) h).bind
      rintro - v ⟨t, ⟨rfl, hv⟩, portions, hportions⟩
      obtain ⟨front, x, others, hfront, hothers, hholds, hthreads, hsize, hnamed⟩ := hv.split
      obtain ⟨p, rest, rfl, hp, hrest⟩ := List.map_eq_cons_iff.mp hothers
      obtain ⟨b, y⟩ := p
      obtain rfl : b = next := hp
      have hlength : front.length = before.length := by
        rw [← hfront, List.length_map]
      have hlater := later_holds hholds
      have hhere := hholds.getElem
      have hnext := hholds.getElem_next
      rw [hlength] at hhere hnext
      have hplain : ∀ k later, Project2.sortPass fs word (k + 1) before.length swap
          ⟨s, portions ++ later⟩ =
            if x.level = y.level ∧ 0 < strcmp x.path y.path then
              Project2.sortPass fs word k (before.length + 1) true ⟨{ t with
                items := (t.items.set before.length y).set (before.length + 1) x }, later⟩
            else Project2.sortPass fs word k (before.length + 1) swap ⟨t, later⟩ := by
        intro k later
        have htick : tick (Project2.startSearch fs word) ⟨s, portions ++ later⟩ = ⟨t, later⟩ :=
          Option.some.inj (hportions later)
        simp only [Project2.sortPass, htick, hhere, hnext, List.head?_cons, Option.map_some]
      have hstep : before.length + 1 = (before ++ [cur]).length := by simp
      show Returns (perform (later cur b) >>= fun cond => if cond = true then _ else _) v _
      have hcond : Returns (perform (ε := Nat) (later cur b)) v fun c u =>
          c = decide (x.level = y.level ∧ 0 < strcmp x.path y.path) ∧ u = v :=
        perform_returns ⟨_, _, hlater, rfl, rfl⟩
      apply hcond.bind
      rintro c u ⟨rfl, rfl⟩
      by_cases hswap : x.level = y.level ∧ 0 < strcmp x.path y.path
      · rw [if_pos (decide_eq_true hswap)]
        obtain ⟨nodes, hrun, hholds'⟩ := exchange_holds hholds
        have hnamed' : Named tids
            ((t.items.set front.length y).set (front.length + 1) x) := fun item hitem =>
          hnamed item ((exchange_perm hholds).mem_iff.mp hitem)
        have hstage := Stage.of_holds hholds' hthreads hsize hnamed'
        have haddrs : (front ++ (cur, y) :: (b, x) :: rest).map Prod.fst =
            before ++ [cur] ++ b :: behind := by
          rw [← hfront, ← hrest]
          simp
        rw [haddrs, hlength] at hstage
        have hexchange : Returns (perform (ε := Nat) (exchange cur b)) u fun _ v =>
            v = ⟨{ u.state with nodes }, u.schedule⟩ := perform_returns ⟨_, _, hrun, rfl⟩
        apply hexchange.bind
        rintro - v rfl
        apply (ih (before ++ [cur]) b fuel true (by simpa using hfuel) hstage).imp
        rintro r v' ⟨t', portions', hv', hlast, hrest'⟩
        refine ⟨t', portions ++ portions', ?_, ?_, ?_⟩
        · rw [List.append_cons]
          exact hv'
        · rw [hlast, List.getLastD_cons]
        · intro later
          have hbehind := hrest' later
          rw [← hstep] at hbehind
          rw [List.append_assoc, List.length_cons, hplain, if_pos hswap]
          exact hbehind
      · rw [if_neg (by simpa using hswap)]
        rw [List.append_cons] at hv
        apply (ih (before ++ [cur]) b fuel swap (by simpa using hfuel) hv).imp
        rintro r v' ⟨t', portions', hv', hlast, hrest'⟩
        refine ⟨t', portions ++ portions', ?_, ?_, ?_⟩
        · rw [List.append_cons]
          exact hv'
        · rw [hlast, List.getLastD_cons]
        · intro later
          have hbehind := hrest' later
          rw [← hstep] at hbehind
          rw [List.append_assoc, List.length_cons, hplain, if_neg hswap]
          exact hbehind

theorem Stage.size_run {addrs : List Nat} (h : Stage base place copy addrs threads tids n m s) :
    Memory.size.run m = some (n, m) := by
  obtain ⟨nodes, -, h⟩ := h
  exact h.size

theorem Stage.head_run {addrs : List Nat} (h : Stage base place copy addrs threads tids n m s) :
    Memory.head.run m = some (addrs.head?, m) := by
  obtain ⟨nodes, rfl, h⟩ := h
  rw [List.head?_map]
  exact h.head

theorem Stage.length {addrs : List Nat} (h : Stage base place copy addrs threads tids n m s) :
    addrs.length = n ∧ s.items.length = n := by
  obtain ⟨nodes, rfl, h⟩ := h
  rw [List.length_map, h.length]
  obtain ⟨pairs, -, h, -, rfl, -⟩ := h
  refine ⟨rfl, ?_⟩
  rw [h.list, List.length_map, h.length]

/-- The sort ends where it ends on the list of items. -/
theorem sortHelper_rel (hword : base.strings keyword = some word) {first : Nat}
    {behind : List Nat} (fuel : Nat) {w : World Store Nat}
    (h : Stage base place copy (first :: behind) threads tids n w.state s)
    (hends : ∀ schedule, (Project2.sortHelper fs word fuel ⟨s, schedule⟩).isSome) :
    Returns (sortHelper fs keyword (fuel + 1) (some first)) w fun _ v => ∃ t,
      Stage base place copy (first :: behind) threads tids n v.state t ∧
      Reaches (Project2.sortHelper fs word fuel) s t := by
  induction fuel generalizing w s with
  | zero =>
      have hnone := hends []
      cases hnone
  | succ fuel ih =>
      have hfirst : Stage base place copy ([] ++ first :: behind) threads tids n w.state s := h
      unfold sortHelper
      apply (perform_read hfirst.next).bind
      rintro _ v ⟨rfl, rfl⟩
      obtain ⟨haddrs, hitems⟩ := h.length
      rw [List.length_cons] at haddrs
      cases behind with
      | nil =>
          -- one node: the outer loop is not entered
          refine Returns.pure ⟨s, h, [[]], ?_⟩
          intro later
          obtain ⟨front, x, rest, hfront, hrest, hholds, -⟩ := hfirst.split
          obtain rfl : front = [] := List.map_eq_nil_iff.mp hfront
          obtain rfl : rest = [] := List.map_eq_nil_iff.mp hrest
          have hone : s.items = [x] := hholds.list
          simp [Project2.sortHelper, Project2.sortPass, tick, hone]
      | cons next rest =>
          show Returns (perform Memory.size >>= _) v _
          apply (perform_read h.size_run).bind
          rintro _ v' ⟨rfl, rfl⟩
          apply (Returns.some first v').bind
          rintro first u ⟨rfl, rfl⟩
          apply (sortPass_rel hword (next :: rest) [] _ _ false (by omega) h).bind
          rintro ⟨last, swap⟩ u' ⟨t, portions, hu, hlast, hpass⟩
          have hplain : ∀ later, Project2.sortHelper fs word (fuel + 1) ⟨s, portions ++ later⟩ =
              if swap then Project2.sortHelper fs word fuel ⟨t, later⟩ else some ⟨t, later⟩ := by
            intro later
            have hrun := hpass later
            rw [haddrs, ← hitems, List.length_nil] at hrun
            rw [Project2.sortHelper, hrun]
          cases swap with
          | true =>
              show Returns (perform Memory.head >>= _) u' _
              apply (perform_read hu.head_run).bind
              rintro _ v' ⟨rfl, rfl⟩
              have hmore : ∀ schedule, (Project2.sortHelper fs word fuel ⟨t, schedule⟩).isSome := by
                intro schedule
                have hsome := hends (portions ++ schedule)
                rw [hplain, if_pos rfl] at hsome
                exact hsome
              apply (ih hu hmore).imp
              rintro - v'' ⟨t', hv', portions', hportions'⟩
              refine ⟨t', hv', portions ++ portions', ?_⟩
              intro later
              rw [List.append_assoc, hplain, if_pos rfl]
              exact hportions' later
          | false =>
              show Returns (sortHelper fs keyword (fuel + 1) (some last)) u' _
              obtain ⟨init, hinit⟩ := AddPath.concat_getLastD first (next :: rest)
              have hu' := hu
              rw [List.nil_append, hinit, ← hlast] at hu'
              unfold sortHelper
              apply (perform_read hu'.next).bind
              rintro _ v' ⟨rfl, rfl⟩
              refine Returns.pure ⟨t, hu, portions, ?_⟩
              intro later
              rw [hplain]
              rfl

end Sorting

section Numbers

variable {fs : FileSystem} {keyword : Nat} {word : Path} {base : Frame} {place copy : Nat → Nat}
  {m : Store} {s : Project2.State} {front rest : List (Nat × Project2.Item)} {a b : Nat}
  {x y : Project2.Item} {threads tids n : Nat}

/-- The item at one place of the list is the only one of its call. -/
theorem assign_eq_set (h : Holds base place copy (front ++ (a, x) :: rest) m s)
    (g : Project2.Item → Project2.Item) :
    Project2.assign x.addr g s = { s with items := s.items.set front.length (g x) } := by
  have hnodup : (s.items.map Project2.Item.addr).Nodup := h.calls.nodup_iff.mpr List.nodup_range
  rw [h.list] at hnodup
  simp only [List.map_append, List.map_cons] at hnodup
  obtain ⟨-, hrest, hfront⟩ := List.nodup_append.mp hnodup
  have hother : ∀ items : List Project2.Item, (∀ item ∈ items, item.addr ≠ x.addr) →
      items.map (fun item => if item.addr = x.addr then g item else item) = items := by
    intro items hne
    rw [List.map_congr_left (g := id), List.map_id]
    intro item hitem
    rw [if_neg (hne item hitem)]
    rfl
  unfold Project2.assign
  rw [h.list, List.map_append, List.set_append_right _ _ (by simp), List.map_append,
    hother (front.map Prod.snd), List.map_cons, List.map_cons, if_pos rfl,
    hother (rest.map Prod.snd)]
  · simp
  · intro item hitem heq
    apply (List.nodup_cons.mp hrest).1
    rw [← heq]
    exact List.mem_map_of_mem hitem
  · intro item hitem
    exact hfront _ (List.mem_map_of_mem hitem) _ List.mem_cons_self

theorem setNum_stage {before behind : List Nat} {cur : Nat} (num : Nat)
    (h : Stage base place copy (before ++ cur :: behind) threads tids n m s)
    (hitem : s.items[before.length]? = some x) :
    ∃ items, (setNum cur num).run m = some ((), { m with items }) ∧
      Stage base place copy (before ++ cur :: behind) threads tids n { m with items }
        { s with items := s.items.set before.length { x with num } } := by
  obtain ⟨front, z, rest, hfront, hrest, hholds, hthreads, hsize, hnamed⟩ := h.split
  have hlength : front.length = before.length := by
    rw [← hfront, List.length_map]
  have hhere := hholds.getElem
  rw [hlength, hitem] at hhere
  cases hhere
  have hset := assign_eq_set hholds ({ · with num })
  rw [hlength] at hset
  obtain ⟨pairs, horder, hput⟩ := hholds.put (hholds.addr_lt hholds.mem) ({ · with num })
    { shown base place copy x with num } (by
      intro other hother hcall
      rw [hholds.unique hother hholds.mem hcall]
      exact ⟨rfl, rfl, rfl⟩)
  refine ⟨m.items.put (place x.addr) { shown base place copy x with num }, ?_, ?_⟩
  · show setNum cur num m = _
    simp only [setNum, hholds.itemAt_eq, Option.bind_eq_bind, Option.bind_some]
    rfl
  · rw [← hset]
    have hnamed' := hnamed.assign (s := s) (n := x.addr) ({ · with num })
      fun item haddr => ⟨haddr, rfl⟩
    have hstage := Stage.of_holds hput hthreads hsize hnamed'
    have haddrs : pairs.map Prod.fst = before ++ cur :: behind := by
      have hfst := congrArg (List.map Prod.fst) horder
      simp only [order, List.map_map, List.map_append, List.map_cons, Function.comp_def] at hfst
      rw [hfst, hfront, hrest]
    rw [haddrs] at hstage
    exact hstage

/-- The loop of the numbering, from one node on. -/
theorem numberLoop_rel (hword : base.strings keyword = some word) (behind before : List Nat)
    (cur inum : Nat) {w : World Store Nat}
    (h : Stage base place copy (before ++ cur :: behind) threads tids n w.state s) :
    Returns (numberLoop fs keyword behind.length (some cur) inum) w fun _ v => ∃ t,
      Stage base place copy (before ++ cur :: behind) threads tids n v.state t ∧
      Reaches (Project2.numberLoop fs word behind.length before.length inum) s t := by
  induction behind generalizing before cur inum w s with
  | nil => exact Returns.pure ⟨s, h, [], fun _ => rfl⟩
  | cons next behind ih =>
      rw [List.length_cons]
      unfold numberLoop
      apply ((stage_keeps fs hword _ threads tids n).act (g := id)
        (q := fun b m t => b = some next ∧
          Stage base place copy (before ++ cur :: next :: behind) threads tids n m t)
        (fun m t hm => ⟨some next, m, hm.next, rfl, hm⟩) h).bind
      rintro - v ⟨t, ⟨rfl, hv⟩, portions, hportions⟩
      apply (Returns.some cur v).bind
      rintro cur v ⟨rfl, rfl⟩
      apply (Returns.some next v).bind
      rintro next v ⟨rfl, rfl⟩
      obtain ⟨front, x, others, hfront, hothers, hholds, -⟩ := hv.split
      obtain ⟨⟨b, y⟩, rest, rfl, hp, hrest⟩ := List.map_eq_cons_iff.mp hothers
      obtain rfl : b = next := hp
      have hlength : front.length = before.length := by
        rw [← hfront, List.length_map]
      have hhere := hholds.getElem
      have hnext := hholds.getElem_next
      rw [hlength] at hhere hnext
      have hplain : ∀ k later, Project2.numberLoop fs word (k + 1) before.length inum
          ⟨s, portions ++ later⟩ =
            if y.level = x.level then
              Project2.numberLoop fs word k (before.length + 1) (inum + 1) ⟨{ t with
                items := t.items.set (before.length + 1) { y with num := inum + 1 } }, later⟩
            else Project2.numberLoop fs word k (before.length + 1) 1 ⟨t, later⟩ := by
        intro k later
        have htick : tick (Project2.startSearch fs word) ⟨s, portions ++ later⟩ = ⟨t, later⟩ :=
          Option.some.inj (hportions later)
        simp only [Project2.numberLoop, htick, hhere, hnext, List.head?_cons, Option.map_some]
      have hstep : before.length + 1 = (before ++ [cur]).length := by simp
      have hsame : (sameLevel cur b).run v.state = some (decide (y.level = x.level), v.state) := by
        have hb := hholds
        rw [List.append_cons] at hb
        show sameLevel cur b v.state = _
        simp only [sameLevel, hholds.itemAt_eq, hb.itemAt_eq, Option.bind_eq_bind,
          Option.bind_some]
        rfl
      apply (perform_read hsame).bind
      rintro c u ⟨rfl, rfl⟩
      rw [List.append_cons] at hv ⊢
      by_cases hlevel : y.level = x.level
      · rw [if_pos (decide_eq_true hlevel)]
        rw [hstep] at hnext
        obtain ⟨items, hrun, hstage⟩ := setNum_stage (inum + 1) hv hnext
        rw [← hstep] at hstage
        have hset : Returns (perform (ε := Nat) (setNum b (inum + 1))) u fun _ v =>
            v = ⟨{ u.state with items }, u.schedule⟩ := perform_returns ⟨_, _, hrun, rfl⟩
        apply hset.bind
        rintro - v rfl
        apply (ih (before ++ [cur]) b (inum + 1) hstage).imp
        rintro - v' ⟨t', hv', portions', hportions'⟩
        refine ⟨t', hv', portions ++ portions', ?_⟩
        intro later
        have hbehind := hportions' later
        rw [← hstep] at hbehind
        rw [List.append_assoc, hplain, if_pos hlevel]
        exact hbehind
      · rw [if_neg (by simpa using hlevel)]
        apply (ih (before ++ [cur]) b 1 hv).imp
        rintro - v' ⟨t', hv', portions', hportions'⟩
        refine ⟨t', hv', portions ++ portions', ?_⟩
        intro later
        have hbehind := hportions' later
        rw [← hstep] at hbehind
        rw [List.append_assoc, hplain, if_neg hlevel]
        exact hbehind

end Numbers

section Writing

variable {fs : FileSystem} {keyword : Nat} {word : Path} {base : Frame} {place copy : Nat → Nat}
  {m m' : Store} {s : Project2.State} {threads tids n k : Nat} {nodes : List (Nat × Nat)}

/-- A thread that has ended stays so, and one whose turn has come has ended. -/
theorem startSearch_finished (h : startSearch fs keyword m k = some m') :
    (∀ j ∈ m.finished, j ∈ m'.finished) ∧ ((m.threads[k]?.join).isSome → k ∈ m'.finished) := by
  unfold startSearch at h
  split at h
  · rename_i hnone
    cases h
    refine ⟨fun _ hj => hj, ?_⟩
    rw [hnone]
    intro hsome
    cases hsome
  · split at h
    · rename_i hin
      cases h
      exact ⟨fun _ hj => hj, fun _ => hin⟩
    · simp only [Option.bind_eq_bind, Option.bind_eq_some_iff] at h
      obtain ⟨x, -, path, -, text, -, heq⟩ := h
      cases heq
      exact ⟨fun j hj => List.mem_cons_of_mem _ hj, fun _ => List.mem_cons_self⟩

/-- The items lead to the calls in some order. -/
theorem Holds.order_calls {pairs : List (Nat × Project2.Item)}
    (h : Holds base place copy pairs m s) :
    ((order pairs).map Prod.snd).Perm (List.range s.size) := by
  have hsnd : (order pairs).map Prod.snd = s.items.map Project2.Item.addr := by
    rw [h.list, order, List.map_map, List.map_map]
    rfl
  rw [hsnd]
  exact h.calls

/-- What the writer needs to join the threads: in parallel mode every item knows its
thread, but for the first, whose `tid` is answered without effect. -/
def Joins (runMode : Project2.RunMode) (base : Frame) (place : Nat → Nat) (threads tids n : Nat) :
    Prop :=
  match runMode with
  | .sequential => threads = 1
  | .parallel => threads = n ∧ tids = n ∧ base.stale (place 0) = none

/-- The list when the lines of some nodes are written: no other threads than theirs
have been joined, and in parallel mode all of theirs have ended. -/
def Written (runMode : Project2.RunMode) (base : Frame) (place copy : Nat → Nat)
    (written nodes : List (Nat × Nat)) (threads tids n : Nat) (m : Store) (s : Project2.State) :
    Prop :=
  ∃ joined, Rel { base with joined } place copy nodes threads tids n m s ∧
    (∀ k ∈ joined, k ∈ written.map Prod.snd) ∧
    (runMode = .parallel → ∀ c ∈ written, 0 < c.2 → c.2 < threads → c.2 ∈ m.finished)

theorem written_keeps (fs : FileSystem) (hword : base.strings keyword = some word)
    (runMode : Project2.RunMode) (written nodes : List (Nat × Nat)) (threads tids n : Nat) :
    Keeps (startSearch fs keyword) (Project2.startSearch fs word)
      (Written runMode base place copy written nodes threads tids n) := by
  rintro m s k ⟨joined, h, hjoined, hended⟩
  have hkeyword : ({ base with joined } : Frame).strings keyword = some word := hword
  obtain ⟨m', hm, h'⟩ := startSearch_rel fs hkeyword h k
  refine ⟨m', k, hm, joined, h', hjoined, ?_⟩
  intro hmode c hc hpos hlt
  exact (startSearch_finished hm).1 c.2 (hended hmode c hc hpos hlt)

/-- `pthread_join` of the worker of one node. -/
theorem pthreadJoin_rel (fs : FileSystem) (hword : base.strings keyword = some word)
    {before behind : List (Nat × Nat)} {c : Nat × Nat}
    (hjoins : Joins .parallel base place threads tids n)
    (h : Written .parallel base place copy before (before ++ c :: behind) threads tids n m s) :
    ∃ m' x, s.items[before.length]? = some x ∧
      (pthreadJoin fs keyword c.1).run m = some ((), m') ∧
      Written .parallel base place copy (before ++ [c]) (before ++ c :: behind) threads tids n m'
        (Project2.pthreadJoin fs word x.tid s) := by
  obtain ⟨hall, hnames, hstale⟩ := hjoins
  obtain ⟨joined, hrel, hjoined, hended⟩ := h
  obtain ⟨front, x, rest, hfront, haddr, -, h, hthreads, hsize, hnamed⟩ := hrel.split
  have hlength : front.length = before.length := by
    rw [← hfront, order, List.length_map]
  have hhere := h.getElem
  rw [hlength] at hhere
  have hitem := h.itemAt_eq
  obtain ⟨hroot, hknown⟩ := hnamed x h.mem
  rw [haddr] at hroot hknown
  have hcalls := h.order_calls.nodup_iff.mpr List.nodup_range
  have hbefore : c.2 ∉ before.map Prod.snd := by
    rw [order, List.map_append, List.map_cons, List.map_append, List.map_cons,
      List.nodup_append] at hcalls
    intro hin
    rw [← hfront] at hin
    exact hcalls.2.2 c.2 hin c.2 (haddr ▸ List.mem_cons_self) rfl
  rcases Nat.eq_zero_or_pos c.2 with hzero | hpos
  · have hnone : (shown { base with joined } place copy x).tid = none := by
      simp [shown, hroot hzero, haddr, hzero, hstale]
    refine ⟨m, x, hhere, ?_, joined, ?_, ?_, ?_⟩
    · show pthreadJoin fs keyword c.1 m = _
      simp [pthreadJoin, hitem, hnone]
    · rw [hroot hzero]
      exact hrel
    · intro k hk
      rw [List.map_append]
      exact List.mem_append_left _ (hjoined k hk)
    · intro hmode d hd hpos hlt
      rcases List.mem_append.mp hd with hd | hd
      · exact hended hmode d hd hpos hlt
      · rw [List.mem_singleton.mp hd] at hpos
        omega
  · have hlt : c.2 < n := by
      rw [← hsize, ← haddr]
      exact h.addr_lt h.mem
    have hsome := hknown hpos (by omega)
    have htid : (shown { base with joined } place copy x).tid = some c.2 := by
      simp [shown, hsome]
    obtain ⟨hthread, -⟩ := h.threads c.2 hpos (by omega)
    have hfirst : c.2 ∉ m.joined := by
      rw [h.joined]
      exact fun hin => hbefore (hjoined c.2 hin)
    have hkeyword : ({ base with joined } : Frame).strings keyword = some word := hword
    obtain ⟨m', hm, hrel'⟩ := startSearch_rel fs hkeyword hrel c.2
    obtain ⟨hkept, hdone⟩ := startSearch_finished hm
    refine ⟨{ m' with joined := c.2 :: m'.joined }, x, hhere, ?_, c.2 :: joined, ?_, ?_, ?_⟩
    · show pthreadJoin fs keyword c.1 m = _
      simp [pthreadJoin, hitem, htid, hthread, hfirst, hm]
    · rw [hsome]
      obtain ⟨pairs, hnodes, h', hothers⟩ := hrel'
      exact ⟨pairs, hnodes, { h' with joined := congrArg (c.2 :: ·) h'.joined }, hothers⟩
    · intro k hk
      rw [List.map_append]
      rcases List.mem_cons.mp hk with rfl | hk
      · exact List.mem_append_right _ List.mem_cons_self
      · exact List.mem_append_left _ (hjoined k hk)
    · intro hmode d hd hpos hlt
      rcases List.mem_append.mp hd with hd | hd
      · exact hkept d.2 (hended hmode d hd hpos hlt)
      · rw [List.mem_singleton.mp hd]
        apply hdone
        rw [hthread]
        rfl

theorem Rel.record {before behind : List (Nat × Nat)} {c : Nat × Nat}
    (h : Rel base place copy (before ++ c :: behind) threads tids n m s) :
    ∃ x, s.items[before.length]? = some x ∧
      (Memory.record c.1).run m = some (Project2.Item.record x, m) := by
  obtain ⟨front, x, rest, hfront, -, -, h, -⟩ := h.split
  have hlength : front.length = before.length := by
    rw [← hfront, order, List.length_map]
  have hhere := h.getElem
  rw [hlength] at hhere
  refine ⟨x, hhere, ?_⟩
  have hpath : m.strings.block (shown base place copy x).path = some x.path := h.string_eq
  show Memory.record c.1 m = _
  simp only [Memory.record, h.itemAt_eq, hpath, Option.bind_eq_bind, Option.bind_some]
  rfl

/-- The first step for a node: in parallel mode the wait for its worker. -/
theorem join_returns (hword : base.strings keyword = some word) (runMode : Project2.RunMode)
    (hjoins : Joins runMode base place threads tids n) {before behind : List (Nat × Nat)}
    {c : Nat × Nat} {w : World Store Nat}
    (h : Written runMode base place copy before (before ++ c :: behind) threads tids n w.state s) :
    Returns (act? (startSearch fs keyword)
        (if runMode = .parallel then pthreadJoin fs keyword c.1 else pure ())) w
      fun _ v => ∃ t x portions,
        (∀ later, tick (Project2.startSearch fs word) ⟨s, portions ++ later⟩ = ⟨t, later⟩) ∧
        t.items[before.length]? = some x ∧
        Written runMode base place copy (before ++ [c]) (before ++ c :: behind) threads tids n
          v.state (if runMode = .parallel then Project2.pthreadJoin fs word x.tid t else t) := by
  apply ((written_keeps fs hword runMode _ _ threads tids n).await h).bind
  rintro - v ⟨t, hv, portions, hportions⟩
  apply perform_returns
  have hticks : ∀ later, tick (Project2.startSearch fs word) ⟨s, portions ++ later⟩ = ⟨t, later⟩ :=
    fun later => Option.some.inj (hportions later)
  cases runMode with
  | parallel =>
      obtain ⟨m', x, hitem, hjoin, hwritten⟩ := pthreadJoin_rel fs hword hjoins hv
      exact ⟨(), m', hjoin, t, x, portions, hticks, hitem, hwritten⟩
  | sequential =>
      obtain ⟨joined, hrel, hjoined, -⟩ := hv
      obtain ⟨x, hitem, -⟩ := hrel.record
      refine ⟨(), v.state, rfl, t, x, portions, hticks, hitem, joined, hrel, ?_, by simp⟩
      intro k hk
      rw [List.map_append]
      exact List.mem_append_left _ (hjoined k hk)

/-- The writer writes what it writes of the list of items, and has waited for every
worker when it is done. -/
theorem writeLoop_rel (hword : base.strings keyword = some word) (runMode : Project2.RunMode)
    (hjoins : Joins runMode base place threads tids n) (cells before : List (Nat × Nat))
    (fuel : Nat) {w : World Store Nat} (hfuel : cells.length < fuel)
    (h : Written runMode base place copy before (before ++ cells) threads tids n w.state s) :
    Returns (writeLoop fs keyword runMode fuel (cells.head?.map Prod.fst)) w fun lines v =>
      ∃ t portions, Written runMode base place copy (before ++ cells) (before ++ cells)
          threads tids n v.state t ∧
        ∀ later, Project2.writeLoop fs word runMode cells.length before.length
          ⟨s, portions ++ later⟩ = lines := by
  induction cells generalizing before fuel w s with
  | nil =>
      obtain ⟨fuel, rfl⟩ : ∃ k, fuel = k + 1 := ⟨fuel - 1, by simp at hfuel; omega⟩
      rw [List.append_nil] at h ⊢
      exact Returns.pure ⟨s, [], h, fun _ => rfl⟩
  | cons c behind ih =>
      obtain ⟨fuel, rfl⟩ : ∃ k, fuel = k + 1 := ⟨fuel - 1, by omega⟩
      rw [List.head?_cons, Option.map_some]
      unfold writeLoop
      apply (join_returns hword runMode hjoins h).bind
      rintro - v ⟨t, x, portions, htick, hitem, hv⟩
      apply ((written_keeps fs hword runMode _ _ threads tids n).act (g := id)
        (q := fun line m t =>
          Written runMode base place copy (before ++ [c]) (before ++ c :: behind) threads tids n
            m t ∧ ∃ y, t.items[before.length]? = some y ∧ line = Project2.Item.record y)
        (fun m t hm => by
          obtain ⟨joined, hrel, hothers⟩ := hm
          obtain ⟨y, hy, hrun⟩ := hrel.record
          exact ⟨_, m, hrun, ⟨joined, hrel, hothers⟩, y, hy, rfl⟩) hv).bind
      rintro line u ⟨t', ⟨hu, y, hy, rfl⟩, portions', hportions'⟩
      have hnext : (Memory.next (some c.1)).run u.state =
          some (behind.head?.map Prod.fst, u.state) := by
        obtain ⟨joined, hrel, -⟩ := hu
        exact hrel.next
      apply (perform_read hnext).bind
      rintro _ u ⟨rfl, rfl⟩
      have hsplit : before ++ c :: behind = before ++ [c] ++ behind := List.append_cons ..
      rw [hsplit] at hu ⊢
      apply (ih (before ++ [c]) fuel (by simpa using hfuel) hu).bind
      rintro lines u' ⟨t'', portions'', hwritten, hlines⟩
      apply Returns.pure
      refine ⟨t'', portions ++ (portions' ++ portions''), hwritten, ?_⟩
      intro later
      have htick' : ∀ later, tick (Project2.startSearch fs word)
          ⟨if runMode = .parallel then Project2.pthreadJoin fs word x.tid t else t,
            portions' ++ later⟩ = ⟨t', later⟩ := fun later => Option.some.inj (hportions' later)
      have hbehind := hlines later
      rw [List.length_append, List.length_singleton] at hbehind
      rw [List.length_cons, Project2.writeLoop]
      simp only [List.append_assoc, htick, hitem]
      have hworld : (if runMode = .parallel then
          (⟨Project2.pthreadJoin fs word x.tid t, portions' ++ (portions'' ++ later)⟩ :
            World Project2.State Nat)
          else ⟨t, portions' ++ (portions'' ++ later)⟩) =
          ⟨if runMode = .parallel then Project2.pthreadJoin fs word x.tid t else t,
            portions' ++ (portions'' ++ later)⟩ := by
        split <;> rfl
      rw [hworld, htick']
      simp only [hy, hbehind, Option.map_some, Option.toList_some, List.singleton_append]

end Writing

end Cse420.Lister.Memory
