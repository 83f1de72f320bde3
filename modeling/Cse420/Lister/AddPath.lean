import Cse420.Lib.DoublyLinked
import Cse420.Lib.LevelList
import Cse420.Lib.Machine
import Cse420.Lister.Project2
import Cse420.Lister.SortLinks

/-!
`AddPath` on the list itself, with the nodes and the items as blocks of memory.
Levels are any integers, and `malloc` may return any block that is not in use. A
call places its node as insertion by level does, and sets the links of the nodes
around it in both directions. `insert_sorted` of Lin's lister has the same scan
and the same three cases on nodes that hold their level themselves.
-/

namespace Cse420.Lister.AddPath

open DoublyLinked Machine
open SortLinks (Item)

section Insertion

variable {α : Type} (level : α → Option Int)

/-- `while(curNode->next != NULL && curNode->next->item->level < newitem->level)`. -/
def scan (new : Int) (nodes : Heap (Cell α)) : Nat → Nat → Option Nat
  | 0, _ => none
  | fuel + 1, curNode => do
      let cur ← nodes.block curNode
      match cur.next with
      | none => some curNode
      | some next => do
          let nextNode ← nodes.block next
          if (← level nextNode.val) < new then scan new nodes fuel next else some curNode

/-- The nodes, the head and the tail with a new node, which has no value until its
links are written. -/
def insertNode (fuel : Nat) (nodes : Heap (Cell α)) (head tail : Option Nat) (newNode : Nat)
    (val : α) (new : Int) : Option (Heap (Cell α) × Option Nat × Option Nat) := do
  if head = none ∧ tail = none then
    return (nodes.put newNode ⟨none, val, none⟩, some newNode, some newNode)
  else
    let curNode ← scan level new nodes fuel (← head)
    let cur ← nodes.block curNode
    if new < (← level cur.val) then
      -- added as head, no lesser level found
      let nodes := nodes.put newNode ⟨none, val, head⟩
      let nodes ← nodes.modify head ({ · with prev := some newNode })
      return (nodes, some newNode, tail)
    else if cur.next = none then
      -- added as a new tail, no higher level found
      let nodes := nodes.put newNode ⟨tail, val, none⟩
      let nodes ← nodes.modify tail ({ · with next := some newNode })
      return (nodes, head, some newNode)
    else
      -- added as middle link
      let nodes := nodes.put newNode ⟨some curNode, val, cur.next⟩
      let nodes ← nodes.modify cur.next ({ · with prev := some newNode })
      let nodes ← nodes.modify (some curNode) ({ · with next := some newNode })
      return (nodes, head, tail)

end Insertion

/-- `SDLL`. The value of a node is the address of its item. -/
structure SDLL where
  nodes : Heap (Cell Nat)
  items : Heap Item
  head : Option Nat
  tail : Option Nat
  size : Int

/-- A call of `AddPath`, with what stands in the `count` of its new item. -/
structure Call where
  level : Int
  path : Path
  count : Int

section Program

variable (mallocNode : Heap.Malloc (Cell Nat)) (mallocItem : Heap.Malloc Item) (fuel : Nat)

/-- `AddPath`. -/
def addPath (list : SDLL) (call : Call) : Option SDLL := do
  let newitem := mallocItem.address list.items
  let items := list.items.put newitem ⟨call.level, 1, call.count, call.path⟩
  let newNode := mallocNode.address list.nodes
  let (nodes, head, tail) ← insertNode (fun item => (items.block item).map Item.level) fuel
    list.nodes list.head list.tail newNode newitem call.level
  return ⟨nodes, items, head, tail, list.size + 1⟩

/-- `init_SortedDoublyLinkedList`, whatever else is in memory. -/
def initSDLL (nodes : Heap (Cell Nat)) (items : Heap Item) : SDLL := ⟨nodes, items, none, none, 0⟩

end Program

/-- A node and its item, by their addresses, with the level and the path. -/
structure Entry where
  node : Nat
  item : Nat
  level : Int
  path : Path

def Entry.cell (e : Entry) : Nat × Nat := (e.node, e.item)

/-- Both directions of the links lead from end to end through these nodes. -/
structure Shows (list : SDLL) (entries : List Entry) : Prop where
  next : Follows Cell.next list.nodes.block list.head (entries.map Entry.cell)
  tail : list.tail = entries.getLast?.map Entry.node
  prev : Follows Cell.prev list.nodes.block list.tail (entries.map Entry.cell).reverse
  head : list.head = entries.head?.map Entry.node
  distinct : (entries.map Entry.node).Nodup
  size : list.size = entries.length
  items : ∀ e ∈ entries, ∃ item, list.items.block e.item = some item ∧
    item.level = e.level ∧ item.path = e.path

/-- Where a call places its node among the others, which keep their order: directly
after the last node of a smaller level. If there is none, the new node becomes the
head, or the second node behind a head of the same level. -/
def Placed (new : Entry) (old now : List Entry) : Prop :=
  ∃ front back, old = front ++ back ∧ now = front ++ new :: back ∧
    ((∃ e ∈ old, e.level < new.level) → ∃ f e, front = f ++ [e] ∧ e.level < new.level ∧
      ∀ e ∈ back, ¬ e.level < new.level) ∧
    ((∀ e ∈ old, ¬ e.level < new.level) → ∀ head rest, old = head :: rest →
      (new.level < head.level → front = []) ∧ (head.level = new.level → front = [head]))

section Insertion

variable {α γ : Type} {level : α → Option Int} {cell : γ → Nat × α} {rank : γ → Nat}
  {nodes : Heap (Cell α)} {head tail : Option Nat} {entries : List γ} {new : Int} {added : γ}

/-- Levels are only compared with the new one, so that ranks in the same order do as
well. -/
def Ranked (level : α → Option Int) (cell : γ → Nat × α) (rank : γ → Nat) (new : Int) (added : γ)
    (entries : List γ) : Prop :=
  ∀ e ∈ entries, ∃ l, level (cell e).2 = some l ∧ (l < new ↔ rank e < rank added) ∧
    (new < l ↔ rank added < rank e)

/-- The scan from a node on ends at the last of the nodes of a smaller level behind
it. -/
theorem scan_spec (fuel : Nat) (front rest : List γ) (c : γ)
    (hlinked : Linked nodes.block head tail ((front ++ c :: rest).map cell))
    (hranked : Ranked level cell rank new added rest) (hfuel : rest.length < fuel) :
    scan level new nodes fuel (cell c).1 =
      some (cell ((rest.takeWhile fun e => rank e < rank added).getLastD c)).1 := by
  induction fuel generalizing front rest c with
  | zero => omega
  | succ fuel ih =>
      have hcur := hlinked
      rw [List.map_append, List.map_cons] at hcur
      have hcur := hcur.block_eq
      rw [scan, hcur]
      cases rest with
      | nil => rfl
      | cons d rest =>
          obtain ⟨⟨l, hlevel, hlt, -⟩, hranked⟩ := List.forall_mem_cons.mp hranked
          rw [List.append_cons] at hlinked
          have hnext := hlinked
          rw [List.map_append, List.map_cons] at hnext
          have hnext := hnext.block_eq
          simp only [List.map_cons, first, Option.bind_eq_bind, Option.bind_some, hnext, hlevel]
          rw [List.length_cons] at hfuel
          by_cases hpass : l < new
          · rw [if_pos hpass, ih _ rest d hlinked hranked (by omega),
              List.takeWhile_cons_of_pos (by simpa using hlt.mp hpass), List.getLastD_cons]
          · rw [if_neg hpass, List.takeWhile_cons_of_neg (by simpa using hpass ∘ hlt.mpr)]
            rfl

theorem concat_getLastD (c : γ) (passed : List γ) :
    ∃ front, c :: passed = front ++ [passed.getLastD c] := by
  rcases List.eq_nil_or_concat passed with rfl | ⟨others, a, rfl⟩
  · exact ⟨[], rfl⟩
  · refine ⟨c :: others, ?_⟩
    rw [List.concat_eq_append, List.getLastD_concat]
    rfl

section Cases

variable {fuel newNode : Nat} (val : α) {c d : Nat × α} {front back : List (Nat × α)} {l : Int}

/-- The new node becomes the head. -/
theorem insertNode_cons (hlinked : Linked nodes.block head tail (c :: back))
    (hfresh : nodes.block newNode = none) {curNode : Nat} {cur : Cell α}
    (hscan : head.bind (scan level new nodes fuel) = some curNode)
    (hcur : nodes.block curNode = some cur) (hlevel : level cur.val = some l) (hlt : new < l) :
    ∃ nodes' head' tail',
      insertNode level fuel nodes head tail newNode val new = some (nodes', head', tail') ∧
      Linked nodes'.block head' tail' ((newNode, val) :: c :: back) := by
  have hhead : head = some c.1 := hlinked.head
  have hc := hlinked.head_eq
  have hne : c.1 ≠ newNode := Heap.ne_of_fresh hc hfresh
  rw [hhead, Option.bind_some] at hscan
  unfold insertNode
  rw [hhead, if_neg (by simp)]
  simp only [Option.bind_eq_bind, Option.bind_some, hscan, hcur, hlevel, if_pos hlt]
  rw [Heap.modify_some _ ((Heap.put_block_ne hne).trans hc)]
  refine ⟨_, _, _, rfl, ?_⟩
  apply hlinked.cons hfresh
  · exact (Heap.put_block_ne hne.symm).trans Heap.put_block_self
  · exact Heap.put_block_self
  · intro a hnode hhead
    simp [hnode, hhead]

/-- The new node becomes the tail. -/
theorem insertNode_concat (hlinked : Linked nodes.block head tail (front ++ [c]))
    (hfresh : nodes.block newNode = none)
    (hscan : head.bind (scan level new nodes fuel) = some c.1)
    (hlevel : level c.2 = some l) (hle : ¬ new < l) :
    ∃ nodes' head' tail',
      insertNode level fuel nodes head tail newNode val new = some (nodes', head', tail') ∧
      Linked nodes'.block head' tail' (front ++ [c] ++ [(newNode, val)]) := by
  have htail : tail = some c.1 := hlinked.tail.trans last_append
  have hc := hlinked.block_eq
  have hne : c.1 ≠ newNode := Heap.ne_of_fresh hc hfresh
  obtain ⟨h, hhead, hscan⟩ := Option.bind_eq_some_iff.mp hscan
  unfold insertNode
  rw [hhead, htail, if_neg (by simp)]
  simp only [Option.bind_eq_bind, Option.bind_some, hscan, hc, hlevel, if_neg hle, first, if_true]
  rw [Heap.modify_some _ ((Heap.put_block_ne hne).trans hc)]
  refine ⟨_, _, _, rfl, ?_⟩
  rw [← hhead]
  apply hlinked.concat hfresh
  · exact (Heap.put_block_ne hne.symm).trans Heap.put_block_self
  · exact Heap.put_block_self
  · intro a hnode htail
    simp [hnode, htail]

/-- The new node becomes a middle link. -/
theorem insertNode_between (hlinked : Linked nodes.block head tail (front ++ c :: d :: back))
    (hfresh : nodes.block newNode = none)
    (hscan : head.bind (scan level new nodes fuel) = some c.1)
    (hlevel : level c.2 = some l) (hle : ¬ new < l) :
    ∃ nodes' head' tail',
      insertNode level fuel nodes head tail newNode val new = some (nodes', head', tail') ∧
      Linked nodes'.block head' tail' (front ++ c :: (newNode, val) :: d :: back) := by
  have hc := hlinked.block_eq
  have hd := hlinked.next_eq
  have hcn : c.1 ≠ newNode := Heap.ne_of_fresh hc hfresh
  have hdn : d.1 ≠ newNode := Heap.ne_of_fresh hd hfresh
  have hcd : c.1 ≠ d.1 := hlinked.neighbours_ne
  obtain ⟨h, hhead, hscan⟩ := Option.bind_eq_some_iff.mp hscan
  unfold insertNode
  rw [hhead, if_neg (by simp)]
  simp only [Option.bind_eq_bind, Option.bind_some, hscan, hc, hlevel, if_neg hle, first,
    reduceCtorEq, if_false]
  rw [Heap.modify_some _ ((Heap.put_block_ne hdn).trans hd)]
  simp only [Option.bind_some]
  rw [Heap.modify_some _ ((Heap.put_block_ne hcd).trans ((Heap.put_block_ne hcn).trans hc))]
  refine ⟨_, _, _, rfl, ?_⟩
  rw [← hhead]
  apply hlinked.between hfresh
  · simp [hcn.symm, hdn.symm]
  · exact Heap.put_block_self
  · exact (Heap.put_block_ne hcd.symm).trans Heap.put_block_self
  · intro a hnode hac had
    simp [hnode, hac, had]

end Cases

/-- All cases together place the new node as insertion by level does. -/
theorem insertNode_spec (hlinked : Linked nodes.block head tail (entries.map cell))
    (hfresh : nodes.block (cell added).1 = none)
    (hranked : Ranked level cell rank new added entries) {fuel : Nat}
    (hfuel : entries.length ≤ fuel) :
    ∃ nodes' head' tail',
      insertNode level fuel nodes head tail (cell added).1 (cell added).2 new =
        some (nodes', head', tail') ∧
      Linked nodes'.block head' tail' ((LevelList.insert rank added entries).map cell) := by
  cases entries with
  | nil =>
      unfold insertNode
      rw [if_pos ⟨hlinked.head, hlinked.tail⟩]
      exact ⟨_, _, _, rfl, hlinked.single hfresh Heap.put_block_self fun _ hne =>
        Heap.put_block_ne hne⟩
  | cons c rest =>
      have hhead : head = some (cell c).1 := hlinked.head
      have hscan := scan_spec fuel [] rest c hlinked (List.forall_mem_cons.mp hranked).2 hfuel
      rw [← Option.bind_some (f := scan level new nodes fuel), ← hhead] at hscan
      have hsplit : c :: rest =
          (c :: rest.takeWhile fun e => rank e < rank added) ++
            rest.dropWhile fun e => rank e < rank added := by
        rw [List.cons_append, List.takeWhile_append_dropWhile]
      rw [LevelList.insert]
      generalize (rest.takeWhile fun e => decide (rank e < rank added)) = passed at *
      generalize (rest.dropWhile fun e => decide (rank e < rank added)) = behind at *
      obtain ⟨front, hfront⟩ := concat_getLastD c passed
      generalize passed.getLastD c = cur at *
      have hin : cur ∈ c :: rest := by
        rw [hsplit, hfront]
        simp
      obtain ⟨l, hlevel, -, hlt⟩ := hranked cur hin
      rw [hfront, List.append_assoc, List.singleton_append] at hsplit
      split
      · rename_i hless
        have hcur := hlinked
        rw [hsplit, List.map_append, List.map_cons] at hcur
        exact insertNode_cons _ hlinked hfresh hscan hcur.block_eq hlevel (hlt.mpr hless)
      · rename_i hless
        rw [← hlt] at hless
        split
        · rename_i hend
          rw [hend] at hsplit
          rw [hsplit] at hlinked ⊢
          rw [List.map_append] at hlinked
          have hdone := insertNode_concat (cell added).2 hlinked hfresh hscan hlevel hless
          simpa using hdone
        · rename_i hend
          obtain ⟨d, back, rfl⟩ := List.exists_cons_of_ne_nil hend
          rw [hsplit, List.map_append] at hlinked
          have hdone := insertNode_between (cell added).2 hlinked hfresh hscan hlevel hless
          rw [hfront]
          simpa using hdone

end Insertion

section Ranks

variable {γ : Type} {levelOf : γ → Int} {bound : Int} {new : γ} {entries : List γ}

/-- A level counted from a bound that is below all levels. -/
def rank (levelOf : γ → Int) (bound : Int) (e : γ) : Nat := (levelOf e - bound).toNat

theorem exists_bound (levelOf : γ → Int) (entries : List γ) :
    ∃ bound, ∀ e ∈ entries, bound ≤ levelOf e := by
  obtain ⟨bound, hbelow⟩ := (entries.map levelOf).toFinset.bddBelow
  exact ⟨bound, fun e he => hbelow (List.mem_toFinset.mpr (List.mem_map_of_mem he))⟩

theorem rank_lt_iff {a b : γ} (ha : bound ≤ levelOf a) (hb : bound ≤ levelOf b) :
    rank levelOf bound a < rank levelOf bound b ↔ levelOf a < levelOf b := by
  unfold rank
  omega

theorem rank_sorted (h : entries.Pairwise fun a b => levelOf a ≤ levelOf b) :
    entries.Pairwise fun a b => rank levelOf bound a ≤ rank levelOf bound b := by
  apply h.imp
  intro a b hab
  unfold rank
  omega

theorem insert_ordered (hnew : bound ≤ levelOf new) (hbound : ∀ e ∈ entries, bound ≤ levelOf e)
    (hsorted : entries.Pairwise fun a b => levelOf a ≤ levelOf b) :
    (LevelList.insert (rank levelOf bound) new entries).Pairwise
      fun a b => levelOf a ≤ levelOf b := by
  have hall : ∀ e ∈ LevelList.insert (rank levelOf bound) new entries, bound ≤ levelOf e := by
    intro e he
    rcases List.mem_cons.mp ((LevelList.insert_perm new entries).mem_iff.mp he) with rfl | he
    · exact hnew
    · exact hbound e he
  apply (LevelList.insert_sorted new (rank_sorted hsorted)).imp_of_mem
  intro a b ha hb hab
  rw [← Nat.not_lt, rank_lt_iff (hall b hb) (hall a ha)] at hab
  exact Int.not_lt.mp hab

end Ranks

section Calls

/-- The invariant. -/
structure Built (list : SDLL) (entries : List Entry) : Prop where
  linked : Linked list.nodes.block list.head list.tail (entries.map Entry.cell)
  items : ∀ e ∈ entries, ∃ item, list.items.block e.item = some item ∧
    item.level = e.level ∧ item.path = e.path
  own : (entries.map Entry.item).Nodup
  size : list.size = entries.length

variable {list : SDLL} {entries : List Entry}

theorem Built.shows (h : Built list entries) : Shows list entries where
  next := by
    rw [h.linked.head]
    exact h.linked.chain.follows_next
  tail := by
    rw [h.linked.tail]
    rcases List.eq_nil_or_concat entries with rfl | ⟨front, e, rfl⟩
    · rfl
    · simp [last, Entry.cell]
  prev := by
    rw [h.linked.tail]
    exact h.linked.chain.follows_prev
  head := by
    rw [h.linked.head]
    cases entries <;> rfl
  distinct := by
    have hnodup := h.linked.nodup
    rw [List.map_map] at hnodup
    exact hnodup
  size := h.size
  items := h.items

theorem Built.init (nodes : Heap (Cell Nat)) (items : Heap Item) :
    Built (initSDLL nodes items) [] where
  linked := Linked.nil
  items := by simp
  own := List.nodup_nil
  size := rfl

/-- A call inserts its node by level. -/
theorem addPath_insert (mallocNode : Heap.Malloc (Cell Nat)) (mallocItem : Heap.Malloc Item)
    {fuel : Nat} (h : Built list entries) (hfuel : entries.length ≤ fuel) (call : Call)
    {bound : Int} (hnew : bound ≤ call.level) (hbound : ∀ e ∈ entries, bound ≤ e.level) :
    ∃ out new, addPath mallocNode mallocItem fuel list call = some out ∧
      new.level = call.level ∧ new.path = call.path ∧
      Built out (LevelList.insert (rank Entry.level bound) new entries) := by
  have hitem := mallocItem.fresh list.items
  have hnode := mallocNode.fresh list.nodes
  generalize hitemAt : mallocItem.address list.items = newitem at hitem
  generalize hnodeAt : mallocNode.address list.nodes = newNode at hnode
  let new : Entry := ⟨newNode, newitem, call.level, call.path⟩
  have hother : ∀ e ∈ entries, e.item ≠ newitem := by
    intro e he
    obtain ⟨item, hin, -⟩ := h.items e he
    exact Heap.ne_of_fresh hin hitem
  generalize hitems : list.items.put newitem ⟨call.level, 1, call.count, call.path⟩ = items
  have hkept : ∀ e ∈ entries, items.block e.item = list.items.block e.item := by
    intro e he
    rw [← hitems]
    exact Heap.put_block_ne (hother e he)
  have hranked : Ranked (fun item => (items.block item).map Item.level) Entry.cell
      (rank Entry.level bound) call.level new entries := by
    intro e he
    obtain ⟨item, hin, hlevel, -⟩ := h.items e he
    have := hbound e he
    refine ⟨e.level, ?_, ?_, ?_⟩
    · show (items.block e.item).map Item.level = some e.level
      rw [hkept e he, hin, Option.map_some, hlevel]
    · simp only [rank, new]
      omega
    · simp only [rank, new]
      omega
  have hfresh : list.nodes.block new.cell.1 = none := hnode
  obtain ⟨nodes, head, tail, hinsert, hlinked⟩ := insertNode_spec h.linked hfresh hranked hfuel
  have hperm : (LevelList.insert (rank Entry.level bound) new entries).Perm (new :: entries) :=
    LevelList.insert_perm new entries
  refine ⟨⟨nodes, items, head, tail, list.size + 1⟩, new, ?_, rfl, rfl, hlinked, ?_, ?_, ?_⟩
  · have hcall : insertNode (fun item => (items.block item).map Item.level) fuel list.nodes
        list.head list.tail newNode newitem call.level = some (nodes, head, tail) := hinsert
    simp only [addPath, hitemAt, hnodeAt, hitems, hcall, Option.bind_eq_bind, Option.bind_some]
    rfl
  · intro e he
    rcases List.mem_cons.mp (hperm.mem_iff.mp he) with rfl | he
    · refine ⟨⟨call.level, 1, call.count, call.path⟩, ?_, rfl, rfl⟩
      rw [← hitems]
      exact Heap.put_block_self
    · obtain ⟨item, hin, hitem⟩ := h.items e he
      exact ⟨item, (hkept e he).trans hin, hitem⟩
  · rw [(hperm.map Entry.item).nodup_iff, List.map_cons, List.nodup_cons]
    refine ⟨?_, h.own⟩
    intro hin
    obtain ⟨e, he, heq⟩ := List.mem_map.mp hin
    exact hother e he heq
  · rw [hperm.length_eq, h.size]
    rfl

/-- The place of the new node in the order of the levels. -/
theorem insert_placed {bound : Int} {new : Entry} (hnew : bound ≤ new.level)
    (hbound : ∀ e ∈ entries, bound ≤ e.level)
    (hsorted : entries.Pairwise fun a b => a.level ≤ b.level) :
    Placed new entries (LevelList.insert (rank Entry.level bound) new entries) := by
  obtain ⟨front, back, hsplit, hinsert, hsmaller, hnone⟩ :=
    LevelList.insert_split new (rank_sorted hsorted)
  refine ⟨front, back, hsplit, hinsert, ?_, ?_⟩
  · rintro ⟨e, he, hlt⟩
    obtain ⟨f, a, hfront, ha, hback⟩ := hsmaller ⟨e, he, (rank_lt_iff (hbound e he) hnew).mpr hlt⟩
    have hain : a ∈ entries := by
      rw [hsplit, hfront]
      simp
    refine ⟨f, a, hfront, (rank_lt_iff (hbound a hain) hnew).mp ha, ?_⟩
    intro b hb
    have hbin : b ∈ entries := by
      rw [hsplit]
      exact List.mem_append_right _ hb
    rw [← rank_lt_iff (hbound b hbin) hnew]
    exact Nat.not_lt.mpr (hback b hb)
  · intro hall head rest hentries
    have hhead := hbound head (hentries ▸ List.mem_cons_self)
    have hranked : ∀ a ∈ entries, rank Entry.level bound new ≤ rank Entry.level bound a := by
      intro a ha
      rw [← Nat.not_lt, rank_lt_iff (hbound a ha) hnew]
      exact hall a ha
    obtain ⟨hless, hsame⟩ := hnone hranked head rest hentries
    refine ⟨fun hlt => hless ((rank_lt_iff hnew hhead).mpr hlt), fun heq => hsame ?_⟩
    unfold rank
    rw [heq]

theorem Placed.perm {new : Entry} {old now : List Entry} (h : Placed new old now) :
    now.Perm (new :: old) := by
  obtain ⟨front, back, rfl, rfl, -⟩ := h
  exact List.perm_middle

/-- One call on a list in the order of its levels. -/
theorem addPath_spec (mallocNode : Heap.Malloc (Cell Nat)) (mallocItem : Heap.Malloc Item)
    {fuel : Nat} (h : Built list entries)
    (hsorted : entries.Pairwise fun a b => a.level ≤ b.level) (hfuel : entries.length ≤ fuel)
    (call : Call) :
    ∃ out new now, addPath mallocNode mallocItem fuel list call = some out ∧
      new.level = call.level ∧ new.path = call.path ∧ Built out now ∧ Placed new entries now ∧
      now.Pairwise fun a b => a.level ≤ b.level := by
  obtain ⟨low, hlow⟩ := exists_bound Entry.level entries
  have hbound : ∀ e ∈ entries, min low call.level ≤ e.level := fun e he =>
    (min_le_left _ _).trans (hlow e he)
  obtain ⟨out, new, hcall, hlevel, hpath, hbuilt⟩ :=
    addPath_insert mallocNode mallocItem h hfuel call (min_le_right _ _) hbound
  have hnew : min low call.level ≤ new.level := by
    rw [hlevel]
    exact min_le_right _ _
  exact ⟨out, new, _, hcall, hlevel, hpath, hbuilt, insert_placed hnew hbound hsorted,
    insert_ordered hnew hbound hsorted⟩

end Calls

section Runs

/-- Any number of calls. -/
theorem run_built (mallocNode : Heap.Malloc (Cell Nat)) (mallocItem : Heap.Malloc Item)
    (nodes : Heap (Cell Nat)) (items : Heap Item) (calls : List Call) {fuel : Nat}
    (hfuel : calls.length ≤ fuel) :
    ∃ out entries, run (addPath mallocNode mallocItem fuel) (initSDLL nodes items) calls =
        some out ∧ Built out entries ∧ (entries.Pairwise fun a b => a.level ≤ b.level) ∧
      (entries.map fun e => (e.level, e.path)).Perm (calls.map fun c => (c.level, c.path)) := by
  induction calls using List.reverseRecOn with
  | nil => exact ⟨_, [], rfl, Built.init nodes items, List.Pairwise.nil, List.Perm.refl _⟩
  | append_singleton done call ih =>
      rw [List.length_append, List.length_singleton] at hfuel
      obtain ⟨list, entries, hrun, hbuilt, hsorted, hperm⟩ := ih (by omega)
      have hlength : entries.length ≤ fuel := by
        have hcount := hperm.length_eq
        rw [List.length_map, List.length_map] at hcount
        omega
      obtain ⟨out, new, now, hcall, hlevel, hpath, hbuilt', hplaced, hsorted'⟩ :=
        addPath_spec mallocNode mallocItem hbuilt hsorted hlength call
      refine ⟨out, now, ?_, hbuilt', hsorted', ?_⟩
      · rw [run_append, hrun]
        simp [run, hcall]
      · apply (hplaced.perm.map _).trans
        rw [List.map_append, List.map_cons, hlevel, hpath]
        exact (hperm.cons _).trans (List.perm_append_singleton _ _).symm

/-- From an empty list, calls with any levels build a list that both directions of
the links describe, in the order of its levels, with the levels and the paths of
the calls; and each of the calls keeps the order of the nodes that are there. -/
theorem addPath_keeps_list (mallocNode : Heap.Malloc (Cell Nat)) (mallocItem : Heap.Malloc Item)
    (nodes : Heap (Cell Nat)) (items : Heap Item) (calls : List Call) (fuel : Nat)
    (hfuel : calls.length ≤ fuel) :
    (∃ out entries,
      run (addPath mallocNode mallocItem fuel) (initSDLL nodes items) calls = some out ∧
      Shows out entries ∧ (entries.Pairwise fun a b => a.level ≤ b.level) ∧
      (entries.map fun e => (e.level, e.path)).Perm (calls.map fun c => (c.level, c.path))) ∧
    ∀ done call, done ++ [call] <+: calls → ∃ list out new old now,
      run (addPath mallocNode mallocItem fuel) (initSDLL nodes items) done = some list ∧
      addPath mallocNode mallocItem fuel list call = some out ∧
      Shows list old ∧ Shows out now ∧ new.level = call.level ∧ new.path = call.path ∧
      Placed new old now := by
  constructor
  · obtain ⟨out, entries, hrun, hbuilt, hsorted, hperm⟩ :=
      run_built mallocNode mallocItem nodes items calls hfuel
    exact ⟨out, entries, hrun, hbuilt.shows, hsorted, hperm⟩
  · intro done call hdone
    have hshort : done.length ≤ fuel := by
      have hlength := hdone.length_le
      rw [List.length_append, List.length_singleton] at hlength
      omega
    obtain ⟨list, old, hrun, hbuilt, hsorted, hperm⟩ :=
      run_built mallocNode mallocItem nodes items done hshort
    have hroom : old.length ≤ fuel := by
      have hcount := hperm.length_eq
      rw [List.length_map, List.length_map] at hcount
      omega
    obtain ⟨out, new, now, hcall, hlevel, hpath, hbuilt', hplaced, -⟩ :=
      addPath_spec mallocNode mallocItem hbuilt hsorted hroom call
    exact ⟨list, out, new, old, now, hrun, hcall, hbuilt.shows, hbuilt'.shows, hlevel, hpath,
      hplaced⟩

/-- Levels below zero, in an order that uses every case. -/
def fiveCalls : List Call :=
  [⟨2, CMemory.text "/r/a", 0⟩, ⟨-1, CMemory.text "/r", 0⟩, ⟨3, CMemory.text "/r/a/b", 0⟩,
    ⟨2, CMemory.text "/r/c", 0⟩, ⟨-1, CMemory.text "/s", 0⟩]

theorem addPath_keeps_list_five :
    (∃ out entries, run (addPath Heap.Malloc.bump Heap.Malloc.bump 5)
        (initSDLL Heap.empty Heap.empty) fiveCalls = some out ∧ Shows out entries ∧
      (entries.Pairwise fun a b => a.level ≤ b.level) ∧
      (entries.map fun e => (e.level, e.path)).Perm
        (fiveCalls.map fun c => (c.level, c.path))) ∧
    ∀ done call, done ++ [call] <+: fiveCalls → ∃ list out new old now,
      run (addPath Heap.Malloc.bump Heap.Malloc.bump 5) (initSDLL Heap.empty Heap.empty) done =
        some list ∧
      addPath Heap.Malloc.bump Heap.Malloc.bump 5 list call = some out ∧
      Shows list old ∧ Shows out now ∧ new.level = call.level ∧ new.path = call.path ∧
      Placed new old now :=
  addPath_keeps_list Heap.Malloc.bump Heap.Malloc.bump Heap.empty Heap.empty fiveCalls 5 (by decide)

end Runs

section Links

/-- A node as the sort sees it. -/
def link (cell : Cell Nat) : SortLinks.Node := ⟨cell.prev, cell.val, cell.next⟩

/-- The list as `SortChildren` finds it. -/
def SDLL.links (list : SDLL) : SortLinks.SDLL where
  nodes := fun a => (list.nodes.block a).map link
  items := list.items.block
  head := list.head
  tail := list.tail
  size := list.size.toNat

theorem links_of_follows {nodes : Nat → Option (Cell Nat)} {cur : Option Nat}
    {cells : List (Nat × Nat)} (h : Follows Cell.next nodes cur cells) :
    SortLinks.Links (fun a => (nodes a).map link) cur (cells.map Prod.fst) := by
  induction cells generalizing cur with
  | nil => exact h
  | cons c rest ih =>
      obtain ⟨hcur, cell, hcell, -, hrest⟩ := h
      exact ⟨hcur, link cell, congrArg (Option.map link) hcell, ih hrest⟩

/-- `AddPath` builds the lists that the sort is about. -/
theorem Built.wellFormed {list : SDLL} {entries : List Entry} (h : Built list entries)
    (hpaths : ∀ e ∈ entries, 0 ∉ e.path) :
    SortLinks.WellFormed list.links (entries.map Entry.node) := by
  have hnode : ∀ e ∈ entries, ∃ node, list.links.nodes e.node = some node ∧
      node.item = e.item := by
    intro e he
    obtain ⟨front, back, rfl⟩ := List.append_of_mem he
    have hlinked := h.linked
    rw [List.map_append, List.map_cons] at hlinked
    exact ⟨_, congrArg (Option.map link) hlinked.block_eq, rfl⟩
  have hshows := h.shows
  constructor
  · have hlinks := links_of_follows hshows.next
    rw [List.map_map] at hlinks
    exact hlinks
  · exact hshows.distinct
  · rw [List.getLast?_map]
    exact hshows.tail
  · rw [List.length_map]
    show list.size.toNat = entries.length
    rw [h.size]
    exact Int.toNat_natCast _
  · intro a ha
    obtain ⟨e, he, rfl⟩ := List.mem_map.mp ha
    obtain ⟨node, hnode, hitem⟩ := hnode e he
    obtain ⟨item, hin, -, hpath⟩ := h.items e he
    refine ⟨node, item, hnode, hitem ▸ hin, ?_⟩
    rw [hpath]
    exact hpaths e he
  · intro a ha b hb x y hx hy hxy
    obtain ⟨e, he, rfl⟩ := List.mem_map.mp ha
    obtain ⟨f, hf, rfl⟩ := List.mem_map.mp hb
    obtain ⟨nodee, hnodee, hiteme⟩ := hnode e he
    obtain ⟨nodef, hnodef, hitemf⟩ := hnode f hf
    rw [hnodee, Option.some.injEq] at hx
    rw [hnodef, Option.some.injEq] at hy
    rw [← hx, ← hy, hiteme, hitemf] at hxy
    rw [List.inj_on_of_nodup_map h.own he hf hxy]

/-- Whatever paths are added, the sort finds a list it can work on. -/
theorem run_wellFormed (mallocNode : Heap.Malloc (Cell Nat)) (mallocItem : Heap.Malloc Item)
    (nodes : Heap (Cell Nat)) (items : Heap Item) (calls : List Call) {fuel : Nat}
    (hfuel : calls.length ≤ fuel) (hpaths : ∀ call ∈ calls, 0 ∉ call.path) :
    ∃ out addrs, run (addPath mallocNode mallocItem fuel) (initSDLL nodes items) calls =
      some out ∧ SortLinks.WellFormed out.links addrs ∧ addrs.length = calls.length := by
  obtain ⟨out, entries, hrun, hbuilt, -, hperm⟩ :=
    run_built mallocNode mallocItem nodes items calls hfuel
  refine ⟨out, entries.map Entry.node, hrun, hbuilt.wellFormed ?_, ?_⟩
  · intro e he
    have hin := hperm.mem_iff.mp (List.mem_map_of_mem he)
    obtain ⟨call, hcall, heq⟩ := List.mem_map.mp hin
    rw [← (Prod.mk.inj heq).2]
    exact hpaths call hcall
  · simpa using hperm.length_eq

end Links

section Listing

/-- What the lister's own model keeps of an entry. -/
def Entry.key (e : Entry) : Nat × Path := (e.level.toNat, e.path)

def itemKey (item : Project2.Item) : Nat × Path := (item.level, item.path)

/-- The lister's model, which has the items in a list, adds a path where `AddPath`
adds it in memory. -/
theorem addPath_refines (mallocNode : Heap.Malloc (Cell Nat)) (mallocItem : Heap.Malloc Item)
    {fuel : Nat} {list : SDLL} {entries : List Entry} (h : Built list entries)
    (hfuel : entries.length ≤ fuel) (hlevels : ∀ e ∈ entries, 0 ≤ e.level)
    (s : Project2.State) (hsame : entries.map Entry.key = s.items.map itemKey) (level : Nat)
    (path : Path) (count : Int) :
    ∃ out now, addPath mallocNode mallocItem fuel list ⟨level, path, count⟩ = some out ∧
      Built out now ∧ (∀ e ∈ now, 0 ≤ e.level) ∧
      now.map Entry.key = (Project2.addPath level path s).items.map itemKey := by
  obtain ⟨out, new, hcall, hlevel, hpath, hbuilt⟩ :=
    addPath_insert mallocNode mallocItem h hfuel ⟨level, path, count⟩ (Int.natCast_nonneg level)
      hlevels
  refine ⟨out, _, hcall, hbuilt, ?_, ?_⟩
  · intro e he
    rcases List.mem_cons.mp ((LevelList.insert_perm new entries).mem_iff.mp he) with rfl | he
    · rw [hlevel]
      exact Int.natCast_nonneg level
    · exact hlevels e he
  · have hkey : ∀ e : Entry, e.key.1 = rank Entry.level 0 e := by
      intro e
      simp [Entry.key, rank]
    have hnew : new.key = itemKey ⟨s.size, level, 1, none, none, path⟩ := by
      unfold Entry.key itemKey
      rw [hlevel, hpath]
      rfl
    unfold Project2.addPath
    rw [← LevelList.insert_map Entry.key hkey, hsame, hnew]
    have hitems : ∀ item : Project2.Item, (itemKey item).1 = item.level := fun _ => rfl
    exact LevelList.insert_map itemKey hitems _ _

end Listing

section Lin

/-- `struct Node` of Lin's lister without its links. -/
structure LinNode where
  i : Int
  path : Path
  level : Int
  search : Int

/-- `struct List`. -/
structure LinList where
  nodes : Heap (Cell LinNode)
  head : Option Nat
  tail : Option Nat

/-- `create_node` and `insert_sorted`. -/
def insertSorted (malloc : Heap.Malloc (Cell LinNode)) (fuel : Nat) (list : LinList)
    (node : LinNode) : Option LinList := do
  let (nodes, head, tail) ← insertNode (fun node => some node.level) fuel list.nodes list.head
    list.tail (malloc.address list.nodes) node node.level
  return ⟨nodes, head, tail⟩

/-- `insert_sorted` keeps its list linked and in the order of the levels. -/
theorem insertSorted_spec (malloc : Heap.Malloc (Cell LinNode)) {fuel : Nat} {list : LinList}
    {cells : List (Nat × LinNode)}
    (h : Linked list.nodes.block list.head list.tail cells)
    (hsorted : cells.Pairwise fun a b => a.2.level ≤ b.2.level) (hfuel : cells.length ≤ fuel)
    (node : LinNode) :
    ∃ out addr now, insertSorted malloc fuel list node = some out ∧
      Linked out.nodes.block out.head out.tail now ∧ now.Perm ((addr, node) :: cells) ∧
      now.Pairwise fun a b => a.2.level ≤ b.2.level := by
  obtain ⟨low, hlow⟩ := exists_bound (fun c : Nat × LinNode => c.2.level) cells
  let bound := min low node.level
  let added : Nat × LinNode := (malloc.address list.nodes, node)
  have hnew : bound ≤ added.2.level := min_le_right _ _
  have hbound : ∀ c ∈ cells, bound ≤ c.2.level := fun c hc =>
    (min_le_left _ _).trans (hlow c hc)
  have hranked : Ranked (fun node => some node.level) id (rank (·.2.level) bound) node.level
      added cells := by
    intro c hc
    exact ⟨c.2.level, rfl, (rank_lt_iff (hbound c hc) hnew).symm,
      (rank_lt_iff hnew (hbound c hc)).symm⟩
  have hcells : Linked list.nodes.block list.head list.tail (cells.map id) := by
    rw [List.map_id]
    exact h
  have hfresh : list.nodes.block (id added).1 = none := malloc.fresh list.nodes
  obtain ⟨nodes, head, tail, hinsert, hlinked⟩ := insertNode_spec hcells hfresh hranked hfuel
  rw [List.map_id] at hlinked
  refine ⟨⟨nodes, head, tail⟩, added.1, _, ?_, hlinked, LevelList.insert_perm added cells,
    insert_ordered hnew hbound hsorted⟩
  have hcall : insertNode (fun node => some node.level) fuel list.nodes list.head list.tail
      (malloc.address list.nodes) node node.level = some (nodes, head, tail) := hinsert
  unfold insertSorted
  rw [hcall]
  rfl

end Lin

end Cse420.Lister.AddPath
