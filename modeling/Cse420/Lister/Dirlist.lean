import Cse420.Lib.BubbleSort
import Cse420.Lib.LevelList
import Cse420.Lister.Walk

/-!
`dirlist.c` of Lin, the first of the listers. It has no keyword and no threads:
the list is built by `open_dir`, `node_swap` exchanges the paths of its nodes,
and `sub_level` numbers them.
-/

namespace Cse420.Lister.Dirlist

structure Node where
  path : Path
  level : Nat
  i : Nat

/-- `create_node`. -/
def createNode (path : Path) (level i : Nat) : Node := ⟨path, level, i⟩

/-- `insert_sorted`. -/
def insertSorted (node : Node) (list : List Node) : List Node :=
  LevelList.insert Node.level node list

/-- `open_dir`. A directory that does not open is passed over, and `sub_path`
has 255 bytes. -/
def openDir (fs : FileSystem) (fuel : Nat) (dirPath : Path) (x : Nat) (list : List Node) :
    Option (List Node) :=
  walk (fun path => some ((fs.opendir path).getD [])) 255
    (fun x subPath list => insertSorted (createNode subPath x 1) list) fuel dirPath (x + 1) list

/-- The inner loop of `node_swap` from `tmpNode` on. Only the paths of two nodes
are exchanged. -/
def swapPass (swap : Bool) (tmpNode : Node) : List Node → Bool × List Node
  | [] => (swap, [tmpNode])
  | next :: rest =>
      if tmpNode.level = next.level ∧ 0 < strcmp tmpNode.path next.path then
        let after := swapPass true { next with path := tmpNode.path } rest
        (after.1, { tmpNode with path := next.path } :: after.2)
      else
        let after := swapPass swap next rest
        (after.1, tmpNode :: after.2)

/-- The inner loop from the head on. -/
def swapList : List Node → Bool × List Node
  | [] => (false, [])
  | head :: rest => swapPass false head rest

/-- `node_swap(list->head, list)`. -/
def nodeSwap : Nat → List Node → Option (List Node)
  | 0, _ => none
  | fuel + 1, list =>
      if (swapList list).1 then nodeSwap fuel (swapList list).2 else some (swapList list).2

/-- The loop of `sub_level`, which stops at the node without a next one. -/
def subLevelLoop (n : Nat) (tmpNode : Node) : List Node → List Node
  | [] => [tmpNode]
  | next :: rest =>
      if next.level = tmpNode.level then
        tmpNode :: subLevelLoop (n + 1) { next with i := n + 1 } rest
      else tmpNode :: subLevelLoop 1 next rest

def subLevel : List Node → List Node
  | [] => []
  | head :: rest => subLevelLoop 1 head rest

/-- One line `level:i:path`. -/
structure Line where
  level : Nat
  i : Nat
  path : Path
  deriving DecidableEq

def Node.line (node : Node) : Line := ⟨node.level, node.i, node.path⟩

def printList (list : List Node) : List Line := list.map Node.line

/-- The root is in the list before the walk begins. -/
def main (fs : FileSystem) (str : Path) (fuel : Nat) : Option (List Line) := do
  let list := insertSorted (createNode str 1 1) []
  let list ← openDir fs fuel str 1 list
  let list ← nodeSwap fuel list
  return printList (subLevel list)

/-- The test of `node_swap`. -/
def Node.later (a b : Node) : Bool := a.level = b.level ∧ 0 < strcmp a.path b.path

/-- As long as all numbers are one, exchanging the paths of nodes of one level
exchanges the nodes. -/
theorem swapPass_carry (swap : Bool) (tmpNode : Node) (rest : List Node)
    (hone : ∀ node ∈ tmpNode :: rest, node.i = 1) :
    swapPass swap tmpNode rest =
      (swap || (BubbleSort.carry Node.later tmpNode rest).1,
        (BubbleSort.carry Node.later tmpNode rest).2) := by
  induction rest generalizing swap tmpNode with
  | nil => simp [swapPass, BubbleSort.carry]
  | cons next rest ih =>
      rw [List.forall_mem_cons, List.forall_mem_cons] at hone
      obtain ⟨hone, hnext, hrest⟩ := hone
      unfold swapPass BubbleSort.carry
      split
      · rename_i hgt
        have hlater : tmpNode.later next = true := decide_eq_true hgt
        have hbehind : { next with path := tmpNode.path } = tmpNode := by
          rw [← hgt.1, hnext, ← hone]
        have hhere : { tmpNode with path := next.path } = next := by
          rw [hgt.1, hone, ← hnext]
        rw [hbehind, hhere, ih true tmpNode (List.forall_mem_cons.mpr ⟨hone, hrest⟩), hlater]
        simp
      · rename_i hle
        have hlater : tmpNode.later next = false := decide_eq_false hle
        rw [ih swap next (List.forall_mem_cons.mpr ⟨hnext, hrest⟩), hlater]
        simp

theorem swapList_pass {list : List Node} (hone : ∀ node ∈ list, node.i = 1) :
    swapList list = BubbleSort.pass Node.later list := by
  cases list with
  | nil => rfl
  | cons head rest =>
      have hpass := swapPass_carry false head rest hone
      rw [Bool.false_or] at hpass
      exact hpass

/-- `node_swap` sorts the nodes as bubble sort does. -/
theorem nodeSwap_sort {fuel : Nat} {list out : List Node} (hone : ∀ node ∈ list, node.i = 1)
    (hsort : BubbleSort.sort Node.later fuel list = some out) :
    nodeSwap fuel list = some out := by
  have hpass : ∀ list : List Node, (∀ node ∈ list, node.i = 1) →
      (swapList list).1 = (BubbleSort.pass Node.later list).1 ∧
        (swapList list).2 = (BubbleSort.pass Node.later list).2 ∧
        ∀ node ∈ (swapList list).2, node.i = 1 := by
    intro list hone
    rw [swapList_pass hone]
    refine ⟨rfl, rfl, ?_⟩
    intro node hnode
    exact hone node ((BubbleSort.pass_perm list).mem_iff.mp hnode)
  have hloop : ∀ fuel list, nodeSwap (fuel + 1) list =
      if (swapList list).1 then nodeSwap fuel (swapList list).2 else some (swapList list).2 :=
    fun _ _ => rfl
  obtain ⟨sorted, hswap, rfl, -⟩ := BubbleSort.sort_of_pass hloop id _ hpass hone hsort
  exact hswap

/-- The file in terms of the visits. -/
theorem main_eq {fs : FileSystem} {root : Path} (htree : OpenTree fs.opendir 255 root)
    {fuel : Nat} {visited : List (Nat × Path)}
    (hvisits : visits fs.opendir 255 fuel root 2 = some visited) {list out : List Node}
    (hlist : visited.foldl (fun list v => insertSorted (createNode v.2 v.1 1) list)
      [createNode root 1 1] = list)
    (hone : ∀ node ∈ list, node.i = 1)
    (hsort : BubbleSort.sort Node.later fuel list = some out) :
    main fs root fuel = some (printList (subLevel out)) := by
  have hopen : openDir fs fuel root 1 [createNode root 1 1] = some list := by
    unfold openDir
    rw [walk_eq_visits, visits_getD htree, hvisits, ← hlist]
    rfl
  have hroot : insertSorted (createNode root 1 1) [] = [createNode root 1 1] := rfl
  unfold main
  simp only [hroot, hopen, nodeSwap_sort hone hsort, Option.bind_eq_bind, Option.bind_some]
  rfl

end Cse420.Lister.Dirlist
