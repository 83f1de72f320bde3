import Cse420.Lib.BubbleSort
import Cse420.Lib.Interference
import Cse420.Lib.LevelList
import Cse420.Lister.Walk

/-!
`pardirlist.c` of Lin. Nodes stay where they are in the list and the sort moves
their paths and search values; a worker keeps the address of its node. The
number of a worker is its place in the order of creation, and it takes two
steps: it reads the path of its node, and later it stores what it has found. A
path that was read stays readable here, while the program frees it when the
sort replaces it.
-/

namespace Cse420.Lister.Lin

open Interference

structure Node where
  addr : Nat
  path : Path
  level : Nat
  i : Nat
  search : Int

/-- `makeThread` before its first step, inside `keyword_search`, and at its end. -/
inductive Pc where
  | start
  | searching (filePath : Path)
  | done
  deriving DecidableEq

structure Thread where
  arg : Nat
  pc : Pc

/-- The list from head to tail, the node that `open_dir` has created and not
inserted yet, how many nodes there are, the workers, and `TID_list`. -/
structure State where
  list : List Node
  tmpNode : Option Node
  size : Nat
  threads : List Thread
  tidList : List Nat

def Node.setSearch (search : Int) (node : Node) : Node := { node with search := search }

/-- `node->search = search` for the node at this address. -/
def assign (addr : Nat) (search : Int) (s : State) : State :=
  { s with
    list := s.list.map fun node => if node.addr = addr then node.setSearch search else node
    tmpNode := s.tmpNode.map fun node =>
      if node.addr = addr then node.setSearch search else node }

def State.nodes (s : State) : List Node := s.tmpNode.toList ++ s.list

section

variable (fs : FileSystem) (keyword : Path)

/-- The next step of a worker. -/
def makeThread (s : State) (tid : Nat) : State :=
  match s.threads[tid]? with
  | none => s
  | some ⟨arg, .start⟩ =>
      match s.nodes.find? (·.addr = arg) with
      | none => s
      | some tmpNode =>
          { s with threads := s.threads.set tid ⟨arg, .searching tmpNode.path⟩ }
  | some ⟨arg, .searching filePath⟩ =>
      { assign arg (keywordSearch fs filePath keyword) s with
        threads := s.threads.set tid ⟨arg, .done⟩ }
  | some ⟨_, .done⟩ => s

/-- `create_node`, whose result becomes `tmpNode`. -/
def createNode (path : Path) (level i : Nat) (s : State) : State :=
  { s with tmpNode := some ⟨s.size, path, level, i, -69⟩, size := s.size + 1 }

/-- `insert_sorted(tmpNode, list)`. -/
def insertSorted (s : State) : State :=
  match s.tmpNode with
  | none => s
  | some node => { s with list := LevelList.insert Node.level node s.list, tmpNode := none }

/-- `pthread_create(&tid, &attr, &makeThread, tmpNode)`. -/
def pthreadCreate (s : State) : State :=
  { s with threads := s.threads ++ (s.tmpNode.map fun node => ⟨node.addr, .start⟩).toList }

/-- `addTID` puts the new one in front. -/
def addTID (tid : Nat) (s : State) : State := { s with tidList := tid :: s.tidList }

/-- What `open_dir` does for an entry if `ParMode` is 0, and `main` for the root. -/
def visitSeq (level : Nat) (path : Path) (w : World State Nat) : World State Nat :=
  let w := act (makeThread fs keyword) (createNode path level 1) w
  let w := act (makeThread fs keyword) (fun s =>
    { s with tmpNode := s.tmpNode.map (Node.setSearch (keywordSearch fs path keyword)) }) w
  act (makeThread fs keyword) insertSorted w

/-- What `open_dir` does for an entry otherwise. The worker exists before its
node is in the list. -/
def visitPar (level : Nat) (path : Path) (w : World State Nat) : World State Nat :=
  let tid := w.state.threads.length
  let w := act (makeThread fs keyword) (createNode path level 1) w
  let w := act (makeThread fs keyword) pthreadCreate w
  let w := act (makeThread fs keyword) (addTID tid) w
  act (makeThread fs keyword) insertSorted w

/-- `open_dir`. A directory that does not open is passed over, and `sub_path`
has 255 bytes. -/
def openDir (parMode : Int) (fuel : Nat) (dirPath : Path) (x : Nat) (w : World State Nat) :
    Option (World State Nat) :=
  walk (fun path => some ((fs.opendir path).getD [])) 255
    (if parMode = 0 then visitSeq fs keyword else visitPar fs keyword) fuel dirPath (x + 1) w

/-- `pthread_join`: what is left of the worker takes place now at the latest. -/
def pthreadJoin (tid : Nat) (s : State) : State :=
  makeThread fs keyword (makeThread fs keyword s tid) tid

/-- The loop of `joinThreads` from this part of `TID_list` on. It looks at the
`next` of a node before it joins it, and there is no result without a node. -/
def joinLoop : List Nat → World State Nat → Option (World State Nat)
  | [], _ => none
  | [_], w => some w
  | curNode :: next :: rest, w =>
      joinLoop (next :: rest) (act (makeThread fs keyword) (pthreadJoin fs keyword curNode) w)

def joinThreads (w : World State Nat) : Option (World State Nat) :=
  joinLoop fs keyword w.state.tidList w

/-- A store to the node at place `i` of the list. -/
def setNode (i : Nat) (f : Node → Node) (s : State) : State :=
  { s with list := s.list.modify i f }

/-- The body of the `if` in `node_swap`, store by store. -/
def exchange (i : Nat) (w : World State Nat) : World State Nat :=
  let w := tick (makeThread fs keyword) w
  match w.state.list[i]?, w.state.list[i + 1]? with
  | some tmpNode, some next =>
      let tempPath := tmpNode.path
      let svalue := tmpNode.search
      let w := act (makeThread fs keyword) (setNode i ({ · with path := next.path })) w
      let w := act (makeThread fs keyword) (fun s =>
        setNode i (Node.setSearch ((s.list[i + 1]?).elim 0 Node.search)) s) w
      let w := act (makeThread fs keyword) (setNode (i + 1) ({ · with path := tempPath })) w
      act (makeThread fs keyword) (setNode (i + 1) (Node.setSearch svalue)) w
  | _, _ => w

/-- The inner loop of `node_swap` from the node at `i` on, with at most `n`
nodes behind it. -/
def swapPass : Nat → Nat → Bool → World State Nat → Bool × World State Nat
  | 0, _, swap, w => (swap, w)
  | n + 1, i, swap, w =>
      let w := tick (makeThread fs keyword) w
      match w.state.list[i]?, w.state.list[i + 1]? with
      | some tmpNode, some next =>
          if tmpNode.level = next.level ∧ 0 < strcmp tmpNode.path next.path then
            swapPass n (i + 1) true (exchange fs keyword i w)
          else swapPass n (i + 1) swap w
      | _, _ => (swap, w)

/-- `node_swap(list->head, list)`. -/
def nodeSwap : Nat → World State Nat → Option (World State Nat)
  | 0, _ => none
  | fuel + 1, w =>
      let (swap, w) := swapPass fs keyword w.state.list.length 0 false w
      if swap then nodeSwap fuel w else some w

/-- The loop of `sub_level`. -/
def subLevelLoop : Nat → Nat → Nat → World State Nat → World State Nat
  | 0, _, _, w => w
  | k + 1, j, n, w =>
      let w := tick (makeThread fs keyword) w
      match w.state.list[j]?, w.state.list[j + 1]? with
      | some tmpNode, some next =>
          if next.level = tmpNode.level then
            subLevelLoop k (j + 1) (n + 1)
              { w with state := setNode (j + 1) ({ · with i := n + 1 }) w.state }
          else subLevelLoop k (j + 1) 1 w
      | _, _ => w

def subLevel (w : World State Nat) : World State Nat :=
  subLevelLoop fs keyword w.state.list.length 0 1 w

/-- One line `level:i:search:path`. -/
structure Line where
  level : Nat
  i : Nat
  search : Int
  path : Path
  deriving DecidableEq

def Node.line (node : Node) : Line := ⟨node.level, node.i, node.search, node.path⟩

/-- The loop of `print_list`. -/
def printLoop : Nat → Nat → World State Nat → List Line
  | 0, _, _ => []
  | n + 1, i, w =>
      let w := tick (makeThread fs keyword) w
      match w.state.list[i]? with
      | none => []
      | some ptr => ptr.line :: printLoop n (i + 1) w

def printList (w : World State Nat) : List Line :=
  printLoop fs keyword w.state.list.length 0 w

/-- `main` up to the call of `node_swap`. -/
def beforeSwap (parMode : Int) (path : Path) (fuel : Nat) (schedule : List (List Nat)) :
    Option (World State Nat) := do
  let list := visitSeq fs keyword 1 path ⟨⟨[], none, 0, [], []⟩, schedule⟩
  let list ← openDir fs keyword parMode fuel path 1 list
  if parMode = 1 then joinThreads fs keyword list else some list

/-- `main` from the call of `node_swap` on. -/
def afterSwap (fuel : Nat) (list : World State Nat) : Option (List Line) := do
  let list ← nodeSwap fs keyword fuel list
  return printList fs keyword (subLevel fs keyword list)

def main (parMode : Int) (path : Path) (fuel : Nat) (schedule : List (List Nat)) :
    Option (List Line) := do
  let list ← beforeSwap fs keyword parMode path fuel schedule
  afterSwap fs keyword fuel list

end

end Cse420.Lister.Lin
