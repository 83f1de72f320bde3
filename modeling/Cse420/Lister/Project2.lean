import Cse420.Lib.BubbleSort
import Cse420.Lib.Interference
import Cse420.Lib.LevelList
import Cse420.Lister.Walk

/-!
`pardirlist.c` of Project2. The list is given by the items of its nodes from
head to tail, since the program moves items between nodes and never looks at an
item through two of them. In parallel mode every item but the first has a worker
that knows it by its address and sets its count; a worker may come to its end
before any step of the main thread.
-/

namespace Cse420.Lister.Project2

open Interference

/-- `MAX_PATH_SIZE`. -/
def maxPathSize : Nat := 256

/-- `count` and `tid` have no value until they are assigned. `addr` is where
`malloc` placed the item. -/
structure Item where
  addr : Nat
  level : Nat
  num : Nat
  count : Option Int
  tid : Option Nat
  path : Path

/-- The list with its size, the workers that were created and those that have
finished. A worker is named by the address of its item. -/
structure State where
  items : List Item
  size : Nat
  started : List Nat
  finished : List Nat

inductive RunMode where
  | sequential
  | parallel
  deriving DecidableEq

/-- `itemAdr->field = value` for the item at this address. -/
def assign (addr : Nat) (f : Item → Item) (s : State) : State :=
  { s with items := s.items.map fun item => if item.addr = addr then f item else item }

section

variable (fs : FileSystem) (keyword : Path)

/-- `item->count = search_test(item->path,keyword)`. -/
def Item.search (item : Item) : Item :=
  { item with count := some (searchTest fs item.path keyword) }

/-- `StartSearch` of the worker of one item, from its creation to its end. -/
def startSearch (s : State) (worker : Nat) : State :=
  if worker ∈ s.started ∧ worker ∉ s.finished then
    { assign worker (Item.search fs keyword) s with finished := worker :: s.finished }
  else s

/-- `AddPath` with its new item at an address not used before. -/
def addPath (level : Nat) (path : Path) (s : State) : State :=
  { s with
    items := LevelList.insert Item.level ⟨s.size, level, 1, none, none, path⟩ s.items
    size := s.size + 1 }

/-- `AddPath(list,level,abspath)->count = search_test(abspath,keyword)`. -/
def visitSeq (level : Nat) (path : Path) (w : World State Nat) : World State Nat :=
  let itemAdr := w.state.size
  let w := act (startSearch fs keyword) (addPath level path) w
  act (startSearch fs keyword) (assign itemAdr fun item =>
    { item with count := some (searchTest fs path keyword) }) w

/-- `AddPath`, the count that shows through if the worker is not waited for,
`pthread_create`, and the thread's id. -/
def visitPar (level : Nat) (path : Path) (w : World State Nat) : World State Nat :=
  let itemAdr := w.state.size
  let w := act (startSearch fs keyword) (addPath level path) w
  let w := act (startSearch fs keyword) (assign itemAdr ({ · with count := some 69 })) w
  let w := act (startSearch fs keyword) (fun s => { s with started := itemAdr :: s.started }) w
  act (startSearch fs keyword) (assign itemAdr ({ · with tid := some itemAdr })) w

/-- `AddPath(list,1,path)->count = 0`. -/
def visitRoot (path : Path) (w : World State Nat) : World State Nat :=
  let itemAdr := w.state.size
  let w := act (startSearch fs keyword) (addPath 1 path) w
  act (startSearch fs keyword) (assign itemAdr ({ · with count := some 0 })) w

/-- `printDirSeq`. The recursive calls have a level above one, so that only the
first call adds its own path. -/
def printDirSeq (fuel : Nat) (path : Path) (lvl : Nat) (w : World State Nat) :
    Option (World State Nat) :=
  walk fs.opendir maxPathSize (visitSeq fs keyword) fuel path (lvl + 1)
    (if lvl = 1 then visitSeq fs keyword 1 path w else w)

/-- `printDirPar`. -/
def printDirPar (fuel : Nat) (path : Path) (lvl : Nat) (w : World State Nat) :
    Option (World State Nat) :=
  walk fs.opendir maxPathSize (visitPar fs keyword) fuel path (lvl + 1)
    (if lvl = 1 then visitRoot fs keyword path w else w)

/-- The inner loop of `SortHelper` from the node at `i` on, with at most `n`
nodes behind it. The exchange moves the items, which no worker notices. -/
def sortPass : Nat → Nat → Bool → World State Nat → Bool × World State Nat
  | 0, _, swap, w => (swap, w)
  | n + 1, i, swap, w =>
      let w := tick (startSearch fs keyword) w
      match w.state.items[i]?, w.state.items[i + 1]? with
      | some a, some b =>
          if a.level = b.level ∧ 0 < strcmp a.path b.path then
            sortPass n (i + 1) true { w with
              state := { w.state with items := (w.state.items.set i b).set (i + 1) a } }
          else sortPass n (i + 1) swap w
      | _, _ => (swap, w)

/-- `SortHelper(list->head, list)`. -/
def sortHelper : Nat → World State Nat → Option (World State Nat)
  | 0, _ => none
  | fuel + 1, w =>
      let (swap, w) := sortPass fs keyword w.state.items.length 0 false w
      if swap then sortHelper fuel w else some w

/-- The loop of `NumberChildren` with `n` rounds to go. No result where it
follows a missing `next`. -/
def numberLoop : Nat → Nat → Nat → World State Nat → Option (World State Nat)
  | 0, _, _, w => some w
  | n + 1, i, inum, w =>
      let w := tick (startSearch fs keyword) w
      match w.state.items[i]?, w.state.items[i + 1]? with
      | some a, some b =>
          if b.level = a.level then
            numberLoop n (i + 1) (inum + 1) { w with
              state := { w.state with
                items := w.state.items.set (i + 1) { b with num := inum + 1 } } }
          else numberLoop n (i + 1) 1 w
      | _, _ => none

def numberChildren (w : World State Nat) : Option (World State Nat) :=
  numberLoop fs keyword (w.state.size - 1) 0 1 w

/-- `pthread_join`: what is left of the worker takes place now at the latest. A
`tid` that was never assigned is joined without effect. -/
def pthreadJoin (tid : Option Nat) (s : State) : State :=
  match tid with
  | none => s
  | some worker => startSearch fs keyword s worker

/-- One line `level:num:count:path`. -/
structure Record where
  level : Nat
  num : Nat
  count : Option Int
  path : Path
  deriving DecidableEq

def Item.record (item : Item) : Record := ⟨item.level, item.num, item.count, item.path⟩

/-- The loop of `fileWriter` from the node at `i` on. -/
def writeLoop (runMode : RunMode) : Nat → Nat → World State Nat → List Record
  | 0, _, _ => []
  | n + 1, i, w =>
      let w := tick (startSearch fs keyword) w
      match w.state.items[i]? with
      | none => []
      | some node =>
          let w := if runMode = .parallel then
            { w with state := pthreadJoin fs keyword node.tid w.state } else w
          let w := tick (startSearch fs keyword) w
          ((w.state.items[i]?).map Item.record).toList ++ writeLoop runMode n (i + 1) w

def fileWriter (runMode : RunMode) (w : World State Nat) : List Record :=
  writeLoop fs keyword runMode w.state.items.length 0 w

/-- `main` from the empty list to the file. -/
def main (runMode : RunMode) (testpath : Path) (fuel : Nat) (schedule : List (List Nat)) :
    Option (List Record) := do
  let mylist : World State Nat := ⟨⟨[], 0, [], []⟩, schedule⟩
  let mylist ← match runMode with
    | .parallel => printDirPar fs keyword fuel testpath 1 mylist
    | .sequential => printDirSeq fs keyword fuel testpath 1 mylist
  let mylist ← sortHelper fs keyword fuel mylist
  let mylist ← numberChildren fs keyword mylist
  return fileWriter fs keyword runMode mylist

end

end Cse420.Lister.Project2
