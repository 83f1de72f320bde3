import Cse420.Lib.Owned
import Cse420.Lib.Returns
import Cse420.Lister.AddPath
import Cse420.Lister.Listing

/-!
`pardirlist.c` of Project2 in memory, from the copies it makes of its arguments to
the last `free`. Nodes, items and strings are blocks; using one that is not
allocated, or freeing it again, has no result. A worker knows its item by the
address and reads the path and the keyword through pointers when its turn comes,
at any moment between its creation and the `pthread_join` that waits for it.
-/

namespace Cse420.Lister.Memory

open DoublyLinked Interference
open Project2 (RunMode Record maxPathSize)

/-- `path` is the address of a string. `count` has no value until it is assigned. -/
structure Item where
  level : Nat
  num : Nat
  count : Option Int
  tid : Option Nat
  path : Nat

structure SDLL where
  head : Option Nat
  tail : Option Nat
  size : Nat

/-- What is allocated, what an item finds as its `tid` at an address, and the
threads: the item each of them was given, in the order of their creation, which of
them have ended and which have been joined. The first is the main thread, which has
no item. A `tid` of `none` is a value that `pthread_join` answers without effect. -/
structure Store where
  nodes : Heap (Cell Nat)
  items : Heap Item
  strings : Heap Path
  stale : Nat → Option Nat
  list : Option SDLL
  threads : List (Option Nat)
  finished : List Nat
  joined : List Nat

/-- The process at its start, whatever else is in memory. -/
def start (nodes : Heap (Cell Nat)) (items : Heap Item) (strings : Heap Path)
    (stale : Nat → Option Nat) : Store :=
  ⟨nodes, items, strings, stale, none, [none], [], []⟩

structure Allocator where
  node : Heap.Malloc (Cell Nat)
  item : Heap.Malloc Item
  string : Heap.Malloc Path

/-- The main thread. -/
abbrev Program (β : Type) := StateT (World Store Nat) Option β

section Steps

/-- `n->next`. -/
def next (n : Option Nat) : StateT Store Option (Option Nat) := fun m => do
  let node ← m.nodes.read n
  return (node.next, m)

def Store.itemAt (m : Store) (n : Nat) : Option (Nat × Item) := do
  let node ← m.nodes.block n
  let item ← m.items.block node.val
  return (node.val, item)

def size : StateT Store Option Nat := fun m => do
  let list ← m.list
  return (list.size, m)

def head : StateT Store Option (Option Nat) := fun m => do
  let list ← m.list
  return (list.head, m)

def load (a : Nat) : StateT Store Option Path := fun m => do
  let s ← m.strings.block a
  return (s, m)

/-- `strdup`, and `malloc` with the `sprintf` behind it. -/
def strdup (malloc : Allocator) (s : Path) : StateT Store Option Nat := fun m =>
  let a := malloc.string.address m.strings
  some (a, { m with strings := m.strings.put a s })

def freeString (a : Nat) : StateT Store Option Unit := fun m => do
  let strings ← m.strings.free (some a)
  return ((), { m with strings })

/-- `AddPath` returns the address of the new item, whose `tid` it leaves as it is. -/
def addPath (malloc : Allocator) (level path : Nat) : StateT Store Option Nat := fun m => do
  let list ← m.list
  let newitem := malloc.item.address m.items
  let copy := malloc.string.address m.strings
  let strings := m.strings.put copy (← m.strings.block path)
  let items := m.items.put newitem ⟨level, 1, none, m.stale newitem, copy⟩
  let newNode := malloc.node.address m.nodes
  let (nodes, head, tail) ← AddPath.insertNode
    (fun item => (items.block item).map fun x => (x.level : Int)) list.size m.nodes list.head
    list.tail newNode newitem level
  return (newitem, { m with nodes, items, strings, list := some ⟨head, tail, list.size + 1⟩ })

/-- `itemAdr->field = value`. -/
def assign (itemAdr : Nat) (f : Item → Item) : StateT Store Option Unit := fun m => do
  let items ← m.items.modify (some itemAdr) f
  return ((), { m with items })

/-- The test of `SortHelper`. -/
def later (curNode next : Nat) : StateT Store Option Bool := fun m => do
  let (_, a) ← m.itemAt curNode
  let (_, b) ← m.itemAt next
  let p ← m.strings.block a.path
  let q ← m.strings.block b.path
  return (a.level = b.level ∧ 0 < strcmp p q, m)

/-- The nodes exchange their items. -/
def exchange (curNode next : Nat) : StateT Store Option Unit := fun m => do
  let temp ← m.nodes.block curNode
  let other ← m.nodes.block next
  let nodes ← m.nodes.modify (some curNode) ({ · with val := other.val })
  let nodes ← nodes.modify (some next) ({ · with val := temp.val })
  return ((), { m with nodes })

/-- `curNode->next->item->level == curNode->item->level`. -/
def sameLevel (curNode next : Nat) : StateT Store Option Bool := fun m => do
  let (_, a) ← m.itemAt curNode
  let (_, b) ← m.itemAt next
  return (b.level = a.level, m)

def setNum (node num : Nat) : StateT Store Option Unit := fun m => do
  let (item, x) ← m.itemAt node
  return ((), { m with items := m.items.put item { x with num } })

/-- `pthread_create` returns the number of the thread. -/
def pthreadCreate (itemAdr : Nat) : StateT Store Option Nat := fun m =>
  some (m.threads.length, { m with threads := m.threads ++ [some itemAdr] })

/-- The values of one line. -/
def record (node : Nat) : StateT Store Option Record := fun m => do
  let (_, item) ← m.itemAt node
  let path ← m.strings.block item.path
  return (⟨item.level, item.num, item.count, path⟩, m)

/-- `free(n->item->path)`. -/
def freePath (n : Nat) : StateT Store Option Unit := fun m => do
  let (_, item) ← m.itemAt n
  let strings ← m.strings.free (some item.path)
  return ((), { m with strings })

/-- `free(n->item)`. -/
def freeItem (n : Nat) : StateT Store Option Unit := fun m => do
  let node ← m.nodes.block n
  let items ← m.items.free (some node.val)
  return ((), { m with items })

def freeNode (n : Nat) : StateT Store Option Unit := fun m => do
  let nodes ← m.nodes.free (some n)
  return ((), { m with nodes })

/-- `free(list)`. -/
def freeList : StateT Store Option Unit := fun m => do
  let _ ← m.list
  return ((), { m with list := none })

/-- `init_SortedDoublyLinkedList`. -/
def initList : StateT Store Option Unit := fun m =>
  some ((), { m with list := some ⟨none, none, 0⟩ })

end Steps

section Program

variable (fs : FileSystem) (malloc : Allocator) (keyword : Nat)

/-- `StartSearch` of one thread, from its creation to its end. -/
def startSearch (m : Store) (thread : Nat) : Option Store :=
  match m.threads[thread]?.join with
  | none => some m
  | some item =>
      if thread ∈ m.finished then some m
      else do
        let x ← m.items.block item
        let path ← m.strings.block x.path
        let word ← m.strings.block keyword
        return { m with
          items := m.items.put item { x with count := some (searchTest fs path word) }
          finished := thread :: m.finished }

/-- `AddPath(list,level,abspath)->count = search_test(abspath,keyword)`. -/
def visitSeq (level path : Nat) : Program Unit := do
  let itemAdr ← act? (startSearch fs keyword) (addPath malloc level path)
  act? (startSearch fs keyword) do
    let text ← load path
    let word ← load keyword
    assign itemAdr ({ · with count := some (searchTest fs text word) })

/-- `AddPath`, the count that shows through if the worker is not waited for,
`pthread_create`, and the thread's id. -/
def visitPar (level path : Nat) : Program Unit := do
  let itemAdr ← act? (startSearch fs keyword) (addPath malloc level path)
  act? (startSearch fs keyword) (assign itemAdr ({ · with count := some 69 }))
  let tid ← act? (startSearch fs keyword) (pthreadCreate itemAdr)
  act? (startSearch fs keyword) (assign itemAdr ({ · with tid := some tid }))

/-- `AddPath(list,1,path)->count = 0`. -/
def visitRoot (path : Nat) : Program Unit := do
  let itemAdr ← act? (startSearch fs keyword) (addPath malloc 1 path)
  act? (startSearch fs keyword) (assign itemAdr ({ · with count := some 0 }))

/-- `malloc` and `sprintf`, a use of the string, and `free`. -/
def withString (text : Path) (use : Nat → Program Unit) : Program Unit := do
  let a ← perform (strdup malloc text)
  use a
  perform (freeString a)

/-- One round of the loop over the entries of a directory, where `below` goes
through another one. -/
def printEntry (visit : Nat → Nat → Program Unit) (below : Nat → Program Unit)
    (path level : Nat) (entry : Dirent) : Program Unit :=
  if entry.hidden then pure ()
  else do
    let name ← perform (load path)
    if maxPathSize ≤ (join name entry.dName).length then fun _ => none
    else do
      withString malloc (join name entry.dName) fun abspath => visit level abspath
      if entry.dType = 4 then do
        let name ← perform (load path)
        withString malloc (join name entry.dName) fun chpath => below chpath
      else pure ()

/-- `printDirSeq` and `printDirPar` behind their first lines. -/
def printDir (visit : Nat → Nat → Program Unit) : Nat → Nat → Nat → Program Unit
  | 0, _, _ => fun _ => none
  | fuel + 1, path, level => do
      let name ← perform (load path)
      let entries ← fs.opendir name
      entries.forM (printEntry malloc visit (fun chpath => printDir visit fuel chpath (level + 1))
        path level)

def printDirSeq (fuel path lvl : Nat) : Program Unit := do
  if lvl = 1 then visitSeq fs malloc keyword 1 path
  printDir fs malloc (visitSeq fs malloc keyword) fuel path (lvl + 1)

def printDirPar (fuel path lvl : Nat) : Program Unit := do
  if lvl = 1 then visitRoot fs malloc keyword path
  printDir fs malloc (visitPar fs malloc keyword) fuel path (lvl + 1)

/-- The inner loop of `SortHelper`: the node it ends at, and `Swap`. -/
def sortPass : Nat → Nat → Bool → Program (Nat × Bool)
  | 0, _, _ => fun _ => none
  | fuel + 1, curNode, swap => do
      match ← act? (startSearch fs keyword) (next (some curNode)) with
      | none => return (curNode, swap)
      | some nextNode => do
          if ← perform (later curNode nextNode) then do
            perform (exchange curNode nextNode)
            sortPass fuel nextNode true
          else sortPass fuel nextNode swap

/-- `SortHelper`. The inner loop leaves `curNode` at the tail. -/
def sortHelper : Nat → Option Nat → Program Unit
  | 0, _ => fun _ => none
  | fuel + 1, curNode => do
      if (← perform (next curNode)).isNone then return ()
      else do
        let n ← perform size
        let first ← curNode
        let (last, swap) ← sortPass fs keyword n first false
        if swap then do
          let first ← perform head
          sortHelper fuel first
        else sortHelper fuel (some last)

/-- `SortChildren`. -/
def sortChildren (fuel : Nat) : Program Unit := do
  let first ← perform head
  sortHelper fs keyword fuel first

/-- The loop of `NumberChildren` with `n` rounds to go. -/
def numberLoop : Nat → Option Nat → Nat → Program Unit
  | 0, _, _ => pure ()
  | n + 1, curNode, inum => do
      let nextNode ← act? (startSearch fs keyword) (next curNode)
      let cur ← curNode
      let other ← nextNode
      if ← perform (sameLevel cur other) then do
        perform (setNum other (inum + 1))
        numberLoop n nextNode (inum + 1)
      else numberLoop n nextNode 1

def numberChildren : Program Unit := do
  let n ← perform size
  let first ← perform head
  numberLoop fs keyword (n - 1) first 1

/-- `pthread_join(node->item->tid,NULL)`. No result for what is neither the id of a
thread that was not joined before nor answered without effect. -/
def pthreadJoin (node : Nat) : StateT Store Option Unit := fun m => do
  let (_, item) ← m.itemAt node
  match item.tid with
  | none => return ((), m)
  | some thread =>
      if (m.threads[thread]?.join).isNone ∨ thread ∈ m.joined then none
      else do
        let m ← startSearch fs keyword m thread
        return ((), { m with joined := thread :: m.joined })

/-- The loop of `fileWriter`. -/
def writeLoop (runMode : RunMode) : Nat → Option Nat → Program (List Record)
  | 0, _ => fun _ => none
  | _ + 1, none => pure []
  | fuel + 1, some node => do
      act? (startSearch fs keyword)
        (if runMode = .parallel then pthreadJoin fs keyword node else pure ())
      let line ← act? (startSearch fs keyword) (record node)
      let behind ← perform (next (some node))
      let lines ← writeLoop runMode fuel behind
      return line :: lines

def fileWriter (runMode : RunMode) : Program (List Record) := do
  let n ← perform size
  let first ← perform head
  writeLoop fs keyword runMode (n + 1) first

/-- The loop of `destroySDLL`. -/
def destroyLoop : Nat → Option Nat → Program Unit
  | 0, _ => fun _ => none
  | _ + 1, none => pure ()
  | fuel + 1, some n => do
      act? (startSearch fs keyword) (freePath n)
      act? (startSearch fs keyword) (freeItem n)
      let behind ← perform (next (some n))
      act? (startSearch fs keyword) (freeNode n)
      destroyLoop fuel behind

def destroySDLL : Program Unit := do
  let n ← perform size
  let first ← perform head
  destroyLoop fs keyword (n + 1) first
  act? (startSearch fs keyword) freeList

end Program

/-- `main` with all its arguments. -/
def main (fs : FileSystem) (malloc : Allocator) (runMode : RunMode) (argv1 argv2 : Path)
    (fuel : Nat) : Program (List Record) := do
  let testpath ← perform (strdup malloc argv1)
  let keyword ← perform (strdup malloc argv2)
  perform initList
  (match runMode with
    | .parallel => printDirPar fs malloc keyword fuel testpath 1
    | .sequential => printDirSeq fs malloc keyword fuel testpath 1)
  sortChildren fs keyword (fuel + 1)
  numberChildren fs keyword
  let out ← fileWriter fs keyword runMode
  destroySDLL fs keyword
  act? (startSearch fs keyword) (freeString testpath)
  act? (startSearch fs keyword) (freeString keyword)
  return out

end Cse420.Lister.Memory
