import Cse420.Lib.CMemory

/-!
The request queue that `server.c` and `client.c` share through one System V
segment. Everything is found by scanning for single characters: the server
reads from the first `>` on, the client appends before the only `<`. The
functions below take the bytes of the segment and return them changed; no
result means that a loop or a store of the source leaves the segment, or that
it follows a null pointer.
-/

namespace Cse420.Queue

open CMemory

/-- `rqSIZE` of the server, `qSIZE` of the client. -/
def rqSIZE : Nat := 1024 * 1024

def rqHeader : List UInt8 := text "Request Queue ->"

def exitReq : List UInt8 := text "exit"

/-- End of the queue. -/
def lt : UInt8 := '<'.toUInt8

/-- Separator after the header and after every request. -/
def gt : UInt8 := '>'.toUInt8

def space : UInt8 := ' '.toUInt8

/-- What the server keeps of the queue: the attached segment and the global
`RQptr`, an offset into it. -/
structure Server where
  shm : Mem
  RQptr : Nat

/-- `init_shm` after `shmat`: the header, the end marker behind it and a zero
in the last byte. -/
def initShm (shm : Mem) : Option Server := do
  let shm ← storeAll shm 0 rqHeader
  let shm ← store shm rqHeader.length lt
  let shm ← store shm (rqSIZE - 1) 0
  return ⟨shm, 0⟩

/-- The client's `AddReq`. The `memcpy` includes the terminator of `str`,
which the separator then replaces. -/
def addReq (shm : Mem) (str : List UInt8) : Option Mem := do
  let s ← scanTo lt shm
  let s ← scanBack gt shm s
  let s := s + 1
  let shm ← storeAll shm s (str ++ [0])
  let s := s + str.length
  let shm ← store shm s gt
  store shm (s + 1) lt

/-- The loop of `charcount` with its counter. -/
def charcountFrom (i : Nat) : Mem → Option Nat
  | [] => none
  | b :: rest =>
      if b = lt then some i
      else charcountFrom (if b = gt then i + 1 else i) rest

/-- `charcount` ignores both its parameters: it counts `>` in the segment up to
the first `<`. -/
def charcount (shm : Mem) : Option Nat := charcountFrom 0 shm

/-- `strstr(shm, "exit") == NULL`, the test `main` makes before everything it
does. No result means that the segment holds no terminator. -/
def noExit (shm : Mem) : Option Bool :=
  (cstring shm).map fun s => (strstr s exitReq).isNone

/-- `printSHM` of the server walks from `RQptr` to the terminator. With logging
off it prints nothing, so only that the walk ends is kept. -/
def printSHM (server : Server) : Option Unit :=
  (cstring (server.shm.drop server.RQptr)).map fun _ => ()

/-- `while (*s != '>') { str[l] = *s; s++; l++; }`: the block behind `str` and
the final `l`. -/
def copyOut (str : Mem) (l : Nat) : Mem → Option (Mem × Nat)
  | [] => none
  | b :: rest =>
      if b = gt then some (str, l)
      else do
        let str ← store str l b
        copyOut str (l + 1) rest

/-- `while (s != shm - 1)`: the header backwards, then spaces down to the start
of the segment. The first argument is `s + 1`. -/
def rewriteHeader : Nat → Nat → Mem → Option Mem
  | 0, _, shm => some shm
  | s + 1, r, shm => do
      let shm ← store shm s (if 0 < r then rqHeader.getD (r - 1) 0 else space)
      rewriteHeader s (r - 1) shm

/-- `realloc(str, l + 1)`. The bytes of a block that grows are indeterminate,
so growing has no result here. -/
def realloc (str : Mem) (n : Nat) : Option Mem :=
  if n ≤ str.length then some (str.take n) else none

/-- `RQptr = strstr(RQptr, rqHeader)`. -/
def moveRQptr (server : Server) : Option Server := do
  let s ← cstring (server.shm.drop server.RQptr)
  let off ← strstr s rqHeader
  return { server with RQptr := server.RQptr + off }

/-- The loops of `dequeueItem` over the segment up to the rewritten header:
what the block holds, how many bytes of it were copied and the new segment.
`block` is what `malloc(1024)` returned. -/
def dequeueLoops (block shm : Mem) : Option (Mem × Nat × Mem) := do
  let h ← scanTo gt shm
  let s := h + 1
  let (str, l) ← copyOut block 0 (shm.drop s)
  let shm ← rewriteHeader (s + l + 1) rqHeader.length shm
  return (str, l, shm)

/-- `Item` of the server. -/
structure Item where
  dirpath : List UInt8
  keyword : List UInt8
  deriving DecidableEq

/-- The private part of `dequeueItem`: duplicate the string, cut it at its
first space. The loop `for (p = item->dirpath; *p != ' '; p++)` runs over the
duplicate with its terminator. -/
def splitItem (str : Mem) : Option Item := do
  let dirpath ← cstring str
  let p ← scanTo space (dirpath ++ [0])
  return ⟨dirpath.take p, dirpath.drop (p + 1)⟩

/-- `dequeueItem` up to the set-up of the directory semaphore. -/
def dequeueItem (block : Mem) (server : Server) : Option (Item × Server) := do
  let (str, l, shm) ← dequeueLoops block server.shm
  let str ← realloc str (l + 1)
  let server ← moveRQptr { server with shm }
  let item ← splitItem str
  printSHM server
  return (item, server)

/-- Everything `dequeueItem` does with the segment, and the bytes it copies
out of it. -/
def dequeueShm (block : Mem) (server : Server) : Option (List UInt8 × Server) := do
  let (str, l, shm) ← dequeueLoops block server.shm
  let server ← moveRQptr { server with shm }
  printSHM server
  return (str.take l, server)

end Cse420.Queue
