import Cse420.Queue.Block
import Cse420.Queue.Fifo

/-!
From a line of the client's input file to the item the server works on. The
client parses the line in place in its `fgets` buffer, the server splits the
bytes again at their first space, and the two programs agree only through the
bytes in the segment.
-/

namespace Cse420.Queue

open CMemory

def slash : UInt8 := '/'.toUInt8

def newline : UInt8 := '\n'.toUInt8

/-- The loop of `rws` on the string at offset `p`: `i` reads, `j` writes. The
store is inside the buffer because `j` never passes `i`. -/
def rwsLoop (p : Nat) (m : Mem) (i j : Nat) : Option (Mem × Nat) :=
  if h : p + i < m.length then
    if m[p + i] = 0 then some (m, j)
    else if m[p + i] = space then rwsLoop p m (i + 1) j
    else rwsLoop p (m.set (p + j) m[p + i]) (i + 1) (j + 1)
  else none
termination_by m.length - (p + i)
decreasing_by
  · omega
  · simp only [List.length_set]
    omega

/-- `rws`: remove the spaces of the string at `p` in place. -/
def rws (m : Mem) (p : Nat) : Option Mem := do
  let (m, j) ← rwsLoop p m 0 0
  store m (p + j) 0

/-- `parseReq`. The two pointers `rest` and `rawReq` point into the same buffer,
so removing the spaces and cutting at the newline change what `rest` shows. The
size of the block leaves out the terminator, so `sprintf` stays inside only if
`malloc` gave a byte more than it was asked for. A search that finds nothing
gives a null pointer, which has no result. -/
def parseReq (malloc : Malloc) (buffer : Mem) : Option (Mem × List UInt8) := do
  let path := text ""
  let line ← cstring buffer
  let rest ← strstr line (text "/")
  let gap ← strstr line (text " ")
  let rawReq := gap + 1
  let buffer ← rws buffer rawReq
  let raw ← cstring (buffer.drop rawReq)
  let cut ← scanTo newline raw
  let buffer ← store buffer (rawReq + cut) 0
  let restStr ← cstring (buffer.drop rest)
  let Request ← sprintf (malloc.usable (path.length + restStr.length)) (path ++ restStr)
  return (buffer, Request)

/-- The body of the loop up to the call of `AddReq`: the buffer that is left and
the string that is passed. -/
def readRequest (malloc : Malloc) (buffer : Mem) : Option (Mem × List UInt8) := do
  let line ← cstring buffer
  if (strstr line exitReq).isNone then parseReq malloc buffer
  else return (buffer, exitReq)

/-- What `readfile` does with one buffer that `fgets` has filled. -/
def readLine (malloc : Malloc) (buffer shm : Mem) : Option Mem := do
  let (_, request) ← readRequest malloc buffer
  addReq shm request

/-- The bytes that are left when every space is removed. -/
def squeeze (s : List UInt8) : List UInt8 := s.filter (· != space)

theorem strstr_singleton (s : List UInt8) (c : UInt8) : strstr s [c] = scanTo c s := by
  induction s with
  | nil => rfl
  | cons b rest ih =>
      by_cases h : b = c
      · simp [strstr, scanTo, h]
      · simp [strstr, scanTo, h, ih, Ne.symm h]

theorem zero_not_mem_squeeze {s : List UInt8} (h : 0 ∉ s) : 0 ∉ squeeze s :=
  fun hmem => h (List.mem_of_mem_filter hmem)

section Parse

variable {p i j : Nat} {m : Mem}

theorem rwsLoop_end (h : m[p + i]? = some 0) : rwsLoop p m i j = some (m, j) := by
  obtain ⟨hlt, heq⟩ := List.getElem?_eq_some_iff.mp h
  rw [rwsLoop, dif_pos hlt, heq, if_pos rfl]

theorem rwsLoop_space (h : m[p + i]? = some space) :
    rwsLoop p m i j = rwsLoop p m (i + 1) j := by
  obtain ⟨hlt, heq⟩ := List.getElem?_eq_some_iff.mp h
  rw [rwsLoop, dif_pos hlt, heq, if_neg (by decide), if_pos rfl]

theorem rwsLoop_keep {b : UInt8} (h : m[p + i]? = some b) (hzero : b ≠ 0)
    (hspace : b ≠ space) :
    rwsLoop p m i j = rwsLoop p (m.set (p + j) b) (i + 1) (j + 1) := by
  obtain ⟨hlt, heq⟩ := List.getElem?_eq_some_iff.mp h
  rw [rwsLoop, dif_pos hlt, heq, if_neg hzero, if_neg hspace]

private theorem read_unread (head kept gap rest : List UInt8) (b : UInt8) :
    (head ++ kept ++ (gap ++ b :: rest))[head.length + (kept.length + gap.length)]? =
      some b := by
  rw [← List.append_assoc, List.getElem?_append_right (by simp)]
  simp

/-- The two-index loop. In front of `i` stand the bytes already kept and a gap
of bytes already read; the unread bytes are still those of the string. -/
theorem rwsLoop_spec (head kept gap todo tail : List UInt8) (htodo : 0 ∉ todo) :
    ∃ gap', rwsLoop head.length (head ++ kept ++ (gap ++ (todo ++ 0 :: tail)))
        (kept.length + gap.length) kept.length =
      some (head ++ (kept ++ squeeze todo) ++ (gap' ++ 0 :: tail),
        (kept ++ squeeze todo).length) := by
  induction todo generalizing kept gap with
  | nil =>
      refine ⟨gap, ?_⟩
      rw [List.nil_append, rwsLoop_end (read_unread head kept gap tail 0)]
      simp [squeeze]
  | cons b todo ih =>
      have hb : b ≠ 0 := fun heq => htodo (by simp [heq])
      have hrest : 0 ∉ todo := fun hmem => htodo (by simp [hmem])
      by_cases hspace : b = space
      · subst hspace
        obtain ⟨gap', hgap⟩ := ih kept (gap ++ [space]) hrest
        refine ⟨gap', ?_⟩
        rw [List.cons_append,
          rwsLoop_space (read_unread head kept gap (todo ++ 0 :: tail) space)]
        simpa [squeeze, Nat.add_assoc] using hgap
      · obtain ⟨g, gs, hgs⟩ : ∃ g gs, gap ++ [b] = g :: gs := by
          cases gap with
          | nil => exact ⟨b, [], rfl⟩
          | cons g gap => exact ⟨g, gap ++ [b], rfl⟩
        have hlen : gs.length = gap.length := by
          have := congrArg List.length hgs
          simpa using this.symm
        obtain ⟨gap', hgap⟩ := ih (kept ++ [b]) gs hrest
        refine ⟨gap', ?_⟩
        rw [List.cons_append,
          rwsLoop_keep (read_unread head kept gap (todo ++ 0 :: tail) b) hb hspace]
        have hset : (head ++ kept ++ (gap ++ b :: (todo ++ 0 :: tail))).set
            (head.length + kept.length) b =
            head ++ (kept ++ [b]) ++ (gs ++ (todo ++ 0 :: tail)) := by
          have hsplit : gap ++ b :: (todo ++ 0 :: tail) =
              g :: (gs ++ (todo ++ 0 :: tail)) := by
            rw [← List.cons_append (a := g), ← hgs]
            simp
          rw [hsplit, ← List.length_append]
          simp
        have hsqueeze : squeeze (b :: todo) = b :: squeeze todo := by
          simp [squeeze, hspace]
        rw [hset, hsqueeze]
        simpa [hlen, Nat.add_assoc, Nat.add_comm 1] using hgap

/-- `rws` leaves the string without its spaces, terminated where it now ends. -/
theorem rws_spec (head todo tail : List UInt8) (htodo : 0 ∉ todo) :
    ∃ junk, rws (head ++ (todo ++ 0 :: tail)) head.length =
      some (head ++ (squeeze todo ++ 0 :: junk)) := by
  obtain ⟨gap, hloop⟩ := rwsLoop_spec head [] [] todo tail htodo
  simp only [List.append_nil, List.nil_append, List.length_nil, Nat.add_zero] at hloop
  obtain ⟨c, junk, hjunk⟩ : ∃ c junk, gap ++ 0 :: tail = c :: junk := by
    cases gap with
    | nil => exact ⟨0, tail, rfl⟩
    | cons g gap => exact ⟨g, gap ++ 0 :: tail, rfl⟩
  have hstore := store_append (head ++ squeeze todo) junk c 0
  rw [List.length_append] at hstore
  refine ⟨junk, ?_⟩
  rw [rws, hloop, hjunk]
  simpa using hstore

/-- A well-formed line in the buffer, followed by the terminator `fgets` wrote
and by whatever the buffer held before. -/
theorem parseReq_spec (malloc : Malloc) (pre path tail junk : List UInt8)
    (hpre : slash ∉ pre ∧ space ∉ pre) (hpath : path.head? = some slash ∧ space ∉ path)
    (hzero : 0 ∉ pre ∧ 0 ∉ path ∧ 0 ∉ tail) (hnewline : newline ∉ tail) :
    ∃ buffer, parseReq malloc (pre ++ path ++ space :: (tail ++ newline :: 0 :: junk)) =
      if malloc.Roomy (path ++ space :: squeeze tail) then
        some (buffer, path ++ space :: squeeze tail)
      else none := by
  obtain ⟨path', rfl⟩ : ∃ path', path = slash :: path' := by
    cases path with
    | nil => simp at hpath
    | cons b path' => exact ⟨path', by simpa using hpath.1⟩
  have hkept : squeeze (tail ++ [newline]) = squeeze tail ++ [newline] := by
    have hne : (newline != space) = true := by decide
    simp [squeeze, hne]
  have hline : (0 : UInt8) ∉ pre ++ slash :: path' ++ space :: (tail ++ [newline]) := by
    simp only [List.mem_append, List.mem_cons, List.not_mem_nil, or_false, not_or] at hzero ⊢
    exact ⟨⟨hzero.1, by decide, hzero.2.1.2⟩, by decide, hzero.2.2, by decide⟩
  have htail : (0 : UInt8) ∉ tail ++ [newline] := fun hmem =>
    hline (by simp only [List.mem_append, List.mem_cons] at hmem ⊢; tauto)
  have hgap : space ∉ pre ++ slash :: path' := by
    simp only [List.mem_append, not_or]
    exact ⟨hpre.2, hpath.2⟩
  let line := pre ++ slash :: path' ++ space :: (tail ++ [newline])
  let head := pre ++ slash :: path' ++ [space]
  have hbuffer : pre ++ slash :: path' ++ space :: (tail ++ newline :: 0 :: junk) =
      head ++ ((tail ++ [newline]) ++ 0 :: junk) := by simp [head]
  have hhead : head.length = (pre ++ slash :: path').length + 1 := by
    simp only [head, List.length_append, List.length_cons, List.length_nil]
  -- The four searches of the source, in its order.
  have hstring : cstring (head ++ ((tail ++ [newline]) ++ 0 :: junk)) = some line := by
    simpa [head, line] using cstring_append line junk hline
  have hrest : strstr line (text "/") = some pre.length := by
    have h := scanTo_append slash pre (path' ++ space :: (tail ++ [newline])) hpre.1
    rw [show text "/" = [slash] from rfl, strstr_singleton]
    simpa [line] using h
  have hspace : strstr line (text " ") = some (pre ++ slash :: path').length := by
    rw [show text " " = [space] from rfl, strstr_singleton]
    exact scanTo_append space _ (tail ++ [newline]) hgap
  have hcut : scanTo newline (squeeze (tail ++ [newline])) = some (squeeze tail).length := by
    rw [hkept]
    exact scanTo_append newline (squeeze tail) []
      (fun hmem => hnewline (List.mem_of_mem_filter hmem))
  -- The compacted buffer, then the same with its newline cut.
  obtain ⟨left, hrws⟩ := rws_spec head (tail ++ [newline]) junk htail
  have hraw : cstring ((head ++ (squeeze (tail ++ [newline]) ++ 0 :: left)).drop head.length) =
      some (squeeze (tail ++ [newline])) := by
    rw [List.drop_left]
    exact cstring_append _ left (zero_not_mem_squeeze htail)
  have hstore : store (head ++ (squeeze (tail ++ [newline]) ++ 0 :: left))
      (head.length + (squeeze tail).length) 0 =
      some (head ++ (squeeze tail ++ 0 :: 0 :: left)) := by
    have h := store_append (head ++ squeeze tail) (0 :: left) newline 0
    rw [List.length_append] at h
    simpa [hkept] using h
  have hresult : cstring ((head ++ (squeeze tail ++ 0 :: 0 :: left)).drop pre.length) =
      some (slash :: path' ++ space :: squeeze tail) := by
    have hdrop : (head ++ (squeeze tail ++ 0 :: 0 :: left)).drop pre.length =
        (slash :: path' ++ space :: squeeze tail) ++ 0 :: 0 :: left := by
      simp [head]
    rw [hdrop]
    apply cstring_append
    simp only [List.mem_append, List.mem_cons, not_or] at hzero ⊢
    exact ⟨⟨by decide, hzero.2.1.2⟩, by decide, zero_not_mem_squeeze hzero.2.2⟩
  refine ⟨head ++ (squeeze tail ++ 0 :: 0 :: left), ?_⟩
  rw [hbuffer, parseReq]
  simp only [Option.bind_eq_bind, hstring, Option.bind_some, hrest, hspace, ← hhead, hrws,
    hraw, hcut, hstore, hresult]
  simp only [show text "" = [] from rfl, List.nil_append, List.length_nil, Nat.zero_add,
    sprintf_malloc]
  split <;> rfl

theorem readRequest_exit (malloc : Malloc) {piece junk : List UInt8} (hzero : 0 ∉ piece)
    (hexit : exitReq <:+: piece) :
    readRequest malloc (piece ++ 0 :: junk) = some (piece ++ 0 :: junk, exitReq) := by
  obtain ⟨i, hi⟩ := Option.isSome_iff_exists.mp ((strstr_isSome_iff piece exitReq).mpr hexit)
  unfold readRequest
  rw [cstring_append piece junk hzero]
  simp [hi]

theorem readRequest_search (malloc : Malloc) {piece junk : List UInt8} (hzero : 0 ∉ piece)
    (hexit : ¬ exitReq <:+: piece) :
    readRequest malloc (piece ++ 0 :: junk) = parseReq malloc (piece ++ 0 :: junk) := by
  have hnone : (strstr piece exitReq).isNone = true := by
    rw [← strstr_isSome_iff] at hexit
    simpa using hexit
  unfold readRequest
  rw [cstring_append piece junk hzero]
  simp only [Option.bind_eq_bind, Option.bind_some, hnone, if_true]

/-- A well-formed line that does not hold the exit command. -/
theorem readRequest_spec (malloc : Malloc) (pre path tail junk : List UInt8)
    (hpre : slash ∉ pre ∧ space ∉ pre) (hpath : path.head? = some slash ∧ space ∉ path)
    (hzero : 0 ∉ pre ∧ 0 ∉ path ∧ 0 ∉ tail) (hnewline : newline ∉ tail)
    (hexit : ¬ exitReq <:+: pre ++ path ++ space :: (tail ++ [newline])) :
    ∃ buffer, readRequest malloc (pre ++ path ++ space :: (tail ++ newline :: 0 :: junk)) =
      if malloc.Roomy (path ++ space :: squeeze tail) then
        some (buffer, path ++ space :: squeeze tail)
      else none := by
  obtain ⟨buffer, hparse⟩ := parseReq_spec malloc pre path tail junk hpre hpath hzero hnewline
  have hline : 0 ∉ pre ++ path ++ space :: (tail ++ [newline]) := by
    simp only [List.mem_append, List.mem_cons, List.not_mem_nil, or_false, not_or]
    exact ⟨⟨hzero.1, hzero.2.1⟩, by decide, hzero.2.2, by decide⟩
  have hbuffer : pre ++ path ++ space :: (tail ++ newline :: 0 :: junk) =
      pre ++ path ++ space :: (tail ++ [newline]) ++ 0 :: junk := by simp
  refine ⟨buffer, ?_⟩
  rw [hbuffer] at hparse ⊢
  rw [readRequest_search malloc hline hexit, hparse]

/-- Without the byte for the terminator nothing is said of what follows. -/
theorem readLine_short {malloc : Malloc} (pre path tail : List UInt8) (junk shm : Mem)
    (hpre : slash ∉ pre ∧ space ∉ pre) (hpath : path.head? = some slash ∧ space ∉ path)
    (hzero : 0 ∉ pre ∧ 0 ∉ path ∧ 0 ∉ tail) (hnewline : newline ∉ tail)
    (hexit : ¬ exitReq <:+: pre ++ path ++ space :: (tail ++ [newline]))
    (hshort : ¬ malloc.Roomy (path ++ space :: squeeze tail)) :
    readLine malloc (pre ++ path ++ space :: (tail ++ newline :: 0 :: junk)) shm = none := by
  obtain ⟨buffer, hrequest⟩ := readRequest_spec malloc pre path tail junk hpre hpath hzero
    hnewline hexit
  rw [readLine, hrequest, if_neg hshort]
  rfl

end Parse

section Split

/-- The block of `malloc(1024)` on a heap that was never written. -/
def zeroBlock : Mem := List.replicate 1024 0

theorem zeroBlock_length : zeroBlock.length = 1024 := List.length_replicate

/-- A zero-filled block terminates whatever is copied into it, so the item is
the request split at its first space. -/
theorem dequeueItem_image (k p : Nat) (r path keyword : List UInt8)
    (rest : List (List UInt8)) (z : Nat) (hr : r = path ++ space :: keyword)
    (hpath : space ∉ path) (hlen : r.length ≤ 1023) (hclean : ∀ s ∈ r :: rest, Clean s)
    (hz : 0 < z) (hp : p ≤ k) :
    ∃ next, dequeueItem zeroBlock ⟨image k (r :: rest) z, p⟩ =
      some (⟨path, keyword⟩, next) := by
  have hbyte : zeroBlock[r.length]? = some 0 := by
    rw [zeroBlock, List.getElem?_replicate, if_pos (by omega)]
  have hitem : (dequeueItem zeroBlock ⟨image k (r :: rest) z, p⟩).map Prod.fst =
      if zeroBlock[r.length]? = some 0 then some ⟨path, keyword⟩ else none :=
    dequeueItem_block hr hpath hclean hz hp
  rw [if_pos hbyte] at hitem
  obtain ⟨⟨item, next⟩, hresult, rfl⟩ := Option.map_eq_some_iff.mp hitem
  exact ⟨next, hresult⟩

end Split

section Calls

/-- A whole call of a client or of the server. -/
inductive Call where
  | add (r : List UInt8)
  | dequeue

def runCall (server : Server) : Call → Option Server
  | .add r => (addReq server.shm r).map fun shm => { server with shm }
  | .dequeue => (dequeueShm zeroBlock server).map Prod.snd

def runCalls (server : Server) : List Call → Option Server
  | [] => some server
  | call :: rest => (runCall server call).bind (runCalls · rest)

def adds : List Call → List (List UInt8)
  | [] => []
  | .add r :: rest => r :: adds rest
  | .dequeue :: rest => adds rest

def dequeues : List Call → Nat
  | [] => 0
  | .add _ :: rest => dequeues rest
  | .dequeue :: rest => dequeues rest + 1

/-- A request of a client: its line came through a buffer of 1024 bytes. -/
def Sendable (r : List UInt8) : Prop := Clean r ∧ r.length ≤ 1023

instance (r : List UInt8) : Decidable (Sendable r) :=
  inferInstanceAs (Decidable (Clean r ∧ r.length ≤ 1023))

/-- As long as only requests that were there from the start are taken out, the
order of the calls does not show in the pending requests. -/
theorem runCalls_image (calls : List Call) (k p : Nat) (pending : List (List UInt8)) (z : Nat)
    (hpending : ∀ r ∈ pending, Sendable r) (hadds : ∀ r ∈ adds calls, Sendable r)
    (hdeq : dequeues calls ≤ pending.length) (hroom : weight (adds calls) < z) (hp : p ≤ k) :
    ∃ k' p' z', runCalls ⟨image k pending z, p⟩ calls =
        some ⟨image k' (pending.drop (dequeues calls) ++ adds calls) z', p'⟩ ∧
      0 < z' ∧ p' ≤ k' := by
  induction calls generalizing k p pending z with
  | nil => exact ⟨k, p, z, by simp [runCalls, adds, dequeues], by omega, hp⟩
  | cons call calls ih =>
      cases call with
      | add r =>
          have hweight : weight (adds (.add r :: calls)) =
              r.length + 1 + weight (adds calls) := by simp [adds, weight]
          have hr : Sendable r := hadds r (by simp [adds])
          have hadd := addReq_image k pending z r (fun s hs => (hpending s hs).1) (by omega)
          have hboth : ∀ s ∈ pending ++ [r], Sendable s := by
            rw [List.forall_mem_append, List.forall_mem_singleton]
            exact ⟨hpending, hr⟩
          obtain ⟨k', p', z', hrun, hz, hp'⟩ := ih k p (pending ++ [r])
            (z - (r.length + 1)) hboth (fun s hs => hadds s (by simp [adds, hs]))
            (by simp only [dequeues] at hdeq; simp; omega) (by omega) hp
          refine ⟨k', p', z', ?_, hz, hp'⟩
          simp only [dequeues] at hdeq
          rw [List.drop_append_of_le_length hdeq, List.append_assoc] at hrun
          simpa [runCalls, runCall, hadd, dequeues, adds] using hrun
      | dequeue =>
          cases pending with
          | nil => simp [dequeues] at hdeq
          | cons r rest =>
              have hfit : r.length ≤ zeroBlock.length := by
                have := (hpending r (by simp)).2
                rw [zeroBlock_length]
                omega
              have hshm := dequeueShm_image zeroBlock k p r rest z
                (fun s hs => (hpending s hs).1) hfit (by omega) hp
              obtain ⟨k', p', z', hrun, hz, hp'⟩ := ih (k + (r.length + 1))
                (k + (r.length + 1)) rest z (fun s hs => hpending s (by simp [hs])) hadds
                (by simpa [dequeues] using hdeq) hroom (Nat.le_refl _)
              refine ⟨k', p', z', ?_, hz, hp'⟩
              simp only [runCalls, runCall, hshm, Option.map_some, Option.bind_some]
              simpa [dequeues, adds] using hrun

end Calls

theorem not_mem_parts {b : UInt8} {pre path tail : List UInt8} (h : b ∉ pre ++ path ++ tail) :
    b ∉ pre ∧ b ∉ path ∧ b ∉ tail := by
  simpa [not_or, and_assoc] using h

/-- What `parseReq` makes of a line is no longer and has no other bytes. -/
theorem sendable_request {pre path tail : List UInt8} (hbytes : Clean (pre ++ path ++ tail))
    (hline : (pre ++ path ++ space :: (tail ++ [newline])).length ≤ 1023) :
    Sendable (path ++ space :: squeeze tail) := by
  have hshort : (squeeze tail).length ≤ tail.length := List.length_filter_le _ _
  have hclean (b : UInt8) (hb : b ∉ pre ++ path ++ tail) (hspace : b ≠ space) :
      b ∉ path ++ space :: squeeze tail := by
    obtain ⟨-, hpath, htail⟩ := not_mem_parts hb
    simp only [List.mem_append, List.mem_cons, not_or]
    exact ⟨hpath, hspace, fun h => htail (List.mem_of_mem_filter h)⟩
  constructor
  · exact ⟨hclean lt hbytes.1 (by decide), hclean gt hbytes.2.1 (by decide),
      hclean 0 hbytes.2.2 (by decide)⟩
  · simp only [List.length_append, List.length_cons] at hline ⊢
    omega

/-- A request survives the way from the input file to the server if and only if
the block of `parseReq` has a byte more than `parseReq` asks for. The line may
have anything without a slash or a space in front of its path; whatever other
requests are in the queue before it and whatever calls are made after it, the
`dequeueItem` whose turn it is returns its path and its keyword without spaces. -/
theorem request_round_trip_iff (malloc : Malloc) (pre path tail junk : List UInt8)
    (hpre : slash ∉ pre ∧ space ∉ pre) (hpath : path.head? = some slash ∧ space ∉ path)
    (hbytes : Clean (pre ++ path ++ tail)) (hnewline : newline ∉ pre ++ path ++ tail)
    (hline : (pre ++ path ++ space :: (tail ++ [newline])).length ≤ 1023)
    (hexit : ¬ exitReq <:+: pre ++ path ++ space :: (tail ++ [newline]))
    (k p : Nat) (before : List (List UInt8)) (z : Nat) (calls : List Call)
    (hbefore : ∀ r ∈ before, Sendable r) (hcalls : ∀ r ∈ adds calls, Sendable r)
    (hturn : dequeues calls = before.length)
    (hroom : weight ((path ++ space :: squeeze tail) :: adds calls) < z) (hp : p ≤ k) :
    (∃ shm server next,
      readLine malloc (pre ++ path ++ space :: (tail ++ newline :: 0 :: junk))
        (image k before z) = some shm ∧
      runCalls ⟨shm, p⟩ calls = some server ∧
      dequeueItem zeroBlock server = some (⟨path, squeeze tail⟩, next)) ↔
    malloc.Roomy (path ++ space :: squeeze tail) := by
  let r := path ++ space :: squeeze tail
  have hzero := not_mem_parts hbytes.2.2
  have htail := (not_mem_parts hnewline).2.2
  constructor
  · rintro ⟨shm, server, next, hread, -, -⟩
    by_contra hshort
    rw [readLine_short _ _ _ junk _ hpre hpath hzero htail hexit hshort] at hread
    cases hread
  · intro hroomy
    have hr : Sendable r := sendable_request hbytes hline
    have hweight : weight (r :: adds calls) = r.length + 1 + weight (adds calls) := by
      simp [weight]
    change weight (r :: adds calls) < z at hroom
    -- The client's side: the line is not an exit command and parses to `r`.
    obtain ⟨buffer, hrequest⟩ := readRequest_spec malloc pre path tail junk hpre hpath hzero
      htail hexit
    rw [if_pos hroomy] at hrequest
    have hadd := addReq_image k before z r (fun s hs => (hbefore s hs).1) (by omega)
    have hread : readLine malloc (pre ++ path ++ space :: (tail ++ newline :: 0 :: junk))
        (image k before z) = some (image k (before ++ [r]) (z - (r.length + 1))) := by
      rw [readLine, hrequest]
      exact hadd
    -- The server's side: the calls remove exactly what was in front of `r`.
    have hboth : ∀ s ∈ before ++ [r], Sendable s := by
      rw [List.forall_mem_append, List.forall_mem_singleton]
      exact ⟨hbefore, hr⟩
    obtain ⟨k', p', z', hrun, hz, hp'⟩ := runCalls_image calls k p (before ++ [r])
      (z - (r.length + 1)) hboth hcalls (by simp [hturn]) (by omega) hp
    have hleft : (before ++ [r]).drop (dequeues calls) ++ adds calls = r :: adds calls := by
      rw [hturn, List.drop_left]
      rfl
    rw [hleft] at hrun
    obtain ⟨next, hitem⟩ := dequeueItem_image k' p' r path (squeeze tail) (adds calls) z'
      rfl hpath.2 hr.2 (by
        intro s hs
        rcases List.mem_cons.mp hs with rfl | hs
        · exact hr.1
        · exact (hcalls s hs).1) hz hp'
    exact ⟨_, _, next, hread, hrun, hitem⟩

/-- An allocator with eight bytes of its own in front of a block, chunks of a
multiple of 16 bytes and none below 32. -/
def chunks : Malloc where
  usable n := max 24 ((n + 23) / 16 * 16 - 8)
  enough n := by omega

/-- A line with separating, interior and trailing spaces, one request ahead of
it, one call behind it and the server's calls in between. -/
theorem request_round_trip_spaced :
    ∃ shm server next,
      readLine chunks (text "re/d  a b " ++ newline :: 0 :: [])
          (image 3 [text "/a is"] 100) = some shm ∧
      runCalls ⟨shm, 3⟩ [.dequeue, .add (text "/b is")] = some server ∧
      dequeueItem zeroBlock server =
        some (⟨text "/d", text "ab"⟩, next) :=
  (request_round_trip_iff chunks (text "re") (text "/d") (text " a b ") []
    (by decide) (by decide) (by decide) (by decide) (by decide) (by decide)
    3 3 [text "/a is"] 100 [.dequeue, .add (text "/b is")]
    (by decide) (by decide) (by decide) (by decide) (by decide)).mpr (by decide)

/-- A request of 24 bytes fills its block, and the terminator falls behind it. -/
theorem request_overruns_block :
    ¬ ∃ shm server next,
      readLine chunks (text "/home/searchdir/files is" ++ newline :: 0 :: [])
          (image 0 [] 100) = some shm ∧
      runCalls ⟨shm, 0⟩ [] = some server ∧
      dequeueItem zeroBlock server =
        some (⟨text "/home/searchdir/files", text "is"⟩, next) := by
  rintro ⟨shm, server, next, hread, -, -⟩
  have hnone : readLine chunks (text "/home/searchdir/files is" ++ newline :: 0 :: [])
      (image 0 [] 100) = none :=
    readLine_short [] (text "/home/searchdir/files") (text "is") [] (image 0 [] 100)
      (by decide) (by decide) (by decide) (by decide) (by decide) (by decide)
  exact absurd (hnone.symm.trans hread) (by simp)

end Cse420.Queue
