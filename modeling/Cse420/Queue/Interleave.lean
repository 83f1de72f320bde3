import Cse420.Queue.Poll

/-!
One `AddReq` and one `dequeueItem` at the level of single byte accesses. The
server holds no semaphore while it scans, copies and rewrites, so its accesses
mix with those of the client in any order. The client writes from the end
marker on and the server in front of it; what the client may read of the
server's half-done work is a header byte, a space or an old byte, and never an
end marker.
-/

namespace Cse420.Queue

open CMemory

/-- Where a client is in `AddReq`: at the test of the first loop, at the test
of the second, or with stores still to make. -/
inductive ClientPc where
  | forward (s : Nat)
  | backward (s : Nat)
  | write (todo : List (Nat × UInt8))
  deriving DecidableEq

/-- Where the server is in the loops of `dequeueItem`. The copy loop reads the
same byte twice, for its test and for the copy. `rewrite n r l` has `s + 1` in
`n`, and keeps the length of what was copied. -/
inductive ServerPc where
  | find (s : Nat)
  | test (s l : Nat)
  | load (s l : Nat)
  | rewrite (n r l : Nat)
  deriving DecidableEq

structure Config where
  shm : Mem
  str : Mem
  client : ClientPc
  server : ServerPc

inductive Who where
  | client
  | server
  deriving DecidableEq

/-- One access of `AddReq(req)`. A finished client does nothing. -/
def clientStep (req : List UInt8) (c : Config) : Option Config :=
  match c.client with
  | .forward s => do
      let b ← c.shm[s]?
      return { c with client := if b = lt then .backward s else .forward (s + 1) }
  | .backward s => do
      let b ← c.shm[s]?
      if b = gt then return { c with client := .write (addReqStores (s + 1) req) }
      else if s = 0 then none
      else return { c with client := .backward (s - 1) }
  | .write [] => some c
  | .write ((i, b) :: todo) => do
      let shm ← store c.shm i b
      return { c with shm, client := .write todo }

/-- One access of `dequeueItem`. A finished server does nothing. -/
def serverStep (c : Config) : Option Config :=
  match c.server with
  | .find s => do
      let b ← c.shm[s]?
      return { c with server := if b = gt then .test (s + 1) 0 else .find (s + 1) }
  | .test s l => do
      let b ← c.shm[s]?
      return { c with server := if b = gt then .rewrite (s + 1) rqHeader.length l else .load s l }
  | .load s l => do
      let b ← c.shm[s]?
      let str ← store c.str l b
      return { c with str, server := .test (s + 1) (l + 1) }
  | .rewrite 0 _ _ => some c
  | .rewrite (n + 1) r l => do
      let shm ← store c.shm n (if 0 < r then rqHeader.getD (r - 1) 0 else space)
      return { c with shm, server := .rewrite n (r - 1) l }

def step (req : List UInt8) : Who → Config → Option Config
  | .client => clientStep req
  | .server => serverStep

/-- Accesses in the order of a schedule. No result means that one of them left
the segment or the block. -/
def runSchedule (req : List UInt8) : List Who → Config → Option Config
  | [], c => some c
  | who :: rest, c => (step req who c).bind (runSchedule req rest)

/-- Both calls at their first access; `block` is what `malloc` returned. -/
def start (shm block : Mem) : Config := ⟨shm, block, .forward 0, .find 0⟩

def Finished (c : Config) : Prop :=
  c.client = .write [] ∧ ∃ r l, c.server = .rewrite 0 r l

/-- The bytes `dequeueItem` has extracted. -/
def extracted (c : Config) : List UInt8 :=
  match c.server with
  | .rewrite _ _ l => c.str.take l
  | _ => []

section Invariant

variable (k : Nat) (oldest : List UInt8) (rest : List (List UInt8)) (z : Nat)
  (req : List UInt8) (block : Mem)

/-- The part of the segment in front of the end marker, before and after the
server's work. Both have the same length. -/
abbrev before : List UInt8 := front k (oldest :: rest)

abbrev after : List UInt8 := front (k + (oldest.length + 1)) rest

/-- The part from the end marker on, after the client's work. -/
abbrev appended : List UInt8 :=
  req ++ gt :: lt :: List.replicate (z - (req.length + 1)) 0

/-- The server's half of the segment and its private state. `left` counts the
accesses still to come. -/
def ServerInv (half str : Mem) (left : Nat) : ServerPc → Prop
  | .find s =>
      half = before k oldest rest ∧ str = block ∧ s ≤ k + 15 ∧
        left = (k + 15 - s) + 2 * oldest.length + (k + oldest.length + 19)
  | .test s l =>
      half = before k oldest rest ∧ str = oldest.take l ++ block.drop l ∧
        s = k + 16 + l ∧ l ≤ oldest.length ∧
        left = 2 * (oldest.length - l) + (k + oldest.length + 18)
  | .load s l =>
      half = before k oldest rest ∧ str = oldest.take l ++ block.drop l ∧
        s = k + 16 + l ∧ l < oldest.length ∧
        left + 1 = 2 * (oldest.length - l) + (k + oldest.length + 18)
  | .rewrite n r l =>
      half = (before k oldest rest).take n ++ (after k oldest rest).drop n ∧
        str = oldest ++ block.drop oldest.length ∧ l = oldest.length ∧
        n ≤ k + oldest.length + 17 ∧ r = n - (k + (oldest.length + 1)) ∧ left = n

/-- The client's half: from the end marker on. The stores still to make are
given by their offsets from the marker. -/
def ClientInv (half : Mem) (left : Nat) : ClientPc → Prop
  | .forward s =>
      half = lt :: List.replicate z 0 ∧ s ≤ (before k oldest rest).length ∧
        left = ((before k oldest rest).length - s) + (req.length + 6)
  | .backward s =>
      half = lt :: List.replicate z 0 ∧
        (s = (before k oldest rest).length ∧ left = req.length + 5 ∨
          s + 1 = (before k oldest rest).length ∧ left = req.length + 4)
  | .write todo =>
      ∃ ahead, todo = ahead.map (fun w => ((before k oldest rest).length + w.1, w.2)) ∧
        storeEach half ahead = some (appended z req) ∧ left = ahead.length

/-- The two halves move independently. -/
def Inv (c : Config) (clientLeft serverLeft : Nat) : Prop :=
  ∃ first second, c.shm = first ++ second ∧
    ServerInv k oldest rest block first c.str serverLeft c.server ∧
    ClientInv k oldest rest z req second clientLeft c.client

end Invariant

section Halves

variable {k z : Nat} {oldest req : List UInt8} {rest : List (List UInt8)} {block : Mem}

theorem after_length (k : Nat) (oldest : List UInt8) (rest : List (List UInt8)) :
    (after k oldest rest).length = (before k oldest rest).length := by
  simp only [front_length, weight, List.map_cons, List.sum_cons]
  omega

theorem before_length (k : Nat) (oldest : List UInt8) (rest : List (List UInt8)) :
    (before k oldest rest).length = k + oldest.length + 17 + weight rest := by
  simp only [front_length, weight, List.map_cons, List.sum_cons]
  omega

/-- What the backward loop stores at offset `n`. -/
theorem after_byte (k : Nat) (oldest : List UInt8) (rest : List (List UInt8)) (n : Nat)
    (h : n < k + oldest.length + 17) :
    (after k oldest rest)[n]? =
      some (if 0 < n + 1 - (k + (oldest.length + 1))
        then rqHeader.getD (n + 1 - (k + (oldest.length + 1)) - 1) 0 else space) := by
  have h16 : rqHeader.length = 16 := by decide
  by_cases hn : n < k + (oldest.length + 1)
  · have hzero : ¬ 0 < n + 1 - (k + (oldest.length + 1)) := by omega
    rw [if_neg hzero, after, front, List.append_assoc,
      List.getElem?_append_left (by simpa using hn)]
    simp [hn]
  · have hpos : 0 < n + 1 - (k + (oldest.length + 1)) := by omega
    have hin : n - (k + (oldest.length + 1)) < rqHeader.length := by omega
    have hindex : n + 1 - (k + (oldest.length + 1)) - 1 = n - (k + (oldest.length + 1)) := by
      omega
    rw [if_pos hpos, hindex, after, front, List.append_assoc,
      List.getElem?_append_right (by simp; omega), List.length_replicate,
      List.getElem?_append_left hin, List.getD_eq_getElem?_getD,
      List.getElem?_eq_getElem hin]
    rfl

/-- In every state of the server its half has the same length, holds no end
marker and ends with a separator. This is all the client relies on. -/
theorem server_half (hclean : ∀ r ∈ oldest :: rest, Clean r) {half str : Mem} {left : Nat}
    {pc : ServerPc} (h : ServerInv k oldest rest block half str left pc) :
    half.length = (before k oldest rest).length ∧ lt ∉ half ∧
      ∃ init, half = init ++ [gt] := by
  have hbefore : lt ∉ before k oldest rest := lt_not_mem_front k _ fun r hr => (hclean r hr).1
  have hafter : lt ∉ after k oldest rest :=
    lt_not_mem_front _ _ (fun r hr => (hclean r (by simp [hr])).1)
  have hlast := front_last k (oldest :: rest)
  cases pc with
  | find s =>
      rw [h.1]
      exact ⟨rfl, hbefore, hlast⟩
  | test s l =>
      rw [h.1]
      exact ⟨rfl, hbefore, hlast⟩
  | load s l =>
      rw [h.1]
      exact ⟨rfl, hbefore, hlast⟩
  | rewrite n r l =>
      obtain ⟨rfl, _, _, hn, _⟩ := h
      have hlen := after_length k oldest rest
      have hbl := before_length k oldest rest
      refine ⟨by simp; omega, ?_, ?_⟩
      · intro hmem
        rcases List.mem_append.mp hmem with hmem | hmem
        · exact hbefore (List.mem_of_mem_take hmem)
        · exact hafter (List.mem_of_mem_drop hmem)
      · obtain ⟨init, hinit⟩ := front_last (k + (oldest.length + 1)) rest
        by_cases hend : n < (before k oldest rest).length
        · refine ⟨(before k oldest rest).take n ++ init.drop n, ?_⟩
          have hle : n ≤ init.length := by
            rw [← hlen, after, hinit] at hend
            simp at hend
            omega
          rw [after, hinit, List.drop_append_of_le_length hle]
          simp
        · rw [List.take_of_length_le (by omega), List.drop_of_length_le (by omega),
            List.append_nil]
          exact hlast

theorem storeEach_shift (first second : Mem) (stores : List (Nat × UInt8)) :
    storeEach (first ++ second) (stores.map fun w => (first.length + w.1, w.2)) =
      (storeEach second stores).map (first ++ ·) := by
  induction stores generalizing second with
  | nil => rfl
  | cons w stores ih =>
      simp only [List.map_cons, storeEach, store_right]
      cases store second w.1 w.2 with
      | none => rfl
      | some next => exact ih next

theorem copyStores_shift (n s : Nat) (bytes : List UInt8) :
    copyStores (n + s) bytes = (copyStores s bytes).map fun w => (n + w.1, w.2) := by
  induction bytes generalizing s with
  | nil => rfl
  | cons b rest ih => simp [copyStores, ← ih, Nat.add_assoc]

theorem addReqStores_shift (n : Nat) (str : List UInt8) :
    addReqStores n str = (addReqStores 0 str).map fun w => (n + w.1, w.2) := by
  have h := copyStores_shift n 0 (str ++ [0])
  simp only [Nat.add_zero] at h
  simp [addReqStores, h, Nat.add_assoc]

/-- The client's stores, all of them, by their effect on its half. -/
theorem addReqStores_appended (hfit : req.length + 1 ≤ z) :
    storeEach (lt :: List.replicate z 0) (addReqStores 0 req) = some (appended z req) := by
  have hadd := addReq_image 0 [] z req (by simp) hfit
  obtain ⟨hscan, e, hback, hlen⟩ := addReq_scans 0 [] (List.replicate z 0) (by simp)
  rw [addReq_eq_stores] at hadd
  simp only [image, hscan, hback, hlen, Option.bind_eq_bind, Option.bind_some] at hadd
  rw [addReqStores_shift, storeEach_shift] at hadd
  obtain ⟨half, hhalf, heq⟩ := Option.map_eq_some_iff.mp hadd
  rw [hhalf]
  congr 1
  have hcancel : front 0 [] ++ half = front 0 [] ++ appended z req := by
    simpa [front, encode] using heq
  exact List.append_cancel_left hcancel

end Halves

section Steps

variable {k z : Nat} {oldest req : List UInt8} {rest : List (List UInt8)} {block : Mem}

private theorem before_eq (k : Nat) (oldest : List UInt8) (rest : List (List UInt8)) :
    before k oldest rest = (List.replicate k space ++ rqHeader.take 15) ++
      gt :: (oldest ++ gt :: encode rest) := by
  rw [before, front]
  nth_rewrite 1 [rqHeader_eq]
  simp [encode_cons]

private theorem lead_length (k : Nat) :
    (List.replicate k space ++ rqHeader.take 15).length = k + 15 := by
  have h15 : (rqHeader.take 15).length = 15 := by decide
  simp [h15]

/-- The first loop of the server meets no separator before the header's. -/
theorem before_lead (k : Nat) (oldest : List UInt8) (rest : List (List UInt8)) (s : Nat)
    (hs : s < k + 15) :
    ∃ b, (before k oldest rest)[s]? = some b ∧ b ≠ gt := by
  have hlen := lead_length k
  have hget : (before k oldest rest)[s]? =
      (List.replicate k space ++ rqHeader.take 15)[s]? := by
    rw [before_eq k oldest rest, List.getElem?_append_left (by omega)]
  refine ⟨_, hget.trans (List.getElem?_eq_getElem (by omega)), ?_⟩
  intro heq
  have hmem : gt ∈ List.replicate k space ++ rqHeader.take 15 :=
    heq ▸ List.getElem_mem (by omega)
  simp only [List.mem_append, List.mem_replicate] at hmem
  rcases hmem with ⟨_, hmem⟩ | hmem
  · exact absurd hmem (by decide)
  · exact absurd hmem (by decide)

theorem before_header_end (k : Nat) (oldest : List UInt8) (rest : List (List UInt8)) :
    (before k oldest rest)[k + 15]? = some gt := by
  have hlen := lead_length k
  rw [before_eq k oldest rest, List.getElem?_append_right (by omega), hlen]
  simp

theorem before_request (k : Nat) (oldest : List UInt8) (rest : List (List UInt8)) (l : Nat)
    (hl : l < oldest.length) :
    (before k oldest rest)[k + 16 + l]? = oldest[l]? := by
  have hlen := lead_length k
  rw [before_eq k oldest rest, List.getElem?_append_right (by omega), hlen]
  have hindex : k + 16 + l - (k + 15) = l + 1 := by omega
  rw [hindex, List.getElem?_cons_succ, List.getElem?_append_left hl]

theorem before_request_end (k : Nat) (oldest : List UInt8) (rest : List (List UInt8)) :
    (before k oldest rest)[k + 16 + oldest.length]? = some gt := by
  have hlen := lead_length k
  rw [before_eq k oldest rest, List.getElem?_append_right (by omega), hlen]
  have hindex : k + 16 + oldest.length - (k + 15) = oldest.length + 1 := by omega
  rw [hindex, List.getElem?_cons_succ, List.getElem?_append_right (Nat.le_refl _)]
  simp

private theorem read_left {first : Mem} (second : Mem) {s : Nat} {b : UInt8}
    (h : first[s]? = some b) : (first ++ second)[s]? = some b := by
  have hs : s < first.length := (List.getElem?_eq_some_iff.mp h).1
  rw [List.getElem?_append_left hs, h]

/-- Behind the first request the server changes nothing. -/
theorem rewrite_starts_from_before :
    (before k oldest rest).take (k + oldest.length + 17) ++
      (after k oldest rest).drop (k + oldest.length + 17) = before k oldest rest := by
  have h16 : rqHeader.length = 16 := by decide
  have hafter : (after k oldest rest).drop (k + oldest.length + 17) = encode rest := by
    rw [after, front]
    exact List.drop_left' (by simp [h16]; omega)
  have hbefore : (before k oldest rest).drop (k + oldest.length + 17) = encode rest := by
    have hsplit : before k oldest rest =
        (List.replicate k space ++ rqHeader ++ (oldest ++ [gt])) ++ encode rest := by
      simp [front, encode_cons]
    rw [hsplit]
    exact List.drop_left' (by simp [h16]; omega)
  rw [hafter, ← hbefore, List.take_append_drop]

/-- One store of the backward loop. -/
theorem rewrite_half (n : Nat) (hn : n < k + oldest.length + 17) (v : UInt8)
    (hv : (after k oldest rest)[n]? = some v) :
    ((before k oldest rest).take (n + 1) ++ (after k oldest rest).drop (n + 1)).set n v =
      (before k oldest rest).take n ++ (after k oldest rest).drop n := by
  have hbl := before_length k oldest rest
  have hal := after_length k oldest rest
  have hna : n < (after k oldest rest).length := by omega
  have hnb : n < (before k oldest rest).length := by omega
  have hdrop : (after k oldest rest).drop n = v :: (after k oldest rest).drop (n + 1) := by
    rw [List.drop_eq_getElem_cons hna]
    congr 1
    rw [List.getElem?_eq_getElem hna] at hv
    exact Option.some.inj hv
  have htake : (before k oldest rest).take (n + 1) =
      (before k oldest rest).take n ++ [(before k oldest rest)[n]] := by
    rw [List.take_add_one, List.getElem?_eq_getElem hnb]
    rfl
  have hlen : ((before k oldest rest).take n).length = n := by
    rw [List.length_take]
    omega
  rw [hdrop, htake, List.append_assoc, List.set_append_right _ _ (by omega), hlen]
  simp

/-- One copied byte. -/
theorem load_store (l : Nat) (hl : l < oldest.length) (hblock : oldest.length ≤ block.length) :
    store (oldest.take l ++ block.drop l) l oldest[l] =
      some (oldest.take (l + 1) ++ block.drop (l + 1)) := by
  have hdrop : block.drop l = block[l] :: block.drop (l + 1) :=
    List.drop_eq_getElem_cons (by omega)
  have htake : oldest.take (l + 1) = oldest.take l ++ [oldest[l]] := by
    rw [List.take_add_one, List.getElem?_eq_getElem hl]
    rfl
  have hlen : (oldest.take l).length = l := by
    rw [List.length_take]
    omega
  have h := store_append (oldest.take l) (block.drop (l + 1)) block[l] oldest[l]
  rw [hlen] at h
  rw [hdrop, h, htake, List.append_assoc]
  rfl

/-- What an access of the server leads to: the client and its half stay as they
are. -/
def ServerMoves (k : Nat) (oldest : List UInt8) (rest : List (List UInt8)) (block : Mem)
    (c : Config) (second : Mem) (left : Nat) : Prop :=
  ∃ next first, serverStep c = some next ∧ next.shm = first ++ second ∧
    next.client = c.client ∧ ServerInv k oldest rest block first next.str left next.server

theorem server_find {second : Mem} {client : ClientPc} (s : Nat) (hs : s ≤ k + 15) :
    ServerMoves k oldest rest block ⟨before k oldest rest ++ second, block, client, .find s⟩
      second ((k + 15 - s) + 2 * oldest.length + (k + oldest.length + 18)) := by
  by_cases hend : s = k + 15
  · subst hend
    have hread := read_left second
      (before_header_end k oldest rest)
    refine ⟨⟨_, block, client, .test (k + 16) 0⟩, before k oldest rest,
      by simp [serverStep, hread], rfl, rfl, rfl, by simp, rfl, Nat.zero_le _, ?_⟩
    omega
  · obtain ⟨b, hb, hne⟩ :=
      before_lead k oldest rest s (by omega)
    have hread := read_left second hb
    refine ⟨⟨_, block, client, .find (s + 1)⟩, before k oldest rest,
      by simp [serverStep, hread, hne], rfl, rfl, rfl, rfl, by omega, ?_⟩
    omega

theorem server_test (hgt : gt ∉ oldest) {second : Mem} {client : ClientPc} (l : Nat)
    (hl : l ≤ oldest.length) :
    ServerMoves k oldest rest block
      ⟨before k oldest rest ++ second, oldest.take l ++ block.drop l, client,
        .test (k + 16 + l) l⟩
      second (2 * (oldest.length - l) + (k + oldest.length + 17)) := by
  by_cases hend : l = oldest.length
  · subst hend
    have h16 : rqHeader.length = 16 := by decide
    have hread := read_left second
      (before_request_end k oldest rest)
    have hn : k + 16 + oldest.length + 1 = k + oldest.length + 17 := by omega
    refine ⟨⟨_, oldest ++ block.drop oldest.length, client,
      .rewrite (k + oldest.length + 17) rqHeader.length oldest.length⟩, before k oldest rest,
      by simp [serverStep, hread, hn], rfl, rfl, rewrite_starts_from_before.symm, rfl, rfl,
      Nat.le_refl _, ?_, ?_⟩
    · omega
    · omega
  · have hlt : l < oldest.length := by omega
    have hread := read_left second
      ((before_request k oldest rest l hlt).trans (List.getElem?_eq_getElem hlt))
    have hne : oldest[l] ≠ gt := fun heq => hgt (heq ▸ List.getElem_mem hlt)
    refine ⟨⟨_, oldest.take l ++ block.drop l, client, .load (k + 16 + l) l⟩,
      before k oldest rest, by simp [serverStep, hread, hne], rfl, rfl, rfl, rfl, rfl, hlt, ?_⟩
    omega

theorem server_load (hblock : oldest.length ≤ block.length) {second : Mem}
    {client : ClientPc} (l : Nat) (hl : l < oldest.length) :
    ServerMoves k oldest rest block
      ⟨before k oldest rest ++ second, oldest.take l ++ block.drop l, client,
        .load (k + 16 + l) l⟩
      second (2 * (oldest.length - (l + 1)) + (k + oldest.length + 18)) := by
  have hread := read_left second
    ((before_request k oldest rest l hl).trans (List.getElem?_eq_getElem hl))
  refine ⟨⟨_, oldest.take (l + 1) ++ block.drop (l + 1), client,
    .test (k + 16 + l + 1) (l + 1)⟩, before k oldest rest,
    by simp [serverStep, hread, load_store l hl hblock], rfl, rfl, rfl, rfl, rfl, hl, rfl⟩

theorem server_rewrite {second : Mem} {client : ClientPc} (n : Nat)
    (hn : n ≤ k + oldest.length + 17) :
    ServerMoves k oldest rest block
      ⟨(before k oldest rest).take n ++ (after k oldest rest).drop n ++ second,
        oldest ++ block.drop oldest.length, client,
        .rewrite n (n - (k + (oldest.length + 1))) oldest.length⟩
      second (n - 1) := by
  cases n with
  | zero => exact ⟨_, _, rfl, rfl, rfl, rfl, rfl, rfl, Nat.zero_le _, by simp, rfl⟩
  | succ n =>
      have hbl := before_length k oldest rest
      have hal := after_length k oldest rest
      have hbyte := after_byte k oldest rest n (by omega)
      refine ⟨⟨_, oldest ++ block.drop oldest.length, client,
        .rewrite n (n + 1 - (k + (oldest.length + 1)) - 1) oldest.length⟩, _, ?_, rfl, rfl,
        rfl, rfl, rfl, by omega, by omega, rfl⟩
      simp only [serverStep]
      rw [store_left _ _ _ _ (by simp; omega), rewrite_half n (by omega) _ hbyte]
      rfl

/-- One access of the server keeps its half of the invariant. -/
theorem server_step (hgt : gt ∉ oldest) (hblock : oldest.length ≤ block.length)
    {c : Config} {first second : Mem} {left : Nat} (hshm : c.shm = first ++ second)
    (h : ServerInv k oldest rest block first c.str left c.server) :
    ServerMoves k oldest rest block c second (left - 1) := by
  obtain ⟨shm, str, client, server⟩ := c
  simp only at hshm h
  subst hshm
  cases server with
  | find s =>
      obtain ⟨hhalf, hstr, hs, hleft⟩ := h
      subst hhalf hstr hleft
      exact server_find s hs
  | test s l =>
      obtain ⟨hhalf, hstr, hs, hl, hleft⟩ := h
      subst hhalf hstr hs hleft
      exact server_test hgt l hl
  | load s l =>
      obtain ⟨hhalf, hstr, hs, hl, hleft⟩ := h
      subst hhalf hstr hs
      have hnext : left - 1 =
          2 * (oldest.length - (l + 1)) + (k + oldest.length + 18) := by omega
      rw [hnext]
      exact server_load hblock l hl
  | rewrite n r l =>
      obtain ⟨hhalf, hstr, hl, hn, hr, hleft⟩ := h
      subst hhalf hstr hl hr hleft
      exact server_rewrite _ hn

/-- What an access of the client leads to: the server and its half stay as they
are. -/
def ClientMoves (k : Nat) (oldest : List UInt8) (rest : List (List UInt8)) (z : Nat)
    (req : List UInt8) (c : Config) (first : Mem) (left : Nat) : Prop :=
  ∃ next second, clientStep req c = some next ∧ next.shm = first ++ second ∧
    next.str = c.str ∧ next.server = c.server ∧
    ClientInv k oldest rest z req second left next.client

section Client

variable {first str : Mem} {server : ServerPc}

theorem client_forward (hlen : first.length = (before k oldest rest).length)
    (hlt : lt ∉ first) (s : Nat) (hs : s ≤ (before k oldest rest).length) :
    ClientMoves k oldest rest z req
      ⟨first ++ lt :: List.replicate z 0, str, .forward s, server⟩ first
      (((before k oldest rest).length - s) + (req.length + 5)) := by
  by_cases hend : s = (before k oldest rest).length
  · have hread : (first ++ lt :: List.replicate z 0)[s]? = some lt := by
      rw [hend, ← hlen]
      simp
    refine ⟨⟨_, str, .backward s, server⟩, lt :: List.replicate z 0,
      by simp [clientStep, hread], rfl, rfl, rfl, rfl, Or.inl ⟨hend, ?_⟩⟩
    omega
  · have hin : s < first.length := by omega
    have hread : (first ++ lt :: List.replicate z 0)[s]? = some first[s] :=
      read_left _ (List.getElem?_eq_getElem hin)
    have hne : first[s] ≠ lt := fun heq => hlt (heq ▸ List.getElem_mem hin)
    refine ⟨⟨_, str, .forward (s + 1), server⟩, lt :: List.replicate z 0,
      by simp [clientStep, hread, hne], rfl, rfl, rfl, rfl, by omega, ?_⟩
    omega

theorem client_backward (hfit : req.length + 1 ≤ z)
    (hlen : first.length = (before k oldest rest).length)
    (hlast : ∃ init, first = init ++ [gt]) (s left : Nat)
    (hs : s = (before k oldest rest).length ∧ left = req.length + 5 ∨
      s + 1 = (before k oldest rest).length ∧ left = req.length + 4) :
    ClientMoves k oldest rest z req
      ⟨first ++ lt :: List.replicate z 0, str, .backward s, server⟩ first (left - 1) := by
  obtain ⟨init, hinit⟩ := hlast
  have hinitlen : init.length + 1 = (before k oldest rest).length := by
    rw [← hlen, hinit]
    simp
  rcases hs with ⟨hend, hleft⟩ | ⟨hend, hleft⟩
  · have hread : (first ++ lt :: List.replicate z 0)[s]? = some lt := by
      rw [hend, ← hlen]
      simp
    have hne : ¬ lt = gt := by decide
    have hpos : s ≠ 0 := by omega
    refine ⟨⟨_, str, .backward (s - 1), server⟩, lt :: List.replicate z 0,
      by simp [clientStep, hread, hne, hpos], rfl, rfl, rfl, rfl, Or.inr ⟨?_, ?_⟩⟩
    · omega
    · omega
  · have hread : (first ++ lt :: List.replicate z 0)[s]? = some gt := by
      have hs : s = init.length := by omega
      rw [hinit, hs]
      simp
    refine ⟨⟨_, str, .write (addReqStores (s + 1) req), server⟩, lt :: List.replicate z 0,
      by simp [clientStep, hread], rfl, rfl, rfl, addReqStores 0 req, ?_,
      addReqStores_appended hfit, ?_⟩
    · rw [hend]
      exact addReqStores_shift _ req
    · have hcopy (s : Nat) (bytes : List UInt8) :
          (copyStores s bytes).length = bytes.length := by
        induction bytes generalizing s with
        | nil => rfl
        | cons b bytes ih => simp [copyStores, ih]
      simp [addReqStores, hcopy, hleft]

theorem client_write (hlen : first.length = (before k oldest rest).length)
    {second : Mem} (ahead : List (Nat × UInt8))
    (hstores : storeEach second ahead = some (appended z req)) :
    ClientMoves k oldest rest z req
      ⟨first ++ second, str,
        .write (ahead.map fun w => ((before k oldest rest).length + w.1, w.2)), server⟩
      first (ahead.length - 1) := by
  cases ahead with
  | nil => exact ⟨_, second, rfl, rfl, rfl, rfl, [], rfl, hstores, rfl⟩
  | cons w ahead =>
      rw [storeEach] at hstores
      obtain ⟨next, hnext, hrest⟩ := Option.bind_eq_some_iff.mp hstores
      refine ⟨⟨first ++ next, str, .write (ahead.map fun w =>
        ((before k oldest rest).length + w.1, w.2)), server⟩, next, ?_, rfl, rfl, rfl,
        ahead, rfl, hrest, rfl⟩
      simp only [List.map_cons, clientStep, ← hlen, store_right, hnext]
      rfl

/-- One access of the client keeps its half of the invariant, whatever state
the server is in. -/
theorem client_step (hfit : req.length + 1 ≤ z) {c : Config} {first second : Mem}
    {left : Nat} (hlen : first.length = (before k oldest rest).length) (hlt : lt ∉ first)
    (hlast : ∃ init, first = init ++ [gt]) (hshm : c.shm = first ++ second)
    (h : ClientInv k oldest rest z req second left c.client) :
    ClientMoves k oldest rest z req c first (left - 1) := by
  obtain ⟨shm, str, client, server⟩ := c
  simp only at hshm h
  subst hshm
  cases client with
  | forward s =>
      obtain ⟨hhalf, hs, hleft⟩ := h
      subst hhalf hleft
      exact client_forward hlen hlt s hs
  | backward s =>
      obtain ⟨hhalf, hs⟩ := h
      subst hhalf
      exact client_backward hfit hlen hlast s left hs
  | write todo =>
      obtain ⟨ahead, htodo, hstores, hleft⟩ := h
      subst htodo hleft
      exact client_write hlen ahead hstores

end Client

end Steps

section Run

variable {k z : Nat} {oldest req : List UInt8} {rest : List (List UInt8)} {block : Mem}

/-- One access of either party. -/
theorem inv_step (hclean : ∀ r ∈ oldest :: rest, Clean r) (hfit : req.length + 1 ≤ z)
    (hblock : oldest.length ≤ block.length) (who : Who) {c : Config}
    {clientLeft serverLeft : Nat}
    (h : Inv k oldest rest z req block c clientLeft serverLeft) :
    ∃ next, step req who c = some next ∧
      Inv k oldest rest z req block next
        (clientLeft - [who].count .client) (serverLeft - [who].count .server) := by
  obtain ⟨first, second, hshm, hserver, hclient⟩ := h
  cases who with
  | client =>
      obtain ⟨hlen, hlt, hlast⟩ := server_half hclean hserver
      obtain ⟨next, second', hstep, hnext, hstr, hpc, hinv⟩ :=
        client_step hfit hlen hlt hlast hshm hclient
      refine ⟨next, hstep, first, second', hnext, ?_, hinv⟩
      rw [hstr, hpc]
      exact hserver
  | server =>
      obtain ⟨next, first', hstep, hnext, hpc, hinv⟩ :=
        server_step (hclean oldest (by simp)).2.1 hblock hshm hserver
      refine ⟨next, hstep, first', second, hnext, hinv, ?_⟩
      rw [hpc]
      exact hclient

/-- Every schedule runs without leaving the segment, and each party gets one
access closer to its end at each of its turns. -/
theorem inv_run (hclean : ∀ r ∈ oldest :: rest, Clean r) (hfit : req.length + 1 ≤ z)
    (hblock : oldest.length ≤ block.length) (schedule : List Who) {c : Config}
    {clientLeft serverLeft : Nat}
    (h : Inv k oldest rest z req block c clientLeft serverLeft) :
    ∃ last, runSchedule req schedule c = some last ∧
      Inv k oldest rest z req block last
        (clientLeft - schedule.count .client) (serverLeft - schedule.count .server) := by
  induction schedule generalizing c clientLeft serverLeft with
  | nil => exact ⟨c, rfl, by simpa using h⟩
  | cons who schedule ih =>
      obtain ⟨next, hstep, hnext⟩ := inv_step hclean hfit hblock who h
      obtain ⟨last, hrun, hlast⟩ := ih hnext
      refine ⟨last, by rw [runSchedule, hstep]; exact hrun, ?_⟩
      have hcount (w : Who) : (who :: schedule).count w = [who].count w + schedule.count w := by
        rw [← List.count_append]
        rfl
      rw [hcount, hcount, ← Nat.sub_sub, ← Nat.sub_sub]
      exact hlast

theorem inv_start (k : Nat) (oldest : List UInt8) (rest : List (List UInt8)) (z : Nat)
    (req : List UInt8) (block : Mem) :
    Inv k oldest rest z req block (start (image k (oldest :: rest) z) block)
      ((before k oldest rest).length + (req.length + 6))
      (k + 15 + 2 * oldest.length + (k + oldest.length + 19)) :=
  ⟨before k oldest rest, lt :: List.replicate z 0, rfl,
    ⟨rfl, rfl, Nat.zero_le _, rfl⟩, ⟨rfl, Nat.zero_le _, rfl⟩⟩

theorem inv_finished {c : Config} (h : Inv k oldest rest z req block c 0 0) :
    Finished c := by
  obtain ⟨first, second, _, hserver, hclient⟩ := h
  constructor
  · cases hpc : c.client with
    | forward s =>
        rw [hpc] at hclient
        have := hclient.2.2
        omega
    | backward s =>
        rw [hpc] at hclient
        rcases hclient.2 with ⟨_, h⟩ | ⟨_, h⟩ <;> omega
    | write todo =>
        rw [hpc] at hclient
        obtain ⟨ahead, htodo, _, hleft⟩ := hclient
        have hnil : ahead = [] := List.eq_nil_of_length_eq_zero hleft.symm
        simp [htodo, hnil]
  · cases hpc : c.server with
    | find s =>
        rw [hpc] at hserver
        have := hserver.2.2.2
        omega
    | test s l =>
        rw [hpc] at hserver
        have := hserver.2.2.2.2
        omega
    | load s l =>
        rw [hpc] at hserver
        have := hserver.2.2.2.2
        have := hserver.2.2.2.1
        omega
    | rewrite n r l =>
        rw [hpc] at hserver
        have hn : 0 = n := hserver.2.2.2.2.2
        exact ⟨r, l, by rw [hn]⟩

/-- Both calls done: the segment and the extracted bytes no longer depend on
the schedule. -/
theorem inv_result {c : Config} {clientLeft serverLeft : Nat}
    (h : Inv k oldest rest z req block c clientLeft serverLeft) (hdone : Finished c) :
    c.shm = image (k + (oldest.length + 1)) (rest ++ [req]) (z - (req.length + 1)) ∧
      extracted c = oldest := by
  obtain ⟨first, second, hshm, hserver, hclient⟩ := h
  obtain ⟨hwrite, r, l, hrewrite⟩ := hdone
  rw [hwrite] at hclient
  rw [hrewrite] at hserver
  obtain ⟨ahead, htodo, hstores, _⟩ := hclient
  have hnil : ahead = [] := List.map_eq_nil_iff.mp htodo.symm
  subst hnil
  have hsecond : second = appended z req := Option.some.inj hstores
  obtain ⟨hfirst, hstr, hl, _⟩ := hserver
  constructor
  · rw [hshm, hfirst, hsecond]
    simp [image, front, encode_concat]
  · simp [extracted, hrewrite, hstr, hl]

end Run

/-- Appending and dequeueing commute at the level of single byte accesses. From
any well-formed segment with a pending request, every schedule of the accesses
of one `AddReq` and one `dequeueItem` stays inside the segment, ends when both
have had their turns, leaves the segment that either order of the whole calls
leaves, and extracts the oldest pending request. -/
theorem append_commutes_with_dequeue (k : Nat) (oldest : List UInt8)
    (rest : List (List UInt8)) (z : Nat) (req : List UInt8) (block : Mem)
    (hclean : ∀ r ∈ oldest :: rest, Clean r) (hfit : req.length + 1 ≤ z)
    (hblock : oldest.length ≤ block.length) :
    ∃ final turns,
      (dequeueLoops block (image k (oldest :: rest) z)).bind
        (fun result => addReq result.2.2 req) = some final ∧
      ((addReq (image k (oldest :: rest) z) req).bind (dequeueLoops block)).map
        (fun result => result.2.2) = some final ∧
      ∀ schedule, ∃ c,
        runSchedule req schedule (start (image k (oldest :: rest) z) block) = some c ∧
        (turns ≤ schedule.count .client → turns ≤ schedule.count .server → Finished c) ∧
        (Finished c → c.shm = final ∧ extracted c = oldest) := by
  have hrest : ∀ r ∈ rest, Clean r := fun r hr => hclean r (by simp [hr])
  have hgt := (hclean oldest (by simp)).2.1
  refine ⟨image (k + (oldest.length + 1)) (rest ++ [req]) (z - (req.length + 1)),
    2 * k + 2 * oldest.length + (before k oldest rest).length + req.length + 40 +
      oldest.length, ?_, ?_, ?_⟩
  · rw [dequeueLoops_image block k oldest rest z hgt hblock]
    exact addReq_image _ rest z req hrest hfit
  · rw [addReq_image k (oldest :: rest) z req hclean hfit, Option.bind_some,
      List.cons_append, dequeueLoops_image block k oldest (rest ++ [req]) _ hgt hblock]
    rfl
  · intro schedule
    obtain ⟨c, hrun, hinv⟩ := inv_run hclean hfit hblock schedule
      (inv_start k oldest rest z req block)
    refine ⟨c, hrun, ?_, inv_result hinv⟩
    intro hclient hserver
    rw [Nat.sub_eq_zero_of_le (by omega), Nat.sub_eq_zero_of_le (by omega)] at hinv
    exact inv_finished hinv

/-- The only pending request is taken out while a second one is written behind
it. -/
theorem append_commutes_with_dequeue_single :
    (∀ r ∈ [text "/a is"], Clean r) ∧ (text "/b is").length + 1 ≤ 64 ∧
      ∃ final turns,
        (dequeueLoops (List.replicate 1024 0) (image 0 [text "/a is"] 64)).bind
          (fun result => addReq result.2.2 (text "/b is")) = some final ∧
        ∀ schedule, ∃ c,
          runSchedule (text "/b is") schedule
            (start (image 0 [text "/a is"] 64) (List.replicate 1024 0)) = some c ∧
          (turns ≤ schedule.count .client → turns ≤ schedule.count .server →
            c.shm = final ∧ extracted c = text "/a is") := by
  have hblock : (text "/a is").length ≤ (List.replicate 1024 (0 : UInt8)).length := by
    rw [List.length_replicate]
    decide
  obtain ⟨final, turns, hfirst, _, hall⟩ := append_commutes_with_dequeue 0 (text "/a is") []
    64 (text "/b is") (List.replicate 1024 0) (by decide) (by decide) hblock
  refine ⟨by decide, by decide, final, turns, hfirst, fun schedule => ?_⟩
  obtain ⟨c, hrun, hturns, hdone⟩ := hall schedule
  exact ⟨c, hrun, fun hc hs => hdone (hturns hc hs)⟩

end Cse420.Queue
