import Cse420.Lib.Fifo
import Cse420.Queue.Layout

/-!
The segment as a FIFO queue. Clients append whole requests and the server
removes them whole, in any order of calls; every state they reach is the image
of the requests that are still pending, and what `dequeueItem` copies out is
always the oldest of them.
-/

namespace Cse420.Queue

open CMemory Fifo

/-- A search request a client may append: it fits the block of `dequeueItem`
and has the space at which that function splits it. -/
def SearchReq (r : List UInt8) : Prop := r.length ≤ 1023 ∧ space ∈ r ∧ Clean r

instance (r : List UInt8) : Decidable (SearchReq r) :=
  inferInstanceAs (Decidable (r.length ≤ 1023 ∧ space ∈ r ∧ Clean r))

/-- A search request or the exit command. -/
def Admissible (r : List UInt8) : Prop := SearchReq r ∨ r = exitReq

/-- What `main` has found when it calls `dequeueItem`. -/
def Guard (shm : Mem) : Prop :=
  ∃ n, charcount shm = some n ∧ 1 < n ∧ noExit shm = some true

/-- A sequence of whole calls and the state they lead to. No state stands for
a call that left the segment. The block is whatever `malloc` returned. -/
inductive Run : List (Event (List UInt8)) → Option Server → Prop where
  | init : Run [] (initShm (List.replicate rqSIZE 0))
  | add {trace : List (Event (List UInt8))} {server : Server} (r : List UInt8)
      (before : Run trace (some server)) (hreq : Admissible r)
      (hroom : 16 + weight (enqueued (trace ++ [.enq r])) < rqSIZE - 1) :
      Run (trace ++ [.enq r])
        ((addReq server.shm r).map fun shm => { server with shm })
  | dequeue {trace : List (Event (List UInt8))} {server next : Server}
      (block : Mem) (copied : List UInt8) (before : Run trace (some server))
      (hguard : Guard server.shm) (hblock : block.length = 1024)
      (hcall : dequeueShm block server = some (copied, next)) :
      Run (trace ++ [.deq copied]) (some next)
  | fault {trace : List (Event (List UInt8))} {server : Server} (block : Mem)
      (before : Run trace (some server)) (hguard : Guard server.shm)
      (hblock : block.length = 1024) (hcall : dequeueShm block server = none) :
      Run trace none

/-- The invariant of all runs: the drift `k` is the room of the requests already
served, and at least one zero is left behind the end marker. -/
structure Represents (trace : List (Event (List UInt8))) (server : Server) (k : Nat)
    (pending : List (List UInt8)) (z : Nat) : Prop where
  shm : server.shm = image k pending z
  ptr : server.RQptr = k
  fifo : Fifo.run [] trace = some pending
  admissible : ∀ r ∈ pending, Admissible r
  drift : k + weight pending = weight (enqueued trace)
  size : 17 + weight (enqueued trace) + z = rqSIZE
  room : 0 < z

theorem weight_append (first second : List (List UInt8)) :
    weight (first ++ second) = weight first + weight second := by
  simp [weight]

theorem weight_singleton (r : List UInt8) : weight [r] = r.length + 1 := by
  simp [weight]

theorem Admissible.clean {r : List UInt8} (h : Admissible r) : Clean r := by
  rcases h with h | rfl
  · exact h.2.2
  · decide

theorem represents_init :
    Represents [] ⟨image 0 [] (rqSIZE - 17), 0⟩ 0 [] (rqSIZE - 17) where
  shm := rfl
  ptr := rfl
  fifo := rfl
  admissible := by simp
  drift := rfl
  size := by decide
  room := by decide

theorem represents_add {trace : List (Event (List UInt8))} {server : Server} {k z : Nat}
    {pending : List (List UInt8)} (h : Represents trace server k pending z)
    (r : List UInt8) (hreq : Admissible r)
    (hroom : 16 + weight (enqueued (trace ++ [.enq r])) < rqSIZE - 1) :
    ∃ shm, addReq server.shm r = some shm ∧
      Represents (trace ++ [.enq r]) { server with shm } k (pending ++ [r])
        (z - (r.length + 1)) := by
  have henq : enqueued (trace ++ [.enq r]) = enqueued trace ++ [r] := by
    rw [enqueued_append]
    rfl
  have hsize := h.size
  have hdrift := h.drift
  rw [henq, weight_append, weight_singleton] at hroom
  refine ⟨image k (pending ++ [r]) (z - (r.length + 1)), ?_, ?_⟩
  · rw [h.shm]
    exact addReq_image k pending z r (fun s hs => (h.admissible s hs).clean) (by omega)
  · constructor
    · rfl
    · exact h.ptr
    · exact run_enq r h.fifo
    · rw [List.forall_mem_append, List.forall_mem_singleton]
      exact ⟨h.admissible, hreq⟩
    · rw [henq, weight_append, weight_append, weight_singleton]
      omega
    · rw [henq, weight_append, weight_singleton]
      omega
    · omega

theorem guard_image (k : Nat) (pending : List (List UInt8)) (z : Nat)
    (hclean : ∀ r ∈ pending, Clean r) (hz : 0 < z) (hne : pending ≠ [])
    (hexit : ∀ r ∈ pending, ¬ exitReq <:+: r) : Guard (image k pending z) := by
  refine ⟨_, charcount_image k pending z hclean, ?_, ?_⟩
  · have := List.length_pos_of_ne_nil hne
    omega
  · obtain ⟨b, hb, hiff⟩ := noExit_image k pending z hclean hz
    cases b with
    | true => exact hb
    | false =>
        obtain ⟨r, hr, hin⟩ := hiff.mp rfl
        exact absurd hin (hexit r hr)

/-- Under the guard of `main` the oldest request is a search request. -/
theorem represents_guard {trace : List (Event (List UInt8))} {server : Server}
    {k z : Nat} {pending : List (List UInt8)} (h : Represents trace server k pending z)
    (hguard : Guard server.shm) :
    ∃ r rest, pending = r :: rest ∧ SearchReq r := by
  have hclean : ∀ r ∈ pending, Clean r := fun r hr => (h.admissible r hr).clean
  obtain ⟨n, hcount, hn, hnoexit⟩ := hguard
  rw [h.shm] at hcount hnoexit
  rw [charcount_image k pending z hclean] at hcount
  cases pending with
  | nil =>
      simp at hcount
      omega
  | cons r rest =>
      refine ⟨r, rest, rfl, ?_⟩
      rcases h.admissible r (by simp) with hsearch | rfl
      · exact hsearch
      · obtain ⟨b, hb, hexit⟩ := noExit_image k (exitReq :: rest) z hclean h.room
        rw [hb] at hnoexit
        have hfalse := hexit.mpr ⟨exitReq, by simp, List.infix_refl _⟩
        simp [hfalse] at hnoexit

theorem represents_dequeue {trace : List (Event (List UInt8))} {server : Server}
    {k z : Nat} {r : List UInt8} {rest : List (List UInt8)}
    (h : Represents trace server k (r :: rest) z) (block : Mem)
    (hfit : r.length ≤ block.length) :
    ∃ next, dequeueShm block server = some (r, next) ∧
      Represents (trace ++ [.deq r]) next (k + (r.length + 1)) rest z := by
  obtain ⟨shm, RQptr⟩ := server
  have hshm : shm = image k (r :: rest) z := h.shm
  have hptr : RQptr = k := h.ptr
  have henq : enqueued (trace ++ [.deq r]) = enqueued trace := by
    rw [enqueued_append]
    simp [enqueued]
  have hdrift := h.drift
  refine ⟨⟨image (k + (r.length + 1)) rest z, k + (r.length + 1)⟩, ?_, ?_⟩
  · rw [hshm, hptr]
    exact dequeueShm_image block k k r rest z
      (fun s hs => (h.admissible s hs).clean) hfit h.room (Nat.le_refl k)
  · constructor
    · rfl
    · rfl
    · exact run_deq h.fifo
    · exact fun s hs => h.admissible s (by simp [hs])
    · rw [henq, ← hdrift]
      simp [weight]
      omega
    · rw [henq]
      exact h.size
    · exact h.room

/-- No call of a run leaves the segment, and every state represents the FIFO
queue its trace describes. -/
theorem run_represents {trace : List (Event (List UInt8))} {state : Option Server}
    (h : Run trace state) :
    ∃ server k pending z, state = some server ∧ Represents trace server k pending z := by
  induction h with
  | init => exact ⟨_, _, _, _, initShm_zeros, represents_init⟩
  | add r before hreq hroom ih =>
      obtain ⟨server, k, pending, z, hstate, hrep⟩ := ih
      cases hstate
      obtain ⟨shm, hadd, hnext⟩ := represents_add hrep r hreq hroom
      exact ⟨_, k, _, _, by rw [hadd]; rfl, hnext⟩
  | dequeue block copied before hguard hblock hcall ih =>
      obtain ⟨server, k, pending, z, hstate, hrep⟩ := ih
      cases hstate
      obtain ⟨r, rest, rfl, hsearch⟩ := represents_guard hrep hguard
      obtain ⟨next, hnext, hrep'⟩ := represents_dequeue hrep block
        (by have := hsearch.1; omega)
      rw [hcall] at hnext
      cases hnext
      exact ⟨_, _, _, _, rfl, hrep'⟩
  | fault block before hguard hblock hcall ih =>
      obtain ⟨server, k, pending, z, hstate, hrep⟩ := ih
      cases hstate
      obtain ⟨r, rest, rfl, hsearch⟩ := represents_guard hrep hguard
      obtain ⟨next, hnext, _⟩ := represents_dequeue hrep block
        (by have := hsearch.1; omega)
      rw [hcall] at hnext
      cases hnext

/-- The request queue refines a FIFO queue. Whatever whole calls clients and
server make, no call leaves the segment, the trace is one a FIFO queue allows,
and the segment is exactly the drift, the header, the pending requests in
arrival order, the end marker and zeros. `charcount` and the search for the
exit command read the pending requests back, and a guarded `dequeueItem` copies
out the oldest one. -/
theorem queue_refines_fifo {trace : List (Event (List UInt8))} {state : Option Server}
    (h : Run trace state) :
    ∃ server k pending z, state = some server ∧
      Fifo.run [] trace = some pending ∧
      enqueued trace = dequeued trace ++ pending ∧
      server.shm = List.replicate k space ++ rqHeader ++
        pending.flatMap (fun r => r ++ [gt]) ++ [lt] ++ List.replicate z 0 ∧
      server.shm.length = rqSIZE ∧
      charcount server.shm = some (1 + pending.length) ∧
      (∃ s, cstring server.shm = some s ∧
        (strstr s exitReq ≠ none ↔ ∃ r ∈ pending, exitReq <:+: r)) ∧
      (∀ r, Admissible r → 16 + weight (enqueued (trace ++ [.enq r])) < rqSIZE - 1 →
        ∃ shm, addReq server.shm r = some shm) ∧
      (Guard server.shm → ∀ block : Mem, block.length = 1024 →
        ∃ r rest next, pending = r :: rest ∧ dequeueShm block server = some (r, next)) := by
  obtain ⟨server, k, pending, z, hstate, hrep⟩ := run_represents h
  have hclean : ∀ r ∈ pending, Clean r := fun r hr => (hrep.admissible r hr).clean
  have hsize := hrep.size
  have hdrift := hrep.drift
  refine ⟨server, k, pending, z, hstate, hrep.fifo, ?_, ?_, ?_, ?_, ?_, ?_, ?_⟩
  · simpa using run_conserves hrep.fifo
  · simp [hrep.shm, image, front, encode]
  · rw [hrep.shm, image_length]
    omega
  · rw [hrep.shm]
    exact charcount_image k pending z hclean
  · refine ⟨_, by rw [hrep.shm]; exact cstring_image k pending z hclean hrep.room, ?_⟩
    rw [← exit_in_string_iff k pending, ← strstr_isSome_iff]
    exact Option.isSome_iff_ne_none.symm
  · intro r hreq hroom
    obtain ⟨shm, hadd, _⟩ := represents_add hrep r hreq hroom
    exact ⟨shm, hadd⟩
  · intro hguard block hblock
    obtain ⟨r, rest, rfl, hsearch⟩ := represents_guard hrep hguard
    obtain ⟨next, hnext, _⟩ := represents_dequeue hrep block
      (by have := hsearch.1; omega)
    exact ⟨r, rest, next, rfl, hnext⟩

/-- One request served and the exit command behind it. -/
theorem queue_refines_fifo_served :
    ∃ server, Run [.enq (text "/d w"), .deq (text "/d w"), .enq exitReq] (some server) ∧
      charcount server.shm = some 2 ∧
      enqueued [.enq (text "/d w"), .deq (text "/d w"), .enq exitReq] =
        dequeued [.enq (text "/d w"), .deq (text "/d w"), .enq exitReq] ++ [exitReq] := by
  have hstart : Run [] (some ⟨image 0 [] (rqSIZE - 17), 0⟩) := initShm_zeros ▸ Run.init
  have hsearch : Admissible (text "/d w") := Or.inl (by decide)
  obtain ⟨_, hadd, hpending⟩ :=
    represents_add represents_init (text "/d w") hsearch (by decide)
  have hadded := Run.add (text "/d w") hstart hsearch (by decide)
  rw [hadd] at hadded
  have hguard : Guard _ := hpending.shm.symm ▸
    guard_image 0 [text "/d w"] _ (by decide) hpending.room (by decide) (by decide)
  have hfit : (text "/d w").length ≤ (List.replicate 1024 (0 : UInt8)).length := by
    rw [List.length_replicate]
    decide
  obtain ⟨_, hdeq, hempty⟩ := represents_dequeue hpending (List.replicate 1024 0) hfit
  have hserved := Run.dequeue _ _ hadded hguard List.length_replicate hdeq
  obtain ⟨_, hexit, _⟩ := represents_add hempty exitReq (Or.inr rfl) (by decide)
  have hlast := Run.add exitReq hserved (Or.inr rfl) (by decide)
  rw [hexit] at hlast
  obtain ⟨server, _, pending, _, hstate, hfifo, hcons, _, _, hcount, _⟩ :=
    queue_refines_fifo hlast
  cases hstate
  have hone : pending = [exitReq] := by
    have h : Fifo.run [] [.enq (text "/d w"), .deq (text "/d w"), .enq exitReq] =
      some [exitReq] := by decide
    exact Option.some.inj (hfifo.symm.trans h)
  subst hone
  exact ⟨_, hlast, hcount, hcons⟩

end Cse420.Queue
