import Cse420.Queue.Block
import Cse420.Queue.Fifo

/-!
Whether the queue uses its segment again. `dequeueItem` moves the header to the
right over what it takes out, and nothing moves it back: where `AddReq` writes
depends on everything that was ever added and not on what is pending.
-/

namespace Cse420.Queue

open CMemory Fifo

/-- A sequence of whole calls. What a client knows when it adds a request is a
condition on the pending requests and the new one. No state stands for an
`AddReq` that has left the segment. -/
inductive Calls (room : List (List UInt8) → List UInt8 → Prop) :
    List (Event (List UInt8)) → Option Server → Prop where
  | init : Calls room [] (initShm (List.replicate rqSIZE 0))
  | add {trace : List (Event (List UInt8))} {server : Server}
      {pending : List (List UInt8)} (r : List UInt8) (before : Calls room trace (some server))
      (hpending : Fifo.run [] trace = some pending) (hclean : Clean r) (hroom : room pending r) :
      Calls room (trace ++ [.enq r]) ((addReq server.shm r).map fun shm => { server with shm })
  | dequeue {trace : List (Event (List UInt8))} {server next : Server} (block : Mem)
      (copied : List UInt8) (before : Calls room trace (some server))
      (hguard : Guard server.shm) (hblock : block.length = 1024)
      (hcall : dequeueShm block server = some (copied, next)) :
      Calls room (trace ++ [.deq copied]) (some next)

/-- The header, the pending requests with their separators and the new request
with its two markers fit in all but the last byte of a segment. -/
def FitsPending (pending : List (List UInt8)) (r : List UInt8) : Prop :=
  16 + weight pending + (r.length + 2) ≤ rqSIZE - 1

/-- What every state of such a sequence is, with `z` bytes behind the end
marker that no request has used yet. -/
structure Drifted (trace : List (Event (List UInt8))) (server : Server) (k : Nat)
    (pending : List (List UInt8)) (z : Nat) : Prop where
  shm : server.shm = image k pending z
  ptr : server.RQptr = k
  fifo : Fifo.run [] trace = some pending
  clean : ∀ r ∈ pending, Clean r
  drift : k + weight pending = weight (enqueued trace)
  size : 17 + weight (enqueued trace) + z = rqSIZE

theorem drifted_init :
    Drifted [] ⟨image 0 [] (rqSIZE - 17), 0⟩ 0 [] (rqSIZE - 17) where
  shm := rfl
  ptr := rfl
  fifo := rfl
  clean := by simp
  drift := rfl
  size := by decide

theorem weight_enq (trace : List (Event (List UInt8))) (r : List UInt8) :
    weight (enqueued (trace ++ [.enq r])) = weight (enqueued trace) + (r.length + 1) := by
  rw [enqueued_append, weight_append]
  congr 1

theorem enqueued_deq (trace : List (Event (List UInt8))) (r : List UInt8) :
    enqueued (trace ++ [.deq r]) = enqueued trace := by
  rw [enqueued_append]
  simp [enqueued]

section Steps

variable {trace : List (Event (List UInt8))} {server : Server} {k z : Nat}
  {pending : List (List UInt8)}

/-- `AddReq` stays inside the segment exactly if the bytes never used suffice. -/
theorem Drifted.add (h : Drifted trace server k pending z) {r : List UInt8} (hclean : Clean r) :
    (r.length + 1 ≤ z → ∃ shm, addReq server.shm r = some shm ∧
      Drifted (trace ++ [.enq r]) { server with shm } k (pending ++ [r]) (z - (r.length + 1))) ∧
    (z < r.length + 1 → addReq server.shm r = none) := by
  constructor
  · intro hfit
    refine ⟨image k (pending ++ [r]) (z - (r.length + 1)), ?_, ?_⟩
    · rw [h.shm]
      exact addReq_image k pending z r h.clean hfit
    · have hdrift := h.drift
      have hsize := h.size
      constructor
      · rfl
      · exact h.ptr
      · exact run_enq r h.fifo
      · rw [List.forall_mem_append, List.forall_mem_singleton]
        exact ⟨h.clean, hclean⟩
      · rw [weight_enq, weight_append, weight_singleton]
        omega
      · rw [weight_enq]
        omega
  · intro hlong
    rw [h.shm]
    apply addReq_segment_eq_none k pending _ r h.clean
    rwa [List.length_replicate]

/-- What the guard of `main` tells of a state: a byte is left, and a request is
pending that is no exit command. -/
theorem guard_segment {back : Mem} (hclean : ∀ r ∈ pending, Clean r)
    (hguard : Guard (segment k pending back)) :
    ∃ r rest w, pending = r :: rest ∧ cstring back = some w ∧
      (∀ s ∈ pending, ¬ exitReq <:+: s) ∧ ¬ exitReq <:+: w := by
  obtain ⟨n, hcount, hn, hnoexit⟩ := hguard
  rw [charcount_segment k pending back hclean, Option.some_inj] at hcount
  cases hback : cstring back with
  | none =>
      have hzero : (0 : UInt8) ∉ segment k pending back := by
        have hno : 0 ∉ back := by
          intro hmem
          obtain ⟨w, hw⟩ := cstring_isSome hmem
          rw [hback] at hw
          cases hw
        simp only [segment, List.mem_append, List.mem_cons, not_or]
        exact ⟨zero_not_mem_front k pending hclean, by decide, hno⟩
      rw [noExit, cstring_eq_none hzero] at hnoexit
      cases hnoexit
  | some w =>
      rw [noExit_segment k pending hclean hback, Option.some_inj, decide_eq_true_eq,
        not_or] at hnoexit
      cases pending with
      | nil =>
          simp only [List.length_nil] at hcount
          omega
      | cons r rest =>
          refine ⟨r, rest, w, rfl, rfl, ?_, hnoexit.2⟩
          intro s hs hin
          exact hnoexit.1 ⟨s, hs, hin⟩

/-- A guarded `dequeueItem` takes the oldest request out and leaves the bytes
behind the end marker alone. -/
theorem Drifted.dequeue (h : Drifted trace server k pending z) (hguard : Guard server.shm)
    {block : Mem} {copied : List UInt8} {next : Server}
    (hcall : dequeueShm block server = some (copied, next)) :
    ∃ rest, 0 < z ∧
      Drifted (trace ++ [.deq copied]) next (k + (copied.length + 1)) rest z := by
  obtain ⟨shm, RQptr⟩ := server
  have hshm : shm = segment k pending (List.replicate z 0) := h.shm
  have hptr : RQptr = k := h.ptr
  have hdrift := h.drift
  rw [show (Server.mk shm RQptr).shm = shm from rfl, hshm] at hguard
  obtain ⟨r, rest, w, rfl, hback, -, -⟩ := guard_segment h.clean hguard
  have hz : 0 < z := by
    by_contra hnone
    obtain rfl : z = 0 := by omega
    cases hback
  have hfit : r.length ≤ block.length := by
    by_contra hlong
    have hloops : dequeueLoops block (segment k (r :: rest) (List.replicate z 0)) = none :=
      dequeueLoops_segment_long _ (h.clean r (by simp)).2.1 (by omega)
    rw [dequeueShm, hshm, hloops] at hcall
    cases hcall
  have hresult := dequeueShm_segment block k k r rest h.clean hfit hback (Nat.le_refl k)
  rw [hshm, hptr, hresult] at hcall
  cases hcall
  refine ⟨rest, hz, ?_⟩
  constructor
  · rfl
  · rfl
  · exact run_deq h.fifo
  · exact fun s hs => h.clean s (by simp [hs])
  · rw [enqueued_deq, ← hdrift]
    simp [weight]
    omega
  · rw [enqueued_deq]
    exact h.size

end Steps

section Runs

variable {room : List (List UInt8) → List UInt8 → Prop}
  {trace : List (Event (List UInt8))} {state : Option Server}

/-- What holds of every sequence of calls: as long as all that was ever added
fits in the segment the state is as described, and from then on there is none. -/
theorem calls_drifted (h : Calls room trace state) :
    (17 + weight (enqueued trace) ≤ rqSIZE →
      ∃ server k pending z, state = some server ∧ Drifted trace server k pending z) ∧
    (rqSIZE < 17 + weight (enqueued trace) → state = none) := by
  induction h with
  | init =>
      constructor
      · intro _
        exact ⟨_, _, _, _, initShm_zeros, drifted_init⟩
      · intro hlarge
        exact absurd hlarge (by decide)
  | @add trace server pending r before hpending hclean hroom ih =>
      rw [weight_enq]
      have hstate : ∃ k pending z, Drifted trace server k pending z := by
        rcases Nat.lt_or_ge rqSIZE (17 + weight (enqueued trace)) with hlarge | hfits
        · cases ih.2 hlarge
        · obtain ⟨_, k, pending, z, hsome, hdrifted⟩ := ih.1 hfits
          cases hsome
          exact ⟨k, pending, z, hdrifted⟩
      obtain ⟨k, pending, z, hdrifted⟩ := hstate
      have hsize := hdrifted.size
      obtain ⟨hinside, houtside⟩ := hdrifted.add hclean
      constructor
      · intro hfits
        obtain ⟨shm, hadd, hnext⟩ := hinside (by omega)
        exact ⟨_, _, _, _, by rw [hadd]; rfl, hnext⟩
      · intro hlarge
        rw [houtside (by omega)]
        rfl
  | @dequeue trace server next block copied before hguard hblock hcall ih =>
      rw [enqueued_deq]
      rcases Nat.lt_or_ge rqSIZE (17 + weight (enqueued trace)) with hlarge | hfits
      · cases ih.2 hlarge
      · obtain ⟨_, k, pending, z, hsome, hdrifted⟩ := ih.1 hfits
        cases hsome
        obtain ⟨rest, -, hnext⟩ := hdrifted.dequeue hguard hcall
        constructor
        · intro _
          exact ⟨_, _, _, _, rfl, hnext⟩
        · intro hlarge
          omega

/-- The space of the queue is not used again: in a sequence of calls whose every
request fits beside the pending ones, every `AddReq` writes inside the segment
exactly if the header, the end marker and all requests that were ever added fit
in the segment together. -/
theorem calls_inside_iff (h : Calls FitsPending trace state) :
    state ≠ none ↔ 17 + weight (enqueued trace) ≤ rqSIZE := by
  obtain ⟨hinside, houtside⟩ := calls_drifted h
  constructor
  · intro hstate
    by_contra hlarge
    exact hstate (houtside (by omega))
  · intro hfits hnone
    obtain ⟨server, _, _, _, hsome, _⟩ := hinside hfits
    rw [hnone] at hsome
    cases hsome

end Runs

section Rounds

/-- The same request added and served again and again. -/
def rounds (r : List UInt8) : Nat → List (Event (List UInt8))
  | 0 => []
  | n + 1 => rounds r n ++ [.enq r] ++ [.deq r]

theorem weight_rounds (r : List UInt8) (n : Nat) :
    weight (enqueued (rounds r n)) = n * (r.length + 1) := by
  induction n with
  | zero => simp [rounds, enqueued, weight]
  | succ n ih =>
      rw [rounds, enqueued_deq, weight_enq, ih]
      ring

/-- A server whose queue is always short gets through as many rounds as the
segment has room for their bytes, and then no further. -/
theorem calls_rounds {r : List UInt8} (hclean : Clean r) (hexit : ¬ exitReq <:+: r)
    (hshort : r.length ≤ 1024) (n : Nat) (hn : 17 + n * (r.length + 1) < rqSIZE) :
    ∃ server z, Calls FitsPending (rounds r n) (some server) ∧
      Drifted (rounds r n) server (n * (r.length + 1)) [] z := by
  induction n with
  | zero =>
      rw [Nat.zero_mul]
      exact ⟨_, _, initShm_zeros ▸ Calls.init, drifted_init⟩
  | succ n ih =>
      have hnext : (n + 1) * (r.length + 1) = n * (r.length + 1) + (r.length + 1) := by ring
      obtain ⟨server, z, hcalls, hdrifted⟩ := ih (by omega)
      have hsize := hdrifted.size
      rw [weight_rounds] at hsize
      obtain ⟨shm, hadd, hadded⟩ := (hdrifted.add hclean).1 (by omega)
      have hroom : FitsPending [] r := by
        simp only [FitsPending, weight, List.map_nil, List.sum_nil]
        omega
      have henq := Calls.add r hcalls hdrifted.fifo hclean hroom
      rw [hadd] at henq
      obtain ⟨shm', RQptr⟩ := server
      have hshm : shm = image (n * (r.length + 1)) [r] (z - (r.length + 1)) := hadded.shm
      have hptr : RQptr = n * (r.length + 1) := hadded.ptr
      have hone : ∀ s ∈ [r], Clean s := by simpa using hclean
      have hguard : Guard shm := by
        rw [hshm]
        apply guard_image _ _ _ hone (by omega) (by simp)
        simpa using hexit
      have hcall := dequeueShm_image (List.replicate 1024 0) (n * (r.length + 1)) RQptr r []
        (z - (r.length + 1)) hone (by rwa [List.length_replicate]) (by omega) (by omega)
      rw [← hshm] at hcall
      obtain ⟨rest, -, hdone⟩ := hadded.dequeue hguard hcall
      obtain rfl : rest = [] := by
        have hempty := run_deq hadded.fifo
        exact Option.some.inj (hdone.fifo.symm.trans hempty)
      rw [hnext]
      exact ⟨_, _, Calls.dequeue _ _ henq hguard List.length_replicate hcall, hdone⟩

/-- 209711 requests of four bytes go through a queue that never holds more than
one of them. The next one is written over the end of the segment. -/
theorem short_queue_leaves_segment :
    Calls FitsPending (rounds (text "/d w") 209711 ++ [.enq (text "/d w")]) none := by
  have hlength : (text "/d w").length = 4 := by decide
  have hsize : rqSIZE = 1048576 := by decide
  obtain ⟨server, z, hcalls, hdrifted⟩ := calls_rounds (r := text "/d w") (by decide)
    (by decide) (by decide) 209711 (by rw [hlength, hsize]; norm_num)
  have hleft := hdrifted.size
  rw [weight_rounds, hlength, hsize] at hleft
  have hroom : FitsPending [] (text "/d w") := by
    unfold FitsPending
    rw [hlength, hsize]
    decide
  have hlast := Calls.add (text "/d w") hcalls hdrifted.fifo (by decide) hroom
  rw [(hdrifted.add (by decide)).2 (by rw [hlength]; omega)] at hlast
  exact hlast

/-- One round leaves the segment as long as it was. -/
theorem calls_inside_iff_round :
    ∃ server, Calls FitsPending (rounds (text "/d w") 1) (some server) ∧
      (some server ≠ none ↔ 17 + weight (enqueued (rounds (text "/d w") 1)) ≤ rqSIZE) := by
  obtain ⟨server, _, hcalls, _⟩ := calls_rounds (r := text "/d w") (by decide) (by decide)
    (by decide) 1 (by decide)
  exact ⟨server, hcalls, calls_inside_iff hcalls⟩

end Rounds

end Cse420.Queue
