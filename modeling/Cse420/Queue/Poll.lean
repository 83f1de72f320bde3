import Cse420.Queue.Layout

/-!
What the server sees while a client is appending. `main` polls with
`charcount` and takes no semaphore, so the poll can fall between any two
stores of `AddReq`. The first of these stores puts the first byte of the
request where the end marker was.
-/

namespace Cse420.Queue

open CMemory

/-- The stores of `AddReq` once it has found its place `s`: the `memcpy` with
the terminator, the separator, the end marker. -/
def addReqStores (s : Nat) (str : List UInt8) : List (Nat × UInt8) :=
  copyStores s (str ++ [0]) ++ [(s + str.length, gt), (s + str.length + 1, lt)]

/-- `AddReq` interrupted after its first `j` stores. -/
def addReqAfter (shm : Mem) (str : List UInt8) (j : Nat) : Option Mem := do
  let s ← scanTo lt shm
  let s ← scanBack gt shm s
  storeEach shm ((addReqStores (s + 1) str).take j)

/-- `AddReq` is the sequence of its stores. -/
theorem addReq_eq_stores (shm : Mem) (str : List UInt8) :
    addReq shm str = (do
      let s ← scanTo lt shm
      let s ← scanBack gt shm s
      storeEach shm (addReqStores (s + 1) str)) := by
  simp only [addReq, addReqStores, storeEach_append, ← storeAll_eq_storeEach,
    Option.bind_eq_bind]
  congr 1
  funext s
  congr 1
  funext s
  congr 1
  funext shm
  simp only [storeEach, Option.bind_eq_bind, Option.bind_fun_some]

/-- A poll in any state between the stores of an append ends at an end marker
and returns the count before or the count after the append. -/
def PollSafe (shm : Mem) (str : List UInt8) : Prop :=
  ∀ j m, addReqAfter shm str j = some m →
    ∃ n, charcount m = some n ∧
      (charcount shm = some n ∨ (addReq shm str).bind charcount = some n)

theorem addReqAfter_image (k : Nat) (pending : List (List UInt8)) (z : Nat)
    (str : List UInt8) (j : Nat) (hclean : ∀ r ∈ pending, Clean r) :
    addReqAfter (image k pending z) str j =
      storeEach (image k pending z)
        ((addReqStores (front k pending).length str).take j) := by
  obtain ⟨hscan, e, hback, hlen⟩ := addReq_scans k pending (List.replicate z 0)
    fun r hr => (hclean r hr).1
  rw [addReqAfter]
  simp only [image, hscan, Option.bind_eq_bind, Option.bind_some, hback, hlen]

/-- After the first store the byte at the end marker is the first byte of the
request, or its terminator. -/
theorem addReqAfter_one (k : Nat) (pending : List (List UInt8)) (z : Nat)
    (str : List UInt8) (hclean : ∀ r ∈ pending, Clean r) :
    addReqAfter (image k pending z) str 1 =
      some (front k pending ++ (str ++ [0]).headD 0 :: List.replicate z 0) := by
  rw [addReqAfter_image k pending z str 1 hclean]
  have hstore (b : UInt8) := store_append (front k pending) (List.replicate z 0) lt b
  cases str with
  | nil => simp [addReqStores, copyStores, storeEach, image, hstore]
  | cons b rest => simp [addReqStores, copyStores, storeEach, image, hstore]

/-- With the end marker gone the poll runs off the segment. -/
theorem charcount_without_marker (k : Nat) (pending : List (List UInt8)) (z : Nat)
    (b : UInt8) (hclean : ∀ r ∈ pending, Clean r) (hb : b ≠ lt) :
    charcount (front k pending ++ b :: List.replicate z 0) = none := by
  apply charcountFrom_eq_none
  simp only [List.mem_append, List.mem_cons, List.mem_replicate, not_or]
  refine ⟨lt_not_mem_front k pending fun r hr => (hclean r hr).1, fun h => hb h.symm, ?_⟩
  exact fun h => absurd h.2 (by decide)

theorem copyStores_bound (s : Nat) (bytes : List UInt8) :
    ∀ w ∈ copyStores s bytes, s ≤ w.1 := by
  induction bytes generalizing s with
  | nil => simp [copyStores]
  | cons b rest ih =>
      intro w hw
      rcases List.mem_cons.mp hw with rfl | hw
      · exact Nat.le_refl s
      · have := ih (s + 1) w hw
        omega

/-- Stores behind a byte keep it and everything in front of it. -/
theorem storeEach_behind (head back : List UInt8) (c : UInt8)
    (stores : List (Nat × UInt8)) (hbehind : ∀ w ∈ stores, head.length < w.1)
    (m : Mem) (h : storeEach (head ++ c :: back) stores = some m) :
    ∃ rest, m = head ++ c :: rest := by
  induction stores generalizing back with
  | nil => exact ⟨back, (Option.some.inj h).symm⟩
  | cons w stores ih =>
      have hw := hbehind w (by simp)
      obtain ⟨i, hi⟩ : ∃ i, w.1 = (head ++ [c]).length + i :=
        ⟨w.1 - (head ++ [c]).length, by simp; omega⟩
      have hsplit : head ++ c :: back = (head ++ [c]) ++ back := by simp
      rw [storeEach, hi, hsplit, store_right] at h
      cases hstore : store back i w.2 with
      | none => simp [hstore] at h
      | some next =>
          simp only [hstore, Option.map_some, Option.bind_eq_bind, Option.bind_some] at h
          exact ih next (fun v hv => hbehind v (by simp [hv])) (by simpa using h)

/-- A request that begins with the end marker never removes it. -/
theorem pollSafe_of_marker (k : Nat) (pending : List (List UInt8)) (z : Nat)
    (rest : List UInt8) (hclean : ∀ r ∈ pending, Clean r) :
    PollSafe (image k pending z) (lt :: rest) := by
  intro j m hm
  rw [addReqAfter_image k pending z (lt :: rest) j hclean] at hm
  have hmarker := store_append (front k pending) (List.replicate z 0) lt lt
  have hshape : ∃ back, m = front k pending ++ lt :: back := by
    cases j with
    | zero => exact ⟨List.replicate z 0, (Option.some.inj hm).symm⟩
    | succ j =>
        simp only [addReqStores, List.cons_append, copyStores, List.take_succ_cons,
          storeEach, image, hmarker, Option.bind_eq_bind, Option.bind_some] at hm
        apply storeEach_behind (front k pending) _ lt _ ?_ m hm
        intro w hw
        have hmem := List.mem_of_mem_take hw
        simp only [List.mem_append, List.mem_cons, List.not_mem_nil, or_false] at hmem
        rcases hmem with hmem | rfl | rfl
        · have := copyStores_bound _ _ w hmem
          omega
        · simp only [List.length_cons]
          omega
        · simp only [List.length_cons]
          omega
  obtain ⟨back, rfl⟩ := hshape
  have hlt := lt_not_mem_front k pending fun r hr => (hclean r hr).1
  refine ⟨(front k pending).count gt, ?_, Or.inl ?_⟩
  · simpa [charcount] using charcountFrom_append 0 (front k pending) back hlt
  · simpa [charcount, image] using charcountFrom_append 0 (front k pending) (List.replicate z 0) hlt

/-- The poll is safe exactly for a request whose first byte is the end marker
itself, which no client sends: a search request begins with `/`, the exit
command with `e`. For every other string the poll after the first store of the
append finds no end marker in the segment. -/
theorem pollSafe_iff_marker_first (k : Nat) (pending : List (List UInt8)) (z : Nat)
    (str : List UInt8) (hclean : ∀ r ∈ pending, Clean r) :
    PollSafe (image k pending z) str ↔ str.head? = some lt := by
  constructor
  · intro hsafe
    obtain ⟨n, hn, _⟩ := hsafe 1 _ (addReqAfter_one k pending z str hclean)
    by_contra hne
    have hb : (str ++ [0]).headD 0 ≠ lt := by
      cases str with
      | nil => decide
      | cons b rest => simpa using hne
    rw [charcount_without_marker k pending z _ hclean hb] at hn
    cases hn
  · intro hfirst
    obtain ⟨rest, rfl⟩ : ∃ rest, str = lt :: rest := by
      cases str with
      | nil => simp at hfirst
      | cons b rest => exact ⟨rest, by simpa using hfirst⟩
    exact pollSafe_of_marker k pending z rest hclean

/-- Two pending requests and a third one on its way in. -/
theorem pollSafe_iff_marker_first_search :
    (∀ r ∈ [text "/a is", text "/b is"], Clean r) ∧
      (PollSafe (image 0 [text "/a is", text "/b is"] 4096) (text "/c is") ↔
        (text "/c is").head? = some lt) :=
  ⟨by decide, pollSafe_iff_marker_first 0 _ 4096 _ (by decide)⟩

/-- The first search request of a fresh server, polled after one store: there
is no end marker between the start and the end of the segment. -/
theorem poll_misses_end_marker :
    initShm (List.replicate rqSIZE 0) = some ⟨image 0 [] (rqSIZE - 17), 0⟩ ∧
      (∃ m, addReqAfter (image 0 [] (rqSIZE - 17)) (text "/d w") 1 = some m ∧
        charcount m = none) ∧
      ¬ PollSafe (image 0 [] (rqSIZE - 17)) (text "/d w") := by
  have hclean : ∀ r ∈ ([] : List (List UInt8)), Clean r := by simp
  have hone := addReqAfter_one 0 [] (rqSIZE - 17) (text "/d w") hclean
  have hnone := charcount_without_marker 0 [] (rqSIZE - 17)
    ((text "/d w" ++ [0]).headD 0) hclean (by decide)
  refine ⟨initShm_zeros, ⟨_, hone, hnone⟩, ?_⟩
  intro hsafe
  obtain ⟨n, hn, _⟩ := hsafe 1 _ hone
  rw [hnone] at hn
  cases hn

end Cse420.Queue
