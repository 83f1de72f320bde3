import Cse420.Lib.DoublyLinked
import Cse420.Lib.Machine

/-!
The frame queue of `Virtual Memory/algo.c`. `addhead`, `addtail` and `removetail`
make a deque of it as long as one page stays: `removetail` writes to the node in
front of the one it takes off, and for the last page there is none.
-/

namespace Cse420.VirtualMemory

open DoublyLinked Machine

/-- `frame`, with its page. -/
abbrev Frame := Cell Int

/-- `que`, with the frames in memory. -/
structure Que where
  heap : Heap Frame
  head : Option Nat
  size : Int
  tail : Option Nat

/-- `addtail`. The frame comes from `calloc`, so its links are `NULL`. -/
def addtail (calloc : Heap.Malloc Frame) (list : Que) (val : Int) : Option Que := do
  let node := calloc.address list.heap
  let heap := list.heap.put node ⟨none, val, none⟩
  if list.head = none ∧ list.tail = none then
    return ⟨heap, some node, list.size + 1, some node⟩
  else
    let heap ← heap.modify list.tail ({ · with next := some node })
    let heap ← heap.modify (some node) ({ · with prev := list.tail })
    return ⟨heap, list.head, list.size + 1, some node⟩

def addhead (calloc : Heap.Malloc Frame) (list : Que) (val : Int) : Option Que := do
  let node := calloc.address list.heap
  let heap := list.heap.put node ⟨none, val, none⟩
  if list.head = none ∧ list.tail = none then
    return ⟨heap, some node, list.size + 1, some node⟩
  else
    let heap ← heap.modify list.head ({ · with prev := some node })
    let heap ← heap.modify (some node) ({ · with prev := none })
    let heap ← heap.modify (some node) ({ · with next := list.head })
    return ⟨heap, some node, list.size + 1, list.tail⟩

/-- `removetail`, with the page it returns. -/
def removetail (list : Que) : Option (Que × Int) := do
  let t := list.tail
  let tail := (← list.heap.read t).prev
  let heap ← list.heap.modify tail ({ · with next := none })
  let v := (← heap.read t).val
  let heap ← heap.free t
  return (⟨heap, list.head, list.size - 1, tail⟩, v)

inductive Call where
  | addhead (val : Int)
  | addtail (val : Int)
  | removetail
  deriving DecidableEq

/-- One call, with the page that it returns if it returns one. -/
def exec (calloc : Heap.Malloc Frame) (list : Que) : Call → Option (Que × Option Int)
  | .addhead val => (addhead calloc list val).map (·, none)
  | .addtail val => (addtail calloc list val).map (·, none)
  | .removetail => (removetail list).map fun (list, v) => (list, some v)

def step (calloc : Heap.Malloc Frame) (list : Que) (call : Call) : Option Que :=
  (exec calloc list call).map Prod.fst

/-- What a call does to the pages of a deque. -/
def Call.onPages (pages : List Int) : Call → List Int
  | .addhead val => val :: pages
  | .addtail val => pages ++ [val]
  | .removetail => pages.dropLast

/-- What it returns. -/
def Call.returned (pages : List Int) : Call → Option Int
  | .addhead _ => none
  | .addtail _ => none
  | .removetail => pages.getLast?

/-- The pages of a deque after these calls. -/
def contents (calls : List Call) : List Int := calls.foldl Call.onPages []

/-- Both directions of the links describe these pages. -/
structure Describes (list : Que) (pages : List Int) : Prop where
  links : ∃ frames : List (Nat × Int), frames.map Prod.snd = pages ∧
    Follows Cell.next list.heap.block list.head frames ∧
    Follows Cell.prev list.heap.block list.tail frames.reverse
  size : list.size = pages.length
  head : list.head = none ↔ pages = []
  tail : list.tail = none ↔ pages = []

/-- Every one of the calls completes, returns what a deque returns, and leaves the
queue with the pages of a deque. -/
def IsDeque (calloc : Heap.Malloc Frame) (list : Que) (calls : List Call) : Prop :=
  ∀ done call, done ++ [call] <+: calls → ∃ now later,
    run (step calloc) list done = some now ∧
    exec calloc now call = some (later, call.returned (contents done)) ∧
    Describes later (contents (done ++ [call]))

/-- The invariant. -/
structure Represents (list : Que) (frames : List (Nat × Int)) : Prop where
  linked : Linked list.heap.block list.head list.tail frames
  size : list.size = frames.length

theorem Represents.describes {list : Que} {frames : List (Nat × Int)}
    (h : Represents list frames) : Describes list (frames.map Prod.snd) where
  links := by
    refine ⟨frames, rfl, ?_, ?_⟩
    · rw [h.linked.head]
      exact h.linked.chain.follows_next
    · rw [h.linked.tail]
      exact h.linked.chain.follows_prev
  size := by rw [h.size, List.length_map]
  head := by
    rw [h.linked.head]
    cases frames <;> simp [first]
  tail := by
    rw [h.linked.tail]
    rcases List.eq_nil_or_concat frames with rfl | ⟨front, c, rfl⟩
    · simp [last]
    · simp [last]

section Calls

variable (calloc : Heap.Malloc Frame) {list : Que} {frames : List (Nat × Int)}

/-- The first frame of an empty queue. -/
theorem Represents.single (h : Represents list []) {node : Nat}
    (hfresh : list.heap.block node = none) (val : Int) :
    Represents ⟨list.heap.put node ⟨none, val, none⟩, some node, list.size + 1, some node⟩
      [(node, val)] where
  linked := h.linked.single hfresh Heap.put_block_self fun _ hne => Heap.put_block_ne hne
  size := by
    rw [h.size]
    rfl

theorem addtail_spec (h : Represents list frames) (val : Int) :
    ∃ later node, addtail calloc list val = some later ∧
      Represents later (frames ++ [(node, val)]) := by
  have hfresh := calloc.fresh list.heap
  generalize hnode : calloc.address list.heap = node at hfresh
  unfold addtail
  simp only [hnode]
  rcases List.eq_nil_or_concat frames with rfl | ⟨front, t, rfl⟩
  · rw [if_pos ⟨h.linked.head, h.linked.tail⟩]
    exact ⟨_, node, rfl, h.single hfresh val⟩
  · rw [List.concat_eq_append] at *
    have htail : list.tail = some t.1 := h.linked.tail.trans last_append
    have ht := h.linked.block_eq
    have hne : t.1 ≠ node := Heap.ne_of_fresh ht hfresh
    rw [if_neg (by simp [htail]), htail, Heap.modify_some _ ((Heap.put_block_ne hne).trans ht)]
    simp only [Option.bind_eq_bind, Option.bind_some]
    rw [Heap.modify_some _ ((Heap.put_block_ne hne.symm).trans Heap.put_block_self)]
    refine ⟨_, node, rfl, ?_, ?_⟩
    · apply h.linked.concat hfresh
      · exact Heap.put_block_self
      · exact (Heap.put_block_ne hne).trans Heap.put_block_self
      · intro a hnode htail
        simp [hnode, htail]
    · rw [h.size, List.length_append, List.length_append, List.length_append]
      push_cast
      rfl

theorem addhead_spec (h : Represents list frames) (val : Int) :
    ∃ later node, addhead calloc list val = some later ∧
      Represents later ((node, val) :: frames) := by
  have hfresh := calloc.fresh list.heap
  generalize hnode : calloc.address list.heap = node at hfresh
  unfold addhead
  simp only [hnode]
  cases frames with
  | nil =>
      rw [if_pos ⟨h.linked.head, h.linked.tail⟩]
      exact ⟨_, node, rfl, h.single hfresh val⟩
  | cons c back =>
      have hhead : list.head = some c.1 := h.linked.head
      have hc := h.linked.head_eq
      have hne : c.1 ≠ node := Heap.ne_of_fresh hc hfresh
      rw [if_neg (by simp [hhead]), hhead, Heap.modify_some _ ((Heap.put_block_ne hne).trans hc)]
      simp only [Option.bind_eq_bind, Option.bind_some]
      rw [Heap.modify_some _ ((Heap.put_block_ne hne.symm).trans Heap.put_block_self)]
      simp only [Option.bind_some]
      rw [Heap.modify_some _ Heap.put_block_self]
      refine ⟨_, node, rfl, ?_, ?_⟩
      · apply h.linked.cons hfresh
        · exact Heap.put_block_self
        · simp [hne]
        · intro a hnode hhead
          simp [hnode, hhead]
      · rw [h.size, List.length_cons, List.length_cons, List.length_cons]
        push_cast
        rfl

/-- The page in front of the last one becomes the last. -/
theorem removetail_spec {front : List (Nat × Int)} {c t : Nat × Int}
    (h : Represents list (front ++ [c, t])) :
    ∃ later, removetail list = some (later, t.2) ∧ Represents later (front ++ [c]) := by
  have htail : list.tail = some t.1 := h.linked.tail.trans last_append
  have hc := h.linked.block_eq
  have ht : list.heap.block t.1 = some ⟨some c.1, t.2, none⟩ := h.linked.next_eq
  have hne : t.1 ≠ c.1 := h.linked.neighbours_ne.symm
  unfold removetail
  rw [htail]
  simp only [Heap.read, Option.bind_eq_bind, Option.bind_some, ht]
  rw [Heap.modify_some _ hc]
  simp only [Option.bind_some, Heap.put_block_ne hne, ht]
  rw [Heap.free_some ((Heap.put_block_ne hne).trans ht)]
  refine ⟨_, rfl, ?_, ?_⟩
  · apply h.linked.dropLast
    · exact (Heap.erase_block_ne hne.symm).trans Heap.put_block_self
    · intro a hac hat
      exact (Heap.erase_block_ne hat).trans (Heap.put_block_ne hac)
  · simp only
    rw [h.size]
    simp
    omega

/-- In front of the only page there is no frame to write to. -/
theorem removetail_last {t : Nat × Int} (h : Represents list [t]) : removetail list = none := by
  have htail : list.tail = some t.1 := h.linked.tail
  have ht : list.heap.block t.1 = some ⟨none, t.2, none⟩ := h.linked.head_eq
  unfold removetail
  rw [htail]
  simp only [Heap.read, Option.bind_eq_bind, Option.bind_some, ht, Heap.modify_none,
    Option.bind_none]

/-- One call on a queue that is not about to lose its last page. -/
theorem exec_spec (h : Represents list frames) (call : Call)
    (hmany : call = .removetail → 2 ≤ frames.length) :
    ∃ later frames', exec calloc list call =
        some (later, call.returned (frames.map Prod.snd)) ∧
      Represents later frames' ∧
      frames'.map Prod.snd = call.onPages (frames.map Prod.snd) := by
  cases call with
  | addhead val =>
      obtain ⟨later, node, hadd, hlater⟩ := addhead_spec calloc h val
      exact ⟨later, _, by rw [exec, hadd]; rfl, hlater, rfl⟩
  | addtail val =>
      obtain ⟨later, node, hadd, hlater⟩ := addtail_spec calloc h val
      exact ⟨later, _, by rw [exec, hadd]; rfl, hlater, by rw [List.map_append]; rfl⟩
  | removetail =>
      have hlength := hmany rfl
      rcases List.eq_nil_or_concat frames with rfl | ⟨others, t, rfl⟩
      · simp at hlength
      rcases List.eq_nil_or_concat others with rfl | ⟨front, c, rfl⟩
      · simp at hlength
      have hsplit : (front.concat c).concat t = front ++ [c, t] := by simp
      rw [hsplit] at h ⊢
      obtain ⟨later, hremove, hlater⟩ := removetail_spec h
      refine ⟨later, _, ?_, hlater, ?_⟩
      · rw [exec, hremove]
        simp [Call.returned]
      · simp [Call.onPages]

end Calls

section Runs

variable {calloc : Heap.Malloc Frame} {list : Que} {calls : List Call}

theorem contents_concat (done : List Call) (call : Call) :
    contents (done ++ [call]) = call.onPages (contents done) := by
  simp [contents]

/-- The queue while two pages are there whenever one is taken off. -/
theorem run_represents (calloc : Heap.Malloc Frame) (h : Represents list []) (calls : List Call)
    (hmany : ∀ done, done ++ [.removetail] <+: calls → 2 ≤ (contents done).length) :
    ∃ now frames, run (step calloc) list calls = some now ∧ Represents now frames ∧
      frames.map Prod.snd = contents calls := by
  induction calls using List.reverseRecOn with
  | nil => exact ⟨list, [], rfl, h, rfl⟩
  | append_singleton done call ih =>
      obtain ⟨now, frames, hrun, hnow, hpages⟩ := ih fun d hd =>
        hmany d (hd.trans (List.prefix_append _ _))
      have hcall : call = .removetail → 2 ≤ frames.length := by
        rintro rfl
        have hlength := hmany done (List.prefix_refl _)
        rwa [← hpages, List.length_map] at hlength
      obtain ⟨later, frames', hexec, hlater, hpages'⟩ := exec_spec calloc hnow call hcall
      refine ⟨later, frames', ?_, hlater, ?_⟩
      · rw [run_append, hrun]
        simp [run, step, hexec]
      · rw [hpages', contents_concat, hpages]

/-- Only on a queue that is about to lose its last page does a call go wrong. -/
theorem isDeque_iff (h : Represents list [])
    (hlegal : ∀ done, done ++ [.removetail] <+: calls → contents done ≠ []) :
    IsDeque calloc list calls ↔
      ∀ done, done ++ [.removetail] <+: calls → (contents done).length ≠ 1 := by
  have hmore : ∀ done, done ++ [.removetail] <+: calls → (contents done).length ≠ 1 →
      2 ≤ (contents done).length := by
    intro done hdone hone
    have hpos := List.length_pos_of_ne_nil (hlegal done hdone)
    omega
  constructor
  · intro hdeque done
    -- the first such call is made on a queue that is still in order
    induction hlength : done.length using Nat.strong_induction_on generalizing done with
    | _ n ih =>
        intro hdone hone
        have hmany : ∀ d, d ++ [.removetail] <+: done → 2 ≤ (contents d).length := by
          intro d hd
          have hshorter := hd.length_le
          rw [List.length_append, List.length_singleton] at hshorter
          have hin := hd.trans ((List.prefix_append done _).trans hdone)
          exact hmore d hin (ih d.length (by omega) d rfl hin)
        obtain ⟨now, frames, hrun, hnow, hpages⟩ := run_represents calloc h done hmany
        obtain ⟨t, rfl⟩ : ∃ t, frames = [t] := by
          apply List.length_eq_one_iff.mp
          rw [← hone, ← hpages, List.length_map]
        obtain ⟨now', later, hrun', hexec, -⟩ := hdeque done .removetail hdone
        rw [hrun, Option.some.injEq] at hrun'
        subst hrun'
        rw [exec, removetail_last hnow] at hexec
        cases hexec
  · intro hmany done call hdone
    have hpart : done <+: calls := (List.prefix_append done _).trans hdone
    obtain ⟨now, frames, hrun, hnow, hpages⟩ := run_represents calloc h done fun d hd =>
      hmore d (hd.trans hpart) (hmany d (hd.trans hpart))
    have hcall : call = .removetail → 2 ≤ frames.length := by
      rintro rfl
      have hlength := hmore done hdone (hmany done hdone)
      rwa [← hpages, List.length_map] at hlength
    obtain ⟨later, frames', hexec, hlater, hpages'⟩ := exec_spec calloc hnow call hcall
    refine ⟨now, later, hrun, hpages ▸ hexec, ?_⟩
    rw [contents_concat, ← hpages, ← hpages']
    exact hlater.describes

/-- From an empty queue, calls that never take a page off an empty queue find a
deque, exactly if they never take off its last page. -/
theorem frameQueue_deque_iff (calloc : Heap.Malloc Frame) (list : Que)
    (hhead : list.head = none) (htail : list.tail = none) (hsize : list.size = 0)
    (calls : List Call)
    (hlegal : ∀ done, done ++ [.removetail] <+: calls → contents done ≠ []) :
    IsDeque calloc list calls ↔
      ∀ done, done ++ [.removetail] <+: calls → (contents done).length ≠ 1 := by
  apply isDeque_iff _ hlegal
  constructor
  · rw [hhead, htail]
    exact Linked.nil
  · exact hsize

/-- What holds before each of these calls, by their places. -/
theorem before_each {call : Call} {P : List Call → Prop}
    (h : ∀ i < calls.length, calls[i]? = some call → P (calls.take i)) :
    ∀ done, done ++ [call] <+: calls → P done := by
  rintro done ⟨rest, rfl⟩
  have hat := h done.length (by simp) (by simp)
  rw [List.append_assoc, List.take_left] at hat
  exact hat

def emptyQue : Que := ⟨Heap.empty, none, 0, none⟩

/-- A page is taken off, with another one left, and the queue is filled again. -/
theorem frameQueue_deque_four :
    IsDeque Heap.Malloc.bump emptyQue [.addhead 1, .addtail 2, .removetail, .addhead 3] :=
  (frameQueue_deque_iff Heap.Malloc.bump emptyQue rfl rfl rfl
    [.addhead 1, .addtail 2, .removetail, .addhead 3] (before_each (by decide))).mpr
    (before_each (by decide))

/-- The only page cannot be taken off. -/
theorem frameQueue_last_page :
    (∀ done, done ++ [.removetail] <+: [.addhead 7, .removetail] → contents done ≠ []) ∧
      ¬ IsDeque Heap.Malloc.bump emptyQue [.addhead 7, .removetail] := by
  refine ⟨before_each (by decide), ?_⟩
  intro hdeque
  obtain ⟨now, later, hrun, hexec, -⟩ := hdeque [.addhead 7] .removetail (List.prefix_refl _)
  cases hrun
  cases hexec

end Runs

end Cse420.VirtualMemory
