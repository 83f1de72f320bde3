import Mathlib

/-!
A first-in first-out queue as a checker of traces. An event that removes an
element names it, so a trace is accepted only when every removed element is
the oldest one present.
-/

namespace Cse420.Fifo

variable {α : Type*} [DecidableEq α]

inductive Event (α : Type*) where
  | enq : α → Event α
  | deq : α → Event α

def step (queue : List α) : Event α → Option (List α)
  | .enq a => some (queue ++ [a])
  | .deq a =>
      match queue with
      | [] => none
      | b :: rest => if a = b then some rest else none

/-- The queue left after a trace, when the trace is one a FIFO queue allows. -/
def run (queue : List α) : List (Event α) → Option (List α)
  | [] => some queue
  | event :: rest => (step queue event).bind (run · rest)

def enqueued : List (Event α) → List α
  | [] => []
  | .enq a :: rest => a :: enqueued rest
  | .deq _ :: rest => enqueued rest

def dequeued : List (Event α) → List α
  | [] => []
  | .enq _ :: rest => dequeued rest
  | .deq a :: rest => a :: dequeued rest

theorem run_append (queue : List α) (first second : List (Event α)) :
    run queue (first ++ second) = (run queue first).bind (run · second) := by
  induction first generalizing queue with
  | nil => rfl
  | cons event rest ih =>
      simp only [List.cons_append, run]
      cases step queue event with
      | none => rfl
      | some next => exact ih next

omit [DecidableEq α] in
theorem enqueued_append (first second : List (Event α)) :
    enqueued (first ++ second) = enqueued first ++ enqueued second := by
  induction first with
  | nil => rfl
  | cons event rest ih => cases event <;> simp [enqueued, ih]

theorem run_enq {trace : List (Event α)} {queue : List α} (a : α)
    (h : run [] trace = some queue) :
    run [] (trace ++ [.enq a]) = some (queue ++ [a]) := by
  rw [run_append, h]
  rfl

theorem run_deq {trace : List (Event α)} {queue : List α} {a : α}
    (h : run [] trace = some (a :: queue)) :
    run [] (trace ++ [.deq a]) = some queue := by
  rw [run_append, h]
  simp [run, step]

/-- Nothing is lost, repeated or reordered: what went in is what came out
followed by what is still there. -/
theorem run_conserves {trace : List (Event α)} {start queue : List α}
    (h : run start trace = some queue) :
    start ++ enqueued trace = dequeued trace ++ queue := by
  induction trace generalizing start with
  | nil =>
      cases h
      simp [enqueued, dequeued]
  | cons event rest ih =>
      cases event with
      | enq a =>
          have hrest := ih (show run (start ++ [a]) rest = some queue from h)
          simpa [enqueued, dequeued] using hrest
      | deq a =>
          cases start with
          | nil => simp [run, step] at h
          | cons b tail =>
              by_cases hab : a = b
              · subst hab
                have htail : run tail rest = some queue := by
                  simpa [run, step] using h
                have hrest := ih htail
                simpa [enqueued, dequeued] using hrest
              · simp [run, step, hab] at h

end Cse420.Fifo
