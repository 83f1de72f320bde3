import Mathlib

/-!
One thread amid the events of others. The thread is written as a function on a
world: the state it works on and the events of the other threads still to come,
in portions that occur before its next step, before the step after that, and so
on. What holds for every such list of portions holds for every interleaving.
-/

namespace Cse420.Interference

variable {σ ε τ : Type*}

structure World (σ ε : Type*) where
  state : σ
  schedule : List (List ε)

/-- The events that occur before the next step. -/
def tick (env : σ → ε → σ) (w : World σ ε) : World σ ε :=
  match w.schedule with
  | [] => w
  | now :: later => ⟨now.foldl env w.state, later⟩

/-- One step, after what occurs before it. -/
def act (env : σ → ε → σ) (f : σ → σ) (w : World σ ε) : World σ ε :=
  ⟨f (tick env w).state, (tick env w).schedule⟩

theorem tick_schedule (env : σ → ε → σ) (w : World σ ε) :
    (tick env w).schedule = w.schedule.drop 1 := by
  unfold tick
  split
  · rename_i hend
    rw [hend]
    rfl
  · rename_i hnow
    rw [hnow]
    rfl

theorem foldl_invariant {env : σ → ε → σ} (inv : σ → Prop)
    (henv : ∀ s event, inv s → inv (env s event)) (events : List ε) {s : σ} (hs : inv s) :
    inv (events.foldl env s) := by
  induction events generalizing s with
  | nil => exact hs
  | cons event rest ih => exact ih (henv s event hs)

/-- What no other thread breaks, waiting does not break. -/
theorem tick_invariant {env : σ → ε → σ} (inv : σ → Prop)
    (henv : ∀ s event, inv s → inv (env s event)) {w : World σ ε} (hw : inv w.state) :
    inv (tick env w).state := by
  unfold tick
  split
  · exact hw
  · exact foldl_invariant inv henv _ hw

/-- What no other thread changes is the same after waiting. -/
theorem tick_view {env : σ → ε → σ} (view : σ → τ)
    (henv : ∀ s event, view (env s event) = view s) (w : World σ ε) :
    view (tick env w).state = view w.state :=
  tick_invariant (fun s => view s = view w.state) (fun s event hs => (henv s event).trans hs) rfl

end Cse420.Interference
