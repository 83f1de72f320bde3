import Mathlib

/-!
Machines given by a partial step function. A schedule is the list of events
that occur, in order; an event that is not enabled has no result. What holds
of every interleaving is a statement about every schedule.
-/

namespace Cse420.Machine

variable {σ ε : Type*} {step : σ → ε → Option σ}

def run (step : σ → ε → Option σ) (s : σ) : List ε → Option σ
  | [] => some s
  | event :: rest => (step s event).bind (run step · rest)

/-- Every event of the schedule occurs in a state that allows it. -/
def Along (step : σ → ε → Option σ) (allowed : σ → ε → Prop) (s : σ) : List ε → Prop
  | [] => True
  | event :: rest =>
      allowed s event ∧ ∀ next, step s event = some next → Along step allowed next rest

/-- A property of every state that can be reached. -/
def Always (step : σ → ε → Option σ) (p : σ → Prop) (s : σ) : Prop :=
  ∀ schedule t, run step s schedule = some t → p t

theorem Always.here {p : σ → Prop} {s : σ} (h : Always step p s) : p s := h [] s rfl

theorem Always.next {p : σ → Prop} {s t : σ} {event : ε} (h : Always step p s)
    (hstep : step s event = some t) : Always step p t := by
  intro schedule u hrun
  apply h (event :: schedule)
  rw [run, hstep]
  exact hrun

theorem run_append (s : σ) (first second : List ε) :
    run step s (first ++ second) = (run step s first).bind (run step · second) := by
  induction first generalizing s with
  | nil => rfl
  | cons event rest ih =>
      simp only [List.cons_append, run]
      cases step s event with
      | none => rfl
      | some next => exact ih next

theorem run_cons {s t : σ} {event : ε} {rest : List ε}
    (h : run step s (event :: rest) = some t) :
    ∃ next, step s event = some next ∧ run step next rest = some t :=
  Option.bind_eq_some_iff.mp h

/-- An invariant of the steps that are allowed is an invariant of the
schedules made of such steps. -/
theorem run_invariant_along {allowed : σ → ε → Prop} {inv : σ → Prop}
    (hstep : ∀ s event next, inv s → allowed s event → step s event = some next → inv next)
    {s t : σ} {schedule : List ε} (hs : inv s) (hall : Along step allowed s schedule)
    (hrun : run step s schedule = some t) : inv t := by
  induction schedule generalizing s with
  | nil =>
      cases hrun
      exact hs
  | cons event rest ih =>
      obtain ⟨next, hnext, hrest⟩ := run_cons hrun
      exact ih (hstep s event next hs hall.1 hnext) (hall.2 next hnext) hrest

theorem run_invariant (inv : σ → Prop)
    (hstep : ∀ s event next, inv s → step s event = some next → inv next)
    {s t : σ} {schedule : List ε} (hs : inv s) (hrun : run step s schedule = some t) :
    inv t := by
  induction schedule generalizing s with
  | nil =>
      cases hrun
      exact hs
  | cons event rest ih =>
      obtain ⟨next, hnext, hrest⟩ := run_cons hrun
      exact ih (hstep s event next hs hnext) hrest

/-- An invariant of the events of a kind is an invariant of the schedules made of
them. -/
theorem run_invariant_by (allowed : ε → Prop) (inv : σ → Prop)
    (hstep : ∀ s event next, inv s → allowed event → step s event = some next → inv next)
    {s t : σ} {schedule : List ε} (hall : ∀ event ∈ schedule, allowed event) (hs : inv s)
    (hrun : run step s schedule = some t) : inv t := by
  induction schedule generalizing s with
  | nil =>
      cases hrun
      exact hs
  | cons event rest ih =>
      rw [List.forall_mem_cons] at hall
      obtain ⟨next, hnext, hrest⟩ := run_cons hrun
      exact ih hall.2 (hstep s event next hs hall.1 hnext) hrest

/-- Where some enabled event of a kind brings the machine closer to a goal, the
goal can be reached by events of this kind. -/
theorem run_reaches_by (allowed : ε → Prop) (inv : σ → Prop) {goal : σ → Prop}
    (distance : σ → Nat)
    (hstep : ∀ s, inv s → ¬ goal s → ∃ event next, allowed event ∧
      step s event = some next ∧ inv next ∧ distance next < distance s)
    (s : σ) (hs : inv s) :
    ∃ later t, (∀ event ∈ later, allowed event) ∧ run step s later = some t ∧ inv t ∧ goal t := by
  induction hd : distance s using Nat.strong_induction_on generalizing s with
  | _ d ih =>
      by_cases hgoal : goal s
      · exact ⟨[], s, by simp, rfl, hs, hgoal⟩
      · obtain ⟨event, next, hallowed, hnext, hinv, hlt⟩ := hstep s hs hgoal
        obtain ⟨later, t, hlater, hrun, ht⟩ := ih _ (hd ▸ hlt) next hinv rfl
        refine ⟨event :: later, t, ?_, ?_, ht⟩
        · rw [List.forall_mem_cons]
          exact ⟨hallowed, hlater⟩
        · rw [run, hnext]
          exact hrun

/-- Where some enabled event brings the machine closer to a goal, the goal can
be reached. -/
theorem run_reaches (inv : σ → Prop) {goal : σ → Prop} (distance : σ → Nat)
    (hstep : ∀ s, inv s → ¬ goal s →
      ∃ event next, step s event = some next ∧ inv next ∧ distance next < distance s)
    (s : σ) (hs : inv s) : ∃ later t, run step s later = some t ∧ goal t := by
  obtain ⟨later, t, -, hrun, -, hgoal⟩ := run_reaches_by (fun _ => True) inv distance (by
    intro u hu hnot
    obtain ⟨event, next, hnext⟩ := hstep u hu hnot
    exact ⟨event, next, trivial, hnext⟩) s hs
  exact ⟨later, t, hrun, hgoal⟩

/-- Where every step that is allowed brings the machine closer to a goal, the
distance bounds the length of a schedule. -/
theorem run_length_le {allowed : σ → ε → Prop} (inv : σ → Prop) (distance : σ → Nat)
    (hstep : ∀ s event next, inv s → allowed s event → step s event = some next →
      inv next ∧ distance next < distance s)
    {s t : σ} {schedule : List ε} (hs : inv s) (hall : Along step allowed s schedule)
    (hrun : run step s schedule = some t) : schedule.length + distance t ≤ distance s := by
  induction schedule generalizing s with
  | nil =>
      cases hrun
      simp
  | cons event rest ih =>
      obtain ⟨next, hnext, hrest⟩ := run_cons hrun
      obtain ⟨hinv, hless⟩ := hstep s event next hs hall.1 hnext
      have htail := ih hinv (hall.2 next hnext) hrest
      rw [List.length_cons]
      omega

/-- Where the events of a kind bring the machine closer to a goal and the others
do not take it away, the distance bounds the number of events of that kind. -/
theorem run_countP_le (counted : ε → Bool) (inv : σ → Prop) (distance : σ → Nat)
    (hstep : ∀ s event next, inv s → step s event = some next →
      inv next ∧ distance next + (counted event).toNat ≤ distance s)
    {s t : σ} {schedule : List ε} (hs : inv s) (hrun : run step s schedule = some t) :
    schedule.countP counted + distance t ≤ distance s := by
  induction schedule generalizing s with
  | nil =>
      cases hrun
      simp
  | cons event rest ih =>
      obtain ⟨next, hnext, hrest⟩ := run_cons hrun
      obtain ⟨hinv, hle⟩ := hstep s event next hs hnext
      have htail := ih hinv hrest
      rw [List.countP_cons]
      cases hcounted : counted event with
      | true =>
          rw [hcounted, Bool.toNat_true] at hle
          simp only [if_true]
          omega
      | false =>
          simp only [Bool.false_eq_true, if_false]
          omega

/-- The threads in front of one and those behind it. -/
theorem set_split {τ : Type*} {threads : List τ} {i : Nat} {old : τ}
    (hi : threads[i]? = some old) :
    ∃ front back, threads = front ++ old :: back ∧
      ∀ next, threads.set i next = front ++ next :: back := by
  induction threads generalizing i with
  | nil => simp at hi
  | cons first rest ih =>
      cases i with
      | zero =>
          simp only [List.getElem?_cons_zero, Option.some.injEq] at hi
          subst hi
          exact ⟨[], rest, rfl, fun _ => rfl⟩
      | succ i =>
          obtain ⟨front, back, hsplit, hset⟩ := ih (by simpa using hi)
          refine ⟨first :: front, back, by rw [hsplit]; rfl, ?_⟩
          intro next
          rw [List.set_cons_succ, hset]
          rfl

/-- A thread that stays where it is. -/
theorem set_same {τ : Type*} {threads : List τ} {i : Nat} {thread : τ}
    (hi : threads[i]? = some thread) : threads.set i thread = threads := by
  obtain ⟨front, back, hthreads, hset⟩ := set_split hi
  rw [hset, ← hthreads]

/-- One thread of a list of threads moves: how a sum over them changes. -/
theorem sum_map_set_add {τ : Type*} {threads : List τ} {i : Nat} {old : τ}
    (hi : threads[i]? = some old) (next : τ) (f : τ → Nat) :
    ((threads.set i next).map f).sum + f old = (threads.map f).sum + f next := by
  obtain ⟨front, back, hthreads, hset⟩ := set_split hi
  rw [hset, hthreads]
  simp only [List.map_append, List.map_cons, List.sum_append, List.sum_cons]
  omega

/-- The other threads are still there. -/
theorem mem_set_of_mem {τ : Type*} {threads : List τ} {i : Nat} {old next thread : τ}
    (hold : threads[i]? = some old) (h : thread ∈ threads) :
    thread = old ∨ thread ∈ threads.set i next := by
  obtain ⟨front, back, hthreads, hset⟩ := set_split hold
  rw [hthreads, List.mem_append, List.mem_cons] at h
  rw [hset, List.mem_append, List.mem_cons]
  rcases h with hfront | rfl | hback
  · exact .inr (.inl hfront)
  · exact .inl rfl
  · exact .inr (.inr (.inr hback))

theorem map_set_same {τ α : Type*} {threads : List τ} {i : Nat} {old next : τ}
    (hi : threads[i]? = some old) (f : τ → α) (hf : f next = f old) :
    (threads.set i next).map f = threads.map f := by
  obtain ⟨front, back, hthreads, hset⟩ := set_split hi
  rw [hset, hthreads, List.map_append, List.map_append, List.map_cons, List.map_cons, hf]

/-- The entries the threads have between them when one thread gives one away. -/
theorem flatMap_set_perm {τ α : Type*} {threads : List τ} {i : Nat} {old next : τ}
    (hi : threads[i]? = some old) (f : τ → List α) {entry : α}
    (hf : f old = entry :: f next) :
    (threads.flatMap f).Perm (entry :: (threads.set i next).flatMap f) := by
  obtain ⟨front, back, hthreads, hset⟩ := set_split hi
  rw [hset, hthreads, List.flatMap_append, List.flatMap_append, List.flatMap_cons,
    List.flatMap_cons, hf]
  exact List.perm_middle

/-- One thread of a list of threads moves: how a count over them changes. -/
theorem countP_set_add {τ : Type*} {threads : List τ} {i : Nat} {old : τ}
    (hi : threads[i]? = some old) (next : τ) (p : τ → Bool) :
    (threads.set i next).countP p + (p old).toNat = threads.countP p + (p next).toNat := by
  obtain ⟨front, back, hthreads, hset⟩ := set_split hi
  rw [hset, hthreads]
  simp only [List.countP_append, List.countP_cons]
  cases p old <;> cases p next <;> simp <;> omega

end Cse420.Machine
