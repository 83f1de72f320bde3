import Cse420.Server.JoinThreads

/-!
The children and threads of `server.c` do not block each other for good.
`dequeueItem` sets the semaphore of a directory to one while other children may
be inside, and `SEM_UNDO` takes back at the end of a child what it has added;
still the value is at least one whenever no child is inside the directory. Every
step that changes anything takes one from a count of the work that is left.
-/

namespace Cse420.Server.Output

open CMemory Lister Machine SysVSem
open JoinThreads (MAXOUTSIZE)
open Queue (Item)

variable {κ : Type}

section Directories

/-- Between `waits(SEMfr)` and `signals(SEMfr)`. -/
def Child.inside (c : Child κ) : Bool :=
  match c.pc with
  | .opendir | .readdir _ | .signals => true
  | _ => false

/-- Behind `signals(SEMfr)`. -/
def Child.past (c : Child κ) : Bool :=
  match c.pc with
  | .joinThreads | .exited => true
  | _ => false

/-- What the children together give back to a semaphore when they end. -/
def given (semid : κ) (children : List (Child κ)) : Int :=
  (children.map fun c => c.semadj semid).sum

/-- The requests whose semaphore `dequeueItem` has set. -/
def dequeued (s : State κ) : List Item := s.children.map Child.curItem ++ s.curItem.toList

/-- What holds of the semaphores of the directories. A child owes a unit only
while it is inside, and apart from what the children owe there is one unit. -/
structure Opens (ids : Ids κ) (s : State κ) : Prop where
  owes : ∀ c ∈ s.children, ∀ dirpath,
    c.semadj (ids.SEMfr dirpath) ≤ 0 ∨
      (c.semadj (ids.SEMfr dirpath) = 1 ∧ c.inside = true ∧
        ids.SEMfr c.curItem.dirpath = ids.SEMfr dirpath)
  free : ∀ item ∈ dequeued s,
    1 ≤ (s.semval (ids.SEMfr item.dirpath) : Int) + given (ids.SEMfr item.dirpath) s.children
  bounded : ∀ item ∈ dequeued s,
    s.semval (ids.SEMfr item.dirpath) ≤ 1 + s.children.countP Child.past

variable {ids : Ids κ} {s : State κ} {i : Nat} {c next : Child κ}

theorem not_past_of_inside (h : c.inside = true) : c.past = false := by
  unfold Child.inside at h
  unfold Child.past
  cases hpc : c.pc <;> simp_all

theorem given_set {children : List (Child κ)} (hi : children[i]? = some c) (next : Child κ)
    (semid : κ) :
    given semid (children.set i next) + c.semadj semid =
      given semid children + next.semadj semid := by
  obtain ⟨front, back, hsplit, hset⟩ := set_split hi
  rw [hset, hsplit]
  simp only [given, List.map_append, List.map_cons, List.sum_append, List.sum_cons]
  omega

/-- A child that is not yet past its directory leaves room in the count. -/
theorem bounded_not_past (h : Opens ids s) (hi : s.children[i]? = some c)
    (hpast : c.past = false) :
    s.semval (ids.SEMfr c.curItem.dirpath) ≤ s.children.length := by
  have hmem := List.mem_of_getElem? hi
  have hbound := h.bounded c.curItem
    (List.mem_append_left _ (List.mem_map.mpr ⟨c, hmem, rfl⟩))
  have hless : s.children.countP Child.past < s.children.length := by
    rw [List.countP_lt_length_iff]
    exact ⟨c, hmem, by simp [hpast]⟩
  omega

/-- A child moves: what it may do to the semaphores of the directories. -/
theorem opens_child (h : Opens ids s) (hi : s.children[i]? = some c) (after : κ → Nat)
    (adj : κ → Int) (hadj : next.semadj = adj) (hcur : next.curItem = c.curItem)
    (howes : ∀ dirpath, adj (ids.SEMfr dirpath) ≤ 0 ∨
      (adj (ids.SEMfr dirpath) = 1 ∧ next.inside = true ∧
        ids.SEMfr next.curItem.dirpath = ids.SEMfr dirpath))
    (hfree : ∀ item ∈ dequeued s,
      (s.semval (ids.SEMfr item.dirpath) : Int) + c.semadj (ids.SEMfr item.dirpath) ≤
        after (ids.SEMfr item.dirpath) + adj (ids.SEMfr item.dirpath))
    (hbounded : ∀ item ∈ dequeued s,
      after (ids.SEMfr item.dirpath) + c.past.toNat ≤
        s.semval (ids.SEMfr item.dirpath) + next.past.toNat) :
    Opens ids { s with semval := after, children := s.children.set i next } := by
  subst hadj
  have hitems : dequeued { s with semval := after, children := s.children.set i next } =
      dequeued s := by
    simp only [dequeued, map_set_same hi Child.curItem hcur]
  constructor
  · intro d hd
    rcases List.mem_or_eq_of_mem_set hd with hd | rfl
    · exact h.owes d hd
    · exact howes
  · intro item hitem
    rw [hitems] at hitem
    have hold := h.free item hitem
    have hchange := hfree item hitem
    have hsum := given_set hi next (ids.SEMfr item.dirpath)
    show 1 ≤ (after (ids.SEMfr item.dirpath) : Int) +
      given (ids.SEMfr item.dirpath) (s.children.set i next)
    omega
  · intro item hitem
    rw [hitems] at hitem
    have hold := h.bounded item hitem
    have hchange := hbounded item hitem
    have hcount := countP_set_add hi next Child.past
    show after (ids.SEMfr item.dirpath) ≤ 1 + (s.children.set i next).countP Child.past
    omega

/-- A child moves and leaves the semaphores of the directories alone. -/
theorem opens_child_same (h : Opens ids s) (hi : s.children[i]? = some c) (next : Child κ)
    (hcur : next.curItem = c.curItem) {after : κ → Nat}
    (hvalue : ∀ dirpath, after (ids.SEMfr dirpath) = s.semval (ids.SEMfr dirpath))
    (hadj : ∀ dirpath, next.semadj (ids.SEMfr dirpath) = c.semadj (ids.SEMfr dirpath))
    (hinside : c.inside = true → next.inside = true) (hpast : next.past = c.past) :
    Opens ids { s with semval := after, children := s.children.set i next } := by
  apply opens_child h hi after next.semadj rfl hcur
  · intro dirpath
    rw [hadj, hcur]
    rcases h.owes c (List.mem_of_getElem? hi) dirpath with hzero | ⟨hone, hin, hid⟩
    · exact .inl hzero
    · exact .inr ⟨hone, hinside hin, hid⟩
  · intro item _
    rw [hvalue, hadj]
  · intro item _
    rw [hvalue, hpast]

/-- The end of a child: the value falls by what the child still has to take back
and rises by what it owes. -/
theorem opens_childExit (h : Opens ids s) (hi : s.children[i]? = some c)
    (hfew : s.children.length < SEMVMX) (hpc : c.pc = .joinThreads ∨ c.pc = .opendir) :
    Opens ids (childExit s i c) := by
  have howes := h.owes c (List.mem_of_getElem? hi)
  have hpast : c.past = false ∨ ∀ dirpath, c.semadj (ids.SEMfr dirpath) ≤ 0 := by
    rcases hpc with hpc | hpc
    · right
      intro dirpath
      rcases howes dirpath with hzero | ⟨-, hin, -⟩
      · exact hzero
      · simp [Child.inside, hpc] at hin
    · left
      simp [Child.past, hpc]
  apply opens_child h hi (undo s.semval c.semadj) (fun _ => 0) rfl
  · rfl
  · intro dirpath
    exact .inl (le_refl 0)
  · intro item hitem
    have hbound := h.bounded item hitem
    have hcount : s.children.countP Child.past ≤ s.children.length := List.countP_le_length
    have hsmall : (s.semval (ids.SEMfr item.dirpath) : Int) + c.semadj (ids.SEMfr item.dirpath) ≤
        SEMVMX := by
      rcases howes item.dirpath with hzero | ⟨hone, hin, hid⟩
      · omega
      · have hroom := bounded_not_past h hi (not_past_of_inside hin)
        rw [hid] at hroom
        omega
    simp only [undo]
    split <;> omega
  · intro item _
    have hundo : undo s.semval c.semadj (ids.SEMfr item.dirpath) ≤
        s.semval (ids.SEMfr item.dirpath) + (if c.past then 0 else 1) := by
      rcases hpast with hpast | hnone
      · rw [hpast]
        rcases howes item.dirpath with hzero | ⟨hone, -, -⟩
        · exact (undo_neg hzero).trans (Nat.le_add_right _ _)
        · simp only [undo, hone, one_ne_zero, if_false, Bool.false_eq_true]
          omega
      · exact (undo_neg (hnone item.dirpath)).trans (Nat.le_add_right _ _)
    show undo s.semval c.semadj (ids.SEMfr item.dirpath) + c.past.toNat ≤
      s.semval (ids.SEMfr item.dirpath) + 1
    cases hp : c.past with
    | false => simpa [hp] using hundo
    | true => simpa [hp] using hundo

/-- When no unit is left in the semaphore of a directory, a child is inside. -/
theorem inside_of_zero (h : Opens ids s) (hc : c ∈ s.children)
    (hzero : s.semval (ids.SEMfr c.curItem.dirpath) = 0) :
    ∃ d ∈ s.children, d.inside = true := by
  have hfree := h.free c.curItem (List.mem_append_left _ (List.mem_map.mpr ⟨c, hc, rfl⟩))
  by_contra hnone
  have hall : ∀ v ∈ s.children.map fun d => d.semadj (ids.SEMfr c.curItem.dirpath), v ≤ 0 := by
    intro v hv
    obtain ⟨d, hd, rfl⟩ := List.mem_map.mp hv
    rcases h.owes d hd c.curItem.dirpath with hless | ⟨-, hin, -⟩
    · exact hless
    · exact absurd ⟨d, hd, hin⟩ hnone
  have hsum := List.sum_le_card_nsmul _ 0 hall
  rw [smul_zero] at hsum
  unfold given at hfree
  omega

section Steps

variable [DecidableEq κ]

theorem opens_waits (h : Opens ids s) (hi : s.children[i]? = some c) (hpc : c.pc = .waits)
    {after : (κ → Nat) × (κ → Int)}
    (hwaits : SysVSem.waits (ids.SEMfr c.curItem.dirpath) s.semval c.semadj = some after) :
    Opens ids { s with
      semval := after.1
      children := s.children.set i { c with pc := .opendir, semadj := after.2 } } := by
  obtain ⟨hpos, hvalue, hadj⟩ := waits_cases hwaits
  have houtside : ∀ dirpath, c.semadj (ids.SEMfr dirpath) ≤ 0 := by
    intro dirpath
    rcases h.owes c (List.mem_of_getElem? hi) dirpath with hzero | ⟨-, hin, -⟩
    · exact hzero
    · simp [Child.inside, hpc] at hin
  have hpast : c.past = false := by simp [Child.past, hpc]
  apply opens_child h hi after.1 after.2 rfl
  · rfl
  · intro dirpath
    by_cases hid : ids.SEMfr c.curItem.dirpath = ids.SEMfr dirpath
    · have hless := houtside dirpath
      rw [← hid] at hless ⊢
      by_cases hzero : c.semadj (ids.SEMfr c.curItem.dirpath) = 0
      · right
        refine ⟨?_, rfl, rfl⟩
        rw [hadj, hzero]
        rfl
      · left
        rw [hadj]
        omega
    · left
      rw [(waits_frame hwaits (Ne.symm hid)).2]
      exact houtside dirpath
  · intro item _
    by_cases hid : ids.SEMfr item.dirpath = ids.SEMfr c.curItem.dirpath
    · rw [hid, hvalue, hadj]
      omega
    · obtain ⟨hother, hadj⟩ := waits_frame hwaits hid
      rw [hother, hadj]
  · intro item _
    have hstill : Child.past { c with pc := .opendir, semadj := after.2 } = false := rfl
    rw [hpast, hstill]
    by_cases hid : ids.SEMfr item.dirpath = ids.SEMfr c.curItem.dirpath
    · rw [hid, hvalue]
      omega
    · rw [(waits_frame hwaits hid).1]

theorem opens_signals (h : Opens ids s) (hi : s.children[i]? = some c) (hpc : c.pc = .signals)
    (hfew : s.children.length < SEMVMX) :
    Opens ids { s with
      semval := (SysVSem.signals (ids.SEMfr c.curItem.dirpath) s.semval c.semadj).1
      children := s.children.set i { c with
        pc := .joinThreads
        semadj := (SysVSem.signals (ids.SEMfr c.curItem.dirpath) s.semval c.semadj).2 } } := by
  have hpast : c.past = false := by simp [Child.past, hpc]
  have hroom := bounded_not_past h hi hpast
  obtain ⟨hvalue, hadj⟩ := signals_eq c.semadj (hroom.trans_lt hfew)
  apply opens_child h hi (SysVSem.signals (ids.SEMfr c.curItem.dirpath) s.semval c.semadj).1
    (SysVSem.signals (ids.SEMfr c.curItem.dirpath) s.semval c.semadj).2 rfl
  · rfl
  · intro dirpath
    left
    by_cases hid : ids.SEMfr dirpath = ids.SEMfr c.curItem.dirpath
    · rw [hid, hadj]
      rcases h.owes c (List.mem_of_getElem? hi) c.curItem.dirpath with hzero | ⟨hone, -, -⟩
      · omega
      · omega
    · rw [(signals_frame s.semval c.semadj hid).2]
      rcases h.owes c (List.mem_of_getElem? hi) dirpath with hzero | ⟨-, -, hsame⟩
      · exact hzero
      · exact absurd hsame.symm hid
  · intro item _
    by_cases hid : ids.SEMfr item.dirpath = ids.SEMfr c.curItem.dirpath
    · rw [hid, hvalue, hadj]
      omega
    · obtain ⟨hother, hadj⟩ := signals_frame s.semval c.semadj hid
      rw [hother, hadj]
  · intro item _
    rw [hpast]
    by_cases hid : ids.SEMfr item.dirpath = ids.SEMfr c.curItem.dirpath
    · rw [hid, hvalue]
      rfl
    · rw [(signals_frame s.semval c.semadj hid).1]
      exact Nat.le_add_right _ _

theorem opens_childStep {fs : FileSystem} {event : ChildEvent} {t : State κ} (h : Opens ids s)
    (hi : s.children[i]? = some c) (hfew : s.children.length < SEMVMX)
    (hstep : childStep ids fs s i c event = some t) : Opens ids t := by
  cases event with
  | waits =>
      simp only [childStep, Option.ite_none_right_eq_some, Option.map_eq_some_iff] at hstep
      obtain ⟨hpc, after, hwaits, rfl⟩ := hstep
      exact opens_waits h hi hpc hwaits
  | opendir =>
      simp only [childStep, Option.ite_none_right_eq_some] at hstep
      obtain ⟨hpc, hopened⟩ := hstep
      cases hopendir : fs.opendir c.curItem.dirpath with
      | none =>
          rw [hopendir] at hopened
          cases hopened
          exact opens_childExit h hi hfew (.inr hpc)
      | some entries =>
          rw [hopendir] at hopened
          cases hopened
          apply opens_child_same h hi { c with pc := .readdir entries }
          · rfl
          · intro dirpath
            rfl
          · intro dirpath
            rfl
          · intro _
            rfl
          · simp [Child.past, hpc]
  | readdir =>
      cases hpc : c.pc with
      | readdir rest =>
          have hkeep (next : Child κ) (hcur : next.curItem = c.curItem)
              (hadj : next.semadj = c.semadj) (hin : next.inside = true) :
              Opens ids { s with children := s.children.set i next } := by
            apply opens_child_same h hi next hcur
            · intro dirpath
              rfl
            · intro dirpath
              rw [hadj]
            · intro _
              exact hin
            · rw [not_past_of_inside hin]
              simp [Child.past, hpc]
          cases rest with
          | nil =>
              simp only [childStep, hpc, Option.some.injEq] at hstep
              subst hstep
              exact hkeep _ rfl rfl rfl
          | cons entry rest =>
              simp only [childStep, hpc, readdirStep] at hstep
              split at hstep
              · cases hstep
                exact ⟨h.owes, h.free, h.bounded⟩
              · rename_i moved hmoved
                cases hstep
                split at hmoved
                · split at hmoved
                  · cases hmoved
                    exact hkeep _ rfl rfl rfl
                  · cases hmoved
                · cases hmoved
                  exact hkeep _ rfl rfl rfl
      | _ => simp [childStep, hpc] at hstep
  | signals =>
      simp only [childStep, Option.ite_none_right_eq_some, Option.some.injEq] at hstep
      obtain ⟨hpc, rfl⟩ := hstep
      exact opens_signals h hi hpc hfew
  | exit =>
      simp only [childStep, Option.ite_none_right_eq_some, Option.some.injEq] at hstep
      obtain ⟨⟨hpc, -⟩, rfl⟩ := hstep
      exact opens_childExit h hi hfew (.inl hpc)

theorem opens_worker {fs : FileSystem} {j : Nat} {w : Worker} {event : WorkerEvent} {t : State κ}
    (h : Opens ids s) (hi : s.children[i]? = some c)
    (hstep : workerStep ids fs s i c j w event = some t) : Opens ids t := by
  have hkeep (workers : List Worker) (after : κ → Nat) (adj : κ → Int) (output : List UInt8)
      (hvalue : ∀ dirpath, after (ids.SEMfr dirpath) = s.semval (ids.SEMfr dirpath))
      (hadj : ∀ dirpath, adj (ids.SEMfr dirpath) = c.semadj (ids.SEMfr dirpath)) :
      Opens ids { s with
        semval := after
        children := s.children.set i { c with workers, semadj := adj }
        output } := by
    have hopens := opens_child_same h hi { c with workers, semadj := adj } rfl hvalue hadj id rfl
    exact ⟨hopens.owes, hopens.free, hopens.bounded⟩
  cases event with
  | searchTest =>
      simp only [workerStep, Option.ite_none_right_eq_some] at hstep
      obtain ⟨-, hsearch⟩ := hstep
      split at hsearch
      · cases hsearch
        exact ⟨h.owes, h.free, h.bounded⟩
      · cases hsearch
        exact hkeep _ _ _ _ (fun _ => rfl) fun _ => rfl
      · cases hsearch
        exact hkeep _ _ _ _ (fun _ => rfl) fun _ => rfl
  | waits =>
      simp only [workerStep] at hstep
      split at hstep
      · obtain ⟨after, hwaits, rfl⟩ := Option.map_eq_some_iff.mp hstep
        exact hkeep _ _ _ _ (fun dirpath => (waits_frame hwaits (ids.apart dirpath)).1)
          fun dirpath => (waits_frame hwaits (ids.apart dirpath)).2
      · cases hstep
  | write n =>
      simp only [workerStep] at hstep
      split at hstep
      · cases hstep
        exact hkeep _ _ _ _ (fun _ => rfl) fun _ => rfl
      · cases hstep
  | signals =>
      simp only [workerStep] at hstep
      split at hstep
      · cases hstep
        exact hkeep _ _ _ _ (fun dirpath => (signals_frame s.semval c.semadj (ids.apart dirpath)).1)
          fun dirpath => (signals_frame s.semval c.semadj (ids.apart dirpath)).2
      · cases hstep

/-- `sem_ini(SEMfr, 1)` makes up for what the children inside have taken. -/
theorem opens_dequeueItem {fs : FileSystem} {t : State κ} (h : Opens ids s)
    (hstep : step ids fs s .dequeueItem = some t) : Opens ids t := by
  simp only [step, Option.ite_none_left_eq_some] at hstep
  obtain ⟨-, hstep⟩ := hstep
  split at hstep
  case h_2 => cases hstep
  case h_1 item rest hrequests hcur =>
    cases hstep
    let semid := ids.SEMfr item.dirpath
    let clear (c : Child κ) : Child κ := { c with semadj := Function.update c.semadj semid 0 }
    have hcount : (s.children.map clear).countP Child.past = s.children.countP Child.past := by
      rw [List.countP_map]
      rfl
    have hgiven (other : κ) : given other (s.children.map clear) =
        if other = semid then 0 else given other s.children := by
      simp only [given, List.map_map, Function.comp_def, clear, Function.update_apply]
      split <;> simp
    have hmem : ∀ other ∈ (s.children.map clear).map Child.curItem ++ [item],
        ids.SEMfr other.dirpath ≠ semid → other ∈ dequeued s := by
      intro other hother hne
      rcases List.mem_append.mp hother with hother | hother
      · rw [List.map_map] at hother
        exact List.mem_append_left _ hother
      · rw [List.mem_singleton.mp hother] at hne
        exact absurd rfl hne
    constructor
    · intro c hc dirpath
      obtain ⟨d, hd, rfl⟩ := List.mem_map.mp hc
      by_cases hid : ids.SEMfr dirpath = semid
      · left
        exact le_of_eq ((congrArg _ hid).trans (Function.update_self ..))
      · have hsame : (clear d).semadj (ids.SEMfr dirpath) = d.semadj (ids.SEMfr dirpath) :=
          Function.update_of_ne hid ..
        rcases h.owes d hd dirpath with hzero | ⟨hone, hrest⟩
        · exact .inl (hsame.trans_le hzero)
        · exact .inr ⟨hsame.trans hone, hrest⟩
    · intro other hother
      show 1 ≤ ((Function.update s.semval semid 1 (ids.SEMfr other.dirpath) : Nat) : Int) +
        given (ids.SEMfr other.dirpath) (s.children.map clear)
      rw [hgiven]
      by_cases hid : ids.SEMfr other.dirpath = semid
      · rw [if_pos hid, hid, Function.update_self]
        rfl
      · rw [if_neg hid, Function.update_of_ne hid]
        exact h.free other (hmem other hother hid)
    · intro other hother
      show Function.update s.semval semid 1 (ids.SEMfr other.dirpath) ≤
        1 + (s.children.map clear).countP Child.past
      rw [hcount]
      by_cases hid : ids.SEMfr other.dirpath = semid
      · rw [hid, Function.update_self]
        exact Nat.le_add_right _ _
      · rw [Function.update_of_ne hid]
        exact h.bounded other (hmem other hother hid)

theorem opens_fork {fs : FileSystem} {t : State κ} (h : Opens ids s)
    (hstep : step ids fs s .fork = some t) : Opens ids t := by
  simp only [step, Option.ite_none_left_eq_some] at hstep
  obtain ⟨-, hstep⟩ := hstep
  obtain ⟨item, hcur, rfl⟩ := Option.map_eq_some_iff.mp hstep
  let child : Child κ := ⟨item, .waits, [], fun _ => 0⟩
  have hitems : (s.children ++ [child]).map Child.curItem ++ Option.toList none = dequeued s := by
    simp [dequeued, hcur, child]
  constructor
  · rw [List.forall_mem_append, List.forall_mem_singleton]
    exact ⟨h.owes, fun _ => .inl (le_refl 0)⟩
  · intro other hother
    have hgiven : given (ids.SEMfr other.dirpath) (s.children ++ [child]) =
        given (ids.SEMfr other.dirpath) s.children := by
      simp [given, child]
    rw [hgiven]
    exact h.free other (hitems ▸ hother)
  · intro other hother
    have hcount : (s.children ++ [child]).countP Child.past = s.children.countP Child.past := by
      simp [List.countP_append, Child.past, child]
    rw [hcount]
    exact h.bounded other (hitems ▸ hother)

theorem opens_start (ids : Ids κ) (requests : List Item) (semval : κ → Nat) :
    Opens ids (start ids requests semval) where
  owes := by simp [start]
  free := by simp [start, dequeued]
  bounded := by simp [start, dequeued]

theorem opens_step {fs : FileSystem} {event : Event} {t : State κ} (h : Opens ids s)
    (hfew : s.children.length < SEMVMX) (hstep : step ids fs s event = some t) :
    Opens ids t := by
  cases event with
  | dequeueItem => exact opens_dequeueItem h hstep
  | fork => exact opens_fork h hstep
  | child i event =>
      simp only [step, Option.ite_none_left_eq_some] at hstep
      obtain ⟨c, hi, hchild⟩ := Option.bind_eq_some_iff.mp hstep.2
      exact opens_childStep h hi hfew hchild
  | worker i j event =>
      simp only [step, Option.ite_none_left_eq_some] at hstep
      obtain ⟨c, hi, hrest⟩ := Option.bind_eq_some_iff.mp hstep.2
      obtain ⟨w, hj, hworker⟩ := Option.bind_eq_some_iff.mp hrest
      exact opens_worker h hi hworker

end Steps

end Directories

section Work

/-- The steps a thread has before it. A byte may take a step of its own. -/
def Worker.left (fs : FileSystem) (w : Worker) : Nat :=
  match w.pc with
  | .searchTest => ((result fs w.item).getD []).length + 3
  | .waits out => out.length + 2
  | .write _ rest => rest.length + 1
  | .exited => 0

/-- The steps for one entry of a directory, with those of its thread. -/
def entryLeft (fs : FileSystem) (item : Item) (entry : Dirent) : Nat :=
  1 + if Dirent.works entry then
    Worker.left fs ⟨⟨join item.dirpath entry.dName, item.keyword⟩, .searchTest⟩ else 0

def readLeft (fs : FileSystem) (item : Item) (entries : List Dirent) : Nat :=
  (entries.map (entryLeft fs item)).sum

/-- The steps of a child from `waits` on. -/
def itemLeft (fs : FileSystem) (item : Item) : Nat :=
  readLeft fs item ((fs.opendir item.dirpath).getD []) + 5

def ChildPc.left (fs : FileSystem) (item : Item) : ChildPc → Nat
  | .waits => itemLeft fs item
  | .opendir => readLeft fs item ((fs.opendir item.dirpath).getD []) + 4
  | .readdir rest => readLeft fs item rest + 3
  | .signals => 2
  | .joinThreads => 1
  | .exited => 0

def Child.left (fs : FileSystem) (c : Child κ) : Nat :=
  c.pc.left fs c.curItem + (c.workers.map (Worker.left fs)).sum

/-- The steps for a list of requests: each is taken out of the queue and gets a
child. -/
def effort (fs : FileSystem) (requests : List Item) : Nat :=
  (requests.map fun item => itemLeft fs item + 2).sum

/-- The steps the server, its children and their threads have before them. -/
def State.left (fs : FileSystem) (s : State κ) : Nat :=
  effort fs s.requests + (s.curItem.toList.map fun item => itemLeft fs item + 1).sum +
    (s.children.map (Child.left fs)).sum

variable {ids : Ids κ} {fs : FileSystem} {s : State κ} {i j : Nat} {c next : Child κ} {w : Worker}

/-- The work that is left when one child moves. -/
theorem left_child (hi : s.children[i]? = some c) (hless : next.left fs < c.left fs)
    (after : κ → Nat) (output : List UInt8) :
    State.left fs { s with semval := after, children := s.children.set i next, output } <
      State.left fs s := by
  have hsum := sum_map_set_add hi next (Child.left fs)
  simp only [State.left]
  omega

theorem left_worker (hi : s.children[i]? = some c) (hj : c.workers[j]? = some w)
    (moved : Worker) (hless : moved.left fs < w.left fs) (after : κ → Nat) (adj : κ → Int)
    (output : List UInt8) :
    State.left fs (setWorker { s with semval := after, output } i { c with semadj := adj } j
      moved) < State.left fs s := by
  apply left_child hi
  have hsum := sum_map_set_add hj moved (Worker.left fs)
  simp only [Child.left]
  omega

theorem left_childExit (hi : s.children[i]? = some c) (hless : 0 < c.pc.left fs c.curItem) :
    State.left fs (childExit s i c) < State.left fs s := by
  apply left_child hi
  simpa [Child.left, ChildPc.left] using hless

theorem readLeft_cons (item : Item) (entry : Dirent) (rest : List Dirent) :
    readLeft fs item (entry :: rest) = entryLeft fs item entry + readLeft fs item rest := by
  simp [readLeft]

section Steps

variable [DecidableEq κ] {t : State κ}

/-- A step of a thread is work done, or a call of `write` that writes nothing. -/
theorem left_workerStep {event : WorkerEvent} (hi : s.children[i]? = some c)
    (hj : c.workers[j]? = some w) (hstill : t.overrun = false)
    (hstep : workerStep ids fs s i c j w event = some t) :
    State.left fs t < State.left fs s ∨ (t = s ∧ ∃ n, event = .write n) := by
  cases event with
  | searchTest =>
      simp only [workerStep, Option.ite_none_right_eq_some] at hstep
      obtain ⟨hpc, hsearch⟩ := hstep
      left
      split at hsearch
      · cases hsearch
        cases hstill
      · cases hsearch
        apply left_worker hi hj { w with pc := .exited }
        simp [Worker.left, hpc]
      · rename_i out hout
        cases hsearch
        apply left_worker hi hj { w with pc := .waits out }
        simp [Worker.left, hpc, result, hout]
  | waits =>
      simp only [workerStep] at hstep
      split at hstep
      case h_2 => cases hstep
      case h_1 out hpc =>
        obtain ⟨after, -, rfl⟩ := Option.map_eq_some_iff.mp hstep
        left
        apply left_worker hi hj { w with pc := .write [] out }
        simp [Worker.left, hpc]
  | write n =>
      simp only [workerStep] at hstep
      split at hstep
      case h_2 => cases hstep
      case h_1 written rest hpc =>
        cases hstep
        by_cases hempty : rest.take n = []
        · right
          refine ⟨?_, n, rfl⟩
          have hdrop : rest.drop n = rest := by
            have hboth := List.take_append_drop n rest
            rwa [hempty, List.nil_append] at hboth
          have hworker : { w with pc := .write written rest } = w := by rw [← hpc]
          have hworkers : c.workers.set j w = c.workers := set_same hj
          have hchildren : s.children.set i c = s.children := set_same hi
          simp only [setWorker, hempty, hdrop, List.append_nil, hworker, hworkers, hchildren]
        · left
          apply left_worker hi hj { w with pc := .write (written ++ rest.take n) (rest.drop n) }
          simp only [Worker.left, hpc, List.length_drop]
          have hne : 0 < (rest.take n).length := List.length_pos_of_ne_nil hempty
          rw [List.length_take] at hne
          omega
  | signals =>
      simp only [workerStep] at hstep
      split at hstep
      case h_2 => cases hstep
      case h_1 written hpc =>
        cases hstep
        left
        apply left_worker hi hj { w with pc := .exited }
        simp [Worker.left, hpc]

theorem left_childStep {event : ChildEvent} (hi : s.children[i]? = some c)
    (hstill : t.overrun = false) (hstep : childStep ids fs s i c event = some t) :
    State.left fs t < State.left fs s := by
  cases event with
  | waits =>
      simp only [childStep, Option.ite_none_right_eq_some, Option.map_eq_some_iff] at hstep
      obtain ⟨hpc, after, -, rfl⟩ := hstep
      apply left_child hi
      simp [Child.left, hpc, ChildPc.left, itemLeft]
  | opendir =>
      simp only [childStep, Option.ite_none_right_eq_some] at hstep
      obtain ⟨hpc, hopened⟩ := hstep
      cases hopendir : fs.opendir c.curItem.dirpath with
      | none =>
          rw [hopendir] at hopened
          cases hopened
          apply left_childExit hi
          simp [hpc, ChildPc.left]
      | some entries =>
          rw [hopendir] at hopened
          cases hopened
          apply left_child hi
          simp [Child.left, hpc, ChildPc.left, hopendir]
  | readdir =>
      cases hpc : c.pc with
      | readdir rest =>
          cases rest with
          | nil =>
              simp only [childStep, hpc, Option.some.injEq] at hstep
              subst hstep
              apply left_child hi
              simp [Child.left, hpc, ChildPc.left, readLeft]
          | cons entry rest =>
              simp only [childStep, hpc, readdirStep] at hstep
              split at hstep
              · cases hstep
                cases hstill
              · rename_i moved hmoved
                cases hstep
                apply left_child hi
                split at hmoved
                · rename_i hworks
                  simp only [Option.ite_none_right_eq_some, Option.some.injEq] at hmoved
                  obtain ⟨-, rfl⟩ := hmoved
                  -- the steps of the new thread were counted at its entry
                  simp only [Child.left, hpc, ChildPc.left, readLeft_cons, entryLeft, hworks,
                    if_true, List.map_append, List.map_cons, List.map_nil, List.sum_append,
                    List.sum_cons, List.sum_nil]
                  omega
                · rename_i hworks
                  cases hmoved
                  simp only [Child.left, hpc, ChildPc.left, readLeft_cons, entryLeft, hworks]
                  omega
      | _ => simp [childStep, hpc] at hstep
  | signals =>
      simp only [childStep, Option.ite_none_right_eq_some, Option.some.injEq] at hstep
      obtain ⟨hpc, rfl⟩ := hstep
      apply left_child hi
      simp [Child.left, hpc, ChildPc.left]
  | exit =>
      simp only [childStep, Option.ite_none_right_eq_some, Option.some.injEq] at hstep
      obtain ⟨⟨hpc, -⟩, rfl⟩ := hstep
      apply left_childExit hi
      simp [hpc, ChildPc.left]

/-- Every step does a part of the work, unless it changes nothing. -/
theorem left_step {event : Event} (hsafe : s.overrun = false) (hstill : t.overrun = false)
    (hstep : step ids fs s event = some t) :
    State.left fs t < State.left fs s ∨ (t = s ∧ ∃ i j n, event = .worker i j (.write n)) := by
  simp only [step, hsafe, Bool.false_eq_true, if_false] at hstep
  cases event with
  | dequeueItem =>
      left
      simp only at hstep
      split at hstep
      case h_2 => cases hstep
      case h_1 item rest hrequests hcur =>
        cases hstep
        have hsame : ((s.children.map fun c : Child κ =>
            { c with semadj := Function.update c.semadj (ids.SEMfr item.dirpath) 0 }).map
              (Child.left fs)).sum = (s.children.map (Child.left fs)).sum := by
          rw [List.map_map]
          rfl
        simp only [State.left, semIni, hsame, hrequests, hcur, effort, List.map_cons,
          List.sum_cons, Option.toList_some, Option.toList_none, List.map_nil, List.sum_nil]
        omega
  | fork =>
      left
      obtain ⟨item, hcur, rfl⟩ := Option.map_eq_some_iff.mp hstep
      simp only [State.left, hcur, Option.toList_some, Option.toList_none, List.map_append,
        List.map_cons, List.map_nil, List.sum_append, List.sum_cons, List.sum_nil, Child.left,
        ChildPc.left]
      omega
  | child i event =>
      left
      obtain ⟨c, hi, hchild⟩ := Option.bind_eq_some_iff.mp hstep
      exact left_childStep hi hstill hchild
  | worker i j event =>
      obtain ⟨c, hi, hrest⟩ := Option.bind_eq_some_iff.mp hstep
      obtain ⟨w, hj, hworker⟩ := Option.bind_eq_some_iff.mp hrest
      rcases left_workerStep hi hj hstill hworker with hless | ⟨rfl, n, rfl⟩
      · exact .inl hless
      · exact .inr ⟨rfl, i, j, n, rfl⟩

end Steps

section Progress

variable [DecidableEq κ] {requests : List Item}

/-- Some step of a kind does a part of the work. -/
def Moves (ids : Ids κ) (fs : FileSystem) (s : State κ) (allowed : Event → Prop) : Prop :=
  ∃ event next, allowed event ∧ step ids fs s event = some next ∧
    State.left fs next < State.left fs s

/-- A step of the child `i`, of a child that has entered its directory, or of
one of their threads. -/
def Entered (s : State κ) (i : Nat) : Event → Prop
  | .child k _ => k = i ∨ ∃ d, s.children[k]? = some d ∧ d.pc ≠ .waits
  | .worker k _ _ => k = i ∨ ∃ d, s.children[k]? = some d ∧ d.pc ≠ .waits
  | _ => False

/-- What the files of a requested directory give fits the blocks of `search_test`.
`workerStep` does not look at them. -/
def ResultsFit (fs : FileSystem) (requests : List Item) : Prop :=
  ∀ item ∈ requests, ∀ file ∈ files fs item, ∀ out ∈ result fs file,
    out.length + 1 ≤ 100 * MAXOUTSIZE

/-- The directories, the paths of their files and what they give are small enough. -/
structure Small (fs : FileSystem) (requests : List Item) : Prop where
  many : ∀ item ∈ requests, (files fs item).length ≤ MAXTHREADS
  fit : PathsFit fs requests
  results : ResultsFit fs requests

/-- A step that is no call of `write` does a part of the work. -/
theorem moves_of_step (hsmall : Small fs requests) (h : Good ids fs requests s) {event : Event}
    {t : State κ} (hstep : step ids fs s event = some t) {allowed : Event → Prop}
    (hallowed : allowed event) (hwrite : ∀ i j n, event ≠ .worker i j (.write n)) :
    Moves ids fs s allowed := by
  have hgood := good_step hsmall.many hsmall.fit s event t h hstep
  rcases left_step h.safe hgood.safe hstep with hless | ⟨-, i, j, n, hevent⟩
  · exact ⟨event, t, hallowed, hstep, hless⟩
  · exact absurd hevent (hwrite i j n)

theorem step_child (h : Good ids fs requests s) (hi : s.children[i]? = some c)
    (event : ChildEvent) : step ids fs s (.child i event) = childStep ids fs s i c event := by
  simp [step, h.safe, hi]

theorem step_worker (h : Good ids fs requests s) (hi : s.children[i]? = some c)
    (hj : c.workers[j]? = some w) (event : WorkerEvent) :
    step ids fs s (.worker i j event) = workerStep ids fs s i c j w event := by
  simp [step, h.safe, hi, hj]

omit [DecidableEq κ] in
/-- A child with a thread has entered its directory. -/
theorem entered_of_worker (h : Good ids fs requests s) (hi : s.children[i]? = some c)
    (hw : w ∈ c.workers) : c.pc ≠ .waits := by
  intro hpc
  have hserves := h.serves c (List.mem_of_getElem? hi)
  rw [Child.Serves, hpc] at hserves
  rw [hserves] at hw
  cases hw

/-- The thread that has the file open can go on. -/
theorem moves_of_holds (hsmall : Small fs requests) (h : Good ids fs requests s)
    (hw : w ∈ allWorkers s.children) (hholds : w.holds = true) (who : Nat) :
    Moves ids fs s (Entered s who) := by
  obtain ⟨c, hc, hw⟩ := List.mem_flatMap.mp hw
  obtain ⟨i, hi⟩ := List.getElem?_of_mem hc
  have hentered : i = who ∨ ∃ d, s.children[i]? = some d ∧ d.pc ≠ .waits :=
    .inr ⟨c, hi, entered_of_worker h hi hw⟩
  obtain ⟨j, hj⟩ := List.getElem?_of_mem hw
  cases hpc : w.pc with
  | write written rest =>
      cases rest with
      | nil =>
          obtain ⟨t, ht⟩ : ∃ t, step ids fs s (.worker i j .signals) = some t := by
            rw [step_worker h hi hj]
            simp [workerStep, hpc]
          exact moves_of_step hsmall h ht hentered (by simp)
      | cons b rest =>
          obtain ⟨t, ht, hless⟩ : ∃ t, workerStep ids fs s i c j w (.write (b :: rest).length) =
              some t ∧ State.left fs t < State.left fs s := by
            simp only [workerStep, hpc]
            refine ⟨_, rfl, left_worker hi hj _ ?_ _ _ _⟩
            simp [Worker.left, hpc]
          rw [← step_worker h hi hj] at ht
          exact ⟨.worker i j (.write (b :: rest).length), t, hentered, ht, hless⟩
  | _ => simp [Worker.holds, hpc] at hholds

/-- A thread can go on unless another one has the file open, which then can. -/
theorem moves_of_worker (hsmall : Small fs requests) (h : Good ids fs requests s)
    (hi : s.children[i]? = some c) (hj : c.workers[j]? = some w) (hrunning : w.pc ≠ .exited) :
    Moves ids fs s (Entered s i) := by
  cases hpc : w.pc with
  | searchTest =>
      obtain ⟨t, ht⟩ : ∃ t, step ids fs s (.worker i j .searchTest) = some t := by
        rw [step_worker h hi hj]
        simp only [workerStep, hpc, if_true]
        split
        · exact ⟨_, rfl⟩
        · exact ⟨_, rfl⟩
        · exact ⟨_, rfl⟩
      exact moves_of_step hsmall h ht (.inl rfl) (by simp)
  | waits out =>
      by_cases hvalue : 0 < s.semval ids.SEMbuf
      · obtain ⟨t, ht⟩ : ∃ t, step ids fs s (.worker i j .waits) = some t := by
          rw [step_worker h hi hj]
          simp [workerStep, hpc, SysVSem.waits, hvalue]
        exact moves_of_step hsmall h ht (.inl rfl) (by simp)
      · have hone := h.locked.value
        have hsome : 0 < (allWorkers s.children).countP Worker.holds := by omega
        obtain ⟨v, hv, hholds⟩ := List.countP_pos_iff.mp hsome
        exact moves_of_holds hsmall h hv hholds i
  | write written rest =>
      have hw : w ∈ allWorkers s.children :=
        List.mem_flatMap.mpr ⟨c, List.mem_of_getElem? hi, List.mem_of_getElem? hj⟩
      exact moves_of_holds hsmall h hw (by simp [Worker.holds, hpc]) i
  | exited => exact absurd hpc hrunning

/-- A child inside its directory needs nobody else. -/
theorem moves_of_inside (hsmall : Small fs requests) (h : Good ids fs requests s)
    (hi : s.children[i]? = some c) (hinside : c.inside = true) (who : Nat) :
    Moves ids fs s (Entered s who) := by
  have hentered : i = who ∨ ∃ d, s.children[i]? = some d ∧ d.pc ≠ .waits := by
    refine .inr ⟨c, hi, ?_⟩
    intro hpc
    simp [Child.inside, hpc] at hinside
  obtain ⟨event, t, ht⟩ : ∃ event t, childStep ids fs s i c event = some t := by
    cases hpc : c.pc with
    | opendir =>
        refine ⟨.opendir, ?_⟩
        simp only [childStep, hpc, if_true]
        split
        · exact ⟨_, rfl⟩
        · exact ⟨_, rfl⟩
    | readdir rest =>
        refine ⟨.readdir, ?_⟩
        simp only [childStep, hpc]
        split
        · exact ⟨_, rfl⟩
        · split
          · exact ⟨_, rfl⟩
          · exact ⟨_, rfl⟩
        · rename_i hnil hcons
          cases rest with
          | nil => exact absurd rfl hnil
          | cons entry rest => exact absurd rfl (hcons entry rest)
    | signals =>
        refine ⟨.signals, ?_⟩
        simp [childStep, hpc]
    | _ => simp [Child.inside, hpc] at hinside
  rw [← step_child h hi] at ht
  exact moves_of_step hsmall h ht hentered (by simp)

/-- A child can go on unless it needs another one, which then can. -/
theorem moves_of_child (hsmall : Small fs requests) (h : Good ids fs requests s)
    (hopens : Opens ids s) (hi : s.children[i]? = some c) (hrunning : c.pc ≠ .exited) :
    Moves ids fs s (Entered s i) := by
  by_cases hinside : c.inside = true
  · exact moves_of_inside hsmall h hi hinside i
  · cases hpc : c.pc with
    | waits =>
        by_cases hzero : s.semval (ids.SEMfr c.curItem.dirpath) = 0
        · obtain ⟨d, hd, hin⟩ := inside_of_zero hopens (List.mem_of_getElem? hi) hzero
          obtain ⟨k, hk⟩ := List.getElem?_of_mem hd
          exact moves_of_inside hsmall h hk hin i
        · obtain ⟨t, ht⟩ : ∃ t, step ids fs s (.child i .waits) = some t := by
            rw [step_child h hi]
            simp [childStep, hpc, SysVSem.waits, Nat.pos_of_ne_zero hzero]
          exact moves_of_step hsmall h ht (.inl rfl) (by simp)
    | joinThreads =>
        by_cases hall : ∀ w ∈ c.workers, w.pc = .exited
        · obtain ⟨t, ht⟩ : ∃ t, step ids fs s (.child i .exit) = some t := by
            rw [step_child h hi]
            simp only [childStep, hpc, true_and, if_pos hall]
            exact ⟨_, rfl⟩
          exact moves_of_step hsmall h ht (.inl rfl) (by simp)
        · simp only [not_forall] at hall
          obtain ⟨w, hw, hgoes⟩ := hall
          obtain ⟨j, hj⟩ := List.getElem?_of_mem hw
          exact moves_of_worker hsmall h hi hj hgoes
    | exited => exact absurd hpc hrunning
    | _ => simp [Child.inside, hpc] at hinside

/-- A server that is not finished is not stuck. -/
theorem moves_of_not_finished (hsmall : Small fs requests) (h : Good ids fs requests s)
    (hopens : Opens ids s) (hnot : ¬ Finished s) : Moves ids fs s fun _ => True := by
  by_cases hall : ∀ c ∈ s.children, c.pc = .exited
  · cases hcur : s.curItem with
    | some item =>
        obtain ⟨t, ht⟩ : ∃ t, step ids fs s .fork = some t := by simp [step, h.safe, hcur]
        exact moves_of_step hsmall h ht trivial (by simp)
    | none =>
        cases hrequests : s.requests with
        | nil => exact absurd ⟨hrequests, hcur, hall⟩ hnot
        | cons item rest =>
            obtain ⟨t, ht⟩ : ∃ t, step ids fs s .dequeueItem = some t := by
              simp [step, h.safe, hcur, hrequests]
            exact moves_of_step hsmall h ht trivial (by simp)
  · simp only [not_forall] at hall
    obtain ⟨c, hc, hrunning⟩ := hall
    obtain ⟨i, hi⟩ := List.getElem?_of_mem hc
    obtain ⟨event, next, -, hmoves⟩ := moves_of_child hsmall h hopens hi hrunning
    exact ⟨event, next, trivial, hmoves⟩

end Progress

end Work

section Runs

variable [DecidableEq κ] {ids : Ids κ} {fs : FileSystem} {requests : List Item}

/-- The step does something. -/
def Changes (ids : Ids κ) (fs : FileSystem) (s : State κ) (event : Event) : Prop :=
  step ids fs s event ≠ some s

/-- No step does anything. -/
def Stuck (ids : Ids κ) (fs : FileSystem) (s : State κ) : Prop :=
  ∀ event next, step ids fs s event = some next → next = s

/-- A finished server has nothing left to do. -/
theorem stuck_of_finished {s : State κ} (h : Good ids fs requests s) (hfinished : Finished s) :
    Stuck ids fs s := by
  obtain ⟨hrequests, hcur, hexited⟩ := hfinished
  intro event next hstep
  cases event with
  | dequeueItem => simp [step, h.safe, hrequests] at hstep
  | fork => simp [step, h.safe, hcur] at hstep
  | child i event =>
      simp only [step, h.safe, Bool.false_eq_true, if_false] at hstep
      obtain ⟨c, hi, hchild⟩ := Option.bind_eq_some_iff.mp hstep
      have hpc := hexited c (List.mem_of_getElem? hi)
      cases event <;> simp [childStep, hpc] at hchild
  | worker i j event =>
      simp only [step, h.safe, Bool.false_eq_true, if_false] at hstep
      obtain ⟨c, hi, hrest⟩ := Option.bind_eq_some_iff.mp hstep
      obtain ⟨w, hj, hworker⟩ := Option.bind_eq_some_iff.mp hrest
      have hserves := h.serves c (List.mem_of_getElem? hi)
      rw [Child.Serves, hexited c (List.mem_of_getElem? hi)] at hserves
      have hpc := hserves.2 w (List.mem_of_getElem? hj)
      cases event <;> simp [workerStep, hpc] at hworker

/-- The invariant of what was written together with that of the directories. -/
def Live (ids : Ids κ) (fs : FileSystem) (requests : List Item) (s : State κ) : Prop :=
  Good ids fs requests s ∧ Opens ids s

omit [DecidableEq κ] in
theorem Good.children_le {s : State κ} (h : Good ids fs requests s) :
    s.children.length ≤ requests.length := by
  rw [← h.items]
  simp

theorem live_step (hsmall : Small fs requests) (hfew : requests.length < SEMVMX) (s : State κ)
    (event : Event) (next : State κ) (h : Live ids fs requests s)
    (hstep : step ids fs s event = some next) : Live ids fs requests next :=
  ⟨good_step hsmall.many hsmall.fit s event next h.1 hstep,
    opens_step h.2 (h.1.children_le.trans_lt hfew) hstep⟩

/-- From every state the server can finish. -/
theorem live_finishes (hsmall : Small fs requests) (hfew : requests.length < SEMVMX) (s : State κ)
    (h : Live ids fs requests s) :
    ∃ later t, run (step ids fs) s later = some t ∧ Finished t := by
  apply run_reaches (Live ids fs requests) (State.left fs) _ s h
  intro u hu hnot
  obtain ⟨event, next, -, hstep, hless⟩ := moves_of_not_finished hsmall hu.1 hu.2 hnot
  exact ⟨event, next, hstep, live_step hsmall hfew u event next hu hstep, hless⟩

/-- Whatever the schedule, the server comes to its end: a run in which every
step does something is no longer than the work there is, and when no step does
anything any more, all requests are served and `output.txt` is complete. -/
theorem output_completes (ids : Ids κ) (fs : FileSystem) (requests : List Item)
    (semval : κ → Nat) (hmany : ∀ item ∈ requests, (files fs item).length ≤ MAXTHREADS)
    (hfit : PathsFit fs requests) (hresults : ResultsFit fs requests)
    (hfew : requests.length < SEMVMX) (schedule : List Event) (t : State κ)
    (hrun : run (step ids fs) (start ids requests semval) schedule = some t) :
    (Along (step ids fs) (Changes ids fs) (start ids requests semval) schedule →
        schedule.length ≤ effort fs requests) ∧
      (Stuck ids fs t → Finished t ∧
        ∃ results : List (List UInt8), results.Perm (expected fs requests) ∧
          t.output = results.flatten) := by
  have hsmall : Small fs requests := ⟨hmany, hfit, hresults⟩
  have hstart : Live ids fs requests (start ids requests semval) :=
    ⟨good_start ids fs requests semval, opens_start ids requests semval⟩
  constructor
  · intro hall
    have hlength := run_length_le (Live ids fs requests) (State.left fs) (by
      intro s event next hs hchanges hstep
      have hnext := live_step hsmall hfew s event next hs hstep
      refine ⟨hnext, ?_⟩
      rcases left_step hs.1.safe hnext.1.safe hstep with hless | ⟨rfl, -⟩
      · exact hless
      · exact absurd hstep hchanges) hstart hall hrun
    have hleft : State.left fs (start ids requests semval) = effort fs requests := by
      simp [State.left, start]
    omega
  · intro hstuck
    have hlive := run_invariant (Live ids fs requests) (live_step hsmall hfew) hstart hrun
    have hfinished : Finished t := by
      by_contra hnot
      obtain ⟨event, next, -, hstep, hless⟩ := moves_of_not_finished hsmall hlive.1 hlive.2 hnot
      rw [hstuck event next hstep] at hless
      exact absurd hless (Nat.lt_irrefl _)
    exact ⟨hfinished, good_finished hlive.1 hfinished⟩

/-- The run with two writers comes to its end, with both results in the file. -/
theorem output_completes_two :
    ∃ t, run (step fewIds twoFiles) (start fewIds [⟨text "/d", text "w"⟩] fun _ => 0) twoWriters =
        some t ∧ Finished t ∧
      ∃ results : List (List UInt8),
        results.Perm (expected twoFiles [⟨text "/d", text "w"⟩]) ∧ t.output = results.flatten := by
  have hfit : PathsFit twoFiles [⟨text "/d", text "w"⟩] := by
    unfold PathsFit
    decide
  have hresults : ResultsFit twoFiles [⟨text "/d", text "w"⟩] := by
    unfold ResultsFit
    decide
  have hview : (run (step fewIds twoFiles) (start fewIds [⟨text "/d", text "w"⟩] fun _ => 0)
      twoWriters).map (fun t => (t.requests, t.curItem, t.children.map Child.pc)) =
        some ([], none, [.exited]) := by decide
  obtain ⟨t, hrun, ht⟩ := Option.map_eq_some_iff.mp hview
  have hgood : Good fewIds twoFiles [⟨text "/d", text "w"⟩] t :=
    run_invariant _ (good_step (by decide) hfit) (good_start _ _ _ _) hrun
  have hfinished : Finished t := by
    simp only [Prod.mk.injEq] at ht
    obtain ⟨hrequests, hcur, hpcs⟩ := ht
    refine ⟨hrequests, hcur, ?_⟩
    intro c hc
    have hpc : c.pc ∈ t.children.map Child.pc := List.mem_map.mpr ⟨c, hc, rfl⟩
    rw [hpcs] at hpc
    exact List.mem_singleton.mp hpc
  have hends := output_completes fewIds twoFiles [⟨text "/d", text "w"⟩] (fun _ => 0) (by decide)
    hfit hresults (by decide) twoWriters t hrun
  exact ⟨t, hrun, hends.2 (stuck_of_finished hgood hfinished)⟩

end Runs

end Cse420.Server.Output
