import Cse420.Server.System

/-!
What the clients of the system keep among themselves. `SEMrq` lets in one client
at a time, so the requests of one client stay together in the queue, and what is
in the queue or was there, with what the clients still have to send, is always
what their files ask for.
-/

namespace Cse420.Server.System

open CMemory Lister Machine SysVSem Queue

section Reading

/-- A file that `readfile` gets right and whose requests keep clear of the marks of
the queue. -/
structure Readable (malloc : Malloc) (file : List UInt8) : Prop where
  zero : 0 ∉ file
  accepted : Accepted malloc file
  clean : ∀ r ∈ asked file, Clean r

instance (malloc : Malloc) (file : List UInt8) : Decidable (Readable malloc file) :=
  decidable_of_iff (0 ∉ file ∧ Accepted malloc file ∧ ∀ r ∈ asked file, Clean r)
    ⟨fun h => ⟨h.1, h.2.1, h.2.2⟩, fun h => ⟨h.zero, h.accepted, h.clean⟩⟩

/-- One turn of `readfile` on such a file: it takes what the next line asks for and
leaves such a file. -/
theorem readTurn_readable {malloc : Malloc} {file : List UInt8} {buffer : Mem} (hne : file ≠ [])
    (hfile : Readable malloc file) (hbuffer : buffer.length = 1024) :
    ∃ next r, readTurn malloc file buffer = some (next, r) ∧ next.length = 1024 ∧ Admissible r ∧
      asked file = r :: asked (fgets 1023 file).2 ∧ Readable malloc (fgets 1023 file).2 := by
  obtain ⟨hzero, haccepted, hclean⟩ := hfile
  cases file using Lister.file_induction with
  | last file hfile =>
      rcases (accepted_last malloc hfile).mp haccepted with rfl | rfl
      · exact absurd rfl hne
      · have hget : fgets 1023 exitReq = (exitReq, []) := by decide
        let filled := exitReq ++ 0 :: buffer.drop (exitReq.length + 1)
        have hread : readRequest malloc filled = some (filled, exitReq) :=
          readRequest_exit malloc hzero (List.infix_refl _)
        refine ⟨filled, exitReq, ?_, ?_, .inr rfl, ?_, ?_⟩
        · rw [readTurn, hget, storeAll_fgets hbuffer (by decide)]
          exact hread
        · simp only [filled, List.length_append, List.length_cons, List.length_drop, hbuffer]
          decide
        · rw [hget]
          decide
        · rw [hget]
          exact ⟨List.not_mem_nil, (accepted_last malloc List.not_mem_nil).mpr (.inl rfl),
            by simp [asked_nil]⟩
  | cons line rest hline ih =>
      rw [lister_newline] at hline hzero haccepted hclean ⊢
      have hzeros : 0 ∉ line ∧ 0 ∉ rest := by
        simp only [List.mem_append, List.mem_cons, not_or] at hzero
        exact ⟨hzero.1, hzero.2.2⟩
      obtain ⟨hgood, hrest⟩ := (accepted_cons malloc hline).mp haccepted
      obtain ⟨next, r, hread, hasks, hlength⟩ := readRequest_good
        (buffer.drop ((line ++ [Queue.newline]).length + 1)) hzeros.1 hline hgood
      have hget : fgets 1023 (line ++ Queue.newline :: rest) = (line ++ [Queue.newline], rest) :=
        Lister.fgets_line hline (by omega)
      have hpiece : 0 ∉ line ++ [Queue.newline] := by
        simp only [List.mem_append, List.mem_singleton, not_or]
        exact ⟨hzeros.1, by decide⟩
      have hshort : (line ++ [Queue.newline]).length ≤ 1023 := by
        rw [List.length_append, List.length_singleton]
        omega
      rw [asked_cons hline, hasks, Option.toList_some, List.singleton_append,
        List.forall_mem_cons] at hclean
      refine ⟨next, r, ?_, ?_, ?_, ?_, ?_⟩
      · rw [readTurn, hget, storeAll_fgets hbuffer hshort]
        exact hread
      · rw [readRequest_length hpiece hread, List.length_append, List.length_cons,
          List.length_drop]
        omega
      · by_cases hexit : line = exitReq
        · right
          rw [hexit] at hasks
          exact Option.some.inj (hasks.symm.trans (by decide))
        · left
          obtain ⟨pre, path, tail, hsplit, -, -, rfl⟩ := asks_search hasks hexit
          have hsqueeze : (squeeze tail).length ≤ tail.length := List.length_filter_le _ _
          refine ⟨?_, by simp, hclean.1⟩
          simp only [hsplit, List.length_append, List.length_cons] at hlength ⊢
          omega
      · rw [hget, asked_cons hline, hasks]
        rfl
      · rw [hget]
        exact ⟨hzeros.2, hrest, hclean.2⟩

end Reading

section Clients

variable {κ : Type}

/-- What a client has to send: the exit command, or what its file asks for. -/
def Args.asks (fs : FileSystem) (args : Args) : List (List UInt8) :=
  match args.path with
  | none => [exitReq]
  | some path => ((openInput fs path).map asked).getD []

def Client.asks (fs : FileSystem) (c : Client κ) : List (List UInt8) := c.args.asks fs

/-- What a client has still to send. -/
def Client.rest (fs : FileSystem) (c : Client κ) : List (List UInt8) :=
  match c.pc with
  | .waits | .branch => c.asks fs
  | .readfile file _ => asked file
  | .signals | .exited => []

/-- Between `waits(SEMrq)` and `signals(SEMrq)`. -/
def Client.inside (c : Client κ) : Bool :=
  match c.pc with
  | .branch | .readfile _ _ | .signals => true
  | .waits | .exited => false

def Client.ended (c : Client κ) : Bool :=
  match c.pc with
  | .exited => true
  | _ => false

/-- The file of a client is one that `readfile` gets right, and so is what is
left of it. -/
structure Client.Ready (malloc : Malloc) (fs : FileSystem) (c : Client κ) : Prop where
  buffer : c.buffer.length = 1024
  file : ∀ path ∈ c.args.path, ∀ file ∈ openInput fs path, Readable malloc file
  rest : ∀ file buffer, c.pc = .readfile file buffer →
    Readable malloc file ∧ buffer.length = 1024

/-- The requests of one client are together in the queue: those of the clients
that are through, in the order of their turns, and those sent so far in the
turn of the client that is inside. -/
structure Together (fs : FileSystem) (clients : List (Client κ)) (added : List (List UInt8))
    (turns : List (List (List UInt8))) (sent : List (List UInt8)) : Prop where
  order : turns.Perm ((clients.filter Client.ended).map (Client.asks fs))
  queue : added = turns.flatten ++ sent
  turn : ∀ c ∈ clients, c.inside = true → sent ++ c.rest fs = c.asks fs
  between : clients.countP Client.inside = 0 → sent = []

/-- What holds between the clients, the queue and `SEMrq`. -/
structure Sending (host : Host κ) (fs : FileSystem) (s : State κ) : Prop where
  ready : ∀ c ∈ s.clients, Client.Ready host.malloc fs c
  locked : s.processes.semval host.SEMrq + s.clients.countP Client.inside ≤ 1
  up : s.pc ≠ .returned →
    s.processes.semval host.SEMrq + s.clients.countP Client.inside = 1
  adj : ∀ c ∈ s.clients, c.semadj host.SEMrq = c.inside.toNat
  others : ∀ c ∈ s.clients, ∀ semid, semid ≠ host.SEMrq → c.semadj semid = 0
  sent : (s.added ++ s.clients.flatMap (Client.rest fs)).Perm (s.clients.flatMap (Client.asks fs))
  together : ∃ turns sent, Together fs s.clients s.added turns sent

variable {host : Host κ} {fs : FileSystem} {s t : State κ} {i : Nat} {c next : Client κ}
  {clients : List (Client κ)} {added sent : List (List UInt8)} {turns : List (List (List UInt8))}

theorem not_ended_of_inside (h : c.inside = true) : c.ended = false := by
  unfold Client.inside at h
  unfold Client.ended
  cases hpc : c.pc <;> simp_all

theorem Client.asks_args (h : next.args = c.args) : next.asks fs = c.asks fs := by
  simp only [Client.asks, h]

/-- What the clients ask for together does not change. -/
theorem flatMap_asks_set (hi : clients[i]? = some c) (next : Client κ)
    (hargs : next.args = c.args) :
    (clients.set i next).flatMap (Client.asks fs) = clients.flatMap (Client.asks fs) := by
  simp only [List.flatMap_def, map_set_same hi _ (Client.asks_args hargs)]

/-- Beside a client that is inside there is no other one. -/
theorem others_outside (hone : clients.countP Client.inside ≤ 1) (hi : clients[i]? = some c)
    (hinside : c.inside = true) {d : Client κ} (hd : d ∈ clients.set i next)
    (hin : d.inside = true) : d = next := by
  obtain ⟨front, back, hclients, hset⟩ := set_split hi
  rw [hclients, Output.countP_middle, hinside, Bool.toNat_true] at hone
  rw [hset, List.mem_append, List.mem_cons] at hd
  have hnone {l : List (Client κ)} (hcount : l.countP Client.inside = 0) : d ∉ l :=
    fun hmem => List.countP_eq_zero.mp hcount d hmem hin
  rcases hd with hd | hd | hd
  · exact absurd hd (hnone (by omega))
  · exact hd
  · exact absurd hd (hnone (by omega))

theorem ended_asks (clients : List (Client κ)) :
    (clients.filter Client.ended).map (Client.asks fs) =
      ((clients.map fun c => (c.ended, c.asks fs)).filter Prod.fst).map Prod.snd := by
  simp [List.filter_map, Function.comp_def]

/-- A client that is not through and does not come to its end. -/
theorem ended_set_same (hi : clients[i]? = some c) (hended : next.ended = c.ended)
    (hargs : next.args = c.args) :
    ((clients.set i next).filter Client.ended).map (Client.asks fs) =
      (clients.filter Client.ended).map (Client.asks fs) := by
  rw [ended_asks, ended_asks, map_set_same hi _ (Prod.ext hended (Client.asks_args hargs))]

/-- The turn of a client begins. -/
theorem Together.enter (h : Together fs clients added turns sent)
    (hfree : clients.countP Client.inside = 0) (hi : clients[i]? = some c)
    (hended : next.ended = c.ended) (hargs : next.args = c.args)
    (hrest : next.rest fs = next.asks fs) : Together fs (clients.set i next) added turns sent := by
  have hsent := h.between hfree
  constructor
  · rw [ended_set_same hi hended hargs]
    exact h.order
  · exact h.queue
  · intro d hd hin
    rcases List.mem_or_eq_of_mem_set hd with hd | rfl
    · exact absurd hin (List.countP_eq_zero.mp hfree d hd)
    · rw [hsent, hrest, List.nil_append]
  · intro _
    exact hsent

/-- The client inside sends something, or nothing, and stays. -/
theorem Together.stay (h : Together fs clients added turns sent)
    (hone : clients.countP Client.inside ≤ 1) (hi : clients[i]? = some c)
    (hbefore : c.inside = true) (hinside : next.inside = true) (hargs : next.args = c.args)
    (new : List (List UInt8)) (hrest : c.rest fs = new ++ next.rest fs) :
    Together fs (clients.set i next) (added ++ new) turns (sent ++ new) := by
  have hended : next.ended = c.ended := by
    rw [not_ended_of_inside hbefore, not_ended_of_inside hinside]
  constructor
  · rw [ended_set_same hi hended hargs]
    exact h.order
  · rw [h.queue, List.append_assoc]
  · intro d hd hin
    rw [others_outside hone hi hbefore hd hin, List.append_assoc, ← hrest,
      Client.asks_args hargs]
    exact h.turn c (List.mem_of_getElem? hi) hbefore
  · intro hcount
    have hmem : next ∈ clients.set i next := by
      obtain ⟨front, back, -, hset⟩ := set_split hi
      simp [hset]
    exact absurd hinside (List.countP_eq_zero.mp hcount next hmem)

/-- The client inside has sent everything and its turn ends. -/
theorem Together.leave (h : Together fs clients added turns sent)
    (hone : clients.countP Client.inside ≤ 1) (hi : clients[i]? = some c)
    (hbefore : c.inside = true) (hended : next.ended = true) (hinside : next.inside = false)
    (hargs : next.args = c.args) (hrest : c.rest fs = []) :
    Together fs (clients.set i next) added (turns ++ [c.asks fs]) [] := by
  have hall := h.turn c (List.mem_of_getElem? hi) hbefore
  rw [hrest, List.append_nil] at hall
  obtain ⟨front, back, hclients, hset⟩ := set_split hi
  constructor
  · have horder := h.order
    have hnot := not_ended_of_inside hbefore
    rw [hclients] at horder
    simp only [List.filter_append, List.filter_cons, hnot, Bool.false_eq_true, if_false,
      List.map_append] at horder
    rw [hset]
    simp only [List.filter_append, List.filter_cons, hended, if_true, List.map_append,
      List.map_cons, Client.asks_args hargs]
    have hlast : (turns ++ [c.asks fs]).Perm (c.asks fs :: turns) := List.perm_append_comm
    exact hlast.trans ((horder.cons _).trans List.perm_middle.symm)
  · rw [h.queue, hall, List.flatten_append, List.append_nil]
    simp
  · intro d hd hin
    rw [others_outside hone hi hbefore hd hin, hinside] at hin
    cases hin
  · intro _
    rfl

/-- A client moves and sends `new`: what holds between the clients still holds. -/
theorem sending_client (h : Sending host fs s) (hi : s.clients[i]? = some c)
    (new : List (List UInt8)) (hclients : t.clients = s.clients.set i next)
    (hadded : t.added = s.added ++ new) (hpc : t.pc = s.pc) (hargs : next.args = c.args)
    (hready : Client.Ready host.malloc fs next) (hrest : c.rest fs = new ++ next.rest fs)
    (hvalue : t.processes.semval host.SEMrq + next.inside.toNat =
      s.processes.semval host.SEMrq + c.inside.toNat)
    (hadj : next.semadj host.SEMrq = next.inside.toNat)
    (hothers : ∀ semid, semid ≠ host.SEMrq → next.semadj semid = 0)
    (htogether : ∃ turns sent, Together fs t.clients t.added turns sent) : Sending host fs t := by
  have hcount := countP_set_add hi next Client.inside
  rw [← hclients] at hcount
  have hlocked := h.locked
  constructor
  · intro d hd
    rw [hclients] at hd
    rcases List.mem_or_eq_of_mem_set hd with hd | rfl
    · exact h.ready d hd
    · exact hready
  · omega
  · intro hup
    have hone := h.up (hpc ▸ hup)
    omega
  · intro d hd
    rw [hclients] at hd
    rcases List.mem_or_eq_of_mem_set hd with hd | rfl
    · exact h.adj d hd
    · exact hadj
  · intro d hd
    rw [hclients] at hd
    rcases List.mem_or_eq_of_mem_set hd with hd | rfl
    · exact h.others d hd
    · exact hothers
  · obtain ⟨front, back, hsplit, hset⟩ := set_split hi
    have hsent := h.sent
    rw [hclients, hadded, flatMap_asks_set hi next hargs]
    refine List.Perm.trans ?_ hsent
    rw [hset, hsplit]
    simp only [List.flatMap_append, List.flatMap_cons, hrest, List.append_assoc]
    apply List.Perm.append_left
    simp only [← List.append_assoc]
    apply List.Perm.append_right
    apply List.Perm.append_right
    exact List.perm_append_comm
  · exact htogether

section Steps

variable [DecidableEq κ]

/-- What a step of a client is: its turn begins, it goes on inside without or
with a request, or its turn ends. -/
theorem client_cases {event : ClientEvent} (h : Sending host fs s) (hi : s.clients[i]? = some c)
    (hstep : clientStep host fs s i c event = some t) :
    (∃ after, c.pc = .waits ∧
        SysVSem.waits host.SEMrq s.processes.semval c.semadj = some after ∧
        t = (s.setSemval after.1).setClient i { c with pc := .branch, semadj := after.2 }) ∨
      (∃ pc, c.inside = true ∧ Client.inside { c with pc } = true ∧
        Client.rest fs { c with pc } = c.rest fs ∧ Client.Ready host.malloc fs { c with pc } ∧
        t = s.setClient i { c with pc }) ∨
      (∃ pc r, c.inside = true ∧ Client.inside { c with pc } = true ∧
        c.rest fs = r :: Client.rest fs { c with pc } ∧ Client.Ready host.malloc fs { c with pc } ∧
        Admissible r ∧ t = (s.addReq r).setClient i { c with pc }) ∨
      (c.pc = .signals ∧
        t = (s.setSemval (undo (SysVSem.signals host.SEMrq s.processes.semval c.semadj).1
          (SysVSem.signals host.SEMrq s.processes.semval c.semadj).2)).setClient i
            { c with pc := .exited, semadj := fun _ => 0 }) := by
  have hready := h.ready c (List.mem_of_getElem? hi)
  have hsignals : Client.Ready host.malloc fs { c with pc := .signals } :=
    ⟨hready.buffer, hready.file, by simp⟩
  cases event with
  | waits =>
      left
      cases hpc : c.pc with
      | waits =>
          simp only [clientStep, hpc] at hstep
          obtain ⟨after, hwaits, rfl⟩ := Option.map_eq_some_iff.mp hstep
          exact ⟨after, rfl, hwaits, rfl⟩
      | _ => simp [clientStep, hpc] at hstep
  | branch =>
      cases hpc : c.pc with
      | branch =>
          have hin : c.inside = true := by simp [Client.inside, hpc]
          have hrest : c.rest fs = c.asks fs := by simp [Client.rest, hpc]
          simp only [clientStep, hpc] at hstep
          cases hpath : c.args.path with
          | none =>
              simp only [hpath, Option.some.injEq] at hstep
              right; right; left
              refine ⟨.signals, exitReq, hin, rfl, ?_, hsignals, .inr rfl, hstep.symm⟩
              rw [hrest]
              simp [Client.asks, Args.asks, hpath, Client.rest]
          | some path =>
              simp only [hpath] at hstep
              right; left
              cases hopen : openInput fs path with
              | none =>
                  simp only [hopen, Option.some.injEq] at hstep
                  refine ⟨.signals, hin, rfl, ?_, hsignals, hstep.symm⟩
                  rw [hrest]
                  simp [Client.asks, Args.asks, hpath, hopen, Client.rest]
              | some file =>
                  simp only [hopen, Option.some.injEq] at hstep
                  refine ⟨.readfile file c.buffer, hin, rfl, ?_, ?_, hstep.symm⟩
                  · rw [hrest]
                    simp [Client.asks, Args.asks, hpath, hopen, Client.rest]
                  · refine ⟨hready.buffer, hready.file, ?_⟩
                    rintro _ _ ⟨rfl, rfl⟩
                    exact ⟨hready.file path hpath file hopen, hready.buffer⟩
      | _ => simp [clientStep, hpc] at hstep
  | fgets =>
      cases hpc : c.pc with
      | readfile file buffer =>
          have hin : c.inside = true := by simp [Client.inside, hpc]
          obtain ⟨hfile, hbuffer⟩ := hready.rest file buffer hpc
          cases file with
          | nil =>
              simp only [clientStep, hpc, Option.some.injEq] at hstep
              right; left
              refine ⟨.signals, hin, rfl, ?_, hsignals, hstep.symm⟩
              simp [Client.rest, hpc, asked_nil]
          | cons b file =>
              obtain ⟨next, r, hturn, hlength, hr, hasked, hleft⟩ :=
                readTurn_readable (by simp) hfile hbuffer
              simp only [clientStep, hpc, hturn, State.checked, Option.some.injEq] at hstep
              right; right; left
              refine ⟨.readfile (fgets 1023 (b :: file)).2 next, r, hin, rfl, ?_, ?_, hr,
                hstep.symm⟩
              · simp only [Client.rest, hpc]
                exact hasked
              · refine ⟨hready.buffer, hready.file, ?_⟩
                rintro _ _ ⟨rfl, rfl⟩
                exact ⟨hleft, hlength⟩
      | _ => simp [clientStep, hpc] at hstep
  | signals =>
      cases hpc : c.pc with
      | signals =>
          simp only [clientStep, hpc, Option.some.injEq] at hstep
          right; right; right
          exact ⟨rfl, hstep.symm⟩
      | _ => simp [clientStep, hpc] at hstep

end Steps

end Clients

end Cse420.Server.System
