import Cse420.Lister.LinQuiet

/-!
When the file of Lin's lister is the same with and without workers. The join
loop stops before the last of its list, which is the worker created first, so
everything depends on whether that one is in time.
-/

namespace Cse420.Lister.Lin

open CMemory Interference

section

variable {fs : FileSystem} {keyword : Path}

/-- The list after visits to these paths one after the other, with search values
left out, if the first new node is at `addr`. -/
def placed : List (Nat × Path) → Nat → List Node → List Node
  | [], _, list => list
  | v :: rest, addr, list =>
      placed rest (addr + 1) (LevelList.insert Node.level ⟨addr, v.2, v.1, 1, 0⟩ list)

theorem placed_i (visits : List (Nat × Path)) (addr : Nat) {list : List Node}
    (h : ∀ node ∈ list, node.i = 1) : ∀ node ∈ placed visits addr list, node.i = 1 := by
  induction visits generalizing addr list with
  | nil => exact h
  | cons v rest ih =>
      apply ih
      intro node hnode
      rcases List.mem_cons.mp ((LevelList.insert_perm _ _).mem_iff.mp hnode) with rfl | hold
      · rfl
      · exact h node hold

/-- The list with the search values that belong to its paths. -/
def counted (fs : FileSystem) (keyword : Path) (list : List Node) : List Node :=
  list.map fun node => node.setSearch (keywordSearch fs node.path keyword)

theorem counted_lines_i (fs : FileSystem) (keyword root : Path) (visits : List (Nat × Path)) :
    ∀ line ∈ (counted fs keyword (placed visits 1 [⟨0, root, 1, 1, 0⟩])).map Node.line,
      line.i = 1 := by
  intro line hline
  simp only [counted, List.map_map, List.mem_map] at hline
  obtain ⟨node, hnode, rfl⟩ := hline
  exact placed_i visits 1 (by simp) node hnode

theorem eq_counted {list : List Node} (h : ∀ node ∈ list, Counted fs keyword node) :
    list = counted fs keyword (list.map (Node.setSearch 0)) := by
  unfold counted
  rw [List.map_map]
  nth_rewrite 1 [← List.map_id list]
  apply List.map_congr_left
  intro node hnode
  have hsearch := h node hnode
  unfold Counted at hsearch
  simp only [id, Function.comp, Node.setSearch, ← hsearch]

theorem quiet_of_none {s : State} (h : s.threads = []) : Quiet s := by
  intro thread hin
  rw [h] at hin
  cases hin

/-- Visits without workers. -/
theorem visits_seq (fs : FileSystem) (keyword : Path) (visits : List (Nat × Path))
    {w : World State Nat} (hnone : w.state.threads = [])
    (hcounted : ∀ node ∈ w.state.list, Counted fs keyword node) :
    let w' := visits.foldl (fun w v => visitSeq fs keyword v.1 v.2 w) w
    w'.state.threads = [] ∧ (∀ node ∈ w'.state.list, Counted fs keyword node) ∧
      w'.state.list.map (Node.setSearch 0) =
        placed visits w.state.size (w.state.list.map (Node.setSearch 0)) := by
  induction visits generalizing w with
  | nil => exact ⟨hnone, hcounted, rfl⟩
  | cons v rest ih =>
      have hstate := visitSeq_quiet fs keyword (quiet_of_none hnone) v.1 v.2
      have hnone' : (visitSeq fs keyword v.1 v.2 w).state.threads = [] := by
        rw [hstate]
        exact hnone
      have hcounted' : ∀ node ∈ (visitSeq fs keyword v.1 v.2 w).state.list,
          Counted fs keyword node := by
        intro node hnode
        rw [hstate] at hnode
        rcases List.mem_cons.mp ((LevelList.insert_perm _ _).mem_iff.mp hnode) with rfl | hold
        · rfl
        · exact hcounted node hold
      have hrest := ih hnone' hcounted'
      have hlist : (visitSeq fs keyword v.1 v.2 w).state.list.map (Node.setSearch 0) =
          LevelList.insert Node.level ⟨w.state.size, v.2, v.1, 1, 0⟩
            (w.state.list.map (Node.setSearch 0)) := by
        rw [hstate]
        exact insert_setSearch _ _
      have hsize : (visitSeq fs keyword v.1 v.2 w).state.size = w.state.size + 1 := by
        rw [hstate]
      rw [hlist, hsize] at hrest
      exact hrest

/-- Between visits. The newest worker is at the head of `TID_list`. -/
structure Ready (fs : FileSystem) (keyword : Path) (s : State) : Prop where
  tracked : Tracked fs keyword s.size s
  idle : s.tmpNode = none
  tids : s.tidList = (List.range s.threads.length).reverse

theorem Ready.visitPar {w : World State Nat} (h : Ready fs keyword w.state) (level : Nat)
    (path : Path) : Ready fs keyword (visitPar fs keyword level path w).state := by
  obtain ⟨hvisited, hlength, htids⟩ := visitPar_visited fs keyword level path w
  refine ⟨visitPar_tracked h.tracked h.idle level path, hvisited.idle, ?_⟩
  rw [htids, hlength, h.tids, List.range_succ, List.reverse_append]
  rfl

/-- Visits with workers. -/
theorem visits_par (visits : List (Nat × Path)) {w : World State Nat}
    (h : Ready fs keyword w.state) :
    let w' := visits.foldl (fun w v => Lin.visitPar fs keyword v.1 v.2 w) w
    Ready fs keyword w'.state ∧
      w'.state.threads.length = w.state.threads.length + visits.length ∧
      w'.state.list.map (Node.setSearch 0) =
        placed visits w.state.size (w.state.list.map (Node.setSearch 0)) ∧
      ∀ schedule k, Elapsed schedule k w → Elapsed schedule (k + 4 * visits.length) w' := by
  induction visits generalizing w with
  | nil => exact ⟨h, rfl, rfl, fun _ _ helapsed => helapsed⟩
  | cons v rest ih =>
      obtain ⟨hvisited, hlength, -⟩ := visitPar_visited fs keyword v.1 v.2 w
      obtain ⟨hready, hlength', hlist, helapsed⟩ := ih (h.visitPar v.1 v.2)
      rw [hvisited.list, hvisited.size] at hlist
      refine ⟨hready, ?_, hlist, ?_⟩
      · rw [List.foldl_cons, hlength', hlength, List.length_cons]
        omega
      · intro schedule k hbefore
        have hnext := visitPar_elapsed h.tracked h.idle hbefore v.1 v.2
        have hlast := helapsed schedule (k + 4) hnext
        rw [List.length_cons, show k + 4 * (rest.length + 1) = k + 4 + 4 * rest.length by omega]
        exact hlast

/-- The state in which `open_dir` is called. -/
def rootState (fs : FileSystem) (keyword root : Path) : State :=
  ⟨[⟨0, root, 1, 1, keywordSearch fs root keyword⟩], none, 1, [], []⟩

theorem visitRoot_state (fs : FileSystem) (keyword root : Path) (schedule : List (List Nat)) :
    (visitSeq fs keyword 1 root ⟨⟨[], none, 0, [], []⟩, schedule⟩).state =
      rootState fs keyword root :=
  visitSeq_quiet fs keyword (quiet_of_none rfl) 1 root

theorem visitRoot_schedule (fs : FileSystem) (keyword root : Path) (schedule : List (List Nat)) :
    (visitSeq fs keyword 1 root ⟨⟨[], none, 0, [], []⟩, schedule⟩).schedule =
      schedule.drop 3 := by
  simp only [visitSeq, act, tick_schedule, List.drop_drop]

theorem ready_root (fs : FileSystem) (keyword root : Path) :
    Ready fs keyword (rootState fs keyword root) := by
  refine ⟨?_, rfl, rfl⟩
  have hnodes : ∀ node ∈ (rootState fs keyword root).nodes,
      node = ⟨0, root, 1, 1, keywordSearch fs root keyword⟩ := by
    intro node hnode
    simpa [State.nodes, rootState] using hnode
  constructor
  · intro node hnode _
    left
    rw [hnodes node hnode]
    rfl
  · intro thread hin
    cases hin
  · intro thread hin
    cases hin
  · intro node hnode
    rw [hnodes node hnode]
    exact Nat.zero_lt_one
  · intro node hnode other hother _
    rw [hnodes node hnode, hnodes other hother]

theorem openDir_eq {root : Path} (htree : OpenTree fs.opendir 255 root) {fuel : Nat}
    {visited : List (Nat × Path)} (hvisits : visits fs.opendir 255 fuel root 2 = some visited)
    (parMode : Int) (w : World State Nat) :
    openDir fs keyword parMode fuel root 1 w =
      some (visited.foldl (fun w v =>
        (if parMode = 0 then visitSeq fs keyword else visitPar fs keyword) v.1 v.2 w) w) := by
  unfold openDir
  rw [walk_eq_visits, visits_getD htree, hvisits]
  rfl

/-- Sequential mode comes to `node_swap` with every node counted. -/
theorem beforeSwap_seq (keyword : Path) {root : Path} (htree : OpenTree fs.opendir 255 root)
    {fuel : Nat} {visited : List (Nat × Path)}
    (hvisits : visits fs.opendir 255 fuel root 2 = some visited)
    (schedule : List (List Nat)) :
    ∃ w, beforeSwap fs keyword 0 root fuel schedule = some w ∧ Quiet w.state ∧
      w.state.list = counted fs keyword (placed visited 1 [⟨0, root, 1, 1, 0⟩]) := by
  have hroot := visitRoot_state fs keyword root schedule
  generalize hstart : visitSeq fs keyword 1 root ⟨⟨[], none, 0, [], []⟩, schedule⟩ = start at hroot
  have hcountedRoot : ∀ node ∈ start.state.list, Counted fs keyword node := by
    intro node hnode
    rw [hroot] at hnode
    rw [List.mem_singleton.mp hnode]
    rfl
  have hnoneRoot : start.state.threads = [] := by
    rw [hroot]
    rfl
  obtain ⟨hnone, hcounted, hlist⟩ := visits_seq fs keyword visited hnoneRoot hcountedRoot
  rw [hroot] at hlist
  refine ⟨_, ?_, quiet_of_none hnone, ?_⟩
  · simp only [beforeSwap, hstart, openDir_eq htree hvisits]
    rfl
  · rw [eq_counted hcounted, hlist]
    rfl

/-- The walk of parallel mode if there is an entry at all. -/
theorem openDir_par (keyword : Path) {root : Path} (htree : DirTree fs.opendir 255 root)
    {fuel : Nat} {v : Nat × Path} {rest : List (Nat × Path)}
    (hvisits : visits fs.opendir 255 fuel root 2 = some (v :: rest))
    (schedule : List (List Nat)) :
    ∃ w, openDir fs keyword 1 fuel root 1
        (visitSeq fs keyword 1 root ⟨⟨[], none, 0, [], []⟩, schedule⟩) = some w ∧
      Ready fs keyword w.state ∧ w.state.threads.length = rest.length + 1 ∧
      w.state.list.map (Node.setSearch 0) = placed (v :: rest) 1 [⟨0, root, 1, 1, 0⟩] ∧
      Elapsed (schedule.drop 5) (2 + 4 * rest.length) w := by
  have hroot := visitRoot_state fs keyword root schedule
  have hahead := visitRoot_schedule fs keyword root schedule
  generalize visitSeq fs keyword 1 root ⟨⟨[], none, 0, [], []⟩, schedule⟩ = start at hroot hahead ⊢
  have hready : Ready fs keyword start.state := hroot ▸ ready_root fs keyword root
  have hnone : start.state.threads = [] := by
    rw [hroot]
    rfl
  have hfirst := visitPar_begins hready.tracked hready.idle hnone v.1 v.2
  rw [hahead, List.drop_drop] at hfirst
  obtain ⟨hvisited, hlength, -⟩ := visitPar_visited fs keyword v.1 v.2 start
  obtain ⟨hwalked, hlength', hlist, helapsed⟩ := visits_par rest (hready.visitPar v.1 v.2)
  rw [hvisited.list, hvisited.size, hroot] at hlist
  refine ⟨_, openDir_eq htree.opens hvisits 1 start, hwalked, ?_, hlist, helapsed _ _ hfirst⟩
  rw [hnone] at hlength
  exact hlength'.trans (by rw [hlength, List.length_nil]; omega)

/-- The joins. They wait for all workers but the first, so that one decides. -/
theorem joinThreads_quiet {w : World State Nat} (h : Ready fs keyword w.state) {n k : Nat}
    (hlength : w.state.threads.length = n + 1) {schedule : List (List Nat)}
    (helapsed : Elapsed schedule k w) :
    ∃ w', joinThreads fs keyword w = some w' ∧ frame w'.state = frame w.state ∧
      Tracked fs keyword w.state.size w'.state ∧
      (Quiet w'.state ↔ 2 ≤ ((schedule.take (k + n)).flatten.count 0)) := by
  have htids : w.state.tidList = (List.range' 1 n).reverse ++ [0] := by
    rw [h.tids, hlength, List.range_eq_range', List.range'_succ, List.reverse_cons]
  obtain ⟨w', hjoin, hframe, htracked, hdone, hjoined⟩ := joinLoop_spec
    (List.range' 1 n).reverse 0 h.tracked (by
      intro tid htid
      rw [List.mem_reverse, List.mem_range'_1] at htid
      omega)
  have hlast := hjoined (by simp) _ _ helapsed
  rw [List.length_reverse, List.length_range'] at hlast
  obtain ⟨first, others, hthreads⟩ := List.exists_cons_of_ne_nil hlast.begun
  have hprogress := hlast.progress
  rw [progress, hthreads, List.head?_cons, Option.elim_some] at hprogress
  refine ⟨w', ?_, hframe, htracked, ?_⟩
  · rw [joinThreads, htids]
    exact hjoin
  · constructor
    · intro hquiet
      have hfirst : first.pc = .done := by
        apply hquiet
        rw [hthreads]
        exact List.mem_cons_self
      rw [Pc.steps_eq_two.mpr hfirst] at hprogress
      omega
    · intro htwo thread hin
      obtain ⟨tid, hlt, rfl⟩ := List.mem_iff_getElem.mp hin
      rcases Nat.eq_zero_or_pos tid with rfl | hpos
      · have hfirst : first.pc = .done := by
          apply Pc.steps_eq_two.mp
          omega
        simpa [hthreads] using hfirst
      · have hthere : tid ∈ (List.range' 1 n).reverse := by
          have hcount := (alike_of_frame hframe).length
          rw [List.mem_reverse, List.mem_range'_1]
          omega
        obtain ⟨arg, hat⟩ := hdone tid (.inl hthere)
        rw [List.getElem?_eq_getElem hlt, Option.some.injEq] at hat
        rw [hat]

/-- Whether the worker that was created first, which no join waits for, makes
both of its steps before `node_swap`. The main thread makes three steps for the
root and two until that worker exists; up to `node_swap` it makes two more for
the first entry, four for every other entry and one for every join. -/
def FirstInTime (entries : Nat) (schedule : List (List Nat)) : Prop :=
  0 < entries ∧ 2 ≤ (((schedule.drop 5).take (5 * entries - 3)).flatten.count 0)

/-- Parallel mode comes to `node_swap` with every node in its place, and with
every node counted if the first worker was in time. -/
theorem beforeSwap_par (keyword : Path) {root : Path} (htree : DirTree fs.opendir 255 root)
    {fuel : Nat} {visited : List (Nat × Path)}
    (hvisits : visits fs.opendir 255 fuel root 2 = some visited)
    (hsome : visited ≠ []) (schedule : List (List Nat)) :
    ∃ w, beforeSwap fs keyword 1 root fuel schedule = some w ∧
      (Quiet w.state ↔ FirstInTime visited.length schedule) ∧
      (Quiet w.state →
        w.state.list = counted fs keyword (placed visited 1 [⟨0, root, 1, 1, 0⟩])) := by
  obtain ⟨v, rest, rfl⟩ := List.exists_cons_of_ne_nil hsome
  obtain ⟨walked, hopen, hready, hlength, hlist, helapsed⟩ :=
    openDir_par keyword htree hvisits schedule
  obtain ⟨w, hjoin, hframe, htracked, hquiet⟩ := joinThreads_quiet hready hlength helapsed
  have halike := alike_of_frame hframe
  refine ⟨w, ?_, ?_, ?_⟩
  · simp only [beforeSwap, hopen, Option.bind_eq_bind, Option.bind_some, if_true]
    exact hjoin
  · have hsteps : 5 * (v :: rest).length - 3 = 2 + 4 * rest.length + rest.length := by
      rw [List.length_cons]
      omega
    rw [hquiet, FirstInTime, hsteps, List.length_cons]
    simp
  · intro hquiet
    have hcounted : ∀ node ∈ w.state.list, Counted fs keyword node := by
      intro node hnode
      have hnode : node ∈ w.state.nodes := List.mem_append_right _ hnode
      have haddr : node.addr < walked.state.size := halike.size ▸ htracked.older node hnode
      rcases htracked.covered node hnode haddr with hcounted | ⟨thread, hin, -, hrunning⟩
      · exact hcounted
      · exact absurd (hquiet thread hin) hrunning
    rw [eq_counted hcounted, halike.list, hlist]

/-- Without an entry there is no thread, and `joinThreads` follows a null
pointer. -/
theorem beforeSwap_par_none (keyword : Path) {root : Path}
    (htree : DirTree fs.opendir 255 root) {fuel : Nat}
    (hvisits : visits fs.opendir 255 fuel root 2 = some []) (schedule : List (List Nat)) :
    beforeSwap fs keyword 1 root fuel schedule = none := by
  have hroot := visitRoot_state fs keyword root schedule
  simp only [beforeSwap, openDir_eq htree.opens hvisits, List.foldl_nil, Option.bind_eq_bind,
    Option.bind_some, if_true, joinThreads, hroot]
  rfl

/-- There are as many visits as entries. -/
theorem entries_ncard {root : Path} {below : List (List (List UInt8))} (hnodup : below.Nodup)
    (hmem : ∀ names, names ∈ below ↔ names ≠ [] ∧ Entry fs.opendir root names) (level : Nat) :
    {names | names ≠ [] ∧ Entry fs.opendir root names}.ncard =
      (visitsAt root level below).length := by
  have hset : {names | names ≠ [] ∧ Entry fs.opendir root names} = ↑below.toFinset := by
    ext names
    simp [hmem]
  rw [hset, Set.ncard_coe_finset, List.toFinset_card_of_nodup hnodup]
  simp [visitsAt]

/-- For every tree there is a file that sequential mode writes; parallel mode
writes it too, and starts to exchange paths with no worker left, if and only if
the worker created first is in time. -/
theorem parallel_iff_first_in_time {root : Path} (htree : DirTree fs.opendir 255 root)
    (keyword : Path) :
    ∃ N out, ∀ fuel, N ≤ fuel → main fs keyword 0 root fuel [] = some out ∧
      ∀ schedule,
        (main fs keyword 1 root fuel schedule = some out ∧
          ∃ w, beforeSwap fs keyword 1 root fuel schedule = some w ∧ Quiet w.state) ↔
        FirstInTime {names | names ≠ [] ∧ Entry fs.opendir root names}.ncard schedule := by
  obtain ⟨below, hnodup, hmem, hvisits⟩ := visits_spec htree
  rw [entries_ncard hnodup hmem 2]
  have hvisits : ∀ fuel, 255 ≤ fuel →
      visits fs.opendir 255 fuel root 2 = some (visitsAt root 2 below) :=
    fun fuel hfuel => hvisits 2 fuel (by omega) (by omega)
  generalize visitsAt root 2 below = visited at hvisits
  -- what both modes sort
  have hone := counted_lines_i fs keyword root visited
  generalize hlist : counted fs keyword (placed visited 1 [⟨0, root, 1, 1, 0⟩]) = list at hone
  obtain ⟨n, out, hsort⟩ := BubbleSort.sort_ends Line.later_asymm (list.map Node.line)
  refine ⟨255 + n, numberedLines out, ?_⟩
  intro fuel hfuel
  have hfinish : ∀ w : World State Nat, Quiet w.state → w.state.list = list →
      afterSwap fs keyword fuel w = some (numberedLines out) := by
    rintro w hquiet rfl
    exact afterSwap_quiet hquiet hone (hsort fuel (by omega))
  have hv := hvisits fuel (by omega)
  constructor
  · obtain ⟨w, hbefore, hquiet, hw⟩ := beforeSwap_seq keyword htree.opens hv []
    simp only [main, hbefore, Option.bind_eq_bind, Option.bind_some]
    exact hfinish w hquiet (hw.trans hlist)
  · intro schedule
    rcases eq_or_ne visited [] with rfl | hsome
    · have hnone := beforeSwap_par_none keyword htree hv schedule
      simp [hnone, FirstInTime]
    · obtain ⟨w, hbefore, htime, hcounted⟩ := beforeSwap_par keyword htree hv hsome schedule
      rw [← htime]
      constructor
      · rintro ⟨-, w', hbefore', hquiet⟩
        rw [hbefore, Option.some.injEq] at hbefore'
        exact hbefore' ▸ hquiet
      · intro hquiet
        refine ⟨?_, w, hbefore, hquiet⟩
        simp only [main, hbefore, Option.bind_eq_bind, Option.bind_some]
        exact hfinish w hquiet ((hcounted hquiet).trans hlist)

/-- A directory with one file. -/
def oneFile : FileSystem where
  opendir path := if path = text "r" then some [⟨text ".", 4⟩, ⟨text "a", 8⟩] else none
  fopen path := if path = text "r/a" then some (text "int i;\n") else none

theorem oneFile_dirTree : DirTree oneFile.opendir 255 (text "r") := by
  have hopen : oneFile.opendir (text "r") = some [⟨text ".", 4⟩, ⟨text "a", 8⟩] := by decide
  apply DirTree.node hopen (by decide) (by decide) (by decide) (by decide) (by decide)
  intro e he hhidden hdir
  fin_cases he
  · cases hhidden
  · cases hdir

theorem parallel_iff_first_in_time_one :
    ∃ N out, ∀ fuel, N ≤ fuel → main oneFile (text "int") 0 (text "r") fuel [] = some out ∧
      ∀ schedule,
        (main oneFile (text "int") 1 (text "r") fuel schedule = some out ∧
          ∃ w, beforeSwap oneFile (text "int") 1 (text "r") fuel schedule = some w ∧
            Quiet w.state) ↔
        FirstInTime {names | names ≠ [] ∧ Entry oneFile.opendir (text "r") names}.ncard schedule :=
  parallel_iff_first_in_time oneFile_dirTree (text "int")

/-- The only worker is the one that no join waits for. If it does not run before
the file is written, the file holds the value that the node was created with. -/
theorem first_worker_not_joined :
    main oneFile (text "int") 0 (text "r") 2 [] =
        some [⟨1, 1, 0, text "r"⟩, ⟨2, 1, 1, text "r/a"⟩] ∧
      main oneFile (text "int") 1 (text "r") 2 [] =
        some [⟨1, 1, 0, text "r"⟩, ⟨2, 1, -69, text "r/a"⟩] ∧
      main oneFile (text "int") 1 (text "r") 2 [] ≠
        main oneFile (text "int") 0 (text "r") 2 [] := by
  decide +kernel

end

end Cse420.Lister.Lin
