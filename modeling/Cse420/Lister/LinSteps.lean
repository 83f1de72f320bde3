import Cse420.Lib.Machine
import Cse420.Lister.Lin

/-!
What the workers of Lin's lister do to the list while it is built and joined.
They change search values and their own places only; a worker that has read a
path will store the right value as long as no path moves.
-/

namespace Cse420.Lister.Lin

open Interference Machine

section

variable {fs : FileSystem} {keyword : Path}

def Thread.atStart (thread : Thread) : Thread := ⟨thread.arg, .start⟩

@[simp] theorem atStart_atStart (thread : Thread) :
    thread.atStart.atStart = thread.atStart := rfl

@[simp] theorem setSearch_setSearch (a b : Int) (node : Node) :
    (node.setSearch a).setSearch b = node.setSearch b := rfl

/-- What the main thread sees of the state: everything but search values and
the places of the workers. -/
def frame (s : State) : State :=
  { s with
    list := s.list.map (Node.setSearch 0)
    tmpNode := s.tmpNode.map (Node.setSearch 0)
    threads := s.threads.map Thread.atStart }

/-- A step of a worker: none, or it reads the path of its node, or it stores. -/
theorem makeThread_cases (s : State) (tid : Nat) :
    makeThread fs keyword s tid = s ∨
    (∃ arg node, s.threads[tid]? = some ⟨arg, .start⟩ ∧ node ∈ s.nodes ∧ node.addr = arg ∧
      makeThread fs keyword s tid =
        { s with threads := s.threads.set tid ⟨arg, .searching node.path⟩ }) ∨
    (∃ arg filePath, s.threads[tid]? = some ⟨arg, .searching filePath⟩ ∧
      makeThread fs keyword s tid =
        { assign arg (keywordSearch fs filePath keyword) s with
          threads := s.threads.set tid ⟨arg, .done⟩ }) := by
  unfold makeThread
  split
  · exact .inl rfl
  · rename_i arg hthread
    split
    · exact .inl rfl
    · rename_i node hfind
      refine .inr (.inl ⟨arg, node, hthread, List.mem_of_find?_eq_some hfind, ?_, rfl⟩)
      simpa using List.find?_some hfind
  · rename_i arg filePath hthread
    exact .inr (.inr ⟨arg, filePath, hthread, rfl⟩)
  · exact .inl rfl

theorem assign_nodes (addr : Nat) (search : Int) (s : State) :
    (assign addr search s).nodes =
      s.nodes.map fun node => if node.addr = addr then node.setSearch search else node := by
  cases htmp : s.tmpNode <;> simp [State.nodes, assign, htmp]

theorem makeThread_frame (fs : FileSystem) (keyword : Path) (s : State) (tid : Nat) :
    frame (makeThread fs keyword s tid) = frame s := by
  have hsearch : ∀ (addr : Nat) (search : Int),
      (Node.setSearch 0 ∘ fun node => if node.addr = addr then node.setSearch search else node) =
        Node.setSearch 0 := by
    intro addr search
    funext node
    simp only [Function.comp]
    split <;> rfl
  rcases makeThread_cases s tid with hnone | ⟨arg, node, hthread, -, -, hread⟩ |
    ⟨arg, filePath, hthread, hstore⟩
  · rw [hnone]
  · have hargs : (s.threads.set tid ⟨arg, .searching node.path⟩).map Thread.atStart =
        s.threads.map Thread.atStart := map_set_same hthread Thread.atStart rfl
    rw [hread]
    simp only [frame, hargs]
  · have hargs : (s.threads.set tid ⟨arg, .done⟩).map Thread.atStart =
        s.threads.map Thread.atStart := map_set_same hthread Thread.atStart rfl
    rw [hstore]
    simp only [frame, assign, List.map_map, Option.map_map, hsearch, hargs]

theorem tick_frame (fs : FileSystem) (keyword : Path) (w : World State Nat) :
    frame (tick (makeThread fs keyword) w).state = frame w.state :=
  tick_view frame (makeThread_frame fs keyword) w

/-- A step that depends only on what the main thread sees. -/
def Visible (g : State → State) : Prop := ∀ s, frame (g s) = frame (g (frame s))

theorem Visible.congr {g : State → State} (hg : Visible g) {s t : State} (h : frame s = frame t) :
    frame (g s) = frame (g t) := by
  rw [hg s, hg t, h]

theorem Visible.act {g : State → State} (hg : Visible g) (w : World State Nat) :
    frame (act (makeThread fs keyword) g w).state = frame (g w.state) :=
  hg.congr (tick_frame fs keyword w)

theorem visible_createNode (path : Path) (level i : Nat) : Visible (createNode path level i) := by
  intro s
  simp [frame, createNode, Function.comp_def]

theorem visible_pthreadCreate : Visible pthreadCreate := by
  intro s
  cases htmp : s.tmpNode with
  | none => simp [frame, pthreadCreate, htmp, Function.comp_def]
  | some node =>
      simp [frame, pthreadCreate, htmp, Function.comp_def, Node.setSearch, Thread.atStart]

theorem visible_addTID (tid : Nat) : Visible (addTID tid) := by
  intro s
  simp [frame, addTID, Function.comp_def]

theorem insert_setSearch (node : Node) (list : List Node) :
    (LevelList.insert Node.level node list).map (Node.setSearch 0) =
      LevelList.insert Node.level (node.setSearch 0) (list.map (Node.setSearch 0)) := by
  have hlevel : ∀ node : Node, (node.setSearch 0).level = node.level := fun _ => rfl
  exact (LevelList.insert_map (Node.setSearch 0) hlevel node list).symm

theorem visible_insertSorted : Visible insertSorted := by
  intro s
  cases htmp : s.tmpNode with
  | none => simp [frame, insertSorted, htmp, Function.comp_def]
  | some node =>
      simp only [frame, insertSorted, htmp, Option.map_some, Option.map_none, insert_setSearch,
        List.map_map]
      rfl

/-- The parts of what the main thread sees. -/
structure Alike (s t : State) : Prop where
  list : s.list.map (Node.setSearch 0) = t.list.map (Node.setSearch 0)
  tmpNode : s.tmpNode.map (Node.setSearch 0) = t.tmpNode.map (Node.setSearch 0)
  size : s.size = t.size
  args : s.threads.map Thread.arg = t.threads.map Thread.arg
  tids : s.tidList = t.tidList

theorem alike_of_frame {s t : State} (h : frame s = frame t) : Alike s t := by
  simp only [frame, State.mk.injEq] at h
  obtain ⟨hlist, htmp, hsize, hthreads, htids⟩ := h
  refine ⟨hlist, htmp, hsize, ?_, htids⟩
  simpa [Function.comp_def, Thread.atStart] using congrArg (List.map Thread.arg) hthreads

theorem Alike.length {s t : State} (h : Alike s t) : s.threads.length = t.threads.length := by
  simpa using congrArg List.length h.args

theorem Alike.idle {s t : State} (h : Alike s t) (hidle : t.tmpNode = none) :
    s.tmpNode = none := by
  have htmp := h.tmpNode
  rw [hidle] at htmp
  exact Option.map_eq_none_iff.mp htmp

def Counted (fs : FileSystem) (keyword : Path) (node : Node) : Prop :=
  node.search = keywordSearch fs node.path keyword

/-- The workers and the nodes with addresses below `bound` are in order: a node
is counted already, or a worker of its own is still running. -/
structure Tracked (fs : FileSystem) (keyword : Path) (bound : Nat) (s : State) : Prop where
  covered : ∀ node ∈ s.nodes, node.addr < bound → Counted fs keyword node ∨
    ∃ thread ∈ s.threads, thread.arg = node.addr ∧ thread.pc ≠ .done
  loaded : ∀ thread ∈ s.threads, ∀ filePath, thread.pc = .searching filePath →
    ∀ node ∈ s.nodes, node.addr = thread.arg → node.path = filePath
  placed : ∀ thread ∈ s.threads, ∃ node ∈ s.nodes, node.addr = thread.arg
  older : ∀ node ∈ s.nodes, node.addr < s.size
  apart : ∀ node ∈ s.nodes, ∀ other ∈ s.nodes, node.addr = other.addr → node.path = other.path

/-- A worker has read the path of its node. -/
theorem Tracked.reads {bound : Nat} {s : State} (h : Tracked fs keyword bound s) {tid arg : Nat}
    (hthread : s.threads[tid]? = some ⟨arg, .start⟩) {node : Node} (hnode : node ∈ s.nodes)
    (haddr : node.addr = arg) :
    Tracked fs keyword bound
      { s with threads := s.threads.set tid ⟨arg, .searching node.path⟩ } := by
  have hmem := List.mem_of_getElem? hthread
  have hlength := (List.getElem?_eq_some_iff.mp hthread).1
  constructor
  · intro other hother hlt
    rcases h.covered other hother hlt with hcounted | ⟨thread, hin, harg, hrunning⟩
    · exact .inl hcounted
    · right
      rcases mem_set_of_mem hthread hin with rfl | hstays
      · exact ⟨_, List.mem_set hlength _, harg, by simp⟩
      · exact ⟨thread, hstays, harg, hrunning⟩
  · intro thread hin filePath hpc other hother hat
    rcases List.mem_or_eq_of_mem_set hin with hold | rfl
    · exact h.loaded thread hold filePath hpc other hother hat
    · cases hpc
      exact h.apart other hother node hnode (hat.trans haddr.symm)
  · intro thread hin
    rcases List.mem_or_eq_of_mem_set hin with hold | rfl
    · exact h.placed thread hold
    · exact h.placed ⟨arg, .start⟩ hmem
  · exact h.older
  · exact h.apart

/-- A store keeps addresses and paths, and the nodes it is for are counted. -/
theorem Tracked.assigned {bound : Nat} {s : State} (h : Tracked fs keyword bound s)
    {arg : Nat} {filePath : Path} (hmem : ⟨arg, .searching filePath⟩ ∈ s.threads) {node : Node}
    (hnode : node ∈ (assign arg (keywordSearch fs filePath keyword) s).nodes) :
    ∃ old ∈ s.nodes, node.addr = old.addr ∧ node.path = old.path ∧
      ((old.addr ≠ arg ∧ node = old) ∨ Counted fs keyword node) := by
  rw [assign_nodes] at hnode
  obtain ⟨old, hold, rfl⟩ := List.mem_map.mp hnode
  refine ⟨old, hold, ?_⟩
  split
  · rename_i harg
    refine ⟨rfl, rfl, .inr ?_⟩
    have hpath := h.loaded _ hmem filePath rfl old hold harg
    simp only [Counted, Node.setSearch, hpath]
  · rename_i hother
    exact ⟨rfl, rfl, .inl ⟨hother, rfl⟩⟩

/-- A worker has stored what it found. -/
theorem Tracked.stores {bound : Nat} {s : State} (h : Tracked fs keyword bound s) {tid arg : Nat}
    {filePath : Path} (hthread : s.threads[tid]? = some ⟨arg, .searching filePath⟩) :
    Tracked fs keyword bound
      { assign arg (keywordSearch fs filePath keyword) s with
        threads := s.threads.set tid ⟨arg, .done⟩ } := by
  have hmem := List.mem_of_getElem? hthread
  constructor
  · intro node hnode hlt
    obtain ⟨old, hold, haddr, -, ⟨hother, rfl⟩ | hcounted⟩ := h.assigned hmem hnode
    · rcases h.covered node hold hlt with hcounted | ⟨thread, hin, harg, hrunning⟩
      · exact .inl hcounted
      · rcases mem_set_of_mem hthread hin with rfl | hstays
        · exact absurd harg.symm hother
        · exact .inr ⟨thread, hstays, harg, hrunning⟩
    · exact .inl hcounted
  · intro thread hin path hpc node hnode hat
    obtain ⟨old, hold, haddr, hpath, -⟩ := h.assigned hmem hnode
    rcases List.mem_or_eq_of_mem_set hin with hthere | rfl
    · rw [hpath]
      exact h.loaded thread hthere path hpc old hold (haddr.symm.trans hat)
    · cases hpc
  · intro thread hin
    obtain ⟨old, hold, harg⟩ : ∃ node ∈ s.nodes, node.addr = thread.arg := by
      rcases List.mem_or_eq_of_mem_set hin with hthere | rfl
      · exact h.placed thread hthere
      · exact h.placed ⟨arg, .searching filePath⟩ hmem
    have hback : ∃ node ∈ (assign arg (keywordSearch fs filePath keyword) s).nodes,
        node.addr = old.addr := by
      rw [assign_nodes]
      refine ⟨_, List.mem_map_of_mem hold, ?_⟩
      split <;> rfl
    obtain ⟨node, hnode, haddr⟩ := hback
    exact ⟨node, hnode, haddr.trans harg⟩
  · intro node hnode
    obtain ⟨old, hold, haddr, -⟩ := h.assigned hmem hnode
    rw [haddr]
    exact h.older old hold
  · intro node hnode other hother hsame
    obtain ⟨old, hold, haddr, hpath, -⟩ := h.assigned hmem hnode
    obtain ⟨old', hold', haddr', hpath', -⟩ := h.assigned hmem hother
    rw [hpath, hpath']
    exact h.apart old hold old' hold' (haddr.symm.trans (hsame.trans haddr'))

theorem Tracked.makeThread {bound : Nat} {s : State} (h : Tracked fs keyword bound s)
    (tid : Nat) : Tracked fs keyword bound (makeThread fs keyword s tid) := by
  rcases makeThread_cases s tid with hnone | ⟨arg, node, hthread, hnode, haddr, hread⟩ |
    ⟨arg, filePath, hthread, hstore⟩
  · rw [hnone]
    exact h
  · rw [hread]
    exact h.reads hthread hnode haddr
  · rw [hstore]
    exact h.stores hthread

theorem Tracked.tick {bound : Nat} {w : World State Nat} (h : Tracked fs keyword bound w.state) :
    Tracked fs keyword bound (tick (Lin.makeThread fs keyword) w).state :=
  tick_invariant (Tracked fs keyword bound) (fun _ tid hs => hs.makeThread tid) h

/-- Only which nodes there are matters, not where they are. -/
theorem Tracked.of_nodes {bound : Nat} {s t : State} (h : Tracked fs keyword bound s)
    (hnodes : ∀ node, node ∈ t.nodes ↔ node ∈ s.nodes) (hthreads : t.threads = s.threads)
    (hsize : t.size = s.size) : Tracked fs keyword bound t := by
  constructor
  · intro node hnode
    rw [hthreads]
    exact h.covered node ((hnodes node).mp hnode)
  · intro thread hin filePath hpc node hnode
    rw [hthreads] at hin
    exact h.loaded thread hin filePath hpc node ((hnodes node).mp hnode)
  · intro thread hin
    rw [hthreads] at hin
    obtain ⟨node, hnode, haddr⟩ := h.placed thread hin
    exact ⟨node, (hnodes node).mpr hnode, haddr⟩
  · intro node hnode
    rw [hsize]
    exact h.older node ((hnodes node).mp hnode)
  · intro node hnode other hother
    exact h.apart node ((hnodes node).mp hnode) other ((hnodes other).mp hother)

theorem Tracked.createNode {s : State} (h : Tracked fs keyword s.size s)
    (hidle : s.tmpNode = none) (path : Path) (level i : Nat) :
    Tracked fs keyword s.size (createNode path level i s) := by
  have hfrom : ∀ node ∈ (Lin.createNode path level i s).nodes,
      node = ⟨s.size, path, level, i, -69⟩ ∨ node ∈ s.nodes := by
    intro node hnode
    simpa [State.nodes, Lin.createNode, hidle] using hnode
  have hkeep : ∀ node ∈ s.nodes, node ∈ (Lin.createNode path level i s).nodes := by
    intro node hnode
    have hlist : node ∈ s.list := by simpa [State.nodes, hidle] using hnode
    exact List.mem_append_right _ hlist
  constructor
  · intro node hnode hlt
    rcases hfrom node hnode with rfl | hold
    · exact absurd hlt (Nat.lt_irrefl _)
    · exact h.covered node hold hlt
  · intro thread hin filePath hpc node hnode hat
    rcases hfrom node hnode with rfl | hold
    · obtain ⟨other, hother, haddr⟩ := h.placed thread hin
      have := h.older other hother
      simp only at hat
      omega
    · exact h.loaded thread hin filePath hpc node hold hat
  · intro thread hin
    obtain ⟨node, hnode, haddr⟩ := h.placed thread hin
    exact ⟨node, hkeep node hnode, haddr⟩
  · intro node hnode
    rcases hfrom node hnode with rfl | hold
    · exact Nat.lt_succ_self _
    · exact Nat.lt_succ_of_lt (h.older node hold)
  · intro node hnode other hother hsame
    rcases hfrom node hnode with rfl | hold <;> rcases hfrom other hother with rfl | hold'
    · rfl
    · have := h.older other hold'
      simp only at hsame
      omega
    · have := h.older node hold
      simp only at hsame
      omega
    · exact h.apart node hold other hold' hsame

/-- With its worker the last node is in order too. -/
theorem Tracked.pthreadCreate {bound : Nat} {s : State} (h : Tracked fs keyword bound s)
    {node : Node} (htmp : s.tmpNode = some node) (haddr : node.addr = bound) :
    Tracked fs keyword (bound + 1) (pthreadCreate s) := by
  have hthreads : (Lin.pthreadCreate s).threads = s.threads ++ [⟨bound, .start⟩] := by
    simp [Lin.pthreadCreate, htmp, haddr]
  have hnodes : (Lin.pthreadCreate s).nodes = s.nodes := rfl
  constructor
  · intro other hother hlt
    rw [hthreads]
    rcases Nat.lt_or_ge other.addr bound with hold | hnew
    · rcases h.covered other hother hold with hcounted | ⟨thread, hin, hthread⟩
      · exact .inl hcounted
      · exact .inr ⟨thread, List.mem_append_left _ hin, hthread⟩
    · right
      refine ⟨⟨bound, .start⟩, by simp, ?_, by simp⟩
      simp only
      omega
  · intro thread hin filePath hpc
    rw [hthreads, List.mem_append, List.mem_singleton] at hin
    rcases hin with hin | rfl
    · exact h.loaded thread hin filePath hpc
    · cases hpc
  · intro thread hin
    rw [hthreads, List.mem_append, List.mem_singleton] at hin
    rcases hin with hin | rfl
    · exact h.placed thread hin
    · refine ⟨node, ?_, haddr⟩
      rw [hnodes]
      simp [State.nodes, htmp]
  · exact h.older
  · exact h.apart

theorem insertSorted_nodes (s : State) (node : Node) :
    node ∈ (insertSorted s).nodes ↔ node ∈ s.nodes := by
  cases htmp : s.tmpNode with
  | none => simp [insertSorted, htmp]
  | some new =>
      have hperm : (LevelList.insert Node.level new s.list).Perm (new :: s.list) :=
        LevelList.insert_perm new s.list
      simpa [insertSorted, State.nodes, htmp] using hperm.mem_iff (a := node)

theorem Tracked.insertSorted {bound : Nat} {s : State} (h : Tracked fs keyword bound s) :
    Tracked fs keyword bound (insertSorted s) := by
  apply h.of_nodes (insertSorted_nodes s)
  · unfold Lin.insertSorted
    split <;> rfl
  · unfold Lin.insertSorted
    split <;> rfl

/-- What every visit does to the list, in both modes. -/
structure Visited (level : Nat) (path : Path) (s t : State) : Prop where
  list : t.list.map (Node.setSearch 0) =
    LevelList.insert Node.level ⟨s.size, path, level, 1, 0⟩ (s.list.map (Node.setSearch 0))
  idle : t.tmpNode = none
  size : t.size = s.size + 1

theorem visitPar_frame (fs : FileSystem) (keyword : Path) (level : Nat) (path : Path)
    (w : World State Nat) :
    frame (visitPar fs keyword level path w).state =
      frame (insertSorted (addTID w.state.threads.length
        (pthreadCreate (createNode path level 1 w.state)))) := by
  unfold visitPar
  rw [visible_insertSorted.act]
  apply visible_insertSorted.congr
  rw [(visible_addTID _).act]
  apply (visible_addTID _).congr
  rw [visible_pthreadCreate.act]
  apply visible_pthreadCreate.congr
  exact (visible_createNode path level 1).act w

theorem visitPar_visited (fs : FileSystem) (keyword : Path) (level : Nat) (path : Path)
    (w : World State Nat) :
    Visited level path w.state (visitPar fs keyword level path w).state ∧
      (visitPar fs keyword level path w).state.threads.length = w.state.threads.length + 1 ∧
      (visitPar fs keyword level path w).state.tidList =
        w.state.threads.length :: w.state.tidList := by
  have halike := alike_of_frame (visitPar_frame fs keyword level path w)
  refine ⟨⟨?_, halike.idle rfl, halike.size⟩, ?_, halike.tids⟩
  · rw [halike.list]
    exact insert_setSearch _ _
  · rw [halike.length]
    simp [insertSorted, addTID, pthreadCreate, createNode]

/-- The node of a visit while it is not in the list. -/
theorem createNode_tmpNode (fs : FileSystem) (keyword : Path) (level : Nat) (path : Path)
    (w : World State Nat) :
    ∃ node, (tick (makeThread fs keyword)
      (act (makeThread fs keyword) (createNode path level 1) w)).state.tmpNode = some node ∧
      node.addr = w.state.size := by
  have hframe := (tick_frame fs keyword
    (act (makeThread fs keyword) (createNode path level 1) w)).trans
      ((visible_createNode path level 1).act w)
  obtain ⟨node, htmp, hnode⟩ := Option.map_eq_some_iff.mp (alike_of_frame hframe).tmpNode
  exact ⟨node, htmp, congrArg Node.addr hnode⟩

theorem tracked_create {w : World State Nat} (h : Tracked fs keyword w.state.size w.state)
    (hidle : w.state.tmpNode = none) (level : Nat) (path : Path) :
    Tracked fs keyword w.state.size
      (act (makeThread fs keyword) (createNode path level 1) w).state := by
  have halike := alike_of_frame (tick_frame fs keyword w)
  have htracked := h.tick
  rw [← halike.size] at htracked ⊢
  exact htracked.createNode (halike.idle hidle) path level 1

theorem tracked_pthreadCreate {w : World State Nat}
    (h : Tracked fs keyword w.state.size w.state) (hidle : w.state.tmpNode = none)
    (level : Nat) (path : Path) :
    Tracked fs keyword (w.state.size + 1)
      (act (makeThread fs keyword) pthreadCreate
        (act (makeThread fs keyword) (createNode path level 1) w)).state := by
  obtain ⟨node, htmp, haddr⟩ := createNode_tmpNode fs keyword level path w
  exact (tracked_create h hidle level path).tick.pthreadCreate htmp haddr

theorem tracked_addTID {w : World State Nat} (h : Tracked fs keyword w.state.size w.state)
    (hidle : w.state.tmpNode = none) (level : Nat) (path : Path) (tid : Nat) :
    Tracked fs keyword (w.state.size + 1)
      (act (makeThread fs keyword) (addTID tid)
        (act (makeThread fs keyword) pthreadCreate
          (act (makeThread fs keyword) (createNode path level 1) w))).state := by
  apply (tracked_pthreadCreate h hidle level path).tick.of_nodes
  · exact fun _ => Iff.rfl
  · rfl
  · rfl

theorem visitPar_tracked {w : World State Nat} (h : Tracked fs keyword w.state.size w.state)
    (hidle : w.state.tmpNode = none) (level : Nat) (path : Path) :
    Tracked fs keyword (visitPar fs keyword level path w).state.size
      (visitPar fs keyword level path w).state := by
  rw [(visitPar_visited fs keyword level path w).1.size]
  exact (tracked_addTID h hidle level path w.state.threads.length).tick.insertSorted

/-- How far a worker is. -/
def Pc.steps : Pc → Nat
  | .start => 0
  | .searching _ => 1
  | .done => 2

/-- How far the worker is that was created first. -/
def progress (s : State) : Nat := (s.threads.head?).elim 0 fun thread => thread.pc.steps

theorem makeThread_head {tid : Nat} (hne : tid ≠ 0) (s : State) :
    (makeThread fs keyword s tid).threads.head? = s.threads.head? := by
  rcases makeThread_cases s tid with hnone | ⟨arg, node, -, -, -, hread⟩ |
    ⟨arg, filePath, -, hstore⟩
  · rw [hnone]
  · rw [hread, List.head?_eq_getElem?, List.head?_eq_getElem?, List.getElem?_set_ne hne]
  · rw [hstore, List.head?_eq_getElem?, List.head?_eq_getElem?, List.getElem?_set_ne hne]

theorem makeThread_length (s : State) (tid : Nat) :
    (makeThread fs keyword s tid).threads.length = s.threads.length :=
  (alike_of_frame (makeThread_frame fs keyword s tid)).length

/-- A worker that is called on makes its next step, if it has one. -/
theorem makeThread_pc {bound : Nat} {s : State} (h : Tracked fs keyword bound s) {tid : Nat}
    {thread : Thread} (hthread : s.threads[tid]? = some thread) :
    ∃ pc, (makeThread fs keyword s tid).threads[tid]? = some ⟨thread.arg, pc⟩ ∧
      pc.steps = min 2 (thread.pc.steps + 1) := by
  have hlt := (List.getElem?_eq_some_iff.mp hthread).1
  obtain ⟨arg, pc⟩ := thread
  cases pc with
  | start =>
      obtain ⟨node, hnode, haddr⟩ := h.placed _ (List.mem_of_getElem? hthread)
      have hfound : (s.nodes.find? fun node => node.addr = arg).isSome := by
        rw [List.find?_isSome]
        exact ⟨node, hnode, by simpa using haddr⟩
      obtain ⟨found, hfound⟩ := Option.isSome_iff_exists.mp hfound
      refine ⟨.searching found.path, ?_, rfl⟩
      simp only [makeThread, hthread, hfound]
      exact List.getElem?_set_self hlt
  | searching filePath =>
      refine ⟨.done, ?_, rfl⟩
      simp only [makeThread, hthread]
      exact List.getElem?_set_self hlt
  | done =>
      refine ⟨.done, ?_, rfl⟩
      simp only [makeThread, hthread]

theorem Pc.steps_eq_two {pc : Pc} : pc.steps = 2 ↔ pc = .done := by
  cases pc <;> simp [Pc.steps]

/-- Since the first worker was created the main thread has made `k` steps, and
these are the events before them. -/
structure Elapsed (schedule : List (List Nat)) (k : Nat) (w : World State Nat) : Prop where
  ahead : w.schedule = schedule.drop k
  begun : w.state.threads ≠ []
  progress : progress w.state = min 2 ((schedule.take k).flatten.count 0)

/-- The first worker makes a step whenever its number comes up. -/
theorem foldl_progress {bound : Nat} (events : List Nat) {s : State}
    (h : Tracked fs keyword bound s) (hbegun : s.threads ≠ []) :
    progress (events.foldl (makeThread fs keyword) s) = min 2 (progress s + events.count 0) := by
  induction events generalizing s with
  | nil =>
      obtain ⟨first, rest, hthreads⟩ := List.exists_cons_of_ne_nil hbegun
      simp only [progress, hthreads, List.head?_cons, Option.elim_some, List.foldl_nil,
        List.count_nil, Nat.add_zero]
      cases first.pc <;> simp [Pc.steps]
  | cons tid events ih =>
      have hbegun' : (makeThread fs keyword s tid).threads ≠ [] := by
        rw [← List.length_pos_iff, makeThread_length, List.length_pos_iff]
        exact hbegun
      rw [List.foldl_cons, ih (h.makeThread tid) hbegun', List.count_cons]
      rcases eq_or_ne tid 0 with rfl | hne
      · obtain ⟨first, rest, hthreads⟩ := List.exists_cons_of_ne_nil hbegun
        have hfirst : s.threads[0]? = some first := by simp [hthreads]
        obtain ⟨pc, hnext, hsteps⟩ := makeThread_pc h hfirst
        have hprogress : progress (makeThread fs keyword s 0) = pc.steps := by
          simp [progress, List.head?_eq_getElem?, hnext]
        have hbefore : progress s = first.pc.steps := by simp [progress, hthreads]
        rw [hprogress, hbefore, hsteps]
        simp only [beq_self_eq_true, if_true]
        omega
      · have hsame : progress (makeThread fs keyword s tid) = progress s := by
          simp only [progress, makeThread_head hne]
        simp [hsame, hne]

theorem Elapsed.tick {bound k : Nat} {schedule : List (List Nat)} {w : World State Nat}
    (h : Elapsed schedule k w) (htracked : Tracked fs keyword bound w.state) :
    Elapsed schedule (k + 1) (tick (makeThread fs keyword) w) := by
  have hbegun : (Interference.tick (makeThread fs keyword) w).state.threads ≠ [] := by
    rw [← List.length_pos_iff, (alike_of_frame (tick_frame fs keyword w)).length,
      List.length_pos_iff]
    exact h.begun
  refine ⟨?_, hbegun, ?_⟩
  · rw [tick_schedule, h.ahead, List.drop_drop]
  · rw [List.take_add_one, List.flatten_append, List.count_append]
    unfold Interference.tick
    split
    · rename_i hend
      have hlength : schedule.length ≤ k := by
        rw [← List.drop_eq_nil_iff, ← h.ahead]
        exact hend
      rw [List.getElem?_eq_none hlength, h.progress]
      simp
    · rename_i now later hnow
      have hget : schedule[k]? = some now := by
        rw [← List.head?_drop, ← h.ahead, hnow]
        rfl
      rw [hget, foldl_progress now htracked h.begun, h.progress]
      simp only [Option.toList_some, List.flatten_singleton]
      omega

/-- A step of the main thread that leaves the first worker alone. -/
theorem Elapsed.act {bound k : Nat} {schedule : List (List Nat)} {w : World State Nat}
    (h : Elapsed schedule k w) (htracked : Tracked fs keyword bound w.state) {g : State → State}
    (hg : ∀ s, s.threads ≠ [] → (g s).threads.head? = s.threads.head?) :
    Elapsed schedule (k + 1) (act (makeThread fs keyword) g w) := by
  have htick := h.tick htracked
  have hhead := hg _ htick.begun
  refine ⟨htick.ahead, ?_, ?_⟩
  · intro hnil
    rw [Interference.act] at hnil
    rw [hnil] at hhead
    exact htick.begun (List.head?_eq_none_iff.mp hhead.symm)
  · rw [← htick.progress]
    simp only [Interference.act, Lin.progress, hhead]

theorem insertSorted_threads (s : State) : (insertSorted s).threads = s.threads := by
  unfold insertSorted
  split <;> rfl

/-- Four steps for each entry. -/
theorem visitPar_elapsed {k : Nat} {schedule : List (List Nat)} {w : World State Nat}
    (h : Tracked fs keyword w.state.size w.state) (hidle : w.state.tmpNode = none)
    (helapsed : Elapsed schedule k w) (level : Nat) (path : Path) :
    Elapsed schedule (k + 4) (visitPar fs keyword level path w) := by
  have hcreated := helapsed.act h (g := createNode path level 1) fun s _ => rfl
  have hstarted := hcreated.act (tracked_create h hidle level path) (g := pthreadCreate) (by
    intro s hs
    obtain ⟨first, rest, hthreads⟩ := List.exists_cons_of_ne_nil hs
    simp [pthreadCreate, hthreads])
  have hadded := hstarted.act (tracked_pthreadCreate h hidle level path)
    (g := addTID w.state.threads.length) fun s _ => rfl
  exact hadded.act (tracked_addTID h hidle level path w.state.threads.length)
    fun s _ => congrArg List.head? (insertSorted_threads s)

/-- The first entry: its worker exists after two of the four steps. -/
theorem visitPar_begins {w : World State Nat} (h : Tracked fs keyword w.state.size w.state)
    (hidle : w.state.tmpNode = none) (hnone : w.state.threads = []) (level : Nat) (path : Path) :
    Elapsed (w.schedule.drop 2) 2 (visitPar fs keyword level path w) := by
  have hthreads : (tick (makeThread fs keyword)
      (act (makeThread fs keyword) (createNode path level 1) w)).state.threads = [] := by
    have hframe := (tick_frame fs keyword
      (act (makeThread fs keyword) (createNode path level 1) w)).trans
        ((visible_createNode path level 1).act w)
    rw [← List.length_eq_zero_iff, (alike_of_frame hframe).length]
    simp [createNode, hnone]
  obtain ⟨node, htmp, -⟩ := createNode_tmpNode fs keyword level path w
  have hfirst : (act (makeThread fs keyword) pthreadCreate
      (act (makeThread fs keyword) (createNode path level 1) w)).state.threads =
        [⟨node.addr, .start⟩] := by
    rw [Interference.act, pthreadCreate, hthreads, htmp]
    rfl
  have hstarted : Elapsed (w.schedule.drop 2) 0 (act (makeThread fs keyword) pthreadCreate
      (act (makeThread fs keyword) (createNode path level 1) w)) := by
    constructor
    · simp only [act, tick_schedule, List.drop_drop]
    · rw [hfirst]
      exact List.cons_ne_nil _ _
    · rw [progress, hfirst]
      rfl
  have hadded := hstarted.act (tracked_pthreadCreate h hidle level path)
    (g := addTID w.state.threads.length) fun s _ => rfl
  exact hadded.act (tracked_addTID h hidle level path w.state.threads.length)
    fun s _ => congrArg List.head? (insertSorted_threads s)

def DoneAt (tid : Nat) (s : State) : Prop := ∃ arg, s.threads[tid]? = some ⟨arg, .done⟩

/-- A worker that has finished stays finished. -/
theorem DoneAt.makeThread {tid : Nat} {s : State} (h : DoneAt tid s) (other : Nat) :
    DoneAt tid (makeThread fs keyword s other) := by
  obtain ⟨arg, hdone⟩ := h
  rcases eq_or_ne other tid with rfl | hne
  · refine ⟨arg, ?_⟩
    simp only [Lin.makeThread, hdone]
  · refine ⟨arg, ?_⟩
    rcases makeThread_cases s other with hnone | ⟨_, _, -, -, -, hread⟩ | ⟨_, _, -, hstore⟩
    · rw [hnone]
      exact hdone
    · rw [hread, List.getElem?_set_ne hne]
      exact hdone
    · rw [hstore, List.getElem?_set_ne hne]
      exact hdone

theorem pthreadJoin_done {bound tid : Nat} {s : State} (h : Tracked fs keyword bound s)
    (hlt : tid < s.threads.length) : DoneAt tid (pthreadJoin fs keyword tid s) := by
  have hthread : s.threads[tid]? = some s.threads[tid] := List.getElem?_eq_getElem hlt
  obtain ⟨pc, hnext, hsteps⟩ := makeThread_pc h hthread
  obtain ⟨last, hlast, hsteps'⟩ := makeThread_pc (h.makeThread tid) hnext
  have hdone : last = .done := by
    apply Pc.steps_eq_two.mp
    simp only at hsteps'
    omega
  exact ⟨_, hdone ▸ hlast⟩

theorem joinLoop_cons (tid last : Nat) (tids : List Nat) (w : World State Nat) :
    joinLoop fs keyword (tid :: (tids ++ [last])) w =
      joinLoop fs keyword (tids ++ [last])
        (act (makeThread fs keyword) (pthreadJoin fs keyword tid) w) := by
  cases tids <;> rfl

/-- The loop joins every worker but the one at the end of the list. -/
theorem joinLoop_spec {bound : Nat} (tids : List Nat) (last : Nat) {w : World State Nat}
    (h : Tracked fs keyword bound w.state)
    (hlt : ∀ tid ∈ tids, tid < w.state.threads.length) :
    ∃ w', joinLoop fs keyword (tids ++ [last]) w = some w' ∧
      frame w'.state = frame w.state ∧ Tracked fs keyword bound w'.state ∧
      (∀ tid, tid ∈ tids ∨ DoneAt tid w.state → DoneAt tid w'.state) ∧
      (0 ∉ tids → ∀ schedule k, Elapsed schedule k w → Elapsed schedule (k + tids.length) w') := by
  induction tids generalizing w with
  | nil => exact ⟨w, rfl, rfl, h, by simp, fun _ _ _ helapsed => helapsed⟩
  | cons tid tids ih =>
      have hjoined : Tracked fs keyword bound
          (act (makeThread fs keyword) (pthreadJoin fs keyword tid) w).state :=
        (h.tick.makeThread tid).makeThread tid
      have hframe : frame (act (makeThread fs keyword) (pthreadJoin fs keyword tid) w).state =
          frame w.state :=
        (makeThread_frame fs keyword _ tid).trans
          ((makeThread_frame fs keyword _ tid).trans (tick_frame fs keyword w))
      have hlength := (alike_of_frame hframe).length
      obtain ⟨w', hloop, hframe', htracked, hdone, helapsed⟩ := ih hjoined (by
        intro other hother
        rw [hlength]
        exact hlt other (List.mem_cons_of_mem _ hother))
      refine ⟨w', ?_, hframe'.trans hframe, htracked, ?_, ?_⟩
      · rw [List.cons_append, joinLoop_cons]
        exact hloop
      · intro other hother
        apply hdone
        rcases hother with hother | hother
        · rcases List.mem_cons.mp hother with rfl | hother
          · right
            apply pthreadJoin_done h.tick
            rw [(alike_of_frame (tick_frame fs keyword w)).length]
            exact hlt other List.mem_cons_self
          · exact .inl hother
        · right
          have htick : DoneAt other (tick (makeThread fs keyword) w).state :=
            tick_invariant (DoneAt other) (fun _ event hs => hs.makeThread event) hother
          exact (htick.makeThread tid).makeThread tid
      · intro hzero schedule k hbefore
        rw [List.mem_cons, not_or] at hzero
        have hstep := hbefore.act h (g := pthreadJoin fs keyword tid) (by
          intro s _
          unfold pthreadJoin
          rw [makeThread_head (Ne.symm hzero.1), makeThread_head (Ne.symm hzero.1)])
        have hrest := helapsed hzero.2 schedule (k + 1) hstep
        rw [List.length_cons, ← Nat.add_assoc, Nat.add_right_comm]
        exact hrest

end

end Cse420.Lister.Lin
