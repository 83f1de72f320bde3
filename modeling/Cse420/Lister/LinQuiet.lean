import Cse420.Lister.LinSteps

/-!
Lin's lister once no worker is left to run. Then nothing depends on the schedule
any more: the sort is bubble sort on the lines, and the file is a function of
the list.
-/

namespace Cse420.Lister.Lin

open Interference

section

variable {fs : FileSystem} {keyword : Path}

/-- Every worker has finished. -/
def Quiet (s : State) : Prop := ∀ thread ∈ s.threads, thread.pc = .done

theorem makeThread_quiet {s : State} (h : Quiet s) (tid : Nat) :
    makeThread fs keyword s tid = s := by
  have hpc : ∀ {arg : Nat} {pc : Pc}, s.threads[tid]? = some ⟨arg, pc⟩ → pc = .done :=
    fun hthread => h _ (List.mem_of_getElem? hthread)
  rcases makeThread_cases s tid with hnone | ⟨arg, node, hthread, -⟩ | ⟨arg, filePath, hthread, -⟩
  · exact hnone
  · cases hpc hthread
  · cases hpc hthread

theorem tick_quiet (fs : FileSystem) (keyword : Path) {w : World State Nat} (h : Quiet w.state) :
    (tick (makeThread fs keyword) w).state = w.state := by
  apply tick_invariant (fun s => s = w.state) _ rfl
  rintro s tid rfl
  exact makeThread_quiet h tid

theorem act_quiet (fs : FileSystem) (keyword : Path) {w : World State Nat} (h : Quiet w.state)
    (g : State → State) : (act (makeThread fs keyword) g w).state = g w.state :=
  congrArg g (tick_quiet fs keyword h)

theorem quiet_act (fs : FileSystem) (keyword : Path) {w : World State Nat} (h : Quiet w.state)
    {g : State → State} (hg : ∀ s, (g s).threads = s.threads) :
    Quiet (act (makeThread fs keyword) g w).state := by
  unfold Quiet
  rw [act_quiet fs keyword h, hg]
  exact h

/-- Without workers a visit inserts a node that is counted. -/
theorem visitSeq_quiet (fs : FileSystem) (keyword : Path) {w : World State Nat}
    (h : Quiet w.state) (level : Nat) (path : Path) :
    (visitSeq fs keyword level path w).state =
      { w.state with
        list := LevelList.insert Node.level
          ⟨w.state.size, path, level, 1, keywordSearch fs path keyword⟩ w.state.list
        tmpNode := none
        size := w.state.size + 1 } := by
  have hcreated := quiet_act fs keyword h (g := createNode path level 1) fun _ => rfl
  have hcounted := quiet_act fs keyword hcreated (g := fun s =>
    { s with tmpNode := s.tmpNode.map (Node.setSearch (keywordSearch fs path keyword)) })
    fun _ => rfl
  unfold visitSeq
  rw [act_quiet fs keyword hcounted, act_quiet fs keyword hcreated, act_quiet fs keyword h]
  rfl

/-- The test of `node_swap`. -/
def Line.later (a b : Line) : Bool := a.level = b.level ∧ 0 < strcmp a.path b.path

theorem Line.later_asymm (a b : Line) (h : a.later b = true) : b.later a = false := by
  simp only [Line.later, decide_eq_true_eq] at h
  simp only [Line.later, decide_eq_false_iff_not]
  rintro ⟨-, hback⟩
  exact strcmp_pos_asymm h.2 hback

theorem line_later_iff (x y : Node) :
    x.line.later y.line = true ↔ x.level = y.level ∧ 0 < strcmp x.path y.path := by
  unfold Line.later
  exact decide_eq_true_iff

theorem modify_middle {α : Type*} (l r : List α) (x : α) (f : α → α) :
    (l ++ x :: r).modify l.length f = l ++ f x :: r := by
  induction l with
  | nil => rfl
  | cons a l ih => simp [ih]

theorem modify_behind {α : Type*} (l r : List α) (x y : α) (f : α → α) :
    (l ++ x :: y :: r).modify (l.length + 1) f = l ++ x :: f y :: r := by
  simpa using modify_middle (l ++ [x]) r y f

/-- The four stores exchange path and search value of two neighbours. -/
theorem exchange_quiet (fs : FileSystem) (keyword : Path) {w : World State Nat}
    (h : Quiet w.state) {l r : List Node} {x y : Node} (hlist : w.state.list = l ++ x :: y :: r) :
    (exchange fs keyword l.length w).state =
      { w.state with list := l ++ { x with path := y.path, search := y.search } ::
        { y with path := x.path, search := x.search } :: r } := by
  have htick := tick_quiet fs keyword h
  unfold exchange
  generalize tick (makeThread fs keyword) w = v at htick
  have hx : v.state.list[l.length]? = some x := by simp [htick, hlist]
  have hy : v.state.list[l.length + 1]? = some y := by simp [htick, hlist]
  simp only [hx, hy]
  have hquiet : Quiet v.state := htick ▸ h
  have hpath := quiet_act fs keyword hquiet
    (g := setNode l.length ({ · with path := y.path })) fun _ => rfl
  have hsearch := quiet_act fs keyword hpath (g := fun s =>
    setNode l.length (Node.setSearch ((s.list[l.length + 1]?).elim 0 Node.search)) s) fun _ => rfl
  have hnext := quiet_act fs keyword hsearch
    (g := setNode (l.length + 1) ({ · with path := x.path })) fun _ => rfl
  rw [act_quiet fs keyword hnext, act_quiet fs keyword hsearch, act_quiet fs keyword hpath,
    act_quiet fs keyword hquiet]
  simp [setNode, htick, hlist, modify_middle, modify_behind, Node.setSearch]

/-- One pass of the sort. All numbers are still one, so that exchanging path and
search value exchanges the lines. -/
theorem swapPass_quiet (fs : FileSystem) (keyword : Path) (n : Nat) (before behind : List Line)
    (a : Line) (swap : Bool) (w : World State Nat) (h : Quiet w.state) (hn : behind.length < n)
    (hone : ∀ line ∈ a :: behind, line.i = 1)
    (hlines : w.state.list.map Node.line = before ++ a :: behind) :
    let after := swapPass fs keyword n before.length swap w
    after.1 = (swap || (BubbleSort.carry Line.later a behind).1) ∧
      after.2.state.list.map Node.line =
        before ++ (BubbleSort.carry Line.later a behind).2 ∧
      Quiet after.2.state := by
  induction n generalizing before behind a swap w with
  | zero => omega
  | succ n ih =>
      have htick := tick_quiet fs keyword h
      unfold swapPass
      generalize tick (makeThread fs keyword) w = v at htick
      rw [← htick] at h hlines
      cases behind with
      | nil =>
          have hlength : v.state.list.length = before.length + 1 := by
            simpa using congrArg List.length hlines
          have hend : v.state.list[before.length + 1]? = none := by
            rw [List.getElem?_eq_none_iff]
            omega
          simp only [hend, BubbleSort.carry, Bool.or_false]
          cases v.state.list[before.length]? <;> exact ⟨rfl, hlines, h⟩
      | cons b behind =>
          obtain ⟨l, x, y, r, hlist, rfl, rfl, rfl, rfl⟩ := BubbleSort.map_eq_neighbours hlines
          have hx : v.state.list[l.length]? = some x := by simp [hlist]
          have hy : v.state.list[l.length + 1]? = some y := by simp [hlist]
          simp only [List.length_cons] at hn
          rw [List.forall_mem_cons, List.forall_mem_cons] at hone
          obtain ⟨honex, honey, hone⟩ := hone
          simp only [List.length_map, hx, hy]
          split
          · rename_i hgt
            have hlater : x.line.later y.line = true := (line_later_iff x y).mpr hgt
            have hstate := exchange_quiet fs keyword h hlist
            have hswapped : (exchange fs keyword l.length v).state.list.map Node.line =
                (l.map Node.line ++ [y.line]) ++ x.line :: r.map Node.line := by
              have hi : x.i = y.i := honex.trans honey.symm
              simp [hstate, Node.line, hgt.1, hi]
            have hrest := ih (l.map Node.line ++ [y.line]) (r.map Node.line) x.line true
              (exchange fs keyword l.length v) (by rw [hstate]; exact h) (by simpa using hn)
              (List.forall_mem_cons.mpr ⟨honex, hone⟩) hswapped
            simp only [List.length_append, List.length_map, List.length_singleton, Bool.true_or,
              List.append_assoc, List.singleton_append] at hrest
            simp only [BubbleSort.carry, hlater, if_true, Bool.or_true]
            exact hrest
          · rename_i hle
            have hlater : x.line.later y.line = false :=
              Bool.eq_false_iff.mpr fun hgt => hle ((line_later_iff x y).mp hgt)
            have hrest := ih (l.map Node.line ++ [x.line]) (r.map Node.line) y.line swap v h
              (by simpa using hn) (List.forall_mem_cons.mpr ⟨honey, hone⟩) (by simp [hlines])
            simp only [List.length_append, List.length_map, List.length_singleton,
              List.append_assoc, List.singleton_append] at hrest
            simp only [BubbleSort.carry, hlater, Bool.false_eq_true, if_false]
            exact hrest

theorem swapPass_whole (fs : FileSystem) (keyword : Path) {w : World State Nat}
    (h : Quiet w.state) (hone : ∀ line ∈ w.state.list.map Node.line, line.i = 1) :
    let after := swapPass fs keyword w.state.list.length 0 false w
    after.1 = (BubbleSort.pass Line.later (w.state.list.map Node.line)).1 ∧
      after.2.state.list.map Node.line =
        (BubbleSort.pass Line.later (w.state.list.map Node.line)).2 ∧
      Quiet after.2.state := by
  cases hlines : w.state.list.map Node.line with
  | nil =>
      rw [List.map_eq_nil_iff.mp hlines]
      exact ⟨rfl, hlines, h⟩
  | cons a behind =>
      rw [hlines] at hone
      have hlength : behind.length < w.state.list.length := by
        have := congrArg List.length hlines
        simp only [List.length_map, List.length_cons] at this
        omega
      exact swapPass_quiet fs keyword w.state.list.length [] behind a false w h hlength hone hlines

/-- `node_swap` sorts the lines as bubble sort does. -/
theorem nodeSwap_quiet (fs : FileSystem) (keyword : Path) (fuel : Nat) {w : World State Nat}
    (h : Quiet w.state) (hone : ∀ line ∈ w.state.list.map Node.line, line.i = 1)
    {out : List Line}
    (hsort : BubbleSort.sort Line.later fuel (w.state.list.map Node.line) = some out) :
    ∃ w', nodeSwap fs keyword fuel w = some w' ∧ w'.state.list.map Node.line = out ∧
      Quiet w'.state := by
  have hloop : ∀ fuel v, nodeSwap fs keyword (fuel + 1) v =
      if (swapPass fs keyword v.state.list.length 0 false v).1 then
        nodeSwap fs keyword fuel (swapPass fs keyword v.state.list.length 0 false v).2
      else some (swapPass fs keyword v.state.list.length 0 false v).2 := fun _ _ => rfl
  have hpass : ∀ v : World State Nat,
      (Quiet v.state ∧ ∀ line ∈ v.state.list.map Node.line, line.i = 1) →
      (swapPass fs keyword v.state.list.length 0 false v).1 =
          (BubbleSort.pass Line.later (v.state.list.map Node.line)).1 ∧
        (swapPass fs keyword v.state.list.length 0 false v).2.state.list.map Node.line =
          (BubbleSort.pass Line.later (v.state.list.map Node.line)).2 ∧
        Quiet (swapPass fs keyword v.state.list.length 0 false v).2.state ∧
        ∀ line ∈ (swapPass fs keyword v.state.list.length 0 false v).2.state.list.map Node.line,
          line.i = 1 := by
    rintro v ⟨hquiet, hone⟩
    obtain ⟨hswap, hlines, hquiet'⟩ := swapPass_whole fs keyword hquiet hone
    refine ⟨hswap, hlines, hquiet', ?_⟩
    intro line hline
    rw [hlines] at hline
    exact hone line ((BubbleSort.pass_perm _).mem_iff.mp hline)
  obtain ⟨w', hswap, hout, hquiet, -⟩ := BubbleSort.sort_of_pass hloop
    (fun v => v.state.list.map Node.line) _ hpass ⟨h, hone⟩ hsort
  exact ⟨w', hswap, hout, hquiet⟩

/-- `sub_level` on the lines, from a line in a level with `n` numbers so far. -/
def numberedFrom (n : Nat) (a : Line) : List Line → List Line
  | [] => [a]
  | b :: behind =>
      a :: if b.level = a.level then numberedFrom (n + 1) { b with i := n + 1 } behind
        else numberedFrom 1 b behind

theorem subLevelLoop_quiet (fs : FileSystem) (keyword : Path) (k n : Nat)
    (behind before : List Line) (a : Line) (w : World State Nat) (h : Quiet w.state)
    (hk : behind.length < k) (hlines : w.state.list.map Node.line = before ++ a :: behind) :
    (subLevelLoop fs keyword k before.length n w).state.list.map Node.line =
        before ++ numberedFrom n a behind ∧
      Quiet (subLevelLoop fs keyword k before.length n w).state := by
  induction k generalizing n behind before a w with
  | zero => omega
  | succ k ih =>
      have htick := tick_quiet fs keyword h
      unfold subLevelLoop
      generalize tick (makeThread fs keyword) w = v at htick
      rw [← htick] at h hlines
      cases behind with
      | nil =>
          have hlength : v.state.list.length = before.length + 1 := by
            simpa using congrArg List.length hlines
          have hend : v.state.list[before.length + 1]? = none := by
            rw [List.getElem?_eq_none_iff]
            omega
          simp only [hend, numberedFrom]
          cases v.state.list[before.length]? <;> exact ⟨hlines, h⟩
      | cons b behind =>
          obtain ⟨l, x, y, r, hlist, rfl, rfl, rfl, rfl⟩ := BubbleSort.map_eq_neighbours hlines
          have hx : v.state.list[l.length]? = some x := by simp [hlist]
          have hy : v.state.list[l.length + 1]? = some y := by simp [hlist]
          simp only [List.length_cons, List.length_map] at hk
          simp only [List.length_map, hx, hy]
          split
          · rename_i hsame
            have hlevel : y.line.level = x.line.level := hsame
            have hrest := ih (n + 1) (r.map Node.line) (l.map Node.line ++ [x.line])
              { y.line with i := n + 1 }
              { v with state := setNode (l.length + 1) ({ · with i := n + 1 }) v.state } h
              (by simpa using hk) (by simp [setNode, hlist, modify_behind, Node.line])
            simp only [List.length_append, List.length_map, List.length_singleton,
              List.append_assoc, List.singleton_append] at hrest
            rw [numberedFrom, if_pos hlevel]
            exact hrest
          · rename_i hother
            have hlevel : ¬ y.line.level = x.line.level := hother
            have hrest := ih 1 (r.map Node.line) (l.map Node.line ++ [x.line]) y.line v h
              (by simpa using hk) (by simp [hlines])
            simp only [List.length_append, List.length_map, List.length_singleton,
              List.append_assoc, List.singleton_append] at hrest
            rw [numberedFrom, if_neg hlevel]
            exact hrest

theorem printLoop_quiet (fs : FileSystem) (keyword : Path) (n i : Nat) (w : World State Nat)
    (h : Quiet w.state) (hn : i + n = w.state.list.length) :
    printLoop fs keyword n i w = (w.state.list.drop i).map Node.line := by
  induction n generalizing i w with
  | zero =>
      rw [List.drop_eq_nil_of_le (by omega)]
      rfl
  | succ n ih =>
      have htick := tick_quiet fs keyword h
      unfold printLoop
      generalize tick (makeThread fs keyword) w = v at htick
      rw [← htick] at h hn ⊢
      have hlt : i < v.state.list.length := by omega
      simp only [List.getElem?_eq_getElem hlt]
      rw [ih (i + 1) v h (by omega), List.drop_eq_getElem_cons hlt]
      rfl

/-- All lines with their numbers. -/
def numberedLines : List Line → List Line
  | [] => []
  | a :: behind => numberedFrom 1 a behind

/-- From here on the file depends on nothing but the list. -/
theorem afterSwap_quiet {fuel : Nat} {w : World State Nat} (h : Quiet w.state)
    (hone : ∀ line ∈ w.state.list.map Node.line, line.i = 1) {out : List Line}
    (hsort : BubbleSort.sort Line.later fuel (w.state.list.map Node.line) = some out) :
    afterSwap fs keyword fuel w = some (numberedLines out) := by
  obtain ⟨v, hswap, hlines, hquiet⟩ := nodeSwap_quiet fs keyword fuel h hone hsort
  have hsub : (subLevel fs keyword v).state.list.map Node.line = numberedLines out ∧
      Quiet (subLevel fs keyword v).state := by
    unfold subLevel
    cases out with
    | nil =>
        rw [List.map_eq_nil_iff.mp hlines]
        exact ⟨hlines, hquiet⟩
    | cons a behind =>
        have hlength : behind.length < v.state.list.length := by
          have := congrArg List.length hlines
          simp only [List.length_map, List.length_cons] at this
          omega
        exact subLevelLoop_quiet fs keyword v.state.list.length 1 behind [] a v hquiet hlength
          hlines
  unfold afterSwap
  simp only [hswap, Option.bind_eq_bind, Option.bind_some]
  rw [printList, printLoop_quiet fs keyword _ 0 _ hsub.2 (Nat.zero_add _), List.drop_zero, hsub.1]
  rfl

end

end Cse420.Lister.Lin
