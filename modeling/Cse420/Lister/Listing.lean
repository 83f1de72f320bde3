import Cse420.Lister.Stages

/-!
The file that Project2's lister writes. It is determined by the tree and the
keyword: neither the order of `readdir`, nor the mode, nor the moments at which
the workers come to their ends show in it.
-/

namespace Cse420.Lister.Project2

open CMemory Interference

/-- What the file of a tree has to hold. -/
structure Listing (fs : FileSystem) (keyword root : Path) (out : List Record) : Prop where
  complete : ∀ level path, (∃ r ∈ out, r.level = level ∧ r.path = path) ↔
    ∃ names, Entry fs.opendir root names ∧ level = 1 + names.length ∧
      path = names.foldl join root
  once : (out.map Record.path).Nodup
  ordered : out.Pairwise fun a b =>
    a.level < b.level ∨ (a.level = b.level ∧ strcmp a.path b.path < 0)
  numbered : ∀ level, (out.filter (·.level = level)).map Record.num =
    List.range' 1 (out.countP (·.level = level))
  counted : ∀ r ∈ out, r.count = some (searchTest fs r.path keyword)

section

variable {fs : FileSystem} {keyword root : Path}

theorem placed_perm (visits : List (Nat × Path)) (keys : List Key) :
    (placed visits keys).Perm (visits.map (fun v => ⟨v.1, 1, v.2⟩) ++ keys) := by
  induction visits generalizing keys with
  | nil => exact List.Perm.refl _
  | cons v rest ih =>
      refine (ih _).trans ?_
      exact ((LevelList.insert_perm _ _).append_left _).trans List.perm_middle

theorem placed_sorted (visits : List (Nat × Path)) {keys : List Key}
    (h : keys.Pairwise fun a b => a.level ≤ b.level) :
    (placed visits keys).Pairwise fun a b => a.level ≤ b.level := by
  induction visits generalizing keys with
  | nil => exact h
  | cons v rest ih => exact ih (LevelList.insert_sorted _ h)

/-- All keys, numbered level by level. -/
def numberedAll : List Key → List Key
  | [] => []
  | a :: behind => numbered 1 a behind

/-- The list when the walk is over. Its keys are the same in both modes. -/
theorem printDir_spec (keyword : Path) {fuel : Nat} {visited : List (Nat × Path)}
    (runMode : RunMode) (schedule : List (List Nat)) (hopen : (fs.opendir root).isSome)
    (hvisits : visits fs.opendir maxPathSize fuel root 2 = some visited) :
    ∃ w : World State Nat,
      (match runMode with
        | .parallel => printDirPar fs keyword fuel root 1 ⟨⟨[], 0, [], []⟩, schedule⟩
        | .sequential => printDirSeq fs keyword fuel root 1 ⟨⟨[], 0, [], []⟩, schedule⟩) = some w ∧
      w.state.size = visited.length + 1 ∧
      w.state.keys = placed ((1, root) :: visited) [] ∧
      Tracked fs keyword w.state.size w.state ∧
      (runMode = .parallel ∨ w.state.started = []) := by
  have hempty : Tracked fs keyword 0 ⟨[], 0, [], []⟩ := by
    constructor <;> simp
  cases runMode with
  | parallel =>
      obtain ⟨hsize, hkeys, htracked⟩ := visitRoot_spec (w := ⟨⟨[], 0, [], []⟩, schedule⟩)
        hempty hopen
      obtain ⟨hsize', hkeys', htracked'⟩ := visits_tracked
        (fun _ level path h => visitPar_spec h level path) visited htracked
      refine ⟨_, by simp only [printDirPar, walk_eq_visits, hvisits, Option.map_some, if_true],
        ?_, ?_, htracked', .inl rfl⟩
      · rw [hsize', hsize]
        exact Nat.add_comm _ _
      · rw [hkeys', hkeys]
        rfl
  | sequential =>
      obtain ⟨hsize, hkeys, htracked⟩ := visitSeq_spec (w := ⟨⟨[], 0, [], []⟩, schedule⟩)
        hempty 1 root
      obtain ⟨hsize', hkeys', htracked'⟩ := visits_tracked
        (fun _ level path h => visitSeq_spec h level path) visited htracked
      refine ⟨_, by simp only [printDirSeq, walk_eq_visits, hvisits, Option.map_some, if_true],
        ?_, ?_, htracked', .inr ?_⟩
      · rw [hsize', hsize]
        exact Nat.add_comm _ _
      · rw [hkeys', hkeys]
        rfl
      · rw [visits_started, visitSeq_started]

/-- `NumberChildren` trusts the size of the list, which is right. -/
theorem numberChildren_spec {inv : State → Prop} (hinv : Lasting fs keyword inv)
    {w : World State Nat} (h : inv w.state) (hsize : w.state.size = w.state.keys.length)
    (hfirst : ∀ k ∈ w.state.keys, k.num = 1) :
    ∃ w', numberChildren fs keyword w = some w' ∧ w'.state.keys = numberedAll w.state.keys ∧
      inv w'.state := by
  unfold numberChildren
  rw [hsize]
  cases hkeys : w.state.keys with
  | nil => exact ⟨w, rfl, hkeys, h⟩
  | cons a behind =>
      rw [hkeys, List.forall_mem_cons] at hfirst
      obtain ⟨w', hloop, hout, hlast⟩ := numberLoop_spec hinv behind [] a w h hfirst.2 hkeys
      rw [hfirst.1] at hloop hout
      exact ⟨w', hloop, hout, hlast⟩

/-- The list is put in order and numbered as its keys are. -/
theorem ordered_spec {inv : State → Prop} (hinv : Lasting fs keyword inv) {fuel : Nat}
    {visited : List (Nat × Path)} {keys : List Key} {w : World State Nat} (h : inv w.state)
    (hsize : w.state.size = visited.length) (hkeys : w.state.keys = placed visited [])
    (hsort : BubbleSort.sort Key.later fuel (placed visited []) = some keys) :
    ∃ v u, sortHelper fs keyword fuel w = some v ∧ numberChildren fs keyword v = some u ∧
      u.state.keys = numberedAll keys ∧ inv u.state := by
  rw [← hkeys] at hsort
  obtain ⟨v, hv, hsorted, hvsize, hvinv⟩ :=
    sortHelper_spec ((size_lasting w.state.size).and hinv) fuel ⟨rfl, h⟩ hsort
  -- the sort keeps what the numbering relies on
  have hperm : v.state.keys.Perm (visited.map fun v => ⟨v.1, 1, v.2⟩) := by
    rw [hsorted]
    have hplaced := placed_perm visited []
    rw [List.append_nil, ← hkeys] at hplaced
    exact (BubbleSort.sort_perm hsort).trans hplaced
  have hlength : v.state.size = v.state.keys.length := by
    rw [hperm.length_eq, hvsize, hsize, List.length_map]
  have hfirst : ∀ k ∈ v.state.keys, k.num = 1 := by
    intro k hk
    obtain ⟨v, -, rfl⟩ := List.mem_map.mp (hperm.mem_iff.mp hk)
    rfl
  obtain ⟨u, hu, hnumbered, huinv⟩ := numberChildren_spec hinv hvinv hlength hfirst
  rw [hsorted] at hnumbered
  exact ⟨v, u, hv, hu, hnumbered, huinv⟩

/-- The file is a function of the visited paths alone. -/
theorem main_eq {fuel : Nat} {visited : List (Nat × Path)} {keys : List Key}
    (hopen : (fs.opendir root).isSome)
    (hvisits : visits fs.opendir maxPathSize fuel root 2 = some visited)
    (hsort : BubbleSort.sort Key.later fuel (placed ((1, root) :: visited) []) = some keys)
    (runMode : RunMode) (schedule : List (List Nat)) :
    main fs keyword runMode root fuel schedule =
      some ((numberedAll keys).map (Key.record fs keyword)) := by
  obtain ⟨w, hwalk, hsize, hkeys, htracked, hmode⟩ :=
    printDir_spec keyword runMode schedule hopen hvisits
  rw [← List.length_cons] at hsize
  obtain ⟨v, u, hv, hu, hnumbered, hall⟩ :=
    ordered_spec (kept_lasting w.state) (Kept.refl _) hsize hkeys hsort
  have hwrite : fileWriter fs keyword runMode u =
      (numberedAll keys).map (Key.record fs keyword) := by
    unfold fileWriter
    rw [writeLoop_spec runMode u.state.items.length 0 u]
    · rw [hnumbered, List.drop_zero]
    · rw [hall.size]
      exact hall.tracked _ htracked
    · rw [hall.started]
      exact hmode
    · simp [State.keys]
  unfold main
  cases runMode with
  | parallel =>
      simp only at hwalk
      simp only [hwalk, hv, hu, hwrite, Option.bind_eq_bind, Option.bind_some]
      rfl
  | sequential =>
      simp only at hwalk
      simp only [hwalk, hv, hu, hwrite, Option.bind_eq_bind, Option.bind_some]
      rfl

/-- The order of the lines in the file. -/
def Key.before (a b : Key) : Prop :=
  a.level < b.level ∨ (a.level = b.level ∧ strcmp a.path b.path < 0)

/-- What holds between lines with lines in between: the weaker order is transitive. -/
def Key.upTo (a b : Key) : Prop :=
  0 ∉ a.path ∧ 0 ∉ b.path ∧
    (a.level < b.level ∨ (a.level = b.level ∧ strcmp a.path b.path ≤ 0))

instance : Trans Key.upTo Key.upTo Key.upTo where
  trans := by
    rintro a b c ⟨ha, hb, hab⟩ ⟨-, hc, hbc⟩
    refine ⟨ha, hc, ?_⟩
    rcases hab with hab | ⟨hab, hpab⟩
    · left
      rcases hbc with hbc | ⟨hbc, -⟩ <;> omega
    · rcases hbc with hbc | ⟨hbc, hpbc⟩
      · left
        omega
      · exact .inr ⟨hab.trans hbc, strcmp_le_trans ha hb hpab hpbc⟩

/-- The sort leaves the levels where they are, and with the neighbours in order
all lines are in order, since no path holds a zero byte. -/
theorem sort_upTo {fuel : Nat} {l keys : List Key}
    (hsort : BubbleSort.sort Key.later fuel l = some keys)
    (hlevels : l.Pairwise fun a b => a.level ≤ b.level) (hzero : ∀ k ∈ l, 0 ∉ k.path) :
    keys.Pairwise Key.upTo := by
  have hperm : keys.Perm l := BubbleSort.sort_perm hsort
  have hplaces : keys.map Key.level = l.map Key.level := by
    apply BubbleSort.sort_places Key.level _ hsort
    intro a b hab
    simp only [Key.later, Bool.decide_and, Bool.and_eq_true, decide_eq_true_eq] at hab
    exact hab.1
  have hup : keys.Pairwise fun a b => a.level ≤ b.level := by
    rw [← List.pairwise_map (f := Key.level) (R := (· ≤ ·))] at hlevels ⊢
    rw [hplaces]
    exact hlevels
  have hchain : keys.IsChain Key.upTo := by
    rw [List.isChain_iff_getElem]
    intro i hi
    have hle := List.pairwise_iff_getElem.mp hup i (i + 1) (by omega) hi (Nat.lt_succ_self i)
    have hlater := List.isChain_iff_getElem.mp (BubbleSort.sort_chain hsort) i hi
    refine ⟨hzero _ (hperm.mem_iff.mp (List.getElem_mem _)),
      hzero _ (hperm.mem_iff.mp (List.getElem_mem _)), ?_⟩
    rcases Nat.eq_or_lt_of_le hle with heq | hlt
    · right
      refine ⟨heq, ?_⟩
      by_contra hgt
      simp only [Key.later, heq, true_and, decide_eq_false_iff_not] at hlater
      omega
    · exact .inl hlt
  exact List.isChain_iff_pairwise.mp hchain

/-- If besides no two paths are equal, the order is strict. -/
theorem sort_before {fuel : Nat} {l keys : List Key}
    (hsort : BubbleSort.sort Key.later fuel l = some keys)
    (hlevels : l.Pairwise fun a b => a.level ≤ b.level) (hzero : ∀ k ∈ l, 0 ∉ k.path)
    (honce : (l.map Key.path).Nodup) : keys.Pairwise Key.before := by
  have hperm : keys.Perm l := BubbleSort.sort_perm hsort
  have hdiffer : keys.Pairwise fun a b => a.path ≠ b.path :=
    List.pairwise_map.mp ((hperm.map Key.path).nodup_iff.mpr honce)
  refine ((sort_upTo hsort hlevels hzero).and hdiffer).imp ?_
  rintro a b ⟨⟨ha, hb, hab⟩, hne⟩
  rcases hab with hab | ⟨hab, hle⟩
  · exact .inl hab
  · right
    refine ⟨hab, ?_⟩
    have : strcmp a.path b.path ≠ 0 := fun heq => hne (strcmp_eq_zero ha hb heq)
    omega

/-- The key of the entry that the names lead to. -/
def entryKey (root : Path) (names : List (List UInt8)) : Key :=
  ⟨1 + names.length, 1, names.foldl join root⟩

/-- For every tree there is one list of keys in order from which the file is
made, by either mode and under every schedule. -/
theorem main_spec (htree : DirTree fs.opendir maxPathSize root) (hzero : 0 ∉ root) :
    ∃ N keys, keys.Pairwise Key.before ∧ (keys.map Key.path).Nodup ∧
      (∀ k, k ∈ keys ↔ ∃ names, Entry fs.opendir root names ∧ entryKey root names = k) ∧
      ∀ fuel, N ≤ fuel → ∀ keyword runMode schedule,
        main fs keyword runMode root fuel schedule =
          some ((numberedAll keys).map (Key.record fs keyword)) := by
  obtain ⟨below, hnodup, hmem, hvisits⟩ := visits_spec htree
  have hopen : (fs.opendir root).isSome := by
    cases htree with
    | node hopen => simp [hopen]
  have hall : ∀ names, names ∈ [] :: below ↔ Entry fs.opendir root names := by
    intro names
    rw [List.mem_cons, hmem]
    constructor
    · rintro (rfl | ⟨-, hentry⟩)
      · trivial
      · exact hentry
    · intro hentry
      rcases eq_or_ne names [] with hnil | hne
      · exact .inl hnil
      · exact .inr ⟨hne, hentry⟩
  have honce : ([] :: below).Nodup := by
    refine List.nodup_cons.mpr ⟨?_, hnodup⟩
    intro hin
    exact ((hmem []).mp hin).1 rfl
  -- the visits are those of the root and of all that is below it
  have hkeys : ((1, root) :: visitsAt root 2 below).map (fun v => (⟨v.1, 1, v.2⟩ : Key)) =
      ([] :: below).map (entryKey root) := by
    simp only [visitsAt, List.map_cons, List.map_map, List.cons.injEq]
    refine ⟨rfl, List.map_congr_left fun names _ => ?_⟩
    simp only [Function.comp, entryKey, Key.mk.injEq, and_true]
    omega
  have hplaced : (placed ((1, root) :: visitsAt root 2 below) []).Perm
      (([] :: below).map (entryKey root)) := by
    rw [← hkeys]
    simpa using placed_perm ((1, root) :: visitsAt root 2 below) []
  obtain ⟨n, keys, hsort⟩ := BubbleSort.sort_ends Key.later_asymm
    (placed ((1, root) :: visitsAt root 2 below) [])
  have hsorted := hsort n (Nat.le_refl n)
  have hperm : keys.Perm (([] :: below).map (entryKey root)) :=
    (BubbleSort.sort_perm hsorted).trans hplaced
  have hpaths : ((([] :: below).map (entryKey root)).map Key.path).Nodup := by
    rw [List.map_map]
    apply honce.map_on
    intro names hnames others hothers heq
    exact foldl_join_inj (htree.names ((hall names).mp hnames)).1
      (htree.names ((hall others).mp hothers)).1 heq
  refine ⟨maxPathSize + n, keys, ?_, ?_, ?_, ?_⟩
  · apply sort_before hsorted (placed_sorted _ List.Pairwise.nil)
    · intro k hk
      obtain ⟨names, hnames, rfl⟩ := List.mem_map.mp (hplaced.mem_iff.mp hk)
      exact zero_not_mem_place hzero (htree.names ((hall names).mp hnames)).2
    · exact (hplaced.map Key.path).nodup_iff.mpr hpaths
  · exact (hperm.map Key.path).nodup_iff.mpr hpaths
  · intro k
    rw [hperm.mem_iff, List.mem_map]
    exact exists_congr fun names => and_congr_left' (hall names)
  · intro fuel hfuel keyword runMode schedule
    have hpos : 0 < maxPathSize := by decide
    exact main_eq hopen (hvisits 2 fuel (by omega) (by omega)) (hsort fuel (by omega)) runMode
      schedule

/-- Numbering keeps levels and paths. -/
theorem numberedAll_places (keys : List Key) :
    (numberedAll keys).map (fun k => (k.level, k.path)) =
      keys.map fun k => (k.level, k.path) := by
  have hfrom : ∀ (behind : List Key) (num : Nat) (a : Key),
      (numbered num a behind).map (fun k => (k.level, k.path)) =
        (a :: behind).map fun k => (k.level, k.path) := by
    intro behind
    induction behind with
    | nil =>
        intro num a
        rfl
    | cons b behind ih =>
        intro num a
        rw [numbered_cons, List.map_cons, ih]
        rfl
  cases keys with
  | nil => rfl
  | cons a behind => exact hfrom behind 1 a

/-- The numbers are those of the levels. -/
theorem numberedAll_numbers {a : Key} {behind : List Key} :
    (numberedAll (a :: behind)).map (fun k => (k.level, k.num)) =
      (a.level :: behind.map Key.level).zip
        (LevelList.numbersFrom 1 a.level (behind.map Key.level)) := by
  have hfrom : ∀ (behind : List Key) (num : Nat) (a : Key),
      (numbered num a behind).map (fun k => (k.level, k.num)) =
        (a.level :: behind.map Key.level).zip
          (LevelList.numbersFrom num a.level (behind.map Key.level)) := by
    intro behind
    induction behind with
    | nil =>
        intro num a
        rfl
    | cons b behind ih =>
        intro num a
        rw [numbered_cons, List.map_cons, ih]
        rfl
  exact hfrom behind 1 a

theorem Listing.of_keys {keys : List Key} (hbefore : keys.Pairwise Key.before)
    (honce : (keys.map Key.path).Nodup)
    (hmem : ∀ k, k ∈ keys ↔ ∃ names, Entry fs.opendir root names ∧ entryKey root names = k) :
    Listing fs keyword root ((numberedAll keys).map (Key.record fs keyword)) where
  complete := by
    intro level path
    have hplace : (∃ r ∈ (numberedAll keys).map (Key.record fs keyword),
        r.level = level ∧ r.path = path) ↔
        (level, path) ∈ (numberedAll keys).map fun k => (k.level, k.path) := by
      simp [Key.record]
    rw [hplace, numberedAll_places, List.mem_map]
    constructor
    · rintro ⟨k, hk, hplace⟩
      obtain ⟨names, hentry, rfl⟩ := (hmem k).mp hk
      simp only [entryKey, Prod.mk.injEq] at hplace
      exact ⟨names, hentry, hplace.1.symm, hplace.2.symm⟩
    · rintro ⟨names, hentry, rfl, rfl⟩
      exact ⟨entryKey root names, (hmem _).mpr ⟨names, hentry, rfl⟩, rfl⟩
  once := by
    have hpaths := congrArg (List.map Prod.snd) (numberedAll_places keys)
    simp only [List.map_map] at hpaths
    rw [List.map_map]
    exact hpaths ▸ honce
  ordered := by
    have hplaces : (keys.map fun k => (k.level, k.path)).Pairwise fun a b =>
        a.1 < b.1 ∨ (a.1 = b.1 ∧ strcmp a.2 b.2 < 0) :=
      List.pairwise_map.mpr hbefore
    rw [← numberedAll_places, List.pairwise_map] at hplaces
    exact List.pairwise_map.mpr hplaces
  numbered := by
    intro level
    cases keys with
    | nil => rfl
    | cons a behind =>
        have hlevels : (a.level :: behind.map Key.level).Pairwise (· ≤ ·) := by
          rw [← List.map_cons, List.pairwise_map]
          apply hbefore.imp
          rintro x y (hlt | ⟨heq, -⟩) <;> omega
        have hnumbers := LevelList.numbersFrom_filter 1 a.level _ hlevels level
        rw [← numberedAll_numbers] at hnumbers
        have hcount : (numberedAll (a :: behind)).map Key.level =
            a.level :: behind.map Key.level := by
          have hfst := congrArg (List.map Prod.fst) (numberedAll_places (a :: behind))
          simpa [Function.comp_def] using hfst
        rw [← hcount, ite_self] at hnumbers
        rw [List.filter_map, List.map_map, List.countP_map] at hnumbers ⊢
        exact hnumbers
  counted := by
    intro r hr
    obtain ⟨k, -, rfl⟩ := List.mem_map.mp hr
    rfl

/-- The search of a path does not depend on the order of `readdir`. -/
theorem searchTest_reordered {other : FileSystem} (h : Reordered fs.opendir other.opendir)
    (hfiles : other.fopen = fs.fopen) (path keyword : Path) :
    searchTest other path keyword = searchTest fs path keyword := by
  unfold searchTest searchWith
  rw [h.isSome, hfiles]

theorem Key.before_asymm {a b : Key} (hab : a.before b) (hba : b.before a) : a = b := by
  have hswap := strcmp_swap a.path b.path
  rcases hab with hab | ⟨hab, hpab⟩ <;> rcases hba with hba | ⟨hba, hpba⟩ <;> omega

/-- Sequential mode lists every tree correctly, and lists it the same whatever
the order in which `readdir` returns the entries. -/
theorem main_sequential_listing (htree : DirTree fs.opendir maxPathSize root)
    (hzero : 0 ∉ root) (keyword : Path) :
    ∃ N out, (∀ fuel, N ≤ fuel → ∀ schedule,
        main fs keyword .sequential root fuel schedule = some out) ∧
      Listing fs keyword root out ∧
      ∀ other : FileSystem, Reordered fs.opendir other.opendir → other.fopen = fs.fopen →
        ∃ M, ∀ fuel, M ≤ fuel → ∀ schedule,
          main other keyword .sequential root fuel schedule = some out := by
  obtain ⟨N, keys, hbefore, honce, hmem, hmain⟩ := main_spec htree hzero
  refine ⟨N, (numberedAll keys).map (Key.record fs keyword), ?_, ?_, ?_⟩
  · intro fuel hfuel schedule
    exact hmain fuel hfuel keyword .sequential schedule
  · exact Listing.of_keys hbefore honce hmem
  · intro other hother hfiles
    obtain ⟨M, keys', hbefore', honce', hmem', hmain'⟩ :=
      main_spec (hother.dirTree htree) hzero
    -- both lists of keys hold the same and are in the same order
    have hsame : ∀ k, k ∈ keys' ↔ k ∈ keys := by
      intro k
      rw [hmem, hmem']
      exact exists_congr fun names =>
        and_congr_left' ⟨fun h => hother.symm.entry h, fun h => hother.entry h⟩
    have hkeys : keys' = keys := by
      apply List.Perm.eq_of_pairwise _ hbefore' hbefore
      · exact (List.perm_ext_iff_of_nodup honce'.of_map honce.of_map).mpr hsame
      · intro a b _ _ hab hba
        exact Key.before_asymm hab hba
    have hrecord : Key.record other keyword = Key.record fs keyword := by
      funext k
      unfold Key.record
      rw [searchTest_reordered hother hfiles]
    refine ⟨M, fun fuel hfuel schedule => ?_⟩
    rw [hmain' fuel hfuel, hkeys, hrecord]

/-- A directory with a file, a directory that holds a file, and `.` and `..`. -/
def smallTree : FileSystem where
  opendir path :=
    if path = text "r" then some [⟨text ".", 4⟩, ⟨text "b", 8⟩, ⟨text "..", 4⟩, ⟨text "a", 4⟩]
    else if path = text "r/a" then some [⟨text "..", 4⟩, ⟨text ".", 4⟩, ⟨text "c", 8⟩]
    else none
  fopen path := if path = text "r/b" then some (text "int i;\nint j;\n") else some []

theorem smallTree_dirTree : DirTree smallTree.opendir maxPathSize (text "r") := by
  have hroot : smallTree.opendir (text "r") =
      some [⟨text ".", 4⟩, ⟨text "b", 8⟩, ⟨text "..", 4⟩, ⟨text "a", 4⟩] := by decide
  have hsub : smallTree.opendir (text "r/a") =
      some [⟨text "..", 4⟩, ⟨text ".", 4⟩, ⟨text "c", 8⟩] := by decide
  have hbelow : DirTree smallTree.opendir maxPathSize (text "r/a") := by
    apply DirTree.node hsub (by decide) (by decide) (by decide) (by decide) (by decide)
    intro e he hhidden hdir
    fin_cases he
    · cases hhidden
    · cases hhidden
    · cases hdir
  apply DirTree.node hroot (by decide) (by decide) (by decide) (by decide) (by decide)
  intro e he hhidden hdir
  fin_cases he
  · cases hhidden
  · cases hdir
  · cases hhidden
  · exact hbelow

theorem main_sequential_listing_small :
    ∃ N out, (∀ fuel, N ≤ fuel → ∀ schedule,
        main smallTree (text "int") .sequential (text "r") fuel schedule = some out) ∧
      Listing smallTree (text "int") (text "r") out ∧
      ∀ other : FileSystem, Reordered smallTree.opendir other.opendir →
        other.fopen = smallTree.fopen → ∃ M, ∀ fuel, M ≤ fuel → ∀ schedule,
          main other (text "int") .sequential (text "r") fuel schedule = some out :=
  main_sequential_listing smallTree_dirTree (by decide) (text "int")

/-- Parallel mode writes what sequential mode writes, wherever the ends of the
workers fall among the steps of the main thread. -/
theorem main_parallel_eq_sequential (htree : DirTree fs.opendir maxPathSize root)
    (hzero : 0 ∉ root) (keyword : Path) :
    ∃ N out, ∀ fuel, N ≤ fuel → main fs keyword .sequential root fuel [] = some out ∧
      ∀ schedule, main fs keyword .parallel root fuel schedule = some out := by
  obtain ⟨N, keys, -, -, -, hmain⟩ := main_spec htree hzero
  refine ⟨N, (numberedAll keys).map (Key.record fs keyword), ?_⟩
  intro fuel hfuel
  exact ⟨hmain fuel hfuel keyword .sequential [], hmain fuel hfuel keyword .parallel⟩

theorem main_parallel_eq_sequential_small :
    ∃ N out, ∀ fuel, N ≤ fuel →
      main smallTree (text "int") .sequential (text "r") fuel [] = some out ∧
      ∀ schedule, main smallTree (text "int") .parallel (text "r") fuel schedule = some out :=
  main_parallel_eq_sequential smallTree_dirTree (by decide) (text "int")

end

end Cse420.Lister.Project2
