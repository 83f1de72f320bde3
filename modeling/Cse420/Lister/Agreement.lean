import Cse420.Lister.Dirlist
import Cse420.Lister.LinListing
import Cse420.Lister.Listing
import Cse420.Lister.Words

/-!
The three listers side by side. What Project2 keeps in its items, Lin's listers
keep in nodes, and each of their stages does to the nodes what Project2 does to
the keys of the items: insertion looks only at levels, the sorts compare the
same, and the numbers are those of the levels. So the files hold the same.
-/

namespace Cse420.Lister

open CMemory Interference Project2

/-- No word holds a space, so `rws` makes no difference. -/
theorem keywordSearch_eq_searchTest (fs : FileSystem) (filePath keyword : Path) :
    keywordSearch fs filePath keyword = searchTest fs filePath keyword := by
  have hcount : ∀ file, countIn id keyword file = countIn rws keyword file := by
    intro file
    unfold countIn
    congr 1
    apply List.map_congr_left
    intro buffer _
    apply List.countP_congr
    intro word hword
    have hspace : ' '.toUInt8 ∉ word := by
      intro hin
      exact (mem_strtokAll hword).2.1 _ hin (by decide)
    rw [rws_of_no_space hspace]
    rfl
  unfold keywordSearch searchTest searchWith
  simp only [hcount]

/-- The node of `dirlist` for an entry. -/
def Project2.Key.node (k : Key) : Dirlist.Node := ⟨k.path, k.level, k.num⟩

/-- The line of Lin's lister for an entry. -/
def Project2.Key.line (fs : FileSystem) (keyword : Path) (k : Key) : Lin.Line :=
  ⟨k.level, k.num, keywordSearch fs k.path keyword, k.path⟩

section Stages

variable {fs : FileSystem} {keyword : Path}

theorem placed_num (visits : List (Nat × Path)) : ∀ k ∈ placed visits [], k.num = 1 := by
  intro k hk
  have hvisit := (placed_perm visits []).mem_iff.mp hk
  rw [List.append_nil] at hvisit
  obtain ⟨v, -, rfl⟩ := List.mem_map.mp hvisit
  rfl

/-- The walk of `dirlist` builds the same list. -/
theorem dirlist_placed (visits : List (Nat × Path)) (keys : List Key) :
    visits.foldl (fun list v => Dirlist.insertSorted (Dirlist.createNode v.2 v.1 1) list)
        (keys.map Key.node) =
      (placed visits keys).map Key.node := by
  induction visits generalizing keys with
  | nil => rfl
  | cons v rest ih =>
      have hinsert : Dirlist.insertSorted (Dirlist.createNode v.2 v.1 1) (keys.map Key.node) =
          (LevelList.insert Key.level ⟨v.1, 1, v.2⟩ keys).map Key.node :=
        LevelList.insert_map Key.node (fun _ => rfl) ⟨v.1, 1, v.2⟩ keys
      rw [List.foldl_cons, hinsert, ih]
      rfl

/-- So does that of Lin's lister, up to the addresses. -/
theorem lin_placed (visits : List (Nat × Path)) (addr : Nat) {list : List Lin.Node}
    {keys : List Key}
    (h : (Lin.counted fs keyword list).map Lin.Node.line = keys.map (Key.line fs keyword)) :
    (Lin.counted fs keyword (Lin.placed visits addr list)).map Lin.Node.line =
      (placed visits keys).map (Key.line fs keyword) := by
  induction visits generalizing addr list keys with
  | nil => exact h
  | cons v rest ih =>
      apply ih
      unfold Lin.counted at h ⊢
      rw [List.map_map] at h ⊢
      -- both insertions are the one of the lines
      have hnode : LevelList.insert Lin.Line.level _ _ = _ := LevelList.insert_map
        (fun node : Lin.Node => (node.setSearch (keywordSearch fs node.path keyword)).line)
        (fun _ => rfl) ⟨addr, v.2, v.1, 1, 0⟩ list
      have hkey : LevelList.insert Lin.Line.level _ _ = _ :=
        LevelList.insert_map (Key.line fs keyword) (fun _ => rfl) ⟨v.1, 1, v.2⟩ keys
      exact hnode.symm.trans ((congrArg _ h).trans hkey)

/-- Numbering as `sub_level` does it, on whatever stands for the keys. The first
of a level keeps the number it has, which is one. -/
theorem numbered_map {τ : Type} (number : Nat → τ → List τ → List τ) (f : Key → τ)
    (hlast : ∀ n a, number n a [] = [a])
    (hnext : ∀ n a b behind, number n (f a) (f b :: behind) =
      f a :: if b.level = a.level then number (n + 1) (f { b with num := n + 1 }) behind
        else number 1 (f b) behind)
    (a : Key) (behind : List Key) (hfirst : ∀ k ∈ behind, k.num = 1) :
    number a.num (f a) (behind.map f) = (numbered a.num a behind).map f := by
  induction behind generalizing a with
  | nil => exact hlast _ _
  | cons b behind ih =>
      obtain ⟨hone, hfirst⟩ := List.forall_mem_cons.mp hfirst
      rw [numbered_cons, List.map_cons, List.map_cons, hnext]
      congr 1
      split
      · have hrest := ih { b with num := a.num + 1 } hfirst
        rw [numbered_num] at hrest
        exact hrest
      · have hrest := ih b hfirst
        rw [hone] at hrest
        exact hrest

/-- The numbers of `sub_level` are those of `NumberChildren`. -/
theorem numberedLines_line {keys : List Key} (hone : ∀ k ∈ keys, k.num = 1) :
    Lin.numberedLines (keys.map (Key.line fs keyword)) =
      (numberedAll keys).map (Key.line fs keyword) := by
  cases keys with
  | nil => rfl
  | cons a behind =>
      obtain ⟨hfirst, hbehind⟩ := List.forall_mem_cons.mp hone
      have hall := numbered_map Lin.numberedFrom (Key.line fs keyword) (fun _ _ => rfl)
        (fun _ _ _ _ => rfl) a behind hbehind
      rw [hfirst] at hall
      exact hall

theorem subLevel_node {keys : List Key} (hone : ∀ k ∈ keys, k.num = 1) :
    Dirlist.subLevel (keys.map Key.node) = (numberedAll keys).map Key.node := by
  cases keys with
  | nil => rfl
  | cons a behind =>
      obtain ⟨hfirst, hbehind⟩ := List.forall_mem_cons.mp hone
      have hall := numbered_map Dirlist.subLevelLoop Key.node (fun _ _ => rfl)
        (fun _ _ _ _ => (apply_ite (List.cons _) _ _ _).symm) a behind hbehind
      rw [hfirst] at hall
      exact hall

end Stages

/-- The record of Project2 that a line of Lin's lister is. -/
def Lin.Line.record (line : Lin.Line) : Record := ⟨line.level, line.i, some line.search, line.path⟩

/-- A line without the count. -/
def Lin.Line.uncounted (line : Lin.Line) : Dirlist.Line := ⟨line.level, line.i, line.path⟩

section Files

variable {fs : FileSystem} {root : Path} {fuel : Nat} {visited : List (Nat × Path)}
  {keys : List Key}

theorem sorted_num (hsort : BubbleSort.sort Key.later fuel (placed ((1, root) :: visited) []) =
    some keys) : ∀ k ∈ keys, k.num = 1 := by
  intro k hk
  apply placed_num ((1, root) :: visited)
  exact (BubbleSort.sort_perm hsort).mem_iff.mp hk

/-- The file of Lin's lister in terms of the keys. -/
theorem lin_main (htree : OpenTree fs.opendir 255 root)
    (hvisits : visits fs.opendir 255 fuel root 2 = some visited)
    (hsort : BubbleSort.sort Key.later fuel (placed ((1, root) :: visited) []) = some keys)
    (keyword : Path) (schedule : List (List Nat)) :
    Lin.main fs keyword 0 root fuel schedule =
      some ((numberedAll keys).map (Key.line fs keyword)) := by
  obtain ⟨w, hbefore, hquiet, hlist⟩ := Lin.beforeSwap_seq keyword htree hvisits schedule
  have hroot : (Lin.counted fs keyword [⟨0, root, 1, 1, 0⟩]).map Lin.Node.line =
      [Key.line fs keyword ⟨1, 1, root⟩] := rfl
  have hlines : w.state.list.map Lin.Node.line =
      (placed ((1, root) :: visited) []).map (Key.line fs keyword) := by
    rw [hlist]
    exact lin_placed visited 1 hroot
  have hone : ∀ line ∈ w.state.list.map Lin.Node.line, line.i = 1 := by
    rw [hlist]
    exact Lin.counted_lines_i fs keyword root visited
  have hsorted : BubbleSort.sort Lin.Line.later fuel (w.state.list.map Lin.Node.line) =
      some (keys.map (Key.line fs keyword)) := by
    rw [hlines]
    exact BubbleSort.sort_map (Key.line fs keyword) (fun _ _ => rfl) hsort
  unfold Lin.main
  simp only [hbefore, Option.bind_eq_bind, Option.bind_some]
  rw [Lin.afterSwap_quiet hquiet hone hsorted, numberedLines_line (sorted_num hsort)]

/-- The file of `dirlist` in terms of the keys. -/
theorem dirlist_main (htree : OpenTree fs.opendir 255 root)
    (hvisits : visits fs.opendir 255 fuel root 2 = some visited)
    (hsort : BubbleSort.sort Key.later fuel (placed ((1, root) :: visited) []) = some keys) :
    Dirlist.main fs root fuel =
      some ((numberedAll keys).map fun k => ⟨k.level, k.num, k.path⟩) := by
  have hone : ∀ node ∈ (placed ((1, root) :: visited) []).map Key.node, node.i = 1 := by
    intro node hnode
    obtain ⟨k, hk, rfl⟩ := List.mem_map.mp hnode
    exact placed_num _ k hk
  have hsorted : BubbleSort.sort Dirlist.Node.later fuel _ = _ :=
    BubbleSort.sort_map Key.node (fun _ _ => rfl) hsort
  rw [Dirlist.main_eq htree hvisits (dirlist_placed visited [⟨1, 1, root⟩]) hone hsorted,
    subLevel_node (sorted_num hsort), Dirlist.printList, List.map_map]
  rfl

/-- With enough fuel the walk and the sort come to an end. -/
theorem listed (htree : OpenTree fs.opendir 255 root) :
    ∃ N visited keys, ∀ fuel, N ≤ fuel →
      (∀ more, 255 ≤ more → visits fs.opendir more fuel root 2 = some visited) ∧
      BubbleSort.sort Key.later fuel (placed ((1, root) :: visited) []) = some keys := by
  obtain ⟨visited, hvisits⟩ := visits_open htree
  obtain ⟨n, keys, hsort⟩ := BubbleSort.sort_ends Key.later_asymm
    (placed ((1, root) :: visited 2) [])
  refine ⟨255 + n, visited 2, keys, ?_⟩
  intro fuel hfuel
  constructor
  · intro more hmore
    exact hvisits 2 fuel more (by omega) (by omega) hmore
  · exact hsort fuel (by omega)

/-- The sorted keys do not depend on the order of the visits. -/
theorem sorted_keys_unique {fuel' : Nat} {visited' : List (Nat × Path)} {keys' : List Key}
    (hperm : visited.Perm visited') (hroot : 0 ∉ root) (hzero : ∀ v ∈ visited, 0 ∉ v.2)
    (hsort : BubbleSort.sort Key.later fuel (placed ((1, root) :: visited) []) = some keys)
    (hsort' : BubbleSort.sort Key.later fuel' (placed ((1, root) :: visited') []) = some keys') :
    keys = keys' := by
  have hkey : ∀ {visits : List (Nat × Path)}, (∀ v ∈ visits, 0 ∉ v.2) →
      ∀ k ∈ placed ((1, root) :: visits) [], 0 ∉ k.path := by
    intro visits hzero k hk
    have hfrom := (placed_perm ((1, root) :: visits) []).mem_iff.mp hk
    rw [List.append_nil, List.map_cons, List.mem_cons] at hfrom
    rcases hfrom with rfl | hfrom
    · exact hroot
    · obtain ⟨v, hv, rfl⟩ := List.mem_map.mp hfrom
      exact hzero v hv
  have hzero' : ∀ v ∈ visited', 0 ∉ v.2 := fun v hv => hzero v (hperm.mem_iff.mpr hv)
  have hplaced : (placed ((1, root) :: visited) []).Perm (placed ((1, root) :: visited') []) := by
    refine (placed_perm _ _).trans (.trans ?_ (placed_perm _ _).symm)
    exact ((hperm.cons _).map _).append_right _
  have hsame : keys.Perm keys' :=
    (BubbleSort.sort_perm hsort).trans (hplaced.trans (BubbleSort.sort_perm hsort').symm)
  apply hsame.eq_of_pairwise _ (sort_upTo hsort (placed_sorted _ .nil) (hkey hzero))
    (sort_upTo hsort' (placed_sorted _ .nil) (hkey hzero'))
  rintro a b ha hb ⟨hza, hzb, hab⟩ ⟨-, -, hba⟩
  have hnum : a.num = b.num :=
    (sorted_num hsort a ha).trans (sorted_num hsort' b hb).symm
  have hswap := strcmp_swap a.path b.path
  have hlevel : a.level = b.level := by
    rcases hab with hab | hab <;> rcases hba with hba | hba <;> omega
  have hpath : a.path = b.path := by
    apply strcmp_eq_zero hza hzb
    omega
  cases a
  cases b
  simp_all

end Files

/-- Two views of one tree: the files are the same and so are the directories, up
to the order in which `readdir` returns their entries. -/
structure SameTree (fs other : FileSystem) : Prop where
  opendir : Reordered fs.opendir other.opendir
  fopen : other.fopen = fs.fopen

theorem SameTree.line {fs other : FileSystem} (h : SameTree fs other) (keyword : Path) :
    Key.line other keyword = Key.line fs keyword := by
  funext k
  unfold Key.line
  rw [keywordSearch_eq_searchTest, keywordSearch_eq_searchTest,
    searchTest_reordered h.opendir h.fopen]

/-- For every tree whose directories open and whose paths fit, the three listers
write the same lines, each with the tree in an order of its own. -/
theorem listers_agree {fs : FileSystem} {root : Path} (htree : OpenTree fs.opendir 255 root)
    (hroot : 0 ∉ root) (hnames : ∀ path, ∀ entries ∈ fs.opendir path, ∀ e ∈ entries, 0 ∉ e.dName)
    (keyword : Path) :
    ∃ lines : List Lin.Line, ∀ fs₁ fs₂ fs₃ : FileSystem,
      SameTree fs fs₁ → SameTree fs fs₂ → SameTree fs fs₃ →
      ∃ N, ∀ fuel, N ≤ fuel → ∀ schedule,
        Lin.main fs₁ keyword 0 root fuel schedule = some lines ∧
        Project2.main fs₂ keyword .sequential root fuel schedule =
          some (lines.map Lin.Line.record) ∧
        Dirlist.main fs₃ root fuel = some (lines.map Lin.Line.uncounted) := by
  obtain ⟨N, visited, keys, hlisted⟩ := listed htree
  refine ⟨(numberedAll keys).map (Key.line fs keyword), ?_⟩
  -- in every order the sort ends with the same keys
  have horder : ∀ other, SameTree fs other → ∃ N visited, ∀ fuel, N ≤ fuel →
      (∀ more, 255 ≤ more → visits other.opendir more fuel root 2 = some visited) ∧
      BubbleSort.sort Key.later fuel (placed ((1, root) :: visited) []) = some keys := by
    intro other hother
    obtain ⟨M, visited', keys', hlisted'⟩ := listed (hother.opendir.openTree htree)
    obtain ⟨hvisits, hsort⟩ := hlisted (N + M) (by omega)
    obtain ⟨hvisits', hsort'⟩ := hlisted' (N + M) (by omega)
    have hperm := visits_reordered hother.opendir (hvisits 255 le_rfl) (hvisits' 255 le_rfl)
    have hzero := visits_zero hnames hroot (hvisits 255 le_rfl)
    rw [sorted_keys_unique hperm hroot hzero hsort hsort']
    exact ⟨M, visited', hlisted'⟩
  intro fs₁ fs₂ fs₃ h₁ h₂ h₃
  obtain ⟨N₁, visited₁, hlisted₁⟩ := horder fs₁ h₁
  obtain ⟨N₂, visited₂, hlisted₂⟩ := horder fs₂ h₂
  obtain ⟨N₃, visited₃, hlisted₃⟩ := horder fs₃ h₃
  refine ⟨N₁ + N₂ + N₃, ?_⟩
  intro fuel hfuel schedule
  refine ⟨?_, ?_, ?_⟩
  · obtain ⟨hvisits, hsort⟩ := hlisted₁ fuel (by omega)
    rw [lin_main (h₁.opendir.openTree htree) (hvisits 255 le_rfl) hsort, h₁.line]
  · obtain ⟨hvisits, hsort⟩ := hlisted₂ fuel (by omega)
    have hopen : (fs₂.opendir root).isSome := by
      cases h₂.opendir.openTree htree with
      | node hopen => simp [hopen]
    rw [main_eq hopen (hvisits maxPathSize (by decide)) hsort, List.map_map]
    congr 1
    apply List.map_congr_left
    intro k _
    unfold Key.record
    rw [← keywordSearch_eq_searchTest]
    exact congrArg Lin.Line.record (congrFun (h₂.line keyword) k)
  · obtain ⟨hvisits, hsort⟩ := hlisted₃ fuel (by omega)
    rw [dirlist_main (h₃.opendir.openTree htree) (hvisits 255 le_rfl) hsort, List.map_map]
    rfl

theorem SameTree.refl (fs : FileSystem) : SameTree fs fs := by
  refine ⟨?_, rfl⟩
  intro path
  cases fs.opendir path with
  | none => exact .none
  | some entries => exact .some (List.Perm.refl entries)

/-- The tree with every directory read from its end. -/
def reversed (fs : FileSystem) : FileSystem where
  opendir path := (fs.opendir path).map List.reverse
  fopen := fs.fopen

theorem sameTree_reversed (fs : FileSystem) : SameTree fs (reversed fs) := by
  refine ⟨?_, rfl⟩
  intro path
  simp only [reversed]
  cases fs.opendir path with
  | none => exact .none
  | some entries => exact .some (List.reverse_perm entries).symm

theorem smallTree_openTree : OpenTree smallTree.opendir 255 (text "r") := by
  have hroot : smallTree.opendir (text "r") =
      some [⟨text ".", 4⟩, ⟨text "b", 8⟩, ⟨text "..", 4⟩, ⟨text "a", 4⟩] := by decide
  have hsub : smallTree.opendir (text "r/a") =
      some [⟨text "..", 4⟩, ⟨text ".", 4⟩, ⟨text "c", 8⟩] := by decide
  have hbelow : OpenTree smallTree.opendir 255 (text "r/a") := by
    apply OpenTree.node hsub (by decide)
    intro e he hhidden hdir
    fin_cases he
    · cases hhidden
    · cases hhidden
    · cases hdir
  apply OpenTree.node hroot (by decide)
  intro e he hhidden hdir
  fin_cases he
  · cases hhidden
  · cases hdir
  · cases hhidden
  · exact hbelow

theorem smallTree_names :
    ∀ path, ∀ entries ∈ smallTree.opendir path, ∀ e ∈ entries, 0 ∉ e.dName := by
  intro path entries hopen
  unfold smallTree at hopen
  simp only [Option.mem_def] at hopen
  split_ifs at hopen
  · cases hopen
    decide
  · cases hopen
    decide

theorem listers_agree_small :
    ∃ lines N, ∀ fuel, N ≤ fuel → ∀ schedule,
      Lin.main smallTree (text "int") 0 (text "r") fuel schedule = some lines ∧
      Project2.main (reversed smallTree) (text "int") .sequential (text "r") fuel schedule =
        some (lines.map Lin.Line.record) ∧
      Dirlist.main smallTree (text "r") fuel = some (lines.map Lin.Line.uncounted) := by
  obtain ⟨lines, hlines⟩ :=
    listers_agree smallTree_openTree (by decide) smallTree_names (text "int")
  exact ⟨lines, hlines _ _ _ (.refl _) (sameTree_reversed _) (.refl _)⟩

end Cse420.Lister
