import Cse420.Lister.Search

/-!
The recursive walk that all directory listers make. It goes through the entries
of a directory in the order of `readdir`, skips those whose name begins with a
dot, does something for every other one and then descends into it if its type
says that it is a directory. What it does is a parameter, and the walk is the
same as doing it for a list of visits made beforehand.
-/

namespace Cse420.Lister

open CMemory

variable {σ : Type}

/-- The directory functions of the listers. `opendir` gives no result where the
program exits, and a path that does not fit in `room` bytes with its terminator
leaves the array it is printed into. -/
def walk (opendir : Path → Option (List Dirent)) (room : Nat) (visit : Nat → Path → σ → σ) :
    Nat → Path → Nat → σ → Option σ
  | 0, _, _, _ => none
  | fuel + 1, path, level, s => do
      let entries ← opendir path
      entries.foldlM (fun s entry =>
        if entry.hidden then some s
        else if room ≤ (join path entry.dName).length then none
        else
          let s := visit level (join path entry.dName) s
          if entry.dType = 4 then
            walk opendir room visit fuel (join path entry.dName) (level + 1) s
          else some s) s

/-- The visits for one entry, where `below` gives those of a directory. -/
def entryVisits (room : Nat) (below : Path → Option (List (Nat × Path))) (path : Path)
    (level : Nat) (entry : Dirent) : Option (List (Nat × Path)) :=
  if entry.hidden then some []
  else if room ≤ (join path entry.dName).length then none
  else if entry.dType = 4 then
    (below (join path entry.dName)).map ((level, join path entry.dName) :: ·)
  else some [(level, join path entry.dName)]

/-- The levels and paths of the walk in its order. -/
def visits (opendir : Path → Option (List Dirent)) (room : Nat) :
    Nat → Path → Nat → Option (List (Nat × Path))
  | 0, _, _ => none
  | fuel + 1, path, level => do
      let entries ← opendir path
      let parts ← entries.mapM
        (entryVisits room (fun path => visits opendir room fuel path (level + 1)) path level)
      return parts.flatten

theorem foldlM_eq_mapM {ε : Type} (f : σ → ε → Option σ) (g : ε → Option (List (Nat × Path)))
    (visit : Nat → Path → σ → σ)
    (h : ∀ s e, f s e = (g e).map fun part => part.foldl (fun s v => visit v.1 v.2 s) s)
    (entries : List ε) (s : σ) :
    entries.foldlM f s =
      (entries.mapM g).map fun parts => parts.flatten.foldl (fun s v => visit v.1 v.2 s) s := by
  induction entries generalizing s with
  | nil => rfl
  | cons e rest ih =>
      rw [List.foldlM_cons, List.mapM_cons, h]
      cases hg : g e with
      | none => rfl
      | some part =>
          simp only [Option.map_some, Option.bind_eq_bind, Option.bind_some]
          rw [ih]
          cases rest.mapM g with
          | none => rfl
          | some parts => simp [List.foldl_append]

/-- Walking is visiting what there is to visit, one after the other. -/
theorem walk_eq_visits (opendir : Path → Option (List Dirent)) (room : Nat)
    (visit : Nat → Path → σ → σ) (fuel : Nat) (path : Path) (level : Nat) (s : σ) :
    walk opendir room visit fuel path level s =
      (visits opendir room fuel path level).map
        (List.foldl (fun s v => visit v.1 v.2 s) s) := by
  induction fuel generalizing path level s with
  | zero => rfl
  | succ fuel ih =>
      unfold walk visits
      cases hopen : opendir path with
      | none => rfl
      | some entries =>
          simp only [Option.bind_eq_bind, Option.bind_some]
          rw [foldlM_eq_mapM _ (entryVisits room
            (fun path => visits opendir room fuel path (level + 1)) path level) visit]
          · generalize entries.mapM (entryVisits room _ path level) = parts
            cases parts <;> rfl
          · intro s entry
            unfold entryVisits
            split
            · rfl
            · split
              · rfl
              · split
                · rw [ih, Option.map_map]
                  rfl
                · rfl

/-- A finite directory tree: names in a directory differ and hold neither a
slash nor a zero byte, and for what is not hidden the path fits, the type says
whether it is a directory, and directories are trees in their turn. -/
inductive DirTree (opendir : Path → Option (List Dirent)) (room : Nat) : Path → Prop where
  | node {path : Path} {entries : List Dirent} (hopen : opendir path = some entries)
      (hnames : (entries.map Dirent.dName).Nodup)
      (hslash : ∀ e ∈ entries, slash ∉ e.dName) (hzero : ∀ e ∈ entries, 0 ∉ e.dName)
      (hroom : ∀ e ∈ entries, e.hidden = false → (join path e.dName).length < room)
      (htype : ∀ e ∈ entries, e.hidden = false →
        (e.dType = 4 ↔ (opendir (join path e.dName)).isSome))
      (hbelow : ∀ e ∈ entries, e.hidden = false → e.dType = 4 →
        DirTree opendir room (join path e.dName)) :
      DirTree opendir room path

/-- The names lead from the directory to an entry below it, and none of them is
hidden. -/
def Entry (opendir : Path → Option (List Dirent)) : Path → List (List UInt8) → Prop
  | _, [] => True
  | path, name :: rest =>
      ∃ entries, opendir path = some entries ∧
        (∃ e ∈ entries, e.dName = name ∧ e.hidden = false) ∧
        Entry opendir (join path name) rest

theorem mapM_eq_some_map {α β : Type} {f : α → Option β} {g : α → β} {l : List α}
    (h : ∀ a ∈ l, f a = some (g a)) : l.mapM f = some (l.map g) := by
  induction l with
  | nil => rfl
  | cons a rest ih =>
      rw [List.mapM_cons, h a List.mem_cons_self, ih fun b hb => h b (List.mem_cons_of_mem _ hb)]
      rfl

/-- The visits in a directory at `level`, given by their names from there. -/
def visitsAt (path : Path) (level : Nat) (below : List (List (List UInt8))) :
    List (Nat × Path) :=
  below.map fun names => (level + names.length - 1, names.foldl join path)

/-- The visits of one entry are those of its own name and, in a directory, of
the names behind it. -/
theorem entryVisits_spec {opendir : Path → Option (List Dirent)} {room : Nat} {path : Path}
    {entry : Dirent}
    (hroom : entry.hidden = false → (join path entry.dName).length < room)
    (htype : entry.hidden = false →
      (entry.dType = 4 ↔ (opendir (join path entry.dName)).isSome))
    (hbelow : entry.hidden = false → entry.dType = 4 →
      ∃ below : List (List (List UInt8)), below.Nodup ∧
        (∀ names, names ∈ below ↔ names ≠ [] ∧ Entry opendir (join path entry.dName) names) ∧
        ∀ level fuel, room ≤ (join path entry.dName).length + fuel →
          visits opendir room fuel (join path entry.dName) level =
            some (visitsAt (join path entry.dName) level below)) :
    ∃ below : List (List (List UInt8)), below.Nodup ∧
      (∀ names, names ∈ below ↔
        entry.hidden = false ∧ ∃ rest, names = entry.dName :: rest ∧
          Entry opendir (join path entry.dName) rest) ∧
      ∀ level fuel, room ≤ (join path entry.dName).length + fuel →
        entryVisits room (fun path => visits opendir room fuel path (level + 1)) path level entry =
          some (visitsAt path level below) := by
  cases hhidden : entry.hidden with
  | true =>
      refine ⟨[], List.nodup_nil, by simp, ?_⟩
      intro level fuel _
      simp [entryVisits, hhidden, visitsAt]
  | false =>
      have hfits := hroom hhidden
      by_cases hdir : entry.dType = 4
      · obtain ⟨sub, hnodup, hmem, hvisits⟩ := hbelow hhidden hdir
        refine ⟨[entry.dName] :: sub.map (entry.dName :: ·), ?_, ?_, ?_⟩
        · rw [List.nodup_cons]
          refine ⟨?_, hnodup.map fun a b hab => by simpa using hab⟩
          intro hbad
          obtain ⟨names, hnames, hcons⟩ := List.mem_map.mp hbad
          simp only [List.cons.injEq, true_and] at hcons
          exact ((hmem names).mp hnames).1 hcons
        · intro names
          simp only [List.mem_cons, List.mem_map, true_and]
          constructor
          · rintro (rfl | ⟨rest, hrest, rfl⟩)
            · exact ⟨[], rfl, trivial⟩
            · exact ⟨rest, rfl, ((hmem rest).mp hrest).2⟩
          · rintro ⟨rest, rfl, hentry⟩
            rcases eq_or_ne rest [] with rfl | hne
            · exact .inl rfl
            · exact .inr ⟨rest, (hmem rest).mpr ⟨hne, hentry⟩, rfl⟩
        · intro level fuel hfuel
          simp only [entryVisits, hhidden, Bool.false_eq_true, if_false, Nat.not_le.mpr hfits, hdir,
            if_true, hvisits (level + 1) fuel hfuel, Option.map_some, Option.some.injEq, visitsAt,
            List.map_cons, List.map_map, List.length_singleton, Nat.add_sub_cancel,
            List.foldl_cons, List.foldl_nil, List.cons.injEq, true_and]
          apply List.map_congr_left
          intro names _
          simp only [Function.comp, List.length_cons, List.foldl_cons, Prod.mk.injEq, and_true]
          omega
      · -- what is no directory has nothing below it
        have hnone : opendir (join path entry.dName) = none := by
          rw [← Option.not_isSome_iff_eq_none, ← htype hhidden]
          exact hdir
        refine ⟨[[entry.dName]], List.nodup_singleton _, ?_, ?_⟩
        · intro names
          simp only [List.mem_singleton, true_and]
          constructor
          · rintro rfl
            exact ⟨[], rfl, trivial⟩
          · rintro ⟨rest, rfl, hentry⟩
            cases rest with
            | nil => rfl
            | cons name rest =>
                obtain ⟨entries, hopen, -⟩ := hentry
                rw [hnone] at hopen
                cases hopen
        · intro level fuel _
          simp [entryVisits, hhidden, Nat.not_le.mpr hfits, hdir, visitsAt]

/-- The walk through a tree ends and visits every entry that is not hidden
exactly once. Paths grow on the way down, so their room bounds the depth. -/
theorem visits_spec {opendir : Path → Option (List Dirent)} {room : Nat} {path : Path}
    (h : DirTree opendir room path) :
    ∃ below : List (List (List UInt8)), below.Nodup ∧
      (∀ names, names ∈ below ↔ names ≠ [] ∧ Entry opendir path names) ∧
      ∀ level fuel, room ≤ path.length + fuel → 0 < fuel →
        visits opendir room fuel path level = some (visitsAt path level below) := by
  induction h with
  | @node path entries hopen hnames hslash hzero hroom htype _ ih =>
      have hentry : ∀ entry ∈ entries, ∃ below : List (List (List UInt8)), below.Nodup ∧
          (∀ names, names ∈ below ↔ entry.hidden = false ∧ ∃ rest, names = entry.dName :: rest ∧
            Entry opendir (join path entry.dName) rest) ∧
          ∀ level fuel, room ≤ (join path entry.dName).length + fuel →
            entryVisits room (fun path => visits opendir room fuel path (level + 1)) path level
              entry = some (visitsAt path level below) := by
        intro entry hmem
        apply entryVisits_spec (hroom entry hmem) (htype entry hmem)
        intro hhidden hdir
        obtain ⟨below, hnodup, hin, hvisits⟩ := ih entry hmem hhidden hdir
        have hfits := hroom entry hmem hhidden
        exact ⟨below, hnodup, hin, fun level fuel hfuel => hvisits level fuel hfuel (by omega)⟩
      choose! below hbelow using hentry
      refine ⟨entries.flatMap below, ?_, ?_, ?_⟩
      · rw [List.nodup_flatMap]
        refine ⟨fun entry hmem => (hbelow entry hmem).1, ?_⟩
        -- the first names differ from entry to entry
        have hdiff : entries.Pairwise fun a b => a.dName ≠ b.dName :=
          List.pairwise_map.mp hnames
        refine hdiff.imp_of_mem ?_
        intro a b ha hb hne names hna hnb
        obtain ⟨-, resta, hra, -⟩ := ((hbelow a ha).2.1 names).mp hna
        obtain ⟨-, restb, hrb, -⟩ := ((hbelow b hb).2.1 names).mp hnb
        rw [hra, List.cons.injEq] at hrb
        exact hne hrb.1
      · intro names
        rw [List.mem_flatMap]
        constructor
        · rintro ⟨entry, hmem, hin⟩
          obtain ⟨hhidden, rest, rfl, hrest⟩ := ((hbelow entry hmem).2.1 names).mp hin
          exact ⟨List.cons_ne_nil _ _, entries, hopen, ⟨entry, hmem, rfl, hhidden⟩, hrest⟩
        · rintro ⟨hne, hentry⟩
          cases names with
          | nil => exact absurd rfl hne
          | cons name rest =>
              obtain ⟨others, hsame, ⟨entry, hmem, rfl, hhidden⟩, hrest⟩ := hentry
              rw [hopen, Option.some.injEq] at hsame
              subst hsame
              exact ⟨entry, hmem, ((hbelow entry hmem).2.1 _).mpr ⟨hhidden, rest, rfl, hrest⟩⟩
      · intro level fuel hfuel hpos
        cases fuel with
        | zero => omega
        | succ fuel =>
            have hdeeper : ∀ entry : Dirent, room ≤ (join path entry.dName).length + fuel := by
              intro entry
              simp only [join, List.length_append, List.length_cons]
              omega
            have hparts := mapM_eq_some_map (l := entries) fun entry hmem =>
              (hbelow entry hmem).2.2 level fuel (hdeeper entry)
            simp only [visits, hopen, Option.bind_eq_bind, Option.bind_some, hparts]
            simp [visitsAt, List.flatMap_def, Function.comp_def]

theorem mapM_congr_left {α β : Type} {f g : α → Option β} {l : List α}
    (h : ∀ a ∈ l, f a = g a) : l.mapM f = l.mapM g := by
  induction l with
  | nil => rfl
  | cons a rest ih =>
      rw [List.forall_mem_cons] at h
      rw [List.mapM_cons, List.mapM_cons, h.1, ih h.2]

/-- What the walk itself needs of a tree: every directory that it descends into
opens, and the paths that it prints fit. -/
inductive OpenTree (opendir : Path → Option (List Dirent)) (room : Nat) : Path → Prop where
  | node {path : Path} {entries : List Dirent} (hopen : opendir path = some entries)
      (hroom : ∀ e ∈ entries, e.hidden = false → (join path e.dName).length < room)
      (hbelow : ∀ e ∈ entries, e.hidden = false → e.dType = 4 →
        OpenTree opendir room (join path e.dName)) :
      OpenTree opendir room path

theorem DirTree.opens {opendir : Path → Option (List Dirent)} {room : Nat} {path : Path}
    (h : DirTree opendir room path) : OpenTree opendir room path := by
  induction h with
  | node hopen _ _ _ hroom _ _ ih => exact .node hopen hroom ih

/-- In a tree the walk never meets a directory that does not open, so it makes no
difference whether the program would pass over one. -/
theorem visits_getD {opendir : Path → Option (List Dirent)} {room : Nat} {path : Path}
    (h : OpenTree opendir room path) (fuel level : Nat) :
    visits (fun path => some ((opendir path).getD [])) room fuel path level =
      visits opendir room fuel path level := by
  induction h generalizing fuel level with
  | @node path entries hopen hroom _ ih =>
      cases fuel with
      | zero => rfl
      | succ fuel =>
          have hentry : ∀ entry ∈ entries,
              entryVisits room (fun path => visits (fun path => some ((opendir path).getD []))
                room fuel path (level + 1)) path level entry =
              entryVisits room (fun path => visits opendir room fuel path (level + 1)) path level
                entry := by
            intro entry hmem
            unfold entryVisits
            split
            · rfl
            · rename_i hshown
              split
              · rfl
              · split
                · rename_i hdir
                  have hbelow := ih entry hmem (by simpa using hshown) hdir fuel (level + 1)
                  exact congrArg (Option.map ((level, join path entry.dName) :: ·)) hbelow
                · rfl
          simp only [visits, hopen, Option.getD_some, Option.bind_eq_bind, Option.bind_some,
            mapM_congr_left hentry]

/-- The visits of one entry of such a tree, with the same result in every array
that is at least as long. -/
theorem entryVisits_open {opendir : Path → Option (List Dirent)} {room : Nat} {path : Path}
    {entry : Dirent}
    (hroom : entry.hidden = false → (join path entry.dName).length < room)
    (hbelow : entry.hidden = false → entry.dType = 4 →
      ∃ visited : Nat → List (Nat × Path), ∀ level fuel more,
        room ≤ (join path entry.dName).length + fuel → room ≤ more →
          visits opendir more fuel (join path entry.dName) level = some (visited level)) :
    ∃ visited : Nat → List (Nat × Path), ∀ level fuel more,
      room ≤ (join path entry.dName).length + fuel → room ≤ more →
        entryVisits more (fun path => visits opendir more fuel path (level + 1)) path level entry =
          some (visited level) := by
  cases hhidden : entry.hidden with
  | true =>
      refine ⟨fun _ => [], ?_⟩
      intro level fuel more _ _
      simp [entryVisits, hhidden]
  | false =>
      have hfits := hroom hhidden
      by_cases hdir : entry.dType = 4
      · obtain ⟨visited, hvisits⟩ := hbelow hhidden hdir
        refine ⟨fun level => (level, join path entry.dName) :: visited (level + 1), ?_⟩
        intro level fuel more hfuel hmore
        have hshort : ¬ more ≤ (join path entry.dName).length := by omega
        simp [entryVisits, hhidden, hshort, hdir, hvisits (level + 1) fuel more hfuel hmore]
      · refine ⟨fun level => [(level, join path entry.dName)], ?_⟩
        intro level fuel more _ hmore
        have hshort : ¬ more ≤ (join path entry.dName).length := by omega
        simp [entryVisits, hhidden, hshort, hdir]

/-- The walk through such a tree ends, and makes the same visits whatever the
length of the array beyond what the paths need. -/
theorem visits_open {opendir : Path → Option (List Dirent)} {room : Nat} {path : Path}
    (h : OpenTree opendir room path) :
    ∃ visited : Nat → List (Nat × Path), ∀ level fuel more,
      room ≤ path.length + fuel → 0 < fuel → room ≤ more →
        visits opendir more fuel path level = some (visited level) := by
  induction h with
  | @node path entries hopen hroom _ ih =>
      have hentry : ∀ entry ∈ entries, ∃ visited : Nat → List (Nat × Path),
          ∀ level fuel more, room ≤ (join path entry.dName).length + fuel → room ≤ more →
            entryVisits more (fun path => visits opendir more fuel path (level + 1)) path level
              entry = some (visited level) := by
        intro entry hmem
        apply entryVisits_open (hroom entry hmem)
        intro hhidden hdir
        have hfits := hroom entry hmem hhidden
        obtain ⟨visited, hvisits⟩ := ih entry hmem hhidden hdir
        exact ⟨visited, fun level fuel more hfuel => hvisits level fuel more hfuel (by omega)⟩
      choose! visited hvisited using hentry
      refine ⟨fun level => (entries.map fun entry => visited entry level).flatten, ?_⟩
      intro level fuel more hfuel hpos hmore
      cases fuel with
      | zero => omega
      | succ fuel =>
          have hdeeper : ∀ entry : Dirent, room ≤ (join path entry.dName).length + fuel := by
            intro entry
            simp only [join, List.length_append, List.length_cons]
            omega
          have hparts := mapM_eq_some_map (l := entries) fun entry hmem =>
            hvisited entry hmem level fuel more (hdeeper entry) hmore
          simp only [visits, hopen, Option.bind_eq_bind, Option.bind_some, hparts]
          rfl

theorem takeWhile_name {name : List UInt8} (h : slash ∉ name) (rest : List (List UInt8)) :
    (name ++ rest.flatMap (slash :: ·)).takeWhile (· ≠ slash) = name := by
  rw [List.takeWhile_append_of_pos]
  · cases rest <;> simp
  · intro b hb
    simp only [ne_eq, decide_not, Bool.not_eq_true', decide_eq_false_iff_not]
    rintro rfl
    exact h hb

/-- The names of a tree can be read off the path. -/
theorem foldl_join_inj {path : Path} {names others : List (List UInt8)}
    (hnames : ∀ name ∈ names, slash ∉ name) (hothers : ∀ name ∈ others, slash ∉ name)
    (h : names.foldl join path = others.foldl join path) : names = others := by
  have hform : ∀ (names : List (List UInt8)) (path : Path),
      names.foldl join path = path ++ names.flatMap (slash :: ·) := by
    intro names
    induction names with
    | nil => simp
    | cons name rest ih =>
        intro path
        simp [ih, join]
  rw [hform, hform, List.append_cancel_left_eq] at h
  induction names generalizing others with
  | nil =>
      cases others with
      | nil => rfl
      | cons other rest => simp at h
  | cons name rest ih =>
      cases others with
      | nil => simp at h
      | cons other orest =>
          simp only [List.flatMap_cons, List.cons_append, List.cons.injEq, true_and] at h
          have hhead : name = other := by
            rw [← takeWhile_name (hnames name List.mem_cons_self) rest, h]
            exact takeWhile_name (hothers other List.mem_cons_self) orest
          rw [hhead, List.append_cancel_left_eq] at h
          rw [hhead, ih (fun n hn => hnames n (List.mem_cons_of_mem _ hn))
            (fun n hn => hothers n (List.mem_cons_of_mem _ hn)) h]

/-- The names on the way to an entry of a tree. -/
theorem DirTree.names {opendir : Path → Option (List Dirent)} {room : Nat} {path : Path}
    {names : List (List UInt8)} (h : DirTree opendir room path)
    (hentry : Entry opendir path names) :
    (∀ name ∈ names, slash ∉ name) ∧ ∀ name ∈ names, 0 ∉ name := by
  induction names generalizing path with
  | nil => simp
  | cons name rest ih =>
      obtain ⟨others, hsame, ⟨entry, hmem, rfl, hhidden⟩, hrest⟩ := hentry
      cases h with
      | @node _ entries hopen hnames hslash hzero hroom htype hbelow =>
          rw [hopen, Option.some.injEq] at hsame
          subst hsame
          have hbehind : (∀ name ∈ rest, slash ∉ name) ∧ ∀ name ∈ rest, 0 ∉ name := by
            cases rest with
            | nil => simp
            | cons next others =>
                have hsome : (opendir (join path entry.dName)).isSome := by
                  obtain ⟨below, hdir, -⟩ := hrest
                  rw [hdir]
                  rfl
                exact ih (hbelow entry hmem hhidden ((htype entry hmem hhidden).mpr hsome)) hrest
          simp only [List.forall_mem_cons]
          exact ⟨⟨hslash entry hmem, hbehind.1⟩, hzero entry hmem, hbehind.2⟩

theorem zero_not_mem_place {path : Path} {names : List (List UInt8)} (hpath : 0 ∉ path)
    (hnames : ∀ name ∈ names, 0 ∉ name) : 0 ∉ names.foldl join path := by
  induction names generalizing path with
  | nil => exact hpath
  | cons name rest ih =>
      rw [List.forall_mem_cons] at hnames
      apply ih _ hnames.2
      simp only [join, List.mem_append, List.mem_cons, not_or]
      exact ⟨hpath, by decide, hnames.1⟩

/-- The same tree with the entries of its directories in other orders. -/
def Reordered (opendir other : Path → Option (List Dirent)) : Prop :=
  ∀ path, Option.Rel List.Perm (opendir path) (other path)

theorem Reordered.some {opendir other : Path → Option (List Dirent)}
    (h : Reordered opendir other) {path : Path} {entries : List Dirent}
    (hopen : opendir path = some entries) :
    ∃ others, other path = some others ∧ entries.Perm others := by
  have hrel := h path
  rw [hopen] at hrel
  cases hother : other path with
  | none =>
      rw [hother] at hrel
      cases hrel
  | some others =>
      rw [hother] at hrel
      cases hrel with
      | some hperm => exact ⟨others, rfl, hperm⟩

theorem Reordered.isSome {opendir other : Path → Option (List Dirent)}
    (h : Reordered opendir other) (path : Path) :
    (opendir path).isSome = (other path).isSome := by
  have hrel := h path
  generalize opendir path = first, other path = second at hrel
  cases hrel <;> rfl

theorem Reordered.symm {opendir other : Path → Option (List Dirent)}
    (h : Reordered opendir other) : Reordered other opendir := by
  intro path
  have hrel := h path
  generalize opendir path = first, other path = second at hrel
  cases hrel with
  | none => exact .none
  | some hperm => exact .some hperm.symm

theorem Reordered.openTree {opendir other : Path → Option (List Dirent)} {room : Nat}
    (h : Reordered opendir other) {path : Path} (htree : OpenTree opendir room path) :
    OpenTree other room path := by
  induction htree with
  | node hopen hroom _ ih =>
      obtain ⟨others, hother, hperm⟩ := h.some hopen
      have hback : ∀ e ∈ others, e ∈ _ := fun e he => hperm.mem_iff.mpr he
      exact .node hother (fun e he => hroom e (hback e he)) (fun e he => ih e (hback e he))

theorem mapM_getD {α β : Type} {f : α → Option β} {l : List α} {out : List β}
    (h : l.mapM f = some out) (d : β) :
    (∀ a ∈ l, f a = some ((f a).getD d)) ∧ out = l.map fun a => (f a).getD d := by
  induction l generalizing out with
  | nil =>
      cases h
      simp
  | cons a rest ih =>
      rw [List.mapM_cons] at h
      cases ha : f a with
      | none =>
          rw [ha] at h
          cases h
      | some b =>
          cases hrest : rest.mapM f with
          | none =>
              rw [ha, hrest] at h
              cases h
          | some others =>
              rw [ha, hrest] at h
              cases h
              obtain ⟨hall, rfl⟩ := ih hrest
              rw [List.forall_mem_cons, List.map_cons, ha]
              exact ⟨⟨rfl, hall⟩, rfl⟩

/-- The visits of a directory come entry by entry. -/
theorem visits_succ {opendir : Path → Option (List Dirent)} {room fuel : Nat} {path : Path}
    {level : Nat} {visited : List (Nat × Path)}
    (h : visits opendir room (fuel + 1) path level = some visited) :
    ∃ entries part, opendir path = some entries ∧
      (∀ entry ∈ entries, entryVisits room (fun path => visits opendir room fuel path (level + 1))
        path level entry = some (part entry)) ∧
      visited = entries.flatMap part := by
  unfold visits at h
  cases hopen : opendir path with
  | none =>
      rw [hopen] at h
      cases h
  | some entries =>
      rw [hopen, Option.bind_eq_bind, Option.bind_some] at h
      obtain ⟨parts, hparts, hflat⟩ := Option.bind_eq_some_iff.mp h
      cases hflat
      obtain ⟨hall, rfl⟩ := mapM_getD hparts []
      exact ⟨entries, _, rfl, hall, rfl⟩

/-- In another order of the entries the walk makes the same visits. -/
theorem visits_reordered {opendir other : Path → Option (List Dirent)} {room : Nat}
    (h : Reordered opendir other) {fuel : Nat} {path : Path} {level : Nat}
    {visited others : List (Nat × Path)}
    (hvisits : visits opendir room fuel path level = some visited)
    (hothers : visits other room fuel path level = some others) : visited.Perm others := by
  induction fuel generalizing path level visited others with
  | zero => cases hvisits
  | succ fuel ih =>
      obtain ⟨entries, part, hopen, hparts, rfl⟩ := visits_succ hvisits
      obtain ⟨entries', part', hopen', hparts', rfl⟩ := visits_succ hothers
      obtain ⟨same, hsame, hperm⟩ := h.some hopen
      rw [hopen', Option.some.injEq] at hsame
      subst hsame
      apply hperm.flatMap
      intro entry hmem
      have hleft := hparts entry hmem
      have hright := hparts' entry (hperm.mem_iff.mp hmem)
      unfold entryVisits at hleft hright
      split_ifs at hleft hright
      · rw [← Option.some.inj hleft, ← Option.some.inj hright]
      · obtain ⟨below, hbelow, hpart⟩ := Option.map_eq_some_iff.mp hleft
        obtain ⟨below', hbelow', hpart'⟩ := Option.map_eq_some_iff.mp hright
        rw [← hpart, ← hpart']
        exact (ih hbelow hbelow').cons _
      · rw [← Option.some.inj hleft, ← Option.some.inj hright]

/-- Where no name holds a zero byte, no visited path does. -/
theorem visits_zero {opendir : Path → Option (List Dirent)}
    (hnames : ∀ path, ∀ entries ∈ opendir path, ∀ e ∈ entries, 0 ∉ e.dName) {room fuel : Nat}
    {path : Path} (hpath : 0 ∉ path) {level : Nat} {visited : List (Nat × Path)}
    (h : visits opendir room fuel path level = some visited) : ∀ v ∈ visited, 0 ∉ v.2 := by
  induction fuel generalizing path level visited with
  | zero => cases h
  | succ fuel ih =>
      obtain ⟨entries, part, hopen, hparts, rfl⟩ := visits_succ h
      intro v hv
      obtain ⟨entry, hmem, hv⟩ := List.mem_flatMap.mp hv
      have hjoin : 0 ∉ join path entry.dName := by
        simp only [join, List.mem_append, List.mem_cons, not_or]
        exact ⟨hpath, by decide, hnames path entries hopen entry hmem⟩
      have hpart := hparts entry hmem
      unfold entryVisits at hpart
      split_ifs at hpart
      · rw [← Option.some.inj hpart] at hv
        cases hv
      · obtain ⟨below, hbelow, hpart⟩ := Option.map_eq_some_iff.mp hpart
        rw [← hpart] at hv
        rcases List.mem_cons.mp hv with rfl | hv
        · exact hjoin
        · exact ih hjoin hbelow v hv
      · rw [← Option.some.inj hpart, List.mem_singleton] at hv
        rw [hv]
        exact hjoin

theorem Reordered.entry {opendir other : Path → Option (List Dirent)}
    (h : Reordered opendir other) {path : Path} {names : List (List UInt8)}
    (hentry : Entry opendir path names) : Entry other path names := by
  induction names generalizing path with
  | nil => trivial
  | cons name rest ih =>
      obtain ⟨entries, hopen, ⟨e, he, hname, hhidden⟩, hrest⟩ := hentry
      obtain ⟨others, hother, hperm⟩ := h.some hopen
      exact ⟨others, hother, ⟨e, hperm.mem_iff.mp he, hname, hhidden⟩, ih hrest⟩

theorem Reordered.dirTree {opendir other : Path → Option (List Dirent)} {room : Nat}
    (h : Reordered opendir other) {path : Path} (htree : DirTree opendir room path) :
    DirTree other room path := by
  induction htree with
  | node hopen hnames hslash hzero hroom htype _ ih =>
      obtain ⟨others, hother, hperm⟩ := h.some hopen
      have hback : ∀ e ∈ others, e ∈ _ := fun e he => hperm.mem_iff.mpr he
      constructor
      · exact hother
      · exact (hperm.map Dirent.dName).nodup_iff.mp hnames
      · exact fun e he => hslash e (hback e he)
      · exact fun e he => hzero e (hback e he)
      · exact fun e he => hroom e (hback e he)
      · intro e he hhidden
        rw [← h.isSome]
        exact htype e (hback e he) hhidden
      · exact fun e he => ih e (hback e he)

end Cse420.Lister
