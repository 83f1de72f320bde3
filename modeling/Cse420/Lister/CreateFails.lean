import Cse420.Lister.Listing

/-!
Project2's parallel mode where `pthread_create` may fail. Its result is not looked
at: the item keeps the count that was to be overwritten, and its thread's id is
that of the thread created before it in the same call of `printDirPar`, or what the
local `tid` held before any was. A set of calls that fail is given by the paths they
are made for.
-/

namespace Cse420.Lister.CreateFails

open Interference Project2

section Model

/-- What a `pthread_t` holds that was never assigned: in the local `tid` of the call
of `printDirPar` for a directory and in a block from `malloc`. Where this is `none`
it is a value that `pthread_join` answers without effect. -/
structure Leftover where
  localTid : Path → Option Nat
  itemTid : Option Nat

variable (fs : FileSystem) (keyword : Path) (fails : Path → Bool) (leftover : Leftover)

/-- `AddPath`, which leaves the new item's `tid` as it is. -/
def addPath (level : Nat) (path : Path) (s : State) : State :=
  { s with
    items := LevelList.insert Item.level ⟨s.size, level, 1, none, leftover.itemTid, path⟩ s.items
    size := s.size + 1 }

/-- The body of the loop of `printDirPar` with its local `tid`. -/
def visitPar (level : Nat) (path : Path) (tid : Option Nat) (w : World State Nat) :
    World State Nat × Option Nat :=
  let itemAdr := w.state.size
  let w := act (startSearch fs keyword) (addPath leftover level path) w
  let w := act (startSearch fs keyword) (assign itemAdr ({ · with count := some 69 })) w
  let w := act (startSearch fs keyword) (fun s =>
    if fails path then s else { s with started := itemAdr :: s.started }) w
  let tid := if fails path then tid else some itemAdr
  (act (startSearch fs keyword) (assign itemAdr ({ · with tid := tid })) w, tid)

/-- `AddPath(list,1,path)->count = 0`. -/
def visitRoot (path : Path) (w : World State Nat) : World State Nat :=
  let itemAdr := w.state.size
  let w := act (startSearch fs keyword) (addPath leftover 1 path) w
  act (startSearch fs keyword) (assign itemAdr ({ · with count := some 0 })) w

/-- The loop of `printDirPar` at one entry, where `below` is the call it makes for
a directory. That call has a `tid` of its own. -/
def entryPar (below : Path → World State Nat → Option (World State Nat)) (path : Path)
    (level : Nat) : World State Nat × Option Nat → Dirent → Option (World State Nat × Option Nat)
  | (w, tid), entry =>
      if entry.hidden then some (w, tid)
      else if maxPathSize ≤ (join path entry.dName).length then none
      else
        let (w, tid) := visitPar fs keyword fails leftover level (join path entry.dName) tid w
        if entry.dType = 4 then (below (join path entry.dName) w).map (·, tid)
        else some (w, tid)

def walkPar : Nat → Path → Nat → World State Nat → Option (World State Nat)
  | 0, _, _, _ => none
  | fuel + 1, path, level, w => do
      let entries ← fs.opendir path
      let (w, _) ← entries.foldlM (entryPar fs keyword fails leftover
        (fun path w => walkPar fuel path (level + 1) w) path level) (w, leftover.localTid path)
      return w

def printDirPar (fuel : Nat) (path : Path) (lvl : Nat) (w : World State Nat) :
    Option (World State Nat) :=
  walkPar fs keyword fails leftover fuel path (lvl + 1)
    (if lvl = 1 then visitRoot fs keyword leftover path w else w)

/-- `pthread_join`. No result for a value that is neither a thread's id nor answered
without effect. -/
def pthreadJoin (tid : Option Nat) (s : State) : Option State :=
  match tid with
  | none => some s
  | some worker => if worker ∈ s.started then some (startSearch fs keyword s worker) else none

/-- The loop of `fileWriter` from the node at `i` on: what it joins and then
prints. -/
def writeLoop : Nat → Nat → World State Nat → Option (List (Option Nat × Record))
  | 0, _, _ => some []
  | n + 1, i, w =>
      let w := tick (startSearch fs keyword) w
      match w.state.items[i]? with
      | none => some []
      | some node => do
          let joined ← pthreadJoin fs keyword node.tid w.state
          let w := tick (startSearch fs keyword) { w with state := joined }
          let lines ← writeLoop n (i + 1) w
          return ((w.state.items[i]?).map fun item => (node.tid, item.record)).toList ++ lines

def fileWriter (w : World State Nat) : Option (List (Option Nat × Record)) :=
  writeLoop fs keyword w.state.items.length 0 w

/-- `main` in parallel mode. -/
def main (testpath : Path) (fuel : Nat) (schedule : List (List Nat)) :
    Option (List (Option Nat × Record)) := do
  let mylist ← printDirPar fs keyword fails leftover fuel testpath 1 ⟨⟨[], 0, [], []⟩, schedule⟩
  let mylist ← sortHelper fs keyword fuel mylist
  let mylist ← numberChildren fs keyword mylist
  fileWriter fs keyword mylist

/-- Every line has the right count, and no thread is joined twice. -/
structure Intact (lines : List (Option Nat × Record)) : Prop where
  counts : ∀ line ∈ lines, line.2.count = some (searchTest fs line.2.path keyword)
  joins : ∀ worker, (lines.map Prod.fst).count (some worker) ≤ 1

/-- The program comes to its end with such lines, under every schedule. -/
def Survives (root : Path) : Prop :=
  ∃ N, ∀ fuel, N ≤ fuel → ∀ schedule, ∃ lines,
    main fs keyword fails leftover root fuel schedule = some lines ∧ Intact fs keyword lines

/-- The calls that fail in a directory come before all that succeed there, the
count that is left in their items happens to be right, and what `tid` holds when
the loop gets to these entries is joined without effect if a call fails. -/
structure Harmless (dir : Path) (tid : Option Nat) (entries : List Dirent) : Prop where
  counts : ∀ e ∈ entries, e.hidden = false → fails (join dir e.dName) = true →
    searchTest fs (join dir e.dName) keyword = 69
  first : entries.Pairwise fun a b => a.hidden = false → b.hidden = false →
    fails (join dir b.dName) = true → fails (join dir a.dName) = true
  unassigned : tid ≠ none → ∀ e ∈ entries, e.hidden = false → fails (join dir e.dName) = false

/-- The directories that a call for `dir` goes through. -/
inductive Descends (opendir : Path → Option (List Dirent)) : Path → Path → Prop where
  | here (dir : Path) : Descends opendir dir dir
  | down {dir below : Path} {entries : List Dirent} {e : Dirent}
      (hopen : opendir dir = some entries) (he : e ∈ entries) (hshown : e.hidden = false)
      (hdir : e.dType = 4) (hbelow : Descends opendir (join dir e.dName) below) :
      Descends opendir dir below

/-- This holds in all directories of the tree. -/
def Spared (root : Path) : Prop :=
  ∀ dir, Descends fs.opendir root dir → ∀ entries, fs.opendir dir = some entries →
    Harmless fs keyword fails dir (leftover.localTid dir) entries

end Model

section Never

variable {fs : FileSystem} {keyword : Path}

/-- A loop on a state looked at through a view of it. -/
theorem foldlM_view {α β ε : Type} {f : α → ε → Option α} {g : β → ε → Option β} (view : α → β)
    (h : ∀ a e, (f a e).map view = g (view a) e) (l : List ε) (a : α) :
    (l.foldlM f a).map view = l.foldlM g (view a) := by
  induction l generalizing a with
  | nil => rfl
  | cons e rest ih =>
      rw [List.foldlM_cons, List.foldlM_cons, ← h]
      cases f a e with
      | none => rfl
      | some next => exact ih next

/-- `malloc`'s block holds a value that is joined without effect. -/
def Leftover.quiet (localTid : Path → Option Nat) : Leftover := ⟨localTid, none⟩

variable {localTid : Path → Option Nat}

theorem visitPar_never (level : Nat) (path : Path) (tid : Option Nat) (w : World State Nat) :
    visitPar fs keyword (fun _ => false) (.quiet localTid) level path tid w =
      (Project2.visitPar fs keyword level path w, some w.state.size) := rfl

/-- Where no call fails, the walk is that of Project2. -/
theorem walkPar_never (fuel : Nat) (path : Path) (level : Nat) (w : World State Nat) :
    walkPar fs keyword (fun _ => false) (.quiet localTid) fuel path level w =
      walk fs.opendir maxPathSize (Project2.visitPar fs keyword) fuel path level w := by
  induction fuel generalizing path level w with
  | zero => rfl
  | succ fuel ih =>
      unfold walkPar walk
      cases fs.opendir path with
      | none => rfl
      | some entries =>
          simp only [Option.bind_eq_bind, Option.bind_some]
          rw [← foldlM_view (f := entryPar fs keyword (fun _ => false) (.quiet localTid)
            (fun path w => walkPar fs keyword (fun _ => false) (.quiet localTid) fuel path
              (level + 1) w) path level) Prod.fst _ entries (w, localTid path)]
          · simp only [Leftover.quiet]
            cases entries.foldlM (entryPar fs keyword _ _ _ path level) (w, localTid path) <;> rfl
          · rintro ⟨v, tid⟩ entry
            simp only [entryPar]
            split
            · rfl
            · split
              · rfl
              · rw [visitPar_never]
                simp only
                split
                · rw [ih, Option.map_map]
                  exact Option.map_id'
                · rfl

/-- A join that has a result has that of Project2. -/
theorem pthreadJoin_project2 {tid : Option Nat} {s joined : State}
    (h : pthreadJoin fs keyword tid s = some joined) :
    Project2.pthreadJoin fs keyword tid s = joined := by
  cases tid with
  | none => exact Option.some.inj h
  | some worker =>
      rw [pthreadJoin, Option.ite_none_right_eq_some] at h
      exact Option.some.inj h.2

/-- The lines of `fileWriter` are those of Project2. -/
theorem writeLoop_project2 (n i : Nat) (w : World State Nat) {lines : List (Option Nat × Record)}
    (h : writeLoop fs keyword n i w = some lines) :
    Project2.writeLoop fs keyword .parallel n i w = lines.map Prod.snd := by
  induction n generalizing i w lines with
  | zero =>
      cases h
      rfl
  | succ n ih =>
      unfold writeLoop at h
      unfold Project2.writeLoop
      simp only [if_true]
      cases hnode : (tick (startSearch fs keyword) w).state.items[i]? with
      | none =>
          simp only [hnode] at h
          cases h
          rfl
      | some node =>
          simp only [hnode] at h
          obtain ⟨joined, hjoined, h⟩ := Option.bind_eq_some_iff.mp h
          obtain ⟨rest, hrest, h⟩ := Option.bind_eq_some_iff.mp h
          cases h
          simp only
          rw [pthreadJoin_project2 hjoined, ih _ _ hrest, List.map_append]
          cases (tick (startSearch fs keyword) _).state.items[i]? <;> rfl

/-- Where no call fails, the program writes what Project2's does. -/
theorem main_never {root : Path} {fuel : Nat} {schedule : List (List Nat)}
    {lines : List (Option Nat × Record)}
    (h : main fs keyword (fun _ => false) (.quiet localTid) root fuel schedule = some lines) :
    Project2.main fs keyword .parallel root fuel schedule = some (lines.map Prod.snd) := by
  unfold main printDirPar at h
  unfold Project2.main Project2.printDirPar
  simp only [walkPar_never] at h
  obtain ⟨w, hw, h⟩ := Option.bind_eq_some_iff.mp h
  obtain ⟨v, hv, h⟩ := Option.bind_eq_some_iff.mp h
  obtain ⟨u, hu, h⟩ := Option.bind_eq_some_iff.mp h
  have hroot : visitRoot fs keyword (.quiet localTid) root ⟨⟨[], 0, [], []⟩, schedule⟩ =
      Project2.visitRoot fs keyword root ⟨⟨[], 0, [], []⟩, schedule⟩ := rfl
  rw [hroot] at hw
  simp only [hw, hv, hu, Option.bind_eq_bind, Option.bind_some]
  exact congrArg some (writeLoop_project2 u.state.items.length 0 u h)

end Never

end Cse420.Lister.CreateFails
