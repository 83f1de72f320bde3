import Cse420.Lister.CreateFailsVisits

/-!
When failing calls of `pthread_create` do no harm. Through the loops of
`printDirPar`, the sort, the numbering and the writing it comes down to the order
of the entries in each directory, to the count that is left in an item and to what
a `tid` holds that was never assigned.
-/

namespace Cse420.Lister.CreateFails

open CMemory Interference Project2

section Loop

variable {fs : FileSystem} {keyword : Path} {s t : State} {fails : Path → Bool}
  {leftover : Leftover}

/-- What the loop of a call does no harm for, from the place where `tid` has this
value. -/
structure LoopSpared (fs : FileSystem) (keyword : Path) (fails : Path → Bool)
    (leftover : Leftover) (dir : Path) (tid : Option Nat) (entries : List Dirent) : Prop
    extends Harmless fs keyword fails dir tid entries where
  below : ∀ e ∈ entries, e.hidden = false → e.dType = 4 →
    Spared fs keyword fails leftover (join dir e.dName)

theorem spared_iff {dir : Path} {entries : List Dirent} (hopen : fs.opendir dir = some entries) :
    Spared fs keyword fails leftover dir ↔
      LoopSpared fs keyword fails leftover dir (leftover.localTid dir) entries := by
  constructor
  · intro h
    refine ⟨h dir (.here dir) entries hopen, ?_⟩
    intro e he hshown hdir below hbelow
    exact h below (.down hopen he hshown hdir hbelow)
  · intro h below hbelow
    cases hbelow with
    | here =>
        intro others hothers
        rw [hopen, Option.some.injEq] at hothers
        subst hothers
        exact h.toHarmless
    | down hothers he hshown hdir hbelow =>
        rw [hopen, Option.some.injEq] at hothers
        subst hothers
        exact h.below _ he hshown hdir below hbelow

theorem loopSpared_nil (dir : Path) (tid : Option Nat) :
    LoopSpared fs keyword fails leftover dir tid [] := by
  constructor
  · constructor <;> simp
  · simp

theorem loopSpared_hidden {dir : Path} {tid : Option Nat} {e : Dirent} {rest : List Dirent}
    (hhidden : e.hidden = true) :
    LoopSpared fs keyword fails leftover dir tid (e :: rest) ↔
      LoopSpared fs keyword fails leftover dir tid rest := by
  constructor
  · rintro ⟨⟨hcounts, hfirst, hassigned⟩, hbelow⟩
    rw [List.forall_mem_cons] at hcounts hbelow
    rw [List.pairwise_cons] at hfirst
    refine ⟨⟨hcounts.2, hfirst.2, ?_⟩, hbelow.2⟩
    intro hne
    exact (List.forall_mem_cons.mp (hassigned hne)).2
  · rintro ⟨⟨hcounts, hfirst, hassigned⟩, hbelow⟩
    constructor
    · constructor
      · simpa [hhidden] using hcounts
      · simpa [hhidden] using hfirst
      · simpa [hhidden] using hassigned
    · simpa [hhidden] using hbelow

/-- What an entry asks for, and what it leaves to the rest of the loop. -/
theorem loopSpared_cons {dir : Path} {tid : Option Nat} {e : Dirent} {rest : List Dirent}
    (worker : Nat) (hshown : e.hidden = false) :
    LoopSpared fs keyword fails leftover dir tid (e :: rest) ↔
      ((fails (join dir e.dName) = true →
          searchTest fs (join dir e.dName) keyword = 69 ∧ tid = none) ∧
        (e.dType = 4 → Spared fs keyword fails leftover (join dir e.dName))) ∧
      LoopSpared fs keyword fails leftover dir
        (if fails (join dir e.dName) then tid else some worker) rest := by
  constructor
  · rintro ⟨⟨hcounts, hfirst, hassigned⟩, hbelow⟩
    rw [List.forall_mem_cons] at hcounts hbelow
    rw [List.pairwise_cons] at hfirst
    have hnone : fails (join dir e.dName) = true → tid = none := by
      intro hfails
      by_contra hne
      rw [(List.forall_mem_cons.mp (hassigned hne)).1 hshown] at hfails
      cases hfails
    refine ⟨⟨?_, hbelow.1 hshown⟩, ⟨⟨hcounts.2, hfirst.2, ?_⟩, hbelow.2⟩⟩
    · intro hfails
      exact ⟨hcounts.1 hshown hfails, hnone hfails⟩
    · intro hne b hb hbshown
      cases hfails : fails (join dir e.dName) with
      | true =>
          rw [hfails, if_pos rfl, hnone hfails] at hne
          exact absurd rfl hne
      | false =>
          by_contra hbfails
          rw [Bool.not_eq_false] at hbfails
          rw [hfirst.1 b hb hshown hbshown hbfails] at hfails
          cases hfails
  · rintro ⟨⟨hentry, hdir⟩, ⟨⟨hcounts, hfirst, hassigned⟩, hbelow⟩⟩
    refine ⟨⟨?_, ?_, ?_⟩, ?_⟩
    · rw [List.forall_mem_cons]
      exact ⟨fun _ hfails => (hentry hfails).1, hcounts⟩
    · rw [List.pairwise_cons]
      refine ⟨?_, hfirst⟩
      intro b hb _ hbshown hbfails
      by_contra hfails
      rw [if_neg hfails] at hassigned
      rw [hassigned (by simp) b hb hbshown] at hbfails
      cases hbfails
    · intro hne
      have hfails : fails (join dir e.dName) = false := by
        by_contra hfails
        rw [Bool.not_eq_false] at hfails
        exact hne (hentry hfails).2
      rw [hfails] at hassigned
      rw [List.forall_mem_cons]
      exact ⟨fun _ => hfails, hassigned (by simp)⟩
    · rw [List.forall_mem_cons]
      exact ⟨fun _ => hdir, hbelow⟩

/-- A call with this fuel does what it should wherever it comes to its end. -/
def WalksWell (fs : FileSystem) (keyword : Path) (fails : Path → Bool) (leftover : Leftover)
    (fuel : Nat) : Prop :=
  ∀ path level visited (w : World State Nat), Ready fs keyword w.state →
    visits fs.opendir maxPathSize fuel path level = some visited →
    ∃ v, walkPar fs keyword fails leftover fuel path level w = some v ∧
      Walked fs keyword visited (Spared fs keyword fails leftover path) w.state v.state

/-- One entry that is not hidden. -/
theorem entryPar_spec {fuel : Nat} (hfuel : WalksWell fs keyword fails leftover fuel) {path : Path}
    {level : Nat} {entry : Dirent} {part : List (Nat × Path)} (hshown : entry.hidden = false)
    (hpart : entryVisits maxPathSize (fun path =>
      visits fs.opendir maxPathSize fuel path (level + 1)) path level entry = some part)
    {w : World State Nat} (h : Ready fs keyword w.state) (tid : Option Nat) :
    ∃ v, entryPar fs keyword fails leftover
        (fun path w => walkPar fs keyword fails leftover fuel path (level + 1) w) path level
          (w, tid) entry =
            some (v, if fails (join path entry.dName) then tid else some w.state.size) ∧
      Walked fs keyword part ((fails (join path entry.dName) = true →
          searchTest fs (join path entry.dName) keyword = 69 ∧ tid = none) ∧
        (entry.dType = 4 → Spared fs keyword fails leftover (join path entry.dName)))
      w.state v.state := by
  have hvisit := visitPar_walked fails leftover h level (join path entry.dName) tid
  simp only [entryVisits, hshown, Bool.false_eq_true, if_false,
    Option.ite_none_left_eq_some] at hpart
  obtain ⟨hroom, hpart⟩ := hpart
  simp only [entryPar, hshown, Bool.false_eq_true, if_false, if_neg hroom]
  by_cases hdir : entry.dType = 4
  · rw [if_pos hdir] at hpart
    obtain ⟨below, hbelow, rfl⟩ := Option.map_eq_some_iff.mp hpart
    obtain ⟨v, hv, hwalked⟩ := hfuel _ _ _ _ hvisit.ready hbelow
    refine ⟨v, ?_, ?_⟩
    · rw [if_pos hdir, hv]
      rfl
    · apply (hvisit.trans hwalked).congr
      simp [hdir]
  · rw [if_neg hdir, Option.some.injEq] at hpart
    subst hpart
    refine ⟨(visitPar fs keyword fails leftover level (join path entry.dName) tid w).1, ?_, ?_⟩
    · rw [if_neg hdir]
      rfl
    · apply hvisit.congr
      simp [hdir]

theorem loop_spec {fuel : Nat} (hfuel : WalksWell fs keyword fails leftover fuel) {path : Path}
    {level : Nat} (entries : List Dirent) {parts : List (List (Nat × Path))}
    (hparts : entries.mapM (entryVisits maxPathSize
      (fun path => visits fs.opendir maxPathSize fuel path (level + 1)) path level) = some parts)
    {w : World State Nat} (h : Ready fs keyword w.state) (tid : Option Nat) :
    ∃ after, entries.foldlM (entryPar fs keyword fails leftover
        (fun path w => walkPar fs keyword fails leftover fuel path (level + 1) w) path level)
          (w, tid) = some after ∧
      Walked fs keyword parts.flatten (LoopSpared fs keyword fails leftover path tid entries)
        w.state after.1.state := by
  induction entries generalizing parts w tid with
  | nil =>
      cases hparts
      exact ⟨(w, tid), rfl, (Walked.refl h).congr (iff_of_true trivial (loopSpared_nil path tid))⟩
  | cons entry rest ih =>
      rw [List.mapM_cons] at hparts
      obtain ⟨part, hpart, hparts⟩ := Option.bind_eq_some_iff.mp hparts
      obtain ⟨parts, hrest, hparts⟩ := Option.bind_eq_some_iff.mp hparts
      cases hparts
      rw [List.foldlM_cons]
      cases hhidden : entry.hidden with
      | true =>
          have hnone : part = [] := by
            simp only [entryVisits, hhidden, if_true, Option.some.injEq] at hpart
            exact hpart.symm
          subst hnone
          obtain ⟨after, hafter, hwalked⟩ := ih hrest h tid
          refine ⟨after, ?_, hwalked.congr (loopSpared_hidden hhidden).symm⟩
          rw [entryPar, hhidden, if_pos rfl]
          exact hafter
      | false =>
          obtain ⟨v, hv, hentry⟩ := entryPar_spec hfuel hhidden hpart h tid
          obtain ⟨after, hafter, hwalked⟩ := ih hrest hentry.ready
            (if fails (join path entry.dName) then tid else some w.state.size)
          refine ⟨after, ?_, ?_⟩
          · rw [hv]
            exact hafter
          · exact (hentry.trans hwalked).congr (loopSpared_cons w.state.size hhidden).symm

theorem walkPar_spec (fs : FileSystem) (keyword : Path) (fails : Path → Bool)
    (leftover : Leftover) (fuel : Nat) :
    WalksWell fs keyword fails leftover fuel := by
  induction fuel with
  | zero =>
      intro path level visited w _ hvisits
      cases hvisits
  | succ fuel ih =>
      intro path level visited w h hvisits
      unfold visits at hvisits
      obtain ⟨entries, hopen, hvisits⟩ := Option.bind_eq_some_iff.mp hvisits
      obtain ⟨parts, hparts, hvisits⟩ := Option.bind_eq_some_iff.mp hvisits
      cases hvisits
      obtain ⟨after, hafter, hwalked⟩ := loop_spec ih entries hparts h (leftover.localTid path)
      refine ⟨after.1, ?_, hwalked.congr (spared_iff hopen).symm⟩
      unfold walkPar
      simp only [hopen, hafter, Option.bind_eq_bind, Option.bind_some]
      rfl

/-- The root has no worker, and as a directory it has the count it is given. Its `tid`
is joined as it was left. -/
theorem visitRoot_walked (leftover : Leftover) {w : World State Nat}
    (h : Ready fs keyword w.state) {root : Path} (hopen : (fs.opendir root).isSome) :
    Walked fs keyword [(1, root)] (leftover.itemTid = none) w.state
      (visitRoot fs keyword leftover root w).state := by
  have hzero : searchTest fs root keyword = 0 := by
    simp [searchTest, searchWith, hopen]
  have hplacing := (placing_addPath leftover h 1 root).tick.setCount rfl (some 0)
  have hstarted : (visitRoot fs keyword leftover root w).state.started = w.state.started := by
    simp only [visitRoot, act, assign, addPath, tick_started]
  apply (hplacing.walked h (by simp) fun worker hworker => .inr (hstarted ▸ hworker)).congr
  constructor
  · exact fun hfine => hfine.join (Option.some_ne_none _)
  · exact fun hnone => ⟨congrArg some hzero.symm, fun _ => hnone⟩

/-- The list when the walk is over. -/
theorem printDirPar_spec (keyword : Path) (fails : Path → Bool) (leftover : Leftover)
    {root : Path} {fuel : Nat} {visited : List (Nat × Path)} (schedule : List (List Nat))
    (hopen : (fs.opendir root).isSome)
    (hvisits : visits fs.opendir maxPathSize fuel root 2 = some visited) :
    ∃ w, printDirPar fs keyword fails leftover fuel root 1 ⟨⟨[], 0, [], []⟩, schedule⟩ = some w ∧
      Walked fs keyword ((1, root) :: visited)
        (leftover.itemTid = none ∧ Spared fs keyword fails leftover root) ⟨[], 0, [], []⟩
        w.state := by
  have hempty : Ready fs keyword ⟨[], 0, [], []⟩ := by
    constructor
    · constructor <;> simp
    all_goals simp [marks]
  have hroot := visitRoot_walked leftover (w := ⟨⟨[], 0, [], []⟩, schedule⟩) hempty hopen
  obtain ⟨w, hw, hwalked⟩ :=
    walkPar_spec fs keyword fails leftover fuel root 2 visited _ hroot.ready hvisits
  refine ⟨w, ?_, hroot.trans hwalked⟩
  rw [printDirPar, if_pos rfl]
  exact hw

theorem moved_marks {items : List Item} (h : Moved s.items items) :
    (marks { s with items }).Perm (marks s) := by
  have hmark : mark s.started ∘ Item.unnumbered = mark s.started := rfl
  have hperm := h.map (mark s.started)
  rw [List.map_map, List.map_map, hmark] at hperm
  exact hperm

theorem Fine.congr (hperm : (marks t).Perm (marks s)) :
    Fine fs keyword t ↔ Fine fs keyword s := by
  unfold Fine
  simp only [hperm.mem_iff]

/-- Neither the workers nor the moves of items change what the lines are going to
be. -/
theorem ready_lasting (p : Prop) :
    Lasting fs keyword fun s => Ready fs keyword s ∧ (Fine fs keyword s ↔ p) where
  worker := by
    rintro s worker ⟨hready, hfine⟩
    refine ⟨hready.startSearch worker, Iff.trans ?_ hfine⟩
    apply Fine.congr
    rw [startSearch_marks]
  moved := by
    rintro s items hmoved ⟨hready, hfine⟩
    have hperm := moved_marks hmoved
    refine ⟨⟨⟨?_, hready.threads, hready.created⟩, ?_, ?_, ?_, ?_⟩, (Fine.congr hperm).trans hfine⟩
    · intro item hitem hend
      obtain ⟨before, hbefore, heq⟩ := hmoved.mem hitem
      simp only [Item.unnumbered, Item.mk.injEq] at heq
      obtain ⟨haddr, -, -, hcount, -, hpath⟩ := heq
      rw [haddr] at hend
      unfold Counted
      rw [hcount, hpath]
      exact hready.ended before hbefore hend
    · exact fun m hm => hready.fresh m (hperm.mem_iff.mp hm)
    · exact (hperm.map Mark.addr).nodup_iff.mpr hready.apart
    · exact fun m hm => hready.known m (hperm.mem_iff.mp hm)
    · intro worker hworker
      obtain ⟨m, hm, haddr⟩ := hready.owned worker hworker
      exact ⟨m, hperm.mem_iff.mpr hm, haddr⟩

end Loop

section Lines

variable {fs : FileSystem} {keyword : Path} {s : State}

/-- What a line says of its item: the id that was joined, the path and the count. -/
def content (line : Option Nat × Record) : Option Nat × Path × Option Int :=
  (line.1, line.2.path, line.2.count)

def Mark.content (fs : FileSystem) (keyword : Path) (m : Mark) :
    Option Nat × Path × Option Int :=
  (m.tid, m.path, m.count fs keyword)

theorem startSearch_finished {worker : Nat} (h : worker ∈ s.finished) (other : Nat) :
    worker ∈ (startSearch fs keyword s other).finished := by
  unfold startSearch
  split
  · exact List.mem_cons_of_mem _ h
  · exact h

theorem pthreadJoin_finished {worker : Nat} (h : worker ∈ s.started) :
    worker ∈ (Project2.pthreadJoin fs keyword (some worker) s).finished := by
  simp only [Project2.pthreadJoin, startSearch]
  split
  · exact List.mem_cons_self
  · rename_i hrunning
    by_contra hnot
    exact hrunning ⟨h, hnot⟩

theorem pthreadJoin_marks (tid : Option Nat) (s : State) :
    marks (Project2.pthreadJoin fs keyword tid s) = marks s := by
  cases tid with
  | none => rfl
  | some worker => exact startSearch_marks s worker

theorem pthreadJoin_started (tid : Option Nat) (s : State) :
    (Project2.pthreadJoin fs keyword tid s).started = s.started := by
  cases tid with
  | none => rfl
  | some worker => exact startSearch_started s worker

theorem Ready.pthreadJoin (h : Ready fs keyword s) (tid : Option Nat) :
    Ready fs keyword (Project2.pthreadJoin fs keyword tid s) := by
  cases tid with
  | none => exact h
  | some worker => exact h.startSearch worker

/-- The id can be joined. -/
def Mark.Joinable (started : List Nat) (m : Mark) : Prop := ∀ worker ∈ m.tid, worker ∈ started

instance (started : List Nat) (m : Mark) : Decidable (m.Joinable started) :=
  inferInstanceAs (Decidable (∀ worker ∈ m.tid, worker ∈ started))

theorem pthreadJoin_eq (node : Item) (s : State) :
    pthreadJoin fs keyword node.tid s = if (mark s.started node).Joinable s.started then
      some (Project2.pthreadJoin fs keyword node.tid s) else none := by
  cases htid : node.tid with
  | none => simp [pthreadJoin, Project2.pthreadJoin, Mark.Joinable, mark, htid]
  | some worker => simp [pthreadJoin, Project2.pthreadJoin, Mark.Joinable, mark, htid]

/-- What the line of an item is going to say if its id can be joined. -/
def Mark.line (fs : FileSystem) (keyword : Path) (started : List Nat) (m : Mark) :
    Option (Option Nat × Path × Option Int) :=
  if m.Joinable started then some (m.content fs keyword) else none

/-- The count of an item when its line is printed. -/
theorem count_printed (h : Sound fs keyword s) {item : Item} (hitem : item ∈ s.items)
    (hjoined : item.addr ∈ s.started → item.addr ∈ s.finished) :
    item.count = (mark s.started item).count fs keyword := by
  unfold mark Mark.count
  by_cases hstarted : item.addr ∈ s.started
  · simp only [if_pos hstarted, Option.getD_none]
    exact h.ended item hitem (hjoined hstarted)
  · simp only [if_neg hstarted, Option.getD_some]

/-- After the join the item's line says what its mark says, whatever the workers do
before it is printed. -/
theorem content_printed {v : World State Nat} (h : Ready fs keyword v.state) {i : Nat} {node : Item}
    (hnode : v.state.items[i]? = some node) :
    ∃ item, (tick (startSearch fs keyword)
        ⟨Project2.pthreadJoin fs keyword node.tid v.state, v.schedule⟩).state.items[i]? =
          some item ∧
      content (node.tid, item.record) = (mark v.state.started node).content fs keyword := by
  have hmarks : marks (tick (startSearch fs keyword)
      ⟨Project2.pthreadJoin fs keyword node.tid v.state, v.schedule⟩).state = marks v.state :=
    (tick_marks _).trans (pthreadJoin_marks node.tid v.state)
  have hready : Ready fs keyword (tick (startSearch fs keyword)
      ⟨Project2.pthreadJoin fs keyword node.tid v.state, v.schedule⟩).state :=
    (h.pthreadJoin node.tid).tick
  have hmark : (marks v.state)[i]? = some (mark v.state.started node) := by
    rw [marks, List.getElem?_map, hnode]
    rfl
  have hjoined : node.addr ∈ v.state.started → node.addr ∈ (tick (startSearch fs keyword)
      ⟨Project2.pthreadJoin fs keyword node.tid v.state, v.schedule⟩).state.finished := by
    intro hstarted
    have hknown : node.tid = some node.addr :=
      h.known _ (List.mem_of_getElem? hmark) ((mark_left _ _).mpr hstarted)
    rw [hknown]
    apply tick_invariant fun s : State => node.addr ∈ s.finished
    · exact fun s worker hs => startSearch_finished hs worker
    · exact pthreadJoin_finished hstarted
  generalize (tick (startSearch fs keyword)
    ⟨Project2.pthreadJoin fs keyword node.tid v.state, v.schedule⟩).state = x
    at hmarks hready hjoined
  have hsame := hmark
  rw [← hmarks, marks, List.getElem?_map, Option.map_eq_some_iff] at hsame
  obtain ⟨item, hitem, hsame⟩ := hsame
  have haddr : item.addr = node.addr := congrArg Mark.addr hsame
  have hpath : item.path = node.path := congrArg Mark.path hsame
  have hcount : item.count = (mark x.started item).count fs keyword := by
    apply count_printed hready.toSound (List.mem_of_getElem? hitem)
    intro hstarted
    rw [haddr]
    apply hjoined
    rw [← mark_left v.state.started node, ← hsame]
    exact (mark_left _ _).mpr hstarted
  refine ⟨item, hitem, ?_⟩
  simp only [content, Mark.content, Item.record, hcount, hsame, hpath]
  rfl

/-- The lines say what the marks say. -/
theorem writeLoop_spec (n i : Nat) (w : World State Nat) (h : Ready fs keyword w.state)
    (hn : i + n = (marks w.state).length) :
    (writeLoop fs keyword n i w).map (List.map content) =
      ((marks w.state).drop i).mapM (Mark.line fs keyword w.state.started) := by
  induction n generalizing i w with
  | zero =>
      rw [List.drop_eq_nil_of_le (by omega)]
      rfl
  | succ n ih =>
      have hmarks : marks (tick (startSearch fs keyword) w).state = marks w.state := tick_marks w
      have hstarted : (tick (startSearch fs keyword) w).state.started = w.state.started :=
        tick_started w
      have hready := h.tick
      unfold writeLoop
      generalize tick (startSearch fs keyword) w = v at hmarks hstarted hready
      rw [← hmarks] at hn ⊢
      rw [← hstarted]
      have hlt : i < v.state.items.length := by
        have hlength : (marks v.state).length = v.state.items.length := by simp [marks]
        omega
      have hnode : v.state.items[i]? = some v.state.items[i] := List.getElem?_eq_getElem hlt
      have hmark : (marks v.state)[i]? = some (mark v.state.started v.state.items[i]) := by
        rw [marks, List.getElem?_map, hnode]
        rfl
      have hdrop : (marks v.state).drop i =
          mark v.state.started v.state.items[i] :: (marks v.state).drop (i + 1) := by
        obtain ⟨hi, hget⟩ := List.getElem?_eq_some_iff.mp hmark
        rw [List.drop_eq_getElem_cons hi, hget]
      rw [hdrop, List.mapM_cons, Mark.line]
      simp only [hnode, pthreadJoin_eq]
      by_cases hjoinable : (mark v.state.started v.state.items[i]).Joinable v.state.started
      · rw [if_pos hjoinable, if_pos hjoinable]
        obtain ⟨item, hitem, hcontent⟩ := content_printed hready hnode
        have hnext : marks (tick (startSearch fs keyword)
            ⟨Project2.pthreadJoin fs keyword v.state.items[i].tid v.state, v.schedule⟩).state =
            marks v.state :=
          (tick_marks _).trans (pthreadJoin_marks _ v.state)
        have hsame : (tick (startSearch fs keyword) ⟨Project2.pthreadJoin fs keyword
            v.state.items[i].tid v.state, v.schedule⟩).state.started = v.state.started :=
          (tick_started _).trans (pthreadJoin_started _ v.state)
        have hwell : Ready fs keyword (tick (startSearch fs keyword)
            ⟨Project2.pthreadJoin fs keyword v.state.items[i].tid v.state, v.schedule⟩).state :=
          (hready.pthreadJoin v.state.items[i].tid).tick
        have hrest := ih (i + 1) _ hwell (by rw [hnext]; omega)
        rw [hnext, hsame] at hrest
        simp only [Option.bind_eq_bind, Option.bind_some, hitem, Option.map_some,
          Option.toList_some, List.singleton_append]
        rw [← hrest, ← hcontent]
        cases writeLoop fs keyword n (i + 1) _ <;> rfl
      · rw [if_neg hjoinable, if_neg hjoinable]
        rfl

theorem Ready.joinable_own (h : Ready fs keyword s) {m : Mark} (hm : m ∈ marks s)
    (hleft : m.left = none) : m.tid = some m.addr ∧ m.addr ∈ s.started := by
  refine ⟨h.known m hm hleft, ?_⟩
  obtain ⟨item, -, rfl⟩ := List.mem_map.mp hm
  exact (mark_left s.started item).mp hleft

/-- A list that maps at most one of its elements to a value. -/
theorem eq_of_count_map {α β : Type} [BEq β] [LawfulBEq β] {f : α → β} {l : List α} {b : β}
    (hcount : (l.map f).count b ≤ 1) {x y : α} (hx : x ∈ l) (hy : y ∈ l) (hfx : f x = b)
    (hfy : f y = b) : x = y := by
  rw [List.count, List.countP_map, List.countP_eq_length_filter] at hcount
  have hxin : x ∈ l.filter ((· == b) ∘ f) := by simp [hx, hfx]
  have hyin : y ∈ l.filter ((· == b) ∘ f) := by simp [hy, hfy]
  match hfilter : l.filter ((· == b) ∘ f) with
  | [] =>
      rw [hfilter] at hxin
      cases hxin
  | [only] =>
      rw [hfilter, List.mem_singleton] at hxin hyin
      rw [hxin, hyin]
  | _ :: _ :: _ =>
      rw [hfilter] at hcount
      simp at hcount

/-- All ids can be joined, and none is joined twice, if every id that is joined is
that of the item's own worker. -/
theorem Ready.fine_iff (h : Ready fs keyword s) :
    Fine fs keyword s ↔ (∀ m ∈ marks s, m.Joinable s.started) ∧
      (∀ m ∈ marks s, m.count fs keyword = some (searchTest fs m.path keyword)) ∧
        ∀ worker, ((marks s).map Mark.tid).count (some worker) ≤ 1 := by
  constructor
  · intro hfine
    have hown : ∀ m ∈ marks s, ∀ worker, m.tid = some worker →
        worker = m.addr ∧ worker ∈ s.started := by
      intro m hm worker htid
      by_cases hleft : m.left = none
      · obtain ⟨hself, hstarted⟩ := h.joinable_own hm hleft
        rw [hself, Option.some.injEq] at htid
        exact ⟨htid.symm, htid ▸ hstarted⟩
      · rw [(hfine m hm).join hleft] at htid
        cases htid
    refine ⟨fun m hm worker htid => (hown m hm worker htid).2, fun m hm => (hfine m hm).count, ?_⟩
    intro worker
    calc ((marks s).map Mark.tid).count (some worker)
        ≤ ((marks s).map Mark.addr).count worker := by
          rw [List.count, List.count, List.countP_map, List.countP_map]
          apply List.countP_mono_left
          intro m hm htid
          simp only [Function.comp, beq_iff_eq] at htid ⊢
          exact (hown m hm worker htid).1.symm
      _ ≤ 1 := List.nodup_iff_count_le_one.mp h.apart worker
  · rintro ⟨hjoinable, hcounts, hjoins⟩ m hm
    refine ⟨hcounts m hm, ?_⟩
    intro hleft
    by_contra hsome
    obtain ⟨worker, hworker⟩ := Option.ne_none_iff_exists'.mp hsome
    -- the worker belongs to another item, which joins it too
    obtain ⟨o, ho, haddr⟩ := h.owned worker (hjoinable m hm worker hworker)
    have hother : o.left = none := by
      obtain ⟨item, -, rfl⟩ := List.mem_map.mp ho
      have hstarted := hjoinable m hm worker hworker
      rw [← haddr] at hstarted
      exact (mark_left s.started item).mpr hstarted
    have hown := (h.joinable_own ho hother).1
    rw [haddr] at hown
    have hsame : m = o := eq_of_count_map (hjoins worker) hm ho hworker hown
    exact hleft (hsame ▸ hother)

theorem mapM_line {started : List Nat} (l : List Mark) :
    l.mapM (Mark.line fs keyword started) =
      if ∀ m ∈ l, m.Joinable started then some (l.map (Mark.content fs keyword)) else none := by
  induction l with
  | nil => rfl
  | cons m rest ih =>
      rw [List.mapM_cons, ih, Mark.line]
      simp only [List.forall_mem_cons]
      by_cases hjoinable : m.Joinable started
      · by_cases hrest : ∀ o ∈ rest, o.Joinable started
        · rw [if_pos hjoinable, if_pos hrest, if_pos ⟨hjoinable, hrest⟩]
          rfl
        · rw [if_pos hjoinable, if_neg hrest, if_neg fun hboth => hrest (And.right hboth)]
          rfl
      · rw [if_neg hjoinable, if_neg fun hboth => hjoinable (And.left hboth)]
        rfl

/-- The lines are as they should be if the marks are. -/
theorem intact_iff {lines : List (Option Nat × Record)}
    (hlines : lines.map content = (marks s).map (Mark.content fs keyword)) :
    Intact fs keyword lines ↔
      (∀ m ∈ marks s, m.count fs keyword = some (searchTest fs m.path keyword)) ∧
        ∀ worker, ((marks s).map Mark.tid).count (some worker) ≤ 1 := by
  have hcounts : (∀ line ∈ lines, line.2.count = some (searchTest fs line.2.path keyword)) ↔
      ∀ m ∈ marks s, m.count fs keyword = some (searchTest fs m.path keyword) := by
    have hall : (∀ c ∈ lines.map content, c.2.2 = some (searchTest fs c.2.1 keyword)) ↔
        ∀ c ∈ (marks s).map (Mark.content fs keyword),
          c.2.2 = some (searchTest fs c.2.1 keyword) := by
      rw [hlines]
    rwa [List.forall_mem_map, List.forall_mem_map] at hall
  have hids : lines.map Prod.fst = (marks s).map Mark.tid := by
    have hfst := congrArg (List.map Prod.fst) hlines
    rwa [List.map_map, List.map_map] at hfst
  rw [← hcounts, ← hids]
  constructor
  · exact fun hintact => ⟨hintact.counts, hintact.joins⟩
  · exact fun hboth => ⟨hboth.1, hboth.2⟩

/-- The file is written and is as it should be if the list was. -/
theorem intact_fileWriter {w : World State Nat} (h : Ready fs keyword w.state) :
    (∃ lines, fileWriter fs keyword w = some lines ∧ Intact fs keyword lines) ↔
      Fine fs keyword w.state := by
  have hspec := writeLoop_spec w.state.items.length 0 w h (by simp [marks])
  rw [List.drop_zero, mapM_line] at hspec
  rw [h.fine_iff]
  unfold fileWriter
  by_cases hjoinable : ∀ m ∈ marks w.state, m.Joinable w.state.started
  · rw [if_pos hjoinable] at hspec
    obtain ⟨lines, hsome, hlines⟩ := Option.map_eq_some_iff.mp hspec
    rw [hsome, ← intact_iff hlines, and_iff_right hjoinable]
    simp
  · rw [if_neg hjoinable, Option.map_eq_none_iff] at hspec
    rw [hspec]
    simp only [reduceCtorEq, false_and, exists_false, hjoinable]

/-- The program comes to its end with a file that is as it should be exactly if the
calls that failed do no harm. -/
theorem main_spec {root : Path} (htree : OpenTree fs.opendir maxPathSize root) (keyword : Path)
    (fails : Path → Bool) (leftover : Leftover) :
    ∃ N, ∀ fuel, N ≤ fuel → ∀ schedule,
      (∃ lines, main fs keyword fails leftover root fuel schedule = some lines ∧
        Intact fs keyword lines) ↔
      leftover.itemTid = none ∧ Spared fs keyword fails leftover root := by
  have hopen : (fs.opendir root).isSome := by
    cases htree with
    | node hopen => simp [hopen]
  obtain ⟨visited, hvisits⟩ := visits_open htree
  obtain ⟨n, keys, hsort⟩ := BubbleSort.sort_ends Key.later_asymm
    (placed ((1, root) :: visited 2) [])
  refine ⟨maxPathSize + n + 1, ?_⟩
  intro fuel hfuel schedule
  obtain ⟨w, hw, hwalked⟩ := printDirPar_spec keyword fails leftover schedule hopen
    (hvisits 2 fuel maxPathSize (by omega) (by omega) (Nat.le_refl _))
  have hempty : Fine fs keyword ⟨[], 0, [], []⟩ := by
    simp [Fine, marks]
  have hfine := hwalked.fine.trans (and_iff_right hempty)
  have hsize : w.state.size = ((1, root) :: visited 2).length := by
    rw [hwalked.size, Nat.zero_add]
  obtain ⟨v, u, hv, hu, -, hready, hfine⟩ :=
    ordered_spec (ready_lasting _) ⟨hwalked.ready, hfine⟩ hsize hwalked.keys (hsort fuel (by omega))
  rw [← hfine, ← intact_fileWriter hready]
  simp only [main, hw, hv, hu, Option.bind_eq_bind, Option.bind_some]

theorem spared_of_survives {root : Path} (htree : OpenTree fs.opendir maxPathSize root)
    {fails : Path → Bool} {leftover : Leftover}
    (h : Survives fs keyword fails leftover root) :
    leftover.itemTid = none ∧ Spared fs keyword fails leftover root := by
  obtain ⟨N, hlines⟩ := h
  obtain ⟨M, hmain⟩ := main_spec htree keyword fails leftover
  exact (hmain (N + M) (by omega) []).mp (hlines (N + M) (by omega) [])

/-- Failing calls leave the file and the joins intact, under every schedule, if and
only if they come before all others in their directories, the count left in their
items is right, and what is joined there without having been assigned is answered
without effect, as it is for the root. -/
theorem survives_iff_spared {root : Path} (htree : OpenTree fs.opendir maxPathSize root)
    (keyword : Path) (fails : Path → Bool) (leftover : Leftover) :
    Survives fs keyword fails leftover root ↔
      leftover.itemTid = none ∧ Spared fs keyword fails leftover root := by
  constructor
  · exact spared_of_survives htree
  · intro hspared
    obtain ⟨N, hmain⟩ := main_spec htree keyword fails leftover
    exact ⟨N, fun fuel hfuel schedule => (hmain fuel hfuel schedule).mpr hspared⟩

end Lines

/-- A directory with a file of 69 words and a file of one. -/
def twoFiles : FileSystem where
  opendir path := if path = text "r" then some [⟨text "a", 8⟩, ⟨text "b", 8⟩] else none
  fopen path :=
    if path = text "r/a" then some (List.replicate 69 (text "w\n")).flatten
    else some (text "w\n")

theorem twoFiles_open : OpenTree twoFiles.opendir maxPathSize (text "r") := by
  have hopen : twoFiles.opendir (text "r") = some [⟨text "a", 8⟩, ⟨text "b", 8⟩] := by decide
  apply OpenTree.node hopen (by decide)
  intro e he _ hdir
  fin_cases he <;> cases hdir

/-- The first call fails, the file has as many words as the count that is left, and
what was never assigned is joined without effect. -/
theorem survives_twoFiles : OpenTree twoFiles.opendir maxPathSize (text "r") ∧
    Survives twoFiles (text "w") (· = text "r/a") (.quiet fun _ => none) (text "r") := by
  refine ⟨twoFiles_open, (survives_iff_spared twoFiles_open _ _ _).mpr ⟨rfl, ?_⟩⟩
  have hopen : twoFiles.opendir (text "r") = some [⟨text "a", 8⟩, ⟨text "b", 8⟩] := by decide
  have hcount : searchTest twoFiles (text "r/a") (text "w") = 69 := by decide +kernel
  have ha : join (text "r") (text "a") = text "r/a" := by decide
  have hb : join (text "r") (text "b") ≠ text "r/a" := by decide
  apply (spared_iff hopen).mpr
  constructor
  · constructor
    · simp [ha, hb, hcount]
    · simp [ha, hb]
    · simp [Leftover.quiet]
  · simp

/-- The second call fails. Its item is printed with the count that was to be
overwritten, and the thread of the first item is joined for both, however harmless
the values are that were never assigned. -/
theorem not_survives_twoFiles :
    (main twoFiles (text "w") (· = text "r/b") (.quiet fun _ => none) (text "r") 8 []).map
        (List.map content) =
      some [(none, text "r", some 0), (some 1, text "r/a", some 69),
        (some 1, text "r/b", some 69)] ∧
    ¬ Survives twoFiles (text "w") (· = text "r/b") (.quiet fun _ => none) (text "r") := by
  constructor
  · decide +kernel
  · intro h
    have hopen : twoFiles.opendir (text "r") = some [⟨text "a", 8⟩, ⟨text "b", 8⟩] := by decide
    have hcounts := ((spared_of_survives twoFiles_open h).2 _ (.here _) _ hopen).counts
    have hcount := hcounts ⟨text "b", 8⟩ (by simp) (by decide) (by decide)
    revert hcount
    decide +kernel

end Cse420.Lister.CreateFails
