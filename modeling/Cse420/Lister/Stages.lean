import Cse420.Lister.Pipeline

/-!
The loops that run over the finished list: the sort, the numbering and the
writing. Each is what the library's function of the same kind does to the keys,
under every schedule, and leaves the workers in order.
-/

namespace Cse420.Lister.Project2

open Interference

section

variable {fs : FileSystem} {keyword : Path}

/-- What a step of the main thread keeps once all items are there. -/
structure Kept (fs : FileSystem) (keyword : Path) (s t : State) : Prop where
  size : t.size = s.size
  started : t.started = s.started
  tracked : ∀ bound, Tracked fs keyword bound s → Tracked fs keyword bound t

theorem Kept.trans {s t u : State} (hst : Kept fs keyword s t) (htu : Kept fs keyword t u) :
    Kept fs keyword s u where
  size := htu.size.trans hst.size
  started := htu.started.trans hst.started
  tracked := fun bound h => htu.tracked bound (hst.tracked bound h)

theorem Kept.refl (s : State) : Kept fs keyword s s := ⟨rfl, rfl, fun _ h => h⟩

theorem tick_kept (w : World State Nat) :
    Kept fs keyword w.state (tick (startSearch fs keyword) w).state :=
  ⟨tick_size w, tick_started w, fun _ h => h.tick⟩

/-- Items whose address, count, thread's id and path stay together may move and
be numbered as one likes. -/
theorem kept_of_items {s : State} {items : List Item}
    (h : ∀ item ∈ items, ∃ old ∈ s.items, item.addr = old.addr ∧ item.count = old.count ∧
      item.tid = old.tid ∧ item.path = old.path) :
    Kept fs keyword s { s with items := items } where
  size := rfl
  started := rfl
  tracked := by
    intro bound htracked
    have hcounted : ∀ {item old : Item}, item.count = old.count → item.path = old.path →
        Counted fs keyword old → Counted fs keyword item := by
      intro item old hcount hpath hold
      unfold Counted at hold ⊢
      rw [hcount, hpath, hold]
    constructor
    · intro item hitem hend
      obtain ⟨old, hold, haddr, hcount, -, hpath⟩ := h item hitem
      rw [haddr] at hend
      exact hcounted hcount hpath (htracked.ended old hold hend)
    · intro item hitem hlt
      obtain ⟨old, hold, haddr, hcount, htid, hpath⟩ := h item hitem
      rw [haddr] at hlt
      rcases htracked.known old hold hlt with hdone | hworker
      · exact .inl (hcounted hcount hpath hdone)
      · right
        rw [haddr, htid]
        exact hworker
    · intro item hitem
      obtain ⟨old, hold, haddr, -⟩ := h item hitem
      rw [haddr]
      exact htracked.fresh old hold
    · exact htracked.threads
    · exact htracked.created

theorem startSearch_kept (s : State) (worker : Nat) :
    Kept fs keyword s (startSearch fs keyword s worker) :=
  ⟨startSearch_size s worker, startSearch_started s worker, fun _ h => h.startSearch worker⟩

def Item.unnumbered (item : Item) : Item := { item with num := 0 }

/-- The same items in any order and with any numbers. -/
def Moved (items moved : List Item) : Prop :=
  (moved.map Item.unnumbered).Perm (items.map Item.unnumbered)

theorem Moved.mem {items moved : List Item} (h : Moved items moved) {item : Item}
    (hitem : item ∈ moved) : ∃ old ∈ items, item.unnumbered = old.unnumbered := by
  have hmem : item.unnumbered ∈ items.map Item.unnumbered :=
    h.mem_iff.mp (List.mem_map_of_mem hitem)
  obtain ⟨old, hold, heq⟩ := List.mem_map.mp hmem
  exact ⟨old, hold, heq.symm⟩

/-- What neither the workers nor the moves of items break. -/
structure Lasting (fs : FileSystem) (keyword : Path) (inv : State → Prop) : Prop where
  worker : ∀ s worker, inv s → inv (startSearch fs keyword s worker)
  moved : ∀ s items, Moved s.items items → inv s → inv { s with items }

theorem kept_lasting (s : State) : Lasting fs keyword (Kept fs keyword s) where
  worker := fun t worker h => h.trans (startSearch_kept t worker)
  moved := by
    intro t items hmoved h
    apply h.trans
    apply kept_of_items
    intro item hitem
    obtain ⟨old, hold, heq⟩ := hmoved.mem hitem
    simp only [Item.unnumbered, Item.mk.injEq] at heq
    obtain ⟨haddr, -, -, hcount, htid, hpath⟩ := heq
    exact ⟨old, hold, haddr, hcount, htid, hpath⟩

theorem size_lasting (size : Nat) : Lasting fs keyword fun s => s.size = size where
  worker := fun s worker h => (startSearch_size s worker).trans h
  moved := fun _ _ _ h => h

theorem Lasting.and {p q : State → Prop} (hp : Lasting fs keyword p) (hq : Lasting fs keyword q) :
    Lasting fs keyword fun s => p s ∧ q s where
  worker := fun s worker h => ⟨hp.worker s worker h.1, hq.worker s worker h.2⟩
  moved := fun s items hmoved h => ⟨hp.moved s items hmoved h.1, hq.moved s items hmoved h.2⟩

theorem Lasting.tick {inv : State → Prop} (hinv : Lasting fs keyword inv) {w : World State Nat}
    (h : inv w.state) : inv (tick (startSearch fs keyword) w).state :=
  tick_invariant inv hinv.worker h

/-- The test of `SortHelper`. -/
def Key.later (a b : Key) : Bool := a.level = b.level ∧ 0 < strcmp a.path b.path

theorem Key.later_asymm (a b : Key) (h : a.later b = true) : b.later a = false := by
  simp only [Key.later, decide_eq_true_eq] at h
  simp only [Key.later, decide_eq_false_iff_not]
  rintro ⟨-, hback⟩
  exact strcmp_pos_asymm h.2 hback

theorem later_iff (x y : Item) :
    x.key.later y.key = true ↔ x.level = y.level ∧ 0 < strcmp x.path y.path := by
  unfold Key.later
  exact decide_eq_true_iff

theorem sortPass_spec {inv : State → Prop} (hinv : Lasting fs keyword inv) (n : Nat)
    (before behind : List Key) (a : Key) (swap : Bool) (w : World State Nat) (h : inv w.state)
    (hn : behind.length < n) (hkeys : w.state.keys = before ++ a :: behind) :
    let after := sortPass fs keyword n before.length swap w
    after.1 = (swap || (BubbleSort.carry Key.later a behind).1) ∧
      after.2.state.keys = before ++ (BubbleSort.carry Key.later a behind).2 ∧
      inv after.2.state := by
  induction n generalizing before behind a swap w with
  | zero => omega
  | succ n ih =>
      have hticked : (tick (startSearch fs keyword) w).state.keys = before ++ a :: behind :=
        (tick_keys w).trans hkeys
      have hnow : inv (tick (startSearch fs keyword) w).state := hinv.tick h
      unfold sortPass
      generalize tick (startSearch fs keyword) w = v at hticked hnow
      cases behind with
      | nil =>
          -- the node at `i` is the tail
          have hlength : v.state.items.length = before.length + 1 := by
            simpa [State.keys] using congrArg List.length hticked
          have hend : v.state.items[before.length + 1]? = none := by
            rw [List.getElem?_eq_none_iff]
            omega
          simp only [hend, BubbleSort.carry, Bool.or_false]
          cases v.state.items[before.length]? <;> exact ⟨rfl, hticked, hnow⟩
      | cons b behind =>
          obtain ⟨l, x, y, r, hitems, rfl, rfl, rfl, rfl⟩ := BubbleSort.map_eq_neighbours hticked
          have hx : v.state.items[l.length]? = some x := by simp [hitems]
          have hy : v.state.items[l.length + 1]? = some y := by simp [hitems]
          simp only [List.length_cons] at hn
          simp only [List.length_map, hx, hy]
          split
          · rename_i hgt
            have hlater : x.key.later y.key = true := (later_iff x y).mpr hgt
            have hset : (v.state.items.set l.length y).set (l.length + 1) x =
                l ++ y :: x :: r := by
              simp [hitems]
            rw [hset]
            have hswapped : inv { v.state with items := l ++ y :: x :: r } := by
              apply hinv.moved _ _ _ hnow
              rw [hitems]
              exact ((List.Perm.swap x y r).append_left l).map Item.unnumbered
            have hrest := ih (l.map Item.key ++ [y.key]) (r.map Item.key) x.key true
              ⟨{ v.state with items := l ++ y :: x :: r }, v.schedule⟩ hswapped (by omega)
              (by simp [State.keys])
            simp only [List.length_append, List.length_map, List.length_singleton, Bool.true_or,
              List.append_assoc, List.singleton_append] at hrest
            simp only [BubbleSort.carry, hlater, if_true, Bool.or_true]
            exact hrest
          · rename_i hle
            have hlater : x.key.later y.key = false :=
              Bool.eq_false_iff.mpr fun hgt => hle ((later_iff x y).mp hgt)
            have hrest := ih (l.map Item.key ++ [x.key]) (r.map Item.key) y.key swap v hnow
              (by omega) (by simp [hticked])
            simp only [List.length_append, List.length_map, List.length_singleton,
              List.append_assoc, List.singleton_append] at hrest
            simp only [BubbleSort.carry, hlater, Bool.false_eq_true, if_false]
            exact hrest

/-- `SortHelper` sorts the keys as bubble sort does. -/
theorem sortHelper_spec {inv : State → Prop} (hinv : Lasting fs keyword inv) (fuel : Nat)
    {w : World State Nat} {out : List Key} (hw : inv w.state)
    (h : BubbleSort.sort Key.later fuel w.state.keys = some out) :
    ∃ w', sortHelper fs keyword fuel w = some w' ∧ w'.state.keys = out ∧ inv w'.state := by
  have hloop : ∀ fuel v, sortHelper fs keyword (fuel + 1) v =
      if (sortPass fs keyword v.state.items.length 0 false v).1 then
        sortHelper fs keyword fuel (sortPass fs keyword v.state.items.length 0 false v).2
      else some (sortPass fs keyword v.state.items.length 0 false v).2 := fun _ _ => rfl
  apply BubbleSort.sort_of_pass hloop (fun v : World State Nat => v.state.keys)
    (fun v => inv v.state) _ hw h
  intro v hv
  cases hkeys : v.state.keys with
  | nil =>
      have hnil : v.state.items = [] := by simpa [State.keys] using hkeys
      rw [hnil]
      exact ⟨rfl, hkeys, hv⟩
  | cons a behind =>
      have hlength : behind.length < v.state.items.length := by
        have := congrArg List.length hkeys
        simp only [State.keys, List.length_map, List.length_cons] at this
        omega
      exact sortPass_spec hinv v.state.items.length [] behind a false v hv hlength hkeys

/-- `NumberChildren` on the keys, from the entry `a` with the number `num` on. -/
def numbered (num : Nat) (a : Key) (behind : List Key) : List Key :=
  List.zipWith (fun k n => { k with num := n }) (a :: behind)
    (LevelList.numbersFrom num a.level (behind.map Key.level))

theorem numbered_cons (num : Nat) (a b : Key) (behind : List Key) :
    numbered num a (b :: behind) =
      { a with num := num } :: numbered (if b.level = a.level then num + 1 else 1) b behind := rfl

/-- The number that an entry had does not matter. -/
theorem numbered_num (num n : Nat) (a : Key) (behind : List Key) :
    numbered num { a with num := n } behind = numbered num a behind := by
  cases behind <;> rfl

theorem numberLoop_spec {inv : State → Prop} (hinv : Lasting fs keyword inv)
    (behind before : List Key) (a : Key) (w : World State Nat) (h : inv w.state)
    (hfirst : ∀ k ∈ behind, k.num = 1) (hkeys : w.state.keys = before ++ a :: behind) :
    ∃ w', numberLoop fs keyword behind.length before.length a.num w = some w' ∧
      w'.state.keys = before ++ numbered a.num a behind ∧ inv w'.state := by
  induction behind generalizing before a w with
  | nil => exact ⟨w, rfl, by simpa [numbered, LevelList.numbersFrom] using hkeys, h⟩
  | cons b behind ih =>
      have hticked : (tick (startSearch fs keyword) w).state.keys = before ++ a :: b :: behind :=
        (tick_keys w).trans hkeys
      have hnow : inv (tick (startSearch fs keyword) w).state := hinv.tick h
      rw [List.length_cons]
      unfold numberLoop
      generalize tick (startSearch fs keyword) w = v at hticked hnow
      obtain ⟨l, x, y, r, hitems, rfl, rfl, rfl, rfl⟩ := BubbleSort.map_eq_neighbours hticked
      have hx : v.state.items[l.length]? = some x := by simp [hitems]
      have hy : v.state.items[l.length + 1]? = some y := by simp [hitems]
      obtain ⟨hone, hfirst⟩ := List.forall_mem_cons.mp hfirst
      simp only [List.length_map, hx, hy]
      split
      · rename_i hsame
        have hset : v.state.items.set (l.length + 1) { y with num := x.key.num + 1 } =
            l ++ x :: { y with num := x.key.num + 1 } :: r := by
          simp [hitems]
        rw [hset]
        have hnumbered : inv
            { v.state with items := l ++ x :: { y with num := x.key.num + 1 } :: r } := by
          apply hinv.moved _ _ _ hnow
          rw [hitems]
          simp [Moved, Item.unnumbered]
        obtain ⟨w', hloop, hout, hlast⟩ := ih (l.map Item.key ++ [x.key])
          { y.key with num := x.key.num + 1 }
          ⟨{ v.state with items := l ++ x :: { y with num := x.key.num + 1 } :: r }, v.schedule⟩
          hnumbered hfirst (by simp [State.keys, Item.key])
        refine ⟨w', by simpa using hloop, ?_, hlast⟩
        have hlevel : y.key.level = x.key.level := hsame
        rw [numbered_num] at hout
        rw [numbered_cons, if_pos hlevel]
        simpa using hout
      · rename_i hother
        obtain ⟨w', hloop, hout, hlast⟩ := ih (l.map Item.key ++ [x.key]) y.key v hnow hfirst
          (by simp [hticked])
        rw [hone] at hloop hout
        refine ⟨w', by simpa using hloop, ?_, hlast⟩
        have hlevel : ¬ y.key.level = x.key.level := hother
        rw [numbered_cons, if_neg hlevel]
        simpa using hout

/-- The line of an entry whose count is right. -/
def Key.record (fs : FileSystem) (keyword : Path) (k : Key) : Record :=
  ⟨k.level, k.num, some (searchTest fs k.path keyword), k.path⟩

/-- The item of the node at `i` is counted. -/
def CountedAt (fs : FileSystem) (keyword : Path) (i : Nat) (s : State) : Prop :=
  ∃ item, s.items[i]? = some item ∧ Counted fs keyword item

theorem assign_getElem? {addr i : Nat} {f : Item → Item} {s : State} {item : Item}
    (h : s.items[i]? = some item) :
    (assign addr f s).items[i]? = some (if item.addr = addr then f item else item) := by
  simp only [assign, List.getElem?_map, h, Option.map_some]

/-- A search cannot make a count wrong. -/
theorem CountedAt.startSearch {i : Nat} {s : State} (h : CountedAt fs keyword i s)
    (worker : Nat) : CountedAt fs keyword i (startSearch fs keyword s worker) := by
  obtain ⟨item, hitem, hcounted⟩ := h
  unfold Project2.startSearch
  split
  · refine ⟨_, assign_getElem? hitem, ?_⟩
    split
    · rfl
    · exact hcounted
  · exact ⟨item, hitem, hcounted⟩

theorem CountedAt.tick {i : Nat} {w : World State Nat} (h : CountedAt fs keyword i w.state) :
    CountedAt fs keyword i (tick (Project2.startSearch fs keyword) w).state :=
  tick_invariant (CountedAt fs keyword i) (fun _ worker hs => hs.startSearch worker) h

/-- Once the item's own thread is joined its count is right, wherever in the
list the item has come to stand. -/
theorem pthreadJoin_counts {s : State} (h : Tracked fs keyword s.size s) {i : Nat} {item : Item}
    (hitem : s.items[i]? = some item) :
    CountedAt fs keyword i (pthreadJoin fs keyword item.tid s) := by
  have hmem : item ∈ s.items := List.mem_of_getElem? hitem
  rcases h.known item hmem (h.fresh item hmem) with hcounted | ⟨htid, hstarted⟩
  · have hat : CountedAt fs keyword i s := ⟨item, hitem, hcounted⟩
    unfold pthreadJoin
    split
    · exact hat
    · exact hat.startSearch _
  · rw [htid]
    simp only [pthreadJoin, startSearch]
    split
    · refine ⟨_, assign_getElem? hitem, ?_⟩
      rw [if_pos rfl]
      rfl
    · rename_i hrunning
      refine ⟨item, hitem, h.ended item hmem ?_⟩
      by_contra hnot
      exact hrunning ⟨hstarted, hnot⟩

theorem pthreadJoin_keys (tid : Option Nat) (s : State) :
    (pthreadJoin fs keyword tid s).keys = s.keys := by
  cases tid with
  | none => rfl
  | some worker => exact startSearch_keys s worker

theorem pthreadJoin_kept (tid : Option Nat) (s : State) :
    Kept fs keyword s (pthreadJoin fs keyword tid s) := by
  cases tid with
  | none => exact Kept.refl s
  | some worker => exact startSearch_kept s worker

theorem record_of_countedAt {i : Nat} {s : State} (h : CountedAt fs keyword i s) {k : Key}
    (hk : s.keys[i]? = some k) :
    ((s.items[i]?).map Item.record).toList = [k.record fs keyword] := by
  obtain ⟨item, hitem, hcounted⟩ := h
  have hkey : item.key = k := by simpa [State.keys, hitem] using hk
  rw [hitem, ← hkey]
  simp only [Option.map_some, Option.toList_some, List.cons.injEq, and_true]
  unfold Item.record Key.record
  rw [hcounted]
  rfl

/-- The file holds every key with the right count: in parallel mode because of
the joins, and in sequential mode because there are no workers. -/
theorem writeLoop_spec (runMode : RunMode) (n i : Nat) (w : World State Nat)
    (h : Tracked fs keyword w.state.size w.state)
    (hmode : runMode = .parallel ∨ w.state.started = [])
    (hn : i + n = w.state.keys.length) :
    writeLoop fs keyword runMode n i w = (w.state.keys.drop i).map (Key.record fs keyword) := by
  induction n generalizing i w with
  | zero =>
      rw [List.drop_eq_nil_of_le (by omega)]
      rfl
  | succ n ih =>
      have hkept : Kept fs keyword w.state (tick (startSearch fs keyword) w).state := tick_kept w
      have hkeys : (tick (startSearch fs keyword) w).state.keys = w.state.keys := tick_keys w
      unfold writeLoop
      generalize tick (startSearch fs keyword) w = v at hkept hkeys
      have htracked : Tracked fs keyword v.state.size v.state := by
        rw [hkept.size]
        exact hkept.tracked _ h
      have hlt : i < v.state.items.length := by
        have hlength : v.state.items.length = v.state.keys.length := by simp [State.keys]
        rw [hlength, hkeys]
        omega
      have hitem : v.state.items[i]? = some v.state.items[i] := List.getElem?_eq_getElem hlt
      simp only [hitem]
      -- the state after the join, if there is one
      obtain ⟨u, hu, hukept, hukeys, hcounted⟩ : ∃ u : World State Nat,
          (if runMode = .parallel then
            { v with state := pthreadJoin fs keyword v.state.items[i].tid v.state } else v) = u ∧
          Kept fs keyword v.state u.state ∧ u.state.keys = v.state.keys ∧
          CountedAt fs keyword i u.state := by
        cases runMode with
        | parallel =>
            exact ⟨_, rfl, pthreadJoin_kept _ _, pthreadJoin_keys _ _,
              pthreadJoin_counts htracked hitem⟩
        | sequential =>
            refine ⟨v, rfl, Kept.refl _, rfl, _, hitem, ?_⟩
            have hnone : v.state.started = [] := hkept.started.trans (hmode.resolve_left (by simp))
            have hmem : v.state.items[i] ∈ v.state.items := List.getElem_mem hlt
            rcases htracked.known _ hmem (htracked.fresh _ hmem) with hdone | ⟨-, hstarted⟩
            · exact hdone
            · rw [hnone] at hstarted
              cases hstarted
      rw [hu]
      have hall := hkept.trans (hukept.trans (tick_kept u))
      have hallkeys : (tick (startSearch fs keyword) u).state.keys = w.state.keys :=
        (tick_keys u).trans (hukeys.trans hkeys)
      have hlt' : i < w.state.keys.length := by omega
      have hk : (tick (startSearch fs keyword) u).state.keys[i]? = some w.state.keys[i] := by
        rw [hallkeys]
        exact List.getElem?_eq_getElem hlt'
      rw [record_of_countedAt hcounted.tick hk, ih, hallkeys, List.drop_eq_getElem_cons hlt']
      · rfl
      · rw [hall.size]
        exact hall.tracked _ h
      · rw [hall.started]
        exact hmode
      · rw [hallkeys]
        omega

end

end Cse420.Lister.Project2
