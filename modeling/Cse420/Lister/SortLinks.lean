import Cse420.Lib.BubbleSort
import Cse420.Lister.Search

/-!
`SortHelper` on the linked list itself, with the nodes and the items as blocks
of the heap. The source has it twice: in Project2 an exchange of two neighbours
moves the item pointers of their nodes, in Lin's first revision it moves the
path and the count between the items. Levels are any integers here, and the list
need not be in the order of its levels.
-/

namespace Cse420.Lister.SortLinks

structure Item where
  level : Int
  num : Int
  count : Int
  path : Path

/-- `item` and the links are addresses, without a value for `NULL`. -/
structure Node where
  prev : Option Nat
  item : Nat
  next : Option Nat

/-- `SDLL` and the blocks it leads to. -/
structure SDLL where
  nodes : Nat → Option Node
  items : Nat → Option Item
  head : Option Nat
  tail : Option Nat
  size : Nat

/-- The exchange of Project2: `curNode->item` and `curNode->next->item` change
places. -/
def swapItems (list : SDLL) (curNode next : Nat) : Option SDLL := do
  let a ← list.nodes curNode
  let b ← list.nodes next
  let nodes := Function.update list.nodes curNode (some { a with item := b.item })
  return { list with nodes := Function.update nodes next (some { b with item := a.item }) }

/-- The exchange of Lin's first revision: duplicates of the paths, and the
counts, change places. -/
def swapFields (list : SDLL) (curNode next : Nat) : Option SDLL := do
  let a ← list.nodes curNode
  let b ← list.nodes next
  let x ← list.items a.item
  let y ← list.items b.item
  let items := Function.update list.items a.item
    (some { x with path := y.path, count := y.count })
  return { list with
    items := Function.update items b.item (some { y with path := x.path, count := x.count }) }

section

variable (exchange : SDLL → Nat → Nat → Option SDLL)

/-- The inner loop: the node it ends at, `Swap` and the list. -/
def sortPass : Nat → Nat → Bool → SDLL → Option (Nat × Bool × SDLL)
  | 0, _, _, _ => none
  | fuel + 1, curNode, swap, list => do
      let node ← list.nodes curNode
      match node.next with
      | none => some (curNode, swap, list)
      | some next => do
          let a ← list.items node.item
          let nextNode ← list.nodes next
          let b ← list.items nextNode.item
          if a.level = b.level ∧ 0 < strcmp a.path b.path then
            let list ← exchange list curNode next
            sortPass fuel next true list
          else sortPass fuel next swap list

/-- `SortHelper`. The inner loop leaves `curNode` at the tail, so that the outer
one ends there unless an exchange has put it back to the head. -/
def sortHelper : Nat → Nat → SDLL → Option SDLL
  | 0, _, _ => none
  | fuel + 1, curNode, list => do
      let node ← list.nodes curNode
      if node.next.isNone then some list
      else
        let (curNode, swap, list) ← sortPass exchange fuel curNode false list
        if swap then
          let head ← list.head
          sortHelper fuel head list
        else sortHelper fuel curNode list

/-- `SortChildren`. -/
def sortChildren (fuel : Nat) (list : SDLL) : Option SDLL := do
  let head ← list.head
  sortHelper exchange fuel head list

end

/-- Following `next` from the first address passes exactly these nodes. -/
def Links (nodes : Nat → Option Node) : Option Nat → List Nat → Prop
  | cur, [] => cur = none
  | cur, a :: rest => cur = some a ∧ ∃ node, nodes a = some node ∧ Links nodes node.next rest

def SDLL.itemAt (list : SDLL) (a : Nat) : Option Item :=
  (list.nodes a).bind fun node => list.items node.item

/-- A list as `AddPath` builds it, on the nodes at these addresses. -/
structure WellFormed (list : SDLL) (addrs : List Nat) : Prop where
  links : Links list.nodes list.head addrs
  nodup : addrs.Nodup
  tail : list.tail = addrs.getLast?
  size : list.size = addrs.length
  items : ∀ a ∈ addrs, ∃ node item, list.nodes a = some node ∧
    list.items node.item = some item ∧ 0 ∉ item.path
  own : ∀ a ∈ addrs, ∀ b ∈ addrs, ∀ x y, list.nodes a = some x → list.nodes b = some y →
    x.item = y.item → a = b

/-- No link of any node has changed, nor has what the list keeps of it. -/
structure SameLinks (list out : SDLL) : Prop where
  links : ∀ a, (out.nodes a).map (fun node => (node.prev, node.next)) =
    (list.nodes a).map (fun node => (node.prev, node.next))
  head : out.head = list.head
  tail : out.tail = list.tail
  size : out.size = list.size

/-- What Project2 moves: an item with its address. -/
def SDLL.slot (list : SDLL) (a : Nat) : Option (Nat × Item) :=
  (list.nodes a).bind fun node => (list.items node.item).map (node.item, ·)

/-- What Lin's first revision moves, with the level that does not move. -/
structure Entry where
  level : Int
  count : Int
  path : Path

def Item.entry (item : Item) : Entry := ⟨item.level, item.count, item.path⟩

def SDLL.entry (list : SDLL) (a : Nat) : Option Entry := (list.itemAt a).map Item.entry

section Sorted

variable {α : Type} (level : α → Int) (path : α → Path)

/-- The test of `SortHelper`. -/
def later (a b : α) : Bool := level a = level b ∧ 0 < strcmp (path a) (path b)

/-- What the sort promises, from the items in the order of the nodes before to
those after it. A run is maximal: its neighbours have another level. -/
structure SortsRuns (before after : List α) : Prop where
  levels : after.map level = before.map level
  perm : after.Perm before
  runs : ∀ l head run back, before = head ++ (run ++ back) → run ≠ [] →
    (∀ x ∈ run, level x = l) → (∀ x ∈ head.getLast?, level x ≠ l) →
    (∀ x ∈ back.head?, level x ≠ l) →
    ∃ head' run' back', after = head' ++ (run' ++ back') ∧ head'.length = head.length ∧
      run'.Perm run ∧ run'.Pairwise (fun x y => strcmp (path x) (path y) ≤ 0) ∧
      ∀ p, run'.filter (path · = p) = run.filter (path · = p)
  ordered : before.Pairwise (level · ≤ level ·) →
    after.Pairwise fun x y => level x < level y ∨
      level x = level y ∧ strcmp (path x) (path y) ≤ 0

variable {level path}

theorem later_iff (a b : α) :
    later level path a b = true ↔ level a = level b ∧ 0 < strcmp (path a) (path b) := by
  unfold later
  exact decide_eq_true_iff

theorem later_asymm (a b : α) (h : later level path a b = true) :
    later level path b a = false := by
  rw [later_iff] at h
  rw [← Bool.not_eq_true, later_iff]
  rintro ⟨-, hback⟩
  exact strcmp_pos_asymm h.2 hback

theorem later_level (a b : α) (h : later level path a b = true) : level a = level b :=
  ((later_iff a b).mp h).1

/-- Neighbours that need no exchange, in a list in the order of its levels. -/
theorem chain_ordered {xs : List α} (hlevel : xs.Pairwise (level · ≤ level ·))
    (hzero : ∀ x ∈ xs, 0 ∉ path x)
    (hchain : List.IsChain (fun a b => later level path a b = false) xs) :
    xs.Pairwise fun x y => level x < level y ∨
      level x = level y ∧ strcmp (path x) (path y) ≤ 0 := by
  induction xs with
  | nil => exact List.Pairwise.nil
  | cons a xs ih =>
      obtain ⟨hfirst, hbelow⟩ := List.pairwise_cons.mp hlevel
      have hrest := ih hbelow (fun x hx => hzero x (by simp [hx])) hchain.tail
      apply List.pairwise_cons.mpr
      refine ⟨?_, hrest⟩
      intro x hx
      rcases lt_or_eq_of_le (hfirst x hx) with hlt | heq
      · exact Or.inl hlt
      right
      refine ⟨heq, ?_⟩
      cases xs with
      | nil => simp at hx
      | cons b xs =>
          -- `b` stands between `a` and `x`, so all three have one level
          have hxb : level b ≤ level x := by
            rcases List.mem_cons.mp hx with rfl | hx
            · exact le_refl _
            · exact (List.pairwise_cons.mp hbelow).1 x hx
          have hab : strcmp (path a) (path b) ≤ 0 := by
            have hnot := hchain.rel
            rw [← Bool.not_eq_true, later_iff] at hnot
            have hle := hfirst b (by simp)
            by_contra hpos
            exact hnot ⟨by omega, by omega⟩
          rcases List.mem_cons.mp hx with rfl | hx
          · exact hab
          · apply strcmp_le_trans (hzero a (by simp)) (hzero b (by simp)) hab
            rcases (List.pairwise_cons.mp hrest).1 x hx with hlt | hle
            · have := hfirst b (by simp)
              omega
            · exact hle.2

/-- What the passes keep of a run and of what is behind it: the levels where they
are, the elements of the run, and the order of those with one path. -/
def RunKept (level : α → Int) (path : α → Path) (run back m : List α) : Prop :=
  ∃ run' back', m = run' ++ back' ∧ run'.map level = run.map level ∧
    back'.map level = back.map level ∧ run'.Perm run ∧
    ∀ p, run'.filter (path · = p) = run.filter (path · = p)

theorem later_same_path (p : Path) (a b : α) (ha : decide (path a = p))
    (hb : decide (path b = p)) : later level path a b = false := by
  rw [decide_eq_true_iff] at ha hb
  rw [← Bool.not_eq_true, later_iff, ha, hb]
  rintro ⟨-, hpos⟩
  exact strcmp_pos_asymm hpos hpos

theorem RunKept.pass {run back m : List α}
    (hmeet : ∀ x ∈ run.getLast?, ∀ y ∈ back.head?, level x ≠ level y)
    (h : RunKept level path run back m) :
    RunKept level path run back (BubbleSort.pass (later level path) m).2 := by
  obtain ⟨run', back', rfl, hmap, hmapb, hperm, hfilter⟩ := h
  rw [BubbleSort.pass_append level later_level run' back'
    (BubbleSort.meet_of_map hmap hmapb hmeet)]
  refine ⟨_, _, rfl, (BubbleSort.pass_places level later_level run').trans hmap,
    (BubbleSort.pass_places level later_level back').trans hmapb,
    (BubbleSort.pass_perm run').trans hperm, ?_⟩
  intro p
  rw [BubbleSort.pass_filter _ (later_same_path p), hfilter p]

/-- What the library's sort does to a list with this test. -/
theorem sortsRuns_of_sort {fuel : Nat} {before after : List α} (hzero : ∀ x ∈ before, 0 ∉ path x)
    (h : BubbleSort.sort (later level path) fuel before = some after) :
    SortsRuns level path before after := by
  have hperm := BubbleSort.sort_perm h
  have hchain := BubbleSort.sort_chain h
  have hplaces := BubbleSort.sort_places level later_level h
  have hclean : ∀ x ∈ after, 0 ∉ path x := fun x hx => hzero x (hperm.subset hx)
  constructor
  · exact hplaces
  · exact hperm
  · intro l head run back hbefore hne hrun hhead hback
    have hinner : ∀ x ∈ run.getLast?, ∀ y ∈ back.head?, level x ≠ level y := by
      intro x hx y hy hxy
      apply hback y hy
      rw [← hxy]
      exact hrun x (List.mem_of_getLast? hx)
    have houter : ∀ x ∈ head.getLast?, ∀ y ∈ (run ++ back).head?, level x ≠ level y := by
      intro x hx y hy hxy
      rw [List.head?_append_of_ne_nil _ hne] at hy
      apply hhead x hx
      rw [hxy]
      exact hrun y (List.mem_of_head? hy)
    rw [hbefore] at h
    obtain ⟨head', rest', rfl, hmaph, -, -, run', back', rfl, hmap, hmapb, hpermr, hfilter⟩ :=
      BubbleSort.sort_append level later_level head (run ++ back) houter (fun _ => True)
        (RunKept level path run back) (fun _ _ _ => trivial) (fun m _ hm => hm.pass hinner) trivial
        ⟨run, back, rfl, rfl, rfl, List.Perm.refl _, fun _ => rfl⟩ h
    refine ⟨head', run', back', rfl, ?_, hpermr, ?_, hfilter⟩
    · simpa using congrArg List.length hmaph
    · have hlevel : ∀ x ∈ run', level x = l := fun x hx => hrun x (hpermr.subset hx)
      have hpairs : run'.Pairwise (level · ≤ level ·) := by
        apply List.pairwise_of_forall_mem_list
        intro x hx y hy
        rw [hlevel x hx, hlevel y hy]
      have hin : run' <:+: head' ++ (run' ++ back') := ⟨head', back', by simp⟩
      have hpart := hchain.infix hin
      have hordered := chain_ordered hpairs (fun x hx => hclean x (by simp [hx])) hpart
      apply hordered.imp_of_mem
      intro x y hx hy hxy
      rcases hxy with hlt | hle
      · rw [hlevel x hx, hlevel y hy] at hlt
        omega
      · exact hle.2
  · intro hlevel
    apply chain_ordered _ hclean hchain
    have hmap := List.pairwise_map.mpr hlevel
    rw [← hplaces] at hmap
    exact List.pairwise_map.mp hmap

end Sorted

section Pass

theorem SameLinks.refl (list : SDLL) : SameLinks list list := ⟨fun _ => rfl, rfl, rfl, rfl⟩

theorem SameLinks.trans {first second third : SDLL} (h : SameLinks first second)
    (h' : SameLinks second third) : SameLinks first third where
  links := fun a => (h'.links a).trans (h.links a)
  head := h'.head.trans h.head
  tail := h'.tail.trans h.tail
  size := h'.size.trans h.size

theorem SameLinks.next {list out : SDLL} (h : SameLinks list out) {a : Nat} {node : Node}
    (ha : list.nodes a = some node) :
    ∃ node', out.nodes a = some node' ∧ node'.next = node.next := by
  have hlinks := h.links a
  rw [ha] at hlinks
  obtain ⟨node', hnode, heq⟩ := Option.map_eq_some_iff.mp hlinks
  exact ⟨node', hnode, (Prod.mk.inj heq).2⟩

theorem SameLinks.chain {list out : SDLL} (h : SameLinks list out) {cur : Option Nat}
    {addrs : List Nat} (hlinks : Links list.nodes cur addrs) : Links out.nodes cur addrs := by
  induction addrs generalizing cur with
  | nil => exact hlinks
  | cons a rest ih =>
      obtain ⟨hcur, node, hnode, hrest⟩ := hlinks
      obtain ⟨node', hnode', hnext⟩ := h.next hnode
      refine ⟨hcur, node', hnode', ?_⟩
      rw [hnext]
      exact ih hrest

variable {α : Type} {exchange : SDLL → Nat → Nat → Option SDLL}
  {view : SDLL → Nat → Option α} {level : α → Int} {path : α → Path} {addrs : List Nat}
  {inv : SDLL → Prop}

/-- What the sort needs of an exchange, seen through a view of the nodes: what
two nodes of one level show changes places, and nothing else the view shows. -/
structure Exchanges (exchange : SDLL → Nat → Nat → Option SDLL)
    (view : SDLL → Nat → Option α) (level : α → Int) (path : α → Path) (addrs : List Nat)
    (inv : SDLL → Prop) : Prop where
  reads : ∀ list, inv list → ∀ a ∈ addrs, ∀ v, view list a = some v →
    ∃ node item, list.nodes a = some node ∧ list.items node.item = some item ∧
      level v = item.level ∧ path v = item.path
  swaps : ∀ list, inv list → ∀ a ∈ addrs, ∀ b ∈ addrs, a ≠ b → ∀ v w,
    view list a = some v → view list b = some w → level v = level w →
    ∃ out, exchange list a b = some out ∧ SameLinks list out ∧ inv out ∧
      view out a = some w ∧ view out b = some v ∧
      ∀ c ∈ addrs, c ≠ a → c ≠ b → view out c = view list c

/-- The inner loop from one node to the tail is the library's pass over what the
nodes show. -/
theorem sortPass_spec (hex : Exchanges exchange view level path addrs inv)
    (hnodup : addrs.Nodup) (rest front : List Nat) (a : Nat) (v : α) (vs : List α)
    (swap : Bool) (list : SDLL) (hinv : inv list) (haddrs : addrs = front ++ a :: rest)
    (hlinks : Links list.nodes (some a) (a :: rest))
    (hview : (a :: rest).map (view list) = (v :: vs).map some) :
    ∃ last out, (∀ fuel, rest.length < fuel → sortPass exchange fuel a swap list =
        some (last, swap || (BubbleSort.carry (later level path) v vs).1, out)) ∧
      Links out.nodes (some last) [last] ∧ SameLinks list out ∧ inv out ∧
      (a :: rest).map (view out) = (BubbleSort.carry (later level path) v vs).2.map some ∧
      ∀ c ∈ front, view out c = view list c := by
  induction rest generalizing front a v vs swap list with
  | nil =>
      obtain rfl : vs = [] := by simpa using congrArg List.length hview
      obtain ⟨-, node, hnode, hend⟩ := hlinks
      have hend : node.next = none := hend
      refine ⟨a, list, ?_, ⟨rfl, node, hnode, hend⟩, SameLinks.refl list, hinv, hview,
        fun _ _ => rfl⟩
      intro fuel hfuel
      obtain ⟨n, rfl⟩ : ∃ n, fuel = n + 1 := ⟨fuel - 1, by omega⟩
      simp [sortPass, hnode, hend, BubbleSort.carry]
  | cons b rest ih =>
      obtain ⟨w, vs, rfl⟩ : ∃ w ws, vs = w :: ws := by
        cases vs with
        | nil => simp at hview
        | cons w ws => exact ⟨w, ws, rfl⟩
      simp only [List.map_cons, List.cons.injEq] at hview
      obtain ⟨hv, hw, hvs⟩ := hview
      obtain ⟨-, node, hnode, hnext, hbelow⟩ := hlinks
      have hmema : a ∈ addrs := by simp [haddrs]
      have hmemb : b ∈ addrs := by simp [haddrs]
      rw [haddrs] at hnodup
      obtain ⟨-, hback, hapart⟩ := List.nodup_append.mp hnodup
      simp only [List.nodup_cons, List.mem_cons, not_or] at hback
      obtain ⟨nodea, x, hnodea, hx, hlevela, hpatha⟩ := hex.reads list hinv a hmema v hv
      obtain rfl : nodea = node := Option.some.inj (hnodea.symm.trans hnode)
      obtain ⟨nodeb, y, hnodeb, hy, hlevelb, hpathb⟩ := hex.reads list hinv b hmemb w hw
      have htest : (x.level = y.level ∧ 0 < strcmp x.path y.path) ↔
          later level path v w = true := by
        rw [later_iff, hlevela, hlevelb, hpatha, hpathb]
      have hstep (n : Nat) : sortPass exchange (n + 1) a swap list =
          if later level path v w = true then
            (exchange list a b).bind fun list => sortPass exchange n b true list
          else sortPass exchange n b swap list := by
        simp [sortPass, hnode, hnext, hx, hnodeb, hy, htest]
      have hsplit : addrs = (front ++ [a]) ++ b :: rest := by simp [haddrs]
      unfold BubbleSort.carry
      by_cases hlater : later level path v w = true
      · obtain ⟨mid, hmid, hsame, hinvm, hma, hmb, hframe⟩ :=
          hex.swaps list hinv a hmema b hmemb hback.1.1 v w hv hw (later_level v w hlater)
        have hrest : rest.map (view mid) = vs.map some := by
          rw [← hvs]
          apply List.map_congr_left
          intro c hc
          apply hframe c (by simp [haddrs, hc])
          · rintro rfl
            exact hback.1.2 hc
          · rintro rfl
            exact hback.2.1 hc
        obtain ⟨last, out, hpass, hlast, hsame', hinvo, hviewo, hfronto⟩ :=
          ih (front ++ [a]) b v vs true mid hinvm hsplit (hsame.chain ⟨rfl, hbelow⟩)
            (by simp [hmb, hrest])
        rw [if_pos hlater]
        refine ⟨last, out, ?_, hlast, hsame.trans hsame', hinvo, ?_, ?_⟩
        · intro fuel hfuel
          obtain ⟨n, rfl⟩ : ∃ n, fuel = n + 1 := ⟨fuel - 1, by omega⟩
          rw [hstep, if_pos hlater, hmid, Option.bind_some, hpass n (by simp at hfuel; omega)]
          simp
        · rw [List.map_cons, hfronto a (by simp), hma, hviewo]
          simp
        · intro c hc
          rw [hfronto c (by simp [hc])]
          exact hframe c (by simp [haddrs, hc]) (hapart c hc a (by simp))
            (hapart c hc b (by simp))
      · obtain ⟨last, out, hpass, hlast, hsame, hinvo, hviewo, hfronto⟩ :=
          ih (front ++ [a]) b w vs swap list hinv hsplit ⟨rfl, hbelow⟩ (by simp [hw, hvs])
        rw [if_neg hlater]
        refine ⟨last, out, ?_, hlast, hsame, hinvo, ?_, ?_⟩
        · intro fuel hfuel
          obtain ⟨n, rfl⟩ : ∃ n, fuel = n + 1 := ⟨fuel - 1, by omega⟩
          rw [hstep, if_neg hlater]
          exact hpass n (by simp at hfuel; omega)
        · rw [List.map_cons, hfronto a (by simp), hv, hviewo]
          simp
        · intro c hc
          exact hfronto c (by simp [hc])

/-- The loops of `SortHelper` are the library's sort of what the nodes show. -/
theorem sortHelper_spec (hex : Exchanges exchange view level path addrs inv)
    (hnodup : addrs.Nodup) (rest : List Nat) (a : Nat) (haddrs : addrs = a :: rest) (n : Nat)
    (list : SDLL) (vals : List α) (hinv : inv list) (hhead : list.head = some a)
    (hlinks : Links list.nodes (some a) (a :: rest))
    (hview : (a :: rest).map (view list) = vals.map some)
    (hmeasure : BubbleSort.inversions (later level path) vals < n) :
    ∃ out vals', BubbleSort.sort (later level path) n vals = some vals' ∧ SameLinks list out ∧
      inv out ∧ (a :: rest).map (view out) = vals'.map some ∧
      ∀ fuel, n + rest.length < fuel → sortHelper exchange fuel a list = some out := by
  induction n generalizing list vals with
  | zero => omega
  | succ n ih =>
      obtain ⟨v, vs, rfl⟩ : ∃ v vs, vals = v :: vs := by
        cases vals with
        | nil => simp at hview
        | cons v vs => exact ⟨v, vs, rfl⟩
      obtain ⟨last, mid, hpass, hlast, hsame, hinvm, hviewm, -⟩ :=
        sortPass_spec hex hnodup rest [] a v vs false list hinv haddrs hlinks hview
      obtain ⟨-, node, hnode, hnext⟩ := hlinks
      cases rest with
      | nil =>
          -- one node: the outer loop is not entered
          have hend : node.next = none := hnext
          obtain rfl : vs = [] := by simpa using congrArg List.length hview
          refine ⟨list, [v], rfl, SameLinks.refl list, hinv, hview, ?_⟩
          intro fuel hfuel
          obtain ⟨m, rfl⟩ : ∃ m, fuel = m + 1 := ⟨fuel - 1, by omega⟩
          simp [sortHelper, hnode, hend]
      | cons b rest =>
          have hmore : node.next.isNone = false := by simp [hnext.1]
          unfold BubbleSort.sort
          cases hswap : (BubbleSort.carry (later level path) v vs).1 with
          | true =>
              have hless := BubbleSort.pass_inversions later_asymm (v :: vs) hswap
              have hheadm : mid.head = some a := hsame.head.trans hhead
              obtain ⟨out, vals', hsort, hsame', hinvo, hviewo, hrun⟩ :=
                ih mid _ hinvm hheadm (hsame.chain ⟨rfl, node, hnode, hnext⟩) hviewm
                  (by simp only [BubbleSort.pass] at hless; omega)
              refine ⟨out, vals', ?_, hsame.trans hsame', hinvo, hviewo, ?_⟩
              · simpa [BubbleSort.pass, hswap] using hsort
              · intro fuel hfuel
                obtain ⟨m, rfl⟩ : ∃ m, fuel = m + 1 := ⟨fuel - 1, by omega⟩
                simp only [sortHelper, hnode, Option.bind_eq_bind, Option.bind_some, hmore,
                  hpass m (by omega), hswap, hheadm]
                simpa using hrun m (by omega)
          | false =>
              refine ⟨mid, _, ?_, hsame, hinvm, hviewm, ?_⟩
              · simp [BubbleSort.pass, hswap]
              · intro fuel hfuel
                obtain ⟨m, rfl⟩ : ∃ m, fuel = m + 2 :=
                  ⟨fuel - 2, by simp only [List.length_cons] at hfuel; omega⟩
                obtain ⟨-, nodel, hnodel, hend⟩ := hlast
                have hend : nodel.next = none := hend
                simp only [sortHelper, hnode, Option.bind_eq_bind, Option.bind_some, hmore,
                  hpass (m + 1) (by simp only [List.length_cons] at hfuel ⊢; omega), hswap,
                  hnodel, hend]
                simp

/-- A sort of a well-formed list, seen through a view that an exchange respects. -/
theorem sortChildren_spec (hex : Exchanges exchange view level path addrs inv) {list : SDLL}
    (hlist : WellFormed list addrs) (hne : addrs ≠ []) (hinv : inv list) {before : List α}
    (hview : addrs.map (view list) = before.map some) (hzero : ∀ v ∈ before, 0 ∉ path v) :
    ∃ out after, (∃ bound, ∀ fuel, bound < fuel → sortChildren exchange fuel list = some out) ∧
      SameLinks list out ∧ inv out ∧ addrs.map (view out) = after.map some ∧
      SortsRuns level path before after := by
  obtain ⟨a, rest, rfl⟩ := List.exists_cons_of_ne_nil hne
  have hlinks := hlist.links
  have hhead : list.head = some a := hlinks.1
  rw [hhead] at hlinks
  obtain ⟨out, after, hsort, hsame, hinvo, hviewo, hrun⟩ :=
    sortHelper_spec hex hlist.nodup rest a rfl _ list before hinv hhead hlinks hview
      (Nat.lt_succ_self _)
  let bound := BubbleSort.inversions (later level path) before + 1 + rest.length
  refine ⟨out, after, ⟨bound, ?_⟩, hsame, hinvo, hviewo, sortsRuns_of_sort hzero hsort⟩
  intro fuel hfuel
  rw [sortChildren, hhead]
  exact hrun fuel hfuel

end Pass

section Versions

variable {list : SDLL} {addrs : List Nat}

/-- Replacing the item of a node leaves its links. -/
theorem update_links {nodes : Nat → Option Node} {a : Nat} {node : Node} (item : Nat)
    (ha : nodes a = some node) (c : Nat) :
    (Function.update nodes a (some { node with item := item }) c).map
        (fun node => (node.prev, node.next)) =
      (nodes c).map fun node => (node.prev, node.next) := by
  by_cases hc : c = a
  · rw [hc, Function.update_self, ha]
    rfl
  · rw [Function.update_of_ne hc]

theorem slot_eq_some {list : SDLL} {a : Nat} {v : Nat × Item} (h : list.slot a = some v) :
    ∃ node, list.nodes a = some node ∧ node.item = v.1 ∧ list.items v.1 = some v.2 := by
  obtain ⟨node, hnode, hitem⟩ := Option.bind_eq_some_iff.mp h
  obtain ⟨item, hget, rfl⟩ := Option.map_eq_some_iff.mp hitem
  exact ⟨node, hnode, rfl, hget⟩

theorem slot_eq {list : SDLL} {a : Nat} {node : Node} {item : Item}
    (hnode : list.nodes a = some node) (hitem : list.items node.item = some item) :
    list.slot a = some (node.item, item) := by
  simp [SDLL.slot, hnode, hitem]

theorem entry_eq_some {list : SDLL} {a : Nat} {v : Entry} (h : list.entry a = some v) :
    ∃ node item, list.nodes a = some node ∧ list.items node.item = some item ∧
      item.entry = v := by
  obtain ⟨item, hitem, rfl⟩ := Option.map_eq_some_iff.mp h
  obtain ⟨node, hnode, hitem⟩ := Option.bind_eq_some_iff.mp hitem
  exact ⟨node, item, hnode, hitem, rfl⟩

theorem swapItems_eq {list : SDLL} {a b : Nat} {x y : Node} (hx : list.nodes a = some x)
    (hy : list.nodes b = some y) :
    swapItems list a b = some { list with
      nodes := Function.update (Function.update list.nodes a (some { x with item := y.item })) b
        (some { y with item := x.item }) } := by
  simp [swapItems, hx, hy]

theorem swapFields_eq {list : SDLL} {a b : Nat} {m n : Node} {x y : Item}
    (hm : list.nodes a = some m) (hn : list.nodes b = some n)
    (hx : list.items m.item = some x) (hy : list.items n.item = some y) :
    swapFields list a b = some { list with
      items := Function.update (Function.update list.items m.item
        (some { x with path := y.path, count := y.count })) n.item
        (some { y with path := x.path, count := x.count }) } := by
  simp [swapFields, hm, hn, hx, hy]

theorem swapItems_exchanges (items : Nat → Option Item) :
    Exchanges swapItems SDLL.slot (fun v => v.2.level) (fun v => v.2.path) addrs
      fun list => list.items = items where
  reads := by
    intro list _ a _ v hv
    obtain ⟨node, hnode, heq, hitem⟩ := slot_eq_some hv
    rw [← heq] at hitem
    exact ⟨node, v.2, hnode, hitem, rfl, rfl⟩
  swaps := by
    intro list hinv a _ b _ hne v w hv hw _
    obtain ⟨x, hx, hxv, hvitem⟩ := slot_eq_some hv
    obtain ⟨y, hy, hyw, hwitem⟩ := slot_eq_some hw
    have hyb : Function.update list.nodes a (some { x with item := y.item }) b = some y := by
      rw [Function.update_of_ne hne.symm, hy]
    refine ⟨_, swapItems_eq hx hy, ?_, hinv, ?_, ?_, ?_⟩
    · constructor
      · intro c
        exact (update_links x.item hyb c).trans (update_links y.item hx c)
      · rfl
      · rfl
      · rfl
    · simp [SDLL.slot, Function.update_of_ne hne, hyw, hwitem]
    · simp [SDLL.slot, hxv, hvitem]
    · intro c _ hca hcb
      simp [SDLL.slot, Function.update_of_ne hca, Function.update_of_ne hcb]

theorem swapFields_exchanges (orig : SDLL)
    (hown : ∀ a ∈ addrs, ∀ b ∈ addrs, ∀ x y, orig.nodes a = some x → orig.nodes b = some y →
      x.item = y.item → a = b) :
    Exchanges swapFields SDLL.entry Entry.level Entry.path addrs fun list =>
      list.nodes = orig.nodes ∧
        ∀ i, (list.items i).map Item.num = (orig.items i).map Item.num where
  reads := by
    rintro list - a - v hv
    obtain ⟨node, item, hnode, hitem, rfl⟩ := entry_eq_some hv
    exact ⟨node, item, hnode, hitem, rfl, rfl⟩
  swaps := by
    rintro list ⟨hnodes, hnum⟩ a ha b hb hne v w hv hw hlevel
    obtain ⟨m, x, hm, hx, rfl⟩ := entry_eq_some hv
    obtain ⟨n, y, hn, hy, rfl⟩ := entry_eq_some hw
    have hlevel : x.level = y.level := hlevel
    have heq := swapFields_eq hm hn hx hy
    rw [hnodes] at hm hn
    have hmn : m.item ≠ n.item := fun h => hne (hown a ha b hb m n hm hn h)
    refine ⟨_, heq, ?_, ?_, ?_, ?_, ?_⟩
    · exact ⟨fun _ => by rw [hnodes], rfl, rfl, rfl⟩
    · refine ⟨hnodes, ?_⟩
      intro i
      rw [← hnum i]
      by_cases hin : i = n.item
      · simp [hin, hy]
      · by_cases him : i = m.item
        · simp [him, Function.update_of_ne hmn, hx]
        · simp [Function.update_of_ne hin, Function.update_of_ne him]
    · simp [SDLL.entry, SDLL.itemAt, hnodes, hm, Function.update_of_ne hmn, Item.entry, hlevel]
    · simp [SDLL.entry, SDLL.itemAt, hnodes, hn, Item.entry, hlevel]
    · intro c hc hca hcb
      simp only [SDLL.entry, SDLL.itemAt, hnodes]
      cases hnode : orig.nodes c with
      | none => rfl
      | some node =>
          have hcm : node.item ≠ m.item := fun h => hca (hown c hc a ha node m hnode hm h)
          have hcn : node.item ≠ n.item := fun h => hcb (hown c hc b hb node n hnode hn h)
          simp [Function.update_of_ne hcm, Function.update_of_ne hcn]

theorem WellFormed.slots (h : WellFormed list addrs) :
    ∃ before : List (Nat × Item), addrs.map list.slot = before.map some ∧
      ∀ v ∈ before, 0 ∉ v.2.path := by
  have hitems := h.items
  clear h
  induction addrs with
  | nil => exact ⟨[], rfl, by simp⟩
  | cons a rest ih =>
      obtain ⟨before, hbefore, hzero⟩ := ih fun b hb => hitems b (List.mem_cons_of_mem _ hb)
      obtain ⟨node, item, hnode, hitem, hpath⟩ := hitems a List.mem_cons_self
      refine ⟨(node.item, item) :: before, by simp [slot_eq hnode hitem, hbefore], ?_⟩
      intro v hv
      rcases List.mem_cons.mp hv with rfl | hv
      · exact hpath
      · exact hzero v hv

theorem entry_eq_slot (list : SDLL) (a : Nat) :
    list.entry a = (list.slot a).map fun v => v.2.entry := by
  simp only [SDLL.entry, SDLL.itemAt, SDLL.slot, Option.map_bind]
  congr 1
  funext node
  simp only [Function.comp_apply, Option.map_map]
  rfl

/-- `SortChildren` ends on every well-formed list, whatever its levels, and
leaves the links alone. In Project2 the item pointers are what is sorted and no
item changes. In Lin's first revision the nodes keep their items and these their
numbers; paths and counts are what is sorted. -/
theorem sortChildren_sorts (list : SDLL) (addrs : List Nat) (hlist : WellFormed list addrs)
    (hne : addrs ≠ []) :
    (∃ out before after,
      (∃ bound, ∀ fuel, bound < fuel → sortChildren swapItems fuel list = some out) ∧
      SameLinks list out ∧ out.items = list.items ∧
      addrs.map list.slot = before.map some ∧ addrs.map out.slot = after.map some ∧
      SortsRuns (fun v => v.2.level) (fun v => v.2.path) before after) ∧
    ∃ out before after,
      (∃ bound, ∀ fuel, bound < fuel → sortChildren swapFields fuel list = some out) ∧
      SameLinks list out ∧ out.nodes = list.nodes ∧
      (∀ i, (out.items i).map Item.num = (list.items i).map Item.num) ∧
      addrs.map list.entry = before.map some ∧ addrs.map out.entry = after.map some ∧
      SortsRuns Entry.level Entry.path before after := by
  obtain ⟨slots, hslots, hzero⟩ := hlist.slots
  constructor
  · obtain ⟨out, after, hrun, hsame, hitems, hafter, hsorts⟩ :=
      sortChildren_spec (swapItems_exchanges list.items) hlist hne rfl hslots hzero
    exact ⟨out, slots, after, hrun, hsame, hitems, hslots, hafter, hsorts⟩
  · have hentries : addrs.map list.entry = (slots.map fun v => v.2.entry).map some := by
      have hsplit : addrs.map list.entry =
          (addrs.map list.slot).map (Option.map fun v => v.2.entry) := by
        rw [List.map_map]
        apply List.map_congr_left
        intro a _
        exact entry_eq_slot list a
      rw [hsplit, hslots, List.map_map, List.map_map]
      rfl
    have hclean : ∀ v ∈ slots.map fun v => v.2.entry, 0 ∉ v.path := by
      intro v hv
      obtain ⟨slot, hslot, rfl⟩ := List.mem_map.mp hv
      exact hzero slot hslot
    obtain ⟨out, after, hrun, hsame, ⟨hnodes, hnum⟩, hafter, hsorts⟩ :=
      sortChildren_spec (swapFields_exchanges list hlist.own) hlist hne ⟨rfl, fun _ => rfl⟩
        hentries hclean
    exact ⟨out, _, after, hrun, hsame, hnodes, hnum, hentries, hafter, hsorts⟩

/-- Two nodes of a level below zero whose paths stand the wrong way round. -/
def twoNodes : SDLL where
  nodes := fun a => if a = 0 then some ⟨none, 0, some 1⟩
    else if a = 1 then some ⟨some 0, 1, none⟩ else none
  items := fun i => if i = 0 then some ⟨-1, 1, 5, CMemory.text "/b"⟩
    else if i = 1 then some ⟨-1, 1, 7, CMemory.text "/a"⟩ else none
  head := some 0
  tail := some 1
  size := 2

theorem twoNodes_wellFormed : WellFormed twoNodes [0, 1] where
  links := ⟨rfl, _, rfl, rfl, _, rfl, rfl⟩
  nodup := by decide
  tail := rfl
  size := rfl
  items := by
    intro a ha
    simp only [List.mem_cons, List.not_mem_nil, or_false] at ha
    rcases ha with rfl | rfl
    · exact ⟨_, _, rfl, rfl, by decide⟩
    · exact ⟨_, _, rfl, rfl, by decide⟩
  own := by
    intro a ha b hb x y hx hy hxy
    simp only [List.mem_cons, List.not_mem_nil, or_false] at ha hb
    rcases ha with rfl | rfl <;> rcases hb with rfl | rfl <;> cases hx <;> cases hy <;> simp_all

theorem sortChildren_sorts_two :
    ∃ out before after,
      (∃ bound, ∀ fuel, bound < fuel → sortChildren swapItems fuel twoNodes = some out) ∧
      SameLinks twoNodes out ∧ out.items = twoNodes.items ∧
      [0, 1].map twoNodes.slot = before.map some ∧ [0, 1].map out.slot = after.map some ∧
      SortsRuns (fun v => v.2.level) (fun v => v.2.path) before after :=
  (sortChildren_sorts twoNodes [0, 1] twoNodes_wellFormed (by decide)).1

example : ((sortChildren swapItems 9 twoNodes).bind fun out => out.slot 0).map
    (fun v => v.2.path) = some (CMemory.text "/a") := by decide

end Versions

end Cse420.Lister.SortLinks
