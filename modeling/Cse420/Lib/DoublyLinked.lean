import Cse420.Lib.Heap

/-!
Doubly linked lists in memory. A list is the sequence of its nodes, each with its
address and its value, and the links of every node are those of the sequence.
Insertion at any place and removal of the last node are stated by what the new
memory holds, so that the order in which a program stores the links is its own
affair.
-/

namespace Cse420.DoublyLinked

variable {α : Type}

/-- The links are addresses, without a value for `NULL`. -/
structure Cell (α : Type) where
  prev : Option Nat
  val : α
  next : Option Nat

/-- The address of the first node, or what comes behind the nodes. -/
def first : List (Nat × α) → Option Nat → Option Nat
  | [], after => after
  | c :: _, _ => some c.1

/-- The address of the last node, or what comes before the nodes. -/
def last : Option Nat → List (Nat × α) → Option Nat
  | before, [] => before
  | _, c :: rest => last (some c.1) rest

/-- These nodes are in memory, linked to each other and to what is around them. -/
def Chain (block : Nat → Option (Cell α)) : Option Nat → List (Nat × α) → Option Nat → Prop
  | _, [], _ => True
  | before, c :: rest, after =>
      block c.1 = some ⟨before, c.2, first rest after⟩ ∧ Chain block (some c.1) rest after

/-- A whole list, from its head to its tail. -/
structure Linked (block : Nat → Option (Cell α)) (head tail : Option Nat)
    (cells : List (Nat × α)) : Prop where
  chain : Chain block none cells none
  nodup : (cells.map Prod.fst).Nodup
  head : head = first cells none
  tail : tail = last none cells

/-- Following one of the links from an address passes these nodes and ends at
`NULL`. -/
def Follows (link : Cell α → Option Nat) (block : Nat → Option (Cell α)) :
    Option Nat → List (Nat × α) → Prop
  | cur, [] => cur = none
  | cur, c :: rest =>
      cur = some c.1 ∧ ∃ cell, block c.1 = some cell ∧ cell.val = c.2 ∧
        Follows link block (link cell) rest

variable {block block' : Nat → Option (Cell α)} {before after head tail : Option Nat}
  {front back cells : List (Nat × α)} {n : Nat} {v : α}

@[simp] theorem first_append : first (front ++ back) after = first front (first back after) := by
  cases front <;> rfl

@[simp] theorem last_append : last before (front ++ back) = last (last before front) back := by
  induction front generalizing before with
  | nil => rfl
  | cons c rest ih => exact ih

theorem first_mem (h : first cells none = some n) : n ∈ cells.map Prod.fst := by
  cases cells with
  | nil => cases h
  | cons c rest =>
      cases h
      exact List.mem_cons_self

theorem last_mem (h : last none cells = some n) : n ∈ cells.map Prod.fst := by
  rcases List.eq_nil_or_concat cells with rfl | ⟨front, c, rfl⟩
  · cases h
  · rw [List.concat_eq_append, last_append] at h
    cases h
    simp

theorem chain_append :
    Chain block before (front ++ back) after ↔
      Chain block before front (first back after) ∧ Chain block (last before front) back after := by
  induction front generalizing before with
  | nil => simp [Chain, last]
  | cons c rest ih =>
      rw [List.cons_append, Chain, Chain, ih, first_append, and_assoc]
      rfl

/-- A chain looks at nothing but its own nodes. -/
theorem Chain.congr (h : Chain block before cells after)
    (hsame : ∀ a ∈ cells.map Prod.fst, block' a = block a) : Chain block' before cells after := by
  induction cells generalizing before with
  | nil => trivial
  | cons c rest ih =>
      obtain ⟨hfirst, hrest⟩ := List.forall_mem_cons.mp hsame
      exact ⟨hfirst.trans h.1, ih h.2 hrest⟩

theorem Chain.follows_next (h : Chain block before cells none) :
    Follows Cell.next block (first cells none) cells := by
  induction cells generalizing before with
  | nil => rfl
  | cons c rest ih => exact ⟨rfl, _, h.1, rfl, ih h.2⟩

theorem Chain.follows_prev (h : Chain block none cells after) :
    Follows Cell.prev block (last none cells) cells.reverse := by
  induction cells using List.reverseRecOn generalizing after with
  | nil => rfl
  | append_singleton front c ih =>
      obtain ⟨hfront, hc, -⟩ := chain_append.mp h
      rw [List.reverse_append, last_append]
      exact ⟨rfl, _, hc, rfl, ih hfront⟩

/-- Following links looks at nothing but the nodes it passes. -/
theorem Follows.congr {link : Cell α → Option Nat} {cur : Option Nat}
    (h : Follows link block cur cells) (hsame : ∀ a ∈ cells.map Prod.fst, block' a = block a) :
    Follows link block' cur cells := by
  induction cells generalizing cur with
  | nil => exact h
  | cons c rest ih =>
      obtain ⟨hfirst, hrest⟩ := List.forall_mem_cons.mp hsame
      obtain ⟨hcur, cell, hcell, hval, hfollows⟩ := h
      exact ⟨hcur, cell, hfirst.trans hcell, hval, ih hfollows hrest⟩

section Linked

variable {c : Nat × α}

/-- What memory holds at a node of the list. -/
theorem Linked.block_eq (h : Linked block head tail (front ++ c :: back)) :
    block c.1 = some ⟨last none front, c.2, first back none⟩ :=
  (chain_append.mp h.chain).2.1

theorem Linked.head_eq (h : Linked block head tail (c :: back)) :
    block c.1 = some ⟨none, c.2, first back none⟩ := h.chain.1

/-- What memory holds at the node behind another. -/
theorem Linked.next_eq {d : Nat × α} (h : Linked block head tail (front ++ c :: d :: back)) :
    block d.1 = some ⟨some c.1, d.2, first back none⟩ := by
  rw [List.append_cons] at h
  rw [h.block_eq, last_append]
  rfl

theorem Linked.neighbours_ne {d : Nat × α}
    (h : Linked block head tail (front ++ c :: d :: back)) : c.1 ≠ d.1 := by
  have hnodup := (List.nodup_append.mp (List.map_append ▸ h.nodup)).2.1
  intro heq
  apply (List.nodup_cons.mp hnodup).1
  rw [heq]
  exact List.mem_cons_self

theorem Linked.block_isSome (h : Linked block head tail cells) {a : Nat}
    (ha : a ∈ cells.map Prod.fst) : (block a).isSome := by
  obtain ⟨c, hc, rfl⟩ := List.mem_map.mp ha
  obtain ⟨front, back, rfl⟩ := List.append_of_mem hc
  rw [h.block_eq]
  rfl

/-- A block that is not in use belongs to no node. -/
theorem Linked.fresh (h : Linked block head tail cells) (hn : block n = none) :
    n ∉ cells.map Prod.fst := by
  intro hin
  have hsome := h.block_isSome hin
  rw [hn] at hsome
  cases hsome

theorem Linked.nil : Linked block none none [] := ⟨trivial, List.nodup_nil, rfl, rfl⟩

/-- A new node between two parts of the list, either of which may be empty. -/
theorem Linked.insert (front back : List (Nat × α))
    (h : Linked block head tail (front ++ back)) (hn : block n = none)
    (hnew : block' n = some ⟨last none front, v, first back none⟩)
    (hfront : ∀ f c, front = f ++ [c] → block' c.1 = some ⟨last none f, c.2, some n⟩)
    (hback : ∀ c b, back = c :: b → block' c.1 = some ⟨some n, c.2, first b none⟩)
    (hsame : ∀ a, a ≠ n → last none front ≠ some a → first back none ≠ some a →
      block' a = block a) :
    Linked block' (first front (some n)) (last (some n) back) (front ++ (n, v) :: back) := by
  have hfresh := h.fresh hn
  rw [List.map_append, List.mem_append, not_or] at hfresh
  have hnodup := h.nodup
  rw [List.map_append] at hnodup
  obtain ⟨hchain, hchain'⟩ := chain_append.mp h.chain
  obtain ⟨hnodupf, hnodupb, hapart⟩ := List.nodup_append.mp hnodup
  constructor
  · rw [chain_append]
    refine ⟨?_, hnew, ?_⟩
    · rcases List.eq_nil_or_concat front with rfl | ⟨f, c, rfl⟩
      · trivial
      · rw [List.concat_eq_append] at *
        rw [chain_append]
        refine ⟨(chain_append.mp hchain).1.congr ?_, hfront f c rfl, trivial⟩
        intro a ha
        have hin : a ∈ (f ++ [c]).map Prod.fst := by
          rw [List.map_append]
          exact List.mem_append_left _ ha
        apply hsame a
        · rintro rfl
          exact hfresh.1 hin
        · rw [last_append]
          rintro ⟨rfl⟩
          rw [List.map_append, List.nodup_append] at hnodupf
          exact hnodupf.2.2 _ ha _ List.mem_cons_self rfl
        · intro hfirst
          exact hapart a hin a (first_mem hfirst) rfl
    · cases back with
      | nil => trivial
      | cons d b =>
          refine ⟨hback d b rfl, hchain'.2.congr ?_⟩
          intro a ha
          have hin : a ∈ (d :: b).map Prod.fst := List.mem_cons_of_mem _ ha
          apply hsame a
          · rintro rfl
            exact hfresh.2 hin
          · intro hlast
            exact hapart a (last_mem hlast) a hin rfl
          · rintro ⟨rfl⟩
            exact (List.nodup_cons.mp hnodupb).1 ha
  · rw [List.map_append, List.map_cons, List.nodup_middle, List.nodup_cons, List.mem_append]
    exact ⟨not_or.mpr hfresh, hnodup⟩
  · rw [first_append]
    rfl
  · rw [last_append]
    rfl

/-- The new node becomes the only one. -/
theorem Linked.single (h : Linked block head tail ([] : List (Nat × α))) (hn : block n = none)
    (hnew : block' n = some ⟨none, v, none⟩) (hsame : ∀ a, a ≠ n → block' a = block a) :
    Linked block' (some n) (some n) [(n, v)] := by
  apply h.insert [] [] hn hnew (by simp) (by simp)
  intro a hne _ _
  exact hsame a hne

/-- The new node becomes the head. -/
theorem Linked.cons (h : Linked block head tail (c :: back)) (hn : block n = none)
    (hnew : block' n = some ⟨none, v, some c.1⟩)
    (hc : block' c.1 = some ⟨some n, c.2, first back none⟩)
    (hsame : ∀ a, a ≠ n → a ≠ c.1 → block' a = block a) :
    Linked block' (some n) tail ((n, v) :: c :: back) := by
  rw [h.tail]
  apply h.insert [] (c :: back) hn hnew (by simp)
  · rintro d b ⟨rfl⟩
    exact hc
  · intro a hne _ hfirst
    exact hsame a hne fun heq => hfirst (congrArg some heq.symm)

/-- The new node becomes the tail. -/
theorem Linked.concat (h : Linked block head tail (front ++ [c])) (hn : block n = none)
    (hnew : block' n = some ⟨some c.1, v, none⟩)
    (hc : block' c.1 = some ⟨last none front, c.2, some n⟩)
    (hsame : ∀ a, a ≠ n → a ≠ c.1 → block' a = block a) :
    Linked block' head (some n) (front ++ [c] ++ [(n, v)]) := by
  have hlast : last none (front ++ [c]) = some c.1 := last_append
  have hhead : head = first (front ++ [c]) (some n) := by
    rw [h.head, first_append, first_append]
    rfl
  rw [hhead]
  rw [← List.append_nil (front ++ [c])] at h
  apply h.insert (front ++ [c]) [] hn
  · rw [hlast]
    exact hnew
  · intro f d heq
    obtain ⟨rfl, ⟨rfl⟩⟩ := List.append_inj' heq rfl
    exact hc
  · simp
  · intro a hne hfirst _
    rw [hlast] at hfirst
    exact hsame a hne fun heq => hfirst (congrArg some heq.symm)

/-- The new node comes between two others. -/
theorem Linked.between {d : Nat × α} (h : Linked block head tail (front ++ c :: d :: back))
    (hn : block n = none) (hnew : block' n = some ⟨some c.1, v, some d.1⟩)
    (hc : block' c.1 = some ⟨last none front, c.2, some n⟩)
    (hd : block' d.1 = some ⟨some n, d.2, first back none⟩)
    (hsame : ∀ a, a ≠ n → a ≠ c.1 → a ≠ d.1 → block' a = block a) :
    Linked block' head tail (front ++ c :: (n, v) :: d :: back) := by
  have hlast : last none (front ++ [c]) = some c.1 := last_append
  have hhead : head = first (front ++ [c]) (some n) := by
    rw [h.head, first_append, first_append]
    rfl
  have htail : tail = last (some n) (d :: back) := by
    rw [h.tail, last_append]
    rfl
  rw [hhead, htail]
  rw [List.append_cons front c (d :: back)] at h
  rw [List.append_cons front c ((n, v) :: d :: back)]
  apply h.insert (front ++ [c]) (d :: back) hn
  · rw [hlast]
    exact hnew
  · intro f e heq
    obtain ⟨rfl, ⟨rfl⟩⟩ := List.append_inj' heq rfl
    exact hc
  · rintro e b ⟨rfl⟩
    exact hd
  · intro a hne hlast' hfirst
    rw [hlast] at hlast'
    exact hsame a hne (fun heq => hlast' (congrArg some heq.symm))
      fun heq => hfirst (congrArg some heq.symm)

/-- One node has another value. -/
theorem Linked.setVal (h : Linked block head tail (front ++ c :: back))
    (hc : block' c.1 = some ⟨last none front, v, first back none⟩)
    (hsame : ∀ a, a ≠ c.1 → block' a = block a) :
    Linked block' head tail (front ++ (c.1, v) :: back) := by
  have hnodup := h.nodup
  rw [List.map_append, List.map_cons] at hnodup
  obtain ⟨-, hnodupb, hapart⟩ := List.nodup_append.mp hnodup
  obtain ⟨hchain, hchain'⟩ := chain_append.mp h.chain
  constructor
  · rw [chain_append]
    refine ⟨hchain.congr ?_, hc, hchain'.2.congr ?_⟩
    · intro a ha
      exact hsame a (hapart a ha c.1 List.mem_cons_self)
    · intro a ha
      apply hsame a
      rintro rfl
      exact (List.nodup_cons.mp hnodupb).1 ha
  · rw [List.map_append, List.map_cons]
    exact hnodup
  · rw [h.head, first_append, first_append]
    rfl
  · rw [h.tail, last_append, last_append]
    rfl

/-- The last node of two or more is taken off. -/
theorem Linked.dropLast {t : Nat × α} (h : Linked block head tail (front ++ [c, t]))
    (hlast : block' c.1 = some ⟨last none front, c.2, none⟩)
    (hsame : ∀ a, a ≠ c.1 → a ≠ t.1 → block' a = block a) :
    Linked block' head (some c.1) (front ++ [c]) := by
  have hnodup := h.nodup
  rw [List.map_append, List.nodup_append] at hnodup
  obtain ⟨hnodupf, hnodupb, hapart⟩ := hnodup
  constructor
  · rw [chain_append]
    refine ⟨(chain_append.mp h.chain).1.congr ?_, hlast, trivial⟩
    intro a ha
    apply hsame a
    · rintro rfl
      exact hapart _ ha _ List.mem_cons_self rfl
    · rintro rfl
      exact hapart _ ha _ (List.mem_cons_of_mem _ List.mem_cons_self) rfl
  · rw [List.map_append, List.nodup_append]
    refine ⟨hnodupf, List.nodup_singleton _, ?_⟩
    intro a ha b hb
    exact hapart a ha b (List.mem_cons.mpr (.inl (List.mem_singleton.mp hb)))
  · rw [h.head, first_append, first_append]
    rfl
  · rw [last_append]
    rfl

end Linked

end Cse420.DoublyLinked
