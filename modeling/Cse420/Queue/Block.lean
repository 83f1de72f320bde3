import Cse420.Queue.Layout

/-!
The private block of `dequeueItem`. The bytes of a request are copied into what
`malloc(1024)` returned, but the source never stores a terminator behind them:
the string ends only if the block happens to hold a zero at that place.
-/

namespace Cse420.Queue

open CMemory

theorem splitItem_spec (path keyword : List UInt8) (hpath : space ∉ path)
    (hzero : 0 ∉ path ++ space :: keyword) :
    splitItem (path ++ space :: keyword ++ [0]) = some ⟨path, keyword⟩ := by
  have hstring := cstring_append (path ++ space :: keyword) [] hzero
  have hscan := scanTo_append space path (keyword ++ [0]) hpath
  simp only [List.append_assoc, List.cons_append] at hstring hscan
  simp [splitItem, hstring, hscan]

section Block

variable {block : Mem} {k p z : Nat} {r path keyword : List UInt8}
  {rest : List (List UInt8)}

/-- A request longer than the block runs over its end. -/
theorem copyOut_eq_none (str : Mem) (l : Nat) (r rest : List UInt8) (hgt : gt ∉ r)
    (hlong : str.length < l + r.length) (hl : l ≤ str.length) :
    copyOut str l (r ++ gt :: rest) = none := by
  induction r generalizing str l with
  | nil =>
      simp only [List.length_nil] at hlong
      omega
  | cons b r ih =>
      have hb : b ≠ gt := fun heq => hgt (by simp [heq])
      have hrest : gt ∉ r := fun hmem => hgt (by simp [hmem])
      simp only [List.cons_append, copyOut, hb, if_false]
      by_cases hfit : l < str.length
      · rw [store_eq_some str l b hfit]
        simp only [Option.bind_eq_bind, Option.bind_some]
        apply ih _ _ hrest
        · simp only [List.length_set, List.length_cons] at hlong ⊢
          omega
        · simp only [List.length_set]
          omega
      · simp [store, hfit]

/-- The loops over the segment when what they copy does not fit the block. -/
theorem dequeueLoops_long (back : List UInt8) (hgt : gt ∉ r) (hlong : block.length < r.length) :
    dequeueLoops block (List.replicate k space ++ rqHeader ++ (r ++ gt :: back)) = none := by
  obtain ⟨lead, -, hlead, hheader⟩ := header_first k
  have hscan := scanTo_append gt lead (r ++ gt :: back) hlead
  have hcopy := copyOut_eq_none block 0 r back hgt (by omega) (Nat.zero_le _)
  have hdrop : (lead ++ gt :: (r ++ gt :: back)).drop (lead.length + 1) = r ++ gt :: back := by
    simp
  have hbytes : List.replicate k space ++ rqHeader ++ (r ++ gt :: back) =
      lead ++ gt :: (r ++ gt :: back) := by
    rw [hheader]
    simp
  rw [hbytes]
  simp only [dequeueLoops, Option.bind_eq_bind, hscan, Option.bind_some, hdrop, hcopy]
  rfl

theorem dequeueLoops_segment_long (back : Mem) (hgt : gt ∉ r)
    (hlong : block.length < r.length) :
    dequeueLoops block (segment k (r :: rest) back) = none := by
  have hloops := dequeueLoops_long (k := k) (encode rest ++ lt :: back) hgt hlong
  simpa [segment, front, encode_cons] using hloops

/-- What `realloc` leaves of the block after the copy is the request and the one
byte the block held behind it. -/
theorem splitItem_block (hr : r = path ++ space :: keyword) (hpath : space ∉ path)
    (hzero : 0 ∉ r) :
    ((realloc (r ++ block.drop r.length) (r.length + 1)).bind splitItem) =
      if block[r.length]? = some 0 then some ⟨path, keyword⟩ else none := by
  cases hbyte : block[r.length]? with
  | none =>
      have hshort : block.length ≤ r.length := List.getElem?_eq_none_iff.mp hbyte
      simp [realloc, List.drop_eq_nil_of_le hshort]
  | some b =>
      obtain ⟨hlt, hget⟩ := List.getElem?_eq_some_iff.mp hbyte
      have hdrop : block.drop r.length = b :: block.drop (r.length + 1) := by
        rw [← hget]
        exact List.drop_eq_getElem_cons hlt
      have hrealloc : realloc (r ++ block.drop r.length) (r.length + 1) = some (r ++ [b]) := by
        rw [hdrop, realloc, if_pos (by simp)]
        simp [List.take_append]
      rw [hrealloc, Option.bind_some]
      by_cases hb : b = 0
      · subst hb
        rw [if_pos rfl, hr]
        rw [hr] at hzero
        exact splitItem_spec path keyword hpath hzero
      · have hnone : (0 : UInt8) ∉ r ++ [b] := by
          simp only [List.mem_append, List.mem_singleton, not_or]
          exact ⟨hzero, Ne.symm hb⟩
        rw [if_neg (by simpa using hb)]
        simp [splitItem, cstring_eq_none hnone]

/-- The item `dequeueItem` returns for a queue whose oldest request has a space:
the request split at its first space if the block holds a zero where the copied
bytes end, and none otherwise. -/
theorem dequeueItem_block (hr : r = path ++ space :: keyword) (hpath : space ∉ path)
    (hclean : ∀ s ∈ r :: rest, Clean s) (hz : 0 < z) (hp : p ≤ k) :
    (dequeueItem block ⟨image k (r :: rest) z, p⟩).map Prod.fst =
      if block[r.length]? = some 0 then some ⟨path, keyword⟩ else none := by
  have hrclean := hclean r (by simp)
  by_cases hfit : r.length ≤ block.length
  · have hloops := dequeueLoops_image block k r rest z hrclean.2.1 hfit
    have hshm := dequeueShm_image block k p r rest z hclean hfit hz hp
    rw [← splitItem_block hr hpath hrclean.2.2, dequeueItem_eq]
    simp only [hloops, Option.bind_eq_bind, Option.bind_some, hshm]
    cases realloc (r ++ block.drop r.length) (r.length + 1) with
    | none => rfl
    | some str =>
        simp only [Option.bind_some]
        cases splitItem str <;> rfl
  · have hnone : block[r.length]? = none := by
      rw [List.getElem?_eq_none_iff]
      omega
    have hloops : dequeueLoops block (image k (r :: rest) z) = none :=
      dequeueLoops_segment_long _ hrclean.2.1 (by omega)
    rw [dequeueItem, hloops, hnone]
    rfl

end Block

/-- The result of `dequeueItem` does not depend on the block it gets, and is the
oldest request split at its first space, exactly for two blocks that both hold a
zero at the length of the request. -/
theorem dequeueItem_blocks_iff (k p z : Nat) (r path keyword : List UInt8)
    (rest : List (List UInt8)) (hr : r = path ++ space :: keyword) (hpath : space ∉ path)
    (hclean : ∀ s ∈ r :: rest, Clean s) (hz : 0 < z) (hp : p ≤ k) (block other : Mem) :
    ((dequeueItem block ⟨image k (r :: rest) z, p⟩).map Prod.fst = some ⟨path, keyword⟩ ∧
        (dequeueItem other ⟨image k (r :: rest) z, p⟩).map Prod.fst = some ⟨path, keyword⟩) ↔
      block[r.length]? = some 0 ∧ other[r.length]? = some 0 := by
  have hpick (m : Mem) : (if m[r.length]? = some 0 then some (Item.mk path keyword) else none) =
      some ⟨path, keyword⟩ ↔ m[r.length]? = some 0 := by
    split <;> simp_all
  rw [dequeueItem_block hr hpath hclean hz hp, dequeueItem_block hr hpath hclean hz hp,
    hpick, hpick]

/-- A block that was never written and one whose first bytes are zero. -/
theorem dequeueItem_blocks_iff_zeros :
    (dequeueItem (List.replicate 1024 0) ⟨image 0 [text "/d w"] (rqSIZE - 22), 0⟩).map Prod.fst =
        some ⟨text "/d", text "w"⟩ ∧
      (dequeueItem (List.replicate 8 0 ++ List.replicate 1016 lt)
        ⟨image 0 [text "/d w"] (rqSIZE - 22), 0⟩).map Prod.fst = some ⟨text "/d", text "w"⟩ := by
  apply (dequeueItem_blocks_iff 0 0 (rqSIZE - 22) (text "/d w") (text "/d") (text "w") []
    (by decide) (by decide) (by decide) (by decide) (Nat.le_refl 0) _ _).mpr
  have hlength : (text "/d w").length = 4 := by decide
  rw [hlength]
  constructor
  · rw [List.getElem?_replicate, if_pos (by decide)]
  · rw [List.getElem?_append_left (by simp)]
    decide

/-- With a block full of other bytes the string of the same queue does not end. -/
theorem dequeueItem_unterminated :
    (dequeueItem (List.replicate 1024 0) ⟨image 0 [text "/d w"] (rqSIZE - 22), 0⟩).map Prod.fst =
        some ⟨text "/d", text "w"⟩ ∧
      (dequeueItem (List.replicate 1024 'x'.toUInt8)
        ⟨image 0 [text "/d w"] (rqSIZE - 22), 0⟩).map Prod.fst = none := by
  have hlength : (text "/d w").length = 4 := by decide
  have hitem (b : UInt8) :
      (dequeueItem (List.replicate 1024 b) ⟨image 0 [text "/d w"] (rqSIZE - 22), 0⟩).map
          Prod.fst =
        if (List.replicate 1024 b)[(text "/d w").length]? = some 0
        then some ⟨text "/d", text "w"⟩ else none :=
    dequeueItem_block (by decide) (by decide) (by decide) (by decide) (Nat.le_refl 0)
  constructor
  · rw [hitem, hlength, List.getElem?_replicate, if_pos (by decide : 4 < 1024), if_pos rfl]
  · rw [hitem, hlength, List.getElem?_replicate, if_pos (by decide : 4 < 1024),
      if_neg (by decide)]

end Cse420.Queue
