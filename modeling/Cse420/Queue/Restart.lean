import Cse420.Queue.Reuse

/-!
A server that starts on a segment another run has left. `init_shm` writes the
header, an end marker behind it and a zero in the last byte, and leaves all
other bytes as they are: they stand behind the new end marker, where only the
search for the exit command and the next requests come across them.
-/

namespace Cse420.Queue

open CMemory Fifo

/-- A later call: a client's `AddReq`, or one turn of the server's loop with the
block `dequeueItem` would get from `malloc`. -/
inductive Later where
  | add (r : List UInt8)
  | poll (block : Mem)

/-- What such a call shows: nothing for `AddReq`; for the server the count, the
result of the exit test and the item it takes out. -/
inductive Outcome where
  | added
  | polled (count : Nat) (quiet : Bool) (item : Option Item)
  deriving DecidableEq

/-- One call. The server calls `dequeueItem` when it has counted a request and
found no exit command. -/
def later (server : Server) : Later → Option (Outcome × Server)
  | .add r => (addReq server.shm r).map fun shm => (.added, { server with shm })
  | .poll block => do
      let count ← charcount server.shm
      let quiet ← noExit server.shm
      if 1 < count ∧ quiet then
        let (item, next) ← dequeueItem block server
        return (.polled count quiet (some item), next)
      else return (.polled count quiet none, server)

/-- The outcomes of a sequence of calls, up to the first one without a result. -/
def outcomes (server : Server) : List Later → List (Option Outcome)
  | [] => []
  | call :: rest =>
      match later server call with
      | none => [none]
      | some (outcome, next) => some outcome :: outcomes next rest

/-- The queue a server finds is empty to it and to its clients: nothing that is
done with it from then on can be told from a start on a zero-filled segment. -/
def StartsEmpty (shm : Mem) : Prop :=
  ∃ server fresh, initShm shm = some server ∧
    initShm (List.replicate rqSIZE 0) = some fresh ∧
    charcount server.shm = some 1 ∧ noExit server.shm = some true ∧
    ∀ calls, outcomes server calls = outcomes fresh calls

/-- What servers and clients can leave in the segment, in one run or several:
any calls, with any strings and blocks, also those `main` would not make. -/
inductive Left : Mem → Prop where
  | created : Left (List.replicate rqSIZE 0)
  | init {shm : Mem} {server : Server} (before : Left shm)
      (hcall : initShm shm = some server) : Left server.shm
  | add {shm next : Mem} (r : List UInt8) (before : Left shm)
      (hcall : addReq shm r = some next) : Left next
  | dequeue {server next : Server} {copied : List UInt8} (block : Mem)
      (before : Left server.shm) (hcall : dequeueShm block server = some (copied, next)) :
      Left next.shm

/-- The segment by what the calls have written: the header behind `k` spaces,
any bytes behind it, the last end marker, and bytes no call has written yet. -/
def layout (k : Nat) (body back : List UInt8) : Mem :=
  List.replicate k space ++ rqHeader ++ (body ++ lt :: back)

theorem segment_eq_layout (k : Nat) (pending : List (List UInt8)) (back : Mem) :
    segment k pending back = layout k (encode pending) back := by
  simp [segment, front, layout]

section Length

theorem initShm_length {shm : Mem} {server : Server} (h : initShm shm = some server) :
    server.shm.length = shm.length := by
  simp only [initShm, Option.bind_eq_bind, Option.bind_eq_some_iff] at h
  obtain ⟨first, hfirst, second, hsecond, third, hthird, hserver⟩ := h
  cases hserver
  rw [(store_length hthird).2, (store_length hsecond).2, storeAll_length hfirst]

theorem addReq_length {shm next : Mem} {r : List UInt8} (h : addReq shm r = some next) :
    next.length = shm.length := by
  simp only [addReq, Option.bind_eq_bind, Option.bind_eq_some_iff] at h
  obtain ⟨_, -, _, -, copied, hcopy, ended, hsep, hmark⟩ := h
  rw [(store_length hmark).2, (store_length hsep).2, storeAll_length hcopy]

theorem rewriteHeader_length {n r : Nat} {shm next : Mem}
    (h : rewriteHeader n r shm = some next) : next.length = shm.length := by
  induction n generalizing r shm with
  | zero =>
      cases h
      rfl
  | succ n ih =>
      obtain ⟨mid, hmid, hrest⟩ := Option.bind_eq_some_iff.mp h
      rw [ih hrest, (store_length hmid).2]

theorem dequeueShm_length {block : Mem} {server next : Server} {copied : List UInt8}
    (h : dequeueShm block server = some (copied, next)) :
    next.shm.length = server.shm.length := by
  simp only [dequeueShm, dequeueLoops, moveRQptr, Option.bind_eq_bind,
    Option.bind_eq_some_iff] at h
  obtain ⟨_, ⟨_, -, _, -, shm, hrewrite, hloops⟩, _, ⟨_, -, _, -, hmoved⟩, _, -, hnext⟩ := h
  cases hloops
  cases hmoved
  cases hnext
  exact rewriteHeader_length hrewrite

/-- No call changes the size of the segment. -/
theorem left_length {shm : Mem} (h : Left shm) : shm.length = rqSIZE := by
  induction h with
  | created => exact List.length_replicate
  | init before hcall ih => rw [initShm_length hcall, ih]
  | add r before hcall ih => rw [addReq_length hcall, ih]
  | dequeue block before hcall ih => rw [dequeueShm_length hcall, ih]

end Length

section Init

theorem initShm_bytes {shm : Mem} (hlength : shm.length = rqSIZE) :
    initShm shm = some ⟨layout 0 [] ((shm.drop 17).dropLast ++ [0]), 0⟩ := by
  rw [initShm_segment hlength, segment_eq_layout]
  rfl

end Init

section Calls

/-- Bytes nobody has written: none, or some with a zero at their end, and the
exit command is not among them. -/
structure Calm (back : List UInt8) : Prop where
  quiet : ¬ exitReq <:+: back
  ended : back = [] ∨ ∃ rest, back = rest ++ [0]

theorem calm_drop {back : List UInt8} (h : Calm back) (j : Nat) : Calm (back.drop j) where
  quiet := fun hin => h.quiet (hin.trans (List.drop_suffix j back).isInfix)
  ended := by
    rcases h.ended with rfl | ⟨rest, rfl⟩
    · exact Or.inl List.drop_nil
    · rcases Nat.lt_or_ge rest.length j with hlong | hshort
      · exact Or.inl (List.drop_eq_nil_of_le (by simp; omega))
      · exact Or.inr ⟨rest.drop j, List.drop_append_of_le_length hshort⟩

theorem calm_mem {back : List UInt8} (h : Calm back) : 0 ∈ back ↔ back ≠ [] := by
  rcases h.ended with rfl | ⟨rest, rfl⟩
  · simp
  · simp

/-- The bytes up to the first end marker, and from there to the last one. -/
theorem first_marker (body : List UInt8) :
    ∃ first rest, lt ∉ first ∧ first <+: body ∧ (∃ init, lt :: rest = init ++ [lt]) ∧
      ∀ back, body ++ lt :: back = first ++ lt :: (rest ++ back) := by
  by_cases hlt : lt ∈ body
  · obtain ⟨first, rest, rfl, hfirst⟩ := List.eq_append_cons_of_mem hlt
    exact ⟨first, rest ++ [lt], hfirst, List.prefix_append _ _, ⟨lt :: rest, by simp⟩, by simp⟩
  · exact ⟨body, [], hlt, List.prefix_refl _, ⟨[], rfl⟩, by simp⟩

theorem lt_not_mem_header (k : Nat) {bytes : List UInt8} (h : lt ∉ bytes) :
    lt ∉ List.replicate k space ++ rqHeader ++ bytes := by
  have hheader := lt_not_mem_front k [] (by simp)
  simp only [front, encode, List.flatMap_nil, List.append_nil] at hheader
  rw [List.mem_append, not_or]
  exact ⟨hheader, h⟩

/-- What `charcount` counts. -/
theorem charcount_layout (k : Nat) (body : List UInt8) :
    ∃ first, first <+: body ∧
      ∀ back, charcount (layout k body back) = some (1 + first.count gt) := by
  obtain ⟨first, rest, hfirst, hin, -, hsplit⟩ := first_marker body
  refine ⟨first, hin, ?_⟩
  intro back
  have hone := count_gt_front k [] (by simp)
  simp only [front, encode, List.flatMap_nil, List.append_nil, List.length_nil] at hone
  have hcount := charcountFrom_append 0 (List.replicate k space ++ rqHeader ++ first)
    (rest ++ back) (lt_not_mem_header k hfirst)
  rw [charcount, layout, hsplit, ← List.append_assoc, hcount, List.count_append, hone, Nat.zero_add]

/-- A count above one means that there is a separator behind the header. -/
theorem charcount_layout_gt {k n : Nat} {body back : List UInt8}
    (h : charcount (layout k body back) = some n) (hn : 1 < n) : gt ∈ body := by
  obtain ⟨first, hin, hcount⟩ := charcount_layout k body
  rw [hcount, Option.some_inj] at h
  apply hin.subset
  rw [← List.count_pos_iff]
  omega

/-- Up to calm bytes the exit test depends on the bytes in front of them. -/
theorem noExit_calm {head back : List UInt8} (hhead : 0 ∉ head) (hback : Calm back)
    (hsome : back ≠ []) :
    noExit (head ++ lt :: back) = some (decide (¬ exitReq <:+: head)) := by
  obtain ⟨w, rest, rfl, hw⟩ := List.eq_append_cons_of_mem ((calm_mem hback).mpr hsome)
  have hquiet : ¬ exitReq <:+: w :=
    fun hin => hback.quiet (hin.trans (List.prefix_append w _).isInfix)
  have hzero : 0 ∉ head ++ lt :: w := by
    simp only [List.mem_append, List.mem_cons, not_or]
    exact ⟨hhead, by decide, hw⟩
  have hstring := cstring_append (head ++ lt :: w) rest hzero
  rw [List.append_assoc, List.cons_append] at hstring
  rw [noExit, hstring, Option.map_some, Option.some_inj, Bool.eq_iff_iff, decide_eq_true_eq,
    Option.isNone_iff_eq_none, ← Option.not_isSome_iff_eq_none, strstr_isSome_iff,
    infix_append_cons_iff _ _ _ _ (by decide)]
  simp [hquiet]

/-- The exit test ends at a zero that was written, or goes on over calm bytes. -/
theorem noExit_layout (k : Nat) (body : List UInt8) {back other : List UInt8}
    (hback : Calm back) (hother : Calm other) (hlength : back.length = other.length) :
    noExit (layout k body back) = noExit (layout k body other) := by
  rw [layout, layout, ← List.append_assoc, ← List.append_assoc]
  by_cases hzero : 0 ∈ List.replicate k space ++ rqHeader ++ body
  · obtain ⟨string, rest, hsplit, hstring⟩ := List.eq_append_cons_of_mem hzero
    rw [hsplit]
    simp only [noExit, List.append_assoc, List.cons_append, cstring_append _ _ hstring]
  · by_cases hnil : back = []
    · subst hnil
      rw [List.eq_nil_of_length_eq_zero hlength.symm]
    · have hcons : other ≠ [] := by
        intro heq
        rw [heq] at hlength
        exact hnil (List.eq_nil_of_length_eq_zero hlength)
      rw [noExit_calm hzero hback hnil, noExit_calm hzero hother hcons]

/-- The last separator in front of some bytes behind the header. -/
theorem last_separator (k : Nat) (bytes : List UInt8) :
    ∃ kept mid head, bytes = kept ++ mid ∧ gt ∉ mid ∧
      List.replicate k space ++ rqHeader ++ kept = head ++ [gt] := by
  induction bytes using List.reverseRecOn with
  | nil =>
      obtain ⟨head, -, -, hhead⟩ := header_first k
      exact ⟨[], [], head, rfl, by simp, by rw [List.append_nil, hhead]⟩
  | append_singleton bytes b ih =>
      obtain ⟨kept, mid, head, rfl, hmid, hhead⟩ := ih
      by_cases hb : b = gt
      · subst hb
        exact ⟨_, [], _, (List.append_nil _).symm, by simp, (List.append_assoc _ _ _).symm⟩
      · refine ⟨kept, mid ++ [b], head, List.append_assoc _ _ _, ?_, hhead⟩
        simp only [List.mem_append, List.mem_singleton, not_or]
        exact ⟨hmid, Ne.symm hb⟩

/-- `AddReq` finds its place among the bytes that were written, and may write
over some that were not. -/
theorem addReq_layout (k : Nat) (body r : List UInt8) :
    ∃ written j, ∀ back, addReq (layout k body back) r =
      if j ≤ back.length then some (layout k written (back.drop j)) else none := by
  obtain ⟨first, rest, hfirst, -, ⟨init, hinit⟩, hsplit⟩ := first_marker body
  obtain ⟨kept, mid, head, rfl, hmid, hhead⟩ := last_separator k first
  have hends (back : List UInt8) : init ++ lt :: back = lt :: (rest ++ back) := by
    rw [← List.cons_append, hinit]
    simp
  have hlayout (back : List UInt8) :
      layout k body back = (head ++ [gt]) ++ (mid ++ init ++ lt :: back) := by
    rw [layout, hsplit, ← hends, ← hhead]
    simp
  have hscan (back : List UInt8) :
      scanTo lt ((head ++ [gt]) ++ (mid ++ init ++ lt :: back)) =
        some (head.length + (mid.length + 1)) := by
    have hto := scanTo_append lt _ (rest ++ back) (lt_not_mem_header k hfirst)
    rw [List.append_assoc, ← hsplit] at hto
    rw [← hlayout, layout, hto, ← List.append_assoc, hhead]
    simp
  have hback (back : List UInt8) :
      scanBack gt ((head ++ [gt]) ++ (mid ++ init ++ lt :: back))
        (head.length + (mid.length + 1)) = some head.length := by
    have hno : gt ∉ mid ++ [lt] := by
      simp only [List.mem_append, List.mem_singleton, not_or]
      exact ⟨hmid, by decide⟩
    have hfrom := scanBack_append gt head (mid ++ [lt]) (rest ++ back) hno (mid.length + 1)
      (by simp)
    rw [List.append_assoc mid init, hends]
    simpa using hfrom
  have hadd (back : List UInt8) := addReq_write (r := r) (hscan back) (hback back) (by simp)
  have hwritten (back : List UInt8) : head ++ [gt] ++ (r ++ gt :: back) =
      List.replicate k space ++ rqHeader ++ (kept ++ r ++ gt :: back) := by
    rw [← hhead]
    simp
  rcases Nat.lt_or_ge (mid ++ init).length (r.length + 2) with hover | hinside
  · -- the end marker that is written is the last one
    refine ⟨kept ++ r ++ [gt], r.length + 1 - (mid ++ init).length, ?_⟩
    intro back
    have hdrop : (mid ++ init ++ lt :: back).drop (r.length + 2) =
        back.drop (r.length + 1 - (mid ++ init).length) := by
      rw [List.drop_append, List.drop_eq_nil_of_le (by omega), List.nil_append,
        show r.length + 2 - (mid ++ init).length = r.length + 1 - (mid ++ init).length + 1 by omega]
      rfl
    rw [hlayout, hadd, hdrop, hwritten]
    simp only [layout, List.append_assoc, List.cons_append, List.nil_append, List.length_append,
      List.length_cons] at hover ⊢
    congr 1
    rw [eq_iff_iff]
    omega
  · refine ⟨kept ++ r ++ gt :: lt :: (mid ++ init).drop (r.length + 2), 0, ?_⟩
    intro back
    rw [hlayout, hadd, List.drop_append_of_le_length hinside, hwritten,
      if_pos (by rw [List.length_append]; omega), if_pos (Nat.zero_le _)]
    simp [layout]

theorem layout_drop (p n : Nat) (body back : List UInt8) :
    (layout (p + n) body back).drop p = layout n body back := by
  simp [layout, List.drop_append, List.drop_replicate]

/-- A string that starts in front of the header has it as its first part. -/
theorem cstring_layout (k : Nat) (body back : List UInt8) :
    cstring (layout k body back) =
      (cstring (body ++ lt :: back)).map (List.replicate k space ++ rqHeader ++ ·) := by
  have hheader := zero_not_mem_front k [] (by simp)
  simp only [front, encode, List.flatMap_nil, List.append_nil] at hheader
  cases hstring : cstring (body ++ lt :: back) with
  | some w => exact cstring_prepend hheader hstring
  | none =>
      apply cstring_eq_none
      intro hzero
      rcases List.mem_append.mp hzero with hin | hin
      · exact hheader hin
      · obtain ⟨w, hw⟩ := cstring_isSome hin
        rw [hstring] at hw
        cases hw

theorem cstring_ends (body back : List UInt8) :
    (∃ w, cstring (body ++ lt :: back) = some w) ↔ 0 ∈ body ++ back := by
  have hmem : 0 ∈ body ++ lt :: back ↔ 0 ∈ body ++ back := by
    simp only [List.mem_append, List.mem_cons]
    rw [or_iff_right (by decide : ¬ (0 : UInt8) = lt)]
  rw [← hmem]
  constructor
  · rintro ⟨w, hw⟩
    by_contra hno
    rw [cstring_eq_none hno] at hw
    cases hw
  · exact cstring_isSome

theorem moveRQptr_layout {k p : Nat} (body back : List UInt8) (hp : p ≤ k) :
    moveRQptr ⟨layout k body back, p⟩ =
      if 0 ∈ body ++ back then some ⟨layout k body back, k⟩ else none := by
  obtain ⟨n, rfl⟩ : ∃ n, k = p + n := ⟨k - p, by omega⟩
  simp only [moveRQptr, layout_drop, cstring_layout]
  split
  case isTrue hzero =>
    obtain ⟨w, hw⟩ := (cstring_ends body back).mpr hzero
    have hstrstr := strstr_header n w
    simp only [hw, Option.map_some, Option.bind_eq_bind, Option.bind_some, hstrstr]
    rfl
  case isFalse hzero =>
    cases hstring : cstring (body ++ lt :: back) with
    | none => rfl
    | some w => exact absurd ((cstring_ends body back).mp ⟨w, hstring⟩) hzero

/-- `dequeueItem` reads the bytes up to the second separator, and needs a zero
somewhere behind it. -/
theorem dequeueItem_layout (block : Mem) (k p : Nat) (r body : List UInt8) (hgt : gt ∉ r)
    (hp : p ≤ k) :
    ∃ item : Option Item, ∀ back,
      dequeueItem block ⟨layout k (r ++ gt :: body) back, p⟩ =
        if 0 ∈ body ++ back then
          item.map fun item => (item, ⟨layout (k + (r.length + 1)) body back, k + (r.length + 1)⟩)
        else none := by
  have hlayout (back : List UInt8) : layout k (r ++ gt :: body) back =
      List.replicate k space ++ rqHeader ++ (r ++ gt :: (body ++ lt :: back)) := by
    simp [layout]
  rcases Nat.lt_or_ge block.length r.length with hlong | hfit
  · refine ⟨none, ?_⟩
    intro back
    have hloops := dequeueLoops_long (k := k) (body ++ lt :: back) hgt hlong
    rw [dequeueItem, hlayout, hloops]
    simp
  · refine ⟨(realloc (r ++ block.drop r.length) (r.length + 1)).bind splitItem, ?_⟩
    intro back
    have hloops := dequeueLoops_header block k r (body ++ lt :: back) hgt hfit
    have hmove := moveRQptr_layout body back (Nat.le_trans hp (Nat.le_add_right k (r.length + 1)))
    change dequeueLoops _ _ = some (_, _, layout (k + (r.length + 1)) body back) at hloops
    simp only [dequeueItem, hlayout, hloops, Option.bind_eq_bind, Option.bind_some, hmove]
    cases realloc (r ++ block.drop r.length) (r.length + 1) with
    | none => simp
    | some str =>
        simp only [Option.bind_some]
        split
        case isTrue hzero =>
          obtain ⟨w, hw⟩ := (cstring_ends body back).mpr hzero
          have hprint : printSHM ⟨layout (k + (r.length + 1)) body back, k + (r.length + 1)⟩ =
              some () := by
            have hdrop : (layout (k + (r.length + 1)) body back).drop (k + (r.length + 1)) =
                layout 0 body back := layout_drop (k + (r.length + 1)) 0 body back
            rw [printSHM, hdrop, cstring_layout, hw]
            rfl
          cases splitItem str with
          | none => rfl
          | some item => simp [hprint]
        case isFalse hzero => rfl

end Calls

section Alike

/-- Two servers whose segments differ in bytes that were never written, and
that neither test of `main` can tell apart. -/
structure Alike (server other : Server) (k : Nat) (body back zeros : List UInt8) : Prop where
  shm : server.shm = layout k body back
  shm' : other.shm = layout k body zeros
  ptr : server.RQptr = other.RQptr
  behind : other.RQptr ≤ k
  calm : Calm back
  calm' : Calm zeros
  length : back.length = zeros.length

variable {server other : Server} {k : Nat} {body back zeros : List UInt8}

theorem alike_mem (h : Alike server other k body back zeros) (bytes : List UInt8) :
    0 ∈ bytes ++ back ↔ 0 ∈ bytes ++ zeros := by
  rw [List.mem_append, List.mem_append, calm_mem h.calm, calm_mem h.calm', ← List.length_pos_iff,
    ← List.length_pos_iff, h.length]

/-- The same call shows the same and leaves the two alike. -/
theorem later_alike (h : Alike server other k body back zeros) (call : Later) :
    (later server call = none ∧ later other call = none) ∨
      ∃ outcome next next' k body back zeros, later server call = some (outcome, next) ∧
        later other call = some (outcome, next') ∧ Alike next next' k body back zeros := by
  obtain ⟨shm, p⟩ := server
  obtain ⟨shm', p'⟩ := other
  obtain ⟨hshm, hshm', hptr, hbehind, hcalm, hcalm', hlength⟩ := id h
  simp only at hshm hshm' hptr hbehind
  subst hshm hshm' hptr
  cases call with
  | add r =>
      obtain ⟨written, j, hadd⟩ := addReq_layout k body r
      simp only [later, hadd, ← hlength]
      split
      case isTrue hfit =>
        refine Or.inr ⟨.added, _, _, k, written, back.drop j, zeros.drop j, rfl, rfl, ?_⟩
        exact ⟨rfl, rfl, rfl, hbehind, calm_drop hcalm j, calm_drop hcalm' j, by simp [hlength]⟩
      case isFalse => exact Or.inl ⟨rfl, rfl⟩
  | poll block =>
      obtain ⟨first, -, hcount⟩ := charcount_layout k body
      have hquiet := noExit_layout k body hcalm hcalm' hlength
      cases hexit : noExit (layout k body zeros) with
      | none =>
          exact Or.inl ⟨by simp [later, hcount, hquiet, hexit], by simp [later, hcount, hexit]⟩
      | some quiet =>
          simp only [later, hcount, hquiet, hexit, Option.bind_eq_bind, Option.bind_some]
          split
          case isTrue hserve =>
            have hgt := charcount_layout_gt (hcount back) hserve.1
            obtain ⟨r, body, rfl, hr⟩ := List.eq_append_cons_of_mem hgt
            obtain ⟨item, hitem⟩ := dequeueItem_layout block k p r body hr hbehind
            simp only [hitem, alike_mem h body]
            split
            case isTrue hzero =>
              cases item with
              | none => exact Or.inl ⟨rfl, rfl⟩
              | some item =>
                  refine Or.inr ⟨_, _, _, k + (r.length + 1), body, back, zeros, rfl, rfl, ?_⟩
                  exact ⟨rfl, rfl, rfl, Nat.le_refl _, hcalm, hcalm', hlength⟩
            case isFalse => exact Or.inl ⟨rfl, rfl⟩
          case isFalse => exact Or.inr ⟨_, _, _, k, body, back, zeros, rfl, rfl, h⟩

theorem outcomes_alike (h : Alike server other k body back zeros) (calls : List Later) :
    outcomes server calls = outcomes other calls := by
  induction calls generalizing server other k body back zeros with
  | nil => rfl
  | cons call rest ih =>
      rcases later_alike h call with ⟨hnone, hnone'⟩ | ⟨_, _, _, _, _, _, _, hsome, hsome', hnext⟩
      · simp [outcomes, hnone, hnone']
      · simp [outcomes, hsome, hsome', ih hnext]

end Alike

section Start

variable {shm : Mem}

/-- The bytes of the segment that `init_shm` leaves as they are. -/
def kept (shm : Mem) : List UInt8 := (shm.drop 17).dropLast

theorem calm_kept (h : ¬ exitReq <:+: kept shm) : Calm (kept shm ++ [0]) where
  quiet := by
    rw [infix_append_cons_iff _ _ _ _ (by decide)]
    rintro (hin | hin)
    · exact h hin
    · simp [exitReq, text] at hin
  ended := Or.inr ⟨_, rfl⟩

theorem kept_length (hlength : shm.length = rqSIZE) : (kept shm ++ [0]).length = rqSIZE - 17 := by
  obtain ⟨n, hn⟩ := rqSIZE_eq
  simp [kept, hlength]
  omega

theorem initShm_kept (hlength : shm.length = rqSIZE) :
    initShm shm = some ⟨segment 0 [] (kept shm ++ [0]), 0⟩ := by
  rw [segment_eq_layout]
  exact initShm_bytes hlength

/-- No exit command among the bytes kept: the start cannot be told from one on a
zero-filled segment. -/
theorem startsEmpty_of_quiet (hlength : shm.length = rqSIZE) (hquiet : ¬ exitReq <:+: kept shm) :
    StartsEmpty shm := by
  have hcalm := calm_kept hquiet
  have hzeros : Calm (List.replicate (rqSIZE - 17) 0) := by
    obtain ⟨n, hn⟩ := rqSIZE_eq
    constructor
    · intro hin
      have hx : 'x'.toUInt8 ∈ List.replicate (rqSIZE - 17) (0 : UInt8) := hin.subset (by decide)
      exact absurd (List.eq_of_mem_replicate hx) (by decide)
    · refine Or.inr ⟨List.replicate n 0, ?_⟩
      rw [hn, ← List.replicate_succ']
      rfl
  refine ⟨_, _, initShm_kept hlength, initShm_zeros, ?_, ?_, ?_⟩
  · exact charcount_segment 0 [] _ (by simp)
  · rw [segment, noExit_calm (zero_not_mem_front 0 [] (by simp)) hcalm (by simp),
      Option.some_inj, decide_eq_true_eq, exit_in_front_iff]
    simp
  · intro calls
    have halike : Alike ⟨segment 0 [] (kept shm ++ [0]), 0⟩ ⟨image 0 [] (rqSIZE - 17), 0⟩ 0 []
        (kept shm ++ [0]) (List.replicate (rqSIZE - 17) 0) :=
      ⟨segment_eq_layout 0 [] _, segment_eq_layout 0 [] _, rfl, Nat.le_refl 0, hcalm, hzeros,
        by rw [kept_length hlength, List.length_replicate]⟩
    exact outcomes_alike halike calls

/-- The exit test finds a command right behind the end marker. -/
theorem noExit_left (k : Nat) (pending : List (List UInt8)) (rest : List UInt8)
    (hclean : ∀ r ∈ pending, Clean r) (hzero : 0 ∈ rest) :
    noExit (segment k pending (exitReq ++ rest)) = some false := by
  obtain ⟨w, hw⟩ := cstring_isSome hzero
  have hback := cstring_prepend (by decide : 0 ∉ exitReq) hw
  rw [noExit_segment k pending hclean hback, Option.some_inj, decide_eq_false_iff_not, not_not]
  exact Or.inr (List.prefix_append exitReq w).isInfix

/-- A turn of the server's loop shows the result of the exit test. -/
theorem noExit_of_outcomes {server other : Server} {block : Mem} {n : Nat}
    (h : outcomes server [.poll block] = outcomes other [.poll block])
    (hcount : charcount server.shm = some n) (hexit : noExit server.shm = some false) :
    noExit other.shm = some false := by
  have hserver : outcomes server [.poll block] = [some (.polled n false none)] := by
    simp [outcomes, later, hcount, hexit]
  rw [hserver] at h
  cases hcount' : charcount other.shm with
  | none => simp [outcomes, later, hcount'] at h
  | some m =>
      cases hexit' : noExit other.shm with
      | none => simp [outcomes, later, hcount', hexit'] at h
      | some quiet =>
          cases quiet with
          | false => rfl
          | true =>
              cases hitem : dequeueItem block other with
              | none =>
                  by_cases hm : 1 < m <;>
                    simp [outcomes, later, hcount', hexit', hitem, hm] at h
              | some result =>
                  by_cases hm : 1 < m <;>
                    simp [outcomes, later, hcount', hexit', hitem, hm] at h

theorem outcomes_add {server : Server} {r : List UInt8} {shm : Mem} (calls : List Later)
    (h : addReq server.shm r = some shm) :
    outcomes server (.add r :: calls) = some .added :: outcomes { server with shm } calls := by
  simp [outcomes, later, h]

/-- An exit command among them shows at once, or as soon as a request has been
written over what stands in front of it. -/
theorem not_startsEmpty (hlength : shm.length = rqSIZE) (hexit : exitReq <:+: kept shm) :
    ¬ StartsEmpty shm := by
  rintro ⟨server, fresh, hinit, hzeros, -, hquiet, hcalls⟩
  rw [initShm_kept hlength, Option.some_inj] at hinit
  rw [initShm_zeros, Option.some_inj] at hzeros
  subst hinit hzeros
  obtain ⟨lead, rest, hsplit⟩ := hexit
  have hbytes : kept shm ++ [0] = lead ++ (exitReq ++ (rest ++ [0])) := by
    rw [← hsplit]
    simp
  have hsize := kept_length hlength
  rw [hbytes] at hquiet hcalls hsize
  cases lead with
  | nil =>
      rw [List.nil_append, noExit_left 0 [] _ (by simp) (by simp)] at hquiet
      cases hquiet
  | cons b lead =>
      -- a request of this length ends right in front of the command
      let r := List.replicate lead.length space
      have hr : r.length = lead.length := List.length_replicate
      have hclean : ∀ s ∈ [r], Clean s := by
        intro s hs
        rw [List.mem_singleton.mp hs]
        refine ⟨fun hin => ?_, fun hin => ?_, fun hin => ?_⟩ <;>
          exact absurd (List.eq_of_mem_replicate hin) (by decide)
      have hadd := addReq_segment 0 [] (b :: lead ++ (exitReq ++ (rest ++ [0]))) r (by simp)
        (by simp [hr])
      have hdrop : (b :: lead ++ (exitReq ++ (rest ++ [0]))).drop (r.length + 1) =
          exitReq ++ (rest ++ [0]) := by
        simp [hr]
      have hfit : r.length + 1 < rqSIZE - 17 := by
        rw [hr, ← hsize]
        simp [exitReq, text]
      have hadd' := addReq_image 0 [] (rqSIZE - 17) r (by simp) (by omega)
      rw [hdrop] at hadd
      have hpolls := hcalls [.add r, .poll []]
      rw [outcomes_add _ hadd, outcomes_add _ hadd'] at hpolls
      have hshown := noExit_of_outcomes (List.tail_eq_of_cons_eq hpolls)
        (charcount_segment 0 [r] _ hclean) (noExit_left 0 [r] _ hclean (by simp))
      obtain ⟨found, hfound, hiff⟩ := noExit_image 0 [r] (rqSIZE - 17 - (r.length + 1)) hclean
        (by omega)
      rw [List.nil_append, hfound, Option.some_inj] at hshown
      obtain ⟨s, hs, hin⟩ := hiff.mp hshown
      rw [List.mem_singleton.mp hs] at hin
      exact absurd (List.eq_of_mem_replicate (hin.subset (by decide : 'x'.toUInt8 ∈ exitReq)))
        (by decide)

/-- Whatever earlier runs have left in the segment, a server that starts on it
finds a queue that is empty to it and its clients exactly if `exit` does not
occur in the bytes from the eighteenth to the last but one. -/
theorem restart_empty_iff (h : Left shm) : StartsEmpty shm ↔ ¬ exitReq <:+: kept shm := by
  have hlength := left_length h
  constructor
  · intro hstarts hexit
    exact not_startsEmpty hlength hexit hstarts
  · exact startsEmpty_of_quiet hlength

/-- What a first run leaves after some requests that nobody has taken out yet. -/
theorem left_image (pending : List (List UInt8)) (hclean : ∀ r ∈ pending, Clean r)
    (hfit : weight pending ≤ rqSIZE - 17) :
    Left (image 0 pending (rqSIZE - 17 - weight pending)) := by
  induction pending using List.reverseRecOn with
  | nil => exact Left.init Left.created initShm_zeros
  | append_singleton pending r ih =>
      have hbefore : ∀ s ∈ pending, Clean s := fun s hs => hclean s (by simp [hs])
      rw [weight_append, weight_singleton] at hfit ⊢
      rw [← Nat.sub_sub]
      apply Left.add r (ih hbefore (by omega))
      exact addReq_image 0 pending _ r hbefore (by omega)

/-- A run that ends with a search request still pending. -/
theorem restart_empty_after_request :
    Left (image 0 [text "/d w"] (rqSIZE - 17 - 5)) ∧
      StartsEmpty (image 0 [text "/d w"] (rqSIZE - 17 - 5)) := by
  have hleft := left_image [text "/d w"] (by decide) (by decide)
  refine ⟨hleft, (restart_empty_iff hleft).mpr ?_⟩
  intro hin
  have hx : 'x'.toUInt8 ∈ image 0 [text "/d w"] (rqSIZE - 17 - 5) :=
    List.mem_of_mem_drop (List.dropLast_subset _ (hin.subset (by decide)))
  rcases List.mem_append.mp hx with hx | hx
  · exact absurd hx (by decide)
  · rcases List.mem_cons.mp hx with hx | hx
    · exact absurd hx (by decide)
    · exact absurd (List.eq_of_mem_replicate hx) (by decide)

/-- A run that is ended by the exit command: the next server on this segment
finds the command again. -/
theorem restart_finds_exit :
    Left (image 0 [text "/d w", text "exit"] (rqSIZE - 17 - 10)) ∧
      ¬ StartsEmpty (image 0 [text "/d w", text "exit"] (rqSIZE - 17 - 10)) := by
  have hleft := left_image [text "/d w", text "exit"] (by decide) (by decide)
  refine ⟨hleft, not_startsEmpty (left_length hleft) ?_⟩
  obtain ⟨n, hn⟩ : ∃ n, rqSIZE - 17 - 10 = n + 1 := ⟨1048548, by decide⟩
  have hdrop : (image 0 [text "/d w", text "exit"] (n + 1)).drop 17 =
      text "d w>exit>" ++ lt :: (List.replicate n 0 ++ [0]) := by
    rw [image, List.replicate_succ', List.drop_append_of_le_length (by decide)]
    congr 1
  rw [hn, kept, hdrop, ← List.cons_append, ← List.append_assoc, List.dropLast_concat]
  exact ⟨text "d w>", gt :: lt :: List.replicate n 0, rfl⟩

end Start

end Cse420.Queue
