import Cse420.Queue.Segment

/-!
What the bytes of the segment mean. A well-formed segment is the image of a
number of leading spaces and a list of pending requests; each function of the
model has one theorem here that says what it does to an image.
-/

namespace Cse420.Queue

open CMemory

/-- A request the byte format can carry. -/
def Clean (r : List UInt8) : Prop := lt ∉ r ∧ gt ∉ r ∧ 0 ∉ r

instance (r : List UInt8) : Decidable (Clean r) :=
  inferInstanceAs (Decidable (lt ∉ r ∧ gt ∉ r ∧ 0 ∉ r))

/-- Each pending request, oldest first, followed by its separator. -/
def encode (pending : List (List UInt8)) : List UInt8 :=
  pending.flatMap (· ++ [gt])

/-- Everything in front of the end marker. -/
def front (k : Nat) (pending : List (List UInt8)) : List UInt8 :=
  List.replicate k space ++ rqHeader ++ encode pending

/-- The whole segment, with `z` zeros behind the end marker. -/
def image (k : Nat) (pending : List (List UInt8)) (z : Nat) : Mem :=
  front k pending ++ lt :: List.replicate z 0

/-- The segment with any bytes behind the end marker. -/
def segment (k : Nat) (pending : List (List UInt8)) (back : Mem) : Mem :=
  front k pending ++ lt :: back

theorem image_eq_segment (k : Nat) (pending : List (List UInt8)) (z : Nat) :
    image k pending z = segment k pending (List.replicate z 0) := rfl

theorem encode_cons (r : List UInt8) (rest : List (List UInt8)) :
    encode (r :: rest) = r ++ gt :: encode rest := by
  simp [encode]

theorem encode_concat (pending : List (List UInt8)) (r : List UInt8) :
    encode (pending ++ [r]) = encode pending ++ r ++ [gt] := by
  simp [encode]

/-- Bytes a list of requests takes in the segment. -/
def weight (pending : List (List UInt8)) : Nat :=
  (pending.map fun r => r.length + 1).sum

theorem encode_length (pending : List (List UInt8)) :
    (encode pending).length = weight pending := by
  simp [encode, weight, List.length_flatMap]

theorem front_length (k : Nat) (pending : List (List UInt8)) :
    (front k pending).length = k + 16 + weight pending := by
  have hheader : rqHeader.length = 16 := by decide
  simp [front, encode_length, hheader]
  omega

theorem segment_length (k : Nat) (pending : List (List UInt8)) (back : Mem) :
    (segment k pending back).length = k + 17 + weight pending + back.length := by
  simp [segment, front_length]
  omega

theorem image_length (k : Nat) (pending : List (List UInt8)) (z : Nat) :
    (image k pending z).length = k + 17 + weight pending + z := by
  rw [image_eq_segment, segment_length, List.length_replicate]

/-- The last header byte is the only separator in front of the requests. -/
theorem rqHeader_eq : rqHeader = rqHeader.take 15 ++ [gt] := by decide

theorem mem_encode {b : UInt8} {pending : List (List UInt8)} (h : b ∈ encode pending) :
    b = gt ∨ ∃ r ∈ pending, b ∈ r := by
  simp only [encode, List.mem_flatMap, List.mem_append, List.mem_singleton] at h
  obtain ⟨r, hr, hb | hb⟩ := h
  · exact Or.inr ⟨r, hr, hb⟩
  · exact Or.inl hb

theorem not_mem_front (b : UInt8) (k : Nat) (pending : List (List UInt8))
    (hspace : b ≠ space) (hheader : b ∉ rqHeader) (hgt : b ≠ gt)
    (hpending : ∀ r ∈ pending, b ∉ r) : b ∉ front k pending := by
  intro h
  simp only [front, List.mem_append, List.mem_replicate] at h
  rcases h with (⟨_, h⟩ | h) | h
  · exact hspace h
  · exact hheader h
  · rcases mem_encode h with h | ⟨r, hr, h⟩
    · exact hgt h
    · exact hpending r hr h

theorem lt_not_mem_front (k : Nat) (pending : List (List UInt8))
    (hmarks : ∀ r ∈ pending, lt ∉ r) : lt ∉ front k pending :=
  not_mem_front lt k pending (by decide) (by decide) (by decide) hmarks

theorem zero_not_mem_front (k : Nat) (pending : List (List UInt8))
    (hclean : ∀ r ∈ pending, Clean r) : 0 ∉ front k pending :=
  not_mem_front 0 k pending (by decide) (by decide) (by decide)
    (fun r hr => (hclean r hr).2.2)

section Charcount

theorem charcountFrom_append (i : Nat) (head back : List UInt8) (h : lt ∉ head) :
    charcountFrom i (head ++ lt :: back) = some (i + head.count gt) := by
  induction head generalizing i with
  | nil => simp [charcountFrom]
  | cons b rest ih =>
      have hb : b ≠ lt := fun heq => h (by simp [heq])
      have hrest : lt ∉ rest := fun hmem => h (by simp [hmem])
      simp only [List.cons_append, charcountFrom, hb, if_false]
      rw [ih _ hrest]
      by_cases hgt : b = gt
      · simp [hgt]
        omega
      · simp [hgt]

/-- Without an end marker the loop of `charcount` leaves the segment. -/
theorem charcountFrom_eq_none (i : Nat) (m : Mem) (h : lt ∉ m) :
    charcountFrom i m = none := by
  induction m generalizing i with
  | nil => rfl
  | cons b rest ih =>
      have hb : b ≠ lt := fun heq => h (by simp [heq])
      have hrest : lt ∉ rest := fun hmem => h (by simp [hmem])
      simp only [charcountFrom, hb, if_false]
      exact ih _ hrest

theorem count_gt_encode (pending : List (List UInt8))
    (hclean : ∀ r ∈ pending, Clean r) : (encode pending).count gt = pending.length := by
  induction pending with
  | nil => rfl
  | cons r rest ih =>
      have hr : r.count gt = 0 := List.count_eq_zero.mpr (hclean r (by simp)).2.1
      have hrest := ih (fun s hs => hclean s (by simp [hs]))
      simp [encode_cons, hr, hrest]

theorem count_gt_front (k : Nat) (pending : List (List UInt8))
    (hclean : ∀ r ∈ pending, Clean r) :
    (front k pending).count gt = 1 + pending.length := by
  have hspaces : (List.replicate k space).count gt = 0 :=
    List.count_eq_zero.mpr (by simp [List.mem_replicate]; intro _; decide)
  have hheader : rqHeader.count gt = 1 := by decide
  simp [front, hspaces, hheader, count_gt_encode pending hclean]

theorem charcount_segment (k : Nat) (pending : List (List UInt8)) (back : Mem)
    (hclean : ∀ r ∈ pending, Clean r) :
    charcount (segment k pending back) = some (1 + pending.length) := by
  have h := charcountFrom_append 0 (front k pending) back
    (lt_not_mem_front k pending fun r hr => (hclean r hr).1)
  simpa [charcount, segment, count_gt_front k pending hclean] using h

theorem charcount_image (k : Nat) (pending : List (List UInt8)) (z : Nat)
    (hclean : ∀ r ∈ pending, Clean r) :
    charcount (image k pending z) = some (1 + pending.length) :=
  charcount_segment k pending _ hclean

end Charcount

section Exit

private theorem exit_not_in_header (k : Nat) :
    ¬ exitReq <:+: List.replicate k space ++ rqHeader.take 15 := by
  intro h
  have hx : 'x'.toUInt8 ∈ List.replicate k space ++ rqHeader.take 15 :=
    h.subset (by decide)
  simp only [List.mem_append, List.mem_replicate] at hx
  rcases hx with ⟨_, hx⟩ | hx
  · exact absurd hx (by decide)
  · exact absurd hx (by decide)

theorem exit_in_encode_iff (pending : List (List UInt8)) :
    exitReq <:+: encode pending ↔ ∃ r ∈ pending, exitReq <:+: r := by
  induction pending with
  | nil => simp [encode, exitReq, text]
  | cons r rest ih =>
      rw [encode_cons, infix_append_cons_iff _ _ _ _ (by decide), ih]
      simp

theorem exit_in_front_iff (k : Nat) (pending : List (List UInt8)) :
    exitReq <:+: front k pending ↔ ∃ r ∈ pending, exitReq <:+: r := by
  have hfront : front k pending =
      (List.replicate k space ++ rqHeader.take 15) ++ gt :: encode pending := by
    rw [front]
    nth_rewrite 1 [rqHeader_eq]
    simp
  rw [hfront, infix_append_cons_iff _ _ _ _ (by decide), exit_in_encode_iff]
  simp [exit_not_in_header k]

/-- The string `strstr` sees goes on behind the end marker up to the first zero. -/
theorem cstring_segment (k : Nat) (pending : List (List UInt8)) {back : Mem} {w : List UInt8}
    (hclean : ∀ r ∈ pending, Clean r) (hback : cstring back = some w) :
    cstring (segment k pending back) = some (front k pending ++ lt :: w) := by
  have hzero : (0 : UInt8) ∉ front k pending ++ [lt] := by
    simp only [List.mem_append, List.mem_singleton, not_or]
    exact ⟨zero_not_mem_front k pending hclean, by decide⟩
  simpa [segment] using cstring_prepend hzero hback

theorem cstring_zeros {z : Nat} (hz : 0 < z) : cstring (List.replicate z 0) = some [] := by
  obtain ⟨n, rfl⟩ : ∃ n, z = n + 1 := ⟨z - 1, by omega⟩
  simp [List.replicate_succ, cstring]

/-- The same when a zero follows the end marker. -/
theorem cstring_image (k : Nat) (pending : List (List UInt8)) (z : Nat)
    (hclean : ∀ r ∈ pending, Clean r) (hz : 0 < z) :
    cstring (image k pending z) = some (front k pending ++ [lt]) :=
  cstring_segment k pending hclean (cstring_zeros hz)

/-- The exit test looks at the pending requests and at what is left behind the
end marker. -/
theorem noExit_segment (k : Nat) (pending : List (List UInt8)) {back : Mem} {w : List UInt8}
    (hclean : ∀ r ∈ pending, Clean r) (hback : cstring back = some w) :
    noExit (segment k pending back) =
      some (decide (¬ ((∃ r ∈ pending, exitReq <:+: r) ∨ exitReq <:+: w))) := by
  rw [noExit, cstring_segment k pending hclean hback, Option.map_some, Option.some_inj,
    Bool.eq_iff_iff, decide_eq_true_eq, Option.isNone_iff_eq_none,
    ← Option.not_isSome_iff_eq_none, strstr_isSome_iff,
    infix_append_cons_iff _ _ _ _ (by decide), exit_in_front_iff]

theorem exit_in_string_iff (k : Nat) (pending : List (List UInt8)) :
    exitReq <:+: front k pending ++ [lt] ↔ ∃ r ∈ pending, exitReq <:+: r := by
  rw [infix_append_cons_iff _ _ _ _ (by decide), exit_in_front_iff]
  simp [exitReq, text]

theorem noExit_image (k : Nat) (pending : List (List UInt8)) (z : Nat)
    (hclean : ∀ r ∈ pending, Clean r) (hz : 0 < z) :
    ∃ b, noExit (image k pending z) = some b ∧
      (b = false ↔ ∃ r ∈ pending, exitReq <:+: r) := by
  refine ⟨_, by rw [noExit, cstring_image k pending z hclean hz]; rfl, ?_⟩
  rw [← exit_in_string_iff k pending, ← strstr_isSome_iff]
  simp [Option.isSome_iff_ne_none]

end Exit

section Init

/-- The segment size, with the eighteen bytes `init_shm` writes set apart. -/
theorem rqSIZE_eq : ∃ n, rqSIZE = n + 18 := ⟨1048558, by decide⟩

/-- `init_shm` on any segment: an empty queue with the old bytes behind its end
marker, but for the last one. -/
theorem initShm_segment {shm : Mem} (hlength : shm.length = rqSIZE) :
    initShm shm = some ⟨segment 0 [] ((shm.drop 17).dropLast ++ [0]), 0⟩ := by
  have h16 : rqHeader.length = 16 := by decide
  obtain ⟨n, hn⟩ := rqSIZE_eq
  obtain ⟨b, tail, htail⟩ : ∃ b tail, shm.drop 16 = b :: tail :=
    List.exists_cons_of_ne_nil (by rw [Ne, List.drop_eq_nil_iff]; omega)
  have hdrop : shm.drop 17 = tail := by
    rw [show 17 = 16 + 1 from rfl, ← List.drop_drop, htail]
    rfl
  obtain ⟨rest, last, rfl⟩ : ∃ rest last, tail = rest ++ [last] := by
    rcases List.eq_nil_or_concat tail with rfl | ⟨rest, last, rfl⟩
    · rw [List.drop_eq_nil_iff] at hdrop
      omega
    · exact ⟨rest, last, by simp⟩
  have hsplit : shm = shm.take 16 ++ b :: (rest ++ [last]) := by
    rw [← htail, List.take_append_drop]
  have htake : (shm.take 16).length = rqHeader.length := by
    rw [List.length_take]
    omega
  have hend : (rqHeader ++ lt :: rest).length = rqSIZE - 1 := by
    rw [hsplit] at hlength
    simp only [List.length_append, List.length_cons, List.length_nil] at hlength ⊢
    omega
  have hheader := storeAll_append [] (shm.take 16) rqHeader (b :: (rest ++ [last])) htake
  have hmark := store_append rqHeader (rest ++ [last]) b lt
  have hlast := store_append (rqHeader ++ lt :: rest) [] last 0
  rw [hend] at hlast
  simp only [List.nil_append, List.length_nil, List.append_assoc, List.cons_append]
    at hheader hmark hlast
  rw [← hsplit] at hheader
  rw [hdrop, List.dropLast_concat, initShm]
  simp only [Option.bind_eq_bind, hheader, Option.bind_some, hmark, hlast]
  rfl

/-- A zero-filled segment becomes an empty queue with its header at the start. -/
theorem initShm_zeros :
    initShm (List.replicate rqSIZE 0) = some ⟨image 0 [] (rqSIZE - 17), 0⟩ := by
  obtain ⟨n, hn⟩ := rqSIZE_eq
  have hback : ((List.replicate rqSIZE (0 : UInt8)).drop 17).dropLast ++ [0] =
      List.replicate (rqSIZE - 17) 0 := by
    rw [List.drop_replicate, hn, show n + 18 - 17 = n + 1 by omega, List.dropLast_replicate,
      Nat.add_sub_cancel, ← List.replicate_succ']
  rw [initShm_segment List.length_replicate, hback, image_eq_segment]

end Init

section Add

/-- A separator stands right in front of the end marker. -/
theorem front_last (k : Nat) (pending : List (List UInt8)) :
    ∃ init, front k pending = init ++ [gt] := by
  rcases List.eq_nil_or_concat pending with rfl | ⟨init, r, rfl⟩
  · refine ⟨List.replicate k space ++ rqHeader.take 15, ?_⟩
    rw [front]
    nth_rewrite 1 [rqHeader_eq]
    simp [encode]
  · exact ⟨List.replicate k space ++ rqHeader ++ (encode init ++ r), by
      simp [front, encode_concat]⟩

/-- The client finds the separator right in front of the end marker. -/
theorem addReq_scans (k : Nat) (pending : List (List UInt8)) (back : List UInt8)
    (hmarks : ∀ r ∈ pending, lt ∉ r) :
    scanTo lt (front k pending ++ lt :: back) = some (front k pending).length ∧
      ∃ e, scanBack gt (front k pending ++ lt :: back) (front k pending).length = some e ∧
        e + 1 = (front k pending).length := by
  obtain ⟨init, hinit⟩ := front_last k pending
  refine ⟨scanTo_append lt _ back (lt_not_mem_front k pending hmarks),
    init.length, ?_, by simp [hinit]⟩
  have hlen : (front k pending).length = init.length + 1 := by simp [hinit]
  rw [hlen, scanBack_step, scanBack_hit]
  · simp [hinit]
  · simp [hinit]
    decide

/-- What `AddReq` does once it has found its place: the request with its two
markers goes over as many bytes, if there are as many. -/
theorem addReq_write {head tail r : List UInt8} {s e : Nat}
    (hscan : scanTo lt (head ++ tail) = some s)
    (hback : scanBack gt (head ++ tail) s = some e) (hplace : e + 1 = head.length) :
    addReq (head ++ tail) r =
      if r.length + 2 ≤ tail.length then some (head ++ (r ++ gt :: lt :: tail.drop (r.length + 2)))
      else none := by
  split
  case isTrue hfit =>
    -- the copy overwrites one byte more than the request has
    obtain ⟨b, rest, hrest⟩ : ∃ b rest, tail.drop (r.length + 1) = b :: rest :=
      List.exists_cons_of_ne_nil (by rw [Ne, List.drop_eq_nil_iff]; omega)
    have hsplit : tail = tail.take (r.length + 1) ++ b :: rest := by
      rw [← hrest, List.take_append_drop]
    have htake : (tail.take (r.length + 1)).length = (r ++ [0]).length := by
      rw [List.length_take, List.length_append, List.length_singleton]
      omega
    have hdrop : tail.drop (r.length + 2) = rest := by
      rw [show r.length + 2 = r.length + 1 + 1 from rfl, ← List.drop_drop, hrest]
      rfl
    have hcopy := storeAll_append head (tail.take (r.length + 1)) (r ++ [0]) (b :: rest) htake
    have hsep := store_append (head ++ r) (b :: rest) 0 gt
    have hmark := store_append (head ++ r ++ [gt]) rest b lt
    rw [List.append_assoc, ← hsplit] at hcopy
    simp only [List.append_assoc, List.cons_append, List.nil_append, List.length_append,
      List.length_cons, List.length_nil, Nat.zero_add, ← Nat.add_assoc] at hcopy hsep hmark
    rw [addReq, hdrop]
    simp only [Option.bind_eq_bind, Option.bind_some, hscan, hback, hplace, hcopy, hsep, hmark]
  case isFalse hlong =>
    rw [Option.eq_none_iff_forall_not_mem]
    intro last hlast
    simp only [addReq, Option.bind_eq_bind, hscan, hback, hplace, Option.bind_some,
      Option.mem_def, Option.bind_eq_some_iff] at hlast
    obtain ⟨copied, hcopy, ended, hsep, hmark⟩ := hlast
    -- the end marker would be the byte behind the last one
    have hcopied := storeAll_length hcopy
    have hended := store_length hsep
    have hlast := (store_length hmark).1
    rw [List.length_append] at hcopied
    omega

/-- Appending a request of any content that fits, over whatever stands there. -/
theorem addReq_segment (k : Nat) (pending : List (List UInt8)) (back : Mem) (r : List UInt8)
    (hmarks : ∀ s ∈ pending, lt ∉ s) (hfit : r.length + 1 ≤ back.length) :
    addReq (segment k pending back) r =
      some (segment k (pending ++ [r]) (back.drop (r.length + 1))) := by
  obtain ⟨hscan, e, hback, hlen⟩ := addReq_scans k pending back hmarks
  rw [segment, addReq_write hscan hback hlen, if_pos (by simpa using hfit)]
  simp [segment, front, encode_concat]

theorem addReq_image (k : Nat) (pending : List (List UInt8)) (z : Nat) (r : List UInt8)
    (hclean : ∀ s ∈ pending, Clean s) (hfit : r.length + 1 ≤ z) :
    addReq (image k pending z) r =
      some (image k (pending ++ [r]) (z - (r.length + 1))) := by
  rw [image_eq_segment, addReq_segment k pending _ r (fun s hs => (hclean s hs).1)
    (by simpa using hfit), List.drop_replicate, image_eq_segment]

/-- `AddReq` on any bytes writes in front of the first end marker or over it, and
what it does not write stays. -/
theorem addReq_place {m next : Mem} {r : List UInt8} {e : Nat} (hmark : scanTo lt m = some e)
    (h : addReq m r = some next) :
    ∃ head tail, m = head ++ tail ∧ head.length ≤ e ∧ r.length + 2 ≤ tail.length ∧
      next = head ++ (r ++ gt :: lt :: tail.drop (r.length + 2)) := by
  obtain ⟨g, hback⟩ : ∃ g, scanBack gt m e = some g := by
    simp only [addReq, hmark, Option.bind_eq_bind, Option.bind_some,
      Option.bind_eq_some_iff] at h
    obtain ⟨g, hg, -⟩ := h
    exact ⟨g, hg⟩
  obtain ⟨hle, hgt⟩ := scanBack_le hback
  have hlt := scanTo_getElem hmark
  have hne : g ≠ e := by
    rintro rfl
    exact absurd (hgt.symm.trans hlt) (by decide)
  have hin := (List.getElem?_eq_some_iff.mp hlt).1
  have hlength : g + 1 = (m.take (g + 1)).length := by
    rw [List.length_take]
    omega
  have hsplit := List.take_append_drop (g + 1) m
  have hwrite := addReq_write (r := r) (hsplit.symm ▸ hmark) (hsplit.symm ▸ hback) hlength
  rw [hsplit, h] at hwrite
  split at hwrite
  case isTrue hfit =>
    refine ⟨m.take (g + 1), m.drop (g + 1), hsplit.symm, ?_, hfit, Option.some.inj hwrite⟩
    omega
  case isFalse => cases hwrite

/-- The first end marker moves on by the request and its separator at most, and
stays inside a request that holds one. -/
theorem addReq_mark {m next : Mem} {r : List UInt8} {e : Nat} (hmark : scanTo lt m = some e)
    (h : addReq m r = some next) :
    (∀ i, e + weight [r] < i → next[i]? = m[i]?) ∧
      ∃ e', scanTo lt next = some e' ∧ e' ≤ e + weight [r] ∧
        (lt ∈ r → e' + 1 < e + weight [r]) := by
  obtain ⟨head, tail, rfl, hhead, hfit, rfl⟩ := addReq_place hmark h
  have hweight : weight [r] = r.length + 1 := by simp [weight]
  constructor
  · intro i hi
    rw [List.getElem?_append_right (by omega), List.getElem?_append_right (by omega),
      List.getElem?_append_right (by omega)]
    obtain ⟨j, hj⟩ : ∃ j, i - head.length - r.length = j + 2 :=
      ⟨_, (Nat.sub_add_cancel (by omega)).symm⟩
    rw [hj, List.getElem?_cons_succ, List.getElem?_cons_succ, List.getElem?_drop]
    congr 1
    omega
  · have hend : (head ++ (r ++ gt :: lt :: tail.drop (r.length + 2)))[
        head.length + (r.length + 1)]? = some lt := by
      rw [List.getElem?_append_right (by omega), List.getElem?_append_right (by omega)]
      simp
    obtain ⟨e', hscan, hle⟩ := scanTo_le hend
    refine ⟨e', hscan, by omega, ?_⟩
    intro hmem
    obtain ⟨i, hi⟩ := List.getElem?_of_mem hmem
    have hin := (List.getElem?_eq_some_iff.mp hi).1
    have hinside : (head ++ (r ++ gt :: lt :: tail.drop (r.length + 2)))[head.length + i]? =
        some lt := by
      rw [List.getElem?_append_right (by omega), List.getElem?_append_left (by omega)]
      simpa using hi
    obtain ⟨e'', hscan', hle'⟩ := scanTo_le hinside
    rw [hscan, Option.some.injEq] at hscan'
    omega

/-- A request that does not fit leaves the segment. -/
theorem addReq_segment_eq_none (k : Nat) (pending : List (List UInt8)) (back : Mem)
    (r : List UInt8) (hclean : ∀ s ∈ pending, Clean s) (hlong : back.length < r.length + 1) :
    addReq (segment k pending back) r = none := by
  obtain ⟨hscan, e, hback, hlen⟩ := addReq_scans k pending back fun s hs => (hclean s hs).1
  rw [segment, addReq_write hscan hback hlen, if_neg]
  rw [List.length_cons]
  omega

end Add

section Dequeue

/-- The copy loop moves the bytes in front of the separator into the block
and leaves the rest of the block as `malloc` returned it. -/
theorem copyOut_append (str : Mem) (l : Nat) (r rest : List UInt8) (hgt : gt ∉ r)
    (hfit : l + r.length ≤ str.length) :
    copyOut str l (r ++ gt :: rest) =
      some (str.take l ++ r ++ str.drop (l + r.length), l + r.length) := by
  induction r generalizing str l with
  | nil => simp [copyOut]
  | cons b r ih =>
      have hb : b ≠ gt := fun heq => hgt (by simp [heq])
      have hrest : gt ∉ r := fun hmem => hgt (by simp [hmem])
      have hl : l < str.length := by simp at hfit; omega
      have hnext := ih (str.set l b) (l + 1) hrest (by simp at hfit ⊢; omega)
      simp only [List.cons_append, copyOut, hb, if_false, store_eq_some str l b hl,
        Option.bind_eq_bind, Option.bind_some, hnext]
      have htake : (str.set l b).take (l + 1) = str.take l ++ [b] := by
        rw [List.take_add_one, List.take_set_of_le (Nat.le_refl l)]
        simp [hl]
      have hdrop : (str.set l b).drop (l + 1 + r.length) =
          str.drop (l + 1 + r.length) := List.drop_set_of_lt (by omega)
      rw [htake, hdrop]
      simp
      omega

/-- The backward loop leaves spaces and then the header in front of the byte
where it started. -/
theorem rewriteHeader_append (n r : Nat) (head back : List UInt8)
    (hlen : head.length = n) (hr : r ≤ n) (hmax : r ≤ rqHeader.length) :
    rewriteHeader n r (head ++ back) =
      some (List.replicate (n - r) space ++ rqHeader.take r ++ back) := by
  induction n generalizing r head back with
  | zero =>
      have hnil : head = [] := List.eq_nil_of_length_eq_zero hlen
      have hzero : r = 0 := by omega
      simp [rewriteHeader, hnil, hzero]
  | succ n ih =>
      obtain ⟨init, b, rfl⟩ : ∃ init b, head = init ++ [b] := by
        rcases List.eq_nil_or_concat head with rfl | ⟨init, b, rfl⟩
        · simp at hlen
        · exact ⟨init, b, by simp⟩
      have hinit : init.length = n := by simpa using hlen
      have hstore (v : UInt8) : store (init ++ [b] ++ back) n v =
          some (init ++ v :: back) := by
        simpa [hinit] using store_append init back b v
      simp only [rewriteHeader, hstore, Option.bind_eq_bind, Option.bind_some]
      by_cases hpos : 0 < r
      · rw [if_pos hpos, ih (r - 1) init _ hinit (by omega) (by omega)]
        obtain ⟨q, rfl⟩ : ∃ q, r = q + 1 := ⟨r - 1, by omega⟩
        have hq : q < rqHeader.length := by omega
        have htake : rqHeader.take (q + 1) = rqHeader.take q ++ [rqHeader.getD q 0] := by
          rw [List.take_add_one, List.getD_eq_getElem?_getD,
            List.getElem?_eq_getElem hq]
          rfl
        rw [htake]
        simp
      · have hzero : r = 0 := by omega
        subst hzero
        rw [if_neg hpos, ih 0 init _ hinit (by omega) (by omega)]
        simp [List.replicate_succ']

/-- The first separator is the last byte of the header. -/
theorem header_first (k : Nat) :
    ∃ lead, lead.length = k + 15 ∧ gt ∉ lead ∧
      List.replicate k space ++ rqHeader = lead ++ [gt] := by
  have h16 : rqHeader.length = 16 := by decide
  refine ⟨List.replicate k space ++ rqHeader.take 15, by simp [h16], ?_, ?_⟩
  · simp only [List.mem_append, List.mem_replicate, not_or]
    exact ⟨fun h => absurd h.2 (by decide), by decide⟩
  · nth_rewrite 1 [rqHeader_eq]
    simp

/-- The loops of `dequeueItem` on any bytes behind the header: those in front of
the second separator go to the block, and the header moves right over them. -/
theorem dequeueLoops_header (block : Mem) (k : Nat) (r back : List UInt8) (hgt : gt ∉ r)
    (hfit : r.length ≤ block.length) :
    dequeueLoops block (List.replicate k space ++ rqHeader ++ (r ++ gt :: back)) =
      some (r ++ block.drop r.length, r.length,
        List.replicate (k + (r.length + 1)) space ++ rqHeader ++ back) := by
  have h16 : rqHeader.length = 16 := by decide
  obtain ⟨lead, hleadlen, hlead, hheader⟩ := header_first k
  have hbytes : List.replicate k space ++ rqHeader ++ (r ++ gt :: back) =
      lead ++ gt :: (r ++ gt :: back) := by
    rw [hheader]
    simp
  have hscan := scanTo_append gt lead (r ++ gt :: back) hlead
  have hdrop : (lead ++ gt :: (r ++ gt :: back)).drop (k + 15 + 1) = r ++ gt :: back := by
    rw [← hleadlen]
    simp
  have hcopy := copyOut_append block 0 r back hgt (by omega)
  have hrewrite := rewriteHeader_append (k + 15 + 1 + r.length + 1) rqHeader.length
    (lead ++ gt :: (r ++ [gt])) back (by simp [hleadlen]; omega) (by omega) (Nat.le_refl _)
  have hk : k + 15 + 1 + r.length + 1 - rqHeader.length = k + (r.length + 1) := by omega
  have hassoc : lead ++ gt :: (r ++ [gt]) ++ back = lead ++ gt :: (r ++ gt :: back) := by
    simp
  rw [hassoc, hk, List.take_length] at hrewrite
  simp only [List.take_zero, List.nil_append, Nat.zero_add] at hcopy
  rw [hbytes]
  simp only [dequeueLoops, Option.bind_eq_bind, hscan, hleadlen, Option.bind_some, hdrop,
    hcopy, hrewrite]
  rfl

/-- The oldest of the pending requests is what stands in front of the second
separator. -/
theorem dequeueLoops_segment (block : Mem) (k : Nat) (r : List UInt8)
    (rest : List (List UInt8)) (behind : Mem) (hgt : gt ∉ r)
    (hfit : r.length ≤ block.length) :
    dequeueLoops block (segment k (r :: rest) behind) =
      some (r ++ block.drop r.length, r.length, segment (k + (r.length + 1)) rest behind) := by
  have hloops := dequeueLoops_header block k r (encode rest ++ lt :: behind) hgt hfit
  simpa [segment, front, encode_cons] using hloops

theorem dequeueLoops_image (block : Mem) (k : Nat) (r : List UInt8)
    (rest : List (List UInt8)) (z : Nat) (hgt : gt ∉ r)
    (hfit : r.length ≤ block.length) :
    dequeueLoops block (image k (r :: rest) z) =
      some (r ++ block.drop r.length, r.length, image (k + (r.length + 1)) rest z) :=
  dequeueLoops_segment block k r rest _ hgt hfit

/-- The header occurs nowhere before its own place: the spaces in front of it
hold no separator. -/
theorem strstr_header (n : Nat) (back : List UInt8) :
    strstr (List.replicate n space ++ rqHeader ++ back) rqHeader = some n := by
  have h16 : rqHeader.length = 16 := by decide
  have h := strstr_eq_some (List.replicate n space) rqHeader back ?_
  · simpa using h
  intro i hi hstart
  have hlead : gt ∉ List.replicate n space ++ rqHeader.take 15 := by
    simp only [List.mem_append, List.mem_replicate, not_or]
    exact ⟨fun h => absurd h.2 (by decide), by decide⟩
  -- The last byte of the needle would be a separator among the leading bytes.
  have hbyte : (List.replicate n space ++ rqHeader ++ back)[i + 15]? = some gt := by
    obtain ⟨t, ht⟩ := hstart
    have hget : (rqHeader ++ t)[15]? = some gt := by
      rw [List.getElem?_append_left (by decide)]
      decide
    rwa [ht, List.getElem?_drop] at hget
  have hsplit : List.replicate n space ++ rqHeader ++ back =
      (List.replicate n space ++ rqHeader.take 15) ++ gt :: back := by
    nth_rewrite 1 [rqHeader_eq]
    simp
  rw [hsplit, List.getElem?_append_left (by simp at hi; simp [h16]; omega)] at hbyte
  exact hlead (List.mem_of_getElem? hbyte)

theorem segment_drop (p n : Nat) (pending : List (List UInt8)) (back : Mem) :
    (segment (p + n) pending back).drop p = segment n pending back := by
  simp [segment, front, List.drop_append, List.drop_replicate]

theorem moveRQptr_segment (k p : Nat) (pending : List (List UInt8)) {back : Mem}
    {w : List UInt8} (hclean : ∀ r ∈ pending, Clean r) (hback : cstring back = some w)
    (hp : p ≤ k) : moveRQptr ⟨segment k pending back, p⟩ = some ⟨segment k pending back, k⟩ := by
  obtain ⟨n, rfl⟩ : ∃ n, k = p + n := ⟨k - p, by omega⟩
  have hstring := cstring_segment n pending hclean hback
  have hstrstr := strstr_header n (encode pending ++ lt :: w)
  simp only [moveRQptr, segment_drop, hstring, Option.bind_eq_bind, Option.bind_some]
  simp only [front, List.append_assoc] at hstrstr ⊢
  rw [hstrstr]
  rfl

theorem printSHM_segment (k p : Nat) (pending : List (List UInt8)) {back : Mem}
    {w : List UInt8} (hclean : ∀ r ∈ pending, Clean r) (hback : cstring back = some w)
    (hp : p ≤ k) : printSHM ⟨segment k pending back, p⟩ = some () := by
  obtain ⟨n, rfl⟩ : ∃ n, k = p + n := ⟨k - p, by omega⟩
  simp [printSHM, segment_drop, cstring_segment n pending hclean hback]

/-- The oldest request comes out, and `RQptr` follows the header. -/
theorem dequeueShm_segment (block : Mem) (k p : Nat) (r : List UInt8)
    (rest : List (List UInt8)) {back : Mem} {w : List UInt8}
    (hclean : ∀ s ∈ r :: rest, Clean s) (hfit : r.length ≤ block.length)
    (hback : cstring back = some w) (hp : p ≤ k) :
    dequeueShm block ⟨segment k (r :: rest) back, p⟩ =
      some (r, ⟨segment (k + (r.length + 1)) rest back, k + (r.length + 1)⟩) := by
  have hrest : ∀ s ∈ rest, Clean s := fun s hs => hclean s (by simp [hs])
  have hloops := dequeueLoops_segment block k r rest back (hclean r (by simp)).2.1 hfit
  have hmove := moveRQptr_segment (k + (r.length + 1)) p rest hrest hback (by omega)
  have hprint := printSHM_segment (k + (r.length + 1)) (k + (r.length + 1)) rest hrest hback
    (Nat.le_refl _)
  simp [dequeueShm, hloops, hmove, hprint]

theorem dequeueShm_image (block : Mem) (k p : Nat) (r : List UInt8)
    (rest : List (List UInt8)) (z : Nat) (hclean : ∀ s ∈ r :: rest, Clean s)
    (hfit : r.length ≤ block.length) (hz : 0 < z) (hp : p ≤ k) :
    dequeueShm block ⟨image k (r :: rest) z, p⟩ =
      some (r, ⟨image (k + (r.length + 1)) rest z, k + (r.length + 1)⟩) :=
  dequeueShm_segment block k p r rest hclean hfit (cstring_zeros hz) hp

/-- `dequeueItem` is its work on the segment followed by its private work on
the block. -/
theorem dequeueItem_eq (block : Mem) (server : Server) :
    dequeueItem block server = do
      let (str, l, _) ← dequeueLoops block server.shm
      let str ← realloc str (l + 1)
      let item ← splitItem str
      let (_, server) ← dequeueShm block server
      return (item, server) := by
  cases hloops : dequeueLoops block server.shm with
  | none => simp [dequeueItem, hloops]
  | some result =>
      obtain ⟨str, l, shm⟩ := result
      simp only [dequeueItem, dequeueShm, hloops, Option.bind_eq_bind, Option.bind_some]
      cases realloc str (l + 1) with
      | none => rfl
      | some str' =>
          simp only [Option.bind_some]
          cases moveRQptr { server with shm } with
          | none => cases splitItem str' <;> rfl
          | some moved =>
              cases splitItem str' with
              | none => rfl
              | some item => cases hprint : printSHM moved <;> simp [hprint]

end Dequeue

end Cse420.Queue
