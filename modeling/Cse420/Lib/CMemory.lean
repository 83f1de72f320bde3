import Mathlib

/-!
Byte memory as a C program sees it: a block is the list of its bytes, a
pointer into it is an offset, and an access outside the block has no result.
Strings are the bytes before a terminating zero. The scans below are the
character loops of C code that looks for one byte at a time; `none` means that
the loop left the block before it found the byte.
-/

namespace Cse420.CMemory

abbrev Mem := List UInt8

/-- The bytes of an ASCII literal, without the terminator. -/
def text (s : String) : List UInt8 := s.toList.map Char.toUInt8

/-- One byte store. A store outside the block has no result. -/
def store (m : Mem) (i : Nat) (b : UInt8) : Option Mem :=
  if i < m.length then some (m.set i b) else none

/-- `memcpy`: consecutive byte stores in ascending address order. -/
def storeAll (m : Mem) (i : Nat) : List UInt8 → Option Mem
  | [] => some m
  | b :: rest => do
      let next ← store m i b
      storeAll next (i + 1) rest

/-- The stores of `memcpy`, one after the other. -/
def copyStores (i : Nat) : List UInt8 → List (Nat × UInt8)
  | [] => []
  | b :: rest => (i, b) :: copyStores (i + 1) rest

/-- A sequence of single byte stores. -/
def storeEach (m : Mem) : List (Nat × UInt8) → Option Mem
  | [] => some m
  | w :: rest => do
      let next ← store m w.1 w.2
      storeEach next rest

/-- `for (s = p; *s != c; s++) ;` over the bytes from `p` on: how far the loop
runs. -/
def scanTo (c : UInt8) : Mem → Option Nat
  | [] => none
  | b :: rest => if b = c then some 0 else (scanTo c rest).map (· + 1)

/-- `while (*s != c) s--;` from offset `s`. Leaving the block at its lower end
has no result either. -/
def scanBack (c : UInt8) (m : Mem) : Nat → Option Nat
  | 0 => if m[0]? = some c then some 0 else none
  | s + 1 => if m[s + 1]? = some c then some (s + 1) else scanBack c m s

/-- The string that starts at the first byte of the block. -/
def cstring : Mem → Option (List UInt8)
  | [] => none
  | b :: rest => if b = 0 then some [] else (cstring rest).map (b :: ·)

/-- `strstr` on string contents: offset of the first occurrence. -/
def strstr (hay needle : List UInt8) : Option Nat :=
  match hay with
  | [] => if needle = [] then some 0 else none
  | b :: rest =>
      if needle.isPrefixOf (b :: rest) then some 0
      else (strstr rest needle).map (· + 1)

/-- The blocks of `malloc`. C promises `n` bytes for `malloc(n)`; an allocator may
round up. -/
structure Malloc where
  usable : Nat → Nat
  enough : ∀ n, n ≤ usable n

/-- The block that is asked for with the length of a string has a byte for its
terminator. -/
def Malloc.Roomy (malloc : Malloc) (s : List UInt8) : Prop :=
  s.length < malloc.usable s.length

instance (malloc : Malloc) (s : List UInt8) : Decidable (malloc.Roomy s) :=
  inferInstanceAs (Decidable (s.length < malloc.usable s.length))

/-- `sprintf` of a string into a block of `n` bytes. The terminator needs its byte
too. -/
def sprintf (n : Nat) (s : List UInt8) : Option (List UInt8) :=
  if s.length < n then some s else none

theorem sprintf_malloc (malloc : Malloc) (s : List UInt8) :
    sprintf (malloc.usable s.length) s = if malloc.Roomy s then some s else none := rfl

section Stores

theorem store_eq_some (m : Mem) (i : Nat) (b : UInt8) (h : i < m.length) :
    store m i b = some (m.set i b) := by
  simp [store, h]

theorem store_length {m next : Mem} {i : Nat} {b : UInt8} (h : store m i b = some next) :
    i < m.length ∧ next.length = m.length := by
  simp only [store, Option.ite_none_right_eq_some, Option.some.injEq] at h
  obtain ⟨hi, rfl⟩ := h
  exact ⟨hi, List.length_set⟩

theorem storeAll_length {m next : Mem} {i : Nat} {bytes : List UInt8}
    (h : storeAll m i bytes = some next) : next.length = m.length := by
  induction bytes generalizing m i with
  | nil =>
      cases h
      rfl
  | cons b rest ih =>
      obtain ⟨mid, hmid, hrest⟩ := Option.bind_eq_some_iff.mp h
      exact (ih hrest).trans (store_length hmid).2

/-- A store at the boundary of two parts replaces the first byte of the
second. -/
theorem store_append (front back : List UInt8) (old b : UInt8) :
    store (front ++ old :: back) front.length b = some (front ++ b :: back) := by
  rw [store_eq_some _ _ _ (by simp)]
  simp

/-- `memcpy` over as many bytes replaces exactly them. -/
theorem storeAll_append (front old new back : List UInt8)
    (hlen : old.length = new.length) :
    storeAll (front ++ old ++ back) front.length new =
      some (front ++ new ++ back) := by
  induction new generalizing front old with
  | nil =>
      have hold : old = [] := List.eq_nil_of_length_eq_zero (by simpa using hlen)
      simp [storeAll, hold]
  | cons b rest ih =>
      obtain ⟨a, old', rfl⟩ : ∃ a old', old = a :: old' := by
        cases old with
        | nil => simp at hlen
        | cons a old' => exact ⟨a, old', rfl⟩
      have hnext := ih (front ++ [b]) old' (by simpa using hlen)
      have hstore := store_append front (old' ++ back) a b
      simp only [List.append_assoc, List.cons_append, List.nil_append,
        List.length_append, List.length_cons, List.length_nil, Nat.zero_add]
        at hnext hstore ⊢
      simp only [storeAll, hstore, Option.bind_eq_bind, Option.bind_some, hnext]

theorem storeAll_eq_storeEach (m : Mem) (i : Nat) (bytes : List UInt8) :
    storeAll m i bytes = storeEach m (copyStores i bytes) := by
  induction bytes generalizing m i with
  | nil => rfl
  | cons b rest ih =>
      simp only [storeAll, copyStores, storeEach]
      congr 1
      funext next
      exact ih next (i + 1)

theorem storeEach_append (m : Mem) (first second : List (Nat × UInt8)) :
    storeEach m (first ++ second) = (storeEach m first).bind (storeEach · second) := by
  induction first generalizing m with
  | nil => rfl
  | cons w rest ih =>
      simp only [List.cons_append, storeEach, Option.bind_eq_bind, Option.bind_assoc]
      congr 1
      funext next
      exact ih next

/-- Stores into the first part leave the second alone. -/
theorem store_left (first second : Mem) (i : Nat) (b : UInt8) (h : i < first.length) :
    store (first ++ second) i b = some (first.set i b ++ second) := by
  rw [store_eq_some _ _ _ (by simp; omega), List.set_append_left _ _ h]

/-- Stores behind the first part leave it alone. -/
theorem store_right (first second : Mem) (i : Nat) (b : UInt8) :
    store (first ++ second) (first.length + i) b =
      (store second i b).map (first ++ ·) := by
  by_cases h : i < second.length
  · rw [store_eq_some _ _ _ (by simpa using h), store_eq_some _ _ _ h,
      List.set_append_right _ _ (by omega)]
    simp
  · simp [store, h]

end Stores

section Scans

theorem scanTo_append (c : UInt8) (front back : List UInt8) (h : c ∉ front) :
    scanTo c (front ++ c :: back) = some front.length := by
  induction front with
  | nil => simp [scanTo]
  | cons b rest ih =>
      have hb : b ≠ c := fun heq => h (by simp [heq])
      have hrest : c ∉ rest := fun hmem => h (by simp [hmem])
      simp [scanTo, hb, ih hrest]

theorem scanBack_hit (c : UInt8) (m : Mem) (s : Nat) (h : m[s]? = some c) :
    scanBack c m s = some s := by
  cases s with
  | zero => simp [scanBack, h]
  | succ s => simp [scanBack, h]

theorem scanBack_step (c : UInt8) (m : Mem) (s : Nat) (h : m[s + 1]? ≠ some c) :
    scanBack c m (s + 1) = scanBack c m s := by
  simp [scanBack, h]

/-- Going back over bytes other than `c` ends at the `c` in front of them. -/
theorem scanBack_append (c : UInt8) (front mid back : List UInt8) (h : c ∉ mid) (j : Nat)
    (hj : j ≤ mid.length) :
    scanBack c (front ++ c :: (mid ++ back)) (front.length + j) = some front.length := by
  induction j with
  | zero => exact scanBack_hit c _ _ (by simp)
  | succ j ih =>
      rw [← Nat.add_assoc, scanBack_step]
      · exact ih (by omega)
      intro hbyte
      rw [List.getElem?_append_right (by omega), show front.length + j + 1 - front.length = j + 1
        by omega, List.getElem?_cons_succ, List.getElem?_append_left (by omega)] at hbyte
      exact h (List.mem_of_getElem? hbyte)

theorem scanTo_le {c : UInt8} {m : Mem} {i : Nat} (h : m[i]? = some c) :
    ∃ e, scanTo c m = some e ∧ e ≤ i := by
  obtain ⟨head, back, rfl, hhead⟩ := List.eq_append_cons_of_mem (List.mem_of_getElem? h)
  refine ⟨head.length, scanTo_append c head back hhead, ?_⟩
  by_contra hlt
  rw [List.getElem?_append_left (by omega)] at h
  exact hhead (List.mem_of_getElem? h)

theorem scanBack_le {c : UInt8} {m : Mem} {s e : Nat} (h : scanBack c m s = some e) :
    e ≤ s ∧ m[e]? = some c := by
  induction s with
  | zero =>
      simp only [scanBack, Option.ite_none_right_eq_some, Option.some.injEq] at h
      obtain ⟨hbyte, rfl⟩ := h
      exact ⟨Nat.le_refl _, hbyte⟩
  | succ s ih =>
      by_cases hbyte : m[s + 1]? = some c
      · rw [scanBack_hit c m (s + 1) hbyte, Option.some.injEq] at h
        subst h
        exact ⟨Nat.le_refl _, hbyte⟩
      · rw [scanBack_step c m s hbyte] at h
        obtain ⟨hle, he⟩ := ih h
        exact ⟨by omega, he⟩

theorem scanTo_getElem {c : UInt8} {m : Mem} {e : Nat} (h : scanTo c m = some e) :
    m[e]? = some c := by
  induction m generalizing e with
  | nil => cases h
  | cons b rest ih =>
      by_cases hb : b = c
      · simp only [scanTo, hb, if_true, Option.some.injEq] at h
        rw [← h, hb]
        rfl
      · simp only [scanTo, hb, if_false] at h
        obtain ⟨e, hrest, rfl⟩ := Option.map_eq_some_iff.mp h
        exact ih hrest

end Scans

section Strings

/-- Bytes other than zero lengthen the string behind them. -/
theorem cstring_prepend {front back w : List UInt8} (h : 0 ∉ front)
    (hback : cstring back = some w) : cstring (front ++ back) = some (front ++ w) := by
  induction front with
  | nil => exact hback
  | cons b rest ih =>
      have hb : b ≠ 0 := fun heq => h (by simp [heq])
      have hrest : 0 ∉ rest := fun hmem => h (by simp [hmem])
      simp [cstring, hb, ih hrest]

theorem cstring_append (front back : List UInt8) (h : 0 ∉ front) :
    cstring (front ++ 0 :: back) = some front := by
  have hempty : cstring (0 :: back) = some [] := by simp [cstring]
  simpa using cstring_prepend h hempty

theorem cstring_isSome {m : Mem} (h : 0 ∈ m) : ∃ w, cstring m = some w := by
  obtain ⟨front, back, rfl, hfront⟩ := List.eq_append_cons_of_mem h
  exact ⟨front, cstring_append front back hfront⟩

/-- Without a zero byte there is no string. -/
theorem cstring_eq_none {m : Mem} (h : 0 ∉ m) : cstring m = none := by
  induction m with
  | nil => rfl
  | cons b rest ih =>
      have hb : b ≠ 0 := fun heq => h (by simp [heq])
      have hrest : 0 ∉ rest := fun hmem => h (by simp [hmem])
      simp [cstring, hb, ih hrest]

/-- `strstr` finds something exactly when the needle occurs. -/
theorem strstr_isSome_iff (hay needle : List UInt8) :
    (strstr hay needle).isSome ↔ needle <:+: hay := by
  induction hay with
  | nil => by_cases h : needle = [] <;> simp [strstr, h]
  | cons b rest ih =>
      rw [strstr, List.infix_cons_iff]
      by_cases h : needle.isPrefixOf (b :: rest)
      · simp [h, List.isPrefixOf_iff_prefix.mp h]
      · have hnot : ¬ needle <+: b :: rest :=
          fun hp => h (List.isPrefixOf_iff_prefix.mpr hp)
        simp [h, hnot, ih]

/-- The offset `strstr` returns is the first one where the needle occurs. -/
theorem strstr_eq_some (front needle back : List UInt8)
    (hfirst : ∀ i < front.length,
      ¬ needle <+: (front ++ needle ++ back).drop i) :
    strstr (front ++ needle ++ back) needle = some front.length := by
  induction front with
  | nil =>
      cases needle with
      | nil => cases back <;> simp [strstr]
      | cons a rest =>
          have hp : (a :: rest).isPrefixOf (a :: (rest ++ back)) = true :=
            List.isPrefixOf_iff_prefix.mpr ⟨back, by simp⟩
          simp [strstr, hp]
  | cons b rest ih =>
      have hhead : ¬ needle <+: b :: (rest ++ needle ++ back) := by
        simpa using hfirst 0 (by simp)
      have htail := ih (fun i hi => by simpa using hfirst (i + 1) (by simpa using hi))
      have hp : needle.isPrefixOf (b :: (rest ++ needle ++ back)) = false := by
        rw [← Bool.not_eq_true]
        exact fun h => hhead (List.isPrefixOf_iff_prefix.mp h)
      simp only [List.cons_append, strstr, hp, htail]
      simp

/-- An occurrence that avoids `c` lies on one side of it. -/
theorem infix_append_cons_iff (needle front back : List UInt8) (c : UInt8)
    (hc : c ∉ needle) :
    needle <:+: front ++ c :: back ↔ needle <:+: front ∨ needle <:+: back := by
  have hstart (l : List UInt8) (h : needle <+: l ++ c :: back) : needle <+: l := by
    have hlc : l ++ [c] <+: l ++ c :: back := ⟨back, by simp⟩
    rcases List.prefix_or_prefix_of_prefix h hlc with hn | hl
    · rcases List.prefix_concat_iff.mp hn with heq | hle
      · exact absurd (by simp [heq]) hc
      · exact hle
    · exact absurd (hl.subset (by simp)) hc
  constructor
  · intro h
    induction front with
    | nil =>
        rcases List.infix_cons_iff.mp h with hp | hi
        · exact Or.inl (hstart [] hp).isInfix
        · exact Or.inr hi
    | cons b rest ih =>
        rcases List.infix_cons_iff.mp h with hp | hi
        · exact Or.inl (hstart (b :: rest) hp).isInfix
        · exact (ih hi).imp_left List.infix_cons
  · rintro (h | h)
    · exact h.trans (List.prefix_append front _).isInfix
    · exact h.trans ⟨front ++ [c], [], by simp⟩

end Strings

end Cse420.CMemory
