import Cse420.Lib.Strtok

/-!
`tokenize` of `Virtual Memory/algo.c`, which reads the reference string. The array
is allocated by the number of commas and filled by the words that `strtok_r`
finds, and these are two different scans of the string.
-/

namespace Cse420.VirtualMemory

open CMemory Strtok

def comma : UInt8 := ','.toUInt8

/-- `isspace`. -/
def isspace (c : UInt8) : Bool := c = 32 || (9 ≤ c && c ≤ 13)

def isdigit (c : UInt8) : Bool := 48 ≤ c && c ≤ 57

/-- The digits at the start of a string. -/
def digits (str : List UInt8) : Int :=
  (str.takeWhile isdigit).foldl (fun n c => 10 * n + (c.toNat - 48)) 0

/-- `strtol(nptr, NULL, 10)` with its limits of 64 bits. -/
def strtol (nptr : List UInt8) : Int :=
  match nptr.dropWhile isspace with
  | [] => 0
  | c :: rest =>
      if c = '-'.toUInt8 then max (-2 ^ 63) (-digits rest)
      else if c = '+'.toUInt8 then min (2 ^ 63 - 1) (digits rest)
      else min (2 ^ 63 - 1) (digits (c :: rest))

/-- `atoi`, whose result is an `int`. -/
def atoi (nptr : List UInt8) : Int := (strtol nptr).bmod (2 ^ 32)

/-- The first loop of `tokenize`. -/
def arrLen (refstr : List UInt8) : Nat :=
  refstr.foldl (fun n c => if c = comma then n + 1 else n) 0 + 1

/-- The second loop of `tokenize`. A store behind the end of `refArr` has no
result, nor has a read outside of `buffer`. -/
def tokenLoop : Nat → Mem → Nat → List Int → Nat → Option (List Int)
  | 0, _, _, _, _ => none
  | fuel + 1, buffer, s, refArr, i => do
      let (buffer, word, ptr) ← strtokR (· = comma) buffer s
      match word with
      | none => some refArr
      | some word =>
          let word ← cstring (buffer.drop word)
          if i < refArr.length then
            tokenLoop fuel buffer ptr (refArr.set i (atoi word)) (i + 1)
          else none

/-- `tokenize`, with what its `buffer` holds at first. Every word takes a byte of
the string, so the string's length is fuel enough. -/
def tokenize (buffer : Mem) (refstr : List UInt8) : Option (List Int) := do
  let refArr := List.replicate (arrLen refstr) 0
  let buffer ← storeAll buffer 0 (refstr ++ [0])
  tokenLoop (refstr.length + 1) buffer 0 refArr 0

theorem arrLen_eq (refstr : List UInt8) : arrLen refstr = refstr.count comma + 1 := by
  have hloop : ∀ n, refstr.foldl (fun n c => if c = comma then n + 1 else n) n =
      n + refstr.count comma := by
    induction refstr with
    | nil =>
        intro n
        rfl
    | cons c rest ih =>
        intro n
        rw [List.foldl_cons, ih, List.count_cons]
        rcases eq_or_ne c comma with rfl | hne
        · simp
          omega
        · simp [hne]
  unfold arrLen
  rw [hloop, Nat.zero_add]

/-- The rest of the loop, once the words in front have their places. -/
theorem tokenLoop_spec (fuel : Nat) (front back : List UInt8) {rest : List UInt8}
    (hzero : 0 ∉ rest) (hfuel : rest.length < fuel) (stored : List Int) {room : Nat}
    (hroom : (words (· = comma) rest).length ≤ room) :
    tokenLoop fuel (front ++ (rest ++ 0 :: back)) front.length
        (stored ++ List.replicate room 0) stored.length =
      some (stored ++ ((words (· = comma) rest).map atoi ++
        List.replicate (room - (words (· = comma) rest).length) 0)) := by
  induction fuel generalizing front back rest stored room with
  | zero => omega
  | succ fuel ih =>
      rw [tokenLoop]
      rcases strtokR_spec (· = comma) (by decide) front back hzero with
        ⟨hwords, s, hcall⟩ | ⟨word, rest', front', back', start, hwords, hcall, hstring, hzero',
          hshorter⟩
      · rw [hcall, hwords]
        simp
      · rw [hwords, List.length_cons] at hroom
        obtain ⟨room, rfl⟩ : ∃ n, room = n + 1 := ⟨room - 1, by omega⟩
        have hin : stored.length < (stored ++ List.replicate (room + 1) (0 : Int)).length := by
          simp
        have hset : (stored ++ List.replicate (room + 1) (0 : Int)).set stored.length (atoi word) =
            stored ++ [atoi word] ++ List.replicate room 0 := by
          rw [List.replicate_succ]
          simp
        have hnext := ih front' back' hzero' (by omega) (stored ++ [atoi word])
          (Nat.le_of_succ_le_succ hroom)
        rw [List.length_append, List.length_singleton] at hnext
        rw [hcall]
        simp only [Option.bind_eq_bind, Option.bind_some, hstring, hin, if_true, hset, hnext]
        simp [hwords]

theorem fields_eq_words (refstr : List UInt8) :
    (refstr.splitOn comma).filter (!·.isEmpty) = words (· = comma) refstr := by
  rw [List.splitOn_eq_splitOnP]
  unfold words
  congr 2

/-- Whatever the buffer holds at first, no write leaves the array, which ends up
with the numbers of the fields that are not empty, and zeros behind them. -/
theorem tokenize_fields (buffer : Mem) (hbuffer : buffer.length = 1024) (refstr : List UInt8)
    (hstring : 0 ∉ refstr) (hshort : refstr.length < 1024) :
    let fields := (refstr.splitOn comma).filter (!·.isEmpty)
    fields.length ≤ refstr.count comma + 1 ∧
      tokenize buffer refstr =
        some (fields.map atoi ++ List.replicate (refstr.count comma + 1 - fields.length) 0) := by
  intro fields
  have hfields : fields = words (· = comma) refstr := fields_eq_words refstr
  have hroom : fields.length ≤ refstr.count comma + 1 := by
    rw [hfields, List.count_eq_countP]
    exact words_length_le (· = comma) refstr
  refine ⟨hroom, ?_⟩
  have hcopy : storeAll buffer 0 (refstr ++ [0]) =
      some (refstr ++ 0 :: buffer.drop (refstr.length + 1)) := by
    have hall := storeAll_append [] (buffer.take (refstr.length + 1)) (refstr ++ [0])
      (buffer.drop (refstr.length + 1)) (by simp; omega)
    simpa using hall
  have hloop := tokenLoop_spec (refstr.length + 1) [] (buffer.drop (refstr.length + 1)) hstring
    (Nat.lt_succ_self _) [] (hfields ▸ hroom)
  unfold tokenize
  rw [arrLen_eq, hcopy, hfields]
  exact hloop

/-- Leading, trailing and repeated commas; a sign, blanks and letters. -/
theorem tokenize_fields_six :
    tokenize (List.replicate 1024 7) (text ",1,,-12, 3x,") = some [1, -12, 3, 0, 0, 0] := by
  have hshort := (tokenize_fields (List.replicate 1024 7) List.length_replicate
    (text ",1,,-12, 3x,") (by decide) (by decide)).2
  rw [hshort]
  decide

end Cse420.VirtualMemory
