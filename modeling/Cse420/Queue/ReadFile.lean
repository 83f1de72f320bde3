import Cse420.Lister.Words
import Cse420.Queue.Request

/-!
`readfile` of the client, line by line. What the lines of a file ask for is
stated without the searches of `parseReq`, and compared with the strings that
`AddReq` is called with.
-/

namespace Cse420.Queue

open CMemory

/-- `while (fgets(buffer, 1024, file) != NULL)`: the strings passed to `AddReq`
one after the other, and the segment. Every read takes a byte, so the length of
the file is fuel enough. -/
def readLoop (malloc : Malloc) :
    Nat → List UInt8 → Mem → Mem → Option (List (List UInt8) × Mem)
  | _, [], _, shm => some ([], shm)
  | 0, _ :: _, _, _ => none
  | fuel + 1, c :: file, buffer, shm => do
      let read := Lister.fgets 1023 (c :: file)
      let buffer ← storeAll buffer 0 (read.1 ++ [0])
      let (buffer, request) ← readRequest malloc buffer
      let shm ← addReq shm request
      let (requests, shm) ← readLoop malloc fuel read.2 buffer shm
      return (request :: requests, shm)

/-- `readfile` with its return value. `buffer` is what the array on the stack
held before. -/
def readfile (malloc : Malloc) (fs : Lister.FileSystem) (filepath : List UInt8)
    (buffer shm : Mem) : Option (Int × List (List UInt8) × Mem) :=
  if (fs.opendir filepath).isSome then some (0, [], shm)
  else
    match fs.fopen filepath with
    | none => some (-1, [], shm)
    | some file => (readLoop malloc file.length file buffer shm).map fun done => (0, done)

/-- What a line asks for. The path runs from the first slash to the first space,
and there is no space in front of it; the keyword is what follows, without
spaces. -/
def asks (line : List UInt8) : Option (List UInt8) :=
  if line = exitReq then some exitReq
  else
    let pre := line.takeWhile (· ≠ slash)
    let behind := line.dropWhile (· ≠ slash)
    let path := behind.takeWhile (· ≠ space)
    let keyword := squeeze (behind.dropWhile (· ≠ space))
    if space ∉ pre ∧ path ≠ [] ∧ keyword ≠ [] then some (path ++ space :: keyword) else none

/-- What a file asks for. -/
def asked (file : List UInt8) : List (List UInt8) := (Lister.lines file).filterMap asks

/-- A line with a newline behind it that the client gets right. -/
def GoodLine (malloc : Malloc) (line : List UInt8) : Prop :=
  line = exitReq ∨
    (line.length ≤ 1022 ∧ ¬ exitReq <:+: line ∧ ∃ r ∈ asks line, malloc.Roomy r)

/-- A file whose lines the client gets right: every line that ends with a newline
is good, and behind the last newline there is nothing but perhaps an exit
command. -/
def Accepted (malloc : Malloc) (file : List UInt8) : Prop :=
  (∀ line ∈ (Lister.lines file).dropLast, GoodLine malloc line) ∧
    ∀ line ∈ (Lister.lines file).getLast?, line = [] ∨ line = exitReq

instance (malloc : Malloc) (line : List UInt8) : Decidable (GoodLine malloc line) :=
  inferInstanceAs (Decidable (line = exitReq ∨
    (line.length ≤ 1022 ∧ ¬ exitReq <:+: line ∧ ∃ r ∈ asks line, malloc.Roomy r)))

instance (malloc : Malloc) (file : List UInt8) : Decidable (Accepted malloc file) :=
  inferInstanceAs (Decidable ((∀ line ∈ (Lister.lines file).dropLast, GoodLine malloc line) ∧
    ∀ line ∈ (Lister.lines file).getLast?, line = [] ∨ line = exitReq))

/-- The client does with a file what it asks for: the strings appended are those
asked for, they stand in the queue behind what it held, and the server can split
every search request. -/
structure Handled (malloc : Malloc) (fs : Lister.FileSystem) (filepath file : List UInt8)
    (buffer : Mem) (k : Nat) (pending : List (List UInt8)) (back : Mem) : Prop where
  result : readfile malloc fs filepath buffer (segment k pending back) =
    some (0, asked file, segment k (pending ++ asked file) (back.drop (weight (asked file))))
  splits : ∀ r ∈ asked file, r = exitReq ∨ (splitItem (r ++ [0])).isSome

section Grammar

variable {line rest file r : List UInt8}

theorem dropWhile_head {c : UInt8} {s : List UInt8} (h : s.dropWhile (· ≠ c) ≠ []) :
    ∃ t, s.dropWhile (· ≠ c) = c :: t := by
  obtain ⟨b, t, hs⟩ := List.exists_cons_of_ne_nil h
  have hhead := List.head_dropWhile_not (fun b => decide (b ≠ c)) h
  simp only [hs, List.head_cons, decide_eq_false_iff_not, not_not] at hhead
  exact ⟨t, by rw [hs, hhead]⟩

theorem not_mem_takeWhile (c : UInt8) (s : List UInt8) : c ∉ s.takeWhile (· ≠ c) := by
  intro h
  simpa using List.mem_takeWhile_imp h

/-- The parts of a search request in its line. -/
theorem asks_search (h : asks line = some r) (hexit : line ≠ exitReq) :
    ∃ pre path tail, line = pre ++ path ++ space :: tail ∧ (slash ∉ pre ∧ space ∉ pre) ∧
      (path.head? = some slash ∧ space ∉ path) ∧ r = path ++ space :: squeeze tail := by
  unfold asks at h
  rw [if_neg hexit, Option.ite_none_right_eq_some, Option.some.injEq] at h
  obtain ⟨⟨hpre, hpath, hkeyword⟩, rfl⟩ := h
  have hline := List.takeWhile_append_dropWhile (p := fun b => decide (b ≠ slash)) (l := line)
  obtain ⟨path', hbehind⟩ := dropWhile_head (c := slash) (s := line) (by
    intro hnone
    rw [hnone] at hpath
    exact hpath rfl)
  have hsplit := List.takeWhile_append_dropWhile (p := fun b => decide (b ≠ space))
    (l := line.dropWhile (· ≠ slash))
  obtain ⟨tail, htail⟩ := dropWhile_head (c := space) (s := line.dropWhile (· ≠ slash)) (by
    intro hnone
    rw [hnone] at hkeyword
    exact hkeyword rfl)
  refine ⟨line.takeWhile (· ≠ slash), (line.dropWhile (· ≠ slash)).takeWhile (· ≠ space), tail,
    ?_, ⟨not_mem_takeWhile slash line, hpre⟩, ⟨?_, not_mem_takeWhile space _⟩, ?_⟩
  · rw [List.append_assoc, ← htail, hsplit, hline]
  · rw [hbehind, List.takeWhile_cons, if_pos (by decide)]
    rfl
  · rw [htail]
    simp [squeeze]

/-- Only the exit command asks for the exit command. -/
theorem asks_exit (h : asks line = some exitReq) : line = exitReq := by
  by_contra hline
  obtain ⟨pre, path, tail, -, -, hpath, hr⟩ := asks_search h hline
  have hhead := congrArg List.head? hr
  rw [List.head?_append, hpath.1, Option.some_or] at hhead
  exact absurd hhead (by decide)

theorem lister_newline : Lister.newline = newline := rfl

theorem asked_last (hfile : newline ∉ file) : asked file = (asks file).toList := by
  rw [asked, Lister.lines_last hfile]
  cases h : asks file <;> simp [h]

theorem asked_cons (hline : newline ∉ line) :
    asked (line ++ newline :: rest) = (asks line).toList ++ asked rest := by
  have hlines : Lister.lines (line ++ newline :: rest) = line :: Lister.lines rest :=
    Lister.lines_cons hline
  rw [asked, hlines]
  cases h : asks line <;> simp [asked, h]

theorem accepted_last (malloc : Malloc) (hfile : newline ∉ file) :
    Accepted malloc file ↔ file = [] ∨ file = exitReq := by
  rw [Accepted, Lister.lines_last hfile]
  simp

theorem accepted_cons (malloc : Malloc) (hline : newline ∉ line) :
    Accepted malloc (line ++ newline :: rest) ↔
      GoodLine malloc line ∧ Accepted malloc rest := by
  have hlines : Lister.lines (line ++ newline :: rest) = line :: Lister.lines rest :=
    Lister.lines_cons hline
  have hne : Lister.lines rest ≠ [] := List.splitOnP_ne_nil _ _
  rw [Accepted, Accepted, hlines, List.dropLast_cons_of_ne_nil hne, List.forall_mem_cons,
    List.getLast?_cons_of_ne_nil hne, and_assoc]

end Grammar

section Buffer

variable {malloc : Malloc} {buffer next junk piece r request : List UInt8}

theorem rwsLoop_length {p i j j' : Nat} {m m' : Mem} (h : rwsLoop p m i j = some (m', j')) :
    m'.length = m.length := by
  induction m, i, j using rwsLoop.induct p with
  | case1 m i j hlt hzero =>
      rw [rwsLoop, dif_pos hlt, if_pos hzero] at h
      cases h
      rfl
  | case2 m i j hlt hzero hspace ih =>
      rw [rwsLoop, dif_pos hlt, if_neg hzero, if_pos hspace] at h
      exact ih h
  | case3 m i j hlt hzero hspace ih =>
      rw [rwsLoop, dif_pos hlt, if_neg hzero, if_neg hspace] at h
      rw [ih h, List.length_set]
  | case4 m i j hout =>
      rw [rwsLoop, dif_neg hout] at h
      cases h

/-- What has to succeed for `parseReq` to come to its end. -/
theorem parseReq_inv (h : parseReq malloc buffer = some (next, request)) :
    malloc.Roomy request ∧ ∃ line gap squeezed raw cut, cstring buffer = some line ∧
      strstr line (text " ") = some gap ∧ rws buffer (gap + 1) = some squeezed ∧
      cstring (squeezed.drop (gap + 1)) = some raw ∧ scanTo newline raw = some cut ∧
      store squeezed (gap + 1 + cut) 0 = some next := by
  obtain ⟨line, hline, h⟩ := Option.bind_eq_some_iff.mp h
  obtain ⟨rest, -, h⟩ := Option.bind_eq_some_iff.mp h
  obtain ⟨gap, hgap, h⟩ := Option.bind_eq_some_iff.mp h
  obtain ⟨squeezed, hrws, h⟩ := Option.bind_eq_some_iff.mp h
  obtain ⟨raw, hraw, h⟩ := Option.bind_eq_some_iff.mp h
  obtain ⟨cut, hcut, h⟩ := Option.bind_eq_some_iff.mp h
  obtain ⟨ended, hstore, h⟩ := Option.bind_eq_some_iff.mp h
  obtain ⟨restStr, -, h⟩ := Option.bind_eq_some_iff.mp h
  obtain ⟨printed, hprint, h⟩ := Option.bind_eq_some_iff.mp h
  cases h
  simp only [show text "" = [] from rfl, List.nil_append, List.length_nil, Nat.zero_add,
    sprintf_malloc, Option.ite_none_right_eq_some, Option.some.injEq] at hprint
  obtain ⟨hroomy, rfl⟩ := hprint
  exact ⟨hroomy, line, gap, squeezed, raw, cut, hline, hgap, hrws, hraw, hcut, hstore⟩

/-- The stores of `parseReq` are inside the buffer. -/
theorem parseReq_length (h : parseReq malloc buffer = some (next, request)) :
    next.length = buffer.length := by
  obtain ⟨-, line, gap, squeezed, raw, cut, -, -, hrws, -, -, hstore⟩ := parseReq_inv h
  obtain ⟨⟨looped, j⟩, hloop, hend⟩ := Option.bind_eq_some_iff.mp hrws
  rw [(store_length hstore).2, (store_length hend).2, rwsLoop_length hloop]

theorem mem_of_scanTo {c : UInt8} {s : List UInt8} {i : Nat} (h : scanTo c s = some i) :
    c ∈ s := by
  rw [← strstr_singleton] at h
  have hinfix := (strstr_isSome_iff s [c]).mp (by rw [h]; rfl)
  exact hinfix.subset List.mem_cons_self

/-- Without a newline in the buffer there is nothing to cut at. -/
theorem parseReq_newline (hzero : 0 ∉ piece)
    (h : parseReq malloc (piece ++ 0 :: junk) = some (next, request)) : newline ∈ piece := by
  obtain ⟨-, line, gap, squeezed, raw, cut, hline, hgap, hrws, hraw, hcut, -⟩ := parseReq_inv h
  rw [cstring_append piece junk hzero, Option.some.injEq] at hline
  subst hline
  -- the string behind the first space, without its spaces
  rw [show text " " = [space] from rfl, strstr_singleton] at hgap
  obtain ⟨head, tail, rfl, hhead⟩ := List.eq_append_cons_of_mem (mem_of_scanTo hgap)
  rw [scanTo_append space head tail hhead, Option.some.injEq] at hgap
  have htail : 0 ∉ tail := fun hmem => hzero (by simp [hmem])
  obtain ⟨left, hspec⟩ := rws_spec (head ++ [space]) tail junk htail
  have hlength : (head ++ [space]).length = gap + 1 := by
    rw [List.length_append, hgap]
    rfl
  rw [hlength, List.append_assoc, List.singleton_append] at hspec
  rw [List.append_assoc, List.cons_append, hspec, Option.some.injEq] at hrws
  rw [← hrws, ← hlength, List.drop_append_of_le_length (by simp), List.drop_length,
    List.nil_append, cstring_append _ left (zero_not_mem_squeeze htail), Option.some.injEq] at hraw
  rw [← hraw] at hcut
  have hmem : newline ∈ tail := List.mem_of_mem_filter (mem_of_scanTo hcut)
  exact List.mem_append_right _ (List.mem_cons_of_mem _ hmem)

theorem readRequest_length (hzero : 0 ∉ piece)
    (h : readRequest malloc (piece ++ 0 :: junk) = some (next, r)) :
    next.length = (piece ++ 0 :: junk).length := by
  by_cases hexit : exitReq <:+: piece
  · rw [readRequest_exit malloc hzero hexit] at h
    cases h
    rfl
  · rw [readRequest_search malloc hzero hexit] at h
    exact parseReq_length h

/-- A piece without a newline can only be taken for the exit command. -/
theorem readRequest_cut (hzero : 0 ∉ piece) (hpiece : newline ∉ piece)
    (h : readRequest malloc (piece ++ 0 :: junk) = some (next, r)) : r = exitReq := by
  by_cases hexit : exitReq <:+: piece
  · rw [readRequest_exit malloc hzero hexit] at h
    cases h
    rfl
  · rw [readRequest_search malloc hzero hexit] at h
    exact absurd (parseReq_newline hzero h) hpiece

/-- `fgets` fills the front of the buffer. -/
theorem storeAll_fgets (hbuffer : buffer.length = 1024) (hpiece : piece.length ≤ 1023) :
    storeAll buffer 0 (piece ++ [0]) = some (piece ++ 0 :: buffer.drop (piece.length + 1)) := by
  have hstore := storeAll_append [] (buffer.take (piece.length + 1)) (piece ++ [0])
    (buffer.drop (piece.length + 1)) (by simp; omega)
  simpa using hstore

end Buffer

section Loop

variable {malloc : Malloc} {file : List UInt8} {buffer shm last : Mem}
  {requests : List (List UInt8)} {fuel : Nat}

/-- A read brings a whole line, or a piece without a newline. -/
theorem fgets_cases (file : List UInt8) :
    (∃ line rest, newline ∉ line ∧ line.length ≤ 1022 ∧ file = line ++ newline :: rest ∧
      Lister.fgets 1023 file = (line ++ [newline], rest)) ∨
    (newline ∉ file.take 1023 ∧
      Lister.fgets 1023 file = (file.take 1023, file.drop 1023)) := by
  by_cases hnewline : newline ∈ file.take 1023
  · obtain ⟨line, front, htake, hline⟩ := List.eq_append_cons_of_mem hnewline
    have hlength : line.length ≤ 1022 := by
      have := congrArg List.length htake
      simp only [List.length_take, List.length_append, List.length_cons] at this
      omega
    have hfile : file = line ++ newline :: (front ++ file.drop 1023) := by
      rw [← List.cons_append, ← List.append_assoc, ← htake, List.take_append_drop]
    refine .inl ⟨line, front ++ file.drop 1023, hline, hlength, hfile, ?_⟩
    nth_rewrite 1 [hfile]
    exact Lister.fgets_line hline (by omega)
  · exact .inr ⟨hnewline, Lister.fgets_take hnewline⟩

theorem asked_nil : asked [] = [] := by decide

/-- A piece that is read asks for one thing at most. -/
theorem asked_append_le {piece : List UInt8} (hpiece : newline ∉ piece) (rest : List UInt8) :
    (asked (piece ++ rest)).length ≤ 1 + (asked rest).length := by
  have hone : ∀ line, (asks line).toList.length ≤ 1 := by
    intro line
    cases asks line <;> simp
  by_cases hrest : newline ∈ rest
  · obtain ⟨line, rest, rfl, hline⟩ := List.eq_append_cons_of_mem hrest
    have hfirst : newline ∉ piece ++ line := by simp [hpiece, hline]
    have := hone (piece ++ line)
    rw [← List.append_assoc, asked_cons hfirst, asked_cons hline, List.length_append,
      List.length_append]
    omega
  · have hfile : newline ∉ piece ++ rest := by simp [hpiece, hrest]
    have := hone (piece ++ rest)
    rw [asked_last hfile]
    omega

theorem asked_fgets_le (file : List UInt8) :
    (asked file).length ≤ 1 + (asked (Lister.fgets 1023 file).2).length := by
  rcases fgets_cases file with ⟨line, rest, hline, -, rfl, hread⟩ | ⟨hpiece, hread⟩
  · rw [hread, asked_cons hline, List.length_append]
    cases asks line <;> simp
  · rw [hread]
    nth_rewrite 1 [← List.take_append_drop 1023 file]
    exact asked_append_le hpiece _

/-- One turn of the loop. -/
theorem readLoop_succ (hne : file ≠ []) (hbuffer : buffer.length = 1024) :
    readLoop malloc (fuel + 1) file buffer shm =
      (readRequest malloc ((Lister.fgets 1023 file).1 ++
          0 :: buffer.drop ((Lister.fgets 1023 file).1.length + 1))).bind fun read =>
        (addReq shm read.2).bind fun shm =>
          (readLoop malloc fuel (Lister.fgets 1023 file).2 read.1 shm).map fun done =>
            (read.2 :: done.1, done.2) := by
  obtain ⟨c, rest, rfl⟩ := List.exists_cons_of_ne_nil hne
  have hstore := storeAll_fgets hbuffer (Lister.fgets_le 1023 (c :: rest))
  simp only [readLoop, hstore, Option.bind_eq_bind, Option.bind_some, Option.map_eq_bind]
  rfl

/-- What one turn has done if the loop comes to its end. -/
theorem readLoop_inv (hne : file ≠ []) (hzero : 0 ∉ file) (hbuffer : buffer.length = 1024)
    (h : readLoop malloc (fuel + 1) file buffer shm = some (requests, last)) :
    ∃ junk next r shm' others, 0 ∉ (Lister.fgets 1023 file).1 ∧ 0 ∉ (Lister.fgets 1023 file).2 ∧
      readRequest malloc ((Lister.fgets 1023 file).1 ++ 0 :: junk) = some (next, r) ∧
      next.length = 1024 ∧ addReq shm r = some shm' ∧
      readLoop malloc fuel (Lister.fgets 1023 file).2 next shm' = some (others, last) ∧
      requests = r :: others := by
  have hparts : 0 ∉ (Lister.fgets 1023 file).1 ++ (Lister.fgets 1023 file).2 := by
    rw [Lister.fgets_append]
    exact hzero
  rw [List.mem_append, not_or] at hparts
  rw [readLoop_succ hne hbuffer] at h
  obtain ⟨⟨next, r⟩, hread, h⟩ := Option.bind_eq_some_iff.mp h
  obtain ⟨shm', hadd, h⟩ := Option.bind_eq_some_iff.mp h
  obtain ⟨⟨others, last'⟩, hloop, h⟩ := Option.map_eq_some_iff.mp h
  cases h
  have hpiece := Lister.fgets_le 1023 file
  refine ⟨_, next, r, shm', others, hparts.1, hparts.2, hread, ?_, hadd, hloop, rfl⟩
  rw [readRequest_length hparts.1 hread]
  simp only [List.length_append, List.length_cons, List.length_drop]
  omega

theorem readLoop_zero (h : readLoop malloc 0 file buffer shm = some (requests, last)) :
    file = [] ∧ requests = [] := by
  cases file with
  | nil =>
      cases h
      exact ⟨rfl, rfl⟩
  | cons c file => cases h

theorem readLoop_nil (fuel : Nat) (buffer shm : Mem) :
    readLoop malloc fuel [] buffer shm = some ([], shm) := by
  cases fuel <;> rfl

/-- `AddReq` is called for every piece, so there are at least as many strings as
the file asks for. -/
theorem asked_length_le (hzero : 0 ∉ file) (hbuffer : buffer.length = 1024)
    (h : readLoop malloc fuel file buffer shm = some (requests, last)) :
    (asked file).length ≤ requests.length := by
  induction fuel generalizing file buffer shm requests with
  | zero =>
      obtain ⟨rfl, rfl⟩ := readLoop_zero h
      rw [asked_nil]
  | succ fuel ih =>
      by_cases hne : file = []
      · subst hne
        rw [asked_nil]
        exact Nat.zero_le _
      · obtain ⟨junk, next, r, shm', others, -, hrest, -, hnext, -, hloop, rfl⟩ :=
          readLoop_inv hne hzero hbuffer h
        have hle := asked_fgets_le file
        have hothers := ih hrest hnext hloop
        rw [List.length_cons]
        omega

/-- A piece with its newline that is taken for what its line asks for. -/
theorem goodLine_of_readRequest {line junk next r : List UInt8} (hzero : 0 ∉ line ++ [newline])
    (hlength : line.length ≤ 1022)
    (h : readRequest malloc (line ++ [newline] ++ 0 :: junk) = some (next, r))
    (hasks : asks line = some r) : GoodLine malloc line := by
  by_cases hexit : exitReq <:+: line
  · left
    have hpiece : exitReq <:+: line ++ [newline] := hexit.trans (List.infix_append_left)
    rw [readRequest_exit malloc hzero hpiece] at h
    cases h
    exact asks_exit hasks
  · right
    refine ⟨hlength, hexit, r, hasks, ?_⟩
    by_cases hpiece : exitReq <:+: line ++ [newline]
    · rw [infix_append_cons_iff exitReq line [] newline (by decide)] at hpiece
      rcases hpiece with hin | hin
      · exact absurd hin hexit
      · exact absurd hin (by decide)
    · rw [readRequest_search malloc hzero hpiece] at h
      exact (parseReq_inv h).1

/-- A piece without a newline at the front of a file can only be right if it is
the whole file and the exit command. -/
theorem eq_exit_of_cut {others : List (List UInt8)} (hcut : newline ∉ file.take 1023)
    (hasked : asked file = exitReq :: others)
    (hothers : (asked (file.drop 1023)).length ≤ others.length) : file = exitReq := by
  have hlast : ∀ {line rest}, (asks line).toList ++ rest = exitReq :: others →
      rest.length ≤ others.length → line = exitReq := by
    intro line rest happend hlength
    cases hasks : asks line with
    | none =>
        have hcount := congrArg List.length happend
        rw [hasks] at hcount
        simp only [Option.toList_none, List.nil_append, List.length_cons] at hcount
        omega
    | some s =>
        rw [hasks, Option.toList_some, List.singleton_append, List.cons.injEq] at happend
        rw [happend.1] at hasks
        exact asks_exit hasks
  by_cases hnewline : newline ∈ file
  · -- then the line is too long to be the exit command
    obtain ⟨line, rest, rfl, hline⟩ := List.eq_append_cons_of_mem hnewline
    have hlong : 1023 ≤ line.length := Lister.le_length_of_take hcut
    have hbehind : newline ∉ line.drop 1023 := fun h => hline (List.mem_of_mem_drop h)
    rw [List.drop_append_of_le_length hlong, asked_cons hbehind, List.length_append] at hothers
    rw [asked_cons hline] at hasked
    rw [hlast hasked (by omega)] at hlong
    exact absurd hlong (by decide)
  · rw [asked_last hnewline, ← List.append_nil (asks file).toList] at hasked
    exact hlast hasked (Nat.zero_le _)

/-- If the strings are those asked for, every piece was a line, and the line was
good. -/
theorem accepted_of_readLoop (hzero : 0 ∉ file) (hbuffer : buffer.length = 1024)
    (h : readLoop malloc fuel file buffer shm = some (asked file, last)) :
    Accepted malloc file := by
  have hnil : Accepted malloc [] := (accepted_last malloc List.not_mem_nil).mpr (.inl rfl)
  induction fuel generalizing file buffer shm with
  | zero =>
      obtain ⟨rfl, -⟩ := readLoop_zero h
      exact hnil
  | succ fuel ih =>
      by_cases hne : file = []
      · rw [hne]
        exact hnil
      obtain ⟨junk, next, r, shm', others, hpiece, hrest, hread, hnext, -, hloop, hasked⟩ :=
        readLoop_inv hne hzero hbuffer h
      have hothers := asked_length_le hrest hnext hloop
      rcases fgets_cases file with ⟨line, rest, hline, hlength, rfl, hget⟩ | ⟨hcut, hget⟩
      · rw [hget] at hpiece hread hothers hloop hrest
        simp only at hpiece hread hothers hloop hrest
        rw [asked_cons hline] at hasked
        rw [accepted_cons malloc hline]
        cases hasks : asks line with
        | none =>
            -- there would be one string too many
            have hcount := congrArg List.length hasked
            rw [hasks] at hcount
            simp only [Option.toList_none, List.nil_append, List.length_cons] at hcount
            omega
        | some s =>
            rw [hasks, Option.toList_some, List.singleton_append, List.cons.injEq] at hasked
            obtain ⟨rfl, rfl⟩ := hasked
            exact ⟨goodLine_of_readRequest hpiece hlength hread hasks, ih hrest hnext hloop⟩
      · rw [hget] at hpiece hread hothers
        rw [readRequest_cut hpiece hcut hread] at hasked
        rw [eq_exit_of_cut hcut hasked hothers, accepted_last malloc (by decide)]
        exact .inr rfl

/-- A good line in the buffer gives what it asks for. -/
theorem readRequest_good {line : List UInt8} (junk : List UInt8) (hzero : 0 ∉ line)
    (hline : newline ∉ line) (hgood : GoodLine malloc line) :
    ∃ next r, readRequest malloc (line ++ [newline] ++ 0 :: junk) = some (next, r) ∧
      asks line = some r ∧ line.length ≤ 1022 := by
  have hpiece : 0 ∉ line ++ [newline] := by
    simp only [List.mem_append, List.mem_singleton, not_or]
    exact ⟨hzero, by decide⟩
  rcases hgood with rfl | ⟨hlength, hexit, r, hasks, hroomy⟩
  · exact ⟨_, exitReq, readRequest_exit malloc hpiece List.infix_append_left, by decide,
      by decide⟩
  · have hnot : line ≠ exitReq := by
      rintro rfl
      exact hexit (List.infix_refl _)
    have hinfix : ¬ exitReq <:+: line ++ [newline] := by
      rw [infix_append_cons_iff exitReq line [] newline (by decide), not_or]
      exact ⟨hexit, by decide⟩
    obtain ⟨pre, path, tail, rfl, hpre, hpath, rfl⟩ := asks_search hasks hnot
    simp only [List.mem_append, List.mem_cons, not_or] at hzero hline
    rw [List.append_assoc, List.cons_append] at hinfix
    obtain ⟨next, hread⟩ := readRequest_spec malloc pre path tail junk hpre hpath
      ⟨hzero.1.1, hzero.1.2, hzero.2.2⟩ hline.2.2 hinfix
    refine ⟨next, _, ?_, hasks, hlength⟩
    rw [if_pos hroomy] at hread
    simp only [List.append_assoc, List.cons_append, List.nil_append] at hread ⊢
    exact hread

/-- One turn on a queue with room. -/
theorem readLoop_append {piece rest next r : List UInt8} (hne : file ≠ [])
    (hbuffer : buffer.length = 1024) (hget : Lister.fgets 1023 file = (piece, rest))
    (hread : readRequest malloc (piece ++ 0 :: buffer.drop (piece.length + 1)) = some (next, r))
    (k : Nat) {pending : List (List UInt8)} (hmarks : ∀ s ∈ pending, lt ∉ s) {back : Mem}
    (hroom : r.length + 1 ≤ back.length) :
    readLoop malloc (fuel + 1) file buffer (segment k pending back) =
      (readLoop malloc fuel rest next
        (segment k (pending ++ [r]) (back.drop (r.length + 1)))).map
          fun done => (r :: done.1, done.2) := by
  rw [readLoop_succ hne hbuffer, hget]
  simp only [hread, Option.bind_some, addReq_segment k pending back r hmarks hroom]

/-- On an accepted file the loop appends what is asked for, as long as the end
mark of the queue stands in no request but the last. -/
theorem readLoop_accepted (hzero : 0 ∉ file) (haccepted : Accepted malloc file)
    (hfuel : file.length ≤ fuel) (hbuffer : buffer.length = 1024) (k : Nat)
    (pending : List (List UInt8)) (back : Mem)
    (hmarks : ∀ r ∈ (pending ++ asked file).dropLast, lt ∉ r)
    (hroom : weight (asked file) ≤ back.length) :
    readLoop malloc fuel file buffer (segment k pending back) =
      some (asked file, segment k (pending ++ asked file) (back.drop (weight (asked file)))) := by
  have hold {r : List UInt8} {others : List (List UInt8)} (pending : List (List UInt8))
      (h : ∀ s ∈ (pending ++ r :: others).dropLast, lt ∉ s) : ∀ s ∈ pending, lt ∉ s := by
    intro s hs
    apply h s
    rw [List.dropLast_append_of_ne_nil (by simp)]
    exact List.mem_append_left _ hs
  induction file using Lister.file_induction generalizing fuel buffer pending back with
  | last file hfile =>
      rcases (accepted_last malloc hfile).mp haccepted with rfl | rfl
      · rw [readLoop_nil, asked_nil]
        simp [weight]
      · have hasked : asked exitReq = [exitReq] := by decide
        have hget : Lister.fgets 1023 exitReq = (exitReq, []) := by decide
        obtain ⟨fuel, rfl⟩ : ∃ n, fuel = n + 1 := ⟨fuel - 1, by
          have : exitReq.length = 4 := by decide
          omega⟩
        rw [hasked] at hmarks
        rw [hasked, weight_singleton] at hroom ⊢
        rw [readLoop_append (by decide) hbuffer hget
          (readRequest_exit malloc hzero (List.infix_refl _)) k (hold pending hmarks) hroom,
          readLoop_nil]
        rfl
  | cons line rest hline ih =>
      rw [lister_newline] at hline hzero haccepted hfuel hmarks hroom ⊢
      have hzeros : 0 ∉ line ∧ 0 ∉ rest := by
        simp only [List.mem_append, List.mem_cons, not_or] at hzero
        exact ⟨hzero.1, hzero.2.2⟩
      obtain ⟨hgood, hrest⟩ := (accepted_cons malloc hline).mp haccepted
      obtain ⟨next, r, hread, hasks, hlength⟩ := readRequest_good
        (buffer.drop ((line ++ [newline]).length + 1)) hzeros.1 hline hgood
      have hasked : asked (line ++ newline :: rest) = [r] ++ asked rest := by
        rw [asked_cons hline, hasks]
        rfl
      simp only [List.length_append, List.length_cons] at hfuel
      obtain ⟨fuel, rfl⟩ : ∃ n, fuel = n + 1 := ⟨fuel - 1, by omega⟩
      rw [hasked] at hmarks
      rw [hasked, weight_append, weight_singleton] at hroom ⊢
      have hget : Lister.fgets 1023 (line ++ newline :: rest) = (line ++ [newline], rest) :=
        Lister.fgets_line hline (by omega)
      have hpiece : 0 ∉ line ++ [newline] := by
        simp only [List.mem_append, List.mem_singleton, not_or]
        exact ⟨hzeros.1, by decide⟩
      have hnext : next.length = 1024 := by
        rw [readRequest_length hpiece hread]
        simp only [List.length_append, List.length_cons, List.length_nil, List.length_drop]
        omega
      have hmore : rest.length ≤ fuel := by omega
      have hloop := ih hzeros.2 hrest hmore hnext (pending ++ [r])
        (back.drop (r.length + 1)) (by rwa [List.append_assoc])
        (by rw [List.length_drop]; omega)
      rw [readLoop_append (by simp) hbuffer hget hread k (hold pending hmarks) (by omega), hloop,
        List.drop_drop, List.append_assoc]
      rfl

/-- The calls of `AddReq` alone. -/
theorem readLoop_calls (hzero : 0 ∉ file) (hbuffer : buffer.length = 1024)
    (h : readLoop malloc fuel file buffer shm = some (requests, last)) :
    requests.foldlM addReq shm = some last := by
  induction fuel generalizing file buffer shm requests with
  | zero =>
      obtain ⟨rfl, rfl⟩ := readLoop_zero h
      rw [readLoop_nil] at h
      cases h
      rfl
  | succ fuel ih =>
      by_cases hne : file = []
      · subst hne
        rw [readLoop_nil] at h
        cases h
        rfl
      · obtain ⟨junk, next, r, shm', others, -, hrest, -, hnext, hadd, hloop, rfl⟩ :=
          readLoop_inv hne hzero hbuffer h
        rw [List.foldlM_cons, hadd]
        exact ih hrest hnext hloop

end Loop

section Marks

variable {requests : List (List UInt8)} {shm last : Mem} {e i : Nat}

theorem weight_cons (r : List UInt8) (rest : List (List UInt8)) :
    weight (r :: rest) = weight [r] + weight rest := weight_append [r] rest

/-- Some calls of `AddReq` write no further than the place the end mark has when
they are through. -/
theorem foldlM_addReq (hmark : scanTo lt shm = some e)
    (h : requests.foldlM addReq shm = some last) (hi : e + weight requests < i) :
    last[i]? = shm[i]? := by
  induction requests generalizing shm e with
  | nil =>
      cases h
      rfl
  | cons r rest ih =>
      obtain ⟨next, hadd, hrest⟩ := Option.bind_eq_some_iff.mp h
      obtain ⟨hkept, e', hmark', hle, -⟩ := addReq_mark hmark hadd
      rw [weight_cons] at hi
      rw [ih hmark' hrest (by omega), hkept i (by omega)]

/-- If one of them passes on the end mark and is not the last, the next one goes
over it, and the place where the mark should be in the end is not reached. -/
theorem foldlM_addReq_short (hmark : scanTo lt shm = some e)
    (h : requests.foldlM addReq shm = some last) {r : List UInt8} (hr : r ∈ requests.dropLast)
    (hlt : lt ∈ r) (hi : e + weight requests ≤ i) : last[i]? = shm[i]? := by
  induction requests generalizing shm e with
  | nil => cases hr
  | cons s rest ih =>
      obtain ⟨next, hadd, hrest⟩ := Option.bind_eq_some_iff.mp h
      obtain ⟨hkept, e', hmark', hle, hinside⟩ := addReq_mark hmark hadd
      obtain ⟨t, more, rfl⟩ : ∃ t more, rest = t :: more := by
        cases rest with
        | nil => cases hr
        | cons t more => exact ⟨t, more, rfl⟩
      have hmore : 0 < weight (t :: more) := by
        rw [weight_cons, weight_singleton]
        omega
      rw [weight_cons] at hi
      rw [List.dropLast_cons_of_ne_nil (by simp), List.mem_cons] at hr
      rcases hr with rfl | hr
      · have hshort := hinside hlt
        rw [foldlM_addReq hmark' hrest (by omega), hkept i (by omega)]
      · rw [ih hmark' hrest hr (by omega), hkept i (by omega)]

end Marks

/-- Every search request asked for has its space. -/
theorem asked_splits {file r : List UInt8} (hr : r ∈ asked file) (hzero : 0 ∉ file) :
    r = exitReq ∨ (splitItem (r ++ [0])).isSome := by
  obtain ⟨line, hline, hasks⟩ := List.mem_filterMap.mp hr
  by_cases hexit : line = exitReq
  · left
    rw [hexit] at hasks
    exact Option.some.inj (hasks.symm.trans (by decide))
  · right
    obtain ⟨pre, path, tail, rfl, -, hpath, rfl⟩ := asks_search hasks hexit
    have hbytes : 0 ∉ pre ++ path ++ space :: tail :=
      fun h => hzero ((Lister.mem_splitOnP hline).2 0 h)
    simp only [List.mem_append, List.mem_cons, not_or] at hbytes
    rw [splitItem_spec path (squeeze tail) hpath.2]
    · rfl
    · simp only [List.mem_append, List.mem_cons, not_or]
      exact ⟨hbytes.1.2, by decide, zero_not_mem_squeeze hbytes.2.2⟩

section File

variable {malloc : Malloc} {fs : Lister.FileSystem} {filepath file : List UInt8}
  {buffer back : Mem} {k : Nat} {pending : List (List UInt8)}

theorem readfile_file (malloc : Malloc) (hdir : fs.opendir filepath = none)
    (hopen : fs.fopen filepath = some file) (buffer shm : Mem) :
    readfile malloc fs filepath buffer shm =
      (readLoop malloc file.length file buffer shm).map fun done => (0, done) := by
  unfold readfile
  simp [hdir, hopen]

theorem Handled.readLoop (h : Handled malloc fs filepath file buffer k pending back)
    (hdir : fs.opendir filepath = none) (hopen : fs.fopen filepath = some file) :
    readLoop malloc file.length file buffer (segment k pending back) = some (asked file,
      segment k (pending ++ asked file) (back.drop (weight (asked file)))) := by
  have hresult := h.result
  rw [readfile_file malloc hdir hopen] at hresult
  obtain ⟨done, hloop, hdone⟩ := Option.map_eq_some_iff.mp hresult
  cases hdone
  exact hloop

theorem Handled.accepted (h : Handled malloc fs filepath file buffer k pending back)
    (hdir : fs.opendir filepath = none) (hopen : fs.fopen filepath = some file)
    (hzero : 0 ∉ file) (hbuffer : buffer.length = 1024) : Accepted malloc file :=
  accepted_of_readLoop hzero hbuffer (h.readLoop hdir hopen)

/-- The end mark of the queue stands in no request but the last, unless it stood
already where the last one brings it. -/
theorem Handled.marks (h : Handled malloc fs filepath file buffer k pending back)
    (hdir : fs.opendir filepath = none) (hopen : fs.fopen filepath = some file)
    (hzero : 0 ∉ file) (hbuffer : buffer.length = 1024) (hpending : ∀ r ∈ pending, Clean r)
    (hback : back[weight (asked file) - 1]? ≠ some lt) :
    ∀ r ∈ (asked file).dropLast, lt ∉ r := by
  intro r hr hlt
  have hcalls := readLoop_calls hzero hbuffer (h.readLoop hdir hopen)
  obtain ⟨hscan, -⟩ := addReq_scans k pending back fun s hs => (hpending s hs).1
  have hshort := foldlM_addReq_short hscan hcalls hr hlt (Nat.le_refl _)
  have hlength : (front k (pending ++ asked file)).length =
      (front k pending).length + weight (asked file) := by
    rw [front_length, front_length, weight_append]
    omega
  obtain ⟨n, hn⟩ : ∃ n, weight (asked file) = n + 1 := by
    obtain ⟨s, rest, hasked⟩ := List.exists_cons_of_ne_nil (List.ne_nil_of_mem
      (List.mem_of_mem_dropLast hr))
    exact ⟨s.length + weight rest, by rw [hasked, weight_cons, weight_singleton]; omega⟩
  have hend : (segment k (pending ++ asked file) (back.drop (weight (asked file))))[
      (front k pending).length + weight (asked file)]? = some lt := by
    rw [segment, List.getElem?_append_right (by omega), hlength]
    simp
  rw [hend, List.getElem?_append_right (by omega), Nat.add_sub_cancel_left, hn,
    List.getElem?_cons_succ] at hshort
  rw [hn, Nat.add_sub_cancel] at hback
  exact hback hshort.symm

/-- A file the client accepts is handled on every queue with room. -/
theorem handled_of_accepted (hdir : fs.opendir filepath = none)
    (hopen : fs.fopen filepath = some file) (hzero : 0 ∉ file) (haccepted : Accepted malloc file)
    (hmarks : ∀ r ∈ (asked file).dropLast, lt ∉ r) (hbuffer : buffer.length = 1024)
    (hpending : ∀ r ∈ pending, Clean r) (hroom : weight (asked file) ≤ back.length) :
    Handled malloc fs filepath file buffer k pending back := by
  have hall : ∀ r ∈ (pending ++ asked file).dropLast, lt ∉ r := by
    intro r hr
    by_cases hnil : asked file = []
    · rw [hnil, List.append_nil] at hr
      exact (hpending r (List.mem_of_mem_dropLast hr)).1
    · rw [List.dropLast_append_of_ne_nil hnil, List.mem_append] at hr
      rcases hr with hr | hr
      · exact (hpending r hr).1
      · exact hmarks r hr
  constructor
  · rw [readfile_file malloc hdir hopen, readLoop_accepted hzero haccepted (Nat.le_refl _) hbuffer
      k pending back hall hroom]
    rfl
  · exact fun r hr => asked_splits hr hzero

/-- The client handles a file as its lines ask for, on every queue with room, if
and only if every line that ends with a newline is the exit command or asks for
a search, with at most 1022 bytes, without the letters of the exit command
anywhere and with a block that has a byte more than was asked for, nothing but
an exit command follows the last newline, and no request but the last one holds
the end mark of the queue. It is the same on each queue by itself, unless the
bytes behind its end mark hold one just where the last request brings it. -/
theorem readfile_handles_iff (malloc : Malloc) {fs : Lister.FileSystem}
    {filepath file : List UInt8} (hdir : fs.opendir filepath = none)
    (hopen : fs.fopen filepath = some file) (hzero : 0 ∉ file) :
    ((∀ (buffer : Mem) (k : Nat) (pending : List (List UInt8)) (back : Mem),
      buffer.length = 1024 → (∀ r ∈ pending, Clean r) → weight (asked file) ≤ back.length →
      Handled malloc fs filepath file buffer k pending back) ↔
    Accepted malloc file ∧ ∀ r ∈ (asked file).dropLast, lt ∉ r) ∧
    ∀ (buffer : Mem) (k : Nat) (pending : List (List UInt8)) (back : Mem),
      buffer.length = 1024 → (∀ r ∈ pending, Clean r) → weight (asked file) ≤ back.length →
      back[weight (asked file) - 1]? ≠ some lt →
      (Handled malloc fs filepath file buffer k pending back ↔
        Accepted malloc file ∧ ∀ r ∈ (asked file).dropLast, lt ∉ r) := by
  have hall (buffer : Mem) (k : Nat) (pending : List (List UInt8)) (back : Mem)
      (hbuffer : buffer.length = 1024) (hpending : ∀ r ∈ pending, Clean r)
      (hroom : weight (asked file) ≤ back.length)
      (h : Accepted malloc file ∧ ∀ r ∈ (asked file).dropLast, lt ∉ r) :
      Handled malloc fs filepath file buffer k pending back :=
    handled_of_accepted hdir hopen hzero h.1 h.2 hbuffer hpending hroom
  have hone (buffer : Mem) (k : Nat) (pending : List (List UInt8)) (back : Mem)
      (hbuffer : buffer.length = 1024) (hpending : ∀ r ∈ pending, Clean r)
      (hback : back[weight (asked file) - 1]? ≠ some lt)
      (h : Handled malloc fs filepath file buffer k pending back) :
      Accepted malloc file ∧ ∀ r ∈ (asked file).dropLast, lt ∉ r :=
    ⟨h.accepted hdir hopen hzero hbuffer, h.marks hdir hopen hzero hbuffer hpending hback⟩
  refine ⟨⟨?_, ?_⟩, ?_⟩
  · intro h
    refine hone zeroBlock 0 [] (List.replicate (weight (asked file)) 0) zeroBlock_length (by simp)
      ?_ (h _ _ _ _ zeroBlock_length (by simp) (by simp))
    intro hlt
    have hmem := List.mem_of_getElem? hlt
    rw [List.mem_replicate] at hmem
    exact absurd hmem.2 (by decide)
  · intro h buffer k pending back hbuffer hpending hroom
    exact hall buffer k pending back hbuffer hpending hroom h
  · intro buffer k pending back hbuffer hpending hroom hback
    exact ⟨hone buffer k pending back hbuffer hpending hback,
      hall buffer k pending back hbuffer hpending hroom⟩

end File

/-- A file system with nothing but this file. -/
def onlyFile (file : List UInt8) : Lister.FileSystem where
  opendir _ := none
  fopen _ := some file

/-- Two searches, one of them with a separator in its keyword, and the exit
command, the last line without a newline. -/
theorem readfile_handles_three :
    Handled chunks (onlyFile (text "re/d is\n/d/e  a > b \nexit")) (text "in")
      (text "re/d is\n/d/e  a > b \nexit") zeroBlock 3 [text "/a is"] (List.replicate 100 0) :=
  (readfile_handles_iff chunks rfl rfl (by decide)).1.mpr ⟨by decide, by decide⟩ zeroBlock 3
    [text "/a is"] (List.replicate 100 0) zeroBlock_length (by decide) (by decide)

/-- `inputFile3.dat`: three searches and a blank line. -/
def inputFile3 : List UInt8 :=
  text "replace/searchdir2/A is\nreplace/searchdir2/B is\nreplace/searchdir2 is\n\n"

/-- The blank line asks for nothing, and the client does not get over it. -/
theorem readfile_blank_line :
    asked inputFile3 = [text "/searchdir2/A is", text "/searchdir2/B is", text "/searchdir2 is"] ∧
      ¬ Handled chunks (onlyFile inputFile3) (text "inputFile3.dat") inputFile3 zeroBlock 0 []
        (List.replicate 100 0) := by
  refine ⟨by decide, ?_⟩
  intro hhandled
  have hlines := (hhandled.accepted rfl rfl (by decide) zeroBlock_length).1
  exact absurd (hlines [] (by decide)) (by decide)

end Cse420.Queue
