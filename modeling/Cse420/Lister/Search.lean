import Cse420.Lib.CMemory

/-!
What the directory listers ask of the system and of the C library: a file
system that is only read, `strcmp`, and the keyword search that runs through a
file with `fgets` and `strtok_r`. Strings are given without their terminator.
-/

namespace Cse420.Lister

open CMemory

abbrev Path := List UInt8

/-- `d_type` is 4 for a directory. -/
structure Dirent where
  dName : List UInt8
  dType : Nat
  deriving DecidableEq

/-- `opendir` with all the entries `readdir` then returns, in this order, and
`fopen` with the bytes of the file. -/
structure FileSystem where
  opendir : Path → Option (List Dirent)
  fopen : Path → Option (List UInt8)

def slash : UInt8 := '/'.toUInt8

def dot : UInt8 := '.'.toUInt8

/-- `sprintf(abspath, "%s/%s", path, entry->d_name)`. -/
def join (path name : List UInt8) : Path := path ++ slash :: name

/-- `entry->d_name[0] == '.'`. -/
def Dirent.hidden (entry : Dirent) : Bool := entry.dName.head? = some dot

/-- The difference of the first bytes that differ; a string that ends counts as
zero there. -/
def strcmp : List UInt8 → List UInt8 → Int
  | [], [] => 0
  | [], b :: _ => -(b.toNat : Int)
  | a :: _, [] => a.toNat
  | a :: as, b :: bs => if a = b then strcmp as bs else (a.toNat : Int) - b.toNat

/-- One call of `fgets` with room for `n` bytes: what is read and what is left
of the file. -/
def fgets : Nat → List UInt8 → List UInt8 × List UInt8
  | 0, file => ([], file)
  | _, [] => ([], [])
  | n + 1, c :: file =>
      if c = '\n'.toUInt8 then ([c], file) else (c :: (fgets n file).1, (fgets n file).2)

/-- `while (fgets(buffer, 1024, file) != NULL)`: the strings the buffer holds
one after the other. A byte of the file that is zero ends the string. -/
def buffers : Nat → List UInt8 → List (List UInt8)
  | 0, _ => []
  | _, [] => []
  | fuel + 1, file =>
      (fgets 1023 file).1.takeWhile (· ≠ 0) :: buffers fuel (fgets 1023 file).2

def delim : List UInt8 := text " \t\n"

/-- The words that the loop of `strtok_r` calls finds in a string. -/
def strtokAll (str : List UInt8) : List (List UInt8) :=
  (str.splitOnP (· ∈ delim)).filter (!·.isEmpty)

/-- `rws` copies the bytes that are not spaces to the front. -/
def rws : List UInt8 → List UInt8
  | [] => []
  | c :: str => if c ≠ ' '.toUInt8 then c :: rws str else rws str

/-- The loop over one file. `prepare` is what is done to a word before it is
compared. Every read takes at least one byte, so the file's length is fuel
enough. The `int` count is a number without bound; it leaves `int` only from
2^31 matches on. -/
def countIn (prepare : List UInt8 → List UInt8) (keyword file : List UInt8) : Nat :=
  ((buffers file.length file).map fun buffer =>
    (strtokAll buffer).countP fun word => strcmp keyword (prepare word) = 0).sum

/-- The search of one path: zero for a directory, minus one for a file that
does not open. -/
def searchWith (prepare : List UInt8 → List UInt8) (fs : FileSystem) (filePath keyword : Path) :
    Int :=
  if (fs.opendir filePath).isSome then 0
  else
    match fs.fopen filePath with
    | none => -1
    | some file => countIn prepare keyword file

/-- `search_test` of Project2. -/
def searchTest (fs : FileSystem) (filePath keyword : Path) : Int :=
  searchWith rws fs filePath keyword

/-- `keyword_search` of Lin's lister. -/
def keywordSearch (fs : FileSystem) (filePath keyword : Path) : Int :=
  searchWith id fs filePath keyword

theorem strcmp_swap (a b : List UInt8) : strcmp a b = -strcmp b a := by
  induction a generalizing b with
  | nil => cases b <;> simp [strcmp]
  | cons x xs ih =>
      cases b with
      | nil => simp [strcmp]
      | cons y ys =>
          simp only [strcmp]
          rcases eq_or_ne x y with rfl | hne
          · simpa using ih ys
          · simp only [hne, hne.symm, if_false]
            omega

theorem strcmp_pos_asymm {a b : List UInt8} (h : 0 < strcmp a b) : ¬ 0 < strcmp b a := by
  have hswap := strcmp_swap a b
  omega

/-- Strings without a zero byte compare equal only when they are equal. -/
theorem strcmp_eq_zero {a b : List UInt8} (ha : 0 ∉ a) (hb : 0 ∉ b) (h : strcmp a b = 0) :
    a = b := by
  induction a generalizing b with
  | nil =>
      cases b with
      | nil => rfl
      | cons y ys =>
          simp only [strcmp] at h
          have hy : y = 0 := UInt8.toNat_inj.mp (by simpa using h)
          simp [hy] at hb
  | cons x xs ih =>
      cases b with
      | nil =>
          simp only [strcmp] at h
          have hx : x = 0 := UInt8.toNat_inj.mp (by simpa using h)
          simp [hx] at ha
      | cons y ys =>
          simp only [List.mem_cons, not_or] at ha hb
          simp only [strcmp] at h
          split at h
          · rename_i hxy
            rw [hxy, ih ha.2 hb.2 h]
          · rename_i hxy
            exact absurd (UInt8.toNat_inj.mp (by omega)) hxy

theorem strcmp_le_trans {a b c : List UInt8} (ha : 0 ∉ a) (hb : 0 ∉ b)
    (hab : strcmp a b ≤ 0) (hbc : strcmp b c ≤ 0) : strcmp a c ≤ 0 := by
  have hpos : ∀ x : UInt8, x ≠ 0 → 0 < (x.toNat : Int) := by
    intro x hx
    have : x.toNat ≠ 0 := fun hzero => hx (UInt8.toNat_inj.mp hzero)
    omega
  induction a generalizing b c with
  | nil => cases c <;> simp [strcmp]
  | cons x xs ih =>
      cases b with
      | nil =>
          have := hpos x (by rintro rfl; simp at ha)
          simp only [strcmp] at hab
          omega
      | cons y ys =>
          simp only [List.mem_cons, not_or] at ha hb
          cases c with
          | nil =>
              have := hpos y (Ne.symm hb.1)
              simp only [strcmp] at hbc
              omega
          | cons z zs =>
              have hinj : ∀ u v : UInt8, (u.toNat : Int) = v.toNat → u = v := by
                intro u v huv
                exact UInt8.toNat_inj.mp (by omega)
              simp only [strcmp] at hab hbc ⊢
              split at hab <;> split at hbc <;> split
              · exact ih ha.2 hb.2 hab hbc
              · simp_all
              · simp_all
              · rename_i hxy _ _
                rw [hxy]
                exact hbc
              · rename_i hxy hyz hxz
                exact absurd (hxz.trans hyz.symm) hxy
              · rename_i _ hyz _
                rw [← hyz]
                exact hab
              · rename_i hxy hyz hxz
                exact absurd (hinj x y (by rw [hxz] at hab ⊢; omega)) hxy
              · omega

end Cse420.Lister
