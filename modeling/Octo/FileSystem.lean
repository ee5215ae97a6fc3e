/-
Files under names, as several processes see them.  A name stands for a file and
an open file does not depend on its name, so that a file can be moved or cut
while another process still writes to it.
-/
import Mathlib.Data.List.Basic

namespace Octo

namespace FileSystem

variable {ν : Type}

/-- The files, by number, and their names. -/
structure Disk (ν : Type) where
  directory : ν → Option ℕ
  contents : List (List UInt8)
  entries : ∀ name inode, directory name = some inode → inode < contents.length

namespace Disk

/-- The bytes that a process gets which opens the file for reading now. -/
def read (disk : Disk ν) (name : ν) : Option (List UInt8) :=
  (disk.directory name).bind fun inode => disk.contents[inode]?

/-- Bytes put into a file at an offset; a gap is filled with zeros. -/
def overwrite (old : List UInt8) (offset : ℕ) (bytes : List UInt8) : List UInt8 :=
  old.take offset ++ List.replicate (offset - old.length) 0 ++ bytes ++
    old.drop (offset + bytes.length)

/-- `write` to an open file. -/
def write (disk : Disk ν) (inode offset : ℕ) (bytes : List UInt8) : Disk ν where
  directory := disk.directory
  contents := disk.contents.modify inode fun old => overwrite old offset bytes
  entries name inode h := by
    rw [List.length_modify]
    exact disk.entries name inode h

variable {disk : Disk ν} {name other : ν} {inode : ℕ}

theorem read_eq_none_iff : disk.read name = none ↔ disk.directory name = none := by
  unfold read
  cases hname : disk.directory name with
  | none => simp
  | some inode =>
    have hlt := disk.entries name inode hname
    simp [List.getElem?_eq_getElem hlt]

theorem overwrite_length (old bytes : List UInt8) :
    overwrite old old.length bytes = old ++ bytes := by
  simp [overwrite]

variable [DecidableEq ν]

/-- `fopen(name, "w")`: a file that is there is cut, not replaced. -/
def create (disk : Disk ν) (name : ν) : Disk ν × ℕ :=
  match hname : disk.directory name with
  | some inode =>
    ({ disk with
        contents := disk.contents.set inode []
        entries := fun name inode h => by
          rw [List.length_set]
          exact disk.entries name inode h }, inode)
  | none =>
    ({ directory := Function.update disk.directory name (some disk.contents.length)
       contents := disk.contents ++ [[]]
       entries := fun other inode h => by
          rw [List.length_append, List.length_singleton]
          by_cases hother : other = name
          · rw [hother, Function.update_self] at h
            cases h
            exact Nat.lt_succ_self _
          · rw [Function.update_of_ne hother] at h
            exact Nat.lt_succ_of_lt (disk.entries other inode h) },
      disk.contents.length)

/-- `rename`, which fails if there is no such file. -/
def rename (disk : Disk ν) (source target : ν) : Disk ν where
  directory name :=
    if disk.directory source = none then disk.directory name
    else if name = target then disk.directory source
    else if name = source then none
    else disk.directory name
  contents := disk.contents
  entries name inode h := by
    split_ifs at h
    · exact disk.entries name inode h
    · exact disk.entries source inode h
    · exact disk.entries name inode h

theorem directory_create : (disk.create name).1.directory name = some (disk.create name).2 := by
  unfold create
  split
  · assumption
  · exact Function.update_self _ _ _

theorem contents_create : (disk.create name).1.contents[(disk.create name).2]? = some [] := by
  unfold create
  split
  next inode hname =>
    exact List.getElem?_set_self (disk.entries name inode hname)
  · simp

theorem directory_create_of_ne (hother : other ≠ name) :
    (disk.create name).1.directory other = disk.directory other := by
  unfold create
  split
  · rfl
  · exact Function.update_of_ne hother _ _

end Disk

end FileSystem

end Octo
