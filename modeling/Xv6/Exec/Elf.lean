import Xv6.Fs.Contents
import Xv6.Mem.Exec

/-!
# Program files

The ELF header and the program headers that `exec` reads from a file, `kernel/elf.h`. All fields
come from the file as they are. The offset of the program headers is kept in an `int` and read as a
`uint`, so that it counts modulo `2 ^ 32`; the sum of an offset and a length that does not fit in a
`uint` reads nothing.
-/

namespace Xv6

/-- The number in `k` bytes from `o` on, the lowest byte first. -/
def leAt (b : ℕ → UInt8) : (o k : ℕ) → ℕ
  | _, 0 => 0
  | o, k + 1 => (b o).toNat + 256 * leAt b (o + 1) k

/-- `struct elfhdr`, with the fields `exec` reads. -/
structure Elfhdr where
  magic : ℕ
  entry : ℕ
  phoff : ℕ
  phnum : ℕ

abbrev elfhdrSize : ℕ := 64

abbrev proghdrSize : ℕ := 56

abbrev elfMagic : ℕ := 0x464C457F

def Elfhdr.ofBytes (b : ℕ → UInt8) : Elfhdr where
  magic := leAt b 0 4
  entry := leAt b 24 8
  phoff := leAt b 32 8
  phnum := leAt b 56 2

def Proghdr.ofBytes (b : ℕ → UInt8) : Proghdr where
  type := .ofNat (leAt b 0 4)
  flags := .ofNat (leAt b 4 4)
  off := .ofNat (leAt b 8 8)
  vaddr := .ofNat (leAt b 16 8)
  filesz := .ofNat (leAt b 32 8)
  memsz := .ofNat (leAt b 40 8)

/-- What `readi` returns when it reads from the file into kernel memory: how many bytes, which. -/
def fileReadi (f : Fs.File) (off n : ℕ) : ℕ × (ℕ → UInt8) :=
  (Fs.readLen f.size off n, fun k => f.byte (off + k))

theorem fileReadi_le (f : Fs.File) (off n : ℕ) : (fileReadi f off n).1 ≤ n := by
  rw [fileReadi, Fs.readLen]
  split_ifs <;> omega

def elfhdr (f : Fs.File) : Elfhdr := .ofBytes (fileReadi f 0 elfhdrSize).2

/-- The `i`th program header of a file; `none` if it cannot be read. -/
def proghdr (f : Fs.File) (i : ℕ) : Option Proghdr :=
  let (n, b) := fileReadi f (((elfhdr f).phoff + proghdrSize * i) % 2 ^ 32) proghdrSize
  if n = proghdrSize then some (.ofBytes b) else none

/-- **What `exec` makes of a file.** -/
def Program.ofFile (f : Fs.File) : Program where
  elf := (fileReadi f 0 elfhdrSize).1 = elfhdrSize ∧ (elfhdr f).magic = elfMagic
  proghdrs := (List.range (elfhdr f).phnum).map (proghdr f)
  readi := fileReadi f
  readi_le := fileReadi_le f

/-- **`exec` reads what the file system has**: for an inode in memory, `readi` returns the bytes of
its file and changes nothing. -/
theorem readi_ofFile {sb : Fs.Superblock} {s : Fs.FsState} {i : ℕ} {e : Fs.Entry} (off n : ℕ)
    (hok : Fs.Ok sb s) (h : Fs.Held s i e) (hoff : off < 2 ^ 32) (hn : n < 2 ^ 32) :
    ∃ l : List UInt8, Fs.readi sb i (fun _ _ => true) off n s = .ok ((l.length, l), s) ∧
      l.length = ((Program.ofFile (s.file i)).readi off n).1 ∧
      ∀ k < l.length, l[k]? = some (((Program.ofFile (s.file i)).readi off n).2 k) := by
  have hsize : (s.file i).size = e.ino.size := congrArg Fs.Dinode.size h.inode_eq
  obtain ⟨r, hrun, hr⟩ := Fs.readi_spec hok h (fun _ _ => true) off n hoff hn
  rcases hr with rfl | ⟨-, t, m, hfalse⟩
  · refine ⟨_, by rw [List.length_map, List.length_range]; exact hrun, ?_, fun k hk => ?_⟩
    · rw [List.length_map, List.length_range, ← hsize]
      rfl
    · rw [List.length_map, List.length_range] at hk
      rw [List.getElem?_map, List.getElem?_range hk]
      rfl
  · cases hfalse

/-- A read that ends at the end of the file. -/
theorem readi_ofFile_eightBytes : ∃ d, Fs.eightBytes = .ok (8, d) ∧
    Fs.readi Fs.smallDisk 1 (fun _ _ => true) 2 64 d = .ok ((6, [9, 10, 11, 12, 13, 14]), d) ∧
    ((Program.ofFile (d.file 1)).readi 2 64).1 = 6 := by
  obtain ⟨⟨_, d⟩, hd, rfl, hread⟩ : ∃ r, Fs.eightBytes = .ok r ∧ r.1 = 8 ∧
      Ensures (Fs.readi Fs.smallDisk 1 (fun _ _ => true) 2 64 r.2) (fun _ => False) fun q =>
        q.1 = (6, [9, 10, 11, 12, 13, 14]) := Ensures.exists_ok (by decide +kernel)
  obtain ⟨hok, e, h⟩ := Fs.eightBytes_ok hd
  obtain ⟨l, hrun, hlen, -⟩ := readi_ofFile 2 64 hok h (by decide) (by decide)
  obtain rfl := (Prod.mk.inj (hread.of_ok hrun)).2
  exact ⟨d, hd, hrun, hlen.symm⟩

end Xv6
