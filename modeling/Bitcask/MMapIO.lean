import Bitcask.DataFile

/-!
# Memory-mapped and plain files

The two ways of reading and writing a file at offsets. A plain file is read and
written by the system (`FileIOManager`); a mapped one is made large enough, in pages,
and mapped anew when a write goes past the end of the mapping (`MMapIOManager`).

* As long as the file can be extended and mapped, the mapped file is the plain one,
  filled up with zeros (`Mirrors`), whatever is written.
* The mapping is given up before the file is extended: once extending or mapping has
  failed, nothing can be read any more (`read_of_not_grown`).
-/

namespace Bitcask

/-- The errors of reads and writes. -/
inductive Errno
  | badf
  | inval
  | nomem
deriving DecidableEq, Repr

/-! ## Plain files -/

/-- A file opened for plain reads and writes. -/
structure FileIOManager where
  content : Bytes
  isOpen : Bool := true

namespace FileIOManager

variable (f : FileIOManager)

/-- What `pread` reads: less than asked for at the end of the file. -/
def read (size : ℕ) (offset : ℤ) : Except Errno Bytes :=
  if !f.isOpen then .error .badf
  else if offset < 0 then .error .inval
  else .ok ((f.content.drop offset.toNat).take size)

def write (buf : Bytes) (offset : ℤ) : Except Errno ℕ × FileIOManager :=
  if !f.isOpen then (.error .badf, f)
  else if offset < 0 then (.error .inval, f)
  else (.ok buf.length, { f with content := overwrite f.content offset.toNat buf })

/-- Writes one after the other. -/
def writeAll (writes : List (Bytes × ℕ)) : FileIOManager :=
  writes.foldl (fun f w => (f.write w.1 w.2).2) f

variable {f} in
theorem write_of_isOpen (h : f.isOpen = true) (buf : Bytes) (offset : ℕ) :
    f.write buf offset = (.ok buf.length, { f with content := overwrite f.content offset buf }) := by
  rw [write, h]
  simp only [Bool.not_true, Bool.false_eq_true, if_false, Int.toNat_natCast]
  rw [if_neg (by omega)]

end FileIOManager

/-! ## Mapped files -/

/-- What `ftruncate` makes of a file. -/
def truncate (content : Bytes) (size : ℕ) : Bytes :=
  content.take size ++ List.replicate (size - content.length) 0

/-- Whether the calls that make room for a write succeed. -/
structure Room where
  extended : Bool
  mapped : Bool
deriving DecidableEq, Repr

/-- Room for whatever is written. -/
def Room.enough : Room := ⟨true, true⟩

/-- A file opened for mapped reads and writes. The mapping, if there is one, is of the
    first `mappedSize` bytes of the file and shares them. -/
structure MMapIOManager where
  content : Bytes
  mappedSize : Option ℕ
  isClosed : Bool := false

namespace MMapIOManager

/-- Maps a file that has been opened. An empty one is extended to a page. -/
def initMmap (content : Bytes) (room : Room) : Option MMapIOManager :=
  let fileSize := if content.length = 0 then pageSize else content.length
  if content.length = 0 ∧ !room.extended then none
  else if !room.mapped then none
  else some { content := truncate content fileSize, mappedSize := some fileSize }

variable (m : MMapIOManager)

def cleanupMmap : MMapIOManager := { m with mappedSize := none }

def extendFile (size : ℕ) (room : Room) : Bool × MMapIOManager :=
  if room.extended then (true, { m with content := truncate m.content size }) else (false, m)

def remap (newSize : ℕ) (room : Room) : Bool × MMapIOManager :=
  let (extended, m) := m.cleanupMmap.extendFile newSize room
  if !extended then (false, m)
  else if !room.mapped then (false, m)
  else (true, { m with mappedSize := some newSize })

def read (size : ℕ) (offset : ℤ) : Except Errno Bytes :=
  match m.mappedSize with
  | none => .error .badf
  | some mappedSize =>
    if m.isClosed then .error .badf
    else if offset < 0 then .error .inval
    else if mappedSize ≤ offset.toNat then .ok []
    else .ok ((m.content.drop offset.toNat).take (min size (mappedSize - offset.toNat)))

/-- Writes into the mapping, which is large enough by then. -/
def store (buf : Bytes) (offset : ℕ) : MMapIOManager :=
  { m with content := overwrite m.content offset buf }

def write (buf : Bytes) (offset : ℤ) (room : Room) : Except Errno ℕ × MMapIOManager :=
  match m.mappedSize with
  | none => (.error .badf, m)
  | some mappedSize =>
    if m.isClosed then (.error .badf, m)
    else if offset < 0 then (.error .inval, m)
    else
      let requiredSize := offset.toNat + buf.length
      if mappedSize < requiredSize then
        let (remapped, m) := m.remap (roundUpToPage requiredSize) room
        if remapped then (.ok buf.length, m.store buf offset.toNat) else (.error .nomem, m)
      else (.ok buf.length, m.store buf offset.toNat)

/-! ## Mirrors -/

/-- The mapped file is the plain one, filled up with zeros, and all of it is mapped. -/
structure Mirrors (m : MMapIOManager) (f : FileIOManager) : Prop where
  isOpen : f.isOpen = true
  notClosed : m.isClosed = false
  mappedSize_eq : m.mappedSize = some m.content.length
  content_eq : ∃ zeros, m.content = f.content ++ List.replicate zeros 0

theorem length_truncate (content : Bytes) (size : ℕ) : (truncate content size).length = size := by
  rw [truncate, List.length_append, List.length_take, List.length_replicate]
  omega

theorem truncate_of_le {content : Bytes} {size : ℕ} (h : content.length ≤ size) :
    truncate content size = content ++ List.replicate (size - content.length) 0 := by
  rw [truncate, List.take_of_length_le h]

theorem initMmap_mirrors (content : Bytes) :
    ∃ m, initMmap content .enough = some m ∧ Mirrors m ⟨content, true⟩ ∧
      content.length ≤ m.content.length := by
  have hle : content.length ≤ if content.length = 0 then pageSize else content.length := by
    split <;> omega
  have hinit : initMmap content .enough = some
      { content := truncate content (if content.length = 0 then pageSize else content.length)
        mappedSize := some (if content.length = 0 then pageSize else content.length) } := by
    simp [initMmap, Room.enough]
  refine ⟨_, hinit, ⟨rfl, rfl, ?_, _, truncate_of_le hle⟩, ?_⟩
  · rw [length_truncate]
  · rw [length_truncate]
    exact hle

variable {m} {f : FileIOManager}

/-- What is read within the plain file is read from the mapped one. -/
theorem Mirrors.read_eq (h : Mirrors m f) {size offset : ℕ} (hle : offset + size ≤ f.content.length) :
    m.read size offset = f.read size offset := by
  obtain ⟨zeros, hcontent⟩ := h.content_eq
  have hlen : m.content.length = f.content.length + zeros := by
    rw [hcontent, List.length_append, List.length_replicate]
  rw [read, h.mappedSize_eq, FileIOManager.read, h.isOpen]
  simp only [h.notClosed, Int.toNat_natCast, Bool.not_true, Bool.false_eq_true, if_false]
  rw [if_neg (by omega)]
  split
  · next hend =>
    rw [if_neg (by omega), List.drop_eq_nil_of_le (by omega), List.take_nil]
  · rw [if_neg (by omega), hcontent, List.drop_append_of_le_length (by omega),
      List.take_append_of_le_length (by rw [List.length_drop]; omega)]
    congr 2
    rw [List.length_append, List.length_replicate]
    omega

/-- Writing before the end of the zeros that fill a file up. -/
theorem overwrite_zeros {content buf : Bytes} {offset zeros : ℕ}
    (h : offset + buf.length ≤ content.length + zeros) :
    ∃ zeros', overwrite (content ++ List.replicate zeros 0) offset buf =
      overwrite content offset buf ++ List.replicate zeros' 0 := by
  rcases Nat.lt_or_ge content.length (offset + buf.length) with hlt | hle
  · by_cases hbuf : buf = []
    · exact ⟨zeros, by rw [overwrite, if_pos hbuf, overwrite, if_pos hbuf]⟩
    · refine ⟨zeros - (offset + buf.length - content.length), ?_⟩
      have htake : (content ++ List.replicate zeros (0 : UInt8)).take offset =
          content.take offset ++ List.replicate (offset - content.length) 0 := by
        rw [List.take_append, List.take_replicate, Nat.min_eq_left (by omega)]
      have hgap : offset - (content ++ List.replicate zeros (0 : UInt8)).length = 0 := by
        rw [List.length_append, List.length_replicate]
        omega
      rw [overwrite, if_neg hbuf, overwrite, if_neg hbuf, htake, hgap, List.drop_append,
        List.drop_replicate, List.drop_eq_nil_of_le (by omega : content.length ≤ _)]
      simp
  · exact ⟨zeros, overwrite_append_right hle _⟩

theorem le_roundUpToPage (size : ℕ) : size ≤ roundUpToPage size := by
  unfold roundUpToPage pageSize
  omega

/-- The mapped file after a write, if there is room for it. -/
theorem write_of_mapped (hclosed : m.isClosed = false) (hmapped : m.mappedSize = some m.content.length)
    (buf : Bytes) (offset : ℕ) :
    ∃ zeros, offset + buf.length ≤ m.content.length + zeros ∧
      m.write buf offset .enough = (.ok buf.length,
        { content := overwrite (m.content ++ List.replicate zeros 0) offset buf
          mappedSize := some (m.content.length + zeros)
          isClosed := false }) := by
  obtain ⟨content, mappedSize, isClosed⟩ := m
  simp only at hclosed hmapped
  subst hclosed hmapped
  rw [write]
  simp only [Bool.false_eq_true, if_false, Int.toNat_natCast]
  rw [if_neg (by omega)]
  split
  · next hlt =>
    have hround := le_roundUpToPage (offset + buf.length)
    have hzeros : content.length + (roundUpToPage (offset + buf.length) - content.length) =
        roundUpToPage (offset + buf.length) := by omega
    refine ⟨roundUpToPage (offset + buf.length) - content.length, by omega, ?_⟩
    rw [hzeros]
    rw [← truncate_of_le (by omega)]
    simp [remap, extendFile, cleanupMmap, Room.enough, store]
  · exact ⟨0, by omega, by simp [store]⟩

theorem Mirrors.write (h : Mirrors m f) (buf : Bytes) (offset : ℕ) :
    Mirrors (m.write buf offset .enough).2 (f.write buf offset).2 ∧
      m.content.length ≤ (m.write buf offset .enough).2.content.length ∧
      offset + buf.length ≤ (m.write buf offset .enough).2.content.length := by
  obtain ⟨zeros, hle, hwrite⟩ := write_of_mapped h.notClosed h.mappedSize_eq buf offset
  obtain ⟨zeros₀, hcontent⟩ := h.content_eq
  have hlen : (overwrite (m.content ++ List.replicate zeros 0) offset buf).length =
      m.content.length + zeros := by
    rw [length_overwrite_of_le, List.length_append, List.length_replicate]
    rwa [List.length_append, List.length_replicate]
  rw [hwrite, hlen]
  refine ⟨⟨?_, rfl, by rw [hlen], ?_⟩, Nat.le_add_right _ _, hle⟩
  · rw [FileIOManager.write_of_isOpen h.isOpen]
    exact h.isOpen
  · rw [FileIOManager.write_of_isOpen h.isOpen]
    rw [hcontent, List.append_assoc, List.replicate_append_replicate]
    refine overwrite_zeros ?_
    rw [hcontent, List.length_append, List.length_replicate] at hle
    omega

/-! ## Runs -/

/-- Writes one after the other, with room for all of them. -/
def writeAll (m : MMapIOManager) (writes : List (Bytes × ℕ)) : MMapIOManager :=
  writes.foldl (fun m w => (m.write w.1 w.2 .enough).2) m

theorem writeAll_append (m : MMapIOManager) (before after : List (Bytes × ℕ)) :
    m.writeAll (before ++ after) = (m.writeAll before).writeAll after :=
  List.foldl_append

/-- The largest end of bytes that have been written. -/
def writtenEnd : List (Bytes × ℕ) → ℕ
  | [] => 0
  | w :: writes => max (if w.1 = [] then 0 else w.2 + w.1.length) (writtenEnd writes)

theorem length_overwrite (content buf : Bytes) (offset : ℕ) :
    (overwrite content offset buf).length =
      max content.length (if buf = [] then 0 else offset + buf.length) := by
  rw [overwrite]
  split
  · omega
  · simp only [List.length_append, List.length_take, List.length_replicate, List.length_drop]
    omega

theorem length_writeAll (h : f.isOpen = true) (writes : List (Bytes × ℕ)) :
    (f.writeAll writes).content.length = max f.content.length (writtenEnd writes) := by
  induction writes generalizing f with
  | nil => exact (Nat.max_zero _).symm
  | cons w writes ih =>
    rw [FileIOManager.writeAll, List.foldl_cons, ← FileIOManager.writeAll,
      FileIOManager.write_of_isOpen h, ih (by exact h), length_overwrite, writtenEnd, Nat.max_assoc]

theorem Mirrors.writeAll (h : Mirrors m f) (writes : List (Bytes × ℕ)) :
    Mirrors (m.writeAll writes) (f.writeAll writes) ∧
      m.content.length ≤ (m.writeAll writes).content.length ∧
      writtenEnd writes ≤ (m.writeAll writes).content.length := by
  induction writes generalizing m f with
  | nil => exact ⟨h, le_rfl, Nat.zero_le _⟩
  | cons w writes ih =>
    obtain ⟨hmirrors, hlength, hend⟩ := h.write w.1 w.2
    obtain ⟨hmirrors', hlength', hend'⟩ := ih hmirrors
    refine ⟨hmirrors', hlength.trans hlength', max_le ?_ hend'⟩
    split
    · exact Nat.zero_le _
    · exact hend.trans hlength'

/-- Whatever is written, with room for it, is read back from the mapping as from the plain
    file; the mapping is always of the whole file, holds what has been written and never
    gets smaller. -/
theorem writeAll_eq (content : Bytes) (writes : List (Bytes × ℕ)) :
    ∃ m, initMmap content .enough = some m ∧
      (∀ size offset : ℕ, offset + size ≤ max content.length (writtenEnd writes) →
        (m.writeAll writes).read size offset =
          (FileIOManager.writeAll ⟨content, true⟩ writes).read size offset) ∧
      ∃ n, (m.writeAll writes).mappedSize = some n ∧ n = (m.writeAll writes).content.length ∧
        content.length ≤ n ∧ writtenEnd writes ≤ n ∧
        ∀ before after, writes = before ++ after →
          ∃ n₀, (m.writeAll before).mappedSize = some n₀ ∧ n₀ ≤ n := by
  obtain ⟨m, hinit, hmirrors, hlength⟩ := initMmap_mirrors content
  obtain ⟨hall, hlength', hend⟩ := hmirrors.writeAll writes
  refine ⟨m, hinit, fun size offset hle => hall.read_eq ?_, _, hall.mappedSize_eq, rfl,
    hlength.trans hlength', hend, ?_⟩
  · rwa [length_writeAll rfl]
  · rintro before after rfl
    obtain ⟨hbefore, -⟩ := hmirrors.writeAll before
    refine ⟨_, hbefore.mappedSize_eq, ?_⟩
    rw [writeAll_append]
    exact (hbefore.writeAll after).2.1

example : writtenEnd [([1, 2], 5), ([], 100), ([3], 2)] = 7 := by decide

/-! ## Failures -/

/-- What could be read is read as before. -/
def KeepsReads (m m' : MMapIOManager) : Prop :=
  ∀ size offset bytes, m.read size offset = .ok bytes → m'.read size offset = .ok bytes

/-- After a write that has found no room, there is no mapping. -/
theorem write_of_not_grown {n : ℕ} {buf : Bytes} {offset : ℤ} {room : Room}
    (hclosed : m.isClosed = false) (hmapped : m.mappedSize = some n) (hoffset : 0 ≤ offset)
    (hgrow : n < offset.toNat + buf.length) (hroom : room ≠ .enough) :
    (m.write buf offset room).1 = .error .nomem ∧ (m.write buf offset room).2.mappedSize = none := by
  have hremap : (m.remap (roundUpToPage (offset.toNat + buf.length)) room).1 = false ∧
      (m.remap (roundUpToPage (offset.toNat + buf.length)) room).2.mappedSize = none := by
    obtain ⟨extended, mapped⟩ := room
    rw [remap]
    cases extended
    · exact ⟨rfl, rfl⟩
    · cases mapped
      · exact ⟨rfl, rfl⟩
      · exact absurd rfl hroom
  rw [write, hmapped]
  simp only [hclosed, Bool.false_eq_true, if_false]
  rw [if_neg (not_lt.2 hoffset), if_pos hgrow, hremap.1]
  exact ⟨rfl, hremap.2⟩

/-- A write that finds no room makes every read fail, also those that succeeded before. -/
theorem not_keepsReads_of_not_grown {n : ℕ} {buf : Bytes} {offset : ℤ} {room : Room}
    (hclosed : m.isClosed = false) (hmapped : m.mappedSize = some n) (hoffset : 0 ≤ offset)
    (hgrow : n < offset.toNat + buf.length) (hroom : room ≠ .enough) :
    (m.write buf offset room).1 = .error .nomem ∧
      (∀ size offset', (m.write buf offset room).2.read size offset' = .error .badf) ∧
      ¬m.KeepsReads (m.write buf offset room).2 := by
  obtain ⟨hresult, hnone⟩ := write_of_not_grown hclosed hmapped hoffset hgrow hroom
  have hfails (size : ℕ) (offset' : ℤ) :
      (m.write buf offset room).2.read size offset' = .error .badf := by
    rw [read, hnone]
  have hread : ∃ bytes, m.read 0 0 = .ok bytes := by
    rw [read, hmapped]
    simp only [hclosed, Bool.false_eq_true, if_false]
    split
    · contradiction
    · split
      · exact ⟨_, rfl⟩
      · exact ⟨_, rfl⟩
  refine ⟨hresult, hfails, fun hkeeps => ?_⟩
  obtain ⟨bytes, hbytes⟩ := hread
  have := hkeeps 0 0 bytes hbytes
  rw [hfails] at this
  cases this

/-- Three bytes, mapped. -/
def threeBytes : MMapIOManager := { content := [1, 2, 3], mappedSize := some 3 }

theorem not_keepsReads_threeBytes :
    (threeBytes.write [4] 3 ⟨false, true⟩).1 = .error .nomem ∧
      (∀ size offset', (threeBytes.write [4] 3 ⟨false, true⟩).2.read size offset' = .error .badf) ∧
      ¬threeBytes.KeepsReads (threeBytes.write [4] 3 ⟨false, true⟩).2 :=
  not_keepsReads_of_not_grown rfl rfl (by decide) (by decide) (by decide)

/-- The disk is full: the file cannot be extended, and its three bytes cannot be read. -/
theorem not_forall_keepsReads : ¬∀ (m : MMapIOManager) (buf : Bytes) (offset : ℤ) (room : Room) (n : ℕ),
    m.mappedSize = some n → n < offset.toNat + buf.length →
      (m.write buf offset room).1 = .error .nomem → m.KeepsReads (m.write buf offset room).2 := by
  intro h
  have := h threeBytes [4] 3 ⟨false, true⟩ 3 rfl (by decide) (by decide) 3 0 [1, 2, 3] (by decide)
  revert this
  decide

end MMapIOManager

end Bitcask
