import Mathlib.Data.List.AList
import Mathlib.Data.List.Sort
import Bitcask.Library.LittleEndian

/-!
# Common types

The constants and types shared by the whole store: byte strings, the types of
log records, the exceptions, the options of a database. Sizes and offsets are
natural numbers; where the store keeps one in fewer bits, the truncation is
written out.
-/

namespace Bitcask

/-- A byte string: a key, a value, the contents of a file. -/
abbrev Bytes := List UInt8

/-- Keys in strictly ascending order. -/
abbrev SortedKeys (keys : List Bytes) : Prop := keys.Pairwise fun a b => compare a b = .lt

theorem SortedKeys.eq_of_mem_iff {keys keys' : List Bytes} (h : SortedKeys keys)
    (h' : SortedKeys keys') (hmem : ∀ k, k ∈ keys ↔ k ∈ keys') : keys = keys' := by
  have : Std.Irrefl fun a b : Bytes => compare a b = .lt := ⟨fun a h => by simp at h⟩
  have : Std.Antisymm fun a b : Bytes => compare a b = .lt := by
    refine ⟨fun a b hab hba => ?_⟩
    rw [← Std.OrientedCmp.gt_iff_lt, hab] at hba
    cases hba
  exact List.Pairwise.eq_of_mem_iff h h' hmem

/-- A directory path. -/
abbrev Path := List Char

/-- The id of the first data file. -/
def initialFileId : ℕ := 0

/-- The sequence number of a write that is not part of a transaction. -/
def nonTransactionSeqNo : ℕ := 0

/-- The bytes read for the header of a log record. -/
def maxLogRecordHeaderSize : ℕ := 15

/-- The size from which on a key or value is taken for garbage: 64 MiB. -/
def maxRecordSize : ℕ := 64 * 1024 * 1024

def mergeDirSuffix : Path := "-merge".toList

def mergeFinishedKey : Bytes := [109, 101, 114, 103, 101, 46, 102, 105, 110, 105, 115, 104, 101, 100]

/-- The sequence numbers are of 64 bits. -/
def seqNoBound : ℕ := 2 ^ 64

/-- The type of a log record. The enumeration is one of bytes, and the type of a
    record read from a file is any byte. -/
structure LogRecordType where
  toByte : UInt8
deriving DecidableEq, Repr

namespace LogRecordType

def normal : LogRecordType := ⟨1⟩
def deleted : LogRecordType := ⟨2⟩
def txnFinished : LogRecordType := ⟨3⟩

theorem normal_ne_deleted : normal ≠ deleted := by decide

end LogRecordType

/-- The implementations of file I/O. -/
inductive IOType
  | standardFio
  | memoryMap
deriving DecidableEq, Repr

/-- The exceptions the store throws, and the end of the process (`terminated`) by one that leaves
    a destructor, which no handler sees. -/
inductive Exn
  | bitcask (message : String)
  | runtimeError (message : String)
  | keyEmpty
  | keyNotFound
  | dataFileNotFound
  | invalidCRC
  | indexUpdateFailed
  | readDataFileEOF
  | mergeInProgress
  | mergeRatioUnreached
  | noEnoughSpaceForMerge
  | terminated
deriving DecidableEq, Repr

/-- The text of an exception. -/
def Exn.what : Exn → String
  | bitcask message => message
  | runtimeError message => message
  | keyEmpty => "Key is empty"
  | keyNotFound => "Key not found"
  | dataFileNotFound => "Data file not found"
  | invalidCRC => "Invalid CRC value, log record may be corrupted"
  | indexUpdateFailed => "Failed to update index"
  | readDataFileEOF => "Read data file EOF"
  | mergeInProgress => "Merge is in progress"
  | mergeRatioUnreached => "Merge ratio unreached"
  | noEnoughSpaceForMerge => "No enough space for merge"
  | terminated => "terminate called"

/-- The options of a database. -/
structure Options where
  dirPath : Path
  dataFileSize : ℕ
  mmapAtStartup : Bool
deriving DecidableEq, Repr

/-- The options of a write batch. -/
structure WriteBatchOptions where
  maxBatchNum : ℕ
deriving DecidableEq, Repr

end Bitcask
