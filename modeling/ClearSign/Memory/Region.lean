import ClearSign.Bytes

/-!
This module contains memory of a fixed size that is filled from the front. A region is rewound
without being cleared: what was written stays in the free part until it is written over.
-/

namespace ClearSign

/--
Memory with a position in it, as the bytes before and behind the position.
-/
structure Region where
  written : Bytes
  free : Bytes
  deriving DecidableEq, Repr

namespace Region

def ofMemory (memory : Bytes) : Region := ⟨[], memory⟩

def zeros (size : Nat) : Region := ofMemory (List.replicate size 0)

def memory (region : Region) : Bytes :=
  region.written ++ region.free

def capacity (region : Region) : Nat :=
  region.written.length + region.free.length

def write (region : Region) (data : Bytes) : Region :=
  ⟨region.written ++ data, region.free.drop data.length⟩

def rewind (region : Region) : Region :=
  ofMemory region.memory

@[simp]
theorem written_write (region : Region) (data : Bytes) :
    (region.write data).written = region.written ++ data := rfl

@[simp]
theorem capacity_ofMemory (memory : Bytes) : (ofMemory memory).capacity = memory.length := by
  simp [ofMemory, capacity]

@[simp]
theorem length_memory (region : Region) : region.memory.length = region.capacity := by
  simp [memory, capacity]

theorem capacity_write {region : Region} {data : Bytes} (h : data.length ≤ region.free.length) :
    (region.write data).capacity = region.capacity := by
  simp [write, capacity]; omega

@[simp]
theorem written_rewind (region : Region) : region.rewind.written = [] := rfl

@[simp]
theorem memory_rewind (region : Region) : region.rewind.memory = region.memory := rfl

@[simp]
theorem capacity_rewind (region : Region) : region.rewind.capacity = region.capacity := by
  simp [rewind]

end Region

end ClearSign
