import ClearSign.Memory.Region

/-!
This module contains the buffer in which a request is put together from chunks. Chunks go to the
fast tier while they fit there. The first one that does not moves everything to the persistent tier,
which then stays in use until the buffer is rewound.
-/

namespace ClearSign

structure TieredBuffer where
  ram : Region
  flash : Region
  inFlash : Bool
  deriving DecidableEq, Repr

namespace TieredBuffer

structure NoRoom where
  needed : Nat
  available : Nat
  deriving DecidableEq, Repr

def fresh (ramSize flashSize : Nat) : TieredBuffer where
  ram := .zeros ramSize
  flash := .zeros flashSize
  inFlash := false

def contents (buffer : TieredBuffer) : Bytes :=
  if buffer.inFlash then buffer.flash.written else buffer.ram.written

def length (buffer : TieredBuffer) : Nat :=
  buffer.contents.length

def isEmpty (buffer : TieredBuffer) : Bool :=
  buffer.length == 0

def capacity (buffer : TieredBuffer) : Nat :=
  max buffer.ram.capacity buffer.flash.capacity

def rewind (buffer : TieredBuffer) : TieredBuffer where
  -- Both tiers keep their bytes, but those are never read again.
  ram := buffer.ram.rewind
  flash := buffer.flash.rewind
  inFlash := false

def append (buffer : TieredBuffer) (data : Bytes) : Except NoRoom TieredBuffer :=
  if buffer.inFlash then
    let available := buffer.flash.free.length
    if available < data.length then .error ⟨data.length, available⟩
    else .ok { buffer with flash := buffer.flash.write data }
  else if data.length ≤ buffer.ram.free.length then
    .ok { buffer with ram := buffer.ram.write data }
  else
    let needed := buffer.ram.written.length + data.length
    if needed > buffer.flash.capacity then .error ⟨needed, buffer.flash.capacity⟩
    else .ok
      { ram := buffer.ram.rewind
        flash := (buffer.flash.rewind.write buffer.ram.written).write data
        inFlash := true }

@[simp]
theorem contents_rewind (buffer : TieredBuffer) : buffer.rewind.contents = [] := rfl

@[simp]
theorem capacity_rewind (buffer : TieredBuffer) : buffer.rewind.capacity = buffer.capacity := by
  simp [rewind, capacity]

end TieredBuffer

end ClearSign
