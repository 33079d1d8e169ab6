import ClearSign.Proofs.Memory.TieredBuffer

/-!
This module contains the proof that the bytes which a rewind leaves behind in memory do not matter:
buffers that differ in nothing else answer alike and stay alike.
-/

namespace ClearSign

namespace Region

structure Alike (region other : Region) : Prop where
  written : region.written = other.written
  room : region.free.length = other.free.length

theorem Alike.capacity_eq {region other : Region} (h : region.Alike other) :
    region.capacity = other.capacity := by
  rw [capacity, capacity, h.written, h.room]

theorem alike_rewind {region other : Region} (h : region.capacity = other.capacity) :
    region.rewind.Alike other.rewind := by
  constructor
  · rfl
  · simpa [rewind, ofMemory] using h

theorem Alike.write {region other : Region} (h : region.Alike other) (data : Bytes) :
    (region.write data).Alike (other.write data) := by
  constructor
  · rw [written_write, written_write, h.written]
  · simp only [Region.write, List.length_drop, h.room]

end Region

namespace TieredBuffer

structure Alike (buffer other : TieredBuffer) : Prop where
  ram : buffer.ram.Alike other.ram
  flash : buffer.flash.Alike other.flash
  inFlash : buffer.inFlash = other.inFlash

theorem Alike.contents_eq {buffer other : TieredBuffer} (h : buffer.Alike other) :
    buffer.contents = other.contents := by
  rw [contents, contents, h.inFlash, h.ram.written, h.flash.written]

theorem Alike.tiers_eq {buffer other : TieredBuffer} (h : buffer.Alike other) :
    buffer.tiers = other.tiers := by
  rw [tiers, tiers, h.ram.capacity_eq, h.flash.capacity_eq]

theorem alike_rewind {buffer other : TieredBuffer} (h : buffer.tiers = other.tiers) :
    buffer.rewind.Alike other.rewind := by
  simp only [tiers, Prod.mk.injEq] at h
  exact ⟨Region.alike_rewind h.1, Region.alike_rewind h.2, rfl⟩

theorem Alike.append {buffer other : TieredBuffer} (h : buffer.Alike other) (data : Bytes) :
    (∃ full, buffer.append data = .error full ∧ other.append data = .error full) ∨
      ∃ after otherAfter, buffer.append data = .ok after ∧ other.append data = .ok otherAfter ∧
        after.Alike otherAfter := by
  have hram := h.ram.room
  have hflash := h.flash.room
  unfold TieredBuffer.append
  rw [h.inFlash, h.ram.written, h.flash.capacity_eq, hram, hflash]
  split
  · dsimp only
    split
    · exact .inl ⟨_, rfl, rfl⟩
    · exact .inr ⟨_, _, rfl, rfl, h.ram, h.flash.write data, rfl⟩
  · split
    · exact .inr ⟨_, _, rfl, rfl, h.ram.write data, h.flash, rfl⟩
    · dsimp only
      split
      · exact .inl ⟨_, rfl, rfl⟩
      · have hmoved := (Region.alike_rewind h.flash.capacity_eq).write other.ram.written
        exact .inr ⟨_, _, rfl, rfl, Region.alike_rewind h.ram.capacity_eq, hmoved.write data, rfl⟩

end TieredBuffer

end ClearSign
