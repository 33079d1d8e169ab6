import ClearSign.Memory.TieredBuffer

/-!
This module contains the proof that a buffer of two tiers is a list of bytes with a bound. Whoever
appends to it sees neither the tiers nor how the data was cut into chunks.
-/

namespace ClearSign.TieredBuffer

def Valid (buffer : TieredBuffer) : Prop :=
  buffer.inFlash → buffer.ram.capacity < buffer.flash.written.length

theorem valid_fresh (ramSize flashSize : Nat) : (fresh ramSize flashSize).Valid := by
  intro h
  cases h

theorem valid_rewind (buffer : TieredBuffer) : buffer.rewind.Valid := by
  intro h
  cases h

@[simp]
theorem capacity_fresh (ramSize flashSize : Nat) :
    (fresh ramSize flashSize).capacity = max ramSize flashSize := by
  simp [fresh, capacity, Region.zeros]

theorem append_eq_ok {buffer after : TieredBuffer} (h : buffer.append data = .ok after) :
    (buffer.inFlash ∧ data.length ≤ buffer.flash.free.length ∧
        after = { buffer with flash := buffer.flash.write data }) ∨
      (buffer.inFlash = false ∧ data.length ≤ buffer.ram.free.length ∧
        after = { buffer with ram := buffer.ram.write data }) ∨
      (buffer.inFlash = false ∧ buffer.ram.free.length < data.length ∧
        buffer.ram.written.length + data.length ≤ buffer.flash.capacity ∧
        after =
          { ram := buffer.ram.rewind
            flash := (buffer.flash.rewind.write buffer.ram.written).write data
            inFlash := true }) := by
  unfold append at h
  split at h
  · next hflash =>
    dsimp only at h
    split at h
    · contradiction
    · cases h
      exact .inl ⟨hflash, by omega, rfl⟩
  · next hflash =>
    rw [Bool.not_eq_true] at hflash
    split at h
    · next hroom =>
      cases h
      exact .inr (.inl ⟨hflash, hroom, rfl⟩)
    · next hroom =>
      dsimp only at h
      split at h
      · contradiction
      · cases h
        exact .inr (.inr ⟨hflash, by omega, by omega, rfl⟩)

theorem contents_of_append {buffer after : TieredBuffer} (h : buffer.append data = .ok after) :
    after.contents = buffer.contents ++ data := by
  rcases append_eq_ok h with ⟨hflash, -, rfl⟩ | ⟨hflash, -, rfl⟩ | ⟨hflash, -, -, rfl⟩
  · simp [contents, hflash]
  · simp [contents, hflash]
  · simp [contents, hflash]

def tiers (buffer : TieredBuffer) : Nat × Nat :=
  (buffer.ram.capacity, buffer.flash.capacity)

@[simp]
theorem tiers_fresh (ramSize flashSize : Nat) :
    (fresh ramSize flashSize).tiers = (ramSize, flashSize) := by
  simp [fresh, tiers, Region.zeros]

@[simp]
theorem tiers_rewind (buffer : TieredBuffer) : buffer.rewind.tiers = buffer.tiers := by
  simp [rewind, tiers]

theorem tiers_of_append {buffer after : TieredBuffer} (h : buffer.append data = .ok after) :
    after.tiers = buffer.tiers := by
  rcases append_eq_ok h with ⟨-, hroom, rfl⟩ | ⟨-, hroom, rfl⟩ | ⟨-, hfull, hroom, rfl⟩
  · simp [tiers, Region.capacity_write hroom]
  · simp [tiers, Region.capacity_write hroom]
  · have hmoved : (buffer.flash.rewind.write buffer.ram.written).capacity =
        buffer.flash.capacity := by
      rw [Region.capacity_write, Region.capacity_rewind]
      simp only [Region.rewind, Region.ofMemory, Region.length_memory]
      omega
    have hwritten : ((buffer.flash.rewind.write buffer.ram.written).write data).capacity =
        buffer.flash.capacity := by
      rw [Region.capacity_write, hmoved]
      simp only [Region.write, Region.rewind, Region.ofMemory, List.length_drop,
        Region.length_memory]
      omega
    simp [tiers, hwritten]

theorem length_contents_le (buffer : TieredBuffer) : buffer.contents.length ≤ buffer.capacity := by
  unfold contents capacity Region.capacity
  split
  all_goals omega

theorem capacity_eq_of_tiers {buffer other : TieredBuffer} (h : buffer.tiers = other.tiers) :
    buffer.capacity = other.capacity := by
  simp only [tiers, Prod.mk.injEq] at h
  rw [capacity, capacity, h.1, h.2]

theorem capacity_of_append {buffer after : TieredBuffer} (h : buffer.append data = .ok after) :
    after.capacity = buffer.capacity :=
  capacity_eq_of_tiers (tiers_of_append h)

theorem valid_of_append {buffer after : TieredBuffer} (hvalid : buffer.Valid)
    (h : buffer.append data = .ok after) : after.Valid := by
  intro hafter
  rcases append_eq_ok h with ⟨hflash, -, rfl⟩ | ⟨hflash, -, rfl⟩ | ⟨hflash, hfull, -, rfl⟩
  · have hspilled := hvalid hflash
    simp only [Region.written_write, List.length_append]
    omega
  · rw [hflash] at hafter
    contradiction
  · simp only [Region.capacity_rewind, Region.written_write, Region.written_rewind,
      List.nil_append, List.length_append]
    simp only [Region.capacity]
    omega

theorem append_isOk_iff {buffer : TieredBuffer} (hvalid : buffer.Valid) (data : Bytes) :
    (∃ after, buffer.append data = .ok after) ↔
      buffer.contents.length + data.length ≤ buffer.capacity := by
  constructor
  · rintro ⟨after, h⟩
    rcases append_eq_ok h with ⟨hflash, hroom, -⟩ | ⟨hflash, hroom, -⟩ | ⟨hflash, -, hroom, -⟩
    all_goals
      simp only [contents, hflash, capacity, Region.capacity] at hroom ⊢
      simp
      omega
  · intro hroom
    unfold append
    split
    · next hflash =>
      have hspilled := hvalid hflash
      simp only [contents, hflash, if_true, capacity, Region.capacity] at hspilled hroom
      dsimp only
      rw [if_neg (by omega)]
      exact ⟨_, rfl⟩
    · next hflash =>
      simp only [contents, hflash, Bool.false_eq_true, if_false, capacity] at hroom
      split
      · exact ⟨_, rfl⟩
      · next hfull =>
        have hspill : ¬buffer.ram.written.length + data.length > buffer.flash.capacity := by
          simp only [Region.capacity] at hroom ⊢
          omega
        dsimp only
        rw [if_neg hspill]
        exact ⟨_, rfl⟩

end ClearSign.TieredBuffer
