import ClearSign.Proofs.Memory.Leftover

/-!
This module contains the proof that a buffer of two tiers is a bounded list of bytes through any
sequence of appends and rewinds: the tiers are chosen by the length alone, and nobody can tell how
the bytes were cut into chunks.
-/

namespace ClearSign.TieredBuffer

def ofMemory (ram flash : Bytes) : TieredBuffer where
  ram := .ofMemory ram
  flash := .ofMemory flash
  inFlash := false

inductive Operation where
  | append (data : Bytes)
  | rewind
  deriving DecidableEq, Repr

def step (buffer : TieredBuffer) : Operation → TieredBuffer
  | .append data =>
    match buffer.append data with
    | .ok after => after
    | .error _ => buffer
  | .rewind => buffer.rewind

def run (buffer : TieredBuffer) (operations : List Operation) : TieredBuffer :=
  operations.foldl step buffer

def refusal? (buffer : TieredBuffer) : Operation → Option NoRoom
  | .append data =>
    match buffer.append data with
    | .ok _ => none
    | .error full => some full
  | .rewind => none

/--
The chunks that a buffer has taken since it was rewound, if it had taken `chunks` before.
-/
def taken (buffer : TieredBuffer) (chunks : List Bytes) : List Operation → List Bytes
  | [] => chunks
  | .append data :: operations =>
    match buffer.append data with
    | .ok after => after.taken (chunks ++ [data]) operations
    | .error _ => buffer.taken chunks operations
  | .rewind :: operations => buffer.rewind.taken [] operations

structure View where
  contents : Bytes
  length : Nat
  isEmpty : Bool
  capacity : Nat
  inFlash : Bool
  deriving DecidableEq, Repr

def view (buffer : TieredBuffer) : View where
  contents := buffer.contents
  length := buffer.length
  isEmpty := buffer.isEmpty
  capacity := buffer.capacity
  inFlash := buffer.inFlash

def views (buffer : TieredBuffer) : List Operation → List (Option NoRoom × View)
  | [] => [(none, buffer.view)]
  | operation :: operations =>
    (buffer.refusal? operation, buffer.view) :: (buffer.step operation).views operations

structure Settled (buffer : TieredBuffer) : Prop where
  flash : buffer.inFlash = false → buffer.flash.written = []
  ram : buffer.inFlash → buffer.ram.written = []
  valid : buffer.Valid

theorem step_of_ok {buffer after : TieredBuffer} (h : buffer.append data = .ok after) :
    buffer.step (.append data) = after ∧ buffer.refusal? (.append data) = none := by
  simp only [step, refusal?, h, and_self]

theorem step_of_error {buffer : TieredBuffer} (h : buffer.append data = .error full) :
    buffer.step (.append data) = buffer ∧ buffer.refusal? (.append data) = some full := by
  simp only [step, refusal?, h, and_self]

theorem step_cases (buffer : TieredBuffer) (operation : Operation) :
    (∃ data, operation = .append data ∧ buffer.append data = .ok (buffer.step operation)) ∨
      buffer.step operation = buffer ∨ operation = .rewind := by
  cases operation with
  | append data =>
    cases happend : buffer.append data with
    | ok after =>
      rw [(step_of_ok happend).1]
      exact .inl ⟨data, rfl, happend⟩
    | error full => exact .inr (.inl (step_of_error happend).1)
  | rewind => exact .inr (.inr rfl)

@[simp]
theorem tiers_ofMemory (ram flash : Bytes) :
    (ofMemory ram flash).tiers = (ram.length, flash.length) := by
  simp [ofMemory, tiers]

theorem settled_ofMemory (ram flash : Bytes) : (ofMemory ram flash).Settled where
  flash _ := rfl
  ram _ := rfl
  valid := nofun

theorem settled_rewind (buffer : TieredBuffer) : buffer.rewind.Settled where
  flash _ := rfl
  ram _ := rfl
  valid := valid_rewind buffer

theorem settled_of_append {buffer after : TieredBuffer} (hsettled : buffer.Settled)
    (h : buffer.append data = .ok after) : after.Settled := by
  have hvalid := valid_of_append hsettled.valid h
  rcases append_eq_ok h with ⟨hflash, -, rfl⟩ | ⟨hflash, -, rfl⟩ | ⟨hflash, -, -, rfl⟩
  · exact ⟨fun hram => absurd (hflash.symm.trans hram) (by decide), hsettled.ram, hvalid⟩
  · exact ⟨hsettled.flash, fun hafter => absurd (hflash.symm.trans hafter) (by decide), hvalid⟩
  · exact ⟨nofun, fun _ => rfl, hvalid⟩

theorem settled_step {buffer : TieredBuffer} (h : buffer.Settled) (operation : Operation) :
    (buffer.step operation).Settled := by
  rcases step_cases buffer operation with ⟨data, -, happend⟩ | hsame | rfl
  · exact settled_of_append h happend
  · rw [hsame]
    exact h
  · exact settled_rewind buffer

theorem settled_run {buffer : TieredBuffer} (h : buffer.Settled) (operations : List Operation) :
    (buffer.run operations).Settled := by
  induction operations generalizing buffer with
  | nil => exact h
  | cons operation operations ih => exact ih (settled_step h operation)

theorem tiers_step (buffer : TieredBuffer) (operation : Operation) :
    (buffer.step operation).tiers = buffer.tiers := by
  rcases step_cases buffer operation with ⟨data, -, happend⟩ | hsame | rfl
  · exact tiers_of_append happend
  · rw [hsame]
  · exact tiers_rewind buffer

theorem tiers_run (buffer : TieredBuffer) (operations : List Operation) :
    (buffer.run operations).tiers = buffer.tiers := by
  induction operations generalizing buffer with
  | nil => rfl
  | cons operation operations ih => exact (ih _).trans (tiers_step buffer operation)

theorem contents_run {buffer : TieredBuffer} (h : buffer.contents = chunks.flatten)
    (operations : List Operation) :
    (buffer.run operations).contents = (buffer.taken chunks operations).flatten := by
  induction operations generalizing buffer chunks with
  | nil => exact h
  | cons operation operations ih =>
    cases operation with
    | append data =>
      rw [run, List.foldl_cons, taken]
      cases happend : buffer.append data with
      | ok after =>
        rw [(step_of_ok happend).1]
        apply ih
        rw [contents_of_append happend, h, List.flatten_append, List.flatten_singleton]
      | error full =>
        rw [(step_of_error happend).1]
        exact ih h
    | rewind => exact ih (contents_rewind buffer)

theorem inFlash_iff {buffer : TieredBuffer} (h : buffer.Valid) :
    buffer.inFlash ↔ buffer.ram.capacity < buffer.contents.length := by
  constructor
  · intro hflash
    rw [contents, if_pos hflash]
    exact h hflash
  · intro hspilled
    cases hflash : buffer.inFlash with
    | true => rfl
    | false =>
      simp only [contents, hflash, Bool.false_eq_true, if_false, Region.capacity] at hspilled
      omega

theorem Settled.alike {buffer other : TieredBuffer} (h : buffer.Settled) (h' : other.Settled)
    (htiers : buffer.tiers = other.tiers) (hcontents : buffer.contents = other.contents) :
    buffer.Alike other := by
  simp only [tiers, Prod.mk.injEq] at htiers
  have hflash : buffer.inFlash = other.inFlash := by
    rw [Bool.eq_iff_iff, inFlash_iff h.valid, inFlash_iff h'.valid, htiers.1, hcontents]
  have hwritten : buffer.ram.written = other.ram.written ∧
      buffer.flash.written = other.flash.written := by
    cases hother : other.inFlash with
    | false =>
      rw [hother] at hflash
      simp only [contents, hflash, hother, Bool.false_eq_true, if_false] at hcontents
      exact ⟨hcontents, (h.flash hflash).trans (h'.flash hother).symm⟩
    | true =>
      rw [hother] at hflash
      simp only [contents, hflash, hother, if_true] at hcontents
      exact ⟨(h.ram hflash).trans (h'.ram hother).symm, hcontents⟩
  simp only [Region.capacity, hwritten.1, hwritten.2] at htiers
  exact ⟨⟨hwritten.1, by omega⟩, ⟨hwritten.2, by omega⟩, hflash⟩

theorem Alike.view_eq {buffer other : TieredBuffer} (h : buffer.Alike other) :
    buffer.view = other.view := by
  rw [view, view, length, length, isEmpty, isEmpty, length, length, h.contents_eq,
    capacity_eq_of_tiers h.tiers_eq, h.inFlash]

theorem Alike.step {buffer other : TieredBuffer} (h : buffer.Alike other) (operation : Operation) :
    buffer.refusal? operation = other.refusal? operation ∧
      (buffer.step operation).Alike (other.step operation) := by
  cases operation with
  | append data =>
    rcases h.append data with ⟨full, hfull, hfull'⟩ | ⟨after, after', happend, happend', halike⟩
    · rw [(step_of_error hfull).1, (step_of_error hfull).2, (step_of_error hfull').1,
        (step_of_error hfull').2]
      exact ⟨rfl, h⟩
    · rw [(step_of_ok happend).1, (step_of_ok happend).2, (step_of_ok happend').1,
        (step_of_ok happend').2]
      exact ⟨rfl, halike⟩
  | rewind => exact ⟨rfl, alike_rewind h.tiers_eq⟩

theorem Alike.views_eq {buffer other : TieredBuffer} (h : buffer.Alike other)
    (operations : List Operation) : buffer.views operations = other.views operations := by
  induction operations generalizing buffer other with
  | nil => rw [views, views, h.view_eq]
  | cons operation operations ih =>
    obtain ⟨hrefusal, hafter⟩ := h.step operation
    rw [views, views, hrefusal, h.view_eq, ih hafter]

theorem buffer_is_bounded_list (ram flash : Bytes) (operations : List Operation) :
    let buffer := (ofMemory ram flash).run operations
    let chunks := (ofMemory ram flash).taken [] operations
    buffer.contents = chunks.flatten ∧ buffer.length = chunks.flatten.length ∧
    buffer.capacity = max ram.length flash.length ∧
    (∀ data, (∃ after, buffer.append data = .ok after) ↔
      buffer.length + data.length ≤ buffer.capacity) ∧
    (∀ data full, buffer.append data = .error full → buffer.step (.append data) = buffer) ∧
    (buffer.inFlash ↔ ram.length < buffer.length) ∧
    buffer.ram.written.length ≤ ram.length ∧ buffer.flash.written.length ≤ flash.length ∧
    ∀ ram' flash' others, ram'.length = ram.length → flash'.length = flash.length →
      ((ofMemory ram' flash').taken [] others).flatten = chunks.flatten →
      ∀ next, ((ofMemory ram' flash').run others).views next = buffer.views next := by
  intro buffer chunks
  have hsettled : buffer.Settled := settled_run (settled_ofMemory ram flash) operations
  have htiers : buffer.tiers = (ram.length, flash.length) :=
    (tiers_run _ operations).trans (tiers_ofMemory ram flash)
  have hcontents : buffer.contents = chunks.flatten := contents_run rfl operations
  have happend (data : Bytes) := append_isOk_iff hsettled.valid data
  have hcapacity := htiers
  simp only [tiers, Prod.mk.injEq] at hcapacity
  refine ⟨hcontents, congrArg List.length hcontents, ?_, happend, ?_, ?_, ?_, ?_, ?_⟩
  · rw [capacity, hcapacity.1, hcapacity.2]
  · intro data full hfull
    exact (step_of_error hfull).1
  · rw [inFlash_iff hsettled.valid, hcapacity.1, length]
  · rw [← hcapacity.1, Region.capacity]
    exact Nat.le_add_right _ _
  · rw [← hcapacity.2, Region.capacity]
    exact Nat.le_add_right _ _
  · intro ram' flash' others hram hflash hsame next
    have hsettled' := settled_run (settled_ofMemory ram' flash') others
    have htiers' := (tiers_run _ others).trans (tiers_ofMemory ram' flash')
    rw [hram, hflash] at htiers'
    have hcontents' := (contents_run rfl others).trans hsame
    exact (hsettled'.alike hsettled (htiers'.trans htiers.symm)
      (hcontents'.trans hcontents.symm)).views_eq next

theorem buffer_is_bounded_list_spilled :
    let buffer := (ofMemory [7, 7] [8, 8, 8, 8]).run
      [.append [1, 2], .append [3], .append [4, 5], .append [4]]
    buffer.contents = [1, 2, 3, 4] ∧ buffer.inFlash ∧ buffer.step (.append [5]) = buffer ∧
      ∀ next, ((ofMemory [0, 0] [0, 0, 0, 0]).run
        [.append [9], .rewind, .append [1, 2, 3, 4]]).views next = buffer.views next := by
  intro buffer
  obtain ⟨hcontents, -, -, -, hrefused, hflash, -, -, hsame⟩ :=
    buffer_is_bounded_list [7, 7] [8, 8, 8, 8]
      [.append [1, 2], .append [3], .append [4, 5], .append [4]]
  refine ⟨hcontents, hflash.2 (by decide), hrefused [5] ⟨1, 0⟩ rfl, ?_⟩
  apply hsame
  · rfl
  · rfl
  · rfl

end ClearSign.TieredBuffer
