import ClearSign.Binary.Reader
import ClearSign.Proofs.Outcome
import Mathlib.Data.List.Forall2

/-!
This module contains fields behind their lengths, one after the other, and the proof that such
fields are read exactly as they are written, or refused for what is wrong first.
-/

namespace ClearSign.Binary

def prefixed (content : Bytes) : Bytes :=
  UInt8.ofNat content.length :: content

namespace Reader

theorem refuse_bind (fault : Fault) (f : α → Reader β) : (refuse fault >>= f) = refuse fault := rfl

theorem check_bind (p : Prop) [Decidable p] (fault : Fault) (x : Reader α) (f : α → Reader β) :
    ((if p then refuse fault else x) >>= f) = if p then refuse fault else x >>= f := by
  split
  · exact refuse_bind fault f
  · rfl

theorem run_take (n : Nat) (input : Bytes) :
    (take n).run input =
      if input.length < n then .error (.recoverable .endOfBuffer)
      else .ok (input.take n, input.drop n) := by
  unfold take
  rw [StateT.run_bind, StateT.run_get, pure_bind]
  dsimp only
  split
  · rfl
  · rfl

theorem run_field (limit : Nat) (n : UInt8) (rest : Bytes) :
    (field limit).run (n :: rest) =
      if limit < n.toNat then .error (.recoverable .valueOutOfRange)
      else (take n.toNat).run rest := by
  have hbyte : byte.run (n :: rest) = .ok (n, rest) := rfl
  unfold field
  rw [StateT.run_bind, hbyte, ok_bind]
  dsimp only
  split
  · rfl
  · rfl

theorem run_field_prefixed {content : Bytes} (h : content.length ≤ limit)
    (hlimit : limit < UInt8.size) (rest : Bytes) :
    (field limit).run (prefixed content ++ rest) = .ok (content, rest) := by
  have hlength : (UInt8.ofNat content.length).toNat = content.length :=
    UInt8.toNat_ofNat_of_lt' (Nat.lt_of_le_of_lt h hlimit)
  rw [prefixed, List.cons_append, run_field, hlength, if_neg (Nat.not_lt.2 h), run_take,
    List.length_append, if_neg (by omega), List.take_left, List.drop_left]

end Reader

structure Slot where
  limit : Nat
  whole : Bool

namespace Slot

structure Accepts (slot : Slot) (content : Bytes) : Prop where
  fits : content.length ≤ slot.limit
  fills : slot.whole → content.length = slot.limit

inductive Refuses (slot : Slot) : Bytes → Fault → Prop where
  | missing : Refuses slot [] .endOfBuffer
  | long (n : UInt8) (rest : Bytes) : slot.limit < n.toNat →
      Refuses slot (n :: rest) .valueOutOfRange
  | cut (n : UInt8) (rest : Bytes) : n.toNat ≤ slot.limit → rest.length < n.toNat →
      Refuses slot (n :: rest) .endOfBuffer
  | short (content rest : Bytes) : slot.whole → content.length < slot.limit →
      Refuses slot (prefixed content ++ rest) .valueOutOfRange

def read (slot : Slot) : Reader Bytes := do
  let content ← Reader.field slot.limit
  if slot.whole ∧ content.length ≠ slot.limit then Reader.refuse .valueOutOfRange
  return content

theorem accepts_iff_le {content : Bytes} (limit : Nat) :
    (Slot.mk limit false).Accepts content ↔ content.length ≤ limit :=
  ⟨Accepts.fits, fun h => ⟨h, nofun⟩⟩

theorem accepts_iff_eq {content : Bytes} (limit : Nat) :
    (Slot.mk limit true).Accepts content ↔ content.length = limit :=
  ⟨fun h => h.fills rfl, fun h => ⟨Nat.le_of_eq h, fun _ => h⟩⟩

variable {slot : Slot}

theorem accepts_or_refuses (slot : Slot) (input : Bytes) :
    (∃ content rest, slot.Accepts content ∧ input = prefixed content ++ rest) ∨
      ∃ fault, slot.Refuses input fault := by
  cases input with
  | nil => exact .inr ⟨_, .missing⟩
  | cons n rest =>
    by_cases hlong : slot.limit < n.toNat
    · exact .inr ⟨_, .long n rest hlong⟩
    by_cases hcut : rest.length < n.toNat
    · exact .inr ⟨_, .cut n rest (by omega) hcut⟩
    have hlength : (rest.take n.toNat).length = n.toNat := by
      rw [List.length_take]
      omega
    have hsplit : n :: rest = prefixed (rest.take n.toNat) ++ rest.drop n.toNat := by
      rw [prefixed, hlength, UInt8.ofNat_toNat, List.cons_append, List.take_append_drop]
    rw [hsplit]
    by_cases hfills : slot.whole → n.toNat = slot.limit
    · exact .inl ⟨_, _, ⟨by omega, by rwa [hlength]⟩, rfl⟩
    · obtain ⟨hwhole, hne⟩ := Classical.not_imp.1 hfills
      exact .inr ⟨_, .short _ _ hwhole (by omega)⟩

theorem run_read_of_accepts {content : Bytes} (h : slot.Accepts content)
    (hlimit : slot.limit < UInt8.size) (rest : Bytes) :
    slot.read.run (prefixed content ++ rest) = .ok (content, rest) := by
  rw [read, StateT.run_bind, Reader.run_field_prefixed h.fits hlimit, ok_bind]
  dsimp only
  rw [if_neg fun hne => hne.2 (h.fills hne.1)]
  rfl

theorem run_read_of_refuses (h : slot.Refuses input fault) (hlimit : slot.limit < UInt8.size) :
    ∃ stop, slot.read.run input = .error stop ∧ stop.fault = fault := by
  rw [read, StateT.run_bind]
  cases h with
  | missing => exact ⟨_, rfl, rfl⟩
  | long n rest hlong =>
    rw [Reader.run_field, if_pos hlong]
    exact ⟨_, rfl, rfl⟩
  | cut n rest hfits hcut =>
    rw [Reader.run_field, if_neg (Nat.not_lt.2 hfits), Reader.run_take, if_pos hcut]
    exact ⟨_, rfl, rfl⟩
  | short content rest hwhole hshort =>
    rw [Reader.run_field_prefixed (Nat.le_of_lt hshort) hlimit, ok_bind]
    dsimp only
    rw [if_pos ⟨hwhole, Nat.ne_of_lt hshort⟩]
    exact ⟨_, rfl, rfl⟩

inductive FirstRefuses : List Slot → Bytes → Fault → Prop where
  | intro (before : List Slot) (slot : Slot) (behind : List Slot) (fields : List Bytes)
      (rest : Bytes) (fault : Fault) : List.Forall₂ Accepts before fields →
      slot.Refuses rest fault →
      FirstRefuses (before ++ slot :: behind) (fields.flatMap prefixed ++ rest) fault

theorem all_accept_or_first_refuses (slots : List Slot) (input : Bytes) :
    (∃ fields rest, List.Forall₂ Accepts slots fields ∧
      input = fields.flatMap prefixed ++ rest) ∨ ∃ fault, FirstRefuses slots input fault := by
  induction slots generalizing input with
  | nil => exact .inl ⟨[], input, .nil, rfl⟩
  | cons slot slots ih =>
    rcases slot.accepts_or_refuses input with ⟨content, rest, haccepts, rfl⟩ | ⟨fault, hrefuses⟩
    · rcases ih rest with ⟨fields, last, hfields, rfl⟩ | ⟨fault, hrest⟩
      · exact .inl ⟨content :: fields, last, .cons haccepts hfields, by simp⟩
      · obtain ⟨before, refusing, behind, fields, last, _, hfields, hrefuses⟩ := hrest
        have hfirst := FirstRefuses.intro (slot :: before) refusing behind (content :: fields) last
          fault (.cons haccepts hfields) hrefuses
        rw [List.flatMap_cons, List.append_assoc] at hfirst
        exact .inr ⟨fault, hfirst⟩
    · exact .inr ⟨fault, .intro [] slot slots [] input fault .nil hrefuses⟩

theorem run_mapM_read {slots : List Slot} {fields : List Bytes}
    (h : List.Forall₂ Accepts slots fields)
    (hlimits : ∀ slot ∈ slots, slot.limit < UInt8.size) (rest : Bytes) :
    (slots.mapM read).run (fields.flatMap prefixed ++ rest) = .ok (fields, rest) := by
  induction h with
  | nil => rfl
  | @cons slot content slots fields haccepts _ ih =>
    rw [List.forall_mem_cons] at hlimits
    rw [List.mapM_cons, StateT.run_bind, List.flatMap_cons, List.append_assoc,
      run_read_of_accepts haccepts hlimits.1, ok_bind]
    dsimp only
    rw [StateT.run_bind, ih hlimits.2]
    rfl

theorem run_mapM_read_of_firstRefuses {slots : List Slot} (h : FirstRefuses slots input fault)
    (hlimits : ∀ slot ∈ slots, slot.limit < UInt8.size) :
    ∃ stop, (slots.mapM read).run input = .error stop ∧ stop.fault = fault := by
  obtain ⟨before, slot, behind, fields, rest, _, hfields, hrefuses⟩ := h
  rw [List.forall_mem_append, List.forall_mem_cons] at hlimits
  obtain ⟨stop, hstop, hfault⟩ := run_read_of_refuses hrefuses hlimits.2.1
  refine ⟨stop, ?_, hfault⟩
  rw [List.mapM_append, StateT.run_bind, run_mapM_read hfields hlimits.1, ok_bind]
  dsimp only
  rw [List.mapM_cons, StateT.run_bind, StateT.run_bind, hstop]
  rfl

end Slot

end ClearSign.Binary
