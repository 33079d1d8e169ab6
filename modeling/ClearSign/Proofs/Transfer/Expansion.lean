import ClearSign.Proofs.Memory.Leftover
import ClearSign.Proofs.Outcome
import ClearSign.Transfer.Expansion

/-!
This module contains what is in memory when the transaction of a template was written, and what was
hashed by then. What the memory held before does not matter.
-/

namespace ClearSign.Expansion

theorem extend_eq_ok {before after : Expansion}
    (h : (extend piece).perform before = (.ok (), after)) :
    after.out.contents = before.out.contents ++ piece ∧ after.hash = before.hash.update piece := by
  simp only [extend, Attempt.perform_bind, Attempt.perform_get] at h
  split at h
  · next out happend =>
    rw [Attempt.perform_set] at h
    cases h
    exact ⟨TieredBuffer.contents_of_append happend, rfl⟩
  · cases h

theorem extendAll_eq_ok {before after : Expansion}
    (h : (extendAll pieces).perform before = (.ok (), after)) :
    after.out.contents = before.out.contents ++ pieces.flatten ∧
      after.hash = before.hash.update pieces.flatten := by
  induction pieces generalizing before with
  | nil =>
    simp only [extendAll, Attempt.perform_pure] at h
    cases h
    simp [Blake2b.update]
  | cons piece pieces ih =>
    rw [extendAll, Attempt.perform_bind_eq_ok] at h
    obtain ⟨⟨⟩, between, hpiece, hpieces⟩ := h
    obtain ⟨hcontents, hhash⟩ := extend_eq_ok hpiece
    obtain ⟨hcontents', hhash'⟩ := ih hpieces
    rw [hcontents', hcontents, hhash', hhash, List.flatten_cons, List.append_assoc,
      Blake2b.update_append]
    exact ⟨rfl, rfl⟩

theorem write_eq_ok {t : Template} {address : Bytes} {before after : Expansion}
    (h : (write t address).perform before = (.ok (), after)) :
    after.out.contents = t.transaction address ∧
      after.hash = before.hash.update (t.transaction address) := by
  rw [write, Attempt.perform_bind_eq_ok] at h
  obtain ⟨⟨⟩, rewound, hrewind, hpieces⟩ := h
  rw [Attempt.perform_modify] at hrewind
  cases hrewind
  obtain ⟨hcontents, hhash⟩ := extendAll_eq_ok hpieces
  rw [TieredBuffer.contents_rewind, List.nil_append] at hcontents
  exact ⟨hcontents, hhash⟩

theorem extend_eq_error {before after : Expansion}
    (h : (extend piece).perform before = (.error fault, after)) :
    fault = .textTooLong ∧ after = before := by
  simp only [extend, Attempt.perform_bind, Attempt.perform_get] at h
  split at h
  · cases h
  · cases h
    exact ⟨rfl, rfl⟩

theorem extendAll_eq_error {before after : Expansion}
    (h : (extendAll pieces).perform before = (.error fault, after)) :
    fault = .textTooLong ∧ ∃ done, done <+: pieces ∧
      after.out.contents = before.out.contents ++ done.flatten ∧
      after.hash = before.hash.update done.flatten := by
  induction pieces generalizing before with
  | nil => cases h
  | cons piece pieces ih =>
    rw [extendAll, Attempt.perform_bind_eq_error] at h
    rcases h with hpiece | ⟨⟨⟩, between, hpiece, hpieces⟩
    · obtain ⟨hfault, rfl⟩ := extend_eq_error hpiece
      exact ⟨hfault, [], List.nil_prefix, by simp, by simp [Blake2b.update]⟩
    · obtain ⟨hcontents, hhash⟩ := extend_eq_ok hpiece
      obtain ⟨hfault, done, hdone, hcontents', hhash'⟩ := ih hpieces
      refine ⟨hfault, piece :: done, (List.prefix_cons_inj piece).2 hdone, ?_, ?_⟩
      · rw [hcontents', hcontents, List.flatten_cons, List.append_assoc]
      · rw [hhash', hhash, List.flatten_cons, Blake2b.update_append]

theorem write_eq_error {t : Template} {address : Bytes} {before after : Expansion}
    (h : (write t address).perform before = (.error fault, after)) :
    fault = .textTooLong ∧ after.out.contents <+: t.transaction address ∧
      after.hash = before.hash.update after.out.contents := by
  rw [write, Attempt.perform_bind, Attempt.perform_modify] at h
  obtain ⟨hfault, done, ⟨left, hpieces⟩, hcontents, hhash⟩ := extendAll_eq_error h
  rw [TieredBuffer.contents_rewind, List.nil_append] at hcontents
  refine ⟨hfault, ⟨left.flatten, ?_⟩, ?_⟩
  · rw [hcontents, Template.transaction, ← hpieces, List.flatten_append]
  · rw [hcontents, hhash]

theorem exists_extend (piece : Bytes) {before : Expansion} (hvalid : before.out.Valid)
    (hroom : before.out.contents.length + piece.length ≤ before.out.capacity) :
    ∃ after, (extend piece).perform before = (.ok (), after) ∧ after.out.Valid ∧
      after.out.contents = before.out.contents ++ piece ∧
      after.out.capacity = before.out.capacity := by
  obtain ⟨out, happend⟩ := (TieredBuffer.append_isOk_iff hvalid piece).2 hroom
  refine ⟨{ out, hash := before.hash.update piece }, ?_,
    TieredBuffer.valid_of_append hvalid happend, TieredBuffer.contents_of_append happend,
    TieredBuffer.capacity_of_append happend⟩
  simp only [extend, Attempt.perform_bind, Attempt.perform_get, happend, Attempt.perform_set]

theorem exists_extendAll {before : Expansion} (hvalid : before.out.Valid)
    (hroom : before.out.contents.length + pieces.flatten.length ≤ before.out.capacity) :
    ∃ after, (extendAll pieces).perform before = (.ok (), after) := by
  induction pieces generalizing before with
  | nil => exact ⟨before, rfl⟩
  | cons piece pieces ih =>
    rw [List.flatten_cons, List.length_append] at hroom
    obtain ⟨between, hbetween, hvalid', hcontents, hcapacity⟩ :=
      exists_extend piece hvalid (by omega)
    rw [extendAll, Attempt.perform_bind, hbetween]
    apply ih hvalid'
    rw [hcontents, hcapacity, List.length_append]
    omega

theorem exists_write (t : Template) (address : Bytes) (before : Expansion)
    (hroom : (t.transaction address).length ≤ before.out.capacity) :
    ∃ after, (write t address).perform before = (.ok (), after) := by
  rw [write, Attempt.perform_bind, Attempt.perform_modify]
  apply exists_extendAll (TieredBuffer.valid_rewind before.out)
  rw [TieredBuffer.contents_rewind, TieredBuffer.capacity_rewind, List.length_nil, Nat.zero_add]
  exact hroom

theorem tiers_extend (piece : Bytes) (expansion : Expansion) :
    ((extend piece).perform expansion).2.out.tiers = expansion.out.tiers := by
  simp only [extend, Attempt.perform_bind, Attempt.perform_get]
  split
  · next out happend =>
    rw [Attempt.perform_set]
    exact TieredBuffer.tiers_of_append happend
  · rfl

theorem tiers_extendAll (pieces : List Bytes) (expansion : Expansion) :
    ((extendAll pieces).perform expansion).2.out.tiers = expansion.out.tiers := by
  induction pieces generalizing expansion with
  | nil => rfl
  | cons piece pieces ih =>
    have hpiece := tiers_extend piece expansion
    rw [extendAll, Attempt.perform_bind]
    split
    · next between hbetween =>
      rw [hbetween] at hpiece
      exact (ih between).trans hpiece
    · next stopped hstopped =>
      rw [hstopped] at hpiece
      exact hpiece

theorem tiers_write (t : Template) (address : Bytes) (expansion : Expansion) :
    ((write t address).perform expansion).2.out.tiers = expansion.out.tiers := by
  rw [write, Attempt.perform_bind, Attempt.perform_modify]
  exact (tiers_extendAll _ _).trans (TieredBuffer.tiers_rewind _)

structure Alike (expansion other : Expansion) : Prop where
  out : expansion.out.Alike other.out
  hash : expansion.hash = other.hash

theorem respects_extend (piece : Bytes) : (extend piece).Respects Alike := by
  intro expansion other h
  simp only [extend, Attempt.perform_bind, Attempt.perform_get]
  rcases h.out.append piece with ⟨full, hfull, hfull'⟩ | ⟨after, after', happend, happend', halike⟩
  · rw [hfull, hfull']
    exact ⟨rfl, h⟩
  · rw [happend, happend', h.hash]
    exact ⟨rfl, halike, rfl⟩

theorem respects_extendAll (pieces : List Bytes) : (extendAll pieces).Respects Alike := by
  induction pieces with
  | nil => exact Attempt.respects_pure _ _
  | cons piece pieces ih => exact Attempt.respects_bind (respects_extend piece) fun _ => ih

theorem respects_write (t : Template) (address : Bytes) : (write t address).Respects Alike := by
  apply Attempt.respects_bind
  · intro expansion other h
    exact ⟨rfl, TieredBuffer.alike_rewind h.out.tiers_eq, h.hash⟩
  · intro _
    exact respects_extendAll _

end ClearSign.Expansion
