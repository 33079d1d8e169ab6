import ClearSign.KeyPath
import ClearSign.Proofs.Outcome

/-!
This module contains the proof that a derivation path is read from its five components, low bytes
first, and from nothing else.
-/

namespace ClearSign

def littleEndian32 (word : UInt32) : Bytes :=
  [word.toUInt8, (word >>> 8).toUInt8, (word >>> 16).toUInt8, (word >>> 24).toUInt8]

namespace Binary.Reader

theorem littleEndian32_word (a b c d : UInt8) :
    littleEndian32 (a.toUInt32 ||| b.toUInt32 <<< 8 ||| c.toUInt32 <<< 16 ||| d.toUInt32 <<< 24) =
      [a, b, c, d] := by
  simp only [littleEndian32, List.cons.injEq, and_true]
  refine ⟨?_, ?_, ?_, ?_⟩
  all_goals
    apply UInt8.eq_of_toBitVec_eq
    ext i hi
    simp only [UInt32.toBitVec_toUInt8, UInt32.toBitVec_shiftRight, UInt32.toBitVec_or,
      UInt8.toBitVec_toUInt32, UInt32.toBitVec_shiftLeft, UInt32.toBitVec_ofNat,
      BitVec.ofNat_eq_ofNat, BitVec.reduceMod, BitVec.shiftLeft_eq', BitVec.toNat_ofNat,
      Nat.reducePow, Nat.reduceMod, BitVec.ushiftRight_eq', BitVec.getElem_setWidth,
      BitVec.getLsbD_ushiftRight, BitVec.getLsbD_or, BitVec.getLsbD_setWidth,
      BitVec.getLsbD_shiftLeft]
    grind

theorem run_word32_littleEndian32 (word : UInt32) (rest : Bytes) :
    word32.run (littleEndian32 word ++ rest) = .ok (word, rest) := by
  have hword : word.toUInt8.toUInt32 ||| (word >>> 8).toUInt8.toUInt32 <<< 8 |||
      (word >>> 16).toUInt8.toUInt32 <<< 16 ||| (word >>> 24).toUInt8.toUInt32 <<< 24 = word := by
    apply UInt32.eq_of_toBitVec_eq
    ext i hi
    simp only [UInt32.toBitVec_toUInt8, UInt32.toBitVec_shiftRight, UInt32.toBitVec_or,
      UInt8.toBitVec_toUInt32, UInt32.toBitVec_shiftLeft, UInt32.toBitVec_ofNat,
      BitVec.ofNat_eq_ofNat, BitVec.reduceMod, BitVec.shiftLeft_eq', BitVec.toNat_ofNat,
      Nat.reducePow, Nat.reduceMod, BitVec.ushiftRight_eq', BitVec.getElem_or,
      BitVec.getElem_setWidth, BitVec.getElem_shiftLeft, BitVec.getLsbD_setWidth,
      BitVec.getLsbD_ushiftRight]
    grind
  have hrun : word32.run (littleEndian32 word ++ rest) =
      .ok (word.toUInt8.toUInt32 ||| (word >>> 8).toUInt8.toUInt32 <<< 8 |||
        (word >>> 16).toUInt8.toUInt32 <<< 16 ||| (word >>> 24).toUInt8.toUInt32 <<< 24, rest) :=
    rfl
  rw [hrun, hword]

theorem run_word32_eq_ok_iff {input rest : Bytes} {word : UInt32} :
    word32.run input = .ok (word, rest) ↔ input = littleEndian32 word ++ rest := by
  constructor
  · intro h
    match input with
    | a :: b :: c :: d :: input =>
      cases h
      rw [littleEndian32_word]
      rfl
    | [] => cases h
    | [_] => cases h
    | [_, _] => cases h
    | [_, _, _] => cases h
  · rintro rfl
    exact run_word32_littleEndian32 word rest

end Binary.Reader

namespace KeyPath

open Binary.Reader

def encode (path : KeyPath) : Bytes :=
  path.components.flatMap littleEndian32

theorem ofComponents_eq_ok_iff {purpose coin account change index : UInt32} {path : KeyPath} :
    ofComponents purpose coin account change index = .ok path ↔
      [purpose, coin, account, change, index] = path.components := by
  unfold ofComponents
  split
  · next h =>
    obtain ⟨rfl, rfl⟩ := h
    rcases path with ⟨account', change', index'⟩
    simp [components]
  · next h =>
    simp only [reduceCtorEq, components, List.cons.injEq, false_iff]
    rintro ⟨hpurpose, hcoin, -⟩
    exact h ⟨hpurpose, hcoin⟩

theorem read_eq_ok_iff {payload : Bytes} {path : KeyPath} :
    read payload = .ok path ↔ ∃ rest, payload = path.encode ++ rest := by
  constructor
  · intro h
    unfold read at h
    dsimp only at h
    split at h
    · next found rest hrun =>
      simp only [StateT.run_bind, bind_eq_ok, Prod.exists, run_word32_eq_ok_iff] at hrun
      obtain ⟨purpose, _, rfl, coin, _, rfl, account, _, rfl, change, _, rfl, index, _, rfl,
        hrun⟩ := hrun
      cases hrun
      refine ⟨rest, ?_⟩
      rw [encode, ← ofComponents_eq_ok_iff.1 h]
      simp
    · contradiction
  · rintro ⟨rest, rfl⟩
    have hsome : ofComponents purpose coin path.account path.change path.index =
        .ok path := ofComponents_eq_ok_iff.2 rfl
    unfold read
    simp only [encode, components, List.flatMap_cons, List.flatMap_nil, List.append_nil,
      List.append_assoc, StateT.run_bind, run_word32_littleEndian32, ok_bind]
    exact hsome

theorem take_of_read {payload : Bytes} {path : KeyPath} (h : read payload = .ok path) :
    payload.take 20 = path.encode := by
  obtain ⟨rest, rfl⟩ := read_eq_ok_iff.1 h
  exact List.take_left' rfl

end KeyPath

end ClearSign
