import ClearSign.Proofs.Review.Pages
import Mathlib.Algebra.Order.Floor.Div

/-!
This module contains the proof that the pages of a value are its parts, one after the other, and
that a page is written in place without an index that is out of range.
-/

namespace ClearSign

namespace Page

def slice? (bytes : Bytes) (first last : Nat) : Option Bytes :=
  if first ≤ last ∧ last ≤ bytes.length then some (bytes.extract first last) else none

def store? (bytes : Bytes) (first : Nat) (piece : Bytes) : Option Bytes :=
  if first + piece.length ≤ bytes.length then
    some (bytes.take first ++ piece ++ bytes.drop (first + piece.length))
  else none

/--
`write` as it changes a buffer in place, with numbers of a byte. The answer is the outcome with the
buffer that it leaves, and there is none if an index or a number is out of range.
-/
def writeInPlace (value : Bytes) (page : UInt8) (out : Bytes) :
    Option (Except Fault UInt8 × Bytes) :=
  if out.length < 2 then some (.error .textTooLong, out)
  else if hcount : 255 < count value out then some (.error .textTooLong, out)
  else
    let pages : UInt8 := .ofNatLT (count value out) (Nat.lt_succ_of_le (Nat.not_lt.1 hcount))
    if pages ≤ page then some (.error .pageOutOfRange, out)
    else do
      let first := page.toNat * width out
      let chunk ← slice? value first (min (first + width out) value.length)
      let out ← store? out 0 chunk
      let out ← store? out chunk.length [0]
      return (.ok pages, out)

theorem width_pos {out : Bytes} (h : 2 ≤ out.length) : 0 < width out := by
  have : 0 < Limit.pageWidth := by decide
  unfold width
  omega

theorem mul_width_le {value out : Bytes} (hpage : page < count value out) :
    page * width out ≤ value.length := by
  unfold count at hpage
  rcases Nat.lt_or_ge page 1 with hfirst | hlater
  · rw [Nat.lt_one_iff.1 hfirst, Nat.zero_mul]
    exact Nat.zero_le _
  · have hceil : page < (value.length + width out - 1) / width out := by omega
    have hmul := Nat.mul_le_of_le_div _ _ _ (Nat.succ_le_of_lt hceil)
    rw [Nat.succ_mul] at hmul
    omega

theorem chunk_eq_extract (value out : Bytes) (page : Nat) :
    chunk value out page =
      value.extract (page * width out) (min ((page + 1) * width out) value.length) := by
  rw [chunk, List.extract_eq_take_drop, Nat.succ_mul, List.take_eq_take_iff, List.length_drop]
  omega

theorem length_chunk_le (value out : Bytes) (page : Nat) :
    (chunk value out page).length ≤ width out :=
  List.length_take_le _ _

theorem write_eq_textTooLong_iff {value out : Bytes} (page : Nat) :
    write value out page = .error .textTooLong ↔ out.length < 2 ∨ 255 < count value out := by
  unfold write
  split
  · next hlength => simp [hlength]
  · next hlength =>
    split
    · next hcount => simp [hcount]
    · next hcount =>
      split
      · simp [hlength, hcount]
      · simp [hlength, hcount]

theorem write_eq_pageOutOfRange_iff {value out : Bytes} :
    write value out page = .error .pageOutOfRange ↔
      2 ≤ out.length ∧ count value out ≤ 255 ∧ count value out ≤ page := by
  unfold write
  split
  · next hlength => simp [Nat.not_le_of_lt hlength]
  · next hlength =>
    split
    · next hcount => simp [Nat.not_le_of_lt hcount]
    · next hcount =>
      rw [Nat.not_lt] at hlength hcount
      split
      · next hpage => simp [hlength, hcount, hpage]
      · next hpage => simp [hpage]

theorem write_eq_ok_iff {value out : Bytes} :
    write value out page = .ok (pages, message) ↔
      2 ≤ out.length ∧ count value out ≤ 255 ∧ page < count value out ∧
        pages = count value out ∧ message = overwrite out (chunk value out page ++ [0]) := by
  constructor
  · intro h
    have hroom : ¬(out.length < 2 ∨ 255 < count value out) := by
      rw [← write_eq_textTooLong_iff page, h]
      nofun
    rw [not_or, Nat.not_lt, Nat.not_lt] at hroom
    have hpage : ¬count value out ≤ page := by
      intro hpage
      rw [write_of_le (width_pos hroom.1) hroom.2 hpage] at h
      contradiction
    exact ⟨hroom.1, hroom.2, Nat.lt_of_not_le hpage, (write_eq_ok h).2⟩
  · rintro ⟨hlength, hcount, hpage, rfl, rfl⟩
    exact write_of_lt (width_pos hlength) hcount hpage

theorem slice?_chunk {value out : Bytes} (hpage : page < count value out) :
    slice? value (page * width out) (min (page * width out + width out) value.length) =
      some (chunk value out page) := by
  have hfirst := mul_width_le hpage
  rw [slice?, if_pos, chunk_eq_extract, Nat.succ_mul]
  omega

theorem store?_text {out text : Bytes} (h : text.length ≤ out.length) :
    store? out 0 text = some (overwrite out text) := by
  rw [store?, if_pos (by omega)]
  simp [overwrite]

theorem store?_terminator {out text : Bytes} (h : text.length < out.length) :
    store? (overwrite out text) text.length [0] = some (overwrite out (text ++ [0])) := by
  rw [store?, if_pos]
  · simp [overwrite, List.drop_append]
  · rw [length_overwrite (Nat.le_of_lt h)]
    exact h

theorem writeInPlace_eq (value : Bytes) (page : UInt8) (out : Bytes) :
    (writeInPlace value page out).map (fun (outcome, after) => (outcome.map UInt8.toNat, after)) =
      some (match write value out page.toNat with
        | .ok (pages, after) => (.ok pages, after)
        | .error fault => (.error fault, out)) := by
  unfold writeInPlace write
  split
  · rfl
  · next hlength =>
    split
    · rfl
    · next hcount =>
      dsimp only
      split
      · next hpage =>
        rw [UInt8.le_iff_toNat_le, UInt8.toNat_ofNatLT] at hpage
        rw [if_pos hpage]
        rfl
      · next hpage =>
        rw [UInt8.le_iff_toNat_le, UInt8.toNat_ofNatLT] at hpage
        rw [if_neg hpage, slice?_chunk (Nat.lt_of_not_le hpage)]
        have hroom : (chunk value out page.toNat).length < out.length := by
          have := length_chunk_le value out page.toNat
          unfold width at this
          omega
        simp only [Option.bind_eq_bind, Option.bind_some, store?_text (Nat.le_of_lt hroom),
          store?_terminator hroom, Option.pure_def, Option.map_some, Except.map,
          UInt8.toNat_ofNatLT]
        rfl

theorem values_are_paged (value out : Bytes) :
    let width := min (out.length - 1) 40
    let pages := max 1 (value.length ⌈/⌉ width)
    let part (page : Nat) := value.extract (page * width) (min ((page + 1) * width) value.length)
    (∀ page, write value out page = .error .textTooLong ↔ out.length < 2 ∨ 255 < pages) ∧
    (∀ page, write value out page = .error .pageOutOfRange ↔
      2 ≤ out.length ∧ pages ≤ 255 ∧ pages ≤ page) ∧
    (∀ page count message, write value out page = .ok (count, message) ↔
      2 ≤ out.length ∧ pages ≤ 255 ∧ page < pages ∧ count = pages ∧
        message = part page ++ 0 :: out.drop ((part page).length + 1)) ∧
    (2 ≤ out.length → ((List.range pages).map part).flatten = value) ∧
    (∀ page : UInt8,
      (writeInPlace value page out).map (fun (outcome, after) => (outcome.map UInt8.toNat, after)) =
        some (match write value out page.toNat with
          | .ok (count, message) => (.ok count, message)
          | .error fault => (.error fault, out))) := by
  intro width pages part
  have hpart : part = chunk value out := by
    funext page
    exact (chunk_eq_extract value out page).symm
  refine ⟨write_eq_textTooLong_iff, fun page => write_eq_pageOutOfRange_iff, ?_, ?_, ?_⟩
  · intro page count message
    rw [write_eq_ok_iff, hpart, overwrite, List.length_append, List.append_assoc]
    rfl
  · intro hlength
    rw [hpart]
    exact flatten_all_chunks (width_pos hlength)
  · intro page
    exact writeInPlace_eq value page out

theorem values_are_paged_letters :
    let part (page : Nat) := (ascii "abcdefghij").extract (page * 4) (min ((page + 1) * 4) 10)
    ((List.range 3).map part).flatten = ascii "abcdefghij" ∧ part 2 = ascii "ij" :=
  ⟨(values_are_paged (ascii "abcdefghij") (List.replicate 5 0)).2.2.2.1 (by decide), by decide⟩

end Page

end ClearSign
