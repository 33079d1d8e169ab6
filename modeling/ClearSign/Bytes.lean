/-!
This module contains byte strings, how a byte or a number is written as text, and how a text is
put at the front of a buffer.
-/

namespace ClearSign

abbrev Bytes := List UInt8

def ascii (text : String) : Bytes :=
  text.toList.map fun c => UInt8.ofNat c.toNat

def decimal (n : Nat) : Bytes :=
  (Nat.toDigits 10 n).map fun c => UInt8.ofNat c.toNat

theorem toNat_of_mem_toDigits {c : Char} (h : c ∈ Nat.toDigits 10 n) :
    48 ≤ c.toNat ∧ c.toNat ≤ 57 := by
  have hdigit := Nat.isDigit_of_mem_toDigits (by decide) (by decide) h
  simpa [Char.isDigit, UInt32.le_iff_toNat_le] using hdigit

theorem toNat_of_mem_decimal {c : UInt8} (h : c ∈ decimal n) : 48 ≤ c.toNat ∧ c.toNat ≤ 57 := by
  obtain ⟨digit, hdigit, rfl⟩ := List.mem_map.1 h
  have hrange := toNat_of_mem_toDigits hdigit
  rw [UInt8.toNat_ofNat', Nat.mod_eq_of_lt (by omega)]
  exact hrange

theorem decimal_injective (h : decimal n = decimal m) : n = m := by
  have hback (n : Nat) : (decimal n).map (fun c => Char.ofNat c.toNat) = Nat.toDigits 10 n := by
    rw [decimal, List.map_map]
    refine (List.map_congr_left ?_).trans (List.map_id _)
    intro digit hdigit
    have hrange := toNat_of_mem_toDigits hdigit
    rw [Function.comp_apply, UInt8.toNat_ofNat', Nat.mod_eq_of_lt (by omega), Char.ofNat_toNat, id]
  have hdigits : Nat.toDigits 10 n = Nat.toDigits 10 m := by rw [← hback, h, hback]
  rw [← Nat.ofDigitChars_toDigits (b := 10) (n := n) (by decide) (by decide), hdigits,
    Nat.ofDigitChars_toDigits (by decide) (by decide)]

def hexDigit (value : UInt8) : UInt8 :=
  if value < 10 then 48 + value else 87 + value

def hex (bytes : Bytes) : Bytes :=
  bytes.flatMap fun byte => [hexDigit (byte / 16), hexDigit (byte % 16)]

@[simp]
theorem hex_nil : hex [] = [] := rfl

@[simp]
theorem hex_cons (byte : UInt8) (bytes : Bytes) :
    hex (byte :: bytes) = hexDigit (byte / 16) :: hexDigit (byte % 16) :: hex bytes := rfl

@[simp]
theorem length_hex (bytes : Bytes) : (hex bytes).length = 2 * bytes.length := by
  induction bytes with
  | nil => rfl
  | cons byte bytes ih => simp [ih]; omega

theorem forall_mem_hex {p : UInt8 → Prop}
    (h : ∀ byte, p (hexDigit (byte / 16)) ∧ p (hexDigit (byte % 16))) (bytes : Bytes) :
    ∀ digit ∈ hex bytes, p digit := by
  induction bytes with
  | nil => simp
  | cons byte bytes ih =>
    rw [hex_cons, List.forall_mem_cons, List.forall_mem_cons]
    exact ⟨(h byte).1, (h byte).2, ih⟩

def overwrite (buffer text : Bytes) : Bytes :=
  -- The length of the buffer stays as it is only if the text fits.
  text ++ buffer.drop text.length

theorem length_overwrite {buffer text : Bytes} (h : text.length ≤ buffer.length) :
    (overwrite buffer text).length = buffer.length := by
  simp [overwrite]; omega

def hexInto? (input buffer : Bytes) : Option Bytes :=
  if 2 * input.length > buffer.length then none else some (overwrite buffer (hex input))

def terminatedLength (bytes : Bytes) : Nat :=
  bytes.idxOf 0

def terminated (bytes : Bytes) : Bytes :=
  bytes.takeWhile (· != 0)

def bigEndian16 (word : UInt16) : Bytes :=
  [(word >>> 8).toUInt8, word.toUInt8]

def bigEndian32 (word : UInt32) : Bytes :=
  [(word >>> 24).toUInt8, (word >>> 16).toUInt8, (word >>> 8).toUInt8, word.toUInt8]

structure Octets (n : Nat) where
  bytes : Bytes
  length_bytes : bytes.length = n
  deriving DecidableEq

namespace Octets

def zero (n : Nat) : Octets n where
  bytes := List.replicate n 0
  length_bytes := by simp

def ofBytes? (n : Nat) (bytes : Bytes) : Option (Octets n) :=
  if h : bytes.length = n then some ⟨bytes, h⟩ else none

def toHex (octets : Octets n) : Octets (2 * n) where
  bytes := hex octets.bytes
  length_bytes := by simp [octets.length_bytes]

end Octets

end ClearSign
