import ClearSign.Bytes

/-!
This module contains base64 with the alphabet for URLs and file names, padded.
-/

namespace ClearSign

namespace Base64

def digit (value : UInt8) : UInt8 :=
  if value < 26 then 65 + value
  else if value < 52 then 71 + value
  else if value < 62 then value - 4
  else if value = 62 then 45
  else 95

def padding : UInt8 := 61

end Base64

open Base64 in
def base64 : Bytes → Bytes
  | [] => []
  | [a] => [digit (a >>> 2), digit ((a &&& 3) <<< 4), padding, padding]
  | [a, b] =>
    [digit (a >>> 2), digit ((a &&& 3) <<< 4 ||| b >>> 4), digit ((b &&& 15) <<< 2), padding]
  | a :: b :: c :: rest =>
    digit (a >>> 2) :: digit ((a &&& 3) <<< 4 ||| b >>> 4) ::
      digit ((b &&& 15) <<< 2 ||| c >>> 6) :: digit (c &&& 63) :: base64 rest

theorem length_base64 (bytes : Bytes) : (base64 bytes).length = 4 * ((bytes.length + 2) / 3) := by
  fun_induction base64 bytes with
  | case1 => rfl
  | case2 a => simp
  | case3 a b => simp
  | case4 a b c rest ih =>
    simp only [List.length_cons, ih]
    omega

end ClearSign
