import ClearSign.Device
import ClearSign.Fault

/-!
This module contains how a value is cut into pages for the screen.
-/

namespace ClearSign

namespace Page

def width (out : Bytes) : Nat :=
  min (out.length - 1) Limit.pageWidth

def count (value out : Bytes) : Nat :=
  -- Even an empty value has a page.
  max 1 ((value.length + width out - 1) / width out)

/--
Write page `page` of a value and its terminator at the front of `out`. The answer is the number of
pages and the whole buffer.
-/
def write (value out : Bytes) (page : Nat) : Except Fault (Nat × Bytes) :=
  if out.length < 2 then .error .textTooLong
  else if count value out > 255 then .error .textTooLong
  else if page ≥ count value out then .error .pageOutOfRange
  else
    let chunk := (value.drop (page * width out)).take (width out)
    .ok (count value out, overwrite out (chunk ++ [0]))

end Page

end ClearSign
