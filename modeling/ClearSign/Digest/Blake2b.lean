import ClearSign.Bytes

/-!
This module contains the hash function BLAKE2b with a digest of 256 bits and without a key. Bytes
are absorbed one at a time, so how a message is cut into parts cannot matter.
-/

namespace ClearSign

structure Blake2b where
  chain : Vector UInt64 8
  counter : Nat
  block : Array UInt8
  deriving DecidableEq

namespace Blake2b

def blockSize : Nat := 128

def initialVector : Vector UInt64 8 :=
  #v[0x6a09e667f3bcc908, 0xbb67ae8584caa73b, 0x3c6ef372fe94f82b, 0xa54ff53a5f1d36f1,
     0x510e527fade682d1, 0x9b05688c2b3e6c1f, 0x1f83d9abfb41bd6b, 0x5be0cd19137e2179]

def schedule : List (Vector (Fin 16) 16) :=
  -- The last two rounds repeat the first two.
  let first : Vector (Fin 16) 16 := #v[0, 1, 2, 3, 4, 5, 6, 7, 8, 9, 10, 11, 12, 13, 14, 15]
  let second : Vector (Fin 16) 16 := #v[14, 10, 4, 8, 9, 15, 13, 6, 1, 12, 0, 2, 11, 7, 5, 3]
  [first,
   second,
   #v[11, 8, 12, 0, 5, 2, 15, 13, 10, 14, 3, 6, 7, 1, 9, 4],
   #v[7, 9, 3, 1, 13, 12, 11, 14, 2, 6, 5, 10, 4, 0, 15, 8],
   #v[9, 0, 5, 7, 2, 4, 10, 15, 14, 1, 11, 12, 6, 8, 3, 13],
   #v[2, 12, 6, 10, 0, 11, 8, 3, 4, 13, 7, 5, 15, 14, 1, 9],
   #v[12, 5, 1, 15, 14, 13, 4, 10, 0, 7, 6, 3, 9, 2, 8, 11],
   #v[13, 11, 7, 14, 12, 1, 3, 9, 5, 0, 15, 4, 8, 6, 2, 10],
   #v[6, 15, 14, 9, 11, 3, 0, 8, 12, 2, 13, 7, 1, 4, 10, 5],
   #v[10, 2, 8, 4, 7, 6, 1, 5, 15, 11, 9, 14, 3, 12, 13, 0],
   first,
   second]

def rotateRight (word amount : UInt64) : UInt64 :=
  (word >>> amount) ||| (word <<< (64 - amount))

def mix (v : Vector UInt64 16) (a b c d : Fin 16) (x y : UInt64) : Vector UInt64 16 :=
  let v := v.set a (v[a] + v[b] + x)
  let v := v.set d (rotateRight (v[d] ^^^ v[a]) 32)
  let v := v.set c (v[c] + v[d])
  let v := v.set b (rotateRight (v[b] ^^^ v[c]) 24)
  let v := v.set a (v[a] + v[b] + y)
  let v := v.set d (rotateRight (v[d] ^^^ v[a]) 16)
  let v := v.set c (v[c] + v[d])
  v.set b (rotateRight (v[b] ^^^ v[c]) 63)

def round (m v : Vector UInt64 16) (order : Vector (Fin 16) 16) : Vector UInt64 16 :=
  let v := mix v 0 4 8 12 m[order[0]] m[order[1]]
  let v := mix v 1 5 9 13 m[order[2]] m[order[3]]
  let v := mix v 2 6 10 14 m[order[4]] m[order[5]]
  let v := mix v 3 7 11 15 m[order[6]] m[order[7]]
  let v := mix v 0 5 10 15 m[order[8]] m[order[9]]
  let v := mix v 1 6 11 12 m[order[10]] m[order[11]]
  let v := mix v 2 7 8 13 m[order[12]] m[order[13]]
  mix v 3 4 9 14 m[order[14]] m[order[15]]

def littleEndian64 (bytes : Array UInt8) (offset : Nat) : UInt64 :=
  -- Bytes behind the end count as zero.
  (List.range 8).foldr (fun i word => word <<< 8 ||| (bytes.getD (offset + i) 0).toUInt64) 0

def compress (chain : Vector UInt64 8) (block : Array UInt8) (total : Nat) (final : Bool) :
    Vector UInt64 8 :=
  let m : Vector UInt64 16 := Vector.ofFn fun i => littleEndian64 block (8 * i)
  let v := chain ++ initialVector
  let v := v.set 12 (v[12] ^^^ UInt64.ofNat total)
  let v := v.set 13 (v[13] ^^^ UInt64.ofNat (total / UInt64.size))
  let v := if final then v.set 14 (v[14] ^^^ 0xFFFFFFFFFFFFFFFF) else v
  let v := schedule.foldl (round m) v
  Vector.ofFn fun i => chain[i] ^^^ v[i.val] ^^^ v[i.val + 8]

def start : Blake2b where
  -- The first word carries the length of the digest.
  chain := initialVector.set 0 (initialVector[0] ^^^ 0x01010020)
  counter := 0
  block := #[]

def absorb (hash : Blake2b) (byte : UInt8) : Blake2b :=
  -- A full block is compressed only when there is a byte behind it, because the last block is
  -- compressed in another way.
  if hash.block.size = blockSize then
    let counter := hash.counter + blockSize
    { chain := compress hash.chain hash.block counter false, counter, block := #[byte] }
  else { hash with block := hash.block.push byte }

def update (hash : Blake2b) (data : Bytes) : Blake2b :=
  data.foldl absorb hash

theorem update_append (hash : Blake2b) (first second : Bytes) :
    hash.update (first ++ second) = (hash.update first).update second := by
  simp [update]

def wordBytes (word : UInt64) : Bytes :=
  (List.range 8).map fun i => (word >>> UInt64.ofNat (8 * i)).toUInt8

@[simp]
theorem length_wordBytes (word : UInt64) : (wordBytes word).length = 8 := by
  simp [wordBytes]

def digest (hash : Blake2b) : Octets 32 :=
  let chain := compress hash.chain hash.block (hash.counter + hash.block.size) true
  { bytes := wordBytes chain[0] ++ wordBytes chain[1] ++ wordBytes chain[2] ++ wordBytes chain[3]
    length_bytes := by simp }

end Blake2b

def blake2b (message : Bytes) : Octets 32 :=
  (Blake2b.start.update message).digest

example : hex (blake2b (ascii "abc")).bytes =
    ascii "bddd813c634239723171ef3fee98579b94964e3bb1cb3e427262c8c068d52319" := by
  decide +kernel

end ClearSign
