/-!
# Message blocks

Both digests read a message in blocks of sixteen 32-bit words. The message is followed by a one
bit, zero bits up to the next multiple of 64 bytes less eight, and its length in bits in eight
bytes. They differ only in the byte order of words and of that length.
-/

namespace ContractScript.Digest

/-- The bytes that fill a message of the given length, its length field apart. -/
def filler (length : Nat) : List UInt8 :=
  0x80 :: List.replicate ((119 - length % 64) % 64) 0

/-- The big-endian word of four bytes. -/
def bigWord (a b c d : UInt8) : UInt32 :=
  (a.toUInt32 <<< 24) ||| (b.toUInt32 <<< 16) ||| (c.toUInt32 <<< 8) ||| d.toUInt32

/-- The words of a byte string, each made of four bytes by `word`. -/
def wordsBy (word : UInt8 → UInt8 → UInt8 → UInt8 → UInt32) : List UInt8 → List UInt32
  | a :: b :: c :: d :: rest => word a b c d :: wordsBy word rest
  | _ => []

/-- The bytes of a byte string in blocks of 64; `n` bounds the number of blocks. -/
def blocks : Nat → List UInt8 → List (List UInt8)
  | 0, _ => []
  | n + 1, bytes => bytes.take 64 :: blocks n (bytes.drop 64)

/-- Rotation to the left by less than 32 places. -/
def rotateLeft (x : UInt32) (n : UInt32) : UInt32 :=
  (x <<< n) ||| (x >>> (32 - n))

/-- Rotation to the right by less than 32 places. -/
def rotateRight (x : UInt32) (n : UInt32) : UInt32 :=
  (x >>> n) ||| (x <<< (32 - n))

end ContractScript.Digest
