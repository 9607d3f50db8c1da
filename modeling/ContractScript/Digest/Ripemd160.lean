import ContractScript.Bytes
import ContractScript.Digest.Blocks

/-!
# RIPEMD-160

A block runs through two parallel lines of eighty steps, which differ in the order of message
words, the rotation amounts, the constants and the order of the five Boolean functions. The two
results are added crosswise to the state.
-/

namespace ContractScript.Digest.Ripemd160

/-- The five words of the chaining state. -/
structure State where
  a : UInt32
  b : UInt32
  c : UInt32
  d : UInt32
  e : UInt32

/-- The state before the first block. -/
def start : State :=
  ⟨0x67452301, 0xefcdab89, 0x98badcfe, 0x10325476, 0xc3d2e1f0⟩

/-- One round of a line: its Boolean function, its constant, and for each of its sixteen steps
the message word read and the amount of the rotation. -/
structure Round where
  mix : UInt32 → UInt32 → UInt32 → UInt32
  constant : UInt32
  order : List Nat
  amounts : List UInt32

def mix1 (x y z : UInt32) : UInt32 := x ^^^ y ^^^ z
def mix2 (x y z : UInt32) : UInt32 := (x &&& y) ||| ((~~~x) &&& z)
def mix3 (x y z : UInt32) : UInt32 := (x ||| ~~~y) ^^^ z
def mix4 (x y z : UInt32) : UInt32 := (x &&& z) ||| (y &&& ~~~z)
def mix5 (x y z : UInt32) : UInt32 := x ^^^ (y ||| ~~~z)

/-- The rounds of the left line. -/
def left : List Round :=
  [⟨mix1, 0x00000000, [0, 1, 2, 3, 4, 5, 6, 7, 8, 9, 10, 11, 12, 13, 14, 15],
    [11, 14, 15, 12, 5, 8, 7, 9, 11, 13, 14, 15, 6, 7, 9, 8]⟩,
   ⟨mix2, 0x5a827999, [7, 4, 13, 1, 10, 6, 15, 3, 12, 0, 9, 5, 2, 14, 11, 8],
    [7, 6, 8, 13, 11, 9, 7, 15, 7, 12, 15, 9, 11, 7, 13, 12]⟩,
   ⟨mix3, 0x6ed9eba1, [3, 10, 14, 4, 9, 15, 8, 1, 2, 7, 0, 6, 13, 11, 5, 12],
    [11, 13, 6, 7, 14, 9, 13, 15, 14, 8, 13, 6, 5, 12, 7, 5]⟩,
   ⟨mix4, 0x8f1bbcdc, [1, 9, 11, 10, 0, 8, 12, 4, 13, 3, 7, 15, 14, 5, 6, 2],
    [11, 12, 14, 15, 14, 15, 9, 8, 9, 14, 5, 6, 8, 6, 5, 12]⟩,
   ⟨mix5, 0xa953fd4e, [4, 0, 5, 9, 7, 12, 2, 10, 14, 1, 3, 8, 11, 6, 15, 13],
    [9, 15, 5, 11, 6, 8, 13, 12, 5, 12, 13, 14, 11, 8, 5, 6]⟩]

/-- The rounds of the right line. -/
def right : List Round :=
  [⟨mix5, 0x50a28be6, [5, 14, 7, 0, 9, 2, 11, 4, 13, 6, 15, 8, 1, 10, 3, 12],
    [8, 9, 9, 11, 13, 15, 15, 5, 7, 7, 8, 11, 14, 14, 12, 6]⟩,
   ⟨mix4, 0x5c4dd124, [6, 11, 3, 7, 0, 13, 5, 10, 14, 15, 8, 12, 4, 9, 1, 2],
    [9, 13, 15, 7, 12, 8, 9, 11, 7, 7, 12, 7, 6, 15, 13, 11]⟩,
   ⟨mix3, 0x6d703ef3, [15, 5, 1, 3, 7, 14, 6, 9, 11, 8, 12, 2, 10, 0, 4, 13],
    [9, 7, 15, 11, 8, 6, 6, 14, 12, 13, 5, 14, 13, 13, 7, 5]⟩,
   ⟨mix2, 0x7a6d76e9, [8, 6, 4, 1, 3, 11, 15, 0, 5, 12, 2, 13, 9, 7, 10, 14],
    [15, 5, 8, 11, 14, 14, 6, 14, 6, 9, 12, 9, 12, 5, 15, 8]⟩,
   ⟨mix1, 0x00000000, [12, 15, 10, 4, 1, 5, 8, 7, 6, 2, 13, 14, 0, 3, 9, 11],
    [8, 5, 12, 9, 12, 5, 14, 6, 8, 13, 6, 5, 15, 13, 11, 11]⟩]

/-- Sixteen steps over the words of a block. -/
def Round.run (words : List UInt32) (s : State) (r : Round) : State :=
  (r.order.zip r.amounts).foldl (fun s step =>
    let t := rotateLeft (s.a + r.mix s.b s.c s.d + words.getD step.1 0 + r.constant) step.2 + s.e
    ⟨s.e, t, s.b, rotateLeft s.c 10, s.d⟩) s

/-- Fold one block of 64 bytes into the state. -/
def compress (s : State) (block : List UInt8) : State :=
  let words := wordsBy (fun a b c d => bigWord d c b a) block
  let l := left.foldl (Round.run words) s
  let r := right.foldl (Round.run words) s
  ⟨s.b + l.c + r.d, s.c + l.d + r.e, s.d + l.e + r.a, s.e + l.a + r.b, s.a + l.b + r.c⟩

/-- The RIPEMD-160 digest of a message, 20 bytes. -/
def digest (message : List UInt8) : List UInt8 :=
  let padded := message ++ filler message.length ++ leBytes 8 (8 * message.length)
  let s := (blocks (padded.length / 64) padded).foldl compress start
  [s.a, s.b, s.c, s.d, s.e].flatMap fun w => leBytes 4 w.toNat

/-- A digest has twenty bytes. -/
@[simp] theorem length_digest (message : List UInt8) : (digest message).length = 20 := by
  simp [digest]

end ContractScript.Digest.Ripemd160
