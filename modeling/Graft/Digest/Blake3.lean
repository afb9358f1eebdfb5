/-!
# BLAKE3

The hash function BLAKE3 with an output of 32 bytes. A text is cut into chunks of 1024 bytes, the
chunks are the leaves of a binary tree whose left subtrees are full, and the node at the root is
compressed with a mark of its own.
-/

namespace Graft.Blake3

/-- Four words that are mixed side by side. -/
structure Row where
  a : UInt32
  b : UInt32
  c : UInt32
  d : UInt32
  deriving DecidableEq, Repr

namespace Row

def zip (f : UInt32 → UInt32 → UInt32) (x y : Row) : Row :=
  ⟨f x.a y.a, f x.b y.b, f x.c y.c, f x.d y.d⟩

def add (x y : Row) : Row := x.zip (· + ·) y

/-- The exclusive or of two rows, each word rotated to the right. -/
def mix (n : UInt32) (x y : Row) : Row :=
  x.zip (fun u v => let w := u ^^^ v; (w >>> n) ||| (w <<< (32 - n))) y

/-- The row with its first word moved to the end. -/
def turn (x : Row) : Row := ⟨x.b, x.c, x.d, x.a⟩

def words (x : Row) : List UInt32 := [x.a, x.b, x.c, x.d]

end Row

/-- The sixteen words of the state, as four rows. -/
structure State where
  r0 : Row
  r1 : Row
  r2 : Row
  r3 : Row
  deriving DecidableEq, Repr

/-- Mixes the four columns with the message words `x` and `y`. -/
def State.mixColumns (s : State) (x y : Row) : State :=
  let r0 := (s.r0.add s.r1).add x
  let r3 := s.r3.mix 16 r0
  let r2 := s.r2.add r3
  let r1 := s.r1.mix 12 r2
  let r0 := (r0.add r1).add y
  let r3 := r3.mix 8 r0
  let r2 := r2.add r3
  ⟨r0, r1.mix 7 r2, r2, r3⟩

/-- Moves the diagonals into the columns. -/
def State.toDiagonals (s : State) : State :=
  ⟨s.r0, s.r1.turn, s.r2.turn.turn, s.r3.turn.turn.turn⟩

/-- Moves the diagonals back. -/
def State.ofDiagonals (s : State) : State :=
  ⟨s.r0, s.r1.turn.turn.turn, s.r2.turn.turn, s.r3.turn⟩

/-- The sixteen words of a block. -/
abbrev Message := Array UInt32

namespace Message

/-- The words at four places. -/
def row (m : Message) (i j k l : Nat) : Row :=
  ⟨m.getD i 0, m.getD j 0, m.getD k 0, m.getD l 0⟩

/-- The order of the words in the next round. -/
def order : Array Nat := #[2, 6, 3, 10, 7, 0, 4, 13, 1, 11, 12, 5, 9, 14, 15, 8]

def permute (m : Message) : Message := order.map fun i => m.getD i 0

/-- The number held in four bytes, the lowest first. -/
def word (bytes : List UInt8) : UInt32 :=
  bytes.foldr (fun b w => (w <<< 8) ||| b.toUInt32) 0

/-- The first `count` words of a text, completed by zero bytes. -/
def wordsOf : Nat → List UInt8 → List UInt32
  | 0, _ => []
  | count + 1, bytes => word (bytes.take 4) :: wordsOf count (bytes.drop 4)

/-- A block of at most 64 bytes. -/
def ofBytes (bytes : List UInt8) : Message := (wordsOf 16 bytes).toArray

end Message

def round (s : State) (m : Message) : State :=
  let columns := s.mixColumns (m.row 0 2 4 6) (m.row 1 3 5 7)
  (columns.toDiagonals.mixColumns (m.row 8 10 12 14) (m.row 9 11 13 15)).ofDiagonals

def rounds : Nat → State → Message → State
  | 0, s, _ => s
  | n + 1, s, m => rounds n (round s m) m.permute

/-- The eight words that one compression passes to the next. -/
structure Chain where
  low : Row
  high : Row
  deriving DecidableEq, Repr

/-- The words that a hash starts from. -/
def start : Chain :=
  ⟨⟨0x6A09E667, 0xBB67AE85, 0x3C6EF372, 0xA54FF53A⟩,
    ⟨0x510E527F, 0x9B05688C, 0x1F83D9AB, 0x5BE0CD19⟩⟩

/-- A compression that is still to be done. -/
structure Node where
  chain : Chain
  message : Message
  counter : Nat
  length : Nat
  flags : UInt32

def chunkStart : UInt32 := 1
def chunkEnd : UInt32 := 2
def parentNode : UInt32 := 4
def rootNode : UInt32 := 8

/-- Does the compression, with `more` flags. -/
def Node.compress (n : Node) (more : UInt32) : Chain :=
  let tail : Row :=
    ⟨n.counter.toUInt32, (n.counter >>> 32).toUInt32, n.length.toUInt32,
      n.flags ||| more⟩
  let s := rounds 7 ⟨n.chain.low, n.chain.high, start.low, tail⟩ n.message
  ⟨s.r0.zip (· ^^^ ·) s.r2, s.r1.zip (· ^^^ ·) s.r3⟩

/-- The last block of a chunk; `flags` mark the block ahead as the first one of its chunk. -/
def chunkFrom (counter : Nat) (chain : Chain) (flags : UInt32) (bytes : List UInt8) : Node :=
  if _h : 64 < bytes.length then
    let block : Node := ⟨chain, .ofBytes (bytes.take 64), counter, 64, flags⟩
    chunkFrom counter (block.compress 0) 0 (bytes.drop 64)
  else ⟨chain, .ofBytes bytes, counter, bytes.length, flags ||| chunkEnd⟩
termination_by bytes.length
decreasing_by simp only [List.length_drop]; omega

/-- A chunk of at most 1024 bytes. -/
def chunk (counter : Nat) (bytes : List UInt8) : Node := chunkFrom counter start chunkStart bytes

/-- How many of more than 1024 bytes go to the left: the largest power of two of whole chunks that
leaves something for the right. -/
def leftLength (length : Nat) : Nat := 1024 * Nat.pow 2 ((length - 1) / 1024).log2

theorem leftLength_pos (length : Nat) : 0 < leftLength length :=
  Nat.mul_pos (by decide) (Nat.two_pow_pos _)

theorem leftLength_lt {length : Nat} (h : 1024 < length) : leftLength length < length := by
  have hne : (length - 1) / 1024 ≠ 0 := by
    have := Nat.div_pos (show 1024 ≤ length - 1 by omega) (by decide)
    omega
  have hle : Nat.pow 2 ((length - 1) / 1024).log2 ≤ (length - 1) / 1024 := Nat.log2_self_le hne
  have := Nat.mul_le_mul_left 1024 hle
  have hd := Nat.mul_div_le (length - 1) 1024
  unfold leftLength
  omega

/-- The tree over a text that starts with the chunk number `counter`. -/
def tree (counter : Nat) (bytes : List UInt8) : Node :=
  if _h : 1024 < bytes.length then
    let left := leftLength bytes.length
    let l := (tree counter (bytes.take left)).compress 0
    let r := (tree (counter + left / 1024) (bytes.drop left)).compress 0
    ⟨start, (l.low.words ++ l.high.words ++ r.low.words ++ r.high.words).toArray, 0, 64,
      parentNode⟩
  else chunk counter bytes
termination_by bytes.length
decreasing_by
  · have := leftLength_lt _h
    simp only [List.length_take]
    omega
  · have := leftLength_pos bytes.length
    simp only [List.length_drop]
    omega

/-- The four bytes of a word, the lowest first. -/
def wordBytes (w : UInt32) : List UInt8 :=
  [w.toUInt8, (w >>> 8).toUInt8, (w >>> 16).toUInt8, (w >>> 24).toUInt8]

/-- The hash of a text. -/
def hash (bytes : List UInt8) : List UInt8 :=
  let c := (tree 0 bytes).compress rootNode
  (c.low.words ++ c.high.words).flatMap wordBytes

end Graft.Blake3
