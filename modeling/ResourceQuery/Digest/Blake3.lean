import ResourceQuery.Numeral.Power
/-!
# BLAKE3

The hash of a sequence of octets, in its plain mode. Data is cut into chunks of 1024 octets, which
are the leaves of a binary tree: the left part of every inner node is full and as large as can be.
A node is known by the input of its last compression; the hash is taken from the root, which alone
is compressed with a flag of its own.
-/

namespace ResourceQuery.Blake3

abbrev Words := Vector UInt32 16

/-- Eight words that a node passes on to its parent. -/
abbrev Chaining := Vector UInt32 8

def initial : Chaining :=
  #v[0x6A09E667, 0xBB67AE85, 0x3C6EF372, 0xA54FF53A, 0x510E527F, 0x9B05688C, 0x1F83D9AB, 0x5BE0CD19]

def chunkSize : Nat := 1024

def blockSize : Nat := 64

def chunkStart : UInt32 := 1

def chunkEnd : UInt32 := 2

def parentNode : UInt32 := 4

def rootNode : UInt32 := 8

def rotateRight (x : UInt32) (n : UInt32) : UInt32 := (x >>> n) ||| (x <<< (32 - n))

/-- Mix two message words into a column or a diagonal of the state. -/
def mix (v : Words) (a b c d : Fin 16) (x y : UInt32) : Words :=
  let va := v[a] + v[b] + x
  let vd := rotateRight (v[d] ^^^ va) 16
  let vc := v[c] + vd
  let vb := rotateRight (v[b] ^^^ vc) 12
  let va := va + vb + y
  let vd := rotateRight (vd ^^^ va) 8
  let vc := vc + vd
  let vb := rotateRight (vb ^^^ vc) 7
  (((v.set a va).set b vb).set c vc).set d vd

/-- All four columns, then all four diagonals. -/
def round (v m : Words) : Words :=
  let v := mix v 0 4 8 12 m[0] m[1]
  let v := mix v 1 5 9 13 m[2] m[3]
  let v := mix v 2 6 10 14 m[4] m[5]
  let v := mix v 3 7 11 15 m[6] m[7]
  let v := mix v 0 5 10 15 m[8] m[9]
  let v := mix v 1 6 11 12 m[10] m[11]
  let v := mix v 2 7 8 13 m[12] m[13]
  mix v 3 4 9 14 m[14] m[15]

/-- The order of the message words in the next round. -/
def permute (m : Words) : Words :=
  #v[m[2], m[6], m[3], m[10], m[7], m[0], m[4], m[13], m[1], m[11], m[12], m[5], m[9], m[14], m[15],
    m[8]]

def rounds : Nat → Words → Words → Words
  | 0, v, _ => v
  | n + 1, v, m => rounds n (round v m) (permute m)

/-- The input of a compression. -/
structure Node where
  chaining : Chaining
  block : Words
  counter : Nat
  length : Nat
  flags : UInt32

namespace Node

/-- The eight words that a node passes on, which are also the first ones of a hash. -/
def compress (n : Node) (extra : UInt32) : Chaining :=
  let h := n.chaining
  let v := rounds 7
    #v[h[0], h[1], h[2], h[3], h[4], h[5], h[6], h[7], initial[0], initial[1], initial[2],
      initial[3], UInt32.ofNat n.counter, UInt32.ofNat (n.counter / 0x100000000), UInt32.ofNat n.length,
      n.flags ||| extra] n.block
  #v[v[0] ^^^ v[8], v[1] ^^^ v[9], v[2] ^^^ v[10], v[3] ^^^ v[11], v[4] ^^^ v[12], v[5] ^^^ v[13],
    v[6] ^^^ v[14], v[7] ^^^ v[15]]

/-- A node over two others. -/
def parent (left right : Node) : Node :=
  let l := left.compress 0
  let r := right.compress 0
  ⟨initial, #v[l[0], l[1], l[2], l[3], l[4], l[5], l[6], l[7], r[0], r[1], r[2], r[3], r[4], r[5],
    r[6], r[7]], 0, blockSize, parentNode⟩

end Node

/-- The word of four octets from an index on, the least octet first, with zeros past the end. -/
def wordAt (block : List UInt8) (index : Nat) : UInt32 :=
  let octet (i : Nat) : UInt32 := (block.getD (index + i) 0).toUInt32
  octet 0 ||| (octet 1 <<< 8) ||| (octet 2 <<< 16) ||| (octet 3 <<< 24)

def blockWords (block : List UInt8) : Words := Vector.ofFn fun i => wordAt block (4 * i.val)

/-- The last compression of a chunk, after the given number of blocks of it at most. -/
def chunkFrom (counter : Nat) : Nat → UInt32 → Chaining → List UInt8 → Node
  | 0, flags, chaining, block =>
    ⟨chaining, blockWords block, counter, block.length, flags ||| chunkEnd⟩
  | blocks + 1, flags, chaining, octets =>
    let block := octets.take blockSize
    let rest := octets.drop blockSize
    if rest.isEmpty then ⟨chaining, blockWords block, counter, block.length, flags ||| chunkEnd⟩
    else
      let node : Node := ⟨chaining, blockWords block, counter, blockSize, flags⟩
      chunkFrom counter blocks 0 (node.compress 0) rest

def chunk (counter : Nat) (octets : List UInt8) : Node :=
  chunkFrom counter (chunkSize / blockSize) chunkStart initial octets

/-- The number of chunks in the left part of a node over so many octets: the greatest power of two
that leaves something for the right part. -/
def leftChunks (length : Nat) : Nat := 2 ^ ((length - 1) / chunkSize).log2

/-- The node over octets, of which so many chunks stand in front. The depth bounds the tree. -/
def tree : Nat → Nat → List UInt8 → Node
  | 0, counter, octets => chunk counter octets
  | depth + 1, counter, octets =>
    if octets.length ≤ chunkSize then chunk counter octets
    else
      let left := leftChunks octets.length
      Node.parent (tree depth counter (octets.take (left * chunkSize)))
        (tree depth (counter + left) (octets.drop (left * chunkSize)))

/-- The 32 octets of the hash. -/
def hash (octets : List UInt8) : List UInt8 :=
  ((tree octets.length 0 octets).compress rootNode).toList.flatMap fun (word : UInt32) =>
    [word.toUInt8, (word >>> 8).toUInt8, (word >>> 16).toUInt8, (word >>> 24).toUInt8]

/-- The hash in hexadecimal digits. -/
def hexHash (octets : List UInt8) : String :=
  String.ofList
    ((hash octets).flatMap fun b => [Nat.digitChar (b.toNat / 16), Nat.digitChar (b.toNat % 16)])

end ResourceQuery.Blake3
