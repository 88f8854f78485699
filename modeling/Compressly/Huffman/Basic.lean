/-
# `Compressly.Huffman.Basic` — canonical Huffman coding, as the source computes it

    countFrequencies     bytes            ↦ frequency table
    buildLengths         frequency table  ↦ length table, no length above 15
    buildCanonicalCodes  length table     ↦ code table
    DecodeTree           length table     ↦ binary trie

Definitions only.  `Huffman.Lengths` proves what `buildLengths` guarantees,
`Huffman.Codes` what the code table and the trie are.

Three representations differ from the C++ in form.  A tree node is a leaf or
has two children, where the source writes -1 for both children of a leaf.  The
priority queue is the list of its elements, the next one to be popped first:
`cheaper` orders distinct indices strictly, so its top is a function of its
contents.  The traversal of the finished tree is given one unit of fuel per
node; that it never runs out is part of `leafDepthHistogram_eq`.
-/
import Compressly.Format
import Compressly.Lib.Bits

namespace Compressly.Huffman

open Bits

def kByteAlphabetSize : Nat := 256

def kMaxCodeLength : Nat := 15

/-- One count per symbol. -/
abbrev FreqTable := List Nat

/-- One code length per symbol, 0 for a symbol that does not occur. -/
abbrev LengthTable := List Nat

structure Code where
  bits : Nat := 0
  length : Nat := 0
deriving DecidableEq, Repr

abbrev CodeTable := List Code

/-- `static_cast<int>(size)` as the bound of a loop that counts up from 0.  The int has 32
bits: a table of `2 ^ 31` entries makes it negative, and the loop makes no round. -/
def alphabetSize (size : Nat) : Nat := (BitVec.ofNat 32 size).toInt.toNat

/-- `++table[i]`. -/
def bump (table : List Nat) (i : Nat) : Result (List Nat) := do
  let n ← fetch table i
  store table i (n + 1)

/-- Byte frequencies over `data`. -/
def countFrequencies (data : List UInt8) : Result FreqTable :=
  data.foldlM (fun freq byte => bump freq byte.toNat) (List.replicate kByteAlphabetSize 0)

/-! ## The Huffman tree -/

/-- A tree node; children are indices into the node table. -/
inductive Node where
  | leaf (freq : Nat)
  | inner (freq left right : Nat)
deriving DecidableEq, Repr

def Node.freq : Node → Nat
  | .leaf freq => freq
  | .inner freq _ _ => freq

def freqAt (nodes : List Node) (i : Nat) : Nat := (nodes[i]?.map Node.freq).getD 0

/-- The comparator of the heap: `a` leaves after `b`.  Ties break on the index. -/
def cheaper (nodes : List Node) (a b : Nat) : Bool :=
  let fa := freqAt nodes a
  let fb := freqAt nodes b
  if fa ≠ fb then decide (fa > fb) else decide (a > b)

/-- `heap.push`: the heap lists its elements in the order they will leave it. -/
def push (nodes : List Node) (i : Nat) : List Nat → List Nat
  | [] => [i]
  | j :: heap => if cheaper nodes i j then j :: push nodes i heap else i :: j :: heap

@[simp] theorem length_push (nodes : List Node) (i : Nat) (heap : List Nat) :
    (push nodes i heap).length = heap.length + 1 := by
  induction heap with
  | nil => rfl
  | cons j heap ih =>
      rw [push]
      split
      · simp [ih]
      · rfl

/-- `while (heap.size() > 1)`: the two cheapest trees become one. -/
def mergeAll (nodes : List Node) : List Nat → Result (List Node × Nat)
  | [] => throw .fault
  | [root] => pure (nodes, root)
  | a :: b :: heap =>
      let combined := u64 (freqAt nodes a + freqAt nodes b)
      let nodes' := nodes ++ [.inner combined a b]
      mergeAll nodes' (push nodes' nodes.length heap)
termination_by heap => heap.length
decreasing_by simp

/-- The traversal loop: `stack` holds pairs of a node index and its depth. -/
def leafDepthLoop (nodes : List Node) : Nat → List (Nat × Nat) → List Nat → Result (List Nat)
  | _, [], count => pure count
  | 0, _ :: _, _ => throw .fault
  | fuel + 1, (index, depth) :: stack, count => do
      match ← fetch nodes index with
      | .leaf _ =>
          let count ← bump count (min depth kMaxCodeLength)
          leafDepthLoop nodes fuel stack count
      | .inner _ left right =>
          leafDepthLoop nodes fuel ((right, depth + 1) :: (left, depth + 1) :: stack) count

/-- Leaf depths by count, those beyond the limit clamped into the last bucket. -/
def leafDepthHistogram (nodes : List Node) (root : Nat) : Result (List Nat) :=
  leafDepthLoop nodes nodes.length [(root, 0)] (List.replicate (kMaxCodeLength + 1) 0)

/-! ## The length limit -/

/-- `while (count[length] == 0) --length`; below level 0 lies no array. -/
def deepestLeaf (count : List Nat) : Nat → Result Nat
  | 0 => do
      if (← fetch count 0) = 0 then throw .fault
      pure 0
  | length + 1 => do
      if (← fetch count (length + 1)) = 0 then deepestLeaf count length
      else pure (length + 1)

/-- `while (kraft > limit)`: the deepest leaf short of the limit goes one level down. -/
def limitLoop (count : List Nat) (kraft : Nat) : Result (List Nat) :=
  if 2 ^ kMaxCodeLength < kraft then do
    let length ← deepestLeaf count (kMaxCodeLength - 1)
    if length < 1 then throw .fault
    let shallow ← fetch count length
    let count ← store count length (shallow - 1)
    let count ← bump count (length + 1)
    if 2 ^ (kMaxCodeLength - length - 1) ≤ kraft then
      limitLoop count (kraft - 2 ^ (kMaxCodeLength - length - 1))
    else throw .fault
  else pure count
termination_by kraft
decreasing_by
  have : 0 < 2 ^ (kMaxCodeLength - length - 1) := Nat.two_pow_pos _
  omega

/-- The Kraft sum of a histogram, in units of `2 ^ -kMaxCodeLength`. -/
def histogramKraft (count : List Nat) : Result Nat :=
  (List.range' 1 kMaxCodeLength).foldlM
    (fun kraft length => do
      let n ← fetch count length
      pure (kraft + n <<< (kMaxCodeLength - length)))
    0

def enforceLengthLimit (count : List Nat) : Result (List Nat) := do
  let kraft ← histogramKraft count
  limitLoop count kraft

/-! ## Code lengths -/

/-- The order of `std::sort`: more frequent first, then by symbol. -/
def moreFrequent (freq : FreqTable) (a b : Nat) : Bool :=
  let fa := freq.getD a 0
  let fb := freq.getD b 0
  if fa ≠ fb then decide (fa > fb) else decide (a ≤ b)

/-- The lengths a histogram stands for, in the order the last loops hand them out. -/
def lengthsOf (count : List Nat) : Result (List Nat) :=
  (List.range' 1 kMaxCodeLength).foldlM
    (fun ls length => do
      let n ← fetch count length
      pure (ls ++ List.replicate n length))
    []

/-- `lengths[present[index++]] = length` for each length in turn, and the final `assert`. -/
def assignLengths : LengthTable → List Nat → List Nat → Result LengthTable
  | lengths, [], [] => pure lengths
  | _, _ :: _, [] => throw .fault
  | _, [], _ :: _ => throw .fault
  | lengths, symbol :: present, length :: ls => do
      let lengths ← store lengths symbol length
      assignLengths lengths present ls

/-- The symbols that occur, in increasing order, as far as the loop over the table gets. -/
def presentSymbols (freq : FreqTable) : List Nat :=
  (List.range (alphabetSize freq.length)).filter fun symbol => freq.getD symbol 0 ≠ 0

/-- The node table and the heap before the first merge. -/
def leafNodes (freq : FreqTable) (present : List Nat) : List Node :=
  present.map fun symbol => .leaf (freq.getD symbol 0)

def initialHeap (nodes : List Node) : List Nat :=
  (List.range nodes.length).foldl (fun heap i => push nodes i heap) []

/-- A code length per symbol, none above `kMaxCodeLength`. -/
def buildLengths (freq : FreqTable) : Result LengthTable := do
  let lengths := List.replicate freq.length 0
  match presentSymbols freq with
  | [] => pure lengths
  | [symbol] => store lengths symbol 1
  | present =>
      let nodes := leafNodes freq present
      let (nodes, root) ← mergeAll nodes (initialHeap nodes)
      let count ← leafDepthHistogram nodes root
      let count ← enforceLengthLimit count
      let ls ← lengthsOf count
      assignLengths lengths (present.insertionSort fun a b => moreFrequent freq a b) ls

/-! ## Canonical codes -/

/-- How many symbols have each length. -/
def lengthCounts (lengths : LengthTable) : Result (List Nat) :=
  lengths.foldlM (fun count length => if length ≠ 0 then bump count length else pure count)
    (List.replicate (kMaxCodeLength + 1) 0)

/-- The first code of each length: one past the last of the length before, shifted. -/
def firstCodes (count : List Nat) : Result (List Nat) := do
  let (nextCode, _) ← (List.range' 1 kMaxCodeLength).foldlM
    (fun (nextCode, code) length => do
      let n ← fetch count (length - 1)
      let code := ((code + n) <<< 1) % 2 ^ 32
      let nextCode ← store nextCode length code
      pure (nextCode, code))
    (List.replicate (kMaxCodeLength + 1) 0, 0)
  pure nextCode

/-- Codes within a length are handed out in increasing symbol order. -/
def assignCodes (nextCode : List Nat) : LengthTable → Result CodeTable
  | [] => pure []
  | length :: lengths => do
      if length = 0 then
        let codes ← assignCodes nextCode lengths
        pure ({} :: codes)
      else
        let bits ← fetch nextCode length
        let nextCode ← store nextCode length ((bits + 1) % 2 ^ 32)
        let codes ← assignCodes nextCode lengths
        pure ({ bits := bits, length := length } :: codes)

/-- Every length is counted, but codes are given only to the symbols the second loop reaches. -/
def buildCanonicalCodes (lengths : LengthTable) : Result CodeTable := do
  let reached := alphabetSize lengths.length
  let count ← lengthCounts lengths
  let nextCode ← firstCodes count
  let codes ← assignCodes nextCode (lengths.take reached)
  pure (codes ++ List.replicate (lengths.length - reached) ({} : Code))

/-! ## The decode trie -/

structure TrieNode where
  child0 : Option Nat := none
  child1 : Option Nat := none
  symbol : Option Nat := none
deriving DecidableEq, Repr

/-- `child[bit]`, where the source writes -1 for a missing edge. -/
def TrieNode.child (n : TrieNode) : Bool → Option Nat
  | false => n.child0
  | true => n.child1

def TrieNode.setChild (n : TrieNode) (bit : Bool) (next : Nat) : TrieNode :=
  match bit with
  | false => { n with child0 := some next }
  | true => { n with child1 := some next }

/-- The walk along one code, most significant bit first, adding the missing nodes. -/
def insertPath (nodes : List TrieNode) (node : Nat) : List Bool → Result (List TrieNode × Nat)
  | [] => pure (nodes, node)
  | bit :: bits => do
      let here ← fetch nodes node
      match here.child bit with
      | some next => insertPath nodes next bits
      | none =>
          let fresh := nodes.length
          let nodes ← store (nodes ++ [{}]) node (here.setChild bit fresh)
          insertPath nodes fresh bits

/-- One round of the constructor's loop. -/
def insertCode (nodes : List TrieNode) (symbol : Nat) (code : Code) : Result (List TrieNode) :=
  if code.length = 0 then pure nodes
  else do
    let (nodes, node) ← insertPath nodes 0 (natBits code.length code.bits)
    let leaf ← fetch nodes node
    store nodes node { leaf with symbol := some symbol }

/-- The constructor's loop from `symbol` on. -/
def insertCodes (nodes : List TrieNode) (symbol : Nat) : CodeTable → Result (List TrieNode)
  | [] => pure nodes
  | code :: codes => do
      let nodes ← insertCode nodes symbol code
      insertCodes nodes (symbol + 1) codes

structure DecodeTree where
  nodes : List TrieNode
deriving DecidableEq, Repr

namespace DecodeTree

def build (lengths : LengthTable) : Result DecodeTree := do
  let codes ← buildCanonicalCodes lengths
  let nodes ← insertCodes [{}] 0 (codes.take (alphabetSize lengths.length))
  pure { nodes := nodes }

def kRoot : Nat := 0

def step (tree : DecodeTree) (node : Nat) (bit : Bool) : Result (Option Nat) := do
  let n ← fetch tree.nodes node
  pure (n.child bit)

/-- `isLeaf` and `symbol` in one: the symbol of a leaf. -/
def leafSymbol (tree : DecodeTree) (node : Nat) : Result (Option Nat) := do
  let n ← fetch tree.nodes node
  pure n.symbol

end DecodeTree

end Compressly.Huffman
