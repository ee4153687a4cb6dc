/-!
# Huffman codes

A code is given by the lengths of the code words alone: shorter words come before longer ones, and
words of one length are in the order of their symbols. A word is then read bit by bit, going down
one level of the code for each bit.
-/

namespace Crosswalk

/-- The symbols of a code by the length of their words, from length one on. -/
structure Huffman where
  levels : List (Array Nat)
  deriving Repr

namespace Huffman

/-- The longest word has this many bits. -/
def maxLength : Nat := 15

/-- The symbols whose words have the given length. -/
def level (lengths : List Nat) (length : Nat) : Array Nat :=
  (lengths.zipIdx.filterMap fun (l, symbol) => if l = length then some symbol else none).toArray

/-- The longest words that begin with a word of the given length. -/
def places (length : Nat) : Nat :=
  Nat.pow 2 (maxLength - length)

/-- The lengths of the words of a code. Length 0 means that a symbol has no word. -/
def used (lengths : List Nat) : List Nat :=
  lengths.filter (0 < ·)

/-- Whether words of these lengths fill all places of the code. -/
def isComplete (lengths : List Nat) : Bool :=
  (used lengths).foldl (fun n l => n + places l) 0 = places 0

/-- Whether a code with words of these lengths can be used. It has to be complete, or have at most
one word, of a single bit. -/
def isUsable (lengths : List Nat) : Bool :=
  used lengths = [] || used lengths = [1] || isComplete lengths

/-- The code with words of the given lengths. There is a level for every bit of the longest word,
and one even if there is no word. -/
def ofLengths (lengths : List Nat) : Huffman :=
  ⟨(List.range (lengths.foldl max 1)).map fun l => level lengths (l + 1)⟩

/-- What comes of reading a word. -/
inductive Word
  | symbol (s : Nat) (rest : List Bool)
  /-- The bits end within the word. -/
  | cut
  /-- No word starts like this. -/
  | none

/-- Goes down the levels. `offset` is the place of the bits so far behind the words of their
length. -/
def descend : List (Array Nat) → Nat → List Bool → Word
  | [], _, _ => .none
  | _ :: _, _, [] => .cut
  | level :: deeper, offset, bit :: rest =>
    let offset := 2 * offset + bit.toNat
    match level[offset]? with
    | some s => .symbol s rest
    | Option.none => descend deeper (offset - level.size) rest

/-- Reads a word. -/
def read (h : Huffman) (bits : List Bool) : Word :=
  descend h.levels 0 bits

end Huffman

end Crosswalk
