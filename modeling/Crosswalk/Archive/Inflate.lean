import Crosswalk.Archive.Fault
import Crosswalk.Archive.Huffman
import Crosswalk.Bytes

/-!
# Inflating

Compressed data are blocks of bits, the lowest bit of each byte first. A block holds plain bytes, or
words of a Huffman code that stand for bytes and for repetitions of what has been put out before.
The data must not end before the last block does; what follows it does not matter.
-/

namespace Crosswalk.Inflate

/-- The bits of a byte, the lowest one first. -/
def bitsOf (b : UInt8) : List Bool :=
  (List.range 8).map b.toNat.testBit

/-- The bits that are left, and what has been put out. -/
structure Progress where
  bits : List Bool
  out : Array UInt8

/-- What inflating comes to, unless the data are at fault. -/
abbrev Inflated := Except ArchiveFault

/-- The number that bits spell, the lowest one first. -/
def number : List Bool → Nat
  | [] => 0
  | bit :: rest => bit.toNat + 2 * number rest

/-- Reads a number of `n` bits and goes on with it. -/
def readNumber {α : Type} (n : Nat) (p : Progress) (next : Nat → Progress → Inflated α) :
    Inflated α :=
  let ⟨bits, out⟩ := p
  if (bits.take n).length = n then
    next (number (bits.take n)) ⟨bits.drop n, out⟩
  else
    .error .incompleteData

/-- Reads a word and goes on with its symbol. -/
def readWord {α : Type} (code : Huffman) (p : Progress) (next : Nat → Progress → Inflated α) :
    Inflated α :=
  let ⟨bits, out⟩ := p
  match code.read bits with
  | .symbol s rest => next s ⟨rest, out⟩
  | .cut => .error .incompleteData
  | .none => .error .corruptData

/-! ## Repetitions -/

/-- The shortest lengths of repetitions, from symbol 257 on, and how many bits are added. -/
def lengths : List (Nat × Nat) :=
  [(3, 0), (4, 0), (5, 0), (6, 0), (7, 0), (8, 0), (9, 0), (10, 0), (11, 1), (13, 1), (15, 1),
    (17, 1), (19, 2), (23, 2), (27, 2), (31, 2), (35, 3), (43, 3), (51, 3), (59, 3), (67, 4),
    (83, 4), (99, 4), (115, 4), (131, 5), (163, 5), (195, 5), (227, 5), (258, 0)]

/-- The shortest distances of repetitions, and how many bits are added. -/
def distances : List (Nat × Nat) :=
  [(1, 0), (2, 0), (3, 0), (4, 0), (5, 1), (7, 1), (9, 2), (13, 2), (17, 3), (25, 3), (33, 4),
    (49, 4), (65, 5), (97, 5), (129, 6), (193, 6), (257, 7), (385, 7), (513, 8), (769, 8),
    (1025, 9), (1537, 9), (2049, 10), (3073, 10), (4097, 11), (6145, 11), (8193, 12), (12289, 12),
    (16385, 13), (24577, 13)]

/-- Puts out `n` bytes, each the one at the given distance. Before the first byte all are zero. -/
def copy (distance : Nat) : Nat → Array UInt8 → Array UInt8
  | 0, out => out
  | n + 1, out =>
    let b := if distance ≤ out.size then out[out.size - distance]?.getD 0 else 0
    copy distance n (out.push b)

/-- Reads what is added to the least value of a symbol, and goes on with the sum. -/
def readExtra {α : Type} (table : List (Nat × Nat)) (symbol : Nat) (p : Progress)
    (next : Nat → Progress → Inflated α) : Inflated α :=
  match table[symbol]? with
  | some (least, bits) => readNumber bits p fun extra p => next (least + extra) p
  | none => .error .corruptData

/-- Reads the rest of a repetition and puts it out. -/
def repetition (symbol : Nat) (distanceCode : Huffman) (p : Progress) : Inflated Progress :=
  readExtra lengths symbol p fun n p =>
    readWord distanceCode p fun s p =>
      readExtra distances s p fun distance p => .ok ⟨p.bits, copy distance n p.out⟩

/-! ## Blocks -/

/-- Reads words up to the one that ends the block, at most `fuel` of them. Every word has a bit, so
the number of bits is fuel enough. -/
def words (code distanceCode : Huffman) : Nat → Progress → Inflated Progress
  | 0, _ => .error .incompleteData
  | fuel + 1, p =>
    readWord code p fun s p =>
      if s < 256 then
        words code distanceCode fuel ⟨p.bits, p.out.push (UInt8.ofNat s)⟩
      else if s = 256 then
        .ok p
      else
        match repetition (s - 257) distanceCode p with
        | .ok p => words code distanceCode fuel p
        | .error e => .error e

/-- A block of words of the given codes. -/
def coded (code distanceCode : Huffman) (p : Progress) : Inflated Progress :=
  words code distanceCode (p.bits.length + 1) p

/-- The lengths of the words of the code that no block has to spell out. -/
def fixedLengths : List Nat :=
  List.replicate 144 8 ++ List.replicate 112 9 ++ List.replicate 24 7 ++ List.replicate 8 8

/-- A block of words of the code that no block has to spell out. -/
def fixed (p : Progress) : Inflated Progress :=
  coded (.ofLengths fixedLengths) (.ofLengths (List.replicate 32 5)) p

/-- Reads `n` plain bytes and puts them out. -/
def plainBytes : Nat → Progress → Inflated Progress
  | 0, p => .ok p
  | n + 1, p => readNumber 8 p fun b p => plainBytes n ⟨p.bits, p.out.push (UInt8.ofNat b)⟩

/-- A block of plain bytes, which starts with a whole byte: their number, and once more with its
bits turned over. -/
def plain (p : Progress) : Inflated Progress :=
  readNumber (p.bits.length % 8) p fun _ p =>
    readNumber 16 p fun n p =>
      readNumber 16 p fun turned p =>
        if n + turned = 65535 then plainBytes n p else .error .corruptData

/-- The order in which the lengths of the words for lengths are listed. -/
def lengthOrder : List Nat :=
  [16, 17, 18, 0, 8, 7, 9, 6, 10, 5, 11, 4, 12, 3, 13, 2, 14, 1, 15]

/-- Reads `n` lengths of three bits each. -/
def shortLengths {α : Type} : Nat → List Nat → Progress → (List Nat → Progress → Inflated α) →
    Inflated α
  | 0, done, p, next => next done.reverse p
  | n + 1, done, p, next => readNumber 3 p fun l p => shortLengths n (l :: done) p next

/-- Reads words for lengths until there are `wanted` lengths. The last lengths come first in
`done`, and each word brings at least one. -/
def wordLengths {α : Type} (code : Huffman) (wanted : Nat) :
    Nat → List Nat → Progress → (List Nat → Progress → Inflated α) → Inflated α
  | 0, done, p, next => if done.length = wanted then next done.reverse p else .error .corruptData
  | fuel + 1, done, p, next =>
    if wanted ≤ done.length then
      if done.length = wanted then next done.reverse p else .error .corruptData
    else
      readWord code p fun s p =>
        let again (bits least l : Nat) :=
          readNumber bits p fun extra p =>
            wordLengths code wanted fuel (List.replicate (least + extra) l ++ done) p next
        if s < 16 then wordLengths code wanted fuel (s :: done) p next
        else if s = 16 then
          match done with
          | l :: _ => again 2 3 l
          | [] => .error .corruptData
        else if s = 17 then again 3 3 0
        else again 7 11 0

/-- The length that is listed for a symbol, or 0. -/
def listedLength (listed : List Nat) (symbol : Nat) : Nat :=
  ((lengthOrder.zip listed).lookup symbol).getD 0

/-- A block of words of codes that it spells out itself, by the lengths of their words. -/
def spelledOut (p : Progress) : Inflated Progress :=
  readNumber 5 p fun more p =>
    readNumber 5 p fun moreDistances p =>
      readNumber 4 p fun moreLengths p =>
        let count := 257 + more
        let distanceCount := 1 + moreDistances
        if 286 < count || 30 < distanceCount then .error .corruptData
        else
          shortLengths (4 + moreLengths) [] p fun listed p =>
            let ls := (List.range 19).map (listedLength listed)
            if !Huffman.isComplete ls then .error .corruptData
            else
              let total := count + distanceCount
              wordLengths (.ofLengths ls) total total [] p fun all p =>
                let own := all.take count
                let distances := all.drop count
                if Huffman.isUsable own && Huffman.isUsable distances then
                  coded (.ofLengths own) (.ofLengths distances) p
                else
                  .error .corruptData

/-- A block of the given kind. -/
def block (kind : Nat) (p : Progress) : Inflated Progress :=
  match kind with
  | 0 => plain p
  | 1 => fixed p
  | 2 => spelledOut p
  | _ => .error .corruptData

/-- Reads blocks up to the last one, at most `fuel` of them. Every block has a bit, so the number of
bits is fuel enough. -/
def blocks : Nat → Progress → Inflated Progress
  | 0, _ => .error .incompleteData
  | fuel + 1, p =>
    readNumber 1 p fun isLast p =>
      readNumber 2 p fun kind p =>
        match block kind p with
        | .ok p => if isLast = 1 then .ok p else blocks fuel p
        | .error e => .error e

end Crosswalk.Inflate

namespace Crosswalk

/-- What compressed data stand for. -/
def inflate (data : Bytes) : Except ArchiveFault Bytes :=
  let bits := data.flatMap Inflate.bitsOf
  (Inflate.blocks (bits.length + 1) ⟨bits, #[]⟩).map (·.out.toList)

end Crosswalk
