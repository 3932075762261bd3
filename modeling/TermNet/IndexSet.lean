namespace TermNet

/-!
# Index sets — finite sets of small numbers as words of bits

A run of the matcher carries the set of patterns that no constraint has refuted
yet.  The set is stored as 64-bit words: number `i` is in the set when bit
`i % 64` of word `i / 64` is set.

* `empty`, `full`, `ofList` — where sets start from;
* `insert`, `erase`, `eraseAll` — changes; inserting past the end adds words,
  erasing never removes any;
* `contains`, `meets`, `isEmpty`, `size`, `toList` — questions.
-/

/-- Sets of numbers, as the words of their bits. -/
structure IndexSet where
  /-- Word `k` holds the bits of the numbers from `64 * k` on. -/
  words : List UInt64 := []
deriving DecidableEq, Repr, Inhabited

namespace IndexSet

/-- The set without members. -/
def empty : IndexSet := {}

/-- The bit of `index` within its word. -/
def bit (index : Nat) : UInt64 := 1 <<< (UInt64.ofNat (index % 64))

/-- Whether `index` is a member. -/
def contains (set : IndexSet) (index : Nat) : Bool :=
  match set.words[index / 64]? with
  | some word => word &&& bit index != 0
  | none => false

/-- The set of the numbers below `count`. -/
def full (count : Nat) : IndexSet where
  words := List.replicate (count / 64) (0 - 1) ++ if count % 64 = 0 then [] else [bit count - 1]

/-- Add `index`, with as many words as that takes. -/
def insert (set : IndexSet) (index : Nat) : IndexSet where
  words := (set.words ++ List.replicate (index / 64 + 1 - set.words.length) 0).modify (index / 64)
    (· ||| bit index)

/-- Take `index` away. -/
def erase (set : IndexSet) (index : Nat) : IndexSet where
  words := set.words.modify (index / 64) (· &&& ~~~ bit index)

/-- Take all numbers of a list away. -/
def eraseAll (set : IndexSet) (indices : List Nat) : IndexSet := indices.foldl erase set

/-- The set of the numbers of a list. -/
def ofList (indices : List Nat) : IndexSet := indices.foldl insert empty

/-- Whether some number of a list is a member. -/
def meets (set : IndexSet) (indices : List Nat) : Bool := indices.any set.contains

/-- Whether the set has no members. -/
def isEmpty (set : IndexSet) : Bool := set.words.all (· == 0)

/-- The positions of the bits of a word. -/
def bitsOf (word : UInt64) : List Nat := (List.range 64).filter fun position =>
  word &&& bit position != 0

/-- Number of members. -/
def size (set : IndexSet) : Nat := (set.words.flatMap bitsOf).length

/-- The members of the words from position `base` on, in increasing order. -/
def membersFrom (base : Nat) : List UInt64 → List Nat
  | [] => []
  | word :: rest => (bitsOf word).map (base + ·) ++ membersFrom (base + 64) rest

/-- The members in increasing order. -/
def toList (set : IndexSet) : List Nat := membersFrom 0 set.words

end IndexSet

end TermNet
