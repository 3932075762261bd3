import Mathlib.Data.Nat.Bitwise
import TermNet.IndexSet

namespace TermNet.IndexSet

/-!
# Index sets as sets

Every operation is described by what it does to membership; membership is a bit of a
word.

* `contains_full`, `contains_insert`, `contains_ofList`, `contains_erase`, `contains_eraseAll` —
  the operations;
* `meets_eq_true_iff`, `isEmpty_eq_true_iff` — whether a set and a list have a common number, and
  whether a set has any;
* `eq_of_contains_eq` — words are known by their bits, so that sets of as many words are known by
  their members.
-/

/-! ### Bits of a word -/

/-- The word with one bit set is a power of two. -/
theorem toNat_bit (index : Nat) : (bit index).toNat = 2 ^ (index % 64) := by
  have hlt : index % 64 < 64 := Nat.mod_lt _ (by decide)
  have hpow : 2 ^ (index % 64) < 2 ^ 64 := Nat.pow_lt_pow_right (by decide) hlt
  rw [bit, UInt64.toNat_shiftLeft, UInt64.toNat_one, UInt64.toNat_ofNat', Nat.shiftLeft_eq,
    Nat.one_mul]
  rw [Nat.mod_eq_of_lt (a := index % 64) (by omega), Nat.mod_eq_of_lt hlt, Nat.mod_eq_of_lt hpow]

/-- A bit of a word. -/
theorem and_bit_ne_zero (word : UInt64) (index : Nat) :
    (word &&& bit index != 0) = word.toNat.testBit (index % 64) := by
  have hzero : (word &&& bit index != 0) = (word.toNat &&& 2 ^ (index % 64) != 0) := by
    rw [Bool.eq_iff_iff, bne_iff_ne, bne_iff_ne, ne_eq, ne_eq, ← UInt64.toNat_inj,
      UInt64.toNat_and, toNat_bit, UInt64.toNat_zero]
  rw [hzero, Nat.and_two_pow]
  cases word.toNat.testBit (index % 64) <;> simp

/-- Whether a number is in a set is one bit of one word, if there is that word. -/
theorem contains_eq_getElem? (set : IndexSet) (index : Nat) :
    set.contains index =
      (set.words[index / 64]?.any fun word => word.toNat.testBit (index % 64)) := by
  unfold contains
  cases set.words[index / 64]? with
  | none => rfl
  | some word => exact and_bit_ne_zero word index

/-! ### Full sets -/

/-- All bits of the greatest word are set. -/
theorem testBit_ones {position : Nat} (h : position < 64) :
    (0 - 1 : UInt64).toNat.testBit position = true := by
  have hones : (0 - 1 : UInt64).toNat = 2 ^ 64 - 1 := by decide
  rw [hones, Nat.testBit_two_pow_sub_one, decide_eq_true h]

/-- In the last word of a full set the first bits are set. -/
theorem testBit_lastWord (count position : Nat) :
    (bit count - 1).toNat.testBit position = decide (position < count % 64) := by
  have hpos : 0 < 2 ^ (count % 64) := Nat.two_pow_pos _
  have hle : (1 : UInt64) ≤ bit count := by
    rw [UInt64.le_iff_toNat_le, toNat_bit]
    exact hpos
  rw [UInt64.toNat_sub_of_le _ _ hle, toNat_bit, UInt64.toNat_one, Nat.testBit_two_pow_sub_one]

/-- **The full set** holds the numbers below its bound. -/
theorem contains_full (count index : Nat) :
    (full count).contains index = decide (index < count) := by
  have hposition : index % 64 < 64 := Nat.mod_lt _ (by decide)
  have hindex := Nat.div_add_mod index 64
  have hcount := Nat.div_add_mod count 64
  rw [contains_eq_getElem?, full]
  -- A word of ones, the last word, or no word at all.
  rcases Nat.lt_trichotomy (index / 64) (count / 64) with hlt | heq | hgt
  · rw [List.getElem?_append_left (by simpa using hlt), List.getElem?_replicate, if_pos hlt,
      Option.any_some, testBit_ones hposition]
    exact (decide_eq_true (by omega)).symm
  · rw [List.getElem?_append_right (by simp [heq]), List.length_replicate, heq, Nat.sub_self]
    by_cases hzero : count % 64 = 0
    · rw [if_pos hzero]
      exact (decide_eq_false (by omega)).symm
    · rw [if_neg hzero, List.getElem?_cons_zero, Option.any_some, testBit_lastWord]
      exact decide_eq_decide.mpr (by omega)
  · have hnone : (List.replicate (count / 64) (0 - 1 : UInt64) ++
        if count % 64 = 0 then [] else [bit count - 1])[index / 64]? = none := by
      rw [List.getElem?_eq_none_iff, List.length_append, List.length_replicate]
      split
      · simpa using Nat.le_of_lt hgt
      · rw [List.length_singleton]
        omega
    rw [hnone]
    exact (decide_eq_false (by omega)).symm

/-! ### Setting and clearing one bit -/

/-- A change of one bit is a change of one number.  Where there is no word to change, the bit can
    only be cleared. -/
theorem contains_modify {words : List UInt64} {changed : Nat} {f : UInt64 → UInt64} {value : Bool}
    (hf : ∀ word, ∀ position < 64, (f word).toNat.testBit position =
      if changed % 64 = position then value else word.toNat.testBit position)
    (hword : value = true → changed / 64 < words.length) (index : Nat) :
    contains { words := words.modify (changed / 64) f } index =
      if changed = index then value else contains { words := words } index := by
  have hposition : index % 64 < 64 := Nat.mod_lt _ (by decide)
  have hindex := Nat.div_add_mod index 64
  have hchanged := Nat.div_add_mod changed 64
  rw [contains_eq_getElem?, contains_eq_getElem?, List.getElem?_modify]
  by_cases hsame : changed / 64 = index / 64
  -- In the same word numbers differ by their positions.
  · have hiff : changed % 64 = index % 64 ↔ changed = index := by omega
    cases hat : words[index / 64]? with
    | none =>
      have hlength := List.getElem?_eq_none_iff.mp hat
      have hvalue : value = false := by
        refine Bool.eq_false_iff.mpr fun htrue => ?_
        have := hword htrue
        omega
      simp [hvalue]
    | some word =>
      rw [Option.map_eq_map, Option.map_some, Option.any_some, Option.any_some, if_pos hsame,
        hf word _ hposition]
      simp only [hiff]
  · have hne : changed ≠ index := fun heq => hsame (by rw [heq])
    simp [hsame, hne]

/-! ### Inserting -/

/-- Setting one bit of a word leaves the others. -/
theorem testBit_inserted (word : UInt64) (index position : Nat) :
    (word ||| bit index).toNat.testBit position =
      if index % 64 = position then true else word.toNat.testBit position := by
  rw [UInt64.toNat_or, Nat.testBit_or, toNat_bit, Nat.testBit_two_pow]
  split <;> simp_all

/-- Words of zeros at the end hold no number. -/
theorem contains_append_zeros (set : IndexSet) (count index : Nat) :
    contains { words := set.words ++ List.replicate count 0 } index = set.contains index := by
  rw [contains_eq_getElem?, contains_eq_getElem?]
  rcases Nat.lt_or_ge (index / 64) set.words.length with hlt | hge
  · rw [List.getElem?_append_left hlt]
  · rw [List.getElem?_append_right hge, List.getElem?_replicate, List.getElem?_eq_none hge]
    split
    · exact Nat.zero_testBit _
    · rfl

/-- **Inserting** adds one number, in a word that is there by then. -/
theorem contains_insert (set : IndexSet) (added index : Nat) :
    (set.insert added).contains index = (set.contains index || decide (added = index)) := by
  have hword : added / 64 < (set.words ++
      List.replicate (added / 64 + 1 - set.words.length) 0).length := by
    rw [List.length_append, List.length_replicate]
    omega
  rw [insert, contains_modify (fun word position _ => testBit_inserted word added position)
    (fun _ => hword), contains_append_zeros]
  split <;> simp_all

/-- Words are added up to the one with the new member. -/
theorem length_words_insert (set : IndexSet) (added : Nat) :
    (set.insert added).words.length = max set.words.length (added / 64 + 1) := by
  rw [insert, List.length_modify, List.length_append, List.length_replicate]
  omega

/-- The members of a set from a list are those of the list. -/
theorem contains_ofList (indices : List Nat) (index : Nat) :
    (ofList indices).contains index = indices.contains index := by
  have hfold : ∀ set : IndexSet, (indices.foldl insert set).contains index =
      (set.contains index || indices.contains index) := by
    induction indices with
    | nil => simp
    | cons first rest ih =>
      intro set
      rw [List.foldl_cons, ih, contains_insert, List.contains_cons, Bool.or_assoc,
        beq_eq_decide, decide_eq_decide.mpr eq_comm]
  exact hfold empty

/-! ### Erasing -/

/-- Clearing one bit of a word leaves the others. -/
theorem testBit_erased (word : UInt64) (index : Nat) {position : Nat} (h : position < 64) :
    (word &&& ~~~ bit index).toNat.testBit position =
      if index % 64 = position then false else word.toNat.testBit position := by
  have hlt : 2 ^ (index % 64) < 2 ^ 64 := by
    have := (bit index).toNat_lt
    rwa [toNat_bit] at this
  have hnot : (~~~ bit index).toNat = 2 ^ 64 - (2 ^ (index % 64) + 1) := by
    rw [UInt64.toNat_not, toNat_bit, UInt64.size]
    omega
  rw [UInt64.toNat_and, Nat.testBit_and, hnot, Nat.testBit_two_pow_sub_succ hlt,
    Nat.testBit_two_pow, decide_eq_true h, Bool.true_and]
  split <;> simp_all

/-- **Erasing** takes one number away. -/
theorem contains_erase (set : IndexSet) (erased index : Nat) :
    (set.erase erased).contains index = (set.contains index && !decide (erased = index)) := by
  rw [erase, contains_modify (fun word _ h => testBit_erased word erased h)
    (fun h => absurd h Bool.false_ne_true)]
  split <;> simp_all

/-- Erasing numbers leaves the others, by induction on them. -/
theorem contains_eraseAll (set : IndexSet) (erased : List Nat) (index : Nat) :
    (set.eraseAll erased).contains index = (set.contains index && !erased.contains index) := by
  unfold eraseAll
  induction erased generalizing set with
  | nil => simp
  | cons first rest ih =>
    rw [List.foldl_cons, ih, contains_erase, List.contains_cons, Bool.not_or, Bool.and_assoc,
      beq_eq_decide, decide_eq_decide.mpr eq_comm]

/-! ### Questions -/

/-- A set meets a list if it has a member of it. -/
theorem meets_eq_true_iff {set : IndexSet} {indices : List Nat} :
    set.meets indices = true ↔ ∃ index ∈ indices, set.contains index = true := by
  rw [meets, List.any_eq_true]

/-- A word is known by its bits. -/
theorem word_ext {word other : UInt64}
    (h : ∀ position < 64, word.toNat.testBit position = other.toNat.testBit position) :
    word = other := by
  have hhigh : ∀ {position}, 64 ≤ position → ∀ w : UInt64, w.toNat.testBit position = false :=
    fun hge w => Nat.testBit_lt_two_pow
      (Nat.lt_of_lt_of_le w.toNat_lt (Nat.pow_le_pow_right (by decide) hge))
  refine UInt64.toNat_inj.mp (Nat.eq_of_testBit_eq fun position => ?_)
  rcases Nat.lt_or_ge position 64 with hlt | hge
  · exact h position hlt
  · rw [hhigh hge, hhigh hge]

/-- A bit of a word says whether its number is in the set. -/
theorem testBit_eq_contains {set : IndexSet} {place : Nat} {word : UInt64}
    (h : set.words[place]? = some word) {position : Nat} (hposition : position < 64) :
    word.toNat.testBit position = set.contains (64 * place + position) := by
  have hplace : (64 * place + position) / 64 = place := by omega
  have hmod : (64 * place + position) % 64 = position := by omega
  rw [contains_eq_getElem?, hplace, hmod, h, Option.any_some]

/-- A set is empty if no bit of its words is set. -/
theorem isEmpty_eq_true_iff {set : IndexSet} :
    set.isEmpty = true ↔ ∀ index, set.contains index = false := by
  rw [isEmpty, List.all_eq_true]
  constructor
  · intro h index
    rw [contains_eq_getElem?]
    cases hword : set.words[index / 64]? with
    | none => rfl
    | some word =>
      have hzero : word = 0 := by simpa using h word (List.mem_of_getElem? hword)
      rw [hzero]
      exact Nat.zero_testBit _
  · intro h word hmem
    obtain ⟨place, hplace⟩ := List.getElem?_of_mem hmem
    have hzero : word = 0 := word_ext fun position hposition => by
      rw [testBit_eq_contains hplace hposition, h]
      exact (Nat.zero_testBit _).symm
    rw [hzero]
    rfl

/-- **Sets of as many words are known by their members.** -/
theorem eq_of_contains_eq {set other : IndexSet} (hlength : set.words.length = other.words.length)
    (h : ∀ index, set.contains index = other.contains index) : set = other := by
  have hwords : set.words = other.words := by
    refine List.ext_getElem hlength fun place hset hother => word_ext fun position hposition => ?_
    rw [testBit_eq_contains (List.getElem?_eq_getElem hset) hposition,
      testBit_eq_contains (List.getElem?_eq_getElem hother) hposition, h]
  cases set
  cases other
  exact congrArg IndexSet.mk hwords

end TermNet.IndexSet
