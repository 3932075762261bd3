import Mathlib.Data.Finset.Card
import Mathlib.Data.Finset.Range
import TermNet.Proofs.IndexSet

namespace TermNet

/-!
# Words of bits are finite sets

A set of numbers starts empty, full up to a bound or from a list, and then numbers are inserted
and erased.  The same history can be told of finite sets, and every question that is put to the
words has the answer that the finite set gives.

* `IndexSet.History` — what is done to a set, with the words and the numbers that come of it;
* `IndexSet.mem_toList`, `IndexSet.pairwise_toList` — the members are listed in increasing order;
* `IndexSet.Represents` — what it takes to stand for a finite set;
* `IndexSet.Tight` — sets without needless words, which are known by their members;
* `index_sets_are_finite_sets` — the result.
-/

namespace IndexSet

/-! ### Histories -/

/-- What a set starts from. -/
inductive Start where
  | empty
  | full (count : Nat)
  | ofList (indices : List Nat)
deriving DecidableEq, Repr

/-- What is done to a set. -/
inductive Change where
  | insert (index : Nat)
  | erase (index : Nat)
  | eraseAll (indices : List Nat)
deriving DecidableEq, Repr

/-- What a set starts from, and what is done to it, in this order. -/
structure History where
  start : Start
  changes : List Change := []
deriving DecidableEq, Repr

/-- A start in words. -/
def Start.set : Start → IndexSet
  | empty => .empty
  | full count => .full count
  | ofList indices => .ofList indices

/-- A start as a finite set. -/
def Start.members : Start → Finset Nat
  | empty => ∅
  | full count => Finset.range count
  | ofList indices => indices.toFinset

/-- A change of words. -/
def Change.perform (set : IndexSet) : Change → IndexSet
  | insert index => set.insert index
  | erase index => set.erase index
  | eraseAll indices => set.eraseAll indices

/-- A change of a finite set. -/
def Change.apply (members : Finset Nat) : Change → Finset Nat
  | insert index => Insert.insert index members
  | erase index => members.erase index
  | eraseAll indices => members \ indices.toFinset

/-- Whether a change takes nothing away. -/
def Change.adds : Change → Bool
  | insert _ => true
  | erase _ | eraseAll _ => false

/-- The words after a history. -/
def History.set (history : History) : IndexSet :=
  history.changes.foldl Change.perform history.start.set

/-- The finite set after a history. -/
def History.members (history : History) : Finset Nat :=
  history.changes.foldl Change.apply history.start.members

/-- Nothing is ever taken away. -/
def History.Grows (history : History) : Prop :=
  ∀ change ∈ history.changes, change.adds = true

/-- Whether a history only adds numbers can be computed. -/
instance (history : History) : Decidable history.Grows :=
  inferInstanceAs (Decidable (∀ change ∈ history.changes, change.adds = true))

/-! ### The list of the members -/

/-- The bits of a word that are set. -/
theorem mem_bitsOf {word : UInt64} {position : Nat} :
    position ∈ bitsOf word ↔ position < 64 ∧ word.toNat.testBit position = true := by
  rw [bitsOf, List.mem_filter, List.mem_range, and_bit_ne_zero]
  refine and_congr_right fun hlt => ?_
  rw [Nat.mod_eq_of_lt hlt]

/-- The first word holds the numbers below 64, and the other words those from there on. -/
theorem contains_cons (word : UInt64) (rest : List UInt64) (index : Nat) :
    contains { words := word :: rest } index =
      if index < 64 then word.toNat.testBit index else contains { words := rest } (index - 64) := by
  rw [contains_eq_getElem?, contains_eq_getElem?]
  split
  next hlt =>
    rw [Nat.div_eq_of_lt hlt, Nat.mod_eq_of_lt hlt, List.getElem?_cons_zero, Option.any_some]
  next hge =>
    have hdiv : index / 64 = (index - 64) / 64 + 1 := by omega
    have hmod : index % 64 = (index - 64) % 64 := by omega
    rw [hdiv, hmod, List.getElem?_cons_succ]

/-- What is listed from a position on is what the words hold there. -/
theorem mem_membersFrom {base index : Nat} {words : List UInt64} :
    index ∈ membersFrom base words ↔
      base ≤ index ∧ contains { words := words } (index - base) = true := by
  induction words generalizing base with
  | nil => simp [membersFrom, contains]
  | cons word rest ih =>
    -- The first word has the numbers from `base` to `base + 63`.
    have hmap : index ∈ (bitsOf word).map (base + ·) ↔
        base ≤ index ∧ index - base < 64 ∧ word.toNat.testBit (index - base) = true := by
      rw [List.mem_map, ← mem_bitsOf]
      constructor
      · rintro ⟨position, hposition, rfl⟩
        exact ⟨Nat.le_add_right _ _, by rwa [Nat.add_sub_cancel_left]⟩
      · rintro ⟨hle, hposition⟩
        exact ⟨index - base, hposition, Nat.add_sub_cancel' hle⟩
    rw [membersFrom, List.mem_append, hmap, ih, contains_cons, Nat.sub_sub]
    split
    next hlt =>
      have hbefore : ¬ base + 64 ≤ index := by omega
      simp [hlt, hbefore]
    next hge =>
      have hbehind : base + 64 ≤ index ↔ base ≤ index := by omega
      simp [hge, hbehind]

/-- The members of a set are listed. -/
theorem mem_toList {set : IndexSet} {index : Nat} :
    index ∈ set.toList ↔ set.contains index = true := by
  rw [toList, mem_membersFrom, Nat.sub_zero]
  exact and_iff_right (Nat.zero_le index)

/-- The members of words are listed in increasing order, by induction on the words. -/
theorem pairwise_membersFrom (base : Nat) (words : List UInt64) :
    (membersFrom base words).Pairwise (· < ·) := by
  induction words generalizing base with
  | nil => exact .nil
  | cons word rest ih =>
    have hbits : (bitsOf word).Pairwise (· < ·) := List.pairwise_lt_range.filter _
    refine List.pairwise_append.mpr ⟨List.pairwise_map.mpr ?_, ih (base + 64), ?_⟩
    · exact hbits.imp fun h => Nat.add_lt_add_left h base
    · -- The first word ends where the next one begins.
      intro index hindex later hlater
      obtain ⟨position, hposition, rfl⟩ := List.mem_map.mp hindex
      have hlt := (mem_bitsOf.mp hposition).1
      have hle := (mem_membersFrom.mp hlater).1
      omega

/-- **The members are listed in increasing order,** each of them once. -/
theorem pairwise_toList (set : IndexSet) : set.toList.Pairwise (· < ·) :=
  pairwise_membersFrom 0 set.words

/-- There are as many members as bits that are set. -/
theorem length_membersFrom (base : Nat) (words : List UInt64) :
    (membersFrom base words).length = (words.flatMap bitsOf).length := by
  induction words generalizing base with
  | nil => rfl
  | cons word rest ih =>
    rw [membersFrom, List.flatMap_cons, List.length_append, List.length_append, List.length_map, ih]

/-- The size of a set is the number of its members. -/
theorem size_eq_length_toList (set : IndexSet) : set.size = set.toList.length :=
  (length_membersFrom 0 set.words).symm

/-! ### Standing for a finite set -/

/-- **Every question is answered as the finite set answers it,** and the members are listed in
    increasing order. -/
structure Represents (set : IndexSet) (members : Finset Nat) : Prop where
  contains : ∀ index, set.contains index = true ↔ index ∈ members
  meets : ∀ indices, set.meets indices = true ↔ ∃ index ∈ indices, index ∈ members
  isEmpty : set.isEmpty = true ↔ members = ∅
  size : set.size = members.card
  listed : ∀ index, index ∈ set.toList ↔ index ∈ members
  ascending : set.toList.Pairwise (· < ·)

variable {set other : IndexSet} {members : Finset Nat}

/-- Membership settles all other questions. -/
theorem Represents.of_contains (h : ∀ index, set.contains index = true ↔ index ∈ members) :
    set.Represents members where
  contains := h
  meets indices := by
    simp only [meets_eq_true_iff, h]
  isEmpty := by
    simp only [isEmpty_eq_true_iff, Finset.eq_empty_iff_forall_notMem, ← h, Bool.not_eq_true]
  size := by
    have hnodup : set.toList.Nodup := (pairwise_toList set).imp Nat.ne_of_lt
    have hmembers : set.toList.toFinset = members := by
      ext index
      rw [List.mem_toFinset, mem_toList, h]
    rw [size_eq_length_toList, ← List.toFinset_card_of_nodup hnodup, hmembers]
  listed index := by
    rw [mem_toList, h]
  ascending := pairwise_toList set

/-- Two sets of words stand for one finite set if they have the same members. -/
theorem Represents.members_eq (h : set.Represents members) {numbers : Finset Nat}
    (hother : other.Represents numbers) :
    members = numbers ↔ ∀ index, set.contains index = other.contains index := by
  rw [Finset.ext_iff]
  refine forall_congr' fun index => ?_
  rw [← h.contains, ← hother.contains]
  exact Bool.eq_iff_iff.symm

/-! ### Sets without needless words -/

/-- **The last word holds a member,** if there are words at all. -/
def Tight (set : IndexSet) : Prop :=
  set.words ≠ [] → ∃ index, set.contains index = true ∧ set.words.length = index / 64 + 1

/-- The empty set has no words. -/
theorem tight_empty : empty.Tight := fun h => absurd rfl h

/-- A full set has as many words as it takes. -/
theorem length_words_full (count : Nat) : (full count).words.length = (count + 63) / 64 := by
  rw [full, List.length_append, List.length_replicate]
  split
  · rw [List.length_nil]
    omega
  · rw [List.length_singleton]
    omega

/-- The last word of a full set holds the number below the bound, also where it is not filled. -/
theorem tight_full (count : Nat) : (full count).Tight := by
  intro hwords
  have hlength := List.length_pos_iff.mpr hwords
  rw [length_words_full] at hlength ⊢
  refine ⟨count - 1, ?_, by omega⟩
  rw [contains_full]
  exact decide_eq_true (by omega)

/-- Words are added up to the one that the new number is in. -/
theorem Tight.insert (h : set.Tight) (added : Nat) : (set.insert added).Tight := by
  intro _
  rw [length_words_insert]
  rcases Nat.lt_or_ge (added / 64) set.words.length with hlt | hge
  · obtain ⟨index, hindex, hlast⟩ := h (List.ne_nil_of_length_pos (Nat.zero_lt_of_lt hlt))
    refine ⟨index, ?_, by omega⟩
    rw [contains_insert, hindex, Bool.true_or]
  · refine ⟨added, ?_, by omega⟩
    rw [contains_insert, decide_eq_true rfl, Bool.or_true]

/-- A set from a list has no needless words, by induction on the list. -/
theorem tight_ofList (indices : List Nat) : (ofList indices).Tight :=
  List.foldlRecOn indices IndexSet.insert tight_empty fun _ h index _ => h.insert index

/-- There is a word for each member. -/
theorem div_lt_length_of_contains {index : Nat} (h : set.contains index = true) :
    index / 64 < set.words.length := by
  rw [contains_eq_getElem?] at h
  obtain ⟨word, hword, -⟩ := (Option.any_eq_true _ _).mp h
  exact (List.getElem?_eq_some_iff.mp hword).1

/-- No set with the same members does with fewer words. -/
theorem Tight.length_words_le (h : set.Tight)
    (hmembers : ∀ index, set.contains index = other.contains index) :
    set.words.length ≤ other.words.length := by
  by_cases hwords : set.words = []
  · simp [hwords]
  · obtain ⟨index, hindex, hlast⟩ := h hwords
    rw [hlast]
    exact div_lt_length_of_contains (hmembers index ▸ hindex)

/-- **Tight sets are known by their members.** -/
theorem Tight.eq_iff (h : set.Tight) (hother : other.Tight) :
    set = other ↔ ∀ index, set.contains index = other.contains index := by
  constructor
  · rintro rfl index
    rfl
  · intro hmembers
    refine eq_of_contains_eq (Nat.le_antisymm ?_ ?_) hmembers
    · exact h.length_words_le hmembers
    · exact hother.length_words_le fun index => (hmembers index).symm

/-! ### After a history -/

/-- What a history begins with stands for the finite set that it begins with. -/
theorem Start.represents (start : Start) : start.set.Represents start.members := by
  refine .of_contains fun index => ?_
  cases start with
  | empty => simp [Start.set, Start.members, IndexSet.empty, IndexSet.contains]
  | full count => simp [Start.set, Start.members, contains_full]
  | ofList indices => simp [Start.set, Start.members, contains_ofList]

/-- **A change of words is the change of the finite set** that they stand for. -/
theorem Represents.perform (h : set.Represents members) (change : Change) :
    (change.perform set).Represents (change.apply members) := by
  refine .of_contains fun index => ?_
  cases change with
  | insert added =>
    rw [Change.perform, contains_insert, Bool.or_eq_true, h.contains, decide_eq_true_iff,
      Change.apply, Finset.mem_insert, or_comm, eq_comm]
  | erase erased =>
    rw [Change.perform, contains_erase, Bool.and_eq_true, h.contains, Bool.not_eq_true',
      decide_eq_false_iff_not, Change.apply, Finset.mem_erase, and_comm, ne_comm]
  | eraseAll erased =>
    simp [Change.perform, Change.apply, contains_eraseAll, h.contains]

/-- A run of changes is a run of changes of the finite set. -/
theorem Represents.foldl (h : set.Represents members) (changes : List Change) :
    (changes.foldl Change.perform set).Represents (changes.foldl Change.apply members) := by
  induction changes generalizing set members with
  | nil => exact h
  | cons change rest ih => exact ih (h.perform change)

/-- **A history of words stands for the history of finite sets,** by induction on its actions. -/
theorem History.represents (history : History) : history.set.Represents history.members :=
  history.start.represents.foldl history.changes

/-- What a history begins with has no needless words. -/
theorem Start.tight (start : Start) : start.set.Tight := by
  cases start with
  | empty => exact tight_empty
  | full count => exact tight_full count
  | ofList indices => exact tight_ofList indices

/-- **A set that only grows has no needless words.** -/
theorem History.Grows.tight {history : History} (h : history.Grows) : history.set.Tight := by
  refine List.foldlRecOn history.changes Change.perform history.start.tight ?_
  intro set hset change hchange
  cases change with
  | insert added => exact hset.insert added
  | erase erased => exact absurd (h _ hchange) Bool.false_ne_true
  | eraseAll erased => exact absurd (h _ hchange) Bool.false_ne_true

end IndexSet

open IndexSet in
/-- **Words of bits implement finite sets of numbers.**  After any history the words answer every
    question as the finite set with that history does, and list its members in increasing order.
    Two sets from which nothing was ever taken away are equal exactly if they have the same
    members. -/
theorem index_sets_are_finite_sets :
    (∀ history : History, history.set.Represents history.members) ∧
      ∀ left right : History, left.Grows → right.Grows →
        (left.set = right.set ↔ left.members = right.members) := by
  refine ⟨History.represents, fun left right hleft hright => ?_⟩
  rw [hleft.tight.eq_iff hright.tight, left.represents.members_eq right.represents]

open IndexSet in
/-- Sixty-five numbers at once, and one two words further on. -/
def filledAtOnce : History := { start := .full 65, changes := [.insert 130] }

open IndexSet in
/-- The same numbers, the last ones first. -/
def filledBackwards : History :=
  { start := .ofList [130, 64, 64], changes := (List.range 64).reverse.map .insert }

/-- The words are the same, whatever the order in which they were needed. -/
theorem index_sets_are_finite_sets_across_words :
    filledAtOnce.Grows ∧ filledBackwards.Grows ∧ filledAtOnce.set = filledBackwards.set ∧
      filledAtOnce.members = filledBackwards.members ∧
      filledAtOnce.set.Represents filledBackwards.members := by
  have hatOnce : filledAtOnce.Grows := by decide
  have hbackwards : filledBackwards.Grows := by decide
  have hset : filledAtOnce.set = filledBackwards.set := by decide +kernel
  obtain ⟨hrepresents, heq⟩ := index_sets_are_finite_sets
  have hmembers := (heq filledAtOnce filledBackwards hatOnce hbackwards).mp hset
  exact ⟨hatOnce, hbackwards, hset, hmembers, hmembers ▸ hrepresents filledAtOnce⟩

/-- A number that is taken away leaves its word behind. -/
example :
    let set := (IndexSet.full 65).erase 64
    set.toList = (IndexSet.full 64).toList ∧ set ≠ IndexSet.full 64 := by decide +kernel

end TermNet
