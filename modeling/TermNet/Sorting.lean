namespace TermNet

/-!
# Sorting — stable insertion sort and joined text

The arguments of a commutative operation, the operands of a commutative pattern
and the fields of a name map are kept in order.  All of them use one sort:

* `insertBy le a as` — put `a` in front of the first element it may precede;
* `sortBy le as` — insertion sort, which keeps equal elements in their order;
* `insertUnique n ns` — add a number to an ascending list without repetition;
* `joinWith sep parts` — the texts of a list with a separator between them.

`sortBy_perm` says that sorting only permutes, `sortBy_pairwise` that the result
is in order.  By `sortBy_sortBy_append` a list whose first part is sorted is sorted to
the same, and by `sortBy_of_pairwise` a list in order is left as it is.
-/

variable {α : Type}

/-- Put `a` in front of the first element that it may precede. -/
def insertBy (le : α → α → Bool) (a : α) : List α → List α
  | [] => [a]
  | b :: bs => if le a b then a :: b :: bs else b :: insertBy le a bs

/-- **Insertion sort.**  Elements that `le` does not separate keep their order. -/
def sortBy (le : α → α → Bool) : List α → List α
  | [] => []
  | a :: as => insertBy le a (sortBy le as)

/-- Inserting only adds the element. -/
theorem insertBy_perm (le : α → α → Bool) (a : α) (as : List α) :
    (insertBy le a as).Perm (a :: as) := by
  induction as with
  | nil => exact .refl _
  | cons b bs ih =>
    unfold insertBy
    split
    · exact .refl _
    · exact (ih.cons b).trans (.swap a b bs)

/-- Sorting only permutes. -/
theorem sortBy_perm (le : α → α → Bool) (as : List α) : (sortBy le as).Perm as := by
  induction as with
  | nil => exact .refl _
  | cons a as ih => exact (insertBy_perm le a _).trans (ih.cons a)

/-- Inserting into an ordered list leaves it ordered. -/
theorem insertBy_pairwise {le : α → α → Bool}
    (trans : ∀ a b c, le a b = true → le b c = true → le a c = true)
    (total : ∀ a b, le a b = true ∨ le b a = true) (a : α) {as : List α}
    (ordered : as.Pairwise (fun x y => le x y = true)) :
    (insertBy le a as).Pairwise (fun x y => le x y = true) := by
  induction as with
  | nil => simp [insertBy]
  | cons b bs ih =>
    obtain ⟨first, rest⟩ := List.pairwise_cons.mp ordered
    unfold insertBy
    split
    · rename_i h
      refine List.pairwise_cons.mpr ⟨fun c hc => ?_, ordered⟩
      rcases List.mem_cons.mp hc with rfl | hc
      · exact h
      · exact trans _ _ _ h (first c hc)
    · rename_i h
      refine List.pairwise_cons.mpr ⟨fun c hc => ?_, ih rest⟩
      rcases List.mem_cons.mp ((insertBy_perm le a bs).mem_iff.mp hc) with rfl | hc
      · exact (total _ _).resolve_left h
      · exact first c hc

/-- The result of sorting is in order. -/
theorem sortBy_pairwise {le : α → α → Bool}
    (trans : ∀ a b c, le a b = true → le b c = true → le a c = true)
    (total : ∀ a b, le a b = true ∨ le b a = true) (as : List α) :
    (sortBy le as).Pairwise (fun x y => le x y = true) := by
  induction as with
  | nil => exact .nil
  | cons a as ih => exact insertBy_pairwise trans total a ih

/-! ### Sorting in steps

Sorting keeps the order of elements that are not told apart, so it does not matter whether a part
of a list has been sorted before. -/

section Steps

variable {le : α → α → Bool}

/-- Inserting two members, the larger one first or last, gives the same. -/
theorem insertBy_comm (trans : ∀ a b c, le a b = true → le b c = true → le a c = true)
    (total : ∀ a b, le a b = true ∨ le b a = true) {a b : α} (h : le a b = false) (as : List α) :
    insertBy le a (insertBy le b as) = insertBy le b (insertBy le a as) := by
  have hba : le b a = true := (total a b).resolve_left (by simp [h])
  induction as with
  | nil => simp [insertBy, h, hba]
  | cons c as ih =>
    by_cases hbc : le b c = true
    · by_cases hac : le a c = true <;> simp [insertBy, h, hba, hbc, hac]
    · have hcb : le c b = true := (total c b).resolve_right hbc
      have hac : ¬ le a c = true := fun hac => by
        rw [trans a c b hac hcb] at h
        cases h
      simp [insertBy, hbc, hac, ih]

/-- A member that is inserted before sorting may be inserted after it. -/
theorem sortBy_insertBy_append (trans : ∀ a b c, le a b = true → le b c = true → le a c = true)
    (total : ∀ a b, le a b = true ∨ le b a = true) (a : α) (as bs : List α) :
    sortBy le (insertBy le a as ++ bs) = insertBy le a (sortBy le (as ++ bs)) := by
  induction as with
  | nil => rfl
  | cons c as ih =>
    rw [insertBy]
    split
    · rfl
    · rename_i h
      rw [List.cons_append, sortBy, ih, List.cons_append, sortBy,
        ← insertBy_comm trans total (by simpa using h)]

/-- **Sorting in steps:** it does not matter whether the first part has been sorted before. -/
theorem sortBy_sortBy_append (trans : ∀ a b c, le a b = true → le b c = true → le a c = true)
    (total : ∀ a b, le a b = true ∨ le b a = true) (as bs : List α) :
    sortBy le (sortBy le as ++ bs) = sortBy le (as ++ bs) := by
  induction as with
  | nil => rfl
  | cons a as ih => rw [sortBy, sortBy_insertBy_append trans total, ih, List.cons_append, sortBy]

/-- A list in order is left as it is. -/
theorem sortBy_of_pairwise {as : List α} (h : as.Pairwise fun a b => le a b = true) :
    sortBy le as = as := by
  induction as with
  | nil => rfl
  | cons a as ih =>
    obtain ⟨hfirst, hrest⟩ := List.pairwise_cons.mp h
    rw [sortBy, ih hrest]
    cases as with
    | nil => rfl
    | cons b as => rw [insertBy, if_pos (hfirst b List.mem_cons_self)]

end Steps

/-! ### Ascending lists and joined texts -/

/-- Add a number to an ascending list, unless it is there already. -/
def insertUnique (n : Nat) : List Nat → List Nat
  | [] => [n]
  | m :: ms => if n < m then n :: m :: ms else if n = m then m :: ms else m :: insertUnique n ms

/-- Adding a number adds that number and nothing else. -/
@[simp] theorem mem_insertUnique {n m : Nat} {ns : List Nat} :
    m ∈ insertUnique n ns ↔ m = n ∨ m ∈ ns := by
  induction ns with
  | nil => simp [insertUnique]
  | cons k ks ih =>
    unfold insertUnique
    split
    · simp
    · split
      · rename_i h
        simp [h]
      · simp only [List.mem_cons, ih]
        constructor
        · rintro (h | h | h) <;> simp [h]
        · rintro (h | h | h) <;> simp [h]

/-- The texts of `parts` with `separator` between neighbours. -/
def joinWith (separator : String) : List String → String
  | [] => ""
  | [text] => text
  | text :: next :: rest => text ++ separator ++ joinWith separator (next :: rest)

end TermNet
