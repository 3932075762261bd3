import Mathlib.Data.List.Nodup
import TermNet.Bipartite

namespace TermNet.Bipartite

/-!
# What the search for complete matchings lists

Nodes that are alike form classes.  A complete matching says which class of left
nodes gets which classes of right nodes; matchings that agree in this differ only by
exchanging alike nodes.  The search lists at most one of them for each such pairing.

* `IsAssignment` — an edge for every left node, with different right nodes;
* `Admissible` — the choices that the search makes;
* `mem_assignments_iff`, `nodup_assignments` — these are listed, each once;
* `classPairs` — the classes of the left nodes with those of their right nodes;
* `eq_of_perm_classPairs` — two choices with the same pairs are equal.
-/

variable {ε : Type} {κ ρ : Type}

/-- A right node for every left node: each along an edge, all of them different. -/
structure IsAssignment (rows : List (List (Nat × ε))) (f : List Nat) : Prop where
  edges : List.Forall₂ (fun row r => r ∈ row.map Prod.fst) rows f
  nodup : f.Nodup

/-- The choices that the search makes behind those in `assigned`. -/
def Admissible (sameLeft sameRight : Nat → Nat → Bool) :
    List (List (Nat × ε)) → (assigned : List Nat) → List Nat → Prop
  | [], _, [] => True
  | row :: rows, assigned, r :: rest =>
    r ∈ row.map Prod.fst ∧ mayAssign sameLeft sameRight assigned r = true ∧
      Admissible sameLeft sameRight rows (assigned ++ [r]) rest
  | [], _, _ :: _ | _ :: _, _, [] => False

/-- The classes of left nodes from position `l` on, with those of their right nodes. -/
def classPairs (leftClass : Nat → κ) (rightClass : Nat → ρ) (l : Nat) : List Nat → List (κ × ρ)
  | [] => []
  | r :: rest => (leftClass l, rightClass r) :: classPairs leftClass rightClass (l + 1) rest

/-- Classes are intervals. -/
def Contiguous (cls : Nat → κ) : Prop :=
  ∀ a b c, a ≤ b → b ≤ c → cls a = cls c → cls b = cls a

variable {sameLeft sameRight : Nat → Nat → Bool} {leftClass : Nat → κ} {rightClass : Nat → ρ}

/-! ### What the search lists -/

/-- The three conditions on the next right node. -/
theorem mayAssign_iff {assigned : List Nat} {r : Nat} :
    mayAssign sameLeft sameRight assigned r = true ↔
      r ∉ assigned ∧
      (∀ previous, assigned.getLast? = some previous →
        sameLeft (assigned.length - 1) assigned.length = true → previous < r) ∧
      (∀ s, r = s + 1 → s ∉ assigned → sameRight s (s + 1) = false) := by
  unfold mayAssign
  simp only [Bool.and_eq_true, Bool.not_eq_true', and_assoc]
  refine and_congr ?_ (and_congr ?_ ?_)
  · simp
  · cases assigned.getLast? with
    | none => simp
    | some previous =>
      cases sameLeft (assigned.length - 1) assigned.length <;> simp
  -- The first right node has no alike one before it.
  · cases r with
    | zero => simp
    | succ s =>
      by_cases hs : s ∈ assigned
      · simp [hs]
      · simp [hs]

/-- The search lists the admissible choices. -/
theorem mem_assignments_iff {rows : List (List (Nat × ε))} {assigned f : List Nat} :
    f ∈ assignments sameLeft sameRight rows assigned ↔
      ∃ rest, f = assigned ++ rest ∧ Admissible sameLeft sameRight rows assigned rest := by
  induction rows generalizing assigned with
  | nil =>
    rw [assignments, List.mem_singleton]
    constructor
    · rintro rfl
      exact ⟨[], (List.append_nil _).symm, trivial⟩
    · rintro ⟨rest, rfl, h⟩
      cases rest with
      | nil => exact List.append_nil _
      | cons r rest => exact h.elim
  | cons row rows ih =>
    simp only [assignments, List.mem_flatMap, List.mem_filter, ih]
    constructor
    · rintro ⟨r, ⟨hrow, hmay⟩, rest, rfl, hrest⟩
      exact ⟨r :: rest, by simp, hrow, hmay, hrest⟩
    · rintro ⟨rest, rfl, h⟩
      cases rest with
      | nil => exact h.elim
      | cons r rest => exact ⟨r, ⟨h.1, h.2.1⟩, rest, by simp, h.2.2⟩

/-- No choice is listed twice. -/
theorem nodup_assignments {rows : List (List (Nat × ε))}
    (hrows : ∀ row ∈ rows, (row.map Prod.fst).Nodup) (assigned : List Nat) :
    (assignments sameLeft sameRight rows assigned).Nodup := by
  induction rows generalizing assigned with
  | nil => simp [assignments]
  | cons row rows ih =>
    have hrow := hrows row List.mem_cons_self
    have hrest := fun next hnext => hrows next (List.mem_cons_of_mem _ hnext)
    rw [assignments, List.nodup_flatMap]
    refine ⟨fun r _ => ih hrest _, ?_⟩
    refine (hrow.filter _).imp ?_
    intro r s hne f hfr hfs
    -- Both lists hold continuations, of different choices.
    obtain ⟨rest, hr, -⟩ := mem_assignments_iff.mp hfr
    obtain ⟨rest', hs, -⟩ := mem_assignments_iff.mp hfs
    rw [hr, List.append_assoc, List.append_assoc, List.append_cancel_left_eq] at hs
    exact hne (List.cons.inj hs).1

/-- Admissible choices are assignments. -/
theorem Admissible.isAssignment {rows : List (List (Nat × ε))} {assigned f : List Nat}
    (h : Admissible sameLeft sameRight rows assigned f) (hassigned : assigned.Nodup) :
    List.Forall₂ (fun row r => r ∈ row.map Prod.fst) rows f ∧ (assigned ++ f).Nodup := by
  induction rows generalizing assigned f with
  | nil =>
    cases f with
    | nil => exact ⟨.nil, by simpa using hassigned⟩
    | cons r rest => exact h.elim
  | cons row rows ih =>
    cases f with
    | nil => exact h.elim
    | cons r rest =>
      obtain ⟨hrow, hmay, hrest⟩ := h
      have hr : r ∉ assigned := (mayAssign_iff.mp hmay).1
      have hnext : (assigned ++ [r]).Nodup := by
        rw [List.nodup_append_comm]
        exact List.nodup_cons.mpr ⟨hr, hassigned⟩
      obtain ⟨hedges, hnodup⟩ := ih hrest hnext
      refine ⟨.cons hrow hedges, ?_⟩
      simpa using hnodup

/-! ### At most one choice for each pairing -/

/-- With a right node, all alike ones before it are assigned. -/
def Downward (sameRight : Nat → Nat → Bool) (assigned : List Nat) : Prop :=
  ∀ s, s + 1 ∈ assigned → sameRight s (s + 1) = true → s ∈ assigned

/-- One more node that may be assigned keeps the assignment downward. -/
theorem Downward.append {assigned : List Nat} (h : Downward sameRight assigned) {r : Nat}
    (hmay : mayAssign sameLeft sameRight assigned r = true) :
    Downward sameRight (assigned ++ [r]) := by
  intro s hs halike
  rw [List.mem_append, List.mem_singleton] at hs ⊢
  rcases hs with hs | rfl
  · exact .inl (h s hs halike)
  · by_contra hnot
    have hfree := (mayAssign_iff.mp hmay).2.2 s rfl fun hs => hnot (.inl hs)
    exact absurd (hfree.symm.trans halike) (by decide)

/-- Of alike right nodes the first free one is taken. -/
theorem le_of_same_rightClass {assigned : List Nat} (hdown : Downward sameRight assigned)
    (hright : ∀ r, sameRight r (r + 1) = true ↔ rightClass r = rightClass (r + 1))
    (hcontig : Contiguous rightClass) {x y : Nat} (hx : x ∉ assigned)
    (hmay : mayAssign sameLeft sameRight assigned y = true)
    (hclass : rightClass x = rightClass y) : y ≤ x := by
  by_contra hlt
  rw [Nat.not_le] at hlt
  -- All nodes from `x` up to `y` are alike, so `y - 1` is assigned, and then so is `x`.
  have halike : ∀ s, x ≤ s → s < y → sameRight s (s + 1) = true := by
    intro s hxs hsy
    rw [hright, hcontig x s y hxs (by omega) hclass, hcontig x (s + 1) y (by omega) hsy hclass]
  have hall : ∀ k, k < y - x → y - 1 - k ∈ assigned := by
    intro k
    induction k with
    | zero =>
      intro hk
      by_contra hnot
      have hfree := (mayAssign_iff.mp hmay).2.2 (y - 1) (by omega) (by simpa using hnot)
      have hsame := halike (y - 1) (by omega) (by omega)
      exact absurd (hfree.symm.trans hsame) (by decide)
    | succ k ih =>
      intro hk
      have hprev := ih (by omega)
      have hs : y - 1 - k = (y - 1 - (k + 1)) + 1 := by omega
      rw [hs] at hprev
      exact hdown _ hprev (halike _ (by omega) (by omega))
  have hmem := hall (y - 1 - x) (by omega)
  have hidx : y - 1 - (y - 1 - x) = x := by omega
  exact hx (hidx ▸ hmem)

/-- A pair of classes is that of some left node. -/
theorem exists_of_mem_classPairs {l : Nat} {f : List Nat} {pair : κ × ρ}
    (h : pair ∈ classPairs leftClass rightClass l f) : ∃ m, l ≤ m ∧ pair.1 = leftClass m := by
  induction f generalizing l with
  | nil => simp [classPairs] at h
  | cons r f ih =>
    rw [classPairs, List.mem_cons] at h
    rcases h with rfl | h
    · exact ⟨l, Nat.le_refl l, rfl⟩
    · obtain ⟨m, hm, heq⟩ := ih h
      exact ⟨m, by omega, heq⟩

/-- Alike left nodes take increasing right nodes. -/
theorem lt_of_mem_classPairs {rows : List (List (Nat × ε))}
    (hleft : ∀ l, sameLeft l (l + 1) = true ↔ leftClass l = leftClass (l + 1))
    (hcontig : Contiguous leftClass) {assigned f : List Nat} {y : Nat}
    (h : Admissible sameLeft sameRight rows (assigned ++ [y]) f) {pair : κ × ρ}
    (hpair : pair ∈ classPairs leftClass rightClass (assigned.length + 1) f)
    (hcls : pair.1 = leftClass assigned.length) : ∃ z, y < z ∧ rightClass z = pair.2 := by
  induction rows generalizing assigned f y with
  | nil =>
    cases f with
    | nil => simp [classPairs] at hpair
    | cons r f => exact h.elim
  | cons row rows ih =>
    cases f with
    | nil => exact h.elim
    | cons r f =>
      obtain ⟨-, hmay, hrest⟩ := h
      -- Classes are intervals, so the next left node is in the class as well.
      have hsame : leftClass (assigned.length + 1) = leftClass assigned.length := by
        obtain ⟨m, hm, heq⟩ := exists_of_mem_classPairs hpair
        exact hcontig _ _ m (by omega) hm (hcls.symm.trans heq)
      have hlt : y < r := by
        refine (mayAssign_iff.mp hmay).2.1 y (by simp) ?_
        rw [List.length_append, List.length_singleton, Nat.add_sub_cancel, hleft]
        exact hsame.symm
      rw [classPairs, List.mem_cons] at hpair
      rcases hpair with rfl | hpair
      · exact ⟨r, hlt, rfl⟩
      · have hlen : (assigned ++ [y]).length = assigned.length + 1 := by simp
        obtain ⟨z, hz, hzcls⟩ := ih hrest (hlen ▸ hpair) (by rw [hlen, hsame, hcls])
        exact ⟨z, by omega, hzcls⟩

/-- Of two admissible choices with the same pairs, neither begins with the smaller node. -/
theorem le_of_perm_classPairs {rows : List (List (Nat × ε))}
    (hleft : ∀ l, sameLeft l (l + 1) = true ↔ leftClass l = leftClass (l + 1))
    (hright : ∀ r, sameRight r (r + 1) = true ↔ rightClass r = rightClass (r + 1))
    (hcontigLeft : Contiguous leftClass) (hcontigRight : Contiguous rightClass)
    {assigned f g : List Nat} {x y : Nat} (hdown : Downward sameRight assigned)
    (hx : x ∉ assigned) (hmay : mayAssign sameLeft sameRight assigned y = true)
    (hg : Admissible sameLeft sameRight rows (assigned ++ [y]) g)
    (hperm : (classPairs leftClass rightClass assigned.length (x :: f)).Perm
      (classPairs leftClass rightClass assigned.length (y :: g))) : y ≤ x := by
  by_cases hclass : rightClass x = rightClass y
  · exact le_of_same_rightClass hdown hright hcontigRight hx hmay hclass
  · have hmem : (leftClass assigned.length, rightClass x) ∈
        classPairs leftClass rightClass assigned.length (y :: g) :=
      hperm.mem_iff.mp List.mem_cons_self
    rw [classPairs, List.mem_cons, Prod.mk.injEq] at hmem
    have hlater := hmem.resolve_left fun h => hclass h.2
    obtain ⟨z, hyz, hz⟩ := lt_of_mem_classPairs hleft hcontigLeft hg hlater rfl
    by_contra hlt
    -- `y` would lie between two nodes of one class.
    exact hclass (hcontigRight x y z (by omega) (by omega) hz.symm).symm

/-- **At most one choice for each pairing of classes.** -/
theorem eq_of_perm_classPairs {rows : List (List (Nat × ε))}
    (hleft : ∀ l, sameLeft l (l + 1) = true ↔ leftClass l = leftClass (l + 1))
    (hright : ∀ r, sameRight r (r + 1) = true ↔ rightClass r = rightClass (r + 1))
    (hcontigLeft : Contiguous leftClass) (hcontigRight : Contiguous rightClass)
    {assigned f g : List Nat} (hdown : Downward sameRight assigned)
    (hf : Admissible sameLeft sameRight rows assigned f)
    (hg : Admissible sameLeft sameRight rows assigned g)
    (hperm : (classPairs leftClass rightClass assigned.length f).Perm
      (classPairs leftClass rightClass assigned.length g)) : f = g := by
  induction rows generalizing assigned f g with
  | nil =>
    cases f with
    | nil =>
      cases g with
      | nil => rfl
      | cons y g => exact hg.elim
    | cons x f => exact hf.elim
  | cons row rows ih =>
    cases f with
    | nil => exact hf.elim
    | cons x f =>
      cases g with
      | nil => exact hg.elim
      | cons y g =>
        obtain ⟨-, hmayx, hf⟩ := hf
        obtain ⟨-, hmayy, hg⟩ := hg
        -- Neither first choice can be smaller, since the other one could not make up for it.
        have hyx : y ≤ x := le_of_perm_classPairs hleft hright hcontigLeft hcontigRight hdown
          (mayAssign_iff.mp hmayx).1 hmayy hg hperm
        have hxy : x ≤ y := le_of_perm_classPairs hleft hright hcontigLeft hcontigRight hdown
          (mayAssign_iff.mp hmayy).1 hmayx hf hperm.symm
        obtain rfl : x = y := Nat.le_antisymm hxy hyx
        have hrest := (List.perm_cons _).mp hperm
        have hlen : assigned.length + 1 = (assigned ++ [x]).length := by simp
        rw [hlen] at hrest
        rw [ih (hdown.append hmayx) hf hg hrest]

end TermNet.Bipartite
