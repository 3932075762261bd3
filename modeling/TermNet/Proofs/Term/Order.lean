import TermNet.Term.Canonical

namespace TermNet

/-!
# The order of terms is linear

Sorting puts the arguments of commutative operations into one definite order, so
that two argument lists are sorted into the same list exactly when they are
permutations of each other.

* `Term.compare_eq`, `Term.compare_swap`, `Term.compare_lt_trans` — the three laws
  of the comparison, by recursion on the terms;
* `Term.le_total`, `Term.le_trans`, `Term.le_antisymm` — the order;
* `sortBy_eq_of_perm` — sorting forgets the order of its input.
-/

/-! ### Heads and symbols -/

/-- Different kinds of operations have different ranks. -/
theorem OpKind.rank_injective {a b : OpKind} (h : a.rank = b.rank) : a = b := by
  cases a <;> cases b <;> first | rfl | exact absurd h (by decide)

/-- Different kinds of symbols have different ranks. -/
theorem SymbolKind.rank_injective {a b : SymbolKind} (h : a.rank = b.rank) : a = b := by
  cases a <;> cases b <;> first | rfl | exact absurd h (by decide)

/-- The comparison of pairs of a name and a rank, to which those of heads and of
    symbols come down. -/
theorem compare_then_lt_trans {a b c : String} {i j k : Nat}
    (h₁ : (Ord.compare a b).then (Ord.compare i j) = .lt)
    (h₂ : (Ord.compare b c).then (Ord.compare j k) = .lt) :
    (Ord.compare a c).then (Ord.compare i k) = .lt := by
  rw [Ordering.then_eq_lt] at h₁ h₂ ⊢
  rcases h₁ with h₁ | ⟨e₁, h₁⟩ <;> rcases h₂ with h₂ | ⟨e₂, h₂⟩
  · exact .inl (Std.TransCmp.lt_trans h₁ h₂)
  · exact .inl (Std.LawfulEqCmp.eq_of_compare e₂ ▸ h₁)
  · exact .inl (Std.LawfulEqCmp.eq_of_compare e₁ ▸ h₂)
  · refine .inr ⟨?_, Std.TransCmp.lt_trans h₁ h₂⟩
    rw [Std.LawfulEqCmp.eq_of_compare e₁]
    exact e₂

/-- Only equal heads compare as equal. -/
theorem Head.compare_eq {h k : Head} (e : h.compare k = .eq) : h = k := by
  obtain ⟨hn, hk⟩ := h
  obtain ⟨kn, kk⟩ := k
  rw [Head.compare, Ordering.then_eq_eq] at e
  have hname : hn = kn := Std.LawfulEqCmp.eq_of_compare e.1
  have hkind : hk = kk := OpKind.rank_injective (Std.LawfulEqCmp.eq_of_compare e.2)
  rw [hname, hkind]

/-- A head is equal to itself. -/
@[simp] theorem Head.compare_self (h : Head) : h.compare h = .eq := by
  simp [Head.compare]

/-- Comparing two heads the other way round gives the opposite. -/
theorem Head.compare_swap (h k : Head) : (h.compare k).swap = k.compare h := by
  rw [Head.compare, Head.compare, Ordering.swap_then, ← Std.OrientedCmp.eq_swap,
    ← Std.OrientedCmp.eq_swap]

/-- Being smaller is transitive among heads. -/
theorem Head.compare_lt_trans {h k l : Head} (h₁ : h.compare k = .lt) (h₂ : k.compare l = .lt) :
    h.compare l = .lt :=
  compare_then_lt_trans h₁ h₂

/-- Only equal symbols compare as equal. -/
theorem Symbol.compare_eq {a b : Symbol} (e : a.compare b = .eq) : a = b := by
  obtain ⟨an, ak⟩ := a
  obtain ⟨bn, bk⟩ := b
  rw [Symbol.compare, Ordering.then_eq_eq] at e
  have hname : an = bn := Std.LawfulEqCmp.eq_of_compare e.1
  have hkind : ak = bk := SymbolKind.rank_injective (Std.LawfulEqCmp.eq_of_compare e.2)
  rw [hname, hkind]

/-- A symbol is equal to itself. -/
@[simp] theorem Symbol.compare_self (a : Symbol) : a.compare a = .eq := by
  simp [Symbol.compare]

/-- Comparing two symbols the other way round gives the opposite. -/
theorem Symbol.compare_swap (a b : Symbol) : (a.compare b).swap = b.compare a := by
  rw [Symbol.compare, Symbol.compare, Ordering.swap_then, ← Std.OrientedCmp.eq_swap,
    ← Std.OrientedCmp.eq_swap]

/-- Being smaller is transitive among symbols. -/
theorem Symbol.compare_lt_trans {a b c : Symbol} (h₁ : a.compare b = .lt)
    (h₂ : b.compare c = .lt) : a.compare c = .lt :=
  compare_then_lt_trans h₁ h₂

namespace Term

/-! ### The laws of the comparison -/

mutual

/-- Only equal terms compare as equal. -/
theorem compare_eq : (s t : Term) → s.compare t = .eq → s = t
  | .integer a, .integer b, h => by
    rw [compare] at h
    rw [Std.LawfulEqCmp.eq_of_compare h]
  | .symbol a, .symbol b, h => by
    rw [compare] at h
    rw [Symbol.compare_eq h]
  | .node h as, .node k bs, e => by
    rw [compare, Ordering.then_eq_eq] at e
    rw [Head.compare_eq e.1, compareAll_eq as bs e.2]
  | .integer _, .symbol _, h | .integer _, .node .., h | .symbol _, .integer _, h
  | .symbol _, .node .., h | .node .., .integer _, h | .node .., .symbol _, h => by
    simp [compare] at h
termination_by structural s => s

/-- Only equal lists of terms compare as equal. -/
theorem compareAll_eq : (ss ts : List Term) → compareAll ss ts = .eq → ss = ts
  | [], [], _ => rfl
  | s :: ss, t :: ts, e => by
    rw [compareAll, Ordering.then_eq_eq] at e
    rw [compare_eq s t e.1, compareAll_eq ss ts e.2]
  | [], _ :: _, h | _ :: _, [], h => by simp [compareAll] at h
termination_by structural ss => ss

end

mutual

/-- Exchanging the terms reverses the comparison. -/
theorem compare_swap : (s t : Term) → (s.compare t).swap = t.compare s
  | .integer a, .integer b => by
    rw [compare, compare, ← Std.OrientedCmp.eq_swap]
  | .symbol a, .symbol b => by
    rw [compare, compare, Symbol.compare_swap]
  | .node h as, .node k bs => by
    rw [compare, compare, Ordering.swap_then, Head.compare_swap, compareAll_swap as bs]
  | .integer _, .symbol _ | .integer _, .node .. | .symbol _, .integer _
  | .symbol _, .node .. | .node .., .integer _ | .node .., .symbol _ => by
    simp [compare]
termination_by structural s => s

/-- Comparing two lists the other way round gives the opposite. -/
theorem compareAll_swap : (ss ts : List Term) → (compareAll ss ts).swap = compareAll ts ss
  | [], [] => rfl
  | s :: ss, t :: ts => by
    rw [compareAll, compareAll, Ordering.swap_then, compare_swap s t, compareAll_swap ss ts]
  | [], _ :: _ | _ :: _, [] => rfl
termination_by structural ss => ss

end

mutual

/-- A term is equal to itself. -/
theorem compare_self : (t : Term) → t.compare t = .eq
  | .integer a => by simp [compare]
  | .symbol a => by simp [compare]
  | .node h as => by simp [compare, compareAll_self as]
termination_by structural t => t

/-- A list of terms is equal to itself. -/
theorem compareAll_self : (ts : List Term) → compareAll ts ts = .eq
  | [] => rfl
  | t :: ts => by simp [compareAll, compare_self t, compareAll_self ts]
termination_by structural ts => ts

end

mutual

/-- Being smaller is transitive. -/
theorem compare_lt_trans :
    (s t u : Term) → s.compare t = .lt → t.compare u = .lt → s.compare u = .lt
  | .integer a, .integer b, .integer c, h₁, h₂ => by
    rw [compare] at h₁ h₂ ⊢
    exact Std.TransCmp.lt_trans h₁ h₂
  | .symbol a, .symbol b, .symbol c, h₁, h₂ => by
    rw [compare] at h₁ h₂ ⊢
    exact Symbol.compare_lt_trans h₁ h₂
  | .node h as, .node k bs, .node l cs, h₁, h₂ => by
    rw [compare, Ordering.then_eq_lt] at h₁ h₂ ⊢
    rcases h₁ with h₁ | ⟨e₁, h₁⟩ <;> rcases h₂ with h₂ | ⟨e₂, h₂⟩
    · exact .inl (Head.compare_lt_trans h₁ h₂)
    · exact .inl (Head.compare_eq e₂ ▸ h₁)
    · exact .inl (Head.compare_eq e₁ ▸ h₂)
    · rw [Head.compare_eq e₁]
      exact .inr ⟨e₂, compareAll_lt_trans as bs cs h₁ h₂⟩
  | .integer _, _, .symbol _, _, _ | .integer _, _, .node .., _, _
  | .symbol _, _, .node .., _, _ => by simp [compare]
  | .integer _, .symbol _, .integer _, _, h | .integer _, .node .., .integer _, _, h
  | .symbol _, .integer _, _, h, _ | .symbol _, .symbol _, .integer _, _, h
  | .symbol _, .node .., .integer _, _, h | .symbol _, .node .., .symbol _, _, h
  | .node .., .integer _, _, h, _ | .node .., .symbol _, _, h, _
  | .node .., .node .., .integer _, _, h | .node .., .node .., .symbol _, _, h => by
    simp [compare] at h
termination_by structural s => s

/-- Lists of terms are compared by their first members, and then by the others. -/
theorem compareAll_lt_trans : (ss ts us : List Term) →
    compareAll ss ts = .lt → compareAll ts us = .lt → compareAll ss us = .lt
  | s :: ss, t :: ts, u :: us, h₁, h₂ => by
    rw [compareAll, Ordering.then_eq_lt] at h₁ h₂ ⊢
    rcases h₁ with h₁ | ⟨e₁, h₁⟩ <;> rcases h₂ with h₂ | ⟨e₂, h₂⟩
    · exact .inl (compare_lt_trans s t u h₁ h₂)
    · exact .inl (compare_eq t u e₂ ▸ h₁)
    · exact .inl (compare_eq s t e₁ ▸ h₂)
    · rw [compare_eq s t e₁]
      exact .inr ⟨e₂, compareAll_lt_trans ss ts us h₁ h₂⟩
  | [], _, _ :: _, _, _ => rfl
  | [], [], [], h, _ | [], _ :: _, [], _, h | _ :: _, [], _, h, _
  | _ :: _, _ :: _, [], _, h => by simp [compareAll] at h
termination_by structural ss => ss

end

/-! ### The order -/

/-- A term comes before another one if it is smaller or the same. -/
theorem le_iff {s t : Term} : s.le t = true ↔ s.compare t = .lt ∨ s = t := by
  constructor
  · intro h
    cases e : s.compare t with
    | lt => exact .inl rfl
    | eq => exact .inr (compare_eq s t e)
    | gt => simp [le, e] at h
  · rintro (h | rfl)
    · simp [le, h]
    · simp [le, compare_self]

/-- Any two terms can be compared. -/
theorem le_total (s t : Term) : s.le t = true ∨ t.le s = true := by
  have hswap := compare_swap s t
  cases e : s.compare t with
  | lt => exact .inl (le_iff.mpr (.inl e))
  | eq => exact .inl (le_iff.mpr (.inr (compare_eq s t e)))
  | gt =>
    rw [e] at hswap
    exact .inr (le_iff.mpr (.inl hswap.symm))

/-- The order is transitive. -/
theorem le_trans (s t u : Term) (h₁ : s.le t = true) (h₂ : t.le u = true) : s.le u = true := by
  rcases le_iff.mp h₁ with l₁ | rfl
  · rcases le_iff.mp h₂ with l₂ | rfl
    · exact le_iff.mpr (.inl (compare_lt_trans s t u l₁ l₂))
    · exact h₁
  · exact h₂

/-- Two terms that come before one another are the same. -/
theorem le_antisymm {s t : Term} (h₁ : s.le t = true) (h₂ : t.le s = true) : s = t := by
  rcases le_iff.mp h₁ with l₁ | h
  · rcases le_iff.mp h₂ with l₂ | h
    · have hself := compare_lt_trans s t s l₁ l₂
      rw [compare_self] at hself
      exact absurd hself (by decide)
    · exact h.symm
  · exact h

end Term

/-! ### Sorting terms -/

/-- The result of sorting terms is in order. -/
theorem sorted_sortBy_le (ts : List Term) :
    (sortBy Term.le ts).Pairwise (fun s t => s.le t = true) :=
  sortBy_pairwise Term.le_trans Term.le_total ts

/-- **Sorting forgets the order of its input.** -/
theorem sortBy_eq_of_perm {ss ts : List Term} (h : ss.Perm ts) :
    sortBy Term.le ss = sortBy Term.le ts := by
  have hperm : (sortBy Term.le ss).Perm (sortBy Term.le ts) :=
    (sortBy_perm _ ss).trans (h.trans (sortBy_perm _ ts).symm)
  exact hperm.eq_of_pairwise (fun _ _ _ _ => Term.le_antisymm) (sorted_sortBy_le ss)
    (sorted_sortBy_le ts)

/-- Sorting leaves a sorted list as it is. -/
theorem sortBy_eq_self {ts : List Term} (h : ts.Pairwise (fun s t => s.le t = true)) :
    sortBy Term.le ts = ts :=
  (sortBy_perm _ ts).eq_of_pairwise (fun _ _ _ _ => Term.le_antisymm) (sorted_sortBy_le ts) h

/-- Sorting terms again changes nothing. -/
theorem sortBy_idem (ts : List Term) : sortBy Term.le (sortBy Term.le ts) = sortBy Term.le ts :=
  sortBy_eq_self (sorted_sortBy_le ts)

end TermNet
