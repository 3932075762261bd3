import Mathlib.Data.List.Perm.Basic
import TermNet.Commutative
import TermNet.Proofs.Substitution

namespace TermNet.CommutativePattern

/-!
# Unions over the pairs of an assignment

An assignment pairs operands with arguments, and each pair has some ways to fit.  A
choice of one way for each pair gives a substitution, if the ways agree with one
another.

* `unionPairs ways pairs σ` — the unions for all choices;
* `mem_unionPairs_iff` — what they hold;
* `unionPairs_perm` — the order of the pairs only permutes them;
* `unionPairs_relabel` — the numbers of the operands make no difference.
-/

/-- The unions of `σ` with one way for each pair. -/
def unionPairs (ways : Nat → Term → List Substitution) :
    List (Nat × Term) → Substitution → List Substitution
  | [], σ => [σ]
  | pair :: rest, σ =>
    ((ways pair.1 pair.2).filterMap σ.union?).flatMap (unionPairs ways rest)

variable {ways : Nat → Term → List Substitution}

/-- Two nested loops may be exchanged, up to the order of what they list. -/
theorem flatMap_comm_perm {α β γ : Type} (xs : List α) (ys : List β) (f : α → β → List γ) :
    (xs.flatMap fun a => ys.flatMap (f a)).Perm
      (ys.flatMap fun b => xs.flatMap fun a => f a b) := by
  induction xs with
  | nil => simp
  | cons a xs ih =>
    simp only [List.flatMap_cons]
    exact (ih.append_left _).trans (List.flatMap_append_perm ys (f a) _)

/-- Leaving out members before a loop or in it. -/
theorem filterMap_flatMap_eq {α β γ : Type} (xs : List α) (f : α → Option β) (k : β → List γ) :
    (xs.filterMap f).flatMap k = xs.flatMap fun a => (f a).toList.flatMap k := by
  induction xs with
  | nil => rfl
  | cons a xs ih =>
    rw [List.filterMap_cons, List.flatMap_cons]
    cases h : f a with
    | none => simpa using ih
    | some b => simpa using ih

/-- Two pairs, whose ways are united in either order. -/
theorem unionPairs_cons_cons (p q : Nat × Term) (rest : List (Nat × Term)) (σ : Substitution) :
    unionPairs ways (p :: q :: rest) σ =
      (ways p.1 p.2).flatMap fun τ => (ways q.1 q.2).flatMap fun ρ =>
        ((σ.union? τ).bind (·.union? ρ)).toList.flatMap (unionPairs ways rest) := by
  simp only [unionPairs, filterMap_flatMap_eq]
  refine congrArg (List.flatMap · _) (funext fun τ => ?_)
  cases σ.union? τ with
  | none => simp
  | some union => simp

/-- **The order of the pairs only permutes the unions.** -/
theorem unionPairs_perm {pairs others : List (Nat × Term)} (h : pairs.Perm others)
    (σ : Substitution) : (unionPairs ways pairs σ).Perm (unionPairs ways others σ) := by
  induction h generalizing σ with
  | nil => exact .refl _
  | cons p _ ih => exact List.Perm.flatMap_left _ fun τ _ => ih τ
  | swap p q rest =>
    rw [unionPairs_cons_cons, unionPairs_cons_cons]
    refine (flatMap_comm_perm _ _ _).trans (.of_eq ?_)
    simp only [σ.union?_right_comm]
  | trans _ _ ih₁ ih₂ => exact (ih₁ σ).trans (ih₂ σ)

/-- **The numbers of the operands make no difference,** only their ways, in any order. -/
theorem unionPairs_relabel {others : Nat → Term → List Substitution} (label : Nat → Nat)
    {pairs : List (Nat × Term)}
    (h : ∀ pair ∈ pairs, (others (label pair.1) pair.2).Perm (ways pair.1 pair.2))
    (σ : Substitution) :
    (unionPairs others (pairs.map fun pair => (label pair.1, pair.2)) σ).Perm
      (unionPairs ways pairs σ) := by
  induction pairs generalizing σ with
  | nil => exact .refl _
  | cons p rest ih =>
    have hfirst := (h p List.mem_cons_self).filterMap σ.union?
    exact hfirst.flatMap fun τ _ => ih (fun pair hpair => h pair (List.mem_cons_of_mem _ hpair)) τ

/-- **What the unions hold:** the bindings of `σ` and those of a way for each pair. -/
theorem mem_unionPairs_iff {pairs : List (Nat × Term)} {σ ρ : Substitution} :
    ρ ∈ unionPairs ways pairs σ ↔
      ∃ τs, List.Forall₂ (fun pair τ => τ ∈ ways pair.1 pair.2) pairs τs ∧
        ∀ x b, ρ.find? x = some b ↔ σ.find? x = some b ∨ ∃ τ ∈ τs, τ.find? x = some b := by
  induction pairs generalizing σ with
  | nil =>
    rw [unionPairs, List.mem_singleton]
    constructor
    · rintro rfl
      exact ⟨[], .nil, fun x b => by simp⟩
    · rintro ⟨τs, hτs, h⟩
      rw [List.forall₂_nil_left_iff] at hτs
      subst hτs
      exact NameMap.ext_some fun x b => by rw [h]; simp
  | cons p rest ih =>
    simp only [unionPairs, List.mem_flatMap, List.mem_filterMap, ih]
    constructor
    · rintro ⟨union, ⟨τ, hτ, hunion⟩, τs, hτs, h⟩
      refine ⟨τ :: τs, .cons hτ hτs, fun x b => ?_⟩
      rw [h, Substitution.union?_eq_some_iff.mp hunion, or_assoc]
      simp
    · rintro ⟨τs, hτs, h⟩
      obtain ⟨τ, τs, hτ, hrest, rfl⟩ := List.forall₂_cons_left_iff.mp hτs
      -- Both are below `ρ`, so they have a union, and it is below `ρ` as well.
      have hσ : σ.Below ρ := fun x b hx => (h x b).mpr (.inl hx)
      have hτρ : τ.Below ρ := fun x b hx => (h x b).mpr (.inr ⟨τ, List.mem_cons_self, hx⟩)
      obtain ⟨union, hunion, -⟩ := Substitution.exists_union? hσ hτρ
      refine ⟨union, ⟨τ, hτ, hunion⟩, τs, hrest, fun x b => ?_⟩
      rw [h, Substitution.union?_eq_some_iff.mp hunion, or_assoc]
      simp

/-- A union exists for all choices that lie below one substitution. -/
theorem exists_mem_unionPairs {pairs : List (Nat × Term)} {τs : List Substitution}
    {σ ρ : Substitution}
    (hτs : List.Forall₂ (fun pair τ => τ ∈ ways pair.1 pair.2) pairs τs) (hσ : σ.Below ρ)
    (hbelow : ∀ τ ∈ τs, τ.Below ρ) :
    ∃ union, union ∈ unionPairs ways pairs σ ∧
      ∀ x b, union.find? x = some b ↔ σ.find? x = some b ∨ ∃ τ ∈ τs, τ.find? x = some b := by
  have hunion : ∃ union : Substitution,
      ∀ x b, union.find? x = some b ↔ σ.find? x = some b ∨ ∃ τ ∈ τs, τ.find? x = some b := by
    clear hτs
    induction τs generalizing σ with
    | nil => exact ⟨σ, fun x b => by simp⟩
    | cons τ τs ih =>
      obtain ⟨next, hnext, hnextρ⟩ := Substitution.exists_union? hσ (hbelow τ List.mem_cons_self)
      obtain ⟨union, h⟩ := ih hnextρ fun υ hυ => hbelow υ (List.mem_cons_of_mem τ hυ)
      refine ⟨union, fun x b => ?_⟩
      rw [h, Substitution.union?_eq_some_iff.mp hnext, or_assoc]
      simp
  obtain ⟨union, h⟩ := hunion
  exact ⟨union, mem_unionPairs_iff.mpr ⟨τs, hτs, h⟩, h⟩

end TermNet.CommutativePattern
