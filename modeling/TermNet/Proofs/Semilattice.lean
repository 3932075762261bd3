import TermNet.Proofs.Substitution

namespace TermNet

/-!
# Substitutions form a partial join semilattice

Substitutions are ordered by their bindings.  Two of them have a common bound if they agree on the
names that they share, and then their union is the least one.

* `Substitution.Agree`, `Substitution.IsJoin` — when there is a bound, and which one is the least;
* `Substitution.union?_eq_some_iff_isJoin`, `Substitution.isSome_union?_iff` — what the loop that
  binds the entries of one substitution in the other comes to;
* `Substitution.tryBind_eq`, `Substitution.extend?_eq_union?` — binding one name is a union;
* `substitutions_are_a_partial_semilattice` — all laws together.
-/

namespace Substitution

variable {σ τ ρ : Substitution}

/-- The substitution that binds one name. -/
def only (name : String) (binding : Binding) : Substitution := .insert .empty name binding

/-- Two substitutions that bind no name differently. -/
def Agree (σ τ : Substitution) : Prop :=
  ∀ name b c, σ.find? name = some b → τ.find? name = some c → b = c

/-- The least substitution that has all bindings of two others. -/
structure IsJoin (σ τ ρ : Substitution) : Prop where
  left : σ.Below ρ
  right : τ.Below ρ
  least : ∀ υ, σ.Below υ → τ.Below υ → ρ.Below υ

/-- The union of substitutions that may be missing. -/
def join? (left right : Option Substitution) : Option Substitution :=
  left.bind fun σ => right.bind σ.union?

/-! ### Common bounds -/

/-- Substitutions below a common bound agree. -/
theorem Agree.of_below {υ : Substitution} (hσ : σ.Below υ) (hτ : τ.Below υ) : σ.Agree τ := by
  intro name b c hb hc
  exact Option.some.inj ((hσ name b hb).symm.trans (hτ name c hc))

/-- Substitutions that agree have a common bound: the bindings of the second are set in the first,
    whatever was there before. -/
theorem Agree.exists_bound (h : σ.Agree τ) : ∃ υ : Substitution, σ.Below υ ∧ τ.Below υ := by
  let υ : Substitution := τ.entries.foldl (fun map entry => map.insert entry.1 entry.2) σ
  have hfind : ∀ x, υ.find? x = (τ.find? x).or (σ.find? x) := by
    intro x
    rw [← NameMap.lookup_entries τ x]
    exact NameMap.find?_foldl_insert σ τ.nodup_names x
  refine ⟨υ, fun x b hb => ?_, fun x c hc => ?_⟩
  · rw [hfind]
    cases hx : τ.find? x with
    | none => exact hb
    | some c => exact congrArg some (h x b c hb hx).symm
  · rw [hfind, hc]
    rfl

/-- There is one join at most. -/
theorem IsJoin.unique {υ : Substitution} (h : IsJoin σ τ ρ) (h' : IsJoin σ τ υ) : ρ = υ :=
  (h.least υ h'.left h'.right).antisymm (h'.least ρ h.left h.right)

/-- A join does not depend on the order of the sides. -/
theorem IsJoin.symm (h : IsJoin σ τ ρ) : IsJoin τ σ ρ :=
  ⟨h.right, h.left, fun υ hτ hσ => h.least υ hσ hτ⟩

/-! ### Unions -/

/-- A union that succeeds is the join. -/
theorem isJoin_of_union? (h : σ.union? τ = some ρ) : IsJoin σ τ ρ := by
  obtain ⟨hσ, hτ⟩ := below_of_union? h
  refine ⟨hσ, hτ, fun υ hσυ hτυ => ?_⟩
  obtain ⟨ρ', hρ', hbelow⟩ := exists_union? hσυ hτυ
  rwa [← Option.some.inj (h.symm.trans hρ')] at hbelow

/-- **Unions are least bounds.**  The loop that binds the entries one by one fails at the first
    conflict, so it does not fail below a common bound. -/
theorem union?_eq_some_iff_isJoin : σ.union? τ = some ρ ↔ IsJoin σ τ ρ := by
  refine ⟨isJoin_of_union?, fun h => ?_⟩
  obtain ⟨υ, hυ, -⟩ := exists_union? h.left h.right
  rw [hυ, h.unique (isJoin_of_union? hυ)]

/-- **A union exists** where the substitutions agree. -/
theorem isSome_union?_iff : (σ.union? τ).isSome = true ↔ σ.Agree τ := by
  rw [Option.isSome_iff_exists]
  constructor
  · rintro ⟨ρ, hρ⟩
    obtain ⟨hσ, hτ⟩ := below_of_union? hρ
    exact .of_below hσ hτ
  · intro h
    obtain ⟨υ, hσ, hτ⟩ := h.exists_bound
    obtain ⟨ρ, hρ, -⟩ := exists_union? hσ hτ
    exact ⟨ρ, hρ⟩

/-- **Unions are commutative,** failed ones included. -/
theorem union?_comm (σ τ : Substitution) : σ.union? τ = τ.union? σ := by
  refine Option.ext fun ρ => ?_
  rw [union?_eq_some_iff_isJoin, union?_eq_some_iff_isJoin]
  exact ⟨IsJoin.symm, IsJoin.symm⟩

/-- **Unions are idempotent.** -/
theorem union?_self (σ : Substitution) : σ.union? σ = some σ :=
  union?_eq_some_iff_isJoin.mpr ⟨.refl σ, .refl σ, fun _ h _ => h⟩

/-- **Brackets make no difference:** the order of unions makes none, and neither do their sides. -/
theorem union?_assoc (σ τ ρ : Substitution) :
    (σ.union? τ).bind (·.union? ρ) = (τ.union? ρ).bind σ.union? := by
  calc (σ.union? τ).bind (·.union? ρ)
      = (τ.union? σ).bind (·.union? ρ) := by rw [union?_comm σ τ]
    _ = (τ.union? ρ).bind (·.union? σ) := union?_right_comm τ σ ρ
    _ = (τ.union? ρ).bind σ.union? := congrArg _ (funext fun υ => union?_comm υ σ)

/-! ### Unions that may be missing -/

/-- Joins of operands that may be missing are commutative. -/
theorem join?_comm (left right : Option Substitution) : join? left right = join? right left := by
  cases left with
  | none => cases right <;> rfl
  | some σ =>
    cases right with
    | none => rfl
    | some τ => exact union?_comm σ τ

/-- Joins of operands that may be missing are idempotent. -/
theorem join?_self (operand : Option Substitution) : join? operand operand = operand := by
  cases operand with
  | none => rfl
  | some σ => exact union?_self σ

/-- A union that is missing on either side is missing in the end. -/
theorem join?_assoc (first second third : Option Substitution) :
    join? (join? first second) third = join? first (join? second third) := by
  match first, second, third with
  | none, _, _ => rfl
  | some _, none, _ => rfl
  | some σ, some τ, none => exact Option.bind_fun_none (σ.union? τ)
  | some σ, some τ, some ρ => exact union?_assoc σ τ ρ

/-! ### Binding one name -/

/-- What the substitution with one binding holds. -/
theorem find?_only_eq_some_iff {name x : String} {binding b : Binding} :
    (only name binding).find? x = some b ↔ x = name ∧ b = binding := by
  rw [only, NameMap.find?_insert, NameMap.find?_empty]
  by_cases hx : x = name <;> simp [hx, eq_comm]

/-- **Binding one name** is the union with that binding. -/
theorem extend?_eq_union? (σ : Substitution) (name : String) (binding : Binding) :
    σ.extend? name binding = σ.union? (only name binding) := by
  refine Option.ext fun ρ => ?_
  rw [extend?_eq_some_iff, union?_eq_some_iff]
  exact forall_congr' fun x => forall_congr' fun b => by rw [find?_only_eq_some_iff]

/-- Binding a name in place keeps the substitution where extending it fails. -/
theorem tryBind_eq (σ : Substitution) (name : String) (binding : Binding) :
    σ.tryBind name binding = match σ.extend? name binding with
      | some ρ => (true, ρ)
      | none => (false, σ) := by
  unfold tryBind extend?
  cases σ.find? name with
  | none => rfl
  | some old => by_cases heq : old = binding <;> simp [heq]

end Substitution

open Substitution in
/-- **Substitutions form a partial join semilattice.**  A union exists exactly if the substitutions
    agree on every name that they share, and is their least upper bound.  It is commutative,
    idempotent and associative, where a union that is missing makes every union with it missing.
    Extending a substitution and binding a name in place are unions with one binding; binding in
    place tells whether the union exists, and keeps the substitution if it does not. -/
theorem substitutions_are_a_partial_semilattice :
    (∀ σ τ : Substitution, ((σ.union? τ).isSome = true ↔ σ.Agree τ) ∧
      ∀ ρ, σ.union? τ = some ρ ↔ IsJoin σ τ ρ) ∧
    (∀ a b : Option Substitution, join? a b = join? b a) ∧
    (∀ a : Option Substitution, join? a a = a) ∧
    (∀ a b c : Option Substitution, join? (join? a b) c = join? a (join? b c)) ∧
    ∀ (σ : Substitution) (name : String) (binding : Binding),
      σ.extend? name binding = σ.union? (only name binding) ∧
      σ.tryBind name binding = match σ.union? (only name binding) with
        | some ρ => (true, ρ)
        | none => (false, σ) := by
  refine ⟨fun σ τ => ⟨isSome_union?_iff, fun ρ => union?_eq_some_iff_isJoin⟩, join?_comm,
    join?_self, join?_assoc, fun σ name binding => ?_⟩
  have hextend := extend?_eq_union? σ name binding
  exact ⟨hextend, hextend ▸ tryBind_eq σ name binding⟩

/-- Substitutions that share a name have a union only if they bind it alike. -/
example :
    let a := Substitution.only "x" (.single (.integer 1))
    let b := Substitution.only "x" (.single (.integer 2))
    let c := Substitution.only "y" (.sequence [])
    ((a.union? b).isSome, (a.union? c).isSome) = (false, true) := by decide +kernel

end TermNet
