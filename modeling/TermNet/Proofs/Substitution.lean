import TermNet.Proofs.NameMap
import TermNet.Substitution

namespace TermNet.Substitution

/-!
# Substitutions as finite relations

A substitution is the relation between variables and their bindings.  Binding more
variables is the union of relations, as long as that union still gives every variable
one binding.

* `Below σ τ` — every binding of `σ` is one of `τ`;
* `bindAll?_eq_some_iff`, `union?_eq_some_iff` — what a successful union holds;
* `exists_bindAll?`, `exists_union?` — a union exists below every common bound;
* `union?_right_comm` — the order of unions makes no difference;
* `satisfies_of_below` — checks whose variables are bound keep their answer.
-/

/-- Every binding of `σ` is one of `τ`. -/
def Below (σ τ : Substitution) : Prop :=
  ∀ name binding, σ.find? name = some binding → τ.find? name = some binding

/-- Whether a name is bound. -/
def Binds (σ : Substitution) (name : String) : Prop := ∃ binding, σ.find? name = some binding

variable {σ τ ρ : Substitution}

/-! ### The order of substitutions -/

/-- Every substitution is below itself. -/
theorem Below.refl (σ : Substitution) : σ.Below σ := fun _ _ h => h

/-- Being below is transitive. -/
theorem Below.trans (h₁ : σ.Below τ) (h₂ : τ.Below ρ) : σ.Below ρ :=
  fun name binding h => h₂ name binding (h₁ name binding h)

/-- Two substitutions that are below one another are equal. -/
theorem Below.antisymm (h₁ : σ.Below τ) (h₂ : τ.Below σ) : σ = τ :=
  NameMap.ext_some fun name binding => ⟨h₁ name binding, h₂ name binding⟩

/-- The empty substitution is below all others. -/
theorem empty_below (σ : Substitution) : Below .empty σ := fun _ _ h => by simp at h

/-- What is bound stays bound above. -/
theorem Below.binds (h : σ.Below τ) {name : String} (hbinds : σ.Binds name) : τ.Binds name :=
  hbinds.imp fun binding hfind => h name binding hfind

/-- The empty substitution binds nothing. -/
theorem not_binds_empty (name : String) : ¬ Binds .empty name := by
  rintro ⟨binding, h⟩
  simp at h

/-- A variable that is bound has the same binding above. -/
theorem Below.find?_eq (h : σ.Below τ) {name : String} (hbinds : σ.Binds name) :
    τ.find? name = σ.find? name := by
  obtain ⟨binding, hfind⟩ := hbinds
  rw [hfind, h name binding hfind]

/-! ### Binding one variable -/

/-- A binding is added to what was bound before. -/
theorem extend?_eq_some_iff {name : String} {binding : Binding} :
    σ.extend? name binding = some τ ↔
      ∀ x b, τ.find? x = some b ↔ σ.find? x = some b ∨ (x = name ∧ b = binding) := by
  unfold extend?
  cases hfind : σ.find? name with
  | none =>
    simp only [Option.some.injEq]
    constructor
    · rintro rfl x b
      rw [NameMap.find?_insert]
      by_cases hx : x = name
      · simp [hx, hfind, eq_comm]
      · simp [hx]
    · intro h
      refine NameMap.ext_some fun x b => ?_
      rw [h, NameMap.find?_insert]
      by_cases hx : x = name
      · simp [hx, hfind, eq_comm]
      · simp [hx]
  -- A name that is bound already accepts no other binding.
  | some old =>
    simp only
    constructor
    · intro h x b
      split at h
      · rename_i hold
        rw [← Option.some.inj h]
        refine ⟨.inl, ?_⟩
        rintro (h | ⟨rfl, rfl⟩)
        · exact h
        · rw [hfind, hold]
      · exact absurd h (by simp)
    · intro h
      have hold : τ.find? name = some old := (h name old).mpr (.inl hfind)
      have hnew : τ.find? name = some binding := (h name binding).mpr (.inr ⟨rfl, rfl⟩)
      have heq : old = binding := Option.some.inj (hold.symm.trans hnew)
      rw [if_pos heq]
      refine congrArg some (NameMap.ext_some fun x b => ?_)
      rw [h]
      refine ⟨.inl, ?_⟩
      rintro (h | ⟨rfl, rfl⟩)
      · exact h
      · rw [hfind, heq]

/-- Binding succeeds below a substitution that has the binding. -/
theorem exists_extend? {name : String} {binding : Binding} (h : σ.Below ρ)
    (hname : ρ.find? name = some binding) : ∃ τ, σ.extend? name binding = some τ := by
  unfold extend?
  cases hfind : σ.find? name with
  | none => exact ⟨_, rfl⟩
  | some old =>
    have heq : old = binding := Option.some.inj ((h name old hfind).symm.trans hname)
    exact ⟨σ, if_pos heq⟩

/-! ### Binding many variables -/

/-- The first binding is added, and then the others. -/
theorem bindAll?_cons (σ : Substitution) (name : String) (binding : Binding)
    (rest : List (String × Binding)) :
    σ.bindAll? ((name, binding) :: rest) =
      (σ.extend? name binding).bind (bindAll? · rest) := by
  rw [bindAll?, tryBind, extend?]
  cases σ.find? name with
  | none => rfl
  | some old =>
    by_cases heq : old = binding
    · simp [heq]
    · simp [heq]

/-- **What a successful binding of many variables holds.** -/
theorem bindAll?_eq_some_iff {entries : List (String × Binding)} :
    σ.bindAll? entries = some τ ↔
      ∀ x b, τ.find? x = some b ↔ σ.find? x = some b ∨ (x, b) ∈ entries := by
  induction entries generalizing σ with
  | nil =>
    simp only [bindAll?, Option.some.injEq, List.not_mem_nil, or_false]
    constructor
    · rintro rfl x b
      rfl
    · intro h
      exact (NameMap.ext_some h).symm
  | cons entry rest ih =>
    obtain ⟨name, binding⟩ := entry
    rw [bindAll?_cons]
    constructor
    · intro h
      obtain ⟨next, hnext, hrest⟩ := Option.bind_eq_some_iff.mp h
      intro x b
      rw [ih.mp hrest, extend?_eq_some_iff.mp hnext, List.mem_cons, Prod.mk.injEq, or_assoc]
    · intro h
      -- The entry agrees with `τ`, which is above `σ`, so binding it does not fail.
      have hbelow : σ.Below τ := fun x b hx => (h x b).mpr (.inl hx)
      have hname : τ.find? name = some binding := (h name binding).mpr (.inr List.mem_cons_self)
      obtain ⟨next, hnext⟩ := exists_extend? hbelow hname
      rw [hnext, Option.bind_some, ih]
      intro x b
      rw [h, extend?_eq_some_iff.mp hnext, List.mem_cons, Prod.mk.injEq, or_assoc]

/-- Binding many variables succeeds below a substitution that has all the bindings. -/
theorem exists_bindAll? {entries : List (String × Binding)} (h : σ.Below ρ)
    (hentries : ∀ x b, (x, b) ∈ entries → ρ.find? x = some b) :
    ∃ τ, σ.bindAll? entries = some τ := by
  induction entries generalizing σ with
  | nil => exact ⟨σ, rfl⟩
  | cons entry rest ih =>
    obtain ⟨name, binding⟩ := entry
    have hname : ρ.find? name = some binding := hentries name binding List.mem_cons_self
    obtain ⟨next, hnext⟩ := exists_extend? h hname
    rw [bindAll?_cons, hnext, Option.bind_some]
    refine ih (fun x b hx => ?_) fun x b hx => hentries x b (List.mem_cons_of_mem _ hx)
    rcases (extend?_eq_some_iff.mp hnext x b).mp hx with hx | ⟨rfl, rfl⟩
    · exact h x b hx
    · exact hname

/-! ### Unions -/

/-- **What a union holds:** the bindings of both substitutions. -/
theorem union?_eq_some_iff :
    σ.union? τ = some ρ ↔
      ∀ x b, ρ.find? x = some b ↔ σ.find? x = some b ∨ τ.find? x = some b := by
  rw [union?, bindAll?_eq_some_iff]
  exact forall_congr' fun x => forall_congr' fun b => by rw [NameMap.mem_entries]

/-- A union is above both sides. -/
theorem below_of_union? (h : σ.union? τ = some ρ) : σ.Below ρ ∧ τ.Below ρ := by
  have hunion := union?_eq_some_iff.mp h
  exact ⟨fun x b hx => (hunion x b).mpr (.inl hx), fun x b hx => (hunion x b).mpr (.inr hx)⟩

/-- A union exists below every common bound, and stays below it. -/
theorem exists_union? {υ : Substitution} (hσ : σ.Below υ) (hτ : τ.Below υ) :
    ∃ ρ, σ.union? τ = some ρ ∧ ρ.Below υ := by
  have hentries : ∀ x b, (x, b) ∈ τ.entries → υ.find? x = some b := fun x b hx =>
    hτ x b (NameMap.mem_entries.mp hx)
  obtain ⟨ρ, hρ⟩ := exists_bindAll? hσ hentries
  refine ⟨ρ, hρ, fun x b hx => ?_⟩
  rcases (union?_eq_some_iff.mp hρ x b).mp hx with hx | hx
  · exact hσ x b hx
  · exact hτ x b hx

/-- **The order of unions makes no difference.** -/
theorem union?_right_comm (σ τ ρ : Substitution) :
    (σ.union? τ).bind (·.union? ρ) = (σ.union? ρ).bind (·.union? τ) := by
  have hhalf : ∀ τ ρ υ : Substitution, (σ.union? τ).bind (·.union? ρ) = some υ →
      (σ.union? ρ).bind (·.union? τ) = some υ := by
    intro τ ρ υ h
    obtain ⟨στ, hστ, hυ⟩ := Option.bind_eq_some_iff.mp h
    have hστυ := below_of_union? hυ
    obtain ⟨σρ, hσρ, -⟩ := exists_union? ((below_of_union? hστ).1.trans hστυ.1) hστυ.2
    rw [hσρ, Option.bind_some, union?_eq_some_iff]
    intro x b
    rw [union?_eq_some_iff.mp hυ, union?_eq_some_iff.mp hστ, union?_eq_some_iff.mp hσρ]
    exact or_right_comm
  exact Option.ext fun υ => ⟨hhalf τ ρ υ, hhalf ρ τ υ⟩

/-! ### Renaming -/

/-- The entries of a renamed substitution. -/
def renamedEntries (σ : Substitution) (pairs : List (String × String)) :
    List (String × Binding) :=
  pairs.filterMap fun (declared, localName) =>
    (σ.find? localName).map fun binding => (declared, binding)

/-- The first pair of names, and then the others. -/
theorem renamedEntries_cons (σ : Substitution) (declared localName : String)
    (pairs : List (String × String)) :
    σ.renamedEntries ((declared, localName) :: pairs) =
      ((σ.find? localName).map (declared, ·)).toList ++ σ.renamedEntries pairs := by
  unfold renamedEntries
  rw [List.filterMap_cons]
  cases h : σ.find? localName <;> simp [h]

/-- Renamed entries have some of the new names, in their order. -/
theorem renamedEntries_names (σ : Substitution) (pairs : List (String × String)) :
    ((σ.renamedEntries pairs).map Prod.fst).Sublist (pairs.map Prod.fst) := by
  induction pairs with
  | nil => exact .slnil
  | cons pair rest ih =>
    obtain ⟨declared, localName⟩ := pair
    rw [renamedEntries_cons]
    cases σ.find? localName with
    | none => exact ih.cons declared
    | some b => exact ih.cons_cons declared

/-- What a new name is bound to after renaming. -/
theorem lookup_renamedEntries {pairs : List (String × String)}
    (nodup : (pairs.map Prod.fst).Nodup) (name : String) :
    (σ.renamedEntries pairs).lookup name = (pairs.lookup name).bind σ.find? := by
  induction pairs with
  | nil => rfl
  | cons pair rest ih =>
    obtain ⟨declared, localName⟩ := pair
    rw [List.map_cons, List.nodup_cons] at nodup
    rw [renamedEntries_cons, List.lookup_cons]
    by_cases hname : name = declared
    · have hbeq : (name == declared) = true := by simpa using hname
      -- If the local name is not bound, no later pair has the declared one.
      have hnone : rest.lookup name = none := by
        rw [List.lookup_eq_none_iff]
        intro pair hpair
        simp only [bne_iff_ne, ne_eq]
        intro heq
        have hmem : pair.1 ∈ rest.map Prod.fst := List.mem_map_of_mem hpair
        rw [← heq, hname] at hmem
        exact nodup.1 hmem
      cases hfind : σ.find? localName with
      | none => simpa [hbeq, hfind, hnone] using ih nodup.2
      | some b => simp [List.lookup_cons, hbeq, hfind]
    · have hbeq : (name == declared) = false := by simpa using hname
      cases hfind : σ.find? localName with
      | none => simpa [hbeq] using ih nodup.2
      | some b => simpa [List.lookup_cons, hbeq] using ih nodup.2

/-- What is bound after renaming to different declared names. -/
theorem find?_renamed {pairs : List (String × String)} (nodup : (pairs.map Prod.fst).Nodup)
    (name : String) : (σ.renamed pairs).find? name = (pairs.lookup name).bind σ.find? := by
  rw [← lookup_renamedEntries nodup]
  exact NameMap.find?_ofList (nodup.sublist (σ.renamedEntries_names pairs)) name

/-! ### Checks -/

/-- The first name is looked up, and then the others. -/
theorem findAll?_cons (σ : Substitution) (name : String) (names : List String) :
    σ.findAll? (name :: names) =
      (σ.find? name).bind fun binding => (σ.findAll? names).map (binding :: ·) := by
  simp only [findAll?, List.mapM_cons]
  cases σ.find? name with
  | none => rfl
  | some b =>
    cases names.mapM σ.find? <;> rfl

/-- Bindings that are all there stay the same. -/
theorem findAll?_of_below (h : σ.Below τ) {names : List String}
    (hbinds : ∀ name ∈ names, σ.Binds name) : τ.findAll? names = σ.findAll? names := by
  induction names with
  | nil => rfl
  | cons name rest ih =>
    rw [findAll?_cons, findAll?_cons, h.find?_eq (hbinds name List.mem_cons_self),
      ih fun x hx => hbinds x (List.mem_cons_of_mem _ hx)]

/-- **A check whose variables are bound keeps its answer** when more is bound. -/
theorem satisfies_of_below (h : σ.Below τ) {names : List String}
    (hbinds : ∀ name ∈ names, σ.Binds name) (check : List Binding → Bool) :
    τ.satisfies names check = σ.satisfies names check := by
  rw [satisfies, satisfies, findAll?_of_below h hbinds]

/-- A check only looks at the bindings of its variables. -/
theorem satisfies_map {names : List String} {f : String → String}
    (h : ∀ name ∈ names, τ.find? (f name) = σ.find? name) (check : List Binding → Bool) :
    τ.satisfies (names.map f) check = σ.satisfies names check := by
  have hall : τ.findAll? (names.map f) = σ.findAll? names := by
    induction names with
    | nil => rfl
    | cons name rest ih =>
      rw [List.map_cons, findAll?_cons, findAll?_cons, h name List.mem_cons_self,
        ih fun x hx => h x (List.mem_cons_of_mem _ hx)]
  rw [satisfies, satisfies, hall]

end TermNet.Substitution
