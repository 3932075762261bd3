import TermNet.Proofs.Net.Explore
import TermNet.Proofs.Substitution
import TermNet.Pattern.Constraint

namespace TermNet

/-!
# Renaming the variables of substitutions

Matching treats the names of variables as nothing but names.  So under a renaming that keeps
different names different, it takes the same steps on renamed substitutions.

* `Substitution.relabel` — a substitution with renamed variables;
* `extend?_relabel`, `bindAll?_relabel`, `union?_relabel` — binding renamed variables;
* `Constraint.relabel`, `holds_relabel` — constraints on renamed variables;
* `Label.advance_relabel` — the places behind an ordinary edge.
-/

variable {rename : String → String}

namespace Substitution

/-- **The substitution with renamed variables.** -/
def relabel (rename : String → String) (σ : Substitution) : Substitution :=
  .ofList (σ.entries.map fun entry => (rename entry.1, entry.2))

variable {σ τ ρ : Substitution}

/-- What is bound after a renaming that keeps the bound variables apart. -/
theorem find?_relabel_eq_some_iff
    (h : ∀ x y, σ.Binds x → σ.Binds y → rename x = rename y → x = y) {name : String}
    {binding : Binding} :
    (σ.relabel rename).find? name = some binding ↔
      ∃ x, rename x = name ∧ σ.find? x = some binding := by
  have hnodup : ((σ.entries.map fun entry => (rename entry.1, entry.2)).map Prod.fst).Nodup := by
    rw [List.map_map, show Prod.fst ∘ (fun entry : String × Binding => (rename entry.1, entry.2)) =
      rename ∘ Prod.fst from rfl, ← List.map_map]
    refine σ.nodup_names.map_on fun x hx y hy heq => ?_
    obtain ⟨⟨x, a⟩, ha, rfl⟩ := List.mem_map.mp hx
    obtain ⟨⟨y, b⟩, hb, rfl⟩ := List.mem_map.mp hy
    exact h x y ⟨a, NameMap.mem_entries.mp ha⟩ ⟨b, NameMap.mem_entries.mp hb⟩ heq
  rw [relabel, NameMap.find?_ofList_eq_some_iff hnodup, List.mem_map]
  constructor
  · rintro ⟨⟨x, b⟩, hmem, heq⟩
    obtain ⟨rfl, rfl⟩ := Prod.mk.inj heq
    exact ⟨x, rfl, NameMap.mem_entries.mp hmem⟩
  · rintro ⟨x, rfl, hx⟩
    exact ⟨(x, binding), NameMap.mem_entries.mpr hx, rfl⟩

section Injective

variable (hrename : Function.Injective rename)

include hrename

/-- What is bound in a renamed substitution is bound to a variable of this name. -/
theorem find?_relabel_iff {name : String} {binding : Binding} :
    (σ.relabel rename).find? name = some binding ↔
      ∃ x, rename x = name ∧ σ.find? x = some binding :=
  find?_relabel_eq_some_iff fun _ _ _ _ heq => hrename heq

/-- A renamed variable is bound to the same. -/
theorem find?_relabel (x : String) : (σ.relabel rename).find? (rename x) = σ.find? x := by
  refine Option.ext fun binding => (find?_relabel_iff hrename).trans ?_
  constructor
  · rintro ⟨y, heq, hy⟩
    exact hrename heq ▸ hy
  · exact fun hx => ⟨x, rfl, hx⟩

/-- The entries of a renamed substitution are the renamed entries. -/
theorem mem_entries_relabel {name : String} {binding : Binding} :
    (name, binding) ∈ (σ.relabel rename).entries ↔
      ∃ x, rename x = name ∧ (x, binding) ∈ σ.entries := by
  simp only [NameMap.mem_entries, find?_relabel_iff hrename]

/-! ### Binding -/

/-- Renaming commutes with binding a variable. -/
theorem relabel_insert (x : String) (binding : Binding) :
    relabel rename (σ.insert x binding) = (σ.relabel rename).insert (rename x) binding := by
  refine NameMap.ext_some fun name value => ?_
  rw [find?_relabel_iff hrename, NameMap.find?_insert]
  by_cases hname : name = rename x
  · rw [if_pos hname, hname]
    constructor
    · rintro ⟨y, heq, hy⟩
      rwa [NameMap.find?_insert, if_pos (hrename heq)] at hy
    · exact fun hvalue => ⟨x, rfl, by rwa [NameMap.find?_insert, if_pos rfl]⟩
  · rw [if_neg hname, find?_relabel_iff hrename]
    refine exists_congr fun y => and_congr_right fun heq => ?_
    rw [NameMap.find?_insert, if_neg]
    rintro rfl
    exact hname heq.symm

/-- Binding a renamed variable. -/
theorem extend?_relabel (x : String) (binding : Binding) :
    (σ.relabel rename).extend? (rename x) binding =
      (σ.extend? x binding).map (relabel rename) := by
  unfold extend?
  rw [find?_relabel hrename]
  cases σ.find? x with
  | none => exact congrArg some (relabel_insert hrename x binding).symm
  | some existing =>
    dsimp only
    split <;> rfl

/-- Binding many renamed variables. -/
theorem bindAll?_relabel (entries : List (String × Binding)) :
    (σ.relabel rename).bindAll? (entries.map fun entry => (rename entry.1, entry.2)) =
      (σ.bindAll? entries).map (relabel rename) := by
  induction entries generalizing σ with
  | nil => rfl
  | cons entry rest ih =>
    obtain ⟨x, binding⟩ := entry
    rw [List.map_cons, bindAll?_cons, bindAll?_cons, extend?_relabel hrename]
    cases σ.extend? x binding with
    | none => rfl
    | some extended => exact ih

omit hrename in
/-- The order in which variables are bound makes no difference. -/
theorem bindAll?_congr {entries others : List (String × Binding)}
    (h : ∀ entry, entry ∈ entries ↔ entry ∈ others) : σ.bindAll? entries = σ.bindAll? others := by
  refine Option.ext fun ρ => ?_
  rw [bindAll?_eq_some_iff, bindAll?_eq_some_iff]
  simp only [h]

/-- The union of renamed substitutions. -/
theorem union?_relabel :
    (σ.relabel rename).union? (τ.relabel rename) = (σ.union? τ).map (relabel rename) := by
  rw [union?, union?, ← bindAll?_relabel hrename]
  refine bindAll?_congr ?_
  rintro ⟨name, binding⟩
  rw [mem_entries_relabel hrename, List.mem_map]
  constructor
  · rintro ⟨x, rfl, hx⟩
    exact ⟨(x, binding), hx, rfl⟩
  · rintro ⟨⟨x, b⟩, hx, heq⟩
    obtain ⟨rfl, rfl⟩ := Prod.mk.inj heq
    exact ⟨x, rfl, hx⟩

end Injective

end Substitution

/-! ### Constraints -/

/-- The check on renamed variables. -/
def Constraint.relabel (rename : String → String) (c : Constraint) : Constraint :=
  { c with variableNames := c.variableNames.map rename }

/-- A constraint holds of a renamed substitution on its renamed variables. -/
theorem Constraint.holds_relabel (hrename : Function.Injective rename) (c : Constraint)
    (σ : Substitution) : (c.relabel rename).holds (σ.relabel rename) = c.holds σ :=
  Substitution.satisfies_map (fun x _ => Substitution.find?_relabel hrename x) _

/-! ### Places -/

/-- The place with renamed variables. -/
def Place.relabel (rename : String → String) (place : Place) : Place :=
  { place with subst := place.subst.relabel rename }

section Injective

variable (hrename : Function.Injective rename) (name : Option String) (place : Place)

include hrename

/-- Renaming commutes with binding a variable at a place. -/
theorem Place.binding_relabel (value : Binding) :
    (place.relabel rename).binding (name.map rename) value =
      (place.binding name value).map (relabel rename) := by
  cases name with
  | none => rfl
  | some name =>
    simp only [Place.binding, Option.map_some, Place.relabel,
      Substitution.extend?_relabel hrename]
    cases place.subst.extend? name value <;> rfl

/-- Renaming commutes with binding a default at a place. -/
theorem Place.skipping_relabel (default : Option Term) :
    (place.relabel rename).skipping (name.map rename) default =
      (place.skipping name default).map (relabel rename) := by
  cases default with
  | none => rfl
  | some default => exact Place.binding_relabel hrename name place (.single default)

/-- Renaming commutes with growing a run. -/
theorem Place.growing_relabel (wrap : Option Head) (longer : Nat) (run : List Term) :
    Place.growing (name.map rename) wrap longer run (place.relabel rename) =
      (Place.growing name wrap longer run place).map (relabel rename) := by
  induction longer generalizing run place with
  | zero => exact Place.binding_relabel hrename name place _
  | succ longer ih =>
    rw [Place.growing, Place.growing, Place.binding_relabel hrename, List.map_append]
    refine congrArg _ ?_
    rw [show (place.relabel rename).queue = place.queue from rfl]
    cases place.queue.grow? run with
    | none => rfl
    | some grown => exact ih { place with queue := grown.2 } grown.1

/-- **The places behind an ordinary edge** for renamed variables. -/
theorem Label.advance_relabel (matcher other : Option OperandMatcher) (label : Label)
    (hlabel : ∀ index, label ≠ .operands index) :
    label.advance other (name.map rename) (place.relabel rename) =
      (label.advance matcher name place).map (Place.relabel rename) := by
  cases label with
  | enter head =>
    simp only [Label.advance, Place.relabel]
    cases place.queue.enter? head <;> rfl
  | close =>
    simp only [Label.advance, Place.relabel]
    cases place.queue.close? <;> rfl
  | atom expected =>
    simp only [Label.advance, Place.relabel]
    cases place.queue.takeIf? (· = expected) <;> rfl
  | one kind default =>
    rw [Label.advance, Label.advance, Place.skipping_relabel hrename, List.map_append]
    refine congrArg _ ?_
    simp only [show (place.relabel rename).queue = place.queue from rfl]
    cases place.queue.takeIf? fun t => kind.all t.isSymbolOf with
    | none => rfl
    | some taken =>
      exact Place.binding_relabel hrename name { place with queue := taken.2 } _
  | run minCount wrap default =>
    rw [Label.advance, Label.advance, Place.skipping_relabel hrename, List.map_append]
    refine congrArg _ ?_
    simp only [show (place.relabel rename).queue = place.queue from rfl]
    cases place.queue.takeRun? (if default.isSome then max minCount 1 else minCount) with
    | none => rfl
    | some taken =>
      exact Place.growing_relabel hrename name { place with queue := taken.2 } wrap _ _
  | commutative head =>
    simp only [Label.advance, show (place.relabel rename).queue = place.queue from rfl]
    cases place.queue.takeIf? (·.hasHead head) <;> rfl
  | operands index => exact absurd rfl (hlabel index)

end Injective

end TermNet
