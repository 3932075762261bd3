import Mathlib.Data.List.Forall2
import TermNet.Pattern.Constraint

namespace TermNet

/-!
# Registering constraints

Constraints are registered once and then owned by all patterns that they belong to.
A custom constraint goes by its path and its variables, so that registering is faithful
as long as these stand for one function.

* `Constraint.Follows` — the function of a custom constraint is that of its path and
  variables;
* `ConstraintRegistry.Adds` — what a registry gains, and what stays;
* `adds_registerAll` — registering constraints adds exactly them.
-/

/-- What custom constraints mean, by their paths and their variables. -/
abbrev Meaning := String → List String → List Binding → Bool

/-- A custom check has the function that belongs to its path. -/
def Check.Follows (functions : String → List Binding → Bool) : Check → Prop
  | builtin _ => True
  | custom path function => function = functions path

/-- A custom constraint has the function that belongs to its path and its variables. -/
def Constraint.Follows (meaning : Meaning) (c : Constraint) : Prop :=
  c.check.Follows (meaning · c.variableNames)

variable {meaning : Meaning}

/-- Checks that count as one are the same, if custom ones are what their paths say. -/
theorem Check.eq_of_same {functions : String → List Binding → Bool} {c d : Check}
    (hc : c.Follows functions) (hd : d.Follows functions) (h : c.same d = true) : c = d := by
  cases c with
  | builtin p =>
    cases d with
    | builtin q => simpa [same] using h
    | custom path function => simp [same] at h
  | custom path function =>
    cases d with
    | builtin q => simp [same] at h
    | custom other function' =>
      have hpath : path = other := by simpa [same] using h
      subst hpath
      have hc : function = functions path := hc
      have hd : function' = functions path := hd
      rw [hc, hd]

/-- Every check counts as itself. -/
theorem Check.same_self (c : Check) : c.same c = true := by
  cases c <;> simp [same]

/-- Constraints that count as one are the same, if custom ones are what their paths say. -/
theorem Constraint.eq_of_same {c d : Constraint} (hc : c.Follows meaning)
    (hd : d.Follows meaning) (h : c.same d = true) : c = d := by
  have hboth : c.check.same d.check = true ∧ c.variableNames = d.variableNames := by
    simpa [same] using h
  have hd : d.check.Follows (meaning · c.variableNames) := hboth.2 ▸ hd
  obtain ⟨check, names⟩ := c
  obtain ⟨check', names'⟩ := d
  exact congrArg₂ Constraint.mk (Check.eq_of_same hc hd hboth.1) hboth.2

/-- Every constraint counts as itself. -/
theorem Constraint.same_self (c : Constraint) : c.same c = true := by
  simp [same, Check.same_self]

/-- Counting as one check goes both ways. -/
theorem Check.same_symm {a b : Check} (h : a.same b = true) : b.same a = true := by
  cases a <;> cases b <;> simp_all [same]

/-- Three checks count as one if the first two do, and the last two. -/
theorem Check.same_trans {a b c : Check} (h : a.same b = true) (h' : b.same c = true) :
    a.same c = true := by
  cases a <;> cases b <;> cases c <;> simp_all [same]

namespace Constraint

variable {c d e : Constraint}

/-- Counting as one constraint goes both ways. -/
theorem same_symm (h : c.same d = true) : d.same c = true := by
  simp only [same, Bool.and_eq_true, decide_eq_true_eq] at *
  exact ⟨Check.same_symm h.1, h.2.symm⟩

/-- Three constraints count as one if the first two do, and the last two. -/
theorem same_trans (h : c.same d = true) (h' : d.same e = true) : c.same e = true := by
  simp only [same, Bool.and_eq_true, decide_eq_true_eq] at *
  exact ⟨Check.same_trans h.1 h'.1, h.2.trans h'.2⟩

/-- Constraints that count as one have the same variables. -/
theorem variableNames_eq_of_same (h : c.same d = true) : c.variableNames = d.variableNames := by
  simp only [same, Bool.and_eq_true, decide_eq_true_eq] at h
  exact h.2

end Constraint

namespace ConstraintRegistry

variable {registry more : ConstraintRegistry} {owner : Nat}

/-- All registered constraints follow a meaning. -/
def Follows (meaning : Meaning) (registry : ConstraintRegistry) : Prop :=
  ∀ id c, registry.get? id = some c → c.Follows meaning

/-- **What a registry gains:** the constraints `cs` with the positions `ids`, which the
    pattern `owner` owns.  Everything else stays. -/
structure Adds (registry : ConstraintRegistry) (owner : Nat) (cs : List Constraint)
    (ids : List ConstraintId) (more : ConstraintRegistry) : Prop where
  keeps : ∀ id c, registry.get? id = some c → more.get? id = some c
  owns : ∀ id pattern, pattern ∈ more.owners id ↔
    pattern ∈ registry.owners id ∨ pattern = owner ∧ id ∈ ids
  gains : List.Forall₂ (fun c id => more.get? id = some c) cs ids
  only : ∀ id c, more.get? id = some c → registry.get? id = some c ∨ c ∈ cs

/-- What is registered under a number. -/
theorem get?_eq_some {id : ConstraintId} {c : Constraint} :
    registry.get? id = some c ↔
      ∃ entry, registry.entries[id]? = some entry ∧ entry.constraint = c :=
  Option.map_eq_some_iff

/-- The patterns that own a constraint. -/
theorem mem_owners {id : ConstraintId} {pattern : Nat} :
    pattern ∈ registry.owners id ↔
      ∃ entry, registry.entries[id]? = some entry ∧ pattern ∈ entry.owners := by
  unfold owners
  cases registry.entries[id]? <;> simp

/-- A constraint that is registered already gets one more owner. -/
theorem adds_modify {id : ConstraintId} {entry : RegisteredConstraint}
    (hentry : registry.entries[id]? = some entry) (owner : Nat) :
    registry.Adds owner [entry.constraint] [id] ⟨registry.entries.modify id fun entry =>
      { entry with owners := insertUnique owner entry.owners }⟩ := by
  -- Only owners change, the constraints stay where they are.
  have hget : ∀ other, get? ⟨registry.entries.modify id fun entry =>
      { entry with owners := insertUnique owner entry.owners }⟩ other = registry.get? other := by
    intro other
    rw [get?, get?, List.getElem?_modify]
    by_cases hid : id = other
    · subst hid
      rw [hentry]
      simp
    · simp [hid]
  refine ⟨fun other d hd => by rw [hget, hd], fun other pattern => ?_, ?_,
    fun other d hd => .inl (by rwa [hget] at hd)⟩
  · rw [mem_owners, mem_owners, List.getElem?_modify]
    by_cases hid : id = other
    · subst hid
      rw [hentry]
      simp [or_comm]
    · have hne : other ≠ id := Ne.symm hid
      simp [hid, hne]
  · refine .cons ?_ .nil
    rw [hget]
    exact get?_eq_some.mpr ⟨entry, hentry, rfl⟩

/-- A new constraint stands behind the others. -/
theorem adds_concat (registry : ConstraintRegistry) (c : Constraint) (owner : Nat) :
    registry.Adds owner [c] [registry.entries.length]
      ⟨registry.entries ++ [⟨c, [owner]⟩]⟩ := by
  -- The new constraint has the number of entries as its own number.
  have hentries : ∀ id, (registry.entries ++ [⟨c, [owner]⟩])[id]? =
      if id = registry.entries.length then some ⟨c, [owner]⟩ else registry.entries[id]? := by
    intro id
    by_cases hid : id = registry.entries.length
    · simp [hid]
    · rw [if_neg hid, List.getElem?_append]
      split
      · rfl
      · rename_i hlt
        have hle : registry.entries.length ≤ id := Nat.not_lt.mp hlt
        rw [List.getElem?_eq_none hle, List.getElem?_eq_none]
        rw [List.length_singleton]
        exact Nat.sub_pos_of_lt (Nat.lt_of_le_of_ne hle (Ne.symm hid))
  refine ⟨fun id d hd => ?_, fun id pattern => ?_, ?_, fun id d hd => ?_⟩
  · obtain ⟨entry, hentry, rfl⟩ := get?_eq_some.mp hd
    have hne : id ≠ registry.entries.length :=
      Nat.ne_of_lt (List.getElem?_eq_some_iff.mp hentry).1
    refine get?_eq_some.mpr ⟨entry, ?_, rfl⟩
    rw [hentries, if_neg hne, hentry]
  · rw [mem_owners, mem_owners, hentries]
    by_cases hid : id = registry.entries.length
    · simp [hid]
    · simp [hid]
  · refine .cons (get?_eq_some.mpr ⟨⟨c, [owner]⟩, ?_, rfl⟩) .nil
    rw [hentries, if_pos rfl]
  · obtain ⟨entry, hentry, rfl⟩ := get?_eq_some.mp hd
    rw [hentries] at hentry
    split at hentry
    · rw [← Option.some.inj hentry]
      exact .inr (List.mem_singleton_self c)
    · exact .inl (get?_eq_some.mpr ⟨entry, hentry, rfl⟩)

/-- Registering a constraint adds it. -/
theorem adds_register (hregistry : registry.Follows meaning) {c : Constraint}
    (hc : c.Follows meaning) (owner : Nat) :
    registry.Adds owner [c] [(registry.register c owner).2] (registry.register c owner).1 := by
  unfold register
  cases hfind : registry.entries.findIdx? fun entry => entry.constraint.same c with
  | some id =>
    obtain ⟨hlt, hsame, -⟩ := List.findIdx?_eq_some_iff_getElem.mp hfind
    have hentry : registry.entries[id]? = some registry.entries[id] :=
      List.getElem?_eq_getElem hlt
    -- The same check on the same variables has the same function.
    obtain rfl : registry.entries[id].constraint = c :=
      Constraint.eq_of_same (hregistry id _ (get?_eq_some.mpr ⟨_, hentry, rfl⟩)) hc hsame
    exact adds_modify hentry owner
  | none => exact adds_concat registry c owner

/-- **Registering keeps the meaning of paths,** if the new constraints have it. -/
theorem Adds.follows {cs : List Constraint} {ids : List ConstraintId}
    (h : registry.Adds owner cs ids more) (hregistry : registry.Follows meaning)
    (hcs : ∀ c ∈ cs, c.Follows meaning) : more.Follows meaning := fun id c hc =>
  (h.only id c hc).elim (hregistry id c) (hcs c)

/-- Registering one batch of constraints after another adds both. -/
theorem Adds.trans {between : ConstraintRegistry} {cs ds : List Constraint}
    {ids others : List ConstraintId} (h : registry.Adds owner cs ids between)
    (hmore : between.Adds owner ds others more) :
    registry.Adds owner (cs ++ ds) (ids ++ others) more where
  keeps id c hc := hmore.keeps id c (h.keeps id c hc)
  owns id pattern := by
    rw [hmore.owns, h.owns, List.mem_append, and_or_left, or_assoc]
  gains := List.rel_append (h.gains.imp fun _ _ => hmore.keeps _ _) hmore.gains
  only id c hc := by
    rw [List.mem_append, ← or_assoc]
    exact (hmore.only id c hc).imp_left (h.only id c)

/-- **Registering constraints adds exactly them.** -/
theorem adds_registerAll (hregistry : registry.Follows meaning) {cs : List Constraint}
    (hcs : ∀ c ∈ cs, c.Follows meaning) (owner : Nat) :
    registry.Adds owner cs (registry.registerAll owner cs).2 (registry.registerAll owner cs).1 := by
  induction cs generalizing registry with
  | nil => exact ⟨fun _ _ h => h, fun id pattern => by simp [registerAll], .nil, fun _ _ => .inl⟩
  | cons c rest ih =>
    have hfirst := adds_register hregistry (hcs c List.mem_cons_self) owner
    have hfollows := hfirst.follows hregistry (by simpa using hcs c List.mem_cons_self)
    exact hfirst.trans (ih hfollows fun d hd => hcs d (List.mem_cons_of_mem c hd))

/-! ### What is registered -/

/-- The registered constraints. -/
def constraints (registry : ConstraintRegistry) : List Constraint :=
  registry.entries.map RegisteredConstraint.constraint

/-- A constraint is added behind the others, unless one of them counts as the same. -/
theorem constraints_register (registry : ConstraintRegistry) (c : Constraint) (owner : Nat) :
    (registry.register c owner).1.constraints =
      if registry.constraints.any (·.same c) then registry.constraints
      else registry.constraints ++ [c] := by
  have hany : registry.constraints.any (·.same c) =
      (registry.entries.findIdx? fun entry => entry.constraint.same c).isSome := by
    rw [constraints, List.any_map, List.findIdx?_isSome]
    rfl
  rw [hany, register]
  cases registry.entries.findIdx? fun entry => entry.constraint.same c with
  | some id =>
    show List.map _ (registry.entries.modify id _) = registry.constraints
    refine List.ext_getElem? fun i => ?_
    rw [constraints, List.getElem?_map, List.getElem?_map, List.getElem?_modify]
    cases registry.entries[i]? with
    | none => rfl
    | some entry => by_cases hid : id = i <;> simp [hid]
  | none => simp [constraints]

/-- Nothing else is registered than what is given. -/
theorem mem_constraints_registerAll {cs : List Constraint} {d : Constraint}
    (h : d ∈ (registry.registerAll owner cs).1.constraints) :
    d ∈ registry.constraints ∨ d ∈ cs := by
  induction cs generalizing registry with
  | nil => exact .inl h
  | cons c rest ih =>
    have hrest : d ∈ (registry.register c owner).1.constraints ∨ d ∈ rest := ih h
    rcases hrest with hd | hd
    · rw [constraints_register] at hd
      split at hd
      · exact .inl hd
      · rcases List.mem_append.mp hd with hd | hd
        · exact .inl hd
        · exact .inr (List.mem_singleton.mp hd ▸ List.mem_cons_self)
    · exact .inr (List.mem_cons_of_mem _ hd)

/-- What is registered under a number is registered. -/
theorem mem_constraints_of_get? {id : ConstraintId} {c : Constraint}
    (h : registry.get? id = some c) : c ∈ registry.constraints := by
  obtain ⟨entry, hentry, rfl⟩ := get?_eq_some.mp h
  exact List.mem_map_of_mem (List.mem_of_getElem? hentry)

end ConstraintRegistry

end TermNet
