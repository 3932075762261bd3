import Mathlib.Data.List.Nodup
import Mathlib.Data.List.Perm.Subperm
import TermNet.Commutative
import TermNet.Proofs.Bipartite.CompleteMatchings
import TermNet.Proofs.Term.Order

namespace TermNet.CommutativePattern

/-!
# Pairings of operands and arguments

A matching of the graph of slots and arguments says which argument each operand gets.
As far as the results are concerned, only the pairs of operands and arguments count,
and how often each of them occurs.

* `IsPairing` — pairs for all operands, with different arguments that fit;
* `chosen` — the arguments of an assignment, in the order of the slots;
* `isPairing_of_isAssignment`, `exists_isAssignment` — pairings are the pairs of assignments;
* `exists_matching`, `matching_unique` — each of them belongs to one complete matching.
-/

/-- The edges of an operand: the arguments that fit it, with their ways. -/
def rowOf (found : Term → List (Nat × Substitution)) (arguments : List Term) (operand : Nat) :
    List (Nat × List Substitution) :=
  (arguments.map found).zipIdx.filterMap fun (ways, argument) =>
    match fits operand ways with
    | [] => none
    | fitting => some (argument, fitting)

/-- The arguments of an assignment. -/
def chosen (arguments : List Term) (f : List Nat) : List Term := f.filterMap (arguments[·]?)

/-- The complete matchings of sorted arguments. -/
def matchings (pattern : CommutativePattern) (arguments : List Term)
    (found : Term → List (Nat × Substitution)) : List (List Nat) :=
  (pattern.slotGraph (arguments.map found)).completeMatchings
    (fun a b => pattern.operands[a]? = pattern.operands[b]?)
    (fun a b => arguments[a]? = arguments[b]?)

/-- Pairs for all operands, with different arguments, each of which fits its operand. -/
structure IsPairing (operands : List Nat) (arguments : List Term)
    (found : Term → List (Nat × Substitution)) (pairs : List (Nat × Term)) : Prop where
  operands : (pairs.map Prod.fst).Perm operands
  arguments : (pairs.map Prod.snd).Subperm arguments
  fits : ∀ pair ∈ pairs, fits pair.1 (found pair.2) ≠ []

variable {pattern : CommutativePattern} {arguments : List Term}
variable {found : Term → List (Nat × Substitution)}

/-! ### The graph -/

/-- A substitution fits an operand if it is found for that operand. -/
theorem mem_fits_iff {operand : Nat} {ways : List (Nat × Substitution)} {σ : Substitution} :
    σ ∈ fits operand ways ↔ (operand, σ) ∈ ways := by
  simp only [fits, List.mem_filterMap, Prod.exists, Option.ite_none_right_eq_some,
    Option.some.injEq]
  constructor
  · rintro ⟨_, _, hmem, rfl, rfl⟩
    exact hmem
  · intro hmem
    exact ⟨operand, σ, hmem, rfl, rfl⟩

/-- The graph has a row for each operand. -/
theorem slotGraph_rows : (pattern.slotGraph (arguments.map found)).rows =
    pattern.operands.map (rowOf found arguments) := rfl

/-- In the row of an operand stand the arguments that fit it, with the ways in which they do. -/
theorem mem_rowOf {operand r : Nat} {ways : List Substitution} :
    (r, ways) ∈ rowOf found arguments operand ↔
      ∃ t, arguments[r]? = some t ∧ ways = fits operand (found t) ∧ ways ≠ [] := by
  simp only [rowOf, List.mem_filterMap, Prod.exists, List.mk_mem_zipIdx_iff_getElem?,
    List.getElem?_map, Option.map_eq_some_iff]
  constructor
  · rintro ⟨all, argument, ⟨t, ht, rfl⟩, h⟩
    split at h
    · simp at h
    · rename_i hne
      obtain ⟨rfl, rfl⟩ := Prod.mk.injEq .. ▸ Option.some.inj h
      exact ⟨t, ht, rfl, hne⟩
  · rintro ⟨t, ht, rfl, hne⟩
    refine ⟨found t, r, ⟨t, ht, rfl⟩, ?_⟩
    split
    · contradiction
    · rfl

/-- An argument is a neighbour of an operand if it fits it in some way. -/
theorem mem_map_fst_rowOf {operand r : Nat} :
    r ∈ (rowOf found arguments operand).map Prod.fst ↔
      ∃ t, arguments[r]? = some t ∧ fits operand (found t) ≠ [] := by
  simp only [List.mem_map, Prod.exists, exists_and_right, exists_eq_right, mem_rowOf]
  constructor
  · rintro ⟨ways, t, ht, rfl, hne⟩
    exact ⟨t, ht, hne⟩
  · rintro ⟨t, ht, hne⟩
    exact ⟨_, t, ht, rfl, hne⟩

/-- No argument stands twice in a row. -/
theorem nodup_rowOf (operand : Nat) : ((rowOf found arguments operand).map Prod.fst).Nodup := by
  have hpositions : (arguments.map found).zipIdx.Pairwise (fun a b => a.2 ≠ b.2) := by
    rw [← List.pairwise_map, List.zipIdx_map_snd]
    exact List.nodup_range'
  unfold rowOf
  rw [List.Nodup, List.pairwise_map, List.pairwise_filterMap]
  have hposition : ∀ (a : List (Nat × Substitution) × Nat) x,
      (match fits operand a.1 with
        | [] => none
        | fitting => some (a.2, fitting)) = some x → x.1 = a.2 := by
    intro a x hx
    split at hx
    · exact absurd hx (by simp)
    · rw [← Option.some.inj hx]
  refine hpositions.imp fun {a b} hne x hx y hy heq => hne ?_
  rw [← hposition a x hx, ← hposition b y hy, heq]

/-- The neighbours of all operands are arguments. -/
theorem inRange_slotGraph : (pattern.slotGraph (arguments.map found)).InRange := by
  intro row hrow r hr
  rw [slotGraph_rows] at hrow
  obtain ⟨operand, -, rfl⟩ := List.mem_map.mp hrow
  obtain ⟨t, ht, -⟩ := mem_map_fst_rowOf.mp hr
  obtain ⟨hlt, -⟩ := List.getElem?_eq_some_iff.mp ht
  simpa [slotGraph] using hlt

/-- Equal operands, and equal arguments, have the same edges. -/
theorem respects_slotGraph : Bipartite.Respects (pattern.slotGraph (arguments.map found)).rows
    (fun a b => pattern.operands[a]? = pattern.operands[b]?)
    (fun a b => arguments[a]? = arguments[b]?) := by
  constructor
  · intro l row next hsame hrow hnext r
    rw [slotGraph_rows, List.getElem?_map] at hrow hnext
    rw [decide_eq_true_eq] at hsame
    rw [hsame] at hrow
    rw [Option.some.inj (hrow.symm.trans hnext)]
  · intro s hsame row hrow
    rw [decide_eq_true_eq] at hsame
    rw [slotGraph_rows] at hrow
    obtain ⟨operand, -, rfl⟩ := List.mem_map.mp hrow
    rw [mem_map_fst_rowOf, mem_map_fst_rowOf, hsame]

/-! ### Arguments in the order of the slots -/

/-- Some of the elements of a list stand at different positions of it. -/
theorem exists_positions {α : Type} {xs ys : List α} (h : xs.Subperm ys) :
    ∃ f : List Nat, f.Nodup ∧ f.map (ys[·]?) = xs.map some := by
  obtain ⟨zs, hperm, hsub⟩ := h
  have hsublist : ∃ f : List Nat, f.Nodup ∧ f.map (ys[·]?) = zs.map some := by
    clear hperm
    induction hsub with
    | slnil => exact ⟨[], .nil, rfl⟩
    | cons y _ ih =>
      obtain ⟨f, hnodup, hmap⟩ := ih
      refine ⟨f.map (· + 1), hnodup.map fun _ _ => Nat.succ.inj, ?_⟩
      rw [List.map_map, ← hmap]
      exact List.map_congr_left fun r _ => List.getElem?_cons_succ
    | cons_cons y _ ih =>
      obtain ⟨f, hnodup, hmap⟩ := ih
      refine ⟨0 :: f.map (· + 1), ?_, ?_⟩
      · refine List.nodup_cons.mpr ⟨fun hmem => ?_, hnodup.map fun _ _ => Nat.succ.inj⟩
        obtain ⟨r, -, hr⟩ := List.mem_map.mp hmem
        exact Nat.succ_ne_zero r hr
      · rw [List.map_cons, List.map_cons, List.map_map, ← hmap]
        refine congrArg (some y :: ·) (List.map_congr_left fun r _ => ?_)
        exact List.getElem?_cons_succ
  -- What is at the positions of a sublist is the list up to order.
  obtain ⟨f, hnodup, hmap⟩ := hsublist
  obtain ⟨g, hg, hgmap⟩ := Bipartite.exists_perm_map (hmap ▸ hperm.map some)
  exact ⟨g, hg.nodup_iff.mpr hnodup, hgmap⟩

/-- The first argument, and those of the other slots. -/
theorem chosen_cons {r : Nat} {t : Term} (h : arguments[r]? = some t) (f : List Nat) :
    chosen arguments (r :: f) = t :: chosen arguments f := by
  rw [chosen, List.filterMap_cons, h]
  rfl

/-- The positions of arguments stand for these arguments. -/
theorem map_getElem?_eq {f : List Nat} (h : ∀ r ∈ f, r < arguments.length) :
    f.map (arguments[·]?) = (chosen arguments f).map some := by
  induction f with
  | nil => rfl
  | cons r f ih =>
    have hget := List.getElem?_eq_getElem (h r List.mem_cons_self)
    rw [List.map_cons, chosen_cons hget, hget, List.map_cons,
      ih fun s hs => h s (List.mem_cons_of_mem r hs)]

/-- The arguments of slots are known by their positions. -/
theorem chosen_eq_of_map {f : List Nat} {ts : List Term}
    (h : f.map (arguments[·]?) = ts.map some) : chosen arguments f = ts := by
  have hid : chosen arguments f = (f.map (arguments[·]?)).filterMap id := by
    rw [List.filterMap_map]
    rfl
  rw [hid, h, List.filterMap_map]
  exact List.filterMap_some

/-! ### Assignments and pairings -/

/-- The pairs of an assignment. -/
def assignedPairs (pattern : CommutativePattern) (arguments : List Term) (f : List Nat) :
    List (Nat × Term) :=
  pattern.operands.zip (chosen arguments f)

/-- An assignment gives positions of arguments. -/
theorem lt_of_mem_assignment {f : List Nat}
    (hf : Bipartite.IsAssignment (pattern.slotGraph (arguments.map found)).rows f) :
    ∀ r ∈ f, r < arguments.length := by
  intro r hr
  have hlt := hf.lt_right inRange_slotGraph hr
  simpa [slotGraph] using hlt

/-- There is an argument for each operand. -/
theorem length_chosen {f : List Nat}
    (hf : Bipartite.IsAssignment (pattern.slotGraph (arguments.map found)).rows f) :
    (chosen arguments f).length = pattern.operands.length := by
  have hmap := congrArg List.length (map_getElem?_eq (lt_of_mem_assignment hf))
  have hrows := hf.edges.length_eq
  rw [slotGraph_rows, List.length_map] at hrows
  simpa [← hrows] using hmap.symm

/-- The chosen arguments stand at different positions. -/
theorem chosen_subperm {f : List Nat} (hnodup : f.Nodup) (hlt : ∀ r ∈ f, r < arguments.length) :
    (chosen arguments f).Subperm arguments := by
  have hsub : f.Subperm (List.range arguments.length) :=
    hnodup.subperm fun r hr => List.mem_range.mpr (hlt r hr)
  have hall : (List.range arguments.length).filterMap (arguments[·]?) = arguments := by
    refine chosen_eq_of_map (List.ext_getElem? fun i => ?_)
    by_cases hi : i < arguments.length
    · simp [hi]
    · simp [hi]
  obtain ⟨g, hperm, hsublist⟩ := hsub
  refine ⟨g.filterMap (arguments[·]?), hperm.filterMap _, ?_⟩
  conv_rhs => rw [← hall]
  exact hsublist.filterMap _

/-- **An assignment pairs** each operand with a different argument that fits it. -/
theorem isPairing_of_isAssignment {f : List Nat}
    (hf : Bipartite.IsAssignment (pattern.slotGraph (arguments.map found)).rows f) :
    IsPairing pattern.operands arguments found (assignedPairs pattern arguments f) := by
  have hlength := length_chosen hf
  refine ⟨?_, ?_, ?_⟩
  · rw [assignedPairs, List.map_fst_zip (Nat.le_of_eq hlength.symm)]
  · rw [assignedPairs, List.map_snd_zip (Nat.le_of_eq hlength)]
    exact chosen_subperm hf.nodup (lt_of_mem_assignment hf)
  · have hedges := hf.edges
    have hmap := map_getElem?_eq (lt_of_mem_assignment hf)
    rw [slotGraph_rows, List.forall₂_map_left_iff] at hedges
    rintro ⟨operand, t⟩ hpair
    unfold assignedPairs at hpair
    obtain ⟨l, hl, hget⟩ := List.getElem_of_mem hpair
    rw [List.getElem_zip, Prod.mk.injEq] at hget
    rw [List.length_zip] at hl
    have hlf : l < f.length := hedges.length_eq ▸ (by omega)
    have hedge := hedges.get (i := l) (by omega) hlf
    obtain ⟨s, hs, hfits⟩ := mem_map_fst_rowOf.mp hedge
    -- The argument of a pair is the one at the right node of its operand.
    have hentry : arguments[f[l]]? = some t := by
      have h := congrArg (·[l]?) hmap
      rw [List.getElem?_map, List.getElem?_map, List.getElem?_eq_getElem hlf,
        List.getElem?_eq_getElem (by omega), hget.2] at h
      exact Option.some.inj h
    rw [← Option.some.inj (hs.symm.trans hentry), ← hget.1]
    exact hfits

/-- Every pairing consists of the pairs of an assignment. -/
theorem exists_isAssignment {pairs : List (Nat × Term)}
    (h : IsPairing pattern.operands arguments found pairs) :
    ∃ f, Bipartite.IsAssignment (pattern.slotGraph (arguments.map found)).rows f ∧
      (assignedPairs pattern arguments f).Perm pairs := by
  -- The pairs in the order of the operands, which are the left nodes.
  obtain ⟨aligned, hperm, hoperands⟩ := Bipartite.exists_perm_map h.operands
  have hsub : (aligned.map Prod.snd).Subperm arguments :=
    ((hperm.map Prod.snd).subperm).trans h.arguments
  obtain ⟨f, hnodup, hmap⟩ := exists_positions hsub
  have hchosen : chosen arguments f = aligned.map Prod.snd := chosen_eq_of_map hmap
  refine ⟨f, ⟨?_, hnodup⟩, ?_⟩
  · have hpositions : List.Forall₂ (fun pair r => arguments[r]? = some pair.2) aligned f := by
      have heq : List.Forall₂ (· = ·) ((aligned.map Prod.snd).map some)
          (f.map (arguments[·]?)) := by
        rw [hmap]
        exact List.forall₂_same.mpr fun _ _ => rfl
      rw [List.map_map, List.forall₂_map_left_iff, List.forall₂_map_right_iff] at heq
      exact heq.imp fun pair r hr => hr.symm
    have hfits : ∀ pair ∈ aligned, fits pair.1 (found pair.2) ≠ [] := fun pair hpair =>
      h.fits pair (hperm.mem_iff.mp hpair)
    rw [slotGraph_rows, ← hoperands, List.map_map, List.forall₂_map_left_iff]
    have hboth := (List.forall₂_and_left aligned f).mpr ⟨hfits, hpositions⟩
    exact hboth.imp fun pair r hr => mem_map_fst_rowOf.mpr ⟨pair.2, hr.2, hr.1⟩
  · have hzip : assignedPairs pattern arguments f = aligned := by
      rw [assignedPairs, hchosen]
      exact (List.zip_of_prod hoperands rfl).symm
    rw [hzip]
    exact hperm

/-! ### Matchings and pairings -/

/-- Counting pairs of classes counts pairs of operands and arguments. -/
theorem classPairs_eq_map {operands f : List Nat} (l : Nat)
    (hlength : (operands.drop l).length = f.length) (hlt : ∀ r ∈ f, r < arguments.length) :
    Bipartite.classPairs (fun l => operands[l]?) (fun r => arguments[r]?) l f =
      ((operands.drop l).zip (chosen arguments f)).map fun pair => (some pair.1, some pair.2) := by
  induction f generalizing l with
  | nil => simp [Bipartite.classPairs, chosen]
  | cons r f ih =>
    have hl : l < operands.length := by
      rw [List.length_drop, List.length_cons] at hlength
      omega
    have hget := List.getElem?_eq_getElem (hlt r List.mem_cons_self)
    have hrest : (operands.drop (l + 1)).length = f.length := by
      rw [List.length_drop, List.length_cons] at hlength
      rw [List.length_drop]
      omega
    rw [Bipartite.classPairs, ih (l + 1) hrest fun s hs => hlt s (List.mem_cons_of_mem r hs),
      chosen_cons hget, List.drop_eq_getElem_cons hl, List.zip_cons_cons, List.map_cons, hget,
      List.getElem?_eq_getElem hl]

/-- The classes of nodes that an assignment pairs are its pairs. -/
theorem classPairs_eq {f : List Nat}
    (hf : Bipartite.IsAssignment (pattern.slotGraph (arguments.map found)).rows f) :
    Bipartite.classPairs (fun l => pattern.operands[l]?) (fun r => arguments[r]?) 0 f =
      (assignedPairs pattern arguments f).map fun pair => (some pair.1, some pair.2) := by
  have hlength := hf.edges.length_eq
  rw [slotGraph_rows, List.length_map] at hlength
  rw [classPairs_eq_map 0 hlength (lt_of_mem_assignment hf), List.drop_zero]
  rfl

/-- A pair is known by its parts. -/
theorem some_some_injective :
    Function.Injective fun pair : Nat × Term => (some pair.1, some pair.2) := by
  rintro ⟨a, s⟩ ⟨b, t⟩ h
  simpa using h

/-- Alike elements of an ordered list stand next to each other. -/
theorem contiguous_getElem? {α : Type} {le : α → α → Prop} {xs : List α} (h : xs.Pairwise le)
    (antisymm : ∀ a b, le a b → le b a → a = b) : Bipartite.Contiguous fun i => xs[i]? := by
  intro a b c hab hbc hac
  show xs[b]? = xs[a]?
  by_cases hc : c < xs.length
  · rcases Nat.eq_or_lt_of_le hab with rfl | hab
    · rfl
    · have hpairwise := List.pairwise_iff_getElem.mp h
      -- Whatever is between two equal elements is below and above them.
      have hca : xs[a] = xs[c] := by
        have h : xs[a]? = xs[c]? := hac
        rw [List.getElem?_eq_getElem (by omega), List.getElem?_eq_getElem hc] at h
        exact Option.some.inj h
      rcases Nat.eq_or_lt_of_le hbc with rfl | hbc
      · exact hac.symm
      · have hle := hpairwise a b (by omega) (by omega) hab
        have hge := hpairwise b c (by omega) hc hbc
        rw [List.getElem?_eq_getElem (by omega), List.getElem?_eq_getElem (by omega)]
        exact congrArg some (antisymm _ _ (hca ▸ hge) hle)
  · have hnone : xs[a]? = none := by
      have h : xs[a]? = xs[c]? := hac
      rw [h]
      exact List.getElem?_eq_none (by omega)
    rw [hnone]
    rw [List.getElem?_eq_none_iff] at hnone ⊢
    omega

/-- A matching that is listed is an assignment. -/
theorem isAssignment_of_mem_matchings {f : List Nat} (h : f ∈ matchings pattern arguments found) :
    Bipartite.IsAssignment (pattern.slotGraph (arguments.map found)).rows f :=
  Bipartite.isAssignment_of_mem_completeMatchings inRange_slotGraph h

/-- No matching is listed twice. -/
theorem nodup_matchings : (matchings pattern arguments found).Nodup := by
  refine Bipartite.nodup_completeMatchings fun row hrow => ?_
  rw [slotGraph_rows] at hrow
  obtain ⟨operand, -, rfl⟩ := List.mem_map.mp hrow
  exact nodup_rowOf operand

/-- **Every pairing has a complete matching** with its pairs. -/
theorem exists_matching {pairs : List (Nat × Term)}
    (h : IsPairing pattern.operands arguments found pairs) :
    ∃ f ∈ matchings pattern arguments found, (assignedPairs pattern arguments f).Perm pairs := by
  obtain ⟨f, hf, hperm⟩ := exists_isAssignment h
  have hleft : ∀ l, decide (pattern.operands[l]? = pattern.operands[l + 1]?) = true ↔
      pattern.operands[l]? = pattern.operands[l + 1]? := fun l => decide_eq_true_iff
  have hright : ∀ r, decide (arguments[r]? = arguments[r + 1]?) = true ↔
      arguments[r]? = arguments[r + 1]? := fun r => decide_eq_true_iff
  have hadmissible := @Bipartite.exists_admissible _ _ _ _ _ (fun l => pattern.operands[l]?)
    (fun r => arguments[r]?) _ respects_slotGraph hleft hright f hf
  obtain ⟨g, hg, hclasses⟩ := hadmissible
  have hmem : g ∈ matchings pattern arguments found :=
    (Bipartite.mem_completeMatchings_iff inRange_slotGraph).mpr hg
  rw [classPairs_eq (isAssignment_of_mem_matchings hmem), classPairs_eq hf] at hclasses
  exact ⟨g, hmem, ((List.map_perm_map_iff some_some_injective).mp hclasses).trans hperm⟩

/-- **No pairing has two complete matchings,** if operands and arguments are in order. -/
theorem matching_unique (hoperands : pattern.operands.Pairwise (· ≤ ·))
    (harguments : arguments.Pairwise (fun s t => s.le t = true)) {f g : List Nat}
    (hf : f ∈ matchings pattern arguments found) (hg : g ∈ matchings pattern arguments found)
    (hperm : (assignedPairs pattern arguments f).Perm (assignedPairs pattern arguments g)) :
    f = g := by
  have hclasses := hperm.map fun pair : Nat × Term => (some pair.1, some pair.2)
  rw [← classPairs_eq (isAssignment_of_mem_matchings hf),
    ← classPairs_eq (isAssignment_of_mem_matchings hg)] at hclasses
  have hdown : Bipartite.Downward (fun a b => arguments[a]? = arguments[b]?) [] := fun s hs => by
    simp at hs
  exact Bipartite.eq_of_perm_classPairs (fun l => decide_eq_true_iff)
    (fun r => decide_eq_true_iff) (contiguous_getElem? hoperands fun a b => Nat.le_antisymm)
    (contiguous_getElem? harguments fun s t => Term.le_antisymm) hdown
    ((Bipartite.mem_completeMatchings_iff inRange_slotGraph).mp hf)
    ((Bipartite.mem_completeMatchings_iff inRange_slotGraph).mp hg) hclasses

end TermNet.CommutativePattern
