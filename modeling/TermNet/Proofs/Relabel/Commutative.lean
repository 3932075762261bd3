import TermNet.Proofs.Commutative.Distinct
import TermNet.Proofs.Relabel.Substitution

namespace TermNet

/-!
# Commutative arguments with renamed variables

The operands of a commutative operation and its sequence variables may stand in any order,
and have any names.

* `exists_rearranging` — what belongs to the elements of a list, after these have been put
  into another order;
* `exists_partitions_perm` — the partitions for variables in another order;
* `outcomes_relabel` — the matches of one pairing;
* `matchSorted_relabel` — renaming the variables, numbering the operands differently and
  reordering both renames the matches.
-/

variable {rename : String → String}

/-- The sequence variable with another name. -/
def SequenceVariable.relabel (rename : String → String) (var : SequenceVariable) :
    SequenceVariable :=
  { var with name := var.name.map rename }

/-! ### Other orders -/

/-- `forth` puts what belongs to the elements of `xs` into the order of `ys`, and `back` undoes
    this. -/
def Rearranges {α β : Type} (xs ys : List α) (forth back : List β → List β) : Prop :=
  ∀ zs, zs.length = xs.length →
    (forth zs).length = ys.length ∧ (xs.zip zs).Perm (ys.zip (forth zs)) ∧ back (forth zs) = zs

/-- **Another order** for some elements is one for what belongs to them. -/
theorem exists_rearranging {α β : Type} {xs ys : List α} (h : xs.Perm ys) :
    ∃ forth back : List β → List β, Rearranges xs ys forth back ∧ Rearranges ys xs back forth := by
  induction h with
  | nil => exact ⟨id, id, fun _ h => ⟨h, .refl _, rfl⟩, fun _ h => ⟨h, .refl _, rfl⟩⟩
  | cons x _ ih =>
    obtain ⟨forth, back, hforth, hback⟩ := ih
    -- The first element stays where it is.
    let onTail := fun (f : List β → List β) (zs : List β) => zs.take 1 ++ f zs.tail
    have hcons : ∀ {xs ys : List α} {forth back : List β → List β}, Rearranges xs ys forth back →
        Rearranges (x :: xs) (x :: ys) (onTail forth) (onTail back) := by
      intro xs ys forth back hforth zs hzs
      cases zs with
      | nil => simp at hzs
      | cons z zs =>
        obtain ⟨hlength, hperm, hinverse⟩ := hforth zs (Nat.succ.inj hzs)
        exact ⟨congrArg Nat.succ hlength, hperm.cons (x, z), congrArg (z :: ·) hinverse⟩
    exact ⟨onTail forth, onTail back, hcons hforth, hcons hback⟩
  | swap x y zs =>
    -- Swapping two elements is undone by swapping them once more.
    let swapped : List β → List β := fun parts => (parts.take 2).reverse ++ parts.drop 2
    have hswap : ∀ x y, Rearranges (y :: x :: zs) (x :: y :: zs) swapped swapped := by
      intro x y parts hparts
      obtain _ | ⟨a, _ | ⟨b, rest⟩⟩ := parts
      · simp at hparts
      · simp at hparts
      · exact ⟨hparts, .swap (x, b) (y, a) _, rfl⟩
    exact ⟨swapped, swapped, hswap x y, hswap y x⟩
  | trans _ _ ih₁ ih₂ =>
    obtain ⟨forth₁, back₁, hforth₁, hback₁⟩ := ih₁
    obtain ⟨forth₂, back₂, hforth₂, hback₂⟩ := ih₂
    -- One rearrangement after the other, undone in the opposite order.
    have htrans : ∀ {xs ys zs : List α} {f g f' g' : List β → List β}, Rearranges xs ys f g →
        Rearranges ys zs f' g' → Rearranges xs zs (f' ∘ f) (g ∘ g') := by
      intro xs ys zs f g f' g' hf hf' parts hparts
      obtain ⟨hlength, hperm, hinverse⟩ := hf parts hparts
      obtain ⟨hlength', hperm', hinverse'⟩ := hf' (f parts) hlength
      refine ⟨hlength', hperm.trans hperm', ?_⟩
      rw [Function.comp_apply, Function.comp_apply, hinverse', hinverse]
    exact ⟨forth₂ ∘ forth₁, back₁ ∘ back₂, htrans hforth₁ hforth₂, htrans hback₂ hback₁⟩

/-! ### Partitions -/

/-- Partitions do not depend on names. -/
theorem partitions_relabel (leftover : List Term) (vars : List SequenceVariable) :
    partitions leftover (vars.map (·.relabel rename)) = partitions leftover vars := by
  have hsplit : ∀ distinct available, Partition.split distinct (vars.map (·.relabel rename))
      available = Partition.split distinct vars available := by
    intro distinct
    induction vars with
    | nil => exact fun _ => rfl
    | cons var rest ih =>
      intro available
      rw [List.map_cons, Partition.split, Partition.split, List.isEmpty_map]
      simp only [ih]
      rfl
  exact hsplit _ _

/-- A partition stays one when variables and parts are reordered alike. -/
theorem IsPartition.rearrange {leftover : List Term} {vars others : List SequenceVariable}
    {parts more : List (List Term)} (h : IsPartition leftover vars parts)
    (hlength : others.length = more.length) (hperm : (vars.zip parts).Perm (others.zip more)) :
    IsPartition leftover others more where
  admitted := List.forall₂_iff_zip.mpr
    ⟨hlength, fun hmem => (List.forall₂_iff_zip.mp h.admitted).2 (hperm.mem_iff.mpr hmem)⟩
  perm := h.perm.trans (hperm.flatMap_right _)

/-- **The partitions for variables in another order** are the same ones in that order. -/
theorem exists_partitions_perm {vars others : List SequenceVariable} (h : vars.Perm others)
    (leftover : List Term) :
    ∃ forth : List (List Term) → List (List Term),
      (∀ parts ∈ partitions leftover vars, (vars.zip parts).Perm (others.zip (forth parts))) ∧
      ((partitions leftover vars).map forth).Perm (partitions leftover others) := by
  obtain ⟨forth, back, hforth, hback⟩ := exists_rearranging (β := List Term) h
  have hlength : ∀ {vars}, ∀ parts ∈ partitions leftover vars, parts.length = vars.length :=
    fun parts hparts => (mem_partitions_iff.mp hparts).admitted.length_eq.symm
  refine ⟨forth, fun parts hparts => (hforth parts (hlength parts hparts)).2.1, ?_⟩
  -- Both lists have no duplicates, so it is enough to compare their members.
  have hnodup : ((partitions leftover vars).map forth).Nodup := by
    refine (nodup_partitions leftover vars).map_on fun parts hparts more hmore heq => ?_
    rw [← (hforth parts (hlength parts hparts)).2.2, heq, (hforth more (hlength more hmore)).2.2]
  refine (List.perm_ext_iff_of_nodup hnodup (nodup_partitions leftover others)).mpr fun more => ?_
  rw [List.mem_map]
  constructor
  · rintro ⟨parts, hparts, rfl⟩
    obtain ⟨hmore, hperm, -⟩ := hforth parts (hlength parts hparts)
    exact mem_partitions_iff.mpr ((mem_partitions_iff.mp hparts).rearrange hmore.symm hperm)
  · intro hmore
    obtain ⟨hparts, hperm, hinverse⟩ := hback more (hlength more hmore)
    exact ⟨back more, mem_partitions_iff.mpr
      ((mem_partitions_iff.mp hmore).rearrange hparts.symm hperm), hinverse⟩

namespace CommutativePattern

/-! ### One pairing -/

section Injective

variable (hrename : Function.Injective rename) {ways others : Nat → Term → List Substitution}
variable {label : Nat → Nat} {pairs : List (Nat × Term)}

include hrename

/-- Binding renamed sequence variables, in another order. -/
theorem bindVariables?_relabel (head : Head) {vars reordered : List SequenceVariable}
    {parts more : List (List Term)}
    (hperm : ((vars.map (·.relabel rename)).zip parts).Perm (reordered.zip more))
    (σ : Substitution) :
    bindVariables? head (σ.relabel rename) reordered more =
      (bindVariables? head σ vars parts).map (·.relabel rename) := by
  unfold bindVariables?
  rw [← Substitution.bindAll?_relabel hrename]
  have hentries : (((vars.map (·.relabel rename)).zip parts).filterMap fun pair =>
        pair.1.name.map fun name => (name, runBinding head pair.1 pair.2)) =
      ((vars.zip parts).filterMap fun pair =>
        pair.1.name.map fun name => (name, runBinding head pair.1 pair.2)).map
          fun entry => (rename entry.1, entry.2) := by
    rw [List.zip_map_left, List.filterMap_map, List.map_filterMap]
    refine List.filterMap_congr ?_
    rintro ⟨var, run⟩ _
    simp only [Function.comp_apply, Prod.map_apply, SequenceVariable.relabel, Option.map_map]
    rfl
  rw [← hentries]
  exact (Substitution.bindAll?_congr fun entry => (hperm.filterMap _).mem_iff).symm

/-- Unions of renamed ways. -/
theorem unionPairs_rename
    (hways : ∀ pair ∈ pairs,
      (others (label pair.1) pair.2).Perm ((ways pair.1 pair.2).map (·.relabel rename)))
    (σ : Substitution) :
    (unionPairs others (pairs.map fun pair => (label pair.1, pair.2)) (σ.relabel rename)).Perm
      ((unionPairs ways pairs σ).map (·.relabel rename)) := by
  induction pairs generalizing σ with
  | nil => exact .refl _
  | cons pair rest ih =>
    have hrest := ih fun pair hpair => hways pair (List.mem_cons_of_mem _ hpair)
    have hfirst : ((others (label pair.1) pair.2).filterMap (σ.relabel rename).union?).Perm
        (((ways pair.1 pair.2).filterMap σ.union?).map (·.relabel rename)) := by
      refine ((hways pair List.mem_cons_self).filterMap _).trans (.of_eq ?_)
      rw [List.filterMap_map, List.map_filterMap]
      exact List.filterMap_congr fun τ _ => Substitution.union?_relabel hrename
    rw [List.map_cons, unionPairs, unionPairs, List.map_flatMap]
    refine (hfirst.flatMap_right _).trans ?_
    rw [List.flatMap_map]
    exact List.Perm.flatMap_left _ fun τ _ => hrest τ

/-- **The matches of one pairing** under other names and in another order. -/
theorem outcomes_relabel (head : Head) {vars reordered : List SequenceVariable}
    (hvars : reordered.Perm (vars.map (·.relabel rename))) (arguments : List Term)
    (hways : ∀ pair ∈ pairs,
      (others (label pair.1) pair.2).Perm ((ways pair.1 pair.2).map (·.relabel rename)))
    (σ : Substitution) :
    (outcomes head reordered arguments others (σ.relabel rename)
        (pairs.map fun pair => (label pair.1, pair.2))).Perm
      ((outcomes head vars arguments ways σ pairs).map (·.relabel rename)) := by
  unfold outcomes
  rw [List.map_map]
  obtain ⟨forth, hzip, hpartitions⟩ :=
    exists_partitions_perm hvars.symm (arguments.diff (pairs.map Prod.snd))
  refine (hpartitions.symm.flatMap_right _).trans ?_
  rw [partitions_relabel] at hzip ⊢
  rw [List.flatMap_map, List.map_flatMap]
  refine List.Perm.flatMap_left _ fun parts hparts => ?_
  refine ((unionPairs_rename hrename hways σ).filterMap _).trans (.of_eq ?_)
  rw [List.filterMap_map, List.map_filterMap]
  exact List.filterMap_congr fun union _ =>
    bindVariables?_relabel hrename head (hzip parts hparts) union

/-! ### All matches -/

/-- **Renaming the variables renames the matches,** whatever numbers the operands have and
    in whatever order they and the sequence variables stand. -/
theorem matchSorted_relabel (pattern other : CommutativePattern) (head : Head)
    {arguments : List Term} {found more : Term → List (Nat × Substitution)} {label : Nat → Nat}
    (harguments : arguments.Pairwise (fun s t => s.le t = true))
    (hpattern : pattern.operands.Pairwise (· ≤ ·)) (hother : other.operands.Pairwise (· ≤ ·))
    (hlabel : Set.InjOn label {operand | operand ∈ pattern.operands})
    (hoperands : other.operands.Perm (pattern.operands.map label))
    (hvars : other.sequenceVars.Perm (pattern.sequenceVars.map (·.relabel rename)))
    (hways : ∀ operand ∈ pattern.operands, ∀ t ∈ arguments,
      (fits (label operand) (more t)).Perm ((fits operand (found t)).map (·.relabel rename)))
    (σ : Substitution) :
    (other.matchSorted head arguments (arguments.map more) (σ.relabel rename)).Perm
      ((pattern.matchSorted head arguments (arguments.map found) σ).map (·.relabel rename)) := by
  rw [matchSorted_eq, matchSorted_eq, List.map_flatMap]
  refine (flatMap_matchings_perm harguments hpattern hother hlabel hoperands
    (g := fun pairs => (outcomes head pattern.sequenceVars arguments (waysOf found) σ pairs).map
      (·.relabel rename))
    (h := fun pairs => outcomes head other.sequenceVars arguments (waysOf more)
      (σ.relabel rename) pairs)
    (fun operand hoperand t ht => ?_) fun pairs hpairs renumbered hperm => ?_).symm
  -- An operand matches an argument after renaming if it did before.
  · have hperm := hways operand hoperand t ht
    exact ⟨fun hnil => List.map_eq_nil_iff.mp (hperm.symm.trans (.of_eq hnil)).eq_nil,
      fun hnil => (hperm.trans (.of_eq (List.map_eq_nil_iff.mpr hnil))).eq_nil⟩
  · have hpair : ∀ pair ∈ pairs, (waysOf more (label pair.1) pair.2).Perm
        ((waysOf found pair.1 pair.2).map (·.relabel rename)) := fun pair hpair =>
      hways pair.1 (hpairs.operands.mem_iff.mp (List.mem_map_of_mem hpair)) pair.2
        (hpairs.arguments.subset (List.mem_map_of_mem hpair))
    exact (outcomes_relabel hrename head hvars arguments hpair σ).symm.trans (outcomes_perm hperm)

end Injective

end CommutativePattern

end TermNet
